import Mathlib.Algebra.Order.Ring.Int
import Mathlib.Data.Fin.Basic

/-! # Positions around a circle -/

namespace Petix.Library.Cyclic

variable {n d : Nat} {a b : Fin n}

def after (a : Fin n) (d : Nat) : Fin n := ⟨(a.val + d) % n, Nat.mod_lt _ a.pos⟩

def gap (a b : Fin n) : Nat := if a.val < b.val then b.val - a.val else n - a.val + b.val

theorem val_after (le : d ≤ n) : (after a d).val = if a.val + d < n then a.val + d else a.val + d - n := by
  simp only [after]
  split_ifs with inside
  · exact Nat.mod_eq_of_lt inside
  · rw [Nat.mod_eq_sub_mod (by omega), Nat.mod_eq_of_lt (by omega)]

theorem gap_pos : 1 ≤ gap a b := by
  unfold gap
  split_ifs <;> omega

theorem gap_le : gap a b ≤ n := by
  unfold gap
  split_ifs <;> omega

theorem after_gap (a b : Fin n) : after a (gap a b) = b := by
  apply Fin.ext
  rw [val_after gap_le]
  unfold gap
  split_ifs <;> omega

theorem gap_of_after (short : d < gap a b) : gap (after a d) b = gap a b - d := by
  have le : d ≤ n := short.le.trans gap_le
  unfold gap at short ⊢
  rw [val_after le]
  split_ifs at short ⊢ <;> omega

theorem after_succ [NeZero n] (a : Fin n) (d : Nat) : after a (d + 1) = after a d + 1 := by
  apply Fin.ext
  change (a.val + (d + 1)) % n = ((a.val + d) % n + 1 % n) % n
  rw [← Nat.add_mod, Nat.add_assoc]

theorem after_succ_eq_first (pos : 1 ≤ d) (le : d ≤ n) : after a (d + 1) = after a 1 ↔ d = n := by
  rw [Fin.ext_iff]
  constructor
  · intro equal
    by_contra other
    rw [val_after (by omega), val_after (by omega)] at equal
    split_ifs at equal <;> omega
  · rintro rfl
    simp [after, Nat.add_comm d 1, ← Nat.add_assoc]

end Petix.Library.Cyclic
