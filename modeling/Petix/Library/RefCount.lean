import Mathlib.Algebra.BigOperators.Fin
import Mathlib.Algebra.BigOperators.Group.Finset.Piecewise
import Mathlib.Algebra.Order.BigOperators.Group.Finset

/-! # Counting references -/

namespace Petix.Library.RefCount
open Function List Finset

variable {ι κ α : Type*} [Fintype ι] [Fintype κ] [DecidableEq α]
variable {places : κ → Option α} {a : α}

def count (places : κ → Option α) (a : α) : Nat := #{i | places i = some a}

def total (rows : ι → κ → Option α) (a : α) : Nat := ∑ p, count (rows p) a

theorem sum_update [DecidableEq ι] (g : ι → Nat) (p : ι) (n : Nat) : ∑ x, update g p n x + g p = ∑ x, g x + n
    := by
  rw [sum_update_of_mem (mem_univ p), ← add_sum_erase _ g (mem_univ p), sdiff_singleton_eq_erase]
  ac_rfl

theorem count_update [DecidableEq κ] (places : κ → Option α) (i : κ) (place : Option α) (a : α) :
    count (update places i place) a + (if places i = some a then 1 else 0) =
      count places a + if place = some a then 1 else 0 := by
  have indicator : (fun j => if update places i place j = some a then 1 else 0) =
      update (fun j => if places j = some a then 1 else 0) i (if place = some a then 1 else 0) := by
    funext j
    by_cases same : j = i
    · subst same
      simp
    · simp [same]
  have sums := sum_update (fun j => if places j = some a then 1 else 0) i (if place = some a then 1 else 0)
  rw [← indicator] at sums
  simpa only [count, card_filter] using sums

theorem total_update [DecidableEq ι] (rows : ι → κ → Option α) (p : ι) (row : κ → Option α) (a : α) :
    total (update rows p row) a + count (rows p) a = total rows a + count row a := by
  have counts : (fun q => count (update rows p row q) a) =
      update (fun q => count (rows q) a) p (count row a) := by
    funext q
    by_cases same : q = p
    · subst same
      simp
    · simp [same]
  unfold total
  rw [counts]
  exact sum_update _ p _

theorem count_pos_iff : 0 < count places a ↔ ∃ i, places i = some a := by
  simp [count, card_pos, Finset.Nonempty]

theorem total_pos_iff {rows : ι → κ → Option α} : 0 < total rows a ↔ ∃ p i, rows p i = some a := by
  simp only [← count_pos_iff]
  constructor
  · intro positive
    by_contra none
    push Not at none
    have zero : total rows a = 0 := sum_eq_zero fun p _ => Nat.le_zero.mp (none p)
    exact absurd positive (by simp [zero])
  · rintro ⟨p, positive⟩
    exact Nat.lt_of_lt_of_le positive (single_le_sum (f := fun q => count (rows q) a) (fun _ _ => Nat.zero_le _) (mem_univ p))

theorem count_empty (empty : ∀ i, places i = none) : count places a = 0 := by
  simp [count, empty]

theorem count_finRange {n : Nat} (places : Fin n → Option α) (a : α) :
    count places a = (finRange n).countP (fun i => places i = some a) := by
  rw [countP_eq_length_filter]
  rfl

end Petix.Library.RefCount
