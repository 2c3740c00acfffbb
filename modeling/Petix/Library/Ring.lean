import Mathlib.Data.List.Basic
import Mathlib.Logic.Function.Basic

/-! # Ring buffers -/

namespace Petix.Library.Ring
open List Function

def length (size lo hi : Nat) : Nat := (hi + size - lo) % size

def contents {α : Type*} (size lo hi : Nat) (buffer : Nat → α) : List α :=
  (range (length size lo hi)).map fun i => buffer ((lo + i) % size)

variable {α : Type*} {size lo hi i : Nat} {buffer : Nat → α}
variable {n mid : Nat}

@[simp] theorem length_contents : (contents size lo hi buffer).length = length size lo hi := by simp [contents]

section
variable (low : lo < size)
include low

theorem length_eq (high : hi < size) : length size lo hi = if lo ≤ hi then hi - lo else hi + size - lo := by
  unfold length
  split_ifs with ordered
  · rw [show hi + size - lo = hi - lo + size by omega, Nat.add_mod_right, Nat.mod_eq_of_lt (by omega)]
  · rw [Nat.mod_eq_of_lt (by omega)]

theorem length_lt : length size lo hi < size := Nat.mod_lt _ (Nat.zero_lt_of_lt low)

theorem succ_eq : (lo + 1) % size = if lo + 1 = size then 0 else lo + 1 := by
  split_ifs with last
  · rw [last, Nat.mod_self]
  · exact Nat.mod_eq_of_lt (by omega)

theorem succ_lt : (lo + 1) % size < size := Nat.mod_lt _ (Nat.zero_lt_of_lt low)

section
variable (high : hi < size)
include high

theorem length_eq_zero_iff : length size lo hi = 0 ↔ hi = lo := by
  rw [length_eq low high]
  split_ifs
  · omega
  · omega

theorem contents_eq_nil_iff : contents size lo hi buffer = [] ↔ hi = lo := by
  rw [← List.length_eq_zero_iff, length_contents, length_eq_zero_iff low high]

theorem full_iff : (hi + 1) % size = lo ↔ length size lo hi = size - 1 := by
  rw [length_eq low high, succ_eq high]
  split_ifs
  · omega
  · omega
  · omega
  · omega

theorem length_pop (some : hi ≠ lo) : length size lo hi = length size ((lo + 1) % size) hi + 1 := by
  rw [length_eq low high, length_eq (succ_lt low) high, succ_eq low]
  split_ifs
  all_goals omega

theorem length_push (room : (hi + 1) % size ≠ lo) : length size lo ((hi + 1) % size) = length size lo hi + 1 := by
  rw [length_eq low high, length_eq low (succ_lt high)]
  rw [succ_eq high] at room ⊢
  split_ifs at room ⊢
  all_goals omega

theorem contents_pop (some : hi ≠ lo) :
    contents size lo hi buffer = buffer lo :: contents size ((lo + 1) % size) hi buffer := by
  unfold contents
  rw [length_pop low high some, range_succ_eq_map, map_cons, map_map, Nat.add_zero, Nat.mod_eq_of_lt low]
  congr 2
  funext i
  simp only [comp_apply, Nat.mod_add_mod]
  congr 2
  omega

theorem index_ne (within : i < length size lo hi) : (lo + i) % size ≠ hi := by
  rw [length_eq low high] at within
  by_cases before : lo + i < size
  · rw [Nat.mod_eq_of_lt before]
    split_ifs at within
    all_goals omega
  · split_ifs at within
    · omega
    · rw [Nat.mod_eq_sub_mod (by omega), Nat.mod_eq_of_lt (by omega)]
      omega

theorem index_length : (lo + length size lo hi) % size = hi := by
  rw [length_eq low high]
  split_ifs
  · rw [show lo + (hi - lo) = hi by omega, Nat.mod_eq_of_lt high]
  · rw [show lo + (hi + size - lo) = hi + size by omega, Nat.add_mod_right, Nat.mod_eq_of_lt high]

theorem contents_push (room : (hi + 1) % size ≠ lo) (x : α) :
    contents size lo ((hi + 1) % size) (update buffer hi x) = contents size lo hi buffer ++ [x] := by
  unfold contents
  rw [length_push low high room, range_succ, map_append, map_singleton, index_length low high,
    update_self]
  congr 1
  apply map_congr_left
  intro _ within
  exact update_of_ne (index_ne low high (mem_range.mp within)) x buffer

end

/-! ## Several rings in one buffer -/

theorem add_eq (within : n ≤ size) : (lo + n) % size = if lo + n < size then lo + n else lo + n - size := by
  split_ifs with before
  · exact Nat.mod_eq_of_lt before
  · rw [Nat.mod_eq_sub_mod (by omega), Nat.mod_eq_of_lt (by omega)]

theorem add_lt (n : Nat) : (lo + n) % size < size := Nat.mod_lt _ (Nat.zero_lt_of_lt low)

section
variable (middle : mid < size) (high : hi < size) (room : length size lo mid + length size mid hi < size)
include middle high room

theorem length_add
    :
    length size lo hi = length size lo mid + length size mid hi := by
  rw [length_eq low middle, length_eq middle high] at *
  rw [length_eq low high]
  split_ifs at *
  all_goals omega

theorem contents_append
    :
    contents size lo hi buffer = contents size lo mid buffer ++ contents size mid hi buffer := by
  unfold contents
  rw [length_add low middle high room, range_add, map_append, map_map]
  congr 1
  apply map_congr_left
  intro _ _
  rw [comp_apply, ← Nat.add_assoc, ← Nat.mod_add_mod, index_length low middle]

theorem contents_update
    (x : α) :
    contents size lo mid (update buffer hi x) = contents size lo mid buffer := by
  apply map_congr_left
  intro _ within
  apply update_of_ne
  apply index_ne low high
  rw [length_add low middle high room]
  exact Nat.lt_add_right _ (mem_range.mp within)

end

section
variable (high : hi < size) (within : n ≤ length size lo hi)
include high within

theorem length_drop :
    length size lo ((lo + n) % size) = n ∧ length size ((lo + n) % size) hi = length size lo hi - n := by
  have less : length size lo hi < size := length_lt low
  rw [length_eq low (add_lt low n), length_eq (add_lt low n) high, add_eq low (by omega)]
  rw [length_eq low high] at *
  split_ifs at *
  all_goals omega

theorem contents_take :
    contents size lo ((lo + n) % size) buffer = (contents size lo hi buffer).take n := by
  unfold contents
  rw [(length_drop low high within).1, ← map_take, take_range, Nat.min_eq_left within]

theorem contents_drop :
    contents size ((lo + n) % size) hi buffer = (contents size lo hi buffer).drop n := by
  obtain ⟨front, _⟩ := length_drop low high within
  have less : length size lo hi < size := length_lt low
  rw [contents_append low (add_lt low n) high (by omega), drop_left' (by rw [length_contents, front])]

end

end

theorem pred_eq (high : hi < size) : (hi + size - 1) % size = if hi = 0 then size - 1 else hi - 1 := by
  split_ifs with first
  · rw [first, Nat.zero_add, Nat.mod_eq_of_lt (by omega)]
  · rw [show hi + size - 1 = hi - 1 + size by omega, Nat.add_mod_right, Nat.mod_eq_of_lt (by omega)]

theorem pred_lt (high : hi < size) : (hi + size - 1) % size < size := Nat.mod_lt _ (Nat.zero_lt_of_lt high)

theorem length_pred (low : lo < size) (high : hi < size) (some : hi ≠ lo) :
    length size lo hi = length size lo ((hi + size - 1) % size) + 1 ∧ length size ((hi + size - 1) % size) hi = 1 := by
  rw [length_eq low high, length_eq low (pred_lt high), length_eq (pred_lt high) high, pred_eq high]
  split_ifs
  all_goals omega

theorem contents_pred (low : lo < size) (high : hi < size) (some : hi ≠ lo) : contents size lo hi buffer =
      contents size lo ((hi + size - 1) % size) buffer ++ [buffer ((hi + size - 1) % size)] := by
  obtain ⟨_, one⟩ := length_pred low high some
  have less : length size lo hi < size := length_lt low
  rw [contents_append low (pred_lt high) high (by omega)]
  congr 1
  unfold contents
  rw [one]
  simp

end Petix.Library.Ring
