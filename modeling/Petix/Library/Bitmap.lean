import Mathlib.Data.List.Basic

/-! # Bitmaps -/

namespace Petix.Library.Bitmap

variable {w : Nat}
variable {words : List (BitVec w)} {i : Nat}

def test (words : List (BitVec w)) (i : Nat) : Bool := (words[i / w]?.getD 0#w).getLsbD (i % w)

def put (words : List (BitVec w)) (i : Nat) (word : BitVec w) : List (BitVec w) := words.set (i / w) word

theorem test_lt (positive : 0 < w) (set : test words i = true) :
    i < words.length * w := by
  by_contra outside
  have past : words.length ≤ i / w := (Nat.le_div_iff_mul_le positive).mpr (by omega)
  simp [test, List.getElem?_eq_none past] at set

theorem index_lt (inside : i < words.length * w) : i / w < words.length :=
  Nat.div_lt_of_lt_mul (by rw [Nat.mul_comm]; exact inside)

theorem test_replicate_zero (n i : Nat) : test (List.replicate n 0#w) i = false := by
  simp only [test, List.getElem?_replicate]
  split_ifs <;> simp

private theorem div_mod_eq {j : Nat} (div : j / w = i / w) (mod : j % w = i % w) : j = i := by
  rw [← Nat.div_add_mod j w, ← Nat.div_add_mod i w, div, mod]

theorem test_put {word : BitVec w} {value : Bool}
    (inside : i / w < words.length)
    (bits : ∀ k < w, word.getLsbD k = if k = i % w then value else (words.get ⟨i / w, inside⟩).getLsbD k)
    (positive : 0 < w) (j : Nat) : test (put words i word) j = if j = i then value else test words j := by
  simp only [test, put, List.getElem?_set]
  by_cases div : i / w = j / w
  · rw [if_pos div, if_pos inside, Option.getD_some, bits (j % w) (Nat.mod_lt _ positive)]
    by_cases mod : j % w = i % w
    · rw [if_pos mod, if_pos (div_mod_eq div.symm mod)]
    · have ne : j ≠ i := fun equal => mod (equal ▸ rfl)
      rw [if_neg mod, if_neg ne, ← div, List.getElem?_eq_getElem inside]
      rfl
  · have ne : j ≠ i := fun equal => div (equal ▸ rfl)
    rw [if_neg div, if_neg ne]

end Petix.Library.Bitmap
