import Petix.Kernel.Mem
import Petix.Library.Bitmap

namespace Petix.Proof.Mem
open List Library Kernel.Mem Bitmap

variable {array : List (BitVec 32)} {i : Nat}
variable {fuel : Nat} {w : BitVec 32}

theorem word_ok (inside : i < array.length) : word array i = .ok (array.get ⟨i, inside⟩) := by
  simp [word, getElem?_eq_getElem inside]

theorem word_error (outside : array.length ≤ i) : word array i = .error (.outOfBounds i) := by
  simp [word, getElem?_eq_none outside]

theorem test_eq (inside : i / 32 < array.length) : test array i = (array.get ⟨i / 32, inside⟩).getLsbD (i % 32) := by
  simp [test, getElem?_eq_getElem inside]

private theorem mask_test (w : BitVec 32) (k : Nat) (small : k < 32) : (w &&& (1#32 <<< k) != 0#32) = w.getLsbD k := by
  rw [← BitVec.twoPow_eq, BitVec.and_twoPow]
  cases bit : w.getLsbD k with
  | false => simp
  | true =>
    have nonzero : BitVec.twoPow 32 k ≠ 0#32 := by
      intro zero
      have := congrArg (fun v => v.getLsbD k) zero
      simp [small] at this
    simp [nonzero]

theorem getBit_ok (inside : i / 32 < array.length) : getBit array i = .ok (test array i) := by
  rw [getBit, word_ok inside, test_eq inside, ← mask_test _ _ (Nat.mod_lt i (by decide))]
  rfl

theorem getBit_error (outside : array.length ≤ i / 32) : getBit array i = .error (.outOfBounds (i / 32)) := by
  rw [getBit, word_error outside]
  rfl

theorem setBit_ok (inside : i / 32 < array.length) (val : Bool) :
    ∃ array', setBit array i val = .ok array' ∧ array'.length = array.length ∧
      ∀ j, test array' j = if j = i then val else test array j := by
  have bits (k : Nat) (small : k < 32) (w : BitVec 32) :
      (if val then w ||| 1#32 <<< (i % 32) else w &&& ~~~(1#32 <<< (i % 32))).getLsbD k =
        if k = i % 32 then val else w.getLsbD k := by
    rw [← BitVec.twoPow_eq]
    have here : i % 32 < 32 := Nat.mod_lt _ (by decide)
    by_cases same : k = i % 32
    · subst same
      cases val <;> simp [here]
    · cases val <;> simp [same, small]
  refine ⟨put array i (if val then array.get ⟨i / 32, inside⟩ ||| 1#32 <<< (i % 32)
    else array.get ⟨i / 32, inside⟩ &&& ~~~(1#32 <<< (i % 32))), ?_, by simp [put], ?_⟩
  · rw [setBit, word_ok inside]
    cases val <;> rfl
  · exact test_put inside (fun k small => bits k small _) (by decide)

theorem findWord_spec {k : Nat} (found : findWord array fuel i = .ok (k, w)) :
    ∃ inside : k < array.length, array.get ⟨k, inside⟩ = w ∧ w ≠ BitVec.allOnes 32 := by
  induction fuel generalizing i with
  | zero => cases found
  | succ fuel ih =>
    rw [findWord] at found
    by_cases inside : i < array.length
    · rw [word_ok inside] at found
      by_cases free : array.get ⟨i, inside⟩ ≠ BitVec.allOnes 32
      · simp only [bind, Except.bind, if_pos free, pure, Except.pure, Except.ok.injEq, Prod.mk.injEq] at found
        obtain ⟨rfl, rfl⟩ := found
        exact ⟨inside, rfl, free⟩
      · simp only [bind, Except.bind, if_neg free] at found
        exact ih found
    · rw [word_error (by omega)] at found
      cases found

theorem findWord_ok (inside : i < array.length) (bound : i < 2 ^ 32) (enough : i < fuel)
    (free : ∃ k, ∃ here : k < array.length, k ≤ i ∧ array.get ⟨k, here⟩ ≠ BitVec.allOnes 32) :
    ∃ found, findWord array fuel i = .ok found := by
  induction fuel generalizing i with
  | zero => omega
  | succ fuel ih =>
    rw [findWord, word_ok inside]
    by_cases here : array.get ⟨i, inside⟩ ≠ BitVec.allOnes 32
    · simp only [bind, Except.bind, if_pos here]
      exact ⟨_, rfl⟩
    · simp only [bind, Except.bind, if_neg here]
      obtain ⟨k, inside', _, clear⟩ := free
      have below : k ≠ i := by
        rintro rfl
        exact here clear
      rw [sub32_eq (by omega) bound]
      exact ih (by omega) (by omega) (by omega) ⟨k, inside', by omega, clear⟩

private theorem not_ne_zero (free : w ≠ BitVec.allOnes 32) : ~~~w ≠ 0#32 := by
  intro zero
  apply free
  rw [← BitVec.not_not (b := w), zero]
  rfl

theorem ctz_lt (free : w ≠ BitVec.allOnes 32) : (~~~w).ctz.toNat < 32 := by
  have := BitVec.ctz_lt_iff_ne_zero.mpr (not_ne_zero free)
  simpa [BitVec.lt_def] using this

theorem ctz_clear (free : w ≠ BitVec.allOnes 32) : w.getLsbD (~~~w).ctz.toNat = false := by
  have := BitVec.getLsbD_true_ctz_of_ne_zero (not_ne_zero free)
  simpa [ctz_lt free] using this

end Petix.Proof.Mem
