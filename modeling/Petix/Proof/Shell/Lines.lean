import Petix.Spec.Shell

namespace Petix.Proof.Shell
open Library Kernel.Shell Spec.Shell

variable {line : List Byte} {delim : Byte → Bool}

theorem tokens_eq_words {fuel : Nat} {str : List Byte} (enough : str.length ≤ fuel) :
    tokens delim fuel str = words delim str := by
  induction fuel generalizing str with
  | zero =>
    rw [List.length_eq_zero_iff.mp (Nat.le_zero.mp enough)]
    rfl
  | succ fuel ih =>
    rw [tokens, strtokR, ← words_dropWhile str]
    obtain none | ⟨b, more, here, start⟩ := dropWhile_cases delim str
    · rw [none]
      rfl
    · have shorter : (((b :: more).dropWhile (!delim ·)).drop 1).length ≤ fuel := by
        have suffix := (List.dropWhile_sublist (!delim ·) (l := b :: more)).length_le
        have whole := (List.dropWhile_sublist delim (l := str)).length_le
        rw [here] at whole
        rw [List.length_drop]
        omega
      rw [here, words_first start]
      dsimp only
      rw [ih shorter]

theorem doLine_ignored (ignored : Ignored line) : doLine line = .ret 0 := by
  unfold doLine Ignored at *
  cases here : line.dropWhile isBlank with
  | nil => rfl
  | cons c rest =>
    dsimp only
    rw [if_pos (ignored c (by rw [here]; rfl))]
    rfl

theorem doLine_stages (command : ¬ Ignored line) : doLine line = match stages line with
      | [] => .fail
      | prev :: rest => doStages prev 0 rest := by
  unfold doLine stages Ignored at *
  cases here : line.dropWhile isBlank with
  | nil =>
    rw [here] at command
    exact absurd (by simp) command
  | cons c rest =>
    rw [here] at command
    dsimp only
    rewrite [if_neg (by simpa using command), tokens_eq_words (Nat.le_refl _)]
    cases words isBar (c :: rest) with
    | nil => rfl
    | cons prev rest => rfl

end Petix.Proof.Shell
