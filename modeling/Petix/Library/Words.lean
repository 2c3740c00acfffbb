import Mathlib.Data.List.TakeWhile

/-! # Words of a list -/

namespace Petix.Library

variable {α : Type} {sep : α → Bool} {s : α} {word l : List α}

def words (sep : α → Bool) (l : List α) : List (List α) := (l.splitOnP sep).filter (!·.isEmpty)

theorem words_sep (here : sep s = true) : words sep (s :: l) = words sep l := by
  simp [words, List.splitOnP_cons_eq_if_modifyHead, here]

theorem words_dropWhile (l : List α) : words sep (l.dropWhile sep) = words sep l := by
  induction l with
  | nil => rfl
  | cons a l ih =>
    by_cases here : sep a = true
    · rw [List.dropWhile_cons_of_pos here, ih, words_sep here]
    · rw [List.dropWhile_cons_of_neg here]

theorem words_seps_append {seps : List α} (only : ∀ a ∈ seps, sep a = true) : words sep (seps ++ l) = words sep l := by
  rw [← words_dropWhile, List.dropWhile_append_of_pos only, words_dropWhile]

theorem words_of_seps (only : ∀ a ∈ l, sep a = true) : words sep l = [] := by
  rw [← words_dropWhile, List.dropWhile_eq_nil_iff.mpr only]
  rfl

theorem words_last (some : word ≠ []) (inside : ∀ a ∈ word, sep a = false) : words sep word = [word] := by
  simp [words, List.splitOnP_eq_singleton inside, some]

theorem words_cons (some : word ≠ []) (inside : ∀ a ∈ word, sep a = false) (here : sep s = true) (l : List α) :
    words sep (word ++ s :: l) = word :: words sep l := by
  simp [words, List.splitOnP_append_cons_of_forall_mem inside s here, some]

theorem words_append_cons (here : sep s = true) (l r : List α) : words sep (l ++ s :: r) = words sep l ++ words sep r
    := by
  rw [words, List.splitOnP_append_cons l r here, List.filter_append]
  rfl

theorem mem_of_mem_words {a : α} (here : word ∈ words sep l) (inside : a ∈ word) : a ∈ l := by
  have parts : ∀ part ∈ l.splitOnP sep, ∀ a ∈ part, a ∈ l := by
    clear here
    induction l with
    | nil => simp
    | cons b l ih =>
      rw [List.splitOnP_cons_eq_if_modifyHead]
      split
      case isTrue => simpa using fun part other a inside => .inr (ih part other a inside)
      case isFalse =>
        cases rest : l.splitOnP sep with
        | nil => simp
        | cons first more =>
          simp only [List.modifyHead_cons, List.mem_cons]
          grind
  exact parts word (List.mem_filter.mp here).1 a inside

theorem dropWhile_cases (q : α → Bool) (l : List α) :
    l.dropWhile q = [] ∨ ∃ b more, l.dropWhile q = b :: more ∧ q b = false := by
  cases rest : l.dropWhile q with
  | nil => exact .inl rfl
  | cons b more =>
    have stop := List.head_dropWhile_not q (l := l) (by simp [rest])
    simp only [rest, List.head_cons] at stop
    exact .inr ⟨b, more, rfl, stop⟩

theorem words_start {b : α} (start : sep b = false) (more : List α) :
    (b :: more).takeWhile (!sep ·) ≠ [] ∧ (∀ a ∈ (b :: more).takeWhile (!sep ·), sep a = false) ∧
      ((b :: more).dropWhile (!sep ·) = [] ∧ words sep (b :: more) = [(b :: more).takeWhile (!sep ·)] ∨
        ∃ s after, (b :: more).dropWhile (!sep ·) = s :: after ∧ sep s = true ∧
          words sep (b :: more) = (b :: more).takeWhile (!sep ·) :: words sep after) := by
  have parts := List.takeWhile_append_dropWhile (p := (!sep ·)) (l := b :: more)
  have some : (b :: more).takeWhile (!sep ·) ≠ [] := by simp [start]
  have inside : ∀ a ∈ (b :: more).takeWhile (!sep ·), sep a = false := by
    intro _ here
    simpa using List.mem_takeWhile_imp here
  refine ⟨some, inside, ?_⟩
  obtain last | ⟨s, after, next, stop⟩ := dropWhile_cases (!sep ·) (b :: more)
  · rw [last, List.append_nil] at parts
    rw [parts]
    exact .inl ⟨last, words_last (by simp) (parts ▸ inside)⟩
  · have here : sep s = true := by simpa using stop
    rw [next] at parts
    exact .inr ⟨s, after, next, here, (congrArg (words sep) parts.symm).trans (words_cons some inside here after)⟩

theorem words_first {b : α} (start : sep b = false) (more : List α) : words sep (b :: more) =
      (b :: more).takeWhile (!sep ·) :: words sep (((b :: more).dropWhile (!sep ·)).drop 1) := by
  obtain ⟨-, -, ⟨last, first⟩ | ⟨_, _, next, -, first⟩⟩ := words_start start more
  · rw [first, last]
    rfl
  · rw [first, next]
    rfl

theorem words_cases (sep : α → Bool) (l : List α) : words sep l = [] ∧ (∀ a ∈ l, sep a = true) ∨
      ∃ seps word tail, l = seps ++ (word ++ tail) ∧ (∀ a ∈ seps, sep a = true) ∧ word ≠ [] ∧
        (∀ a ∈ word, sep a = false) ∧ (tail = [] ∧ words sep l = [word] ∨
          ∃ s after, tail = s :: after ∧ sep s = true ∧ words sep l = word :: words sep after) := by
  have front : ∀ a ∈ l.takeWhile sep, sep a = true := fun a => List.mem_takeWhile_imp
  have split := List.takeWhile_append_dropWhile (p := sep) (l := l)
  rw [← words_dropWhile l]
  obtain none | ⟨_, more, body, start⟩ := dropWhile_cases sep l
  · rw [none, List.append_nil] at split
    rw [none]
    exact .inl ⟨rfl, split ▸ front⟩
  · rw [body] at split ⊢
    exact .inr ⟨_, _, _, (List.takeWhile_append_dropWhile (p := (!sep ·))).symm ▸ split.symm, front,
      words_start start more⟩

theorem words_eq_nil_iff : words sep l = [] ↔ ∀ a ∈ l, sep a = true := by
  refine ⟨fun none => ?_, words_of_seps⟩
  obtain ⟨-, only⟩ | ⟨-, _, -, -, -, -, -, ⟨-, first⟩ | ⟨-, _, -, -, first⟩⟩ := words_cases sep l
  · exact only
  · cases none.symm.trans first
  · cases none.symm.trans first

end Petix.Library
