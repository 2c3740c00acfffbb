import Mathlib.Data.List.Induction
import Mathlib.Tactic.SplitIfs
import Petix.Library.Result
import Petix.Spec.Terminal

namespace Petix.Proof.Terminal
open Library Kernel Kernel.Ansi Spec.Terminal

variable {b : Backend} {t t' : Term} {ch : Byte} {out : List Output}

def Bounded (b : Backend) (t : Term) (out : List Output) : Prop := Inside b t.row t.col ∧ ∀ o ∈ out, Inside.Output b o

theorem putchUnesc_bounded_iff {r c : Int} (moved : moveCursor b t ch = ({ t with row := r, col := c }, out)) :
    Bounded b (putchUnesc b t ch).1 (putchUnesc b t ch).2 ↔
      (0 ≤ r ∧ r ≤ b.rowN) ∧ (0 ≤ c ∧ c < b.colN) ∧ ∀ o ∈ out, Inside.Output b o := by
  have rows := b.rows
  unfold putchUnesc settle
  dsimp only
  split_ifs with below
  · simp only [Bounded, List.forall_mem_append, List.forall_mem_cons, Inside.Output, Inside, below]
    grind
  · simp only [Bounded, List.forall_mem_append, List.forall_mem_singleton, Inside.Output, Inside]
    grind

theorem putchUnesc_harmless_iff (here : Inside b t.row t.col) : Bounded b (putchUnesc b t ch).1 (putchUnesc b t ch).2 ↔
      (ch = 9#8 → t.col + 8 < b.colN) ∧ (ch = 8#8 → ¬(t.row = 0 ∧ t.col = 0)) := by
  obtain ⟨row, col⟩ := here
  by_cases newline : ch = 10#8
  · subst newline
    rw [putchUnesc_bounded_iff (r := t.row + 1) (c := 0) rfl]
    simp only [BitVec.reduceEq, false_imp_iff, and_true, iff_true, List.not_mem_nil, implies_true]
    omega
  by_cases carriage : ch = 13#8
  · subst carriage
    rw [putchUnesc_bounded_iff (r := t.row) (c := 0) rfl]
    simp only [BitVec.reduceEq, false_imp_iff, and_true, iff_true, List.not_mem_nil, implies_true]
    omega
  by_cases tab : ch = 9#8
  · subst tab
    rw [putchUnesc_bounded_iff (r := t.row) (c := t.col + 8) rfl]
    simp only [BitVec.reduceEq, false_imp_iff, true_imp_iff, and_true, List.not_mem_nil, implies_true]
    omega
  by_cases back : ch = 8#8
  · subst back
    by_cases first : t.col = 0
    · have moved : moveCursor b t 8#8 = ({ t with row := t.row - 1, col := b.colN - 1 },
          [.putch t.rendition 32#8 (t.row - 1) (b.colN - 1)]) := by
        simp [moveCursor, first]
      rw [putchUnesc_bounded_iff moved]
      simp only [BitVec.reduceEq, false_imp_iff, true_imp_iff, true_and, List.forall_mem_singleton, Inside.Output,
        Inside]
      omega
    · have moved : moveCursor b t 8#8 = ({ t with row := t.row, col := t.col - 1 },
          [.putch t.rendition 32#8 t.row (t.col - 1)]) := by
        have : ¬t.col - 1 = -1 := by omega
        simp [moveCursor, this]
      rw [putchUnesc_bounded_iff moved]
      simp only [BitVec.reduceEq, false_imp_iff, true_imp_iff, true_and, List.forall_mem_singleton, Inside.Output,
        Inside]
      omega
  · by_cases last : t.col + 1 = b.colN
    · have moved : moveCursor b t ch =
          ({ t with row := t.row + 1, col := 0 }, [.putch t.rendition ch t.row t.col]) := by
        simp [moveCursor, newline, carriage, tab, back, last]
      rw [putchUnesc_bounded_iff moved]
      simp only [tab, back, false_imp_iff, and_true, iff_true, List.forall_mem_singleton, Inside.Output, Inside]
      omega
    · have moved : moveCursor b t ch = ({ t with row := t.row, col := t.col + 1 },
          [.putch t.rendition ch t.row t.col]) := by
        simp [moveCursor, newline, carriage, tab, back, last]
      rw [putchUnesc_bounded_iff moved]
      simp only [tab, back, false_imp_iff, and_true, iff_true, List.forall_mem_singleton, Inside.Output, Inside]
      omega

theorem bounded_nil (here : Inside b t.row t.col) (row : t'.row = t.row) (col : t'.col = t.col) : Bounded b t' [] := by
  rw [← row, ← col] at here
  simpa [Bounded] using here

theorem finishCommand_bounded_iff (here : Inside b t.row t.col) :
    (∃ t' out, finishCommand t ch = .ok (t', out) ∧ Bounded b t' out) ↔
      (ch = 110#8 → t.nump = true → t.noff = 0 → t.numerics 0 = 6 →
        (putint t.row).length + (putint t.col).length ≤ 6) := by
  have length : (report { t with state := .none }).length + 1 ≤ 11 ↔
      (putint t.row).length + (putint t.col).length ≤ 6 := by
    simp only [report, List.length_append, List.length_cons, List.length_nil]
    omega
  unfold finishCommand
  generalize number : (if t.nump then t.noff + 1 else 0) = nargs
  have one : nargs = 1 ↔ t.nump = true ∧ t.noff = 0 := by
    rw [← number]
    cases t.nump <;> simp
  dsimp only
  split_ifs with rendition asked short
  · refine iff_of_true ⟨_, _, rfl, bounded_nil here rfl rfl⟩ ?_
    simp [rendition]
  · refine iff_of_true ⟨_, _, rfl, ?_⟩ fun _ _ _ _ => length.mp short
    have same : Bounded b { t with state := .none } [] := bounded_nil here rfl rfl
    simpa [Bounded, Inside.Output] using same
  · obtain ⟨rfl, single, six⟩ := asked
    refine iff_of_false ?_ fun harmless => short (length.mpr ?_)
    · rintro ⟨-, -, run, -⟩
      cases run
    · exact harmless rfl (one.mp single).1 (one.mp single).2 six
  · refine iff_of_true ⟨_, _, rfl, bounded_nil here rfl rfl⟩ fun n nump noff six => ?_
    exact absurd ⟨n, one.mpr ⟨nump, noff⟩, six⟩ asked

theorem exists_ok_iff {result : Term × List Output} :
    (∃ t' out, (Except.ok result : Except Fault _) = .ok (t', out) ∧ Bounded b t' out) ↔
      Bounded b result.1 result.2 := by
  constructor
  · rintro ⟨_, _, run, bounded⟩
    cases run
    exact bounded
  · exact fun bounded => ⟨_, _, rfl, bounded⟩

theorem ansiPutch_harmless_iff (here : Inside b t.row t.col) :
    (∃ t' out, ansiPutch b t ch = .ok (t', out) ∧ Bounded b t' out) ↔ Harmless b t ch := by
  unfold ansiPutch Harmless
  cases state : t.state with
  | none =>
    dsimp only
    split_ifs with escape
    · subst escape
      exact iff_of_true ⟨_, _, rfl, bounded_nil here rfl rfl⟩ (by simp)
    · rw [exists_ok_iff, putchUnesc_harmless_iff here]
  | esc =>
    simp only [true_and, if_true]
    split_ifs with bracket digit number room
    · refine iff_of_true ⟨_, _, rfl, bounded_nil here rfl rfl⟩ (by simp [bracket])
    · refine iff_of_true ⟨_, _, rfl, bounded_nil here rfl rfl⟩ fun number => ?_
      simp [number, isDigit] at digit
    · exact iff_of_true ⟨_, _, rfl, bounded_nil here rfl rfl⟩ fun _ => by omega
    · exact iff_of_false (by simp) fun harmless => room (by have := harmless number; omega)
    · exact iff_of_true ⟨_, _, rfl, bounded_nil here rfl rfl⟩ fun semicolon => absurd semicolon number
  | escLbrak =>
    simp only [reduceCtorEq, false_and, if_false]
    split_ifs with digit number room
    · refine iff_of_true ⟨_, _, rfl, bounded_nil here rfl rfl⟩ ⟨fun number => ?_, fun n => ?_⟩
      · simp [number, isDigit] at digit
      · simp [n, isDigit] at digit
    · exact iff_of_true ⟨_, _, rfl, bounded_nil here rfl rfl⟩ ⟨fun _ => by omega, by simp [number]⟩
    · exact iff_of_false (by simp) fun harmless => room (by have := harmless.1 number; omega)
    · rw [finishCommand_bounded_iff here, and_iff_right]
      exact fun semicolon => absurd semicolon number

variable {memory : Term} {bytes before : List Byte}

theorem feed_append (run : feed b memory before = .ok (t, out)) : feed b memory (before ++ [ch]) = (do
      let (t, more) ← ansiPutch b t ch
      return (t, out ++ more)) := by
  unfold feed at run ⊢
  rw [List.foldlM_append, run, Result.ok_bind, List.foldlM_cons]
  simp only [List.foldlM_nil, bind_pure]

theorem feed_append_bounded_iff (run : feed b memory before = .ok (t, out)) (bounded : Bounded b t out) :
    (∃ t' out', feed b memory (before ++ [ch]) = .ok (t', out') ∧ Bounded b t' out') ↔ Harmless b t ch := by
  rw [← ansiPutch_harmless_iff bounded.1, feed_append run]
  cases ansiPutch b t ch with
  | error fault => simp
  | ok result =>
    rw [exists_ok_iff, Result.ok_bind]
    refine exists_ok_iff.trans ?_
    rw [Bounded, List.forall_mem_append, and_iff_right bounded.2, Bounded]

theorem ansiInit_bounded_iff : Bounded b (ansiInit b memory).1 (ansiInit b memory).2 ↔
    0 ≤ memory.col ∧ memory.col < b.colN := by
  have rows := b.rows
  have cleared : ∀ o ∈ (ansiInit b memory).2, Inside.Output b o := by
    intro _ here
    simp only [ansiInit, clear, List.mem_flatMap, List.mem_map, List.mem_range] at here
    obtain ⟨_, _, _, _, rfl⟩ := here
    exact ⟨by omega, by omega⟩
  rw [Bounded, and_iff_left cleared]
  simp only [ansiInit, Inside]
  omega

theorem terminal_inside_iff (b : Backend) (memory : Term) (bytes : List Byte) :
    (∀ before, before <+: bytes → ∃ t out, feed b memory before = .ok (t, out) ∧ Inside b t.row t.col ∧
      ∀ o ∈ out, Inside.Output b o) ↔ (0 ≤ memory.col ∧ memory.col < b.colN) ∧
      ∀ before ch, before ++ [ch] <+: bytes → ∀ t out, feed b memory before = .ok (t, out) → Harmless b t ch := by
  constructor
  · intro inside
    constructor
    · obtain ⟨t, out, run, bounded⟩ := inside [] List.nil_prefix
      have start : ansiInit b memory = (t, out) := Except.ok.inj run
      rw [← ansiInit_bounded_iff, start]
      exact bounded
    · intro before ch within t out run
      obtain ⟨_, _, run', bounded⟩ := inside before ((List.prefix_append ..).trans within)
      obtain ⟨rfl, rfl⟩ := Prod.mk.inj (Except.ok.inj (run.symm.trans run'))
      exact (feed_append_bounded_iff run bounded).mp (inside _ within)
  · rintro ⟨start, harmless⟩ before within
    induction before using List.reverseRecOn with
    | nil => exact ⟨_, _, rfl, ansiInit_bounded_iff.mpr start⟩
    | append_singleton before ch ih =>
      obtain ⟨t, out, run, bounded⟩ := ih ((List.prefix_append ..).trans within)
      exact (feed_append_bounded_iff run bounded).mpr (harmless before ch within t out run)

theorem terminal_outside : (∃ t out, feed Vga.ansiBackend zeroTerm [8#8] = .ok (t, out) ∧ t.row = -1 ∧
      .putch ⟨9, 9, 0⟩ 32#8 (-1) 79 ∈ out) ∧
    ∃ t out, feed Vga.ansiBackend zeroTerm (List.replicate 10 9#8) = .ok (t, out) ∧ t.row = 0 ∧ t.col = 80 := by
  refine ⟨⟨_, _, rfl, rfl, ?_⟩, _, _, rfl, rfl, rfl⟩
  exact List.mem_append_right _ (.head _)

end Petix.Proof.Terminal
