import Mathlib.Data.List.Infix
import Petix.Proof.Tty.Input

namespace Petix.Proof.Tty
open Library Kernel.Tty Spec.Tty

variable {t t' : PetixTty} {e : Editor} {seq : Seq} {calls : List Seq}

@[simp] theorem marked_append (lines more : List (List Byte)) : marked (lines ++ more) = marked lines ++ marked more :=
  List.flatMap_append

theorem edited_editor (e : Editor) (seq : Seq) : ∃ more, (e.input seq).lines = e.lines ++ more ∧
    ∀ lines, edited true seq lines e.line = (lines ++ marked more, (e.input seq).line) := by
  unfold edited Editor.input Seq.Completes Seq.stored
  by_cases erases : seq.Erases
  · exact ⟨[], by simp [erases, marked]⟩
  · by_cases four : seq.first = 4#8
    · exact ⟨[e.line], by simp [erases, four, marked]⟩
    · by_cases newline : seq.first = 10#8
      · exact ⟨[e.line ++ seq.bytes], by simp [erases, newline, marked]⟩
      · exact ⟨[], by simp [erases, four, newline, marked]⟩

section
variable (represents : Represents t e) (canonical : t.icanon = true)
include represents canonical

theorem fits_of_size
    (room : (e.input seq).size < ttyBuffLen) : Fits t seq := by
  by_cases erases : seq.Erases
  · exact .inl erases
  · right
    obtain ⟨_, added, after⟩ := edited_editor e seq
    have after := after (marked e.lines)
    rw [← marked_append, ← added, edited, if_neg erases] at after
    rw [length_between represents.toOrdered, represents.lines, represents.line, canonical]
    rw [Editor.size] at room
    split_ifs at after ⊢
    all_goals
      obtain ⟨lines, line⟩ := Prod.mk.inj after
      rw [← lines, ← line] at room
      simp only [List.length_append, List.length_singleton, List.length_nil] at room
      omega

theorem represents_input
    (room : (e.input seq).size < ttyBuffLen) (run : petixTtyInputSeq t seq = .ok t') :
    Represents t' (e.input seq) ∧ t'.icanon = true ∧ t'.echo = t.echo := by
  have edits := input_edits represents.toOrdered (fits_of_size represents canonical room) run
  obtain ⟨_, added, after⟩ := edited_editor e seq
  refine ⟨⟨edits.toOrdered, ?_, ?_⟩, edits.sameIcanon.trans canonical, edits.sameEcho⟩
  · rw [edits.lines, canonical, represents.lines, represents.line, after, added, marked_append]
  · rw [edits.line, canonical, represents.lines, represents.line, after]

theorem echoes_iff :
    (∃ t', petixTtyInputSeq t seq = .ok t') ↔ Echoes t.echo e seq := by
  rw [input_ok_iff represents.toOrdered seq, represents.line, canonical, Echoes]
  simp

end

theorem line_editor_iff (represents : Represents t e) (canonical : t.icanon = true)
    (room : ∀ made, made <+: calls → (made.foldl Editor.input e).size < ttyBuffLen) :
    (∀ made, made <+: calls → ∃ t', made.foldlM petixTtyInputSeq t = .ok t' ∧
      Represents t' (made.foldl Editor.input e)) ↔ EchoesAll t.echo e calls := by
  induction calls generalizing t e with
  | nil =>
    refine iff_of_true (fun made here => ?_) trivial
    rw [List.prefix_nil.mp here]
    exact ⟨t, rfl, represents⟩
  | cons seq calls ih =>
    have alone : [seq] <+: seq :: calls := (List.prefix_cons_inj seq).mpr List.nil_prefix
    have first := room [seq] alone
    have later : ∀ made, made <+: calls → (made.foldl Editor.input (e.input seq)).size < ttyBuffLen :=
      fun made here => room (seq :: made) ((List.prefix_cons_inj seq).mpr here)
    constructor
    · intro holds
      obtain ⟨_, run, -⟩ := holds [seq] alone
      obtain ⟨t₂, run, rest⟩ := Result.bind_ok run
      obtain ⟨represents₂, canonical₂, echo⟩ := represents_input represents canonical first run
      refine ⟨(echoes_iff represents canonical).mp ⟨t₂, run⟩, ?_⟩
      rw [← echo, ← ih represents₂ canonical₂ later]
      intro made here
      obtain ⟨t', all, reached⟩ := holds (seq :: made) ((List.prefix_cons_inj seq).mpr here)
      rw [List.foldlM_cons, run] at all
      exact ⟨t', all, reached⟩
    · rintro ⟨echoes, rest⟩ made here
      obtain ⟨_, run⟩ := (echoes_iff represents canonical).mpr echoes
      obtain ⟨represents₂, canonical₂, echo⟩ := represents_input represents canonical first run
      rw [← echo, ← ih represents₂ canonical₂ later] at rest
      cases made with
      | nil => exact ⟨t, rfl, represents⟩
      | cons seq' made =>
        obtain ⟨rfl, inner⟩ := List.cons_prefix_cons.mp here
        obtain ⟨t', all, reached⟩ := rest made inner
        exact ⟨t', by rw [List.foldlM_cons, run]; exact all, reached⟩

theorem represents_init : Represents petixTtyInit ⟨[], []⟩ := ⟨⟨by decide, by decide, by decide, by decide⟩, rfl, rfl⟩

theorem line_editor_iff_erased : Represents petixTtyInit ⟨[], []⟩ ∧
      ∀ made, made <+: [⟨97#8, []⟩, ⟨127#8, []⟩, ⟨10#8, []⟩] →
        ∃ t', made.foldlM petixTtyInputSeq petixTtyInit = .ok t' ∧ Represents t' (made.foldl Editor.input ⟨[], []⟩) := by
  refine ⟨represents_init, (line_editor_iff represents_init rfl fun made here => ?_).mpr ?_⟩
  · revert here made
    simp only [← List.mem_inits]
    decide
  · simp [EchoesAll, Echoes, Editor.input, Seq.Erases, Seq.bytes]

theorem line_editor_echo_outside : Represents petixTtyInit ⟨[], []⟩ ∧ petixTtyInit.icanon = true ∧
      (∀ made, made <+: [⟨128#8, []⟩] → (made.foldl Editor.input ⟨[], []⟩).size < ttyBuffLen) ∧
      petixTtyInputSeq petixTtyInit ⟨128#8, []⟩ = .error .echoMap := by
  refine ⟨represents_init, rfl, fun made here => ?_, rfl⟩
  revert here made
  simp only [← List.mem_inits]
  decide

end Petix.Proof.Tty
