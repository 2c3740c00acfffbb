import Petix.Proof.Tty.Reading

namespace Petix.Proof.Tty
open Library Kernel.Tty Spec.Tty

variable {t : PetixTty} {s s' : Session} {count : Nat} {copied bytes : List Byte} {front : Byte}
variable {seq : Seq} {tty : PetixTty}

def Sound (t : PetixTty) : Phase → Prop
  | .idle => True
  | .loop count _ _ | .waiting count _ _ => 0 < count
  | .ending _ => committed t ≠ []

def Ends (bytes : List Byte) : Prop := ∀ ch ∈ bytes.getLast?, ch = sendChar

structure Kept (s : Session) : Prop where
  ordered : Ordered s.tty
  ends : Ends (committed s.tty)
  sound : Sound s.tty s.phase

theorem Ends.drop (ends : Ends bytes) (n : Nat) : Ends (bytes.drop n) := by
  rw [Ends, List.getLast?_drop]
  split_ifs
  · simp
  · exact ends

theorem ends_edited {icanon : Bool} (ends : Ends bytes) (line : List Byte) :
    Ends (edited icanon seq bytes line).1 := by
  unfold edited
  split_ifs
  · exact ends
  · simp [Ends]
  · exact ends

theorem Sound.grow {t' : PetixTty} (still : committed t <+: committed t') {phase : Phase} (sound : Sound t phase) :
    Sound t' phase := by
  cases phase with
  | idle => trivial
  | loop | waiting => exact sound
  | ending copied =>
    intro empty
    rw [empty] at still
    exact sound (List.prefix_nil.mp still)

theorem Kept.input (kept : Kept s) (fits : Fits s.tty seq)
    (run : petixTtyInputSeq s.tty seq = .ok tty) : Kept { s with tty } := by
  have edits := input_edits kept.ordered fits run
  refine ⟨edits.toOrdered, ?_, kept.sound.grow (edits.intact kept.ordered).still⟩
  rw [edits.lines]
  exact ends_edited kept.ends _

theorem copied_all (ends : Ends bytes) (wanted : 0 < count) (enough : count ≤ bytes.length)
    (nothing : bytes.drop count = []) : (copied ++ bytes.take count).getLast?.getD front = sendChar := by
  have all : bytes.take count = bytes := List.take_of_length_le (List.drop_eq_nil_iff.mp nothing)
  have last := List.getLast?_eq_some_getLast (List.ne_nil_of_length_pos (l := bytes) (by omega))
  rw [all, List.getLast?_append, last]
  exact ends _ last

theorem Kept.pass (kept : Kept s) (wanted : 0 < count) : Kept (readPass s count copied front) := by
  obtain ⟨ordered, remaining, -⟩ := copied_ordered kept.ordered count
  have ends := kept.ends.drop count
  rw [← remaining] at ends
  rw [readPass, copySection_eq kept.ordered.fbase kept.ordered.lbase]
  dsimp only
  split_ifs with marker more
  · exact ⟨ordered, ends, trivial⟩
  · exact ⟨ordered, ends, more⟩
  · refine ⟨ordered, ends, fun nothing => marker ?_⟩
    rw [List.length_take] at more
    rw [remaining] at nothing
    exact copied_all kept.ends wanted (by omega) nothing

theorem Kept.finish (kept : Kept s) (unread : committed s.tty ≠ []) {log : List (Int × List Byte)} :
    Kept ⟨skipMarker s.tty, .idle, log⟩ := by
  obtain ⟨_, _, head⟩ := List.exists_cons_of_ne_nil unread
  rw [skipMarker_eq kept.ordered head]
  split_ifs
  · obtain ⟨ordered, remaining, -⟩ := advance_ordered kept.ordered (n := 1) (by rw [head]; simp)
    refine ⟨ordered, ?_, trivial⟩
    rw [remaining]
    exact kept.ends.drop 1
  · exact ⟨kept.ordered, kept.ends, trivial⟩

theorem Kept.flush (kept : Kept s) (phase : s.phase = .idle) (icanon echo : Bool) : Kept
    { s with tty := { s.tty with fbase := s.tty.loff, lbase := s.tty.loff, icanon, echo } } := by
  have loff := kept.ordered.loff
  have ordered : Ordered { s.tty with fbase := s.tty.loff, lbase := s.tty.loff, icanon, echo } := by
    refine ⟨loff, loff, loff, ?_⟩
    rw [(Ring.length_eq_zero_iff loff loff).mpr rfl]
    decide
  refine ⟨ordered, ?_, ?_⟩
  · rw [(committed_eq_nil_iff ordered).mpr rfl]
    simp [Ends]
  · rw [phase]
    trivial

theorem Kept.step {a : Event} (kept : Kept s) (roomy : Roomy s a) (step : next s a = some s') : Kept s' := by
  have sound := kept.sound
  have ordered := kept.ordered
  cases moves_of_next step with
  | input run => exact kept.input roomy run
  | read =>
    refine ⟨ordered, kept.ends, ?_⟩
    rw [if_pos (by exact roomy)]
    exact roomy
  | pass phase =>
    rw [phase] at sound
    exact kept.pass sound
  | wake phase =>
    rw [phase] at sound
    exact ⟨ordered, kept.ends, sound⟩
  | finish phase =>
    rw [phase] at sound
    exact kept.finish sound
  | setFlags => exact ⟨⟨ordered.fbase, ordered.lbase, ordered.loff, ordered.cyclic⟩, kept.ends, sound⟩
  | flush phase => exact kept.flush phase _ _

theorem kept_init : Kept ⟨petixTtyInit, .idle, []⟩ :=
  ⟨⟨by decide, by decide, by decide, by decide⟩, by simp [Ends, committed, Ring.contents, Ring.length, petixTtyInit],
    trivial⟩

theorem kept_of_reachable (reachable : (sessions.restrict Roomy).Reachable s) : Kept s := by
  refine reachable.invariant (fun s start => ?_) fun s a s' kept step => kept.step step.1 step.2
  rw [show s = _ from start]
  exact kept_init

theorem unread_input_intact (reachable : (sessions.restrict Roomy).Reachable s) :
    Ordered s.tty ∧ ∀ seq tty, Fits s.tty seq → petixTtyInputSeq s.tty seq = .ok tty → Intact s.tty tty := by
  have ordered := (kept_of_reachable reachable).ordered
  exact ⟨ordered, fun seq tty fits run => (input_edits ordered fits run).intact ordered⟩

theorem newline_fills (ordered : Ordered t)
    (full : (committed t).length + (current t).length + 2 = ttyBuffLen)
    (run : petixTtyInputSeq t ⟨10#8, []⟩ = .ok tty) : committed tty = [] := by
  obtain ⟨t₁, add, run⟩ := Result.bind_ok run
  have one : (Seq.stored ⟨10#8, []⟩ t.icanon).length = 1 := by simp [Seq.stored, Seq.bytes]
  have adds := addSeq_adds ordered (by omega) add
  rw [← Result.pure_ok run]
  have around : (t₁.loff + 1) % ttyBuffLen = t₁.fbase := by
    rw [Ring.full_iff adds.fbase adds.loff, length_between adds.toOrdered, adds.same, adds.added, List.length_append]
    omega
  exact (Ring.contents_eq_nil_iff adds.fbase (Ring.succ_lt adds.loff)).mpr around

theorem typed_ahead (n : Nat) (room : n + 2 < ttyBuffLen) :
    ∃ s, (sessions.restrict Roomy).Reachable s ∧ s.tty.icanon = true ∧ committed s.tty = [10#8, sendChar] ∧
      (current s.tty).length = n := by
  induction n with
  | zero =>
    have start : (sessions.restrict Roomy).Reachable ⟨petixTtyInit, .idle, []⟩ := .initial rfl
    have fits : Fits petixTtyInit ⟨10#8, []⟩ := by decide
    exact ⟨_, start.next (a := .input ⟨10#8, []⟩) ⟨fits, rfl⟩, rfl, by decide, by decide⟩
  | succ n ih =>
    obtain ⟨s, reachable, canonical, line, length⟩ := ih (by omega)
    have ordered := (kept_of_reachable reachable).ordered
    have fits : Fits s.tty ⟨97#8, []⟩ := by
      right
      rw [length_between ordered, line, length, canonical]
      simp [Seq.stored, Seq.Completes, Seq.bytes]
      omega
    obtain ⟨tty, run⟩ := (input_ok_iff ordered ⟨97#8, []⟩).mpr (by simp [Seq.Erases, Seq.bytes])
    have edits := input_edits ordered fits run
    refine ⟨{ s with tty }, reachable.next (a := .input ⟨97#8, []⟩) ⟨fits, ?_⟩,
      edits.sameIcanon.trans canonical, ?_, ?_⟩
    · simp only [sessions, next, run]
    · rw [edits.lines, canonical, line]
      rfl
    · rw [edits.line, canonical]
      simp [edited, Seq.Erases, Seq.Completes, Seq.stored, Seq.bytes, length]

theorem unread_input_intact_typed : ∃ s, (sessions.restrict Roomy).Reachable s ∧ committed s.tty = [10#8, sendChar] ∧
    Ordered s.tty ∧ ∀ seq tty, Fits s.tty seq → petixTtyInputSeq s.tty seq = .ok tty → Intact s.tty tty := by
  obtain ⟨s, reachable, -, line, -⟩ := typed_ahead 3 (by decide)
  exact ⟨s, reachable, line, unread_input_intact reachable⟩

theorem unread_line_lost : ∃ s s', sessions.Reachable s ∧ sessions.step s (.input ⟨10#8, []⟩) s' ∧
    committed s.tty = [10#8, sendChar] ∧ committed s'.tty = [] := by
  obtain ⟨s, reachable, -, line, length⟩ := typed_ahead 2044 (by decide)
  have ordered := (kept_of_reachable reachable).ordered
  obtain ⟨tty, run⟩ := (input_ok_iff ordered ⟨10#8, []⟩).mpr (by simp [Seq.Erases, Seq.bytes])
  refine ⟨s, { s with tty }, reachable.unrestrict, ?_, line, newline_fills ordered ?_ run⟩
  · simp only [sessions, next, run]
  · rw [line, length]
    rfl

end Petix.Proof.Tty
