import Petix.Spec.Pipes

namespace Petix.Proof.Pipe
open Function Library Kernel.Sync Kernel.Pipes Kernel.PipeCalls Spec.Pipes

variable {pipe pipe' : Pipe} {s s' : Session} {action : Action} {pid : Int}
variable {bytes buf rest : List Byte}

structure InRange (pipe : Pipe) : Prop where
  low : pipe.lo < pipeSize
  high : pipe.hi < pipeSize

theorem contents_eq_nil_iff (range : InRange pipe) : contents pipe = [] ↔ IsEmpty pipe :=
  Ring.contents_eq_nil_iff range.low range.high

theorem length_contents_of_full (range : InRange pipe) (full : IsFull pipe) :
    (contents pipe).length = pipeSize - 1 := by
  rw [contents, Ring.length_contents]
  exact (Ring.full_iff range.low range.high).mp full

theorem length_contents_lt (range : InRange pipe) : (contents pipe).length < pipeSize := by
  rw [contents, Ring.length_contents]
  exact Ring.length_lt range.low

theorem not_full_of_empty (range : InRange pipe) (empty : IsEmpty pipe) : ¬ IsFull pipe := by
  intro full
  have length := length_contents_of_full range full
  rw [(contents_eq_nil_iff range).mpr empty] at length
  cases length

theorem pwriteWakes_of_not_empty (some : ¬ IsEmpty pipe) : pwriteWakes pipe = [.read] := if_pos some

theorem preadWakes_of_not_full (room : ¬ IsFull pipe) : preadWakes pipe = [.write] := if_pos room

structure Taken (pipe : Pipe) (count : Nat) (pipe' : Pipe) (bytes : List Byte) (left : Nat) : Prop where
  range : InRange pipe'
  order : contents pipe = bytes ++ contents pipe'
  counted : bytes.length + left = count
  stopped : left = 0 ∨ IsEmpty pipe'
  frame : pipe' = { pipe with lo := pipe'.lo }

theorem preadLoop_taken (range : InRange pipe) (count : Nat) :
    Taken pipe count (preadLoop pipe count).1 (preadLoop pipe count).2.1 (preadLoop pipe count).2.2 := by
  induction count generalizing pipe with
  | zero => exact ⟨range, rfl, rfl, .inl rfl, rfl⟩
  | succ count ih =>
    unfold preadLoop
    split_ifs with some
    · let popped : Pipe := { pipe with lo := (pipe.lo + 1) % pipeSize }
      have first : contents pipe = pipe.buffer pipe.lo :: contents popped := Ring.contents_pop range.low range.high some
      have range' : InRange popped := ⟨Ring.succ_lt range.low, range.high⟩
      obtain ⟨range', order, counted, stopped, frame⟩ := ih range'
      refine ⟨range', ?_, ?_, stopped, frame⟩
      · exact first.trans (congrArg _ order)
      · exact (Nat.succ_add _ _).trans (congrArg Nat.succ counted)
    · exact ⟨range, rfl, Nat.zero_add _, .inr (not_not.mp some), rfl⟩

theorem Taken.kept {count left : Nat} (taken : Taken pipe count pipe' bytes left) :
    pipe'.rcond = pipe.rcond ∧ pipe'.wcond = pipe.wcond ∧ pipe'.owrite = pipe.owrite ∧ pipe'.oread = pipe.oread := by
  rw [taken.frame]
  exact ⟨rfl, rfl, rfl, rfl⟩

structure Put (pipe : Pipe) (buf : List Byte) (pipe' : Pipe) (bytes rest : List Byte) : Prop where
  range : InRange pipe'
  order : contents pipe' = contents pipe ++ bytes
  split : buf = bytes ++ rest
  stopped : rest = [] ∨ IsFull pipe'
  frame : pipe' = { pipe with hi := pipe'.hi, buffer := pipe'.buffer }

theorem pwriteLoop_put (range : InRange pipe) (buf : List Byte) :
    ∃ bytes, Put pipe buf (pwriteLoop pipe buf).1 bytes (pwriteLoop pipe buf).2 := by
  induction buf generalizing pipe with
  | nil => exact ⟨[], range, (List.append_nil _).symm, rfl, .inl rfl, rfl⟩
  | cons byte buf ih =>
    unfold pwriteLoop
    split_ifs with room
    · let pushed : Pipe := { pipe with
        buffer := update pipe.buffer pipe.hi byte
        hi := (pipe.hi + 1) % pipeSize }
      have first : contents pushed = contents pipe ++ [byte] := Ring.contents_push range.low range.high room byte
      have range' : InRange pushed := ⟨range.low, Ring.succ_lt range.high⟩
      obtain ⟨bytes, range', order, split, stopped, frame⟩ := ih range'
      refine ⟨byte :: bytes, range', ?_, congrArg _ split, stopped, frame⟩
      rw [order, first, List.append_assoc]
      rfl
    · exact ⟨[], range, (List.append_nil _).symm, rfl, .inr (not_not.mp room), rfl⟩

theorem Put.kept (put : Put pipe buf pipe' bytes rest) :
    pipe'.rcond = pipe.rcond ∧ pipe'.wcond = pipe.wcond ∧ pipe'.owrite = pipe.owrite ∧ pipe'.oread = pipe.oread := by
  rw [put.frame]
  exact ⟨rfl, rfl, rfl, rfl⟩

theorem Put.sent_eq (put : Put pipe buf pipe' bytes rest) :
    buf.take (buf.length - rest.length) = bytes := by
  rw [put.split, List.length_append, Nat.add_sub_cancel, List.take_left]

inductive Move (s : Session) : Action → Session → Prop
  | pread {pid data count} (outside : s.outside pid) (bound : count < 2 ^ 32) :
      Move s (.pread pid data count) { s with calls := update s.calls pid (startPread data count) }
  | pwrite {pid data buf} (outside : s.outside pid) (bound : buf.length < 2 ^ 32) :
      Move s (.pwrite pid data buf) { s with calls := update s.calls pid (startPwrite data buf) }
  | pclose {pid side} (outside : s.outside pid) (free : s.held = none) :
      Move s (.pclose pid side) { s with pipe := closeEnd s.pipe side, held := hold pid [.write, .read] }
  | wake {pid side rest} (held : s.held = some (pid, side :: rest)) : Move s .wake (wakeNext s pid side rest)
  | preadSection {pid call} (here : s.calls pid = .pread .locking call) (free : s.held = none) :
      Move s (.run pid) (preadSection s pid call)
  | preadWait {pid call} (here : s.calls pid = .pread .waiting call) (free : ∀ wakes, s.held ≠ some (pid, wakes)) :
      Move s (.run pid) (preadWait s pid call)
  | checkOread {pid call} (here : s.calls pid = .pwrite .checking call) (free : ∀ wakes, s.held ≠ some (pid, wakes)) :
      Move s (.run pid) (checkOread s pid call)
  | pwriteSection {pid call} (here : s.calls pid = .pwrite .locking call) (free : s.held = none) :
      Move s (.run pid) (pwriteSection s pid call)
  | pwriteWait {pid call} (here : s.calls pid = .pwrite .waiting call) (free : ∀ wakes, s.held ≠ some (pid, wakes)) :
      Move s (.run pid) (pwriteWait s pid call)

theorem move_of_next (step : next s action = some s') : Move s action s' := by
  cases action with
  | pread pid data count =>
    simp only [next, Option.ite_none_right_eq_some, Option.some.injEq] at step
    obtain ⟨⟨outside, bound⟩, rfl⟩ := step
    exact .pread outside bound
  | pwrite pid data buf =>
    simp only [next, Option.ite_none_right_eq_some, Option.some.injEq] at step
    obtain ⟨⟨outside, bound⟩, rfl⟩ := step
    exact .pwrite outside bound
  | pclose pid side =>
    simp only [next, Option.ite_none_right_eq_some, Option.some.injEq] at step
    obtain ⟨⟨outside, free⟩, rfl⟩ := step
    exact .pclose outside free
  | wake =>
    simp only [next] at step
    split at step
    · rename_i held
      cases step
      exact .wake held
    · cases step
  | run pid =>
    simp only [next, Option.ite_none_right_eq_some] at step
    obtain ⟨unheld, step⟩ := step
    have free (wakes : List End) : s.held ≠ some (pid, wakes) := by
      intro held
      simp [held] at unheld
    unfold run at step
    split at step
    · rename_i call here
      obtain ⟨free, equal⟩ := Option.ite_none_right_eq_some.mp step
      exact Option.some.inj equal ▸ .preadSection here free
    · rename_i call here
      exact Option.some.inj step ▸ .preadWait here free
    · rename_i call here
      exact Option.some.inj step ▸ .checkOread here free
    · rename_i call here
      obtain ⟨free, equal⟩ := Option.ite_none_right_eq_some.mp step
      exact Option.some.inj equal ▸ .pwriteSection here free
    · rename_i call here
      exact Option.some.inj step ▸ .pwriteWait here free
    · cases step

theorem unheld {holder : Option (Int × List End)} (free : ∀ wakes, holder ≠ some (pid, wakes)) :
    holder.all (fun held => held.1 ≠ pid) = true := by
  cases holder with
  | none => rfl
  | some held =>
    apply decide_eq_true
    intro same
    exact free held.2 (same ▸ rfl)

theorem next_of_move (move : Move s action s') : next s action = some s' := by
  cases move with
  | pread outside bound => exact if_pos ⟨outside, bound⟩
  | pwrite outside bound => exact if_pos ⟨outside, bound⟩
  | pclose outside free => exact if_pos ⟨outside, free⟩
  | wake held => simp only [next, held]
  | preadSection here free => simp only [next, run, here, free, Option.all_none, if_pos]
  | preadWait here free => simp only [next, run, here, unheld free, if_pos]
  | checkOread here free => simp only [next, run, here, unheld free, if_pos]
  | pwriteSection here free => simp only [next, run, here, free, Option.all_none, if_pos]
  | pwriteWait here free => simp only [next, run, here, unheld free, if_pos]

end Petix.Proof.Pipe
