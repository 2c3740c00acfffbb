import Petix.Proof.Pipe.Queue

namespace Petix.Proof.Pipe
open Function List Library Kernel.Sync Kernel.Pipes Kernel.PipeCalls Spec.Pipes

variable {pipe pipe' : Pipe} {s s' : Session} {action : Action} {pid : Int} {activity : Activity}
variable {phase phase' : Phase} {c moved left : Nat} {ret : Int} {calls : Int → Activity}
variable {call : Reading}

theorem signed32_sub (a b : Int) : signed32 (signed32 a - b) = signed32 (a - b) := by
  unfold signed32
  omega

theorem signed32_of_lt {n : Nat} (bound : n < 2 ^ 31) : signed32 n = n := by
  unfold signed32
  omega

def Counted (pipe : Pipe) : Activity → Prop
  | .pread phase call => call.stored.length + call.count = call.c ∧ ∀ ret, phase = .returned ret →
        ret = signed32 call.stored.length ∧ (call.stored.length = call.c ∨ pipe.owrite = false)
  | .pwrite phase call => call.sent.length + call.buf.length = call.c ∧ ∀ ret, phase = .returned ret →
        ret = signed32 call.sent.length ∧ (call.sent.length = call.c ∨ pipe.oread = false)
  | _ => True

theorem Counted.mono (counted : Counted pipe activity) (write : pipe.owrite = false → pipe'.owrite = false)
    (read : pipe.oread = false → pipe'.oread = false) : Counted pipe' activity := by
  cases activity with
  | idle => trivial
  | refused ret => trivial
  | pread phase call =>
    refine ⟨counted.1, fun ret ended => ?_⟩
    obtain ⟨value, short⟩ := counted.2 ret ended
    exact ⟨value, short.imp_right write⟩
  | pwrite phase call =>
    refine ⟨counted.1, fun ret ended => ?_⟩
    obtain ⟨value, short⟩ := counted.2 ret ended
    exact ⟨value, short.imp_right read⟩

theorem Counted.wake (counted : Counted pipe activity) : Counted pipe activity.wake := by
  unfold Activity.wake
  split
  · exact ⟨counted.1, fun ret ended => by cases ended⟩
  · exact ⟨counted.1, fun ret ended => by cases ended⟩
  · exact counted

theorem Counted.pread (counted : Counted pipe (.pread phase call))
    (going : ∀ ret, phase' ≠ .returned ret) : Counted pipe' (.pread phase' call) :=
  ⟨counted.1, fun ret ended => absurd ended (going ret)⟩

theorem Counted.pwrite {call : Writing} (counted : Counted pipe (.pwrite phase call))
    (going : ∀ ret, phase' ≠ .returned ret) : Counted pipe' (.pwrite phase' call) :=
  ⟨counted.1, fun ret ended => absurd ended (going ret)⟩

theorem ite_going (going : ∀ ret, phase ≠ .returned ret)
    (going' : ∀ ret, phase' ≠ .returned ret) (ended : Bool) (ret : Int) :
    (if ended then phase else phase') ≠ .returned ret := by
  cases ended with
  | false => exact going' ret
  | true => exact going ret

theorem value_of_returnPart (counted : moved + left = c)
    (ended : returnPart c left = .returned ret) : ret = signed32 moved := by
  rw [← Phase.returned.inj ended, signed32_sub, ← counted]
  congr 1
  omega

theorem value_of_returnAll (counted : moved + left = c) (all : left = 0)
    (ended : returnAll c = .returned ret) : ret = signed32 moved := by
  rw [← Phase.returned.inj ended, ← counted, all, Nat.add_zero]

theorem startPread_counted (pipe : Pipe) (data : Option End) (count : Nat) : Counted pipe (startPread data count) := by
  unfold startPread
  split
  · trivial
  · refine ⟨Nat.zero_add count, fun ret ended => ?_⟩
    split_ifs at ended with positive
    have all : count = 0 := Nat.eq_zero_of_not_pos positive
    exact ⟨value_of_returnAll (Nat.zero_add count) all ended, .inl all.symm⟩

theorem startPwrite_counted (pipe : Pipe) (data : Option End) (buf : List Byte) :
    Counted pipe (startPwrite data buf) := by
  unfold startPwrite
  split
  · trivial
  · refine ⟨Nat.zero_add _, fun ret ended => ?_⟩
    split_ifs at ended with positive
    have all : buf.length = 0 := Nat.eq_zero_of_not_pos positive
    exact ⟨value_of_returnAll (Nat.zero_add _) all ended, .inl all.symm⟩

theorem afterPread_counted (counted : moved + left = c) (ended : afterPread pipe c left = .returned ret) :
    ret = signed32 moved ∧ (moved = c ∨ pipe.owrite = false ∧ IsEmpty pipe) := by
  unfold afterPread at ended
  split_ifs at ended with closed positive
  · simp only [Bool.not_eq_true'] at closed
    exact ⟨value_of_returnPart counted ended, .inr closed⟩
  · have all : left = 0 := Nat.eq_zero_of_not_pos positive
    refine ⟨value_of_returnAll counted all ended, .inl ?_⟩
    rw [← counted, all, Nat.add_zero]

theorem afterPwrite_counted (counted : moved + left = c)
    (ended : afterPwrite c left = .returned ret) : ret = signed32 moved ∧ moved = c := by
  unfold afterPwrite at ended
  split_ifs at ended with positive
  have all : left = 0 := Nat.eq_zero_of_not_pos positive
  refine ⟨value_of_returnAll counted all ended, ?_⟩
  rw [← counted, all, Nat.add_zero]

structure Fifo (s : Session) : Prop where
  range : InRange s.pipe
  order : s.inserted = s.removed ++ contents s.pipe
  calls : ∀ pid, Counted s.pipe (s.calls pid)

theorem counted_update (counted : ∀ pid, Counted pipe (calls pid))
    (new : Counted pipe activity) (p : Int) : Counted pipe (update calls pid activity p) := by
  by_cases same : p = pid
  · subst same
    rwa [update_self]
  · rw [update_of_ne same]
    exact counted p

section
variable (fifo : Fifo s)
include fifo

theorem Fifo.start (new : Counted s.pipe activity) : Fifo { s with calls := update s.calls pid activity } :=
  ⟨fifo.range, fifo.order, counted_update fifo.calls new⟩

theorem preadSection_fifo (here : s.calls pid = .pread .locking call) :
    Fifo (preadSection s pid call) := by
  have taken := preadLoop_taken fifo.range call.count
  have counted := fifo.calls pid
  rw [here] at counted
  constructor
  · exact taken.range
  · change s.inserted = s.removed ++ _ ++ contents (preadLoop s.pipe call.count).1
    rw [fifo.order, taken.order, append_assoc]
  · apply counted_update
    · intro p
      exact (fifo.calls p).mono (congrArg Pipe.owrite taken.frame).trans (congrArg Pipe.oread taken.frame).trans
    · have total : (call.stored ++ (preadLoop s.pipe call.count).2.1).length + (preadLoop s.pipe call.count).2.2 =
          call.c := by
        rw [length_append, Nat.add_assoc, taken.counted, counted.1]
      refine ⟨total, fun ret ended => ?_⟩
      obtain ⟨value, short⟩ := afterPread_counted total ended
      exact ⟨value, short.imp_right And.left⟩

theorem pwriteSection_fifo {call : Writing} (here : s.calls pid = .pwrite .locking call) :
    Fifo (pwriteSection s pid call) := by
  obtain ⟨bytes, put⟩ := pwriteLoop_put fifo.range call.buf
  have counted := fifo.calls pid
  rw [here] at counted
  constructor
  · exact put.range
  · change s.inserted ++ _ = s.removed ++ contents (pwriteLoop s.pipe call.buf).1
    rw [put.sent_eq, put.order, fifo.order, append_assoc]
  · apply counted_update
    · intro p
      exact (fifo.calls p).mono (congrArg Pipe.owrite put.frame).trans (congrArg Pipe.oread put.frame).trans
    · rw [put.sent_eq]
      have total : (call.sent ++ bytes).length + (pwriteLoop s.pipe call.buf).2.length = call.c := by
        rw [length_append, Nat.add_assoc, ← length_append, ← put.split, counted.1]
      refine ⟨total, fun ret ended => ?_⟩
      obtain ⟨value, all⟩ := afterPwrite_counted total ended
      exact ⟨value, .inl all⟩

theorem checkOread_fifo {call : Writing} (here : s.calls pid = .pwrite .checking call) :
    Fifo (checkOread s pid call) := by
  have counted := fifo.calls pid
  rw [here] at counted
  apply fifo.start
  refine ⟨counted.1, fun ret ended => ?_⟩
  split_ifs at ended with opened
  exact ⟨value_of_returnPart counted.1 ended, .inr (Bool.not_eq_true _ ▸ opened)⟩

theorem preadWait_fifo (here : s.calls pid = .pread .waiting call) : Fifo (preadWait s pid call) := by
  have counted := fifo.calls pid
  rw [here] at counted
  refine ⟨⟨fifo.range.low, fifo.range.high⟩, fifo.order, ?_⟩
  apply counted_update
  · intro p
    exact (fifo.calls p).mono id id
  · exact counted.pread (ite_going (by simp) (by simp) _)

theorem pwriteWait_fifo {call : Writing} (here : s.calls pid = .pwrite .waiting call) :
    Fifo (pwriteWait s pid call) := by
  have counted := fifo.calls pid
  rw [here] at counted
  refine ⟨⟨fifo.range.low, fifo.range.high⟩, fifo.order, ?_⟩
  apply counted_update
  · intro p
    exact (fifo.calls p).mono id id
  · exact counted.pwrite (ite_going (by simp) (by simp) _)

theorem closeEnd_fifo (side : End) (held : Option (Int × List End)) :
    Fifo { s with pipe := closeEnd s.pipe side, held := held } := by
  cases side with
  | read => exact ⟨⟨fifo.range.low, fifo.range.high⟩, fifo.order, fun p => (fifo.calls p).mono id fun _ => rfl⟩
  | write => exact ⟨⟨fifo.range.low, fifo.range.high⟩, fifo.order, fun p => (fifo.calls p).mono (fun _ => rfl) id⟩

end

theorem wakeAll_counted (counted : ∀ pid, Counted pipe (calls pid)) (pids : List Int)
    (p : Int) : Counted pipe (wakeAll calls pids p) := by
  unfold wakeAll
  split_ifs with woken
  · exact (counted p).wake
  · exact counted p

theorem wakeNext_fifo (fifo : Fifo s) (side : End) (rest : List End) : Fifo (wakeNext s pid side rest) := by
  cases side with
  | read =>
    exact ⟨⟨fifo.range.low, fifo.range.high⟩, fifo.order, wakeAll_counted (fun p => (fifo.calls p).mono id id) _⟩
  | write =>
    exact ⟨⟨fifo.range.low, fifo.range.high⟩, fifo.order, wakeAll_counted (fun p => (fifo.calls p).mono id id) _⟩

theorem fifo_move (fifo : Fifo s) (move : Move s action s') : Fifo s' := by
  cases move with
  | pread outside bound => exact fifo.start (startPread_counted _ _ _)
  | pwrite outside bound => exact fifo.start (startPwrite_counted _ _ _)
  | pclose outside free => exact closeEnd_fifo fifo _ _
  | wake held => exact wakeNext_fifo fifo _ _
  | preadSection here free => exact preadSection_fifo fifo here
  | preadWait here free => exact preadWait_fifo fifo here
  | checkOread here free => exact checkOread_fifo fifo here
  | pwriteSection here free => exact pwriteSection_fifo fifo here
  | pwriteWait here free => exact pwriteWait_fifo fifo here

theorem opened_fifo : Fifo opened := by
  refine ⟨⟨by decide, by decide⟩, ?_, fun _ => trivial⟩
  rfl

theorem reachable_fifo (reachable : session.Reachable s) : Fifo s := by
  apply reachable.invariant
  · intro s start
    exact start ▸ opened_fifo
  · intro _ _ _ fifo step
    exact fifo_move fifo (move_of_next step)

theorem pread_short (fifo : Fifo s) (move : Move s (.run pid) s')
    (ended : s'.calls pid = .pread (.returned ret) call) (short : call.stored.length < call.c) :
    s'.pipe.owrite = false ∧ IsEmpty s'.pipe := by
  have counted := (fifo_move fifo move).calls pid
  rw [ended] at counted
  cases move with
  | preadSection here free =>
    simp only [preadSection, update_self, Activity.pread.injEq] at ended
    obtain ⟨ended, rfl⟩ := ended
    obtain ⟨-, all | closed⟩ := afterPread_counted counted.1 ended
    · exact absurd all (Nat.ne_of_lt short)
    · exact closed
  | preadWait here free =>
    simp only [preadWait, update_self, Activity.pread.injEq] at ended
    exact absurd ended.1 (ite_going (by simp) (by simp) _ ret)
  | checkOread here free => simp only [checkOread, update_self, reduceCtorEq] at ended
  | pwriteSection here free => simp only [pwriteSection, update_self, reduceCtorEq] at ended
  | pwriteWait here free => simp only [pwriteWait, update_self, reduceCtorEq] at ended

end Petix.Proof.Pipe
