import Petix.Kernel.Pipes
import Petix.Library.Transition
import Petix.Library.Word

/-!
# Processes that share a pipe (`kernel/pipe.c`)

A call of `pread`, `pwrite` or `pclose` is interrupted before and after its locked section, before every
`cond_wake` inside the section, where it looks at `oread` and in `cond_wait`. A section leaves the pipe
locked until its last wakeup.
-/

namespace Petix.Kernel.PipeCalls
open Function Library Kernel.Sync Kernel.Pipes

def EPERM : Int := 1

structure Reading where
  c : Nat
  count : Nat
  stored : List Byte
  deriving DecidableEq

structure Writing where
  c : Nat
  buf : List Byte
  sent : List Byte
  deriving DecidableEq

inductive Phase where
  | checking
  | locking
  | waiting
  | queued
  | returned (ret : Int)
  deriving DecidableEq

inductive Activity where
  | idle
  | refused (ret : Int)
  | pread (phase : Phase) (call : Reading)
  | pwrite (phase : Phase) (call : Writing)
  deriving DecidableEq

structure Session where
  pipe : Pipe
  held : Option (Int × List End)
  calls : Int → Activity
  inserted : List Byte
  removed : List Byte

def checkEnd (side : End) : Option End → Option Int
  | none => some 0
  | some held => if held = side then none else some (-EPERM)

def returnPart (c count : Nat) : Phase := .returned (signed32 (signed32 c - count))

def returnAll (c : Nat) : Phase := .returned (signed32 c)

def startPread (data : Option End) (count : Nat) : Activity :=
  match checkEnd .read data with
  | some ret => .refused ret
  | none => .pread (if count > 0 then .locking else returnAll count) ⟨count, count, []⟩

def startPwrite (data : Option End) (buf : List Byte) : Activity :=
  match checkEnd .write data with
  | some ret => .refused ret
  | none => .pwrite (if buf.length > 0 then .checking else returnAll buf.length) ⟨buf.length, buf, []⟩

def afterPread (pipe : Pipe) (c count : Nat) : Phase :=
  if !pipe.owrite ∧ pipe.hi = pipe.lo then returnPart c count
  else if count > 0 then .waiting
  else returnAll c

def afterPwrite (c count : Nat) : Phase :=
  if count > 0 then .waiting else returnAll c

def hold (pid : Int) (wakes : List End) : Option (Int × List End) :=
  if wakes = [] then none else some (pid, wakes)

def preadSection (s : Session) (pid : Int) (call : Reading) : Session :=
  let (pipe, bytes, count) := preadLoop s.pipe call.count
  { s with
    pipe := pipe
    held := hold pid (preadWakes pipe)
    calls := update s.calls pid
      (.pread (afterPread pipe call.c count) ⟨call.c, count, call.stored ++ bytes⟩)
    removed := s.removed ++ bytes }

def pwriteSection (s : Session) (pid : Int) (call : Writing) : Session :=
  let (pipe, buf) := pwriteLoop s.pipe call.buf
  let bytes := call.buf.take (call.buf.length - buf.length)
  { s with
    pipe := pipe
    held := hold pid (pwriteWakes pipe)
    calls := update s.calls pid (.pwrite (afterPwrite call.c buf.length) ⟨call.c, buf, call.sent ++ bytes⟩)
    inserted := s.inserted ++ bytes }

def checkOread (s : Session) (pid : Int) (call : Writing) : Session :=
  let phase := if s.pipe.oread then .locking else returnPart call.c call.buf.length
  { s with calls := update s.calls pid (.pwrite phase call) }

def preadWait (s : Session) (pid : Int) (call : Reading) : Session :=
  let (rcond, ended) := condWait s.pipe.rcond pid
  { s with
    pipe := { s.pipe with rcond := rcond }
    calls := update s.calls pid (.pread (if ended then .locking else .queued) call) }

def pwriteWait (s : Session) (pid : Int) (call : Writing) : Session :=
  let (wcond, ended) := condWait s.pipe.wcond pid
  { s with
    pipe := { s.pipe with wcond := wcond }
    calls := update s.calls pid (.pwrite (if ended then .checking else .queued) call) }

def Activity.wake : Activity → Activity
  | .pread .queued call => .pread .waiting call
  | .pwrite .queued call => .pwrite .waiting call
  | activity => activity

def wakeAll (calls : Int → Activity) (pids : List Int) (pid : Int) : Activity :=
  if pid ∈ pids then (calls pid).wake else calls pid

def wakeNext (s : Session) (pid : Int) (side : End) (rest : List End) : Session :=
  let (pipe, woken) := wakeCond s.pipe side
  { s with pipe := pipe, held := hold pid rest, calls := wakeAll s.calls woken }

def Activity.ended : Activity → Bool
  | .idle => true
  | .refused _ => true
  | .pread (.returned _) _ => true
  | .pwrite (.returned _) _ => true
  | _ => false

def Session.outside (s : Session) (pid : Int) : Bool :=
  (s.calls pid).ended && s.held.all fun holder => holder.1 ≠ pid

inductive Action where
  | pread (pid : Int) (data : Option End) (count : Nat)
  | pwrite (pid : Int) (data : Option End) (buf : List Byte)
  | pclose (pid : Int) (side : End)
  | wake
  | run (pid : Int)

def run (s : Session) (pid : Int) : Activity → Option Session
  | .pread .locking call => if s.held = none then some (preadSection s pid call) else none
  | .pread .waiting call => some (preadWait s pid call)
  | .pwrite .checking call => some (checkOread s pid call)
  | .pwrite .locking call => if s.held = none then some (pwriteSection s pid call) else none
  | .pwrite .waiting call => some (pwriteWait s pid call)
  | _ => none

def next (s : Session) : Action → Option Session
  | .pread pid data count =>
    if s.outside pid ∧ count < 2 ^ 32 then
      some { s with calls := update s.calls pid (startPread data count) }
    else none
  | .pwrite pid data buf =>
    if s.outside pid ∧ buf.length < 2 ^ 32 then
      some { s with calls := update s.calls pid (startPwrite data buf) }
    else none
  | .pclose pid side =>
    if s.outside pid ∧ s.held = none then
      some { s with pipe := closeEnd s.pipe side, held := hold pid [.write, .read] }
    else none
  | .wake => match s.held with
      | some (pid, side :: rest) => some (wakeNext s pid side rest)
      | _ => none
  | .run pid => if s.held.all fun holder => holder.1 ≠ pid then run s pid (s.calls pid) else none

def opened : Session := ⟨newPipe, none, fun _ => .idle, [], []⟩

def session : System Session Action where
  initial s := s = opened
  step s action s' := next s action = some s'

end Petix.Kernel.PipeCalls
