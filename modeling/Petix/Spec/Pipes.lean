import Petix.Kernel.PipeCalls
import Petix.Kernel.PipeClose
import Petix.Kernel.SyncCalls
import Petix.Library.Ring

namespace Petix.Spec.Pipes
open Kernel Library Kernel.Sync Kernel.Pipes Kernel.PipeCalls

def contents (pipe : Pipe) : List Byte := Ring.contents pipeSize pipe.lo pipe.hi pipe.buffer

def IsEmpty (pipe : Pipe) : Prop := pipe.hi = pipe.lo

def IsFull (pipe : Pipe) : Prop := (pipe.hi + 1) % pipeSize = pipe.lo

def QueuedOn (sem : Sem) (pid : Int) : Prop := ∃ waiter ∈ sem.lst, waiter.pid = pid

def Paired (reader writer : Int) (_ : Session) : Action → Prop
  | .pread pid _ _ => pid = reader
  | .pwrite pid _ _ => pid = writer
  | _ => True

def Hungry (s : Session) (pid : Int) : Prop :=
  ∃ call, s.calls pid = .pread .waiting call ∨ s.calls pid = .pread .queued call

def NoWriter (s : Session) : Prop := ∀ pid phase call, s.calls pid = .pwrite phase call → (s.calls pid).ended = true

def ReadersOnly (_ : Session) : Action → Prop
  | .pread _ _ _ | .wake | .run _ => True
  | .pwrite _ _ _ | .pclose _ _ => False

def LastWriteClose (closer : Int) (s : Session) : Prop :=
  ∃ before after, session.Reachable before ∧ NoWriter before ∧
    session.step before (.pclose closer .write) after ∧ (session.restrict ReadersOnly).LeadsTo after s ∧
    s.held = some (closer, [.read])

def Settled (s : Session) : Prop :=
  s.held = none ∧ ∀ pid, (s.calls pid).ended = true ∨
    (∃ call, s.calls pid = .pread .queued call) ∨ ∃ call, s.calls pid = .pwrite .queued call

def waiters (pipe : Pipe) : List Int := (pipe.wcond.lst ++ pipe.rcond.lst).map Waiter.pid

structure Shared (k : Proc.State) (file : End → Nat) (p : Nat) (oread owrite : Bool) : Prop where
  housed : SyncCalls.Housed k
  ends : ∀ side, ∃ f, k.files (file side) = some f ∧ f.privateData = some (side, p)
  pipe : ∃ pipe, k.pipes p = some pipe ∧ pipe.oread = oread ∧ pipe.owrite = owrite ∧ (waiters pipe).Nodup ∧
    ∀ pid ∈ waiters pipe, ∃ q, Proc.getPcb k pid = some q ∧ (k.ptable q).rs = .blocked

def Interleaving (schedule : List End) : Prop := schedule.Perm [.read, .read, .write, .write]

def Serial (schedule : List End) : Prop := ∃ first, schedule.take 2 = [first, first]

end Petix.Spec.Pipes
