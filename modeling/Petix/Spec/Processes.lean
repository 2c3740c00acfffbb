import Petix.Kernel.Syscall

/-! # The process table as a state machine -/

namespace Petix.Spec.Processes
open Kernel.Proc Kernel.Syscall

structure Entry where
  pid : Int
  ppid : Int
  rs : ReadyState
  waitPid : Int
  context : Context

structure Table where
  entry : Slot → Entry
  curpid : Int

def Matches (w pid : Int) : Prop := w = -1 ∨ w = pid

namespace Table

variable (t : Table)

def current : Slot := pidOff t.curpid

def set (p : Slot) (e : Entry) : Table := { t with entry := Function.update t.entry p e }

def Live (p : Slot) : Prop := (t.entry p).rs ≠ .noproc

def Finds (pid : Int) (p : Slot) : Prop := pidOff pid = p ∧ t.Live p ∧ (t.entry p).pid = pid

def Child (p : Slot) (w : Int) (c : Slot) : Prop :=
  t.Live c ∧ (t.entry c).ppid = (t.entry p).pid ∧ Matches w (t.entry c).pid

def preempt : Table :=
  if (t.entry t.current).rs = .running then t.set t.current { t.entry t.current with rs := .ready } else t

def dispatch (p : Slot) : Table :=
  { t.set p { t.entry p with rs := .running } with
    curpid := if p = t.current then t.curpid else (t.entry p).pid }

def notify (p q : Slot) : Table :=
  if (t.entry q).rs = .blocked ∧ ((t.entry q).waitPid = (t.entry p).pid ∨ (t.entry q).waitPid = -1) then
    t.set q { t.entry q with waitPid := (t.entry p).pid, rs := .ready }
  else t

def terminate (p : Slot) : Table := t.set p { t.entry p with rs := .terminated }

def unwait (p : Slot) : Table := t.set p { t.entry p with waitPid := notWaiting, context := .user }

def release (c : Slot) : Table := t.set c { t.entry c with rs := .noproc, ppid := 0, waitPid := notWaiting }

end Table

def Quiet : Call → Prop
  | .tick | .sysExit _ | .waitpidBlock | .waitpidReap => False
  | _ => True

def Running (t : Table) (context : Context) : Prop :=
  (t.entry t.current).rs = .running ∧ (t.entry t.current).pid = t.curpid ∧ (t.entry t.current).context = context

inductive Step (t : Table) : Call → Table → Prop
  | quiet {call : Call} : Quiet call → Step t call t
  | tick {p : Slot} : (t.preempt.entry p).rs = .ready → Step t .tick (t.preempt.dispatch p)
  | fork {new : Slot} {pid : Int} : Running t .user → (t.entry new).rs = .noproc → pidOff pid = new →
      Step t .sysFork (t.set new { t.entry new with pid := pid, ppid := t.curpid, rs := .ready, context := .user })
  | orphanExit {code : BitVec 32} : Running t .user → (t.entry t.current).ppid ≤ 0 →
      Step t (.sysExit code) (t.terminate t.current)
  | exit {code : BitVec 32} {q : Slot} : Running t .user → 0 < (t.entry t.current).ppid →
      t.Finds (t.entry t.current).ppid q → Step t (.sysExit code) ((t.notify t.current q).terminate t.current)
  | found {w : Int} {c : Slot} : Running t .user → t.Child t.current w c → (t.entry c).rs = .terminated →
      Step t (.sysWaitpid w)
        (t.set t.current { t.entry t.current with waitPid := (t.entry c).pid, context := .reaping })
  | scanned {w : Int} : Running t .user → (∃ c, t.Child t.current w c) →
      (∀ c, t.Child t.current w c → (t.entry c).rs ≠ .terminated) →
      Step t (.sysWaitpid w) (t.set t.current { t.entry t.current with context := .scanned w })
  | block {w : Int} : (t.entry t.current).context = .scanned w → (t.entry t.current).rs = .running →
      Step t .waitpidBlock
        (t.set t.current { t.entry t.current with rs := .blocked, waitPid := w, context := .reaping })
  | reap {c : Slot} : (t.entry t.current).context = .reaping → (t.entry t.current).rs = .running →
      t.Finds (t.entry t.current).waitPid c → Step t .waitpidReap ((t.unwait t.current).release c)

def ParentsExist (k : State) : Prop :=
  ∀ c, (k.ptable c).rs ≠ .noproc → 0 < (k.ptable c).ppid → getPcb k (k.ptable c).ppid ≠ none

def ReapsChildless (k : State) : Call → Prop
  | .waitpidReap => ∀ c, getPcb k (k.ptable (pidOff k.curpid)).waitPid = some c →
      ∀ e, e ≠ c → (k.ptable e).rs ≠ .noproc → 0 < (k.ptable e).ppid → (k.ptable e).ppid ≠ (k.ptable c).pid
  | _ => True

def ExitsChildless (k : State) : Call → Prop
  | .sysExit _ => ∀ e, (k.ptable e).rs ≠ .noproc → (k.ptable e).ppid ≠ k.curpid
  | _ => True

def MissedExit (k : State) : Prop :=
  ∃ q c, (k.ptable q).rs = .blocked ∧ (k.ptable q).context = .reaping ∧ (k.ptable c).rs = .terminated ∧
    (k.ptable c).ppid = (k.ptable q).pid ∧ Matches (k.ptable q).waitPid (k.ptable c).pid

/-- No process exits while its parent is between a scan that was for it and the block that follows, and the
pids that `sys_fork` gives out are positive. -/
def ExitsObserved (k : State) : Call → Prop
  | .sysExit _ => ∀ q w, (k.ptable q).rs ≠ .noproc → (k.ptable q).context = .scanned w →
      (k.ptable (pidOff k.curpid)).ppid = (k.ptable q).pid → ¬ Matches w (k.ptable (pidOff k.curpid)).pid
  | .sysFork => ∀ ret k', sysFork k = .ok (ret, k') →
      ∀ p, (k.ptable p).rs = .noproc → (k'.ptable p).rs ≠ .noproc → 0 < (k'.ptable p).pid
  | _ => True

end Petix.Spec.Processes
