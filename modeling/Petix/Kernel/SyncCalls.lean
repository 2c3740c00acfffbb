import Petix.Kernel.Proc
import Petix.Library.Transition

/-!
# Processes that share a lock or a semaphore (`kernel/sync.c`)

`acquire_lock` and `sem_wait` are cut where they call `sched`: one pass ends with the caller served or
queued, and a caller that was queued makes another pass when it runs again. A pass, a release and a signal
hold the global lock from end to end.
-/

namespace Petix.Kernel.SyncCalls
open Function Library Kernel.Sync Kernel.Proc

structure Lock where
  lst : List Int
  heldBy : Int
  lcnt : Nat
  locked : Bool
  global : Bool

inductive SyncFault where
  | nullPcb
  | signal (fault : Fault)
  | notRunning
  | lockedAtBoot
  | unlocked
  | unacquired
  deriving DecidableEq

def setRs (k : State) (p : Slot) (rs : ReadyState) : State := k.setPcb p { k.ptable p with rs := rs }

def acquireLock (slocks : Bool) (k : State) (lock : Lock) : Except SyncFault (State × Lock × Bool) :=
  if slocks then
    if lock.locked ∧ (lock.heldBy = k.curpid ∨ lock.global) then
      .ok (k, { lock with lcnt := (lock.lcnt + 1) % 2 ^ 32 }, true)
    else if lock.locked then
      match getPcb k k.curpid with
      | none => .error .nullPcb
      | some p => .ok (setRs k p .blocked, { lock with lst := k.curpid :: lock.lst }, false)
    else .ok (k, { lock with locked := true, heldBy := k.curpid, global := false, lcnt := 0 }, true)
  else if lock.locked then .error .lockedAtBoot
  else .ok (k, { lock with global := true, locked := true }, true)

def readyAll (k : State) : List Int → Except SyncFault State
  | [] => .ok k
  | pid :: lst => match getPcb k pid with
      | none => .error .nullPcb
      | some p => readyAll (setRs k p .ready) lst

def releaseLock (k : State) (lock : Lock) : Except SyncFault (State × Lock) :=
  if lock.global then
    if lock.locked then .ok (k, { lock with global := false, locked := false }) else .error .unlocked
  else if ¬ (lock.locked ∧ (lock.heldBy = k.curpid ∨ lock.global)) then .error .unacquired
  else if lock.lcnt = 0 then
    (·, { lock with locked := false, heldBy := 0, lst := [] }) <$> readyAll k lock.lst
  else .ok (k, { lock with lcnt := lock.lcnt - 1 })

def signalSem (k : State) (sem : Sem) (n : Nat) : Except SyncFault (State × Sem) :=
  match wake k (semSignal sem n).2 with
  | .error fault => .error (.signal fault)
  | .ok k => .ok (k, (semSignal sem n).1)

def waitSem (k : State) (p : Slot) (sem : Sem) (n : Nat) : Except SyncFault (State × Sem × Bool) :=
  if (k.ptable p).rs = .running then
    match semWait sem k.curpid n with
    | (sem, true) => .ok (k, sem, true)
    | (sem, false) => .ok (setRs k p .blocked, sem, false)
  else .error .notRunning

def Runs (k : State) (p : Slot) : Prop := getPcb k k.curpid = some p ∧ (k.ptable p).rs = .running

def Housed (k : State) : Prop := ∀ p, (k.ptable p).rs ≠ .noproc → pidOff (k.ptable p).pid = p

/-- What else may happen to the process table: the processes inside the function are left alone, and those
that hold something do not go away. -/
structure Elsewhere (inside holds : Slot → Prop) (k k' : State) : Prop where
  housed : Housed k'
  kept : ∀ p, inside p → k'.ptable p = k.ptable p
  stays : ∀ p, holds p → (k'.ptable p).pid = (k.ptable p).pid ∧ (k'.ptable p).rs ≠ .noproc

structure LockRun where
  k : State
  lock : Lock
  depth : Slot → Nat
  acquiring : Slot → Bool

inductive LockOp where
  | sched
  | acquire
  | release
  | other
  deriving DecidableEq

inductive LockStep (s : LockRun) : LockOp → LockRun → Prop
  | sched {k : State} : sched s.k = some k → LockStep s .sched { s with k := k }
  | acquired {p : Slot} {k : State} {lock : Lock} : Runs s.k p → acquireLock true s.k s.lock = .ok (k, lock, true) →
      LockStep s .acquire ⟨k, lock, update s.depth p (s.depth p + 1), update s.acquiring p false⟩
  | queued {p : Slot} {k : State} {lock : Lock} : Runs s.k p → acquireLock true s.k s.lock = .ok (k, lock, false) →
      LockStep s .acquire ⟨k, lock, s.depth, update s.acquiring p true⟩
  | release {p : Slot} {k : State} {lock : Lock} : Runs s.k p → 0 < s.depth p → releaseLock s.k s.lock = .ok (k, lock) →
      LockStep s .release ⟨k, lock, update s.depth p (s.depth p - 1), s.acquiring⟩
  | other {k : State} : Elsewhere (s.acquiring ·) (0 < s.depth ·) s.k k → LockStep s .other { s with k := k }

def locking : System LockRun LockOp where
  initial s := Housed s.k ∧ s.lock.locked = false ∧ s.lock.global = false ∧ s.lock.lst = [] ∧
    (∀ p, s.depth p = 0) ∧ ∀ p, s.acquiring p = false
  step := LockStep

inductive Access where
  | read (node : Nat)
  | kfree (node : Option Nat)
  deriving DecidableEq

def releaseAccesses : List Nat → List Access
  | [] => []
  | node :: lst => .read node :: .read node :: .kfree lst.head? :: releaseAccesses lst

structure NodeRun where
  lock : Lock
  nodes : List Nat
  made : Nat
  walked : List (List Nat)

inductive NodeStep (s : NodeRun) : LockOp → NodeRun → Prop
  | acquired {slocks : Bool} {k k' : State} {lock : Lock} : acquireLock slocks k s.lock = .ok (k', lock, true) →
      NodeStep s .acquire { s with lock := lock }
  | queued {slocks : Bool} {k k' : State} {lock : Lock} : acquireLock slocks k s.lock = .ok (k', lock, false) →
      NodeStep s .acquire ⟨lock, s.made :: s.nodes, s.made + 1, s.walked⟩
  | released {k k' : State} {lock : Lock} : releaseLock k s.lock = .ok (k', lock) →
      s.lock.global = true ∨ s.lock.lcnt ≠ 0 → NodeStep s .release { s with lock := lock }
  | emptied {k k' : State} {lock : Lock} : releaseLock k s.lock = .ok (k', lock) →
      s.lock.global = false → s.lock.lcnt = 0 → NodeStep s .release ⟨lock, [], s.made, s.nodes :: s.walked⟩

def nodeRuns : System NodeRun LockOp where
  initial s := s.lock.locked = false ∧ s.lock.lst = [] ∧ s.nodes = [] ∧ s.made = 0 ∧ s.walked = []
  step := NodeStep

structure SemRun where
  k : State
  sem : Sem
  needs : Slot → Option Nat
  signalled : Nat
  taken : Nat

inductive SemOp where
  | sched
  | signal (n : Nat)
  | wait (n : Nat)
  | retry
  | other

inductive SemStep (s : SemRun) : SemOp → SemRun → Prop
  | sched {k : State} : sched s.k = some k → SemStep s .sched { s with k := k }
  | signal {n : Nat} {k : State} {sem : Sem} : 1 ≤ n → signalSem s.k s.sem n = .ok (k, sem) →
      SemStep s (.signal n) { s with k := k, sem := sem, signalled := s.signalled + n }
  | wait {p : Slot} {n : Nat} {k : State} {sem : Sem} {ended : Bool} : Runs s.k p → s.needs p = none → 1 ≤ n →
      waitSem s.k p s.sem n = .ok (k, sem, ended) → SemStep s (.wait n) { s with
        k := k
        sem := sem
        needs := update s.needs p (if ended then none else some n)
        taken := if ended then s.taken + n else s.taken }
  | retry {p : Slot} {n : Nat} {k : State} {sem : Sem} {ended : Bool} : Runs s.k p → s.needs p = some n →
      waitSem s.k p s.sem n = .ok (k, sem, ended) → SemStep s .retry { s with
        k := k
        sem := sem
        needs := update s.needs p (if ended then none else some n)
        taken := if ended then s.taken + n else s.taken }
  | other {k : State} : Elsewhere (fun p => s.needs p ≠ none) (fun _ => False) s.k k →
      SemStep s .other { s with k := k }

def waiting (count : Nat) : System SemRun SemOp where
  initial s := Housed s.k ∧ s.sem = ⟨count, []⟩ ∧ (∀ p, s.needs p = none) ∧ s.signalled = 0 ∧ s.taken = 0
  step := SemStep

end Petix.Kernel.SyncCalls
