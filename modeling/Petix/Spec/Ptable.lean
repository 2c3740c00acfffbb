import Petix.Kernel.SyncCalls
import Petix.Kernel.Syscall
import Petix.Library.Cyclic

/-! # Pids and turns -/

namespace Petix.Spec.Ptable
open Library Library.Cyclic Kernel.Proc Kernel.Syscall Kernel.SyncCalls

inductive Op where
  | alloc
  | release (p : Slot)

structure Ledger where
  k : State
  given : List (Slot × Int)

def Op.run (ledger : Ledger) : Op → Ledger
  | .alloc => match allocProc ledger.k with
      | none => ledger
      | some (p, k) => ⟨k, (p, (k.ptable p).pid) :: ledger.given⟩
  | .release p => { ledger with k := releaseProc ledger.k p }

def runOps (ops : List Op) : Ledger := ops.foldl Op.run ⟨zeroed, []⟩

def Ledger.uses (ledger : Ledger) (p : Slot) : Nat := ledger.given.countP (·.1 = p)

structure FreshPid (given : List (Slot × Int)) (k : State) (p : Slot) : Prop where
  positive : 0 < (k.ptable p).pid
  alone : ∀ q, q ≠ p → (k.ptable q).rs ≠ .noproc → (k.ptable q).pid ≠ (k.ptable p).pid
  unused : ∀ old ∈ given, old.2 ≠ (k.ptable p).pid

structure PidsUnique (ops : List Op) : Prop where
  fresh : ∀ before later p k, ops = before ++ .alloc :: later →
    allocProc (runOps before).k = some (p, k) → FreshPid (runOps before).given k p
  gone : ∀ before p between later, ops = before ++ .release p :: between ++ later →
    ((runOps before).k.ptable p).rs ≠ .noproc →
    getPcb (runOps (before ++ .release p :: between)).k ((runOps before).k.ptable p).pid = none

inductive Turn where
  | sched
  | alloc
  | fork (new : Slot)
  | block
  | wake (p : Slot)
  | exit (code : BitVec 8)
  | reap (p : Slot)

def current (k : State) : Slot := pidOff k.curpid

inductive Move (k : State) : Turn → State → Prop
  | sched {k' : State} : sched k = some k' → Move k .sched k'
  | alloc {p : Slot} {k' : State} : (k.ptable (current k)).rs = .running → allocProc k = some (p, k') → Move k .alloc k'
  | fork {new : Slot} : (k.ptable (current k)).rs = .running → (k.ptable new).rs = .created →
      Move k (.fork new) (forkPcb k (current k) new)
  | block : (k.ptable (current k)).rs = .running → Move k .block (setRs k (current k) .blocked)
  | wake {p : Slot} : (k.ptable p).rs = .blocked → Move k (.wake p) (setRs k p .ready)
  | exit {code : BitVec 8} {k' : State} : (k.ptable (current k)).rs = .running → wakeParent k (current k) = .ok k' →
      Move k (.exit code) (k'.setPcb (current k) { k'.ptable (current k) with
        rs := .terminated
        returnCode := code
        fds := fun _ => ⟨none, false⟩ })
  | reap {p : Slot} : (k.ptable (current k)).rs = .running → p ≠ current k → Move k (.reap p) (releaseProc k p)

def scheduling : System State Turn where
  initial k := k = initProc
  step := Move

structure Chooses (k : State) (d : Nat) (k' : State) : Prop where
  range : 1 ≤ d ∧ d ≤ 1024
  ready : ((preempt k).ptable (after (current k) d)).rs = .ready
  nearest : ∀ e, 1 ≤ e → e < d → ((preempt k).ptable (after (current k) e)).rs ≠ .ready
  chosen : k'.ptable (after (current k) d) = { k.ptable (after (current k) d) with rs := .running }
  others : ∀ q, q ≠ after (current k) d → k'.ptable q = (preempt k).ptable q
  curpid : (k.ptable (current k)).pid = k.curpid → k'.curpid = (k.ptable (after (current k) d)).pid

inductive PassedOver (p : Slot) (k : State) : Nat → State → Prop
  | start : PassedOver p k 0 k
  | sched {n : Nat} {k₁ k₂ : State} : PassedOver p k n k₁ → ((preempt k₁).ptable p).rs = .ready →
      Move k₁ .sched k₂ → (k₂.ptable p).rs = .ready → PassedOver p k (n + 1) k₂
  | other {n : Nat} {k₁ k₂ : State} {turn : Turn} : PassedOver p k n k₁ → turn ≠ .sched →
      Move k₁ turn k₂ → (k₂.ptable p).rs = .ready → PassedOver p k n k₂

end Petix.Spec.Ptable
