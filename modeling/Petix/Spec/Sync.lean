import Petix.Kernel.SyncCalls

namespace Petix.Spec.Sync
open Kernel.Sync Kernel.Proc Kernel.SyncCalls

def Shallow (s : LockRun) : LockOp → Prop
  | .acquire => ∀ p, Runs s.k p → s.depth p < 2 ^ 32
  | _ => True

structure Exclusive (s : LockRun) : Prop where
  alone : ∀ p q, 0 < s.depth p → 0 < s.depth q → p = q
  nesting : ∀ p, 0 < s.depth p → s.lock.locked = true ∧ s.lock.heldBy = (s.k.ptable p).pid ∧ s.lock.lcnt + 1 = s.depth p
  inside : ∀ p, s.acquiring p = true → (s.k.ptable p).pid ∈ s.lock.lst ∧ (s.k.ptable p).rs = .blocked ∨
    (s.k.ptable p).pid ∉ s.lock.lst ∧ ((s.k.ptable p).rs = .ready ∨ (s.k.ptable p).rs = .running)
  queue : ∀ pid ∈ s.lock.lst, ∃ p, getPcb s.k pid = some p ∧ s.acquiring p = true ∧ (s.k.ptable p).rs = .blocked
  waits : s.lock.lst ≠ [] → s.lock.locked = true
  release : ∀ p, Runs s.k p → s.depth p = 1 → ∃ k lock, releaseLock s.k s.lock = .ok (k, lock) ∧
    lock.locked = false ∧ lock.lst = [] ∧ ∀ q, s.acquiring q = true → (s.k.ptable q).rs = .blocked →
      (k.ptable q).rs = .ready

def accesses (s : NodeRun) : List Access := s.walked.reverse.flatMap releaseAccesses

def NodesKept (s : NodeRun) : Prop :=
  (∀ n < s.made, n ∉ s.nodes → (accesses s).count (.kfree (some n)) = 1) ∧
    ∀ n before behind, accesses s = before ++ .kfree (some n) :: behind → .read n ∉ behind

def Fits (count : Nat) (s : SemRun) : SemOp → Prop
  | .signal n => count + s.signalled + n < 2 ^ 32
  | _ => True

structure Conserved (count : Nat) (s : SemRun) : Prop where
  count : s.sem.count + s.taken = count + s.signalled
  unmet : ∀ w ∈ s.sem.lst, s.sem.count < w.needed
  asleep : ∀ w ∈ s.sem.lst, ∃ p, getPcb s.k w.pid = some p ∧ (s.k.ptable p).rs = .blocked
  once : (s.sem.lst.map Waiter.pid).Nodup
  inside : ∀ p n, s.needs p = some n → ⟨(s.k.ptable p).pid, n⟩ ∈ s.sem.lst ∧ (s.k.ptable p).rs = .blocked ∨
    (s.k.ptable p).rs = .ready ∨ (s.k.ptable p).rs = .running
  signal : ∀ n, ∃ k sem, signalSem s.k s.sem n = .ok (k, sem)

end Petix.Spec.Sync
