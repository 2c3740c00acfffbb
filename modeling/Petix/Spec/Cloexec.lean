import Petix.Spec.FileCalls

namespace Petix.Spec.Cloexec
open Library Kernel.Proc Kernel.Syscall Spec.Files Spec.FileCalls

/-- How a descriptor was created: without `O_CLOEXEC`, with it, or with it by a `sys_pipe` that failed and left its
first descriptor behind. -/
inductive Origin where
  | plain
  | cloexec
  | failed
  deriving DecidableEq

def created (flags : Nat) : Origin := if flags &&& oCloexec ≠ 0 then .cloexec else .plain

def origins (k : State) (call : Call) (k' : State) (origin : Slot × Fin 16 → Origin) (c : Slot × Fin 16) : Origin :=
  let p := pidOff k.curpid
  match call with
  | .sysOpen flags _ => if c.1 = p ∧ slot k c.1 c.2 = none then created flags else origin c
  | .sysPipe flags =>
    if c.1 = p ∧ slot k c.1 c.2 = none then
      if created flags = .cloexec ∧ OneFree k p then .failed else created flags
    else origin c
  | .sysDup2 fd fd2 => if c.1 = p ∧ fd2 = c.2 ∧ fd ≠ fd2 ∧ openFd k p fd ≠ none then .plain else origin c
  | .sysFork => if (k.ptable c.1).rs = .noproc ∧ (k'.ptable c.1).rs ≠ .noproc then origin (p, c.2) else origin c
  | _ => origin c

structure Traced where
  kernel : State
  origin : Slot × Fin 16 → Origin

abbrev Traced.proc (s : Traced) : Slot := pidOff s.kernel.curpid

def follow (s : Traced) (call : Call) : Option Traced :=
  (advance s.kernel call).map fun k => ⟨k, origins s.kernel call k s.origin⟩

def traced : System Traced Call where
  initial s := s.kernel = initProc
  step s call s' := follow s call = some s'

def EmptyCleared (k : State) : Prop := ∀ p i, slot k p i = none → ((k.ptable p).fds i).cloexec = false

def DupsPlain (k : State) : Prop :=
  ∀ fd fd2 k' (i : Fin 16), sysDup2 k fd fd2 = .ok (fd2, k') → fd ≠ fd2 → fd2 = i →
    ((k'.ptable (pidOff k.curpid)).fds i).cloexec = false

def ClosesCreated (s : Traced) : Prop :=
  ∃ k, sysExec s.kernel = .ok k ∧
    ∀ i, slot s.kernel s.proc i ≠ none → (slot k s.proc i = none ↔ s.origin (s.proc, i) ≠ .plain)

end Petix.Spec.Cloexec
