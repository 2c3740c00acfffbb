import Petix.Kernel.FileCalls
import Petix.Spec.Files

namespace Petix.Spec.FileCalls
open Kernel.Proc Kernel.Syscall Kernel.FileCalls Spec.Files

def OneFree (k : State) (p : Slot) : Prop := ∃ i, slot k p i = none ∧ ∀ j, slot k p j = none → j = i

instance (k : State) (p : Slot) : Decidable (OneFree k p) := inferInstanceAs (Decidable (∃ _, _))

/-- `sys_pipe` is not called with one free descriptor, and `fs_open` returns without an error only after it has stored
the operations. -/
def Foreseen (k : State) : Call → Prop
  | .sysPipe _ => ¬ OneFree k (pidOff k.curpid)
  | .sysOpen _ reply => 0 ≤ reply.opened → reply.stored = true
  | _ => True

instance (k : State) : (call : Call) → Decidable (Foreseen k call)
  | .sysPipe _ => inferInstanceAs (Decidable (¬ _))
  | .sysOpen _ _ => inferInstanceAs (Decidable (_ → _))
  | .tick | .sysClose _ | .sysDup2 _ _ | .sysFork | .sysExec | .sysExit _ | .sysWaitpid _ | .waitpidBlock
  | .waitpidReap => isTrue trivial

def OpsSet (k : State) : Prop :=
  ∀ p i f, slot k p i = some f → ∃ file fops, k.files f = some file ∧ file.fops = some fops

end Petix.Spec.FileCalls
