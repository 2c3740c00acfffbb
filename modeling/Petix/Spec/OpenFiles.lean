import Petix.Kernel.OpenFiles

namespace Petix.Spec.OpenFiles
open Library Kernel Kernel.OpenFiles

variable {σ : Type}

def KindAssertion : Fault → Prop
  | .tmpRead .notRegular | .tmpWrite .notRegular | .tmpGetdent .notDir => True
  | _ => False

def TmpDirectory (s : State σ) (process : Nat) (fd : Int) : Prop :=
  ∃ i file, s.openFd process fd = some (i, ⟨.regOps .tmpfs, file⟩) ∧ file.inode.ftype = .dir

def ReadsDirectory (s : State σ) (a : Action) : Prop :=
  match a.call with
  | .sysRead fd _ _ | .sysWrite fd _ _ => TmpDirectory s a.process fd
  | _ => False

end Petix.Spec.OpenFiles
