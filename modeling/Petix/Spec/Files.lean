import Petix.Kernel.Syscall
import Petix.Library.RefCount

namespace Petix.Spec.Files
open Library Kernel.Pipes Kernel.Proc

def slot (k : State) (p : Slot) (i : Fin 16) : Option Nat := ((k.ptable p).fds i).file

def slots (k : State) (f : Nat) : Nat :=
  RefCount.total (fun p i => if (k.ptable p).rs = .noproc then none else slot k p i) f

def history (log : List Event) (f : Nat) : List Event :=
  log.filter fun
    | .close g => g = f
    | .kfree g _ => g = f
    | .kfreePipe _ => false

def released (f : Nat) (fops : Option FileOps) : List Event :=
  (if fops = some .pipe then [.close f] else []) ++ [.kfree f fops]

def isOpen (pipe : Pipe) : End → Bool
  | .read => pipe.oread
  | .write => pipe.owrite

def EndOpen (k : State) (side : End) (n : Nat) : Prop :=
  ∃ p i f file, (k.ptable p).rs ≠ .noproc ∧ slot k p i = some f ∧ k.files f = some file ∧
    file.fops = some .pipe ∧ file.privateData = some (side, n)

end Petix.Spec.Files
