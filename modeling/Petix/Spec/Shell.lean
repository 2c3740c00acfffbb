import Mathlib.Data.Set.Basic
import Petix.Kernel.Shell
import Petix.Library.Words

namespace Petix.Spec.Shell
open Library Kernel.Proc Kernel.Syscall Kernel.Shell

def stages (line : List Byte) : List (List Byte) := words isBar (line.dropWhile isBlank)

def Ignored (line : List Byte) : Prop := ∀ c, (line.dropWhile isBlank).head? = some c → c = 0x23

def openSet (k : State) (p : Slot) : Set (Fin 16) := {i | ((k.ptable p).fds i).file ≠ none}

def Unreaped (k : State) (p : Slot) (pid : Int) : Prop :=
  ∃ q, (k.ptable q).rs ≠ .noproc ∧ (k.ptable q).ppid = (k.ptable p).pid ∧ (k.ptable q).pid = pid

def Granted (k : State) : Request → Prop
  | .pipe2 flags => ∀ ret fds k', sysPipe k flags = .ok ((ret, fds), k') → ret = 0
  | .fork => ∀ ret k', sysFork k = .ok (ret, k') → 0 < ret
  | _ => True

instance (k : State) (r : Request) : Decidable (Granted k r) :=
  match r with
  | .pipe2 flags => match run : sysPipe k flags with
      | .ok ((ret, _), _) => decidable_of_iff (ret = 0)
          ⟨fun zero _ _ _ made => by cases run.symm.trans made; exact zero, fun granted => granted _ _ _ run⟩
      | .error _ => isTrue fun _ _ _ made => nomatch run.symm.trans made
  | .fork => match run : sysFork k with
      | .ok (ret, _) => decidable_of_iff (0 < ret)
          ⟨fun positive _ _ made => by cases run.symm.trans made; exact positive, fun granted => granted _ _ run⟩
      | .error _ => isTrue fun _ _ made => nomatch run.symm.trans made
  | .dup2 _ _ | .execve _ _ | .close _ | .waitpid _ | .exit _ => isTrue trivial

def Succeeds (p : Slot) (c : Config) : Move → Prop
  | .program _ => ∀ r next, c.current = p → c.shell = some (.call r next) → Granted c.kernel r
  | _ => True

instance (p : Slot) (c : Config) (move : Move) : Decidable (Succeeds p c move) :=
  match move with
  | .program _ => match shell : c.shell with
      | some (.call r _) => decidable_of_iff (c.current = p → Granted c.kernel r)
          ⟨fun granted _ _ own here => by cases shell.symm.trans here; exact granted own,
            fun granted own => granted _ _ own shell⟩
      | some (.ret _) | some .fail | none => isTrue fun _ _ _ here => nomatch shell.symm.trans here
  | .tick | .other _ => isTrue trivial

end Petix.Spec.Shell
