import Petix.Kernel.Proc

/-!
# Closing both ends of a pipe at once (`kernel/pipe.c`)

`pclose` gives up the lock of the pipe before it looks at both ends, so it is two steps here: the locked section,
and the test that may free the pipe.
-/

namespace Petix.Kernel.PipeClose
open Kernel.Pipes Kernel.Proc

def closeSection (k : State) (f : Nat) : Except Fault State := do
  let file ← deref .freedFile (k.files f)
  match file.privateData with
  | none => return k
  | some (side, p) =>
    let pipe ← deref .freedPipe (k.pipes p)
    let (pipe, woken) := pcloseSection pipe side
    wake (k.setPipe p (some pipe)) woken

def closeTest (k : State) (f : Nat) : Except Fault State := do
  let file ← deref .freedFile (k.files f)
  match file.privateData with
  | none => return k
  | some (_, p) =>
    let pipe ← deref .freedPipe (k.pipes p)
    if !pipe.oread && !pipe.owrite then
      return ((k.setPipe p none).emit (.kfreePipe p)).setFile f (some { file with privateData := none })
    else return k

structure Closers where
  k : State
  left : End → Bool

def closeStep (file : End → Nat) (c : Closers) (side : End) : Except Fault Closers :=
  if c.left side then (⟨·, c.left⟩) <$> closeTest c.k (file side)
  else (⟨·, Function.update c.left side true⟩) <$> closeSection c.k (file side)

end Petix.Kernel.PipeClose
