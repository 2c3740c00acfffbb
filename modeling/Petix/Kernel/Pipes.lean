import Petix.Kernel.Sync
import Petix.Library.ByteMemory

/-!
# Pipes (`kernel/pipe.c`)

The code between `acquire_lock` and `release_lock` is cut into what a section does to the pipe and the
wakeups it ends with. A system call that closes a pipe runs the two at once; `PipeCalls` runs them apart.
-/

namespace Petix.Kernel.Pipes
open Library Kernel.Sync

def pipeSize : Nat := 4096

inductive End where
  | read
  | write
  deriving DecidableEq

structure Pipe where
  rcond : Sem
  wcond : Sem
  owrite : Bool
  oread : Bool
  lo : Nat
  hi : Nat
  buffer : Nat → Byte

def newPipe : Pipe where
  rcond := ⟨0, []⟩
  wcond := ⟨0, []⟩
  owrite := true
  oread := true
  lo := 0
  hi := 0
  buffer := fun _ => 0

def preadLoop (pipe : Pipe) : (count : Nat) → Pipe × List Byte × Nat
  | 0 => (pipe, [], 0)
  | count + 1 =>
    if pipe.hi ≠ pipe.lo then
      let (pipe', bytes, count) := preadLoop { pipe with lo := (pipe.lo + 1) % pipeSize } count
      (pipe', pipe.buffer pipe.lo :: bytes, count)
    else (pipe, [], count + 1)

def pwriteLoop (pipe : Pipe) : (buf : List Byte) → Pipe × List Byte
  | [] => (pipe, [])
  | byte :: buf =>
    if (pipe.hi + 1) % pipeSize ≠ pipe.lo then
      pwriteLoop { pipe with
        buffer := Function.update pipe.buffer pipe.hi byte
        hi := (pipe.hi + 1) % pipeSize } buf
    else (pipe, byte :: buf)

def preadWakes (pipe : Pipe) : List End :=
  if (pipe.hi + 1) % pipeSize ≠ pipe.lo then [.write] else []

def pwriteWakes (pipe : Pipe) : List End :=
  if pipe.hi ≠ pipe.lo then [.read] else []

def wakeCond (pipe : Pipe) : End → Pipe × List Int
  | .read =>
    let (rcond, woken) := condWake pipe.rcond
    ({ pipe with rcond := rcond }, woken)
  | .write =>
    let (wcond, woken) := condWake pipe.wcond
    ({ pipe with wcond := wcond }, woken)

def closeEnd (pipe : Pipe) : End → Pipe
  | .read => { pipe with oread := false }
  | .write => { pipe with owrite := false }

def pcloseSection (pipe : Pipe) (side : End) : Pipe × List Int :=
  let (pipe, writers) := wakeCond (closeEnd pipe side) .write
  let (pipe, readers) := wakeCond pipe .read
  (pipe, writers ++ readers)

end Petix.Kernel.Pipes
