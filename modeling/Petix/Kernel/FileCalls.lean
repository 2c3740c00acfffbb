import Petix.Kernel.Syscall

/-!
# System calls on open files (`kernel/syscall.c`)

`sys_read`, `sys_write`, `sys_getdent`, `sys_ioctl` and `sys_mmap` up to the point where they read an operation from
`f->fops`.
-/

namespace Petix.Kernel.FileCalls
open Kernel.Proc Kernel.Syscall

inductive Fault where
  | nullPcb
  | freedFile
  | nullFops
  deriving DecidableEq

def ENOTDIR : Int := 20
def EINVAL : Int := 22

inductive FileCall where
  | sysRead
  | sysWrite
  | sysGetdent (notDir : Bool)
  | sysIoctl
  | sysMmap (addr len : Nat)

def deref {α : Type} (fault : Fault) : Option α → Except Fault α
  | some a => .ok a
  | none => .error fault

abbrev Reply := Int ⊕ FileOps

def withFile (k : State) (fd : Int) (use : File → Except Fault Reply) : Except Fault Reply := do
  let p ← deref .nullPcb (getPcb k k.curpid)
  match openFd k p fd with
  | none => return .inl (-EBADF)
  | some i =>
    let f := ((k.ptable p).fds i).file
    let file ← deref .freedFile (f.bind k.files)
    use file

def readFops (file : File) : Except Fault Reply := do
  let fops ← deref .nullFops file.fops
  return .inr fops

def fileCall (k : State) (fd : Int) : FileCall → Except Fault Reply
  | .sysRead | .sysWrite | .sysIoctl => withFile k fd readFops
  | .sysGetdent notDir => withFile k fd fun file => if notDir then .ok (.inl (-ENOTDIR)) else readFops file
  | .sysMmap addr len =>
    if len = 0 then .ok (.inl (-EINVAL))
    else if addr % 4096 ≠ 0 then .ok (.inl (-EINVAL))
    else withFile k fd readFops

end Petix.Kernel.FileCalls
