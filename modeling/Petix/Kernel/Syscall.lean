import Petix.Kernel.Proc
import Petix.Library.Transition

/-!
# System calls on processes and descriptors (`kernel/syscall.c`)

Every call is one step of the process that makes it, except `sys_waitpid`, which is interrupted between
its three locked sections. What a call reads from the file system is given with the call.
-/

namespace Petix.Kernel.Syscall
open List Library Kernel.Pipes Kernel.Proc

def ENOENT : Int := 2
def EBADF : Int := 9

def oCloexec : Nat := 2
def oCreat : Nat := 4

structure FsReply where
  lookup : Int
  creat : Int
  lookupAgain : Int
  stored : Bool
  opened : Int

def openFd (k : State) (p : Slot) (fd : Int) : Option (Fin 16) :=
  if h : 0 ≤ fd ∧ fd < 16 then
    let i : Fin 16 := ⟨fd.toNat, by omega⟩
    if ((k.ptable p).fds i).file = none then none else some i
  else none

def lookupPath (flags : Nat) (reply : FsReply) : Int :=
  if reply.lookup < 0 then
    if reply.lookup = -ENOENT ∧ flags &&& oCreat ≠ 0 then
      if reply.creat < 0 then reply.creat
      else if reply.lookupAgain < 0 then reply.lookupAgain
      else 0
    else reply.lookup
  else 0

def setCloexec (k : State) (p : Slot) (i : Fin 16) : State :=
  k.setFd p i { (k.ptable p).fds i with cloexec := true }

def fsOpen (k : State) (p : Slot) (i : Fin 16) (reply : FsReply) : Except Fault State := do
  let f ← deref .nullFile ((k.ptable p).fds i).file
  let file ← deref .freedFile (k.files f)
  return if reply.stored then k.setFile f (some { file with fops := some .driver }) else k

def openInto (k : State) (p : Slot) (i : Fin 16) (flags : Nat) (reply : FsReply) : Except Fault (Int × State) := do
  let k ← fsOpen (if flags &&& oCloexec ≠ 0 then setCloexec k p i else k) p i reply
  if reply.opened < 0 then return (reply.opened, ← releaseFd k p i)
  else return (i.val, k)

def sysOpen (k : State) (flags : Nat) (reply : FsReply) : Except Fault (Int × State) := do
  let p ← deref .nullPcb (getPcb k k.curpid)
  if lookupPath flags reply < 0 then return (lookupPath flags reply, k)
  else match allocFd k p with
    | (none, k) => return (-EMFILE, k)
    | (some i, k) => openInto k p i flags reply

def sysClose (k : State) (fd : Int) : Except Fault (Int × State) := do
  let p ← deref .nullPcb (getPcb k k.curpid)
  match openFd k p fd with
  | none => return (-EBADF, k)
  | some i => return (0, ← releaseFd k p i)

def sysDup2 (k : State) (fd fd2 : Int) : Except Fault (Int × State) := do
  let p ← deref .nullPcb (getPcb k k.curpid)
  match openFd k p fd with
  | none => return (-EBADF, k)
  | some i =>
    if h : 0 ≤ fd2 ∧ fd2 < 16 then
      let j : Fin 16 := ⟨fd2.toNat, by omega⟩
      if fd = fd2 then return (fd, k)
      else
        let k ← releaseOpenFd k p j
        let k ← dupFd k p i
        return (fd2, k.setFd p j { (k.ptable p).fds j with file := ((k.ptable p).fds i).file })
    else return (-EBADF, k)

def openPipe (k : State) (rfile wfile : Nat) : Except Fault State := do
  let pipe := k.npipes
  let k := { k with npipes := pipe + 1 }
  let k := k.setPipe pipe (some newPipe)
  let file ← deref .freedFile (k.files rfile)
  let k := k.setFile rfile (some { file with fops := some .pipe, privateData := some (.read, pipe) })
  let file ← deref .freedFile (k.files wfile)
  return k.setFile wfile (some { file with fops := some .pipe, privateData := some (.write, pipe) })

def pipeInto (k : State) (p : Slot) (fd1 fd2 : Fin 16) (flags : Nat) : Except Fault State := do
  let rfile ← deref .nullFile ((k.ptable p).fds fd1).file
  let wfile ← deref .nullFile ((k.ptable p).fds fd2).file
  let k ← openPipe k rfile wfile
  return if flags &&& oCloexec ≠ 0 then setCloexec (setCloexec k p fd1) p fd2 else k

def sysPipe (k : State) (flags : Nat) : Except Fault ((Int × Option (Fin 16 × Fin 16)) × State) := do
  let p ← deref .nullPcb (getPcb k k.curpid)
  match allocFd k p with
  | (none, k) => return ((-EMFILE, none), k)
  | (some fd1, k) => match allocFd k p with
      | (none, k) => return ((-EMFILE, none), k)
      | (some fd2, k) => return ((0, some (fd1, fd2)), ← pipeInto k p fd1 fd2 flags)

def sysWaitpid (k : State) (pid : Int) : Except Fault (Option Int × State) := do
  let p ← deref .nullPcb (getPcb k k.curpid)
  let (ret, k) := procGetTerminatedChild k p pid
  if ret = 0 then return (none, k.setPcb p { k.ptable p with context := .reaping })
  else if ret = -1 then return (none, k.setPcb p { k.ptable p with context := .scanned pid })
  else return (some ret, k)

def waitpidBlock (k : State) (p : Slot) (pid : Int) : State :=
  k.setPcb p { k.ptable p with rs := .blocked, waitPid := pid, context := .reaping }

def waitpidReap (k : State) (p : Slot) : Except Fault ((Int × BitVec 8) × State) := do
  let pid := (k.ptable p).waitPid
  let c ← deref .nullPcb (getPcb k pid)
  let code := (k.ptable c).returnCode
  let k := k.setPcb p { k.ptable p with waitPid := notWaiting, context := .user }
  return ((pid, code), releaseProc k c)

def forkPcb (k : State) (old new : Slot) : State :=
  k.setPcb new { k.ptable new with
    ppid := (k.ptable old).pid
    rs := .ready
    fds := (k.ptable old).fds
    context := .user }

def sysFork (k : State) : Except Fault (Int × State) := do
  let old ← deref .nullPcb (getPcb k k.curpid)
  match allocProc k with
  | none => return (-EAGAIN, k)
  | some (new, k) =>
    let k ← (finRange 16).foldlM (fun k i => dupOpenFd k new i) (forkPcb k old new)
    return ((k.ptable new).pid, k)

def sysExec (k : State) : Except Fault State := do
  let p ← deref .nullPcb (getPcb k k.curpid)
  (finRange 16).foldlM (fun k i =>
    if ((k.ptable p).fds i).cloexec then releaseOpenFd k p i else .ok k) k

def wakeParent (k : State) (p : Slot) : Except Fault State :=
  if (k.ptable p).ppid > 0 then do
    let q ← deref .nullPcb (getPcb k (k.ptable p).ppid)
    let parent := k.ptable q
    if parent.rs = .blocked ∧ (parent.waitPid = (k.ptable p).pid ∨ parent.waitPid = -1) then
      return k.setPcb q { parent with waitPid := (k.ptable p).pid, rs := .ready }
    else return k
  else return k

def sysExit (k : State) (code : BitVec 32) : Except Fault State := do
  let p ← deref .nullPcb (getPcb k k.curpid)
  let k := k.setPcb p { k.ptable p with returnCode := code.truncate 8 }
  let k ← wakeParent k p
  let k ← (finRange 16).foldlM (fun k i => releaseOpenFd k p i) k
  return k.setPcb p { k.ptable p with rs := .terminated, fds := fun _ => ⟨none, false⟩ }

inductive Call where
  | tick
  | sysOpen (flags : Nat) (reply : FsReply)
  | sysClose (fd : Int)
  | sysDup2 (fd fd2 : Int)
  | sysPipe (flags : Nat)
  | sysFork
  | sysExec
  | sysExit (code : BitVec 32)
  | sysWaitpid (pid : Int)
  | waitpidBlock
  | waitpidReap

def process (k : State) (p : Slot) : Context → Call → Except Fault (Option State)
  | .user, .sysOpen flags reply => (some ·.2) <$> sysOpen k flags reply
  | .user, .sysClose fd => (some ·.2) <$> sysClose k fd
  | .user, .sysDup2 fd fd2 => (some ·.2) <$> sysDup2 k fd fd2
  | .user, .sysPipe flags => (some ·.2) <$> sysPipe k flags
  | .user, .sysFork => (some ·.2) <$> sysFork k
  | .user, .sysExec => some <$> sysExec k
  | .user, .sysExit code => some <$> sysExit k code
  | .user, .sysWaitpid pid => (some ·.2) <$> sysWaitpid k pid
  | .scanned pid, .waitpidBlock => .ok (some (waitpidBlock k p pid))
  | .reaping, .waitpidReap => (some ·.2) <$> waitpidReap k p
  | _, _ => .ok none

def next (k : State) : Call → Except Fault (Option State)
  | .tick => .ok (sched k)
  | call =>
    let p := pidOff k.curpid
    if (k.ptable p).rs = .running then process k p (k.ptable p).context call else .ok none

def emptyPcb : Pcb := ⟨0, 0, .noproc, 0, 0, fun _ => ⟨none, false⟩, .user⟩

def zeroed : State := ⟨fun _ => emptyPcb, 0, 0, fun _ => none, 0, fun _ => none, 0, []⟩

def initProc : State :=
  match allocProc zeroed with
  | none => zeroed
  | some (p, k) =>
    { k with curpid := (k.ptable p).pid }.setPcb p { k.ptable p with
      ppid := -8
      rs := .running
      fds := fun _ => ⟨none, false⟩ }

def kernel : System State Call where
  initial k := k = initProc
  step k call k' := next k call = .ok (some k')

def advance (k : State) (call : Call) : Option State :=
  match next k call with
  | .ok state => state
  | .error _ => none

theorem advance_sound (k : State) (call : Call) (k' : State) (step : advance k call = some k') :
    kernel.step k call k' := by
  unfold advance at step
  split at step
  · rename_i equal
    exact equal.trans (congrArg Except.ok step)
  · cases step

end Petix.Kernel.Syscall
