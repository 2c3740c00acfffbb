import Petix.Kernel.Pipes
import Petix.Library.Word

/-!
# Processes and file descriptors (`kernel/proc.c`)

A pointer to a process is its index in `ptable`. A `struct file` or `struct pipe` is named by the number
of its allocation, so a pointer to freed memory never means a younger object.
-/

namespace Petix.Kernel.Proc
open Function List Library Kernel.Sync Kernel.Pipes

inductive ReadyState where
  | noproc
  | created
  | ready
  | running
  | blocked
  | terminated
  deriving DecidableEq

inductive Context where
  | user
  | scanned (pid : Int)
  | reaping
  deriving DecidableEq

structure Fd where
  file : Option Nat
  cloexec : Bool
  deriving DecidableEq

abbrev Slot := Fin 1024

structure Pcb where
  pid : Int
  ppid : Int
  rs : ReadyState
  returnCode : BitVec 8
  waitPid : Int
  fds : Fin 16 → Fd
  context : Context

inductive FileOps where
  | pipe
  | driver
  deriving DecidableEq

structure File where
  fops : Option FileOps
  privateData : Option (End × Nat)
  refcnt : Nat

def File.hasClose (file : File) : Bool := file.fops == some .pipe

inductive Event where
  | close (file : Nat)
  | kfree (file : Nat) (fops : Option FileOps)
  | kfreePipe (pipe : Nat)
  deriving DecidableEq

structure State where
  ptable : Slot → Pcb
  ptFree : Slot
  curpid : Int
  files : Nat → Option File
  nfiles : Nat
  pipes : Nat → Option Pipe
  npipes : Nat
  log : List Event

inductive Fault where
  | nullPcb
  | nullFile
  | zeroRefcnt
  | notBlocked
  | freedFile
  | freedPipe
  deriving DecidableEq

def deref {α : Type} (fault : Fault) : Option α → Except Fault α
  | some a => .ok a
  | none => .error fault

def kassert (test : Bool) (fault : Fault) : Except Fault Unit := if test then .ok () else .error fault

def pidGen (pid : Int) : Int := pid / 1024

def pidOff (pid : Int) : Slot := ⟨(pid % 1024).toNat, by omega⟩

def makePid (gen : Int) (off : Slot) : Int := signed32 (gen * 1024 + off.val)

def notWaiting : Int := -2

def ECHILD : Int := 10
def EAGAIN : Int := 11
def EMFILE : Int := 24

namespace State

def setPcb (k : State) (p : Slot) (pcb : Pcb) : State := { k with ptable := update k.ptable p pcb }

def setFd (k : State) (p : Slot) (i : Fin 16) (fd : Fd) : State :=
  k.setPcb p { k.ptable p with fds := update (k.ptable p).fds i fd }

def setFile (k : State) (f : Nat) (file : Option File) : State :=
  { k with files := update k.files f file }

def setPipe (k : State) (p : Nat) (pipe : Option Pipe) : State :=
  { k with pipes := update k.pipes p pipe }

def emit (k : State) (event : Event) : State := { k with log := k.log ++ [event] }

end State

def getPcb (k : State) (pid : Int) : Option Slot :=
  let p := pidOff pid
  if (k.ptable p).rs = .noproc ∨ (k.ptable p).pid ≠ pid then none else some p

def search (ptable : Slot → Pcb) (rs : ReadyState) (start : Slot) : (fuel : Nat) → (off : Slot) → Option Slot
  | 0, _ => none
  | fuel + 1, off =>
    if (ptable off).rs = rs then some off
    else if off + 1 = start then none
    else search ptable rs start fuel (off + 1)

def claimProc (k : State) (p : Slot) : State :=
  { k with ptFree := p }.setPcb p { k.ptable p with
    rs := .created
    pid := makePid (pidGen (k.ptable p).pid + 1) p
    ppid := -1 }

def allocProc (k : State) : Option (Slot × State) :=
  (search k.ptable .noproc k.ptFree 1024 k.ptFree).map fun p => (p, claimProc k p)

def releaseProc (k : State) (p : Slot) : State :=
  k.setPcb p { k.ptable p with rs := .noproc, ppid := 0, waitPid := notWaiting }

def allocFd (k : State) (p : Slot) : Option (Fin 16) × State :=
  match (finRange 16).find? (fun i => ((k.ptable p).fds i).file = none) with
  | none => (none, k)
  | some i =>
    let f := k.nfiles
    let k := { k with nfiles := f + 1 }
    (some i, (k.setFile f (some ⟨none, none, 1⟩)).setFd p i ⟨some f, false⟩)

def wake (k : State) : List Int → Except Fault State
  | [] => .ok k
  | pid :: pids => do
      let p ← deref .nullPcb (getPcb k pid)
      kassert ((k.ptable p).rs == .blocked) .notBlocked
      wake (k.setPcb p { k.ptable p with rs := .ready }) pids

def pclose (k : State) (f : Nat) : Except Fault State := do
  let file ← deref .freedFile (k.files f)
  match file.privateData with
  | none => return k
  | some (side, p) =>
    let pipe ← deref .freedPipe (k.pipes p)
    let (pipe, woken) := pcloseSection pipe side
    let k ← wake (k.setPipe p (some pipe)) woken
    if !pipe.oread && !pipe.owrite then
      return ((k.setPipe p none).emit (.kfreePipe p)).setFile f (some { file with privateData := none })
    else return k

def dropFile (k : State) (f : Nat) (file : File) : Except Fault State :=
  if file.refcnt = 0 then do
    let k ← if file.hasClose then pclose (k.emit (.close f)) f else .ok k
    return (k.setFile f none).emit (.kfree f file.fops)
  else .ok k

def releaseFd (k : State) (p : Slot) (i : Fin 16) : Except Fault State := do
  let f ← deref .nullFile ((k.ptable p).fds i).file
  let file ← deref .freedFile (k.files f)
  kassert (file.refcnt != 0) .zeroRefcnt
  let file := { file with refcnt := file.refcnt - 1 }
  let k ← dropFile (k.setFile f (some file)) f file
  return k.setFd p i ⟨none, false⟩

def releaseOpenFd (k : State) (p : Slot) (i : Fin 16) : Except Fault State :=
  if ((k.ptable p).fds i).file = none then .ok k else releaseFd k p i

def dupFd (k : State) (p : Slot) (i : Fin 16) : Except Fault State := do
  let f ← deref .nullFile ((k.ptable p).fds i).file
  let file ← deref .freedFile (k.files f)
  return k.setFile f (some { file with refcnt := file.refcnt + 1 })

def dupOpenFd (k : State) (p : Slot) (i : Fin 16) : Except Fault State :=
  if ((k.ptable p).fds i).file = none then .ok k else dupFd k p i

inductive Scan where
  | terminated (child : Slot)
  | running
  | childless
  deriving DecidableEq

def scanChildren (ptable : Slot → Pcb) (ppid pid : Int) : List Slot → (child : Bool) → Scan
  | [], child => if child then .running else .childless
  | c :: rest, child =>
    if (ptable c).rs = .noproc then scanChildren ptable ppid pid rest child
    else if (ptable c).ppid = ppid ∧ (pid = -1 ∨ pid = (ptable c).pid) then
      if (ptable c).rs = .terminated then .terminated c else scanChildren ptable ppid pid rest true
    else scanChildren ptable ppid pid rest child

def procGetTerminatedChild (k : State) (p : Slot) (pid : Int) : Int × State :=
  match scanChildren k.ptable (k.ptable p).pid pid (finRange 1024) false with
  | .terminated c => (0, k.setPcb p { k.ptable p with waitPid := (k.ptable c).pid })
  | .running => (-1, k)
  | .childless => (-ECHILD, k)

def preempt (k : State) : State :=
  let cur := pidOff k.curpid
  if (k.ptable cur).rs = .running then k.setPcb cur { k.ptable cur with rs := .ready } else k

def dispatch (k : State) (p : Slot) : State :=
  { k.setPcb p { k.ptable p with rs := .running } with
    curpid := if p = pidOff k.curpid then k.curpid else (k.ptable p).pid }

/-- `none` while no process is ready: the loop then halts until an interrupt, or panics. -/
def sched (k : State) : Option State :=
  let start := pidOff k.curpid + 1
  (search (preempt k).ptable .ready start 1024 start).map (dispatch (preempt k))

end Petix.Kernel.Proc
