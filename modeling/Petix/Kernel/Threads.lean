import Petix.Kernel.SyncCalls
import Petix.Kernel.Syscall

/-!
# The kernel as interleaved steps

The kernel code that a process still has to run is a list of instructions. Between two of them another
process may run, where `acq_depth` allows it. A section under the global lock changes the process table, a lock or
a semaphore in one instruction; calls of `kmalloc`, `krealloc` and `kfree` have a beginning and an end.
-/

namespace Petix.Kernel.Threads
open Function Library Kernel.Sync Kernel.Proc Kernel.Syscall
open Kernel.SyncCalls hiding acquireLock releaseLock

inductive Instr where
  | acquireGlobal
  | releaseGlobal
  | enter
  | leave
  | testLock (lock : Nat)
  | queueLock (lock : Nat)
  | dropLock (lock : Nat)
  | testSem (sem n : Nat)
  | queueSem (sem n : Nat)
  | postSem (sem n : Nat)
  | sched
  | pick
  | nest (nested : Bool)
  | halt
  | allocProc
  | fork (new : Slot)
  | scan (pid : Int)
  | block (pid : Int)
  | reap
  | exit (code : BitVec 32)
  | terminate
  deriving DecidableEq

def memlock : Nat := 0

def acquireLock (lock : Nat) : List Instr := [.acquireGlobal, .testLock lock]

def releaseLock (lock : Nat) : List Instr := [.acquireGlobal, .dropLock lock]

def semWait (sem n : Nat) : List Instr := [.acquireGlobal, .testSem sem n]

def semSignal (sem n : Nat) : List Instr := [.acquireGlobal, .postSem sem n]

def heapCalls : (count : Nat) → List Instr
  | 0 => []
  | count + 1 => .enter :: .leave :: heapCalls count

def heapSync : List Instr := acquireLock memlock ++ heapCalls 1 ++ releaseLock memlock

def kmallocSync : List Instr := heapSync

def kfreeSync : List Instr := heapSync

def pageSync : List Instr := acquireLock memlock ++ releaseLock memlock

inductive Call where
  | acquireLock (lock : Nat)
  | releaseLock (lock : Nat)
  | heapSync
  | pageSync
  | semWait (sem n : Nat)
  | semSignal (sem n : Nat)
  | globalSection

def Call.code : Call → List Instr
  | .acquireLock lock => Threads.acquireLock lock
  | .releaseLock lock => Threads.releaseLock lock
  | .heapSync => Threads.heapSync
  | .pageSync => Threads.pageSync
  | .semWait sem n => Threads.semWait sem n
  | .semSignal sem n => Threads.semSignal sem n
  | .globalSection => [.acquireGlobal, .releaseGlobal]

def codeOf (calls : List Call) : List Instr := calls.flatMap Call.code

def releaseFd : Option (List Call) → List Instr
  | none => []
  | some close => codeOf close ++ kfreeSync

def fileOp (op : Option (List Call)) : List Instr := codeOf (op.getD [])

def makeNode (lookup make : List Call) : List Instr := kmallocSync ++ codeOf lookup ++ codeOf make ++ kfreeSync

structure OpenPath where
  lookup : List Call
  creat : Option (List Call × List Call × List Call)
  opened : Option (List Call × Option (List Call))

def sysOpen (path : OpenPath) : List Instr :=
  codeOf path.lookup ++ (match path.creat with
      | none => []
      | some (dir, creat, again) => makeNode dir creat ++ codeOf again) ++ match path.opened with
      | none => []
      | some (op, close) => kmallocSync ++ codeOf op ++ releaseFd close

def sysPipe : (fd1 fd2 : Bool) → List Instr
  | false, _ => []
  | true, false => kmallocSync
  | true, true => kmallocSync ++ kmallocSync ++ kmallocSync

def sysWaitpid (pid : Int) : List Instr := [.acquireGlobal, .scan pid]

def sysSchedYield : List Instr := [.sched]

def sysFork : List Instr := [.acquireGlobal, .allocProc]

inductive ExecPath where
  | fails (calls : List Call)
  | script (calls : List Call) (interpreter : ExecPath)
  | loads (calls : List Call) (argc : Nat)

def sysExec : ExecPath → List Instr
  | .fails calls => codeOf calls
  | .script calls interpreter => codeOf calls ++ kfreeSync ++ sysExec interpreter
  | .loads calls argc =>
    codeOf calls ++ kmallocSync ++ heapCalls argc ++ heapCalls argc ++ kfreeSync ++ kfreeSync

def sysExit (code : BitVec 32) (fds : List (Option (List Call))) (pages : Nat) : List Instr :=
  [.acquireGlobal, .exit code] ++ fds.flatMap releaseFd ++ [.terminate] ++
    (List.replicate pages pageSync).flatten ++ [.releaseGlobal, .sched]

inductive Syscall where
  | fileOp (op : Option (List Call))
  | open (path : OpenPath)
  | close (file : Option (List Call))
  | makeNode (lookup make : List Call)
  | pipe (fd1 fd2 : Bool)
  | waitpid (pid : Int)
  | schedYield
  | fork
  | exec (path : ExecPath)
  | exit (code : BitVec 32) (fds : List (Option (List Call))) (pages : Nat)

def Syscall.code : Syscall → List Instr
  | .fileOp op => Threads.fileOp op
  | .open path => sysOpen path
  | .close file => releaseFd file
  | .makeNode lookup make => Threads.makeNode lookup make
  | .pipe fd1 fd2 => sysPipe fd1 fd2
  | .waitpid pid => sysWaitpid pid
  | .schedYield => sysSchedYield
  | .fork => sysFork
  | .exec path => sysExec path
  | .exit code fds pages => sysExit code fds pages

structure Machine where
  k : State
  depth : Nat
  nested : Bool
  locks : Nat → Lock
  sems : Nat → Sem
  code : Slot → Option (List Instr)
  heap : List Slot

namespace Machine

def current (m : Machine) : Slot := pidOff m.k.curpid

def goto (m : Machine) (p : Slot) (code : List Instr) : Machine :=
  { m with code := update m.code p (some code) }

def setLock (m : Machine) (k : State) (l : Nat) (lock : Lock) : Machine :=
  { m with k := k, locks := update m.locks l lock }

def setSem (m : Machine) (k : State) (s : Nat) (sem : Sem) : Machine :=
  { m with k := k, sems := update m.sems s sem }

end Machine

def freed (lock : Lock) : Nat := if lock.global ∨ lock.lcnt ≠ 0 then 0 else lock.lst.length

def reapSection : List Instr := [.acquireGlobal, .reap, .releaseGlobal]

def execute (m : Machine) (p : Slot) (rest : List Instr) : Instr → Option Machine
  | .acquireGlobal => some ({ m with depth := m.depth + 1 }.goto p rest)
  | .releaseGlobal => if m.depth = 0 then none else some ({ m with depth := m.depth - 1 }.goto p rest)
  | .enter => some ({ m with heap := p :: m.heap }.goto p rest)
  | .leave => some ({ m with heap := m.heap.erase p }.goto p rest)
  | .testLock l => match SyncCalls.acquireLock true m.k (m.locks l) with
      | .error _ => none
      | .ok (k, lock, true) => some ((m.setLock k l lock).goto p (.releaseGlobal :: rest))
      | .ok (_, _, false) => some (m.goto p (.enter :: .leave :: .queueLock l :: .releaseGlobal :: .sched ::
          .acquireGlobal :: .testLock l :: rest))
  | .queueLock l => match SyncCalls.acquireLock true m.k (m.locks l) with
      | .error _ => none
      | .ok (k, lock, _) => some ((m.setLock k l lock).goto p rest)
  | .dropLock l => match SyncCalls.releaseLock m.k (m.locks l) with
      | .error _ => none
      | .ok (k, lock) =>
        some ((m.setLock k l lock).goto p (heapCalls (freed (m.locks l)) ++ .releaseGlobal :: rest))
  | .testSem s n => match waitSem m.k p (m.sems s) n with
      | .error _ => none
      | .ok (k, sem, true) => some ((m.setSem k s sem).goto p (.releaseGlobal :: rest))
      | .ok (_, _, false) => some (m.goto p (.enter :: .leave :: .queueSem s n :: .releaseGlobal :: .sched ::
          .acquireGlobal :: .testSem s n :: rest))
  | .queueSem s n => match waitSem m.k p (m.sems s) n with
      | .error _ => none
      | .ok (k, sem, _) => some ((m.setSem k s sem).goto p rest)
  | .postSem s n => match signalSem m.k (m.sems s) n with
      | .error _ => none
      | .ok (k, sem) => some ((m.setSem k s sem).goto p
          (heapCalls (Sync.semSignal (m.sems s) n).2.length ++ .releaseGlobal :: rest))
  | .sched =>
    some (m.goto p (if m.nested then rest else .acquireGlobal :: .pick :: .releaseGlobal :: rest))
  | .pick => match Proc.sched m.k with
      | some k =>
        let m := { m with k := k }.goto p rest
        if m.code m.current = none then none else some m
      | none =>
        if ∃ q, (m.k.ptable q).rs = .blocked then
          some (m.goto p (.nest true :: .releaseGlobal :: .halt :: .acquireGlobal :: .nest false :: .pick :: rest))
        else none
  | .nest nested => some ({ m with nested := nested }.goto p rest)
  | .halt => some (m.goto p rest)
  -- `alloc_proc` returns `NULL` before its `release_global`
  | .allocProc => match Proc.allocProc m.k with
      | none => some (m.goto p rest)
      | some (new, k) => some ({ m with k := k }.goto p (.releaseGlobal :: .acquireGlobal :: .fork new ::
          .acquireGlobal :: .releaseGlobal :: .releaseGlobal :: rest))
  -- the new process goes on behind the call of `fork_switchable`
  | .fork new => some (({ m with k := forkPcb m.k p new }.goto new [.releaseGlobal]).goto p rest)
  | .scan pid =>
    let (ret, k) := procGetTerminatedChild m.k p pid
    let m := { m with k := k }
    if ret = 0 then some (m.goto p (.releaseGlobal :: (reapSection ++ rest)))
    else if ret = -1 then
      some (m.goto p (.releaseGlobal :: .acquireGlobal :: .block pid :: .releaseGlobal :: .sched ::
        (reapSection ++ rest)))
    else some (m.goto p (.releaseGlobal :: rest))
  | .block pid => some ({ m with k := waitpidBlock m.k p pid }.goto p rest)
  -- the pair around `release_proc`
  | .reap => match waitpidReap m.k p with
      | .error _ => none
      | .ok (_, k) => some ({ m with k := k }.goto p (.acquireGlobal :: .releaseGlobal :: rest))
  | .exit code => match wakeParent (m.k.setPcb p { m.k.ptable p with returnCode := code.truncate 8 }) p with
      | .error _ => none
      | .ok k => some ({ m with k := k }.goto p rest)
  | .terminate => some ({ m with k := m.k.setPcb p { m.k.ptable p with
      rs := .terminated, fds := fun _ => ⟨none, false⟩ } }.goto p rest)

inductive Label where
  | syscall (call : Syscall)
  | run
  | timer
  | interrupt (calls : List Call)

def interrupted (m : Machine) (handler : List Instr) : Option Machine :=
  match m.code m.current with
  | none => none
  | some code => if m.depth = 0 ∨ code = [] then some (m.goto m.current (handler ++ code)) else none

def next (m : Machine) : Label → Option Machine
  | .syscall call => if m.code m.current = some [] then some (m.goto m.current call.code) else none
  | .run => match m.code m.current with
      | some (instr :: rest) => execute m m.current rest instr
      | _ => none
  | .timer => interrupted m [.sched]
  | .interrupt calls => interrupted m (codeOf calls)

def machine : System Machine Label where
  initial m := m.k = initProc ∧ m.depth = 0 ∧ m.nested = false ∧
    (∀ l, (m.locks l).locked = false ∧ (m.locks l).global = false ∧ (m.locks l).lst = []) ∧ (∀ s, (m.sems s).lst = []) ∧
    (∃ path, m.code = update (fun _ => none) m.current (some (sysExec path))) ∧ m.heap = []
  step m label m' := next m label = some m'

end Petix.Kernel.Threads
