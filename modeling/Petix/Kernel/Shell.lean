import Petix.Kernel.Syscall
import Petix.Library.Program

/-!
# Command lines (`bin/sh/main.c`)

A string is the list of its bytes before the terminator. `do_line` is a program that makes system calls, in the
process `p` of a kernel with other processes. What the calls leave in variables that they do not set comes from
outside.
-/

namespace Petix.Kernel.Shell
open Library Kernel.Proc Kernel.Syscall

inductive Request where
  | pipe2 (flags : Nat)
  | fork
  | dup2 (fd fd2 : Int)
  | execve (path : List Byte) (argv : List (List Byte))
  | close (fd : Int)
  | waitpid (pid : Int)
  | exit (status : BitVec 32)

abbrev Reply : Request → Type
  | .pipe2 _ => Int × Int × Int
  | .waitpid _ => Int × Int
  | .exit _ => Empty
  | _ => Int

abbrev Shell := Program Request Reply

def request (r : Request) : Shell (Reply r) := .call r .ret

def errtab : List Int := [1, 2, 3, 4, 5, 6, 8, 9, 10, 11, 13, 14, 17, 19, 20, 21, 22, 24, 25, 38, 95]

def perror (errno : Int) : Shell Unit := if errno ∈ errtab then .ret () else .fail

def rawSyscallErrno (res errno : Int) : Int × Int := if res < 0 then (-1, -res) else (res, errno)

def execvp : (argv : List (List Byte)) → Shell Int
  | [] => .fail
  | path :: argv =>
    if 0x2f ∈ path then (-·) <$> request (.execve path (path :: argv))
    else if path.length ≤ 1018 then
      (-·) <$> request (.execve ([0x2f, 0x62, 0x69, 0x6e, 0x2f] ++ path) (path :: argv))
    else .fail

def strtokR (delim : Byte → Bool) (str : List Byte) : Option (List Byte × List Byte) :=
  match str.dropWhile delim with
  | [] => none
  | c :: str => some ((c :: str).takeWhile (!delim ·), ((c :: str).dropWhile (!delim ·)).drop 1)

def tokens (delim : Byte → Bool) : (fuel : Nat) → (str : List Byte) → List (List Byte)
  | 0, _ => []
  | fuel + 1, str => match strtokR delim str with
      | none => []
      | some (token, rest) => token :: tokens delim fuel rest

def isBlank (c : Byte) : Bool := c == 0x20 || c == 0x09 || c == 0x0a

def isBar (c : Byte) : Bool := c == 0x7c

def execProg (argv : List (List Byte)) (infd out : Int) : Shell (Int × Int) := do
  let res ← request .fork
  if res = 0 then
    let _ ← request (.dup2 infd 0)
    let _ ← request (.dup2 out 1)
    let errno ← execvp argv
    perror errno
    let never ← request (.exit 1)
    nomatch never
  else return rawSyscallErrno res 0

def doProg (prog : List Byte) (infd out : Int) : Shell (Int × Int) :=
  let args := tokens isBlank prog.length prog
  if args.length < 32 then execProg args infd out else .fail

def doStages (prev : List Byte) (infd : Int) : (rest : List (List Byte)) → Shell Int
  | [] => do
      let (pid, errno) ← doProg prev infd 1
      if pid = -1 then
        perror errno
        return 1
      else
        let (_, wstatus) ← request (.waitpid pid)
        return wstatus
  | c :: rest => do
      let (_, filedes) ← request (.pipe2 oCloexec)
      let (pid, errno) ← doProg prev infd filedes.2
      if pid = -1 then
        perror errno
        return 1
      else
        if infd ≠ 0 then
          let _ ← request (.close infd)
        let _ ← request (.close filedes.2)
        doStages c filedes.1 rest

def doLine (line : List Byte) : Shell Int :=
  match line.dropWhile isBlank with
  | [] => return 0
  | c :: line =>
    if c = 0x23 then return 0
    else match tokens isBar (c :: line).length (c :: line) with
      | [] => .fail
      | prev :: rest => doStages prev 0 rest

structure Config where
  kernel : State
  shell : Option (Shell Int)
  image : Slot → Option (Shell Int)
  children : List Int

structure Outside where
  filedes : Int × Int
  wstatus : Int
  exec : Option Int

def serve (k : State) (q : Slot) (outside : Outside) : (request : Request) → Context →
    Except Fault (Option (Option (Reply request) × State))
  | .pipe2 flags, .user =>
    (fun r => some (some (r.1.1, match r.1.2 with
      | some (fd1, fd2) => ((fd1.val : Int), (fd2.val : Int))
      | none => outside.filedes), r.2)) <$> sysPipe k flags
  | .fork, .user => (fun r => some (some r.1, r.2)) <$> sysFork k
  | .dup2 fd fd2, .user => (fun r => some (some r.1, r.2)) <$> sysDup2 k fd fd2
  | .execve _ _, .user => (fun k => some (outside.exec, k)) <$> sysExec k
  | .close fd, .user => (fun r => some (some r.1, r.2)) <$> sysClose k fd
  | .exit status, .user => (fun k => some (none, k)) <$> sysExit k status
  | .waitpid pid, .user => (fun r => some (r.1.map fun ret => (ret, outside.wstatus), r.2)) <$> sysWaitpid k pid
  | .waitpid _, .scanned w => .ok (some (none, waitpidBlock k q w))
  | .waitpid _, .reaping => (fun r => some (some (r.1.1, (r.1.2.toNat : Int)), r.2)) <$> waitpidReap k q
  | _, _ => .ok none

def isExecve : Request → Bool
  | .execve _ _ => true
  | _ => false

def goOn (r : Request) (next : Reply r → Shell Int) : Option (Reply r) → Option (Shell Int)
  | some reply => some (next reply)
  | none => if isExecve r then none else some (.call r next)

def offspring : (r : Request) → (Reply r → Shell Int) → Option (Shell Int)
  | .fork, next => some (next 0)
  | _, _ => none

def forked (k : State) : (r : Request) → Option (Reply r) → List Int
  | .fork, some pid => if (allocProc k).isSome then [pid] else []
  | _, _ => []

inductive Move where
  | tick
  | program (outside : Outside)
  | other (call : Call)

namespace Config

variable (p : Slot) (c : Config)

def current : Slot := pidOff c.kernel.curpid

def rest : Option (Shell Int) := if c.current = p then c.shell else c.image c.current

def inherit (k : State) (prog : Option (Shell Int)) : Slot → Option (Shell Int) := fun q =>
  if (c.kernel.ptable q).rs = .noproc ∧ (k.ptable q).rs ≠ .noproc then prog else c.image q

def served (r : Request) (next : Reply r → Shell Int) (reply : Option (Reply r)) (k : State) : Config :=
  let image := c.inherit k (offspring r next)
  if c.current = p then
    { kernel := k
      shell := goOn r next reply
      image := image
      children := c.children ++ forked c.kernel r reply }
  else { c with kernel := k, image := Function.update image c.current (goOn r next reply) }

def next : Move → Except Fault (Option Config)
  | .tick => .ok ((sched c.kernel).map fun k => { c with kernel := k })
  | .program outside =>
    if (c.kernel.ptable c.current).rs = .running then
      match c.rest p with
      | some (.call r next) =>
        (Option.map fun done => c.served p r next done.1 done.2) <$>
          serve c.kernel c.current outside r (c.kernel.ptable c.current).context
      | _ => .ok none
    else .ok none
  | .other call =>
    if (c.rest p).isNone then
      match call with
      | .tick => .ok none
      | call => (Option.map fun k => { c with kernel := k, image := c.inherit k none }) <$> Syscall.next c.kernel call
    else .ok none

end Config

def shellOn (p : Slot) (line : List Byte) : System Config Move where
  initial c := kernel.Reachable c.kernel ∧ c.current = p ∧ (c.kernel.ptable p).rs = .running ∧
    (c.kernel.ptable p).context = .user ∧ c.shell = some (doLine line) ∧ c.children = []
  step c move c' := c.next p move = .ok (some c')

def advance (p : Slot) (c : Config) (move : Move) : Option Config :=
  match c.next p move with
  | .ok config => config
  | .error _ => none

theorem advance_sound (p : Slot) (line : List Byte) (c : Config) (move : Move) (c' : Config)
    (step : advance p c move = some c') : (shellOn p line).step c move c' := by
  unfold advance at step
  split at step
  · rename_i equal
    exact equal.trans (congrArg Except.ok step)
  · cases step

end Petix.Kernel.Shell
