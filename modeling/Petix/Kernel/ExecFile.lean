import Petix.Kernel.Exec
import Petix.Kernel.Syscall

/-!
# `sys_exec` up to the loading of the program (`kernel/syscall.c`, `libc/string`)

A pointer into a buffer is the rest of the buffer from there on, and a read through it at the end of the buffer is a
fault.
-/

namespace Petix.Kernel.ExecFile
open List Library Kernel

def EPERM : Int := 1
def ENOEXEC : Int := 8
def EACCES : Int := 13
def EINVAL : Int := 22

inductive Fault where
  | descriptors (fault : Proc.Fault)
  | pastData
  | nullScript
  | pastPath
  | pastArgv
  | pastNewargv
  | heap
  | endless
  deriving DecidableEq

def skip (past : Fault) (more : Byte → Bool) : (str : List Byte) → Except Fault (List Byte × List Byte)
  | [] => .error past
  | c :: str => if more c then (fun r => (c :: r.1, r.2)) <$> skip past more str else .ok ([], c :: str)

def isDelim (c : Byte) : Bool := c == 0x20 || c == 0x0a || c == 0x09

def strtokR (str : List Byte) : Except Fault (Option (List Byte)) := do
  let (_, ret) ← skip .pastData (fun c => c != 0 && isDelim c) str
  if ret.head? = some 0 then return none
  else
    let (token, _) ← skip .pastData (fun c => c != 0 && !isDelim c) ret
    return some token

def strncpy (src : List Byte) (n : Nat) : List Byte := (src ++ replicate n 0).take n

def cString (path : List Byte) : Except Fault (List Byte) := Prod.fst <$> skip .pastPath (· != 0) path

def isScript : (cdata : List Byte) → Except Fault Bool
  | [] => .error .pastData
  | c :: cdata =>
    if c = 0x23 then
      match cdata with
      | [] => .error .pastData
      | c :: _ => .ok (c == 0x21)
    else .ok false

def scriptBuffer (cdata : List Byte) : Except Fault (List Byte) := do
  match ← strtokR (cdata.drop 2) with
  | none => .error .nullScript
  | some script => return strncpy script 128

abbrev Argv := List (Option (List Byte))

def copyArgv : (i : Nat) → (argv newargv : Argv) → Except Fault Argv
  | i, [], newargv => if i < 128 then .error .pastArgv else .ok newargv
  | i, arg :: argv, newargv =>
    if i < 128 then
      match arg with
      | none => .ok newargv
      | some arg =>
        if i + 1 < newargv.length then copyArgv (i + 1) argv (newargv.set (i + 1) (some arg))
        else .error .pastNewargv
    else .ok newargv

def makeNewargv (scbuff : List Byte) (argv : Option Argv) : Except Fault Argv :=
  let newargv := (replicate 128 none).set 0 (some scbuff)
  match argv with
  | none => .ok newargv
  | some argv => copyArgv 0 argv newargv

def scriptBranch (cdata : List Byte) (argv : Option Argv) : Except Fault (List Byte × Argv) := do
  let scbuff ← scriptBuffer cdata
  let newargv ← makeNewargv scbuff argv
  return (scbuff, newargv)

/-- The loop of `memcmp`, which looks at one more byte when all were equal. -/
def memcmp : (hdr ident : List Byte) → Except Fault Bool
  | [], _ => .error .pastData
  | _ :: _, [] => .ok true
  | a :: hdr, b :: ident => if a = b then memcmp hdr ident else .ok false

def checkElfHeader (data : List Byte) : Except Fault Bool := memcmp data Exec.correctEIdent

structure File where
  lookup : Int
  kept : List Nat
  exec : Bool
  opened : Int
  readable : Bool
  read : Int
  data : List Byte

abbrev Files := List Byte → File

def kmalloc (c : Kmalloc.Client) (size : Nat) : Except Fault (Nat × Kmalloc.Client) :=
  match c.heap.kmalloc size, c.next (.kmalloc size) with
  | some (ptr, _), some c => .ok (ptr, c)
  | _, _ => .error .heap

def kfree (c : Kmalloc.Client) (ptr : Nat) : Except Fault Kmalloc.Client :=
  match c.next (.kfree ptr) with
  | some c => .ok c
  | none => .error .heap

def keep (c : Kmalloc.Client) (sizes : List Nat) : Except Fault Kmalloc.Client :=
  sizes.foldlM (fun c size => Prod.snd <$> kmalloc c size) c

def closeCloexec (k : Proc.State) : Except Fault Proc.State := (Syscall.sysExec k).mapError .descriptors

inductive Reply where
  | error (err : Int)
  | loads (argv : Option Argv) (data : Nat)
  deriving DecidableEq

inductive Outcome where
  | returns (reply : Reply)
  | again (scbuff : List Byte) (newargv : Argv)

def execOnce (fs : Files) (path : Option (List Byte)) (argv : Option Argv) (k : Proc.State) (c : Kmalloc.Client) :
    Except Fault (Outcome × Proc.State × Kmalloc.Client) := do
  let k ← closeCloexec k
  match path with
  | none => return (.returns (.error (-EINVAL)), k, c)
  | some path =>
    let f := fs (← cString path)
    let c ← keep c f.kept
    if f.lookup < 0 then return (.returns (.error f.lookup), k, c)
    else if f.exec = false then return (.returns (.error (-EACCES)), k, c)
    else if f.opened < 0 then return (.returns (.error f.opened), k, c)
    else if f.readable = false then return (.returns (.error (-EPERM)), k, c)
    else
      let (data, c) ← kmalloc c f.data.length
      if f.read < 0 then return (.returns (.error f.read), k, c)
      else if ← isScript f.data then
        -- the buffer is freed when the name has been copied, before the array is made
        let (scbuff, newargv) ← scriptBranch f.data argv
        return (.again scbuff newargv, k, ← kfree c data)
      else if ← checkElfHeader f.data then return (.returns (.loads argv data), k, c)
      else return (.returns (.error (-ENOEXEC)), k, c)

def sysExec (fs : Files) : (fuel : Nat) → (path : Option (List Byte)) → (argv : Option Argv) → Proc.State →
    Kmalloc.Client → Except Fault (Reply × Proc.State × Kmalloc.Client)
  | 0, _, _, _, _ => .error .endless
  | fuel + 1, path, argv, k, c => do
      match ← execOnce fs path argv k c with
      | (.returns reply, k, c) => return (reply, k, c)
      | (.again scbuff newargv, k, c) => sysExec fs fuel (some scbuff) (some newargv) k c

end Petix.Kernel.ExecFile
