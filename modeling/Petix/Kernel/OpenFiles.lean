import Petix.Kernel.Lookup

/-!
# System calls on open files (`kernel/syscall.c`, `kernel/fs.c`, `kernel/fs/tmpfs.c`, `kernel/fs/devfs.c`)

The descriptors of all processes over the file systems that `kmain` mounts. Every descriptor has a file of its own.
What a device driver answers is given with the call.
-/

namespace Petix.Kernel.OpenFiles
open List Library Kernel Kernel.Mounts Kernel.Vfs Kernel.Lookup
open Kernel.Container (Bucket HashmapEntry Str)
open Kernel.Tmpfs (Heap Tmpfs Children)
open Kernel.Paging (Allocator)

def ENXIO : Int := 6
def EBADF : Int := 9
def EMFILE : Int := 24

def oCreat : Nat := 4

inductive Fault where
  | lookup (fault : Lookup.Fault)
  | tarfs (fault : Tar.Fault)
  | tmpRead (fault : Tmpfs.Fault)
  | tmpWrite (fault : Tmpfs.Fault)
  | tmpGetdent (fault : Tmpfs.Fault)
  | symlink
  deriving DecidableEq

/-- `real_entry` from bucket `i` on. The loop has no end of its own: `behind` is how many words behind the table it
passes. -/
def realEntry (map : Children) (behind i : Nat) : Nat :=
  match ((range map.buckets).drop i).find? fun j => match map.data j with
    | .full _ => true
    | .empty | .tombstone => false with
  | some j => j
  | none => max i map.buckets + behind

def tmpGetdent {σ : Type} (s : Tmpfs σ FsInst) (f : File FsInst) (d : Dirent) (behind : Nat) :
    Except Tmpfs.Fault (Int × File FsInst × Dirent) :=
  if f.inode.ftype ≠ .dir then .error .notDir
  else do
    let node ← s.node f.inode.inodeId
    let map ← node.children
    let startIter := if map.buckets = 0 then 0 else realEntry map behind 0
    let entry := startIter + f.offset
    if map.buckets ≤ entry then return (0, f, { d with present := false })
    else
      match map.data entry.toNat with
      | .empty | .tombstone => .error .badNode
      | .full e =>
        let child ← s.node e.value
        let d := ⟨child.inode.inodeId, true, child.inode.ftype, strncpy e.key.chars fileNameLen⟩
        return (0, { f with offset := realEntry map behind (entry.toNat + 1) - startIter }, d)

def devOpen (inode : Inode FsInst) : Int := if inode.inodeId = 0 then 0 else -EPERM

def devNames : List (List Byte) := [vgatty, comtty, fb, fbtty]

def devGetdent (f : File FsInst) (d : Dirent) : File FsInst × Dirent :=
  let d := { d with type := .special }
  let d := match if 0 ≤ f.offset then devNames[f.offset.toNat]? else none with
    | some name => { d with inodeId := f.offset.toNat, present := true, name := strncpy name fileNameLen }
    | none => { d with present := false }
  ({ f with offset := f.offset + 1 }, d)

inductive Fops where
  | device
  | regOps (fs : FsInst)
  deriving DecidableEq

structure OpenFile where
  fops : Fops
  file : File FsInst

structure State (σ : Type) where
  fs : FileSystems σ
  fds : (process : Nat) → Fin 16 → Option OpenFile

variable {σ : Type}

def State.setFd (s : State σ) (process : Nat) (i : Fin 16) (f : Option OpenFile) : State σ :=
  { s with fds := Function.update s.fds process (Function.update (s.fds process) i f) }

theorem fd_lt {fd : Int} (inside : 0 ≤ fd ∧ fd < 16) : fd.toNat < 16 := by omega

def State.openFd (s : State σ) (process : Nat) (fd : Int) : Option (Fin 16 × OpenFile) :=
  if h : 0 ≤ fd ∧ fd < 16 then
    let i : Fin 16 := ⟨fd.toNat, fd_lt h⟩
    (s.fds process i).map fun f => (i, f)
  else none

structure Outside where
  registered : Bool
  answer : Int
  stack : Buffer
  inode : Inode FsInst
  behind : Nat

def regOpen (inode : Inode FsInst) (f : File FsInst) (flags : Nat) : Int × OpenFile :=
  match inode.fs with
  | .tarfs =>
    let (err, f) := Vfs.fsOpen Tar.topen inode f flags
    (err, ⟨.regOps .tarfs, f⟩)
  | .tmpfs =>
    let (err, f) := Vfs.fsOpen Tmpfs.tmpOpen inode f flags
    (err, ⟨.regOps .tmpfs, f⟩)
  | .devfs =>
    let (err, f) := Vfs.fsOpen (fun _ f => f) inode f flags
    (if err < 0 then err else devOpen inode, ⟨.regOps .devfs, f⟩)

def fsOpen (out : Outside) (inode : Inode FsInst) (f : File FsInst) (flags : Nat) : Except Fault (Int × OpenFile) :=
  match inode.ftype with
  | .special =>
    if flags &&& oDirectory ≠ 0 then .ok (-ENOTDIR, ⟨.device, f⟩)
    else if out.registered = false then .ok (- ENXIO, ⟨.device, f⟩)
    else .ok (out.answer, ⟨.device, { f with inode := inode, offset := 0 }⟩)
  | .regular | .dir => .ok (regOpen inode f flags)
  | .link => .error .symlink

inductive Call where
  | sysOpen (path : List Byte) (flags : Nat)
  | sysCreat (path : List Byte)
  | sysMkdir (path : List Byte)
  | sysRead (fd : Int) (buf : Buffer) (count : Nat)
  | sysWrite (fd : Int) (buf : Buffer) (count : Nat)
  | sysGetdent (fd : Int) (dent : Dirent)
  | sysClose (fd : Int)

section
variable (A : Allocator σ) (heap : Heap) (out : Outside) (s : State σ) (process : Nat)

def lookup (fs : FileSystems σ) (path : List Byte) : Except Fault (Int × Inode FsInst × FileSystems σ) :=
  (fsLookup heap fs path out.stack out.inode).mapError .lookup

def creat (fs : FileSystems σ) (path : List Byte) : Except Fault (Int × FileSystems σ) :=
  (Lookup.sysCreat heap fs path out.stack out.inode).mapError .lookup

def resolve (path : List Byte) (flags : Nat) : Except Fault (Int × Inode FsInst × FileSystems σ) := do
  let (err, inode, fs) ← lookup heap out s.fs path
  if err < 0 then
    if err = -ENOENT ∧ flags &&& oCreat ≠ 0 then
      let (err, fs) ← creat heap out fs path
      if err < 0 then return (err, inode, fs) else lookup heap out fs path
    else return (err, inode, fs)
  else return (err, inode, fs)

def sysOpen (path : List Byte) (flags : Nat) : Except Fault (Int × State σ) := do
  let (err, inode, fs) ← resolve heap out s path flags
  let s := { s with fs := fs }
  if err < 0 then return (err, s)
  else
    match (finRange 16).find? fun i => (s.fds process i).isNone with
    | none => return (-EMFILE, s)
    | some i =>
      let (err, f) ← fsOpen out inode ⟨0, 0, out.inode, 0⟩ flags
      if err < 0 then return (err, s) else return (i, s.setFd process i (some f))

def sysRead (fd : Int) (buf : Buffer) (count : Nat) : Except Fault (Int × State σ) :=
  match s.openFd process fd with
  | none => .ok (-EBADF, s)
  | some (i, f) =>
    match f.fops with
    | .device => .ok (out.answer, s)
    | .regOps .devfs => .ok (-EPERM, s)
    | .regOps .tarfs => do
        let (ret, tar, file, _) ← (Tar.tread s.fs.tar f.file buf count).mapError .tarfs
        return (ret, { s with fs := { s.fs with tar := tar } }.setFd process i (some { f with file := file }))
    | .regOps .tmpfs => do
        let (ret, file, _) ← (Tmpfs.tmpRead f.file buf count s.fs.tmp).mapError .tmpRead
        return (ret, s.setFd process i (some { f with file := file }))

def sysWrite (fd : Int) (buf : Buffer) (count : Nat) : Except Fault (Int × State σ) :=
  match s.openFd process fd with
  | none => .ok (-EBADF, s)
  | some (i, f) =>
    match f.fops with
    | .device => .ok (out.answer, s)
    | .regOps .devfs | .regOps .tarfs => .ok (-EPERM, s)
    | .regOps .tmpfs => do
        let (ret, file, tmp) ← (Tmpfs.tmpWrite A f.file buf count s.fs.tmp).mapError .tmpWrite
        return (ret, { s with fs := { s.fs with tmp := tmp } }.setFd process i (some { f with file := file }))

def sysGetdent (fd : Int) (dent : Dirent) : Except Fault (Int × State σ) :=
  match s.openFd process fd with
  | none => .ok (-EBADF, s)
  | some (i, f) =>
    if f.file.inode.ftype ≠ .dir then .ok (-ENOTDIR, s)
    else
      match f.fops with
      | .device => .ok (-EPERM, s)
      | .regOps .devfs => .ok (0, s.setFd process i (some { f with file := (devGetdent f.file dent).1 }))
      | .regOps .tarfs => do
          let (ret, tar, file, _) ← (Tar.getdent headerCount s.fs.tar f.file dent out.stack out.stack).mapError .tarfs
          return (ret, { s with fs := { s.fs with tar := tar } }.setFd process i (some { f with file := file }))
      | .regOps .tmpfs => do
          let (ret, file, _) ← (tmpGetdent s.fs.tmp f.file dent out.behind).mapError .tmpGetdent
          return (ret, s.setFd process i (some { f with file := file }))

def sysClose (fd : Int) : Int × State σ :=
  match s.openFd process fd with
  | none => (-EBADF, s)
  | some (i, _) => (0, s.setFd process i none)

def next : Call → Except Fault (Int × State σ)
  | .sysOpen path flags => sysOpen heap out s process path flags
  | .sysCreat path => do
      let (ret, fs) ← creat heap out s.fs path
      return (ret, { s with fs := fs })
  | .sysMkdir path => do
      let (ret, fs) ← (Lookup.sysMkdir heap s.fs path out.stack out.inode).mapError .lookup
      return (ret, { s with fs := fs })
  | .sysRead fd buf count => sysRead out s process fd buf count
  | .sysWrite fd buf count => sysWrite A out s process fd buf count
  | .sysGetdent fd dent => sysGetdent out s process fd dent
  | .sysClose fd => .ok (sysClose s process fd)

end

structure Action where
  process : Nat
  call : Call
  out : Outside

def openFiles (A : Allocator σ) (heap : Heap) : System (State σ) Action where
  initial s := (∃ junk, kmainMounts junk = .ok s.fs.mounts) ∧ s.fs.tmp.privateData = none ∧ s.fs.tmp.allocations = 0 ∧
    (∀ addr, s.fs.tmp.nodes addr = none) ∧ ∀ process i, s.fds process i = none
  step s a s' := ∃ ret, next A heap a.out s a.process a.call = .ok (ret, s')

end Petix.Kernel.OpenFiles
