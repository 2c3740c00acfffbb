import Petix.Kernel.Tar
import Petix.Kernel.Tmpfs

/-!
# Path lookup (`kernel/fs.c`, `kernel/fs/devfs.c`, `kernel/syscall.c`)

The file systems that `kmain` mounts are known by their `iops`. A call runs under `mount_lock`. `stack` is what the
buffer of a header holds at first, `inode` what is in `*inode`.
-/

namespace Petix.Kernel.Lookup
open Library Kernel.Mounts Kernel.Vfs
open Kernel.Container (Str strcmp)
open Kernel.Tar (TarFs)
open Kernel.Tmpfs (Heap Tmpfs tmpGetroot tmpLookup tmpCreat tmpMkdir)

inductive FsInst where
  | tarfs
  | devfs
  | tmpfs
  deriving DecidableEq

inductive Fault where
  | inMounts (fault : Mounts.Fault)
  | inTar (fault : Tar.Fault)
  | inTmp (fault : Tmpfs.Fault)
  | beforePath
  deriving DecidableEq

structure FileSystems (σ : Type) where
  mounts : MountNode FsInst
  tar : TarFs
  tmp : Tmpfs σ FsInst

def devVgatty : Nat := 1

def devComtty : Nat := 3

def devFb : Nat := 4

def devFbtty : Nat := 5

def vgatty : List Byte := [0x76, 0x67, 0x61, 0x74, 0x74, 0x79]

def comtty : List Byte := [0x63, 0x6f, 0x6d, 0x74, 0x74, 0x79]

def fb : List Byte := [0x66, 0x62]

def fbtty : List Byte := [0x66, 0x62, 0x74, 0x74, 0x79]

def devGetroot (inode : Inode FsInst) : Inode FsInst :=
  { inode with fs := .devfs, exec := false, ftype := .dir, inodeId := 0 }

def devLookupAll (path : List Byte) (inode : Inode FsInst) : Int × Inode FsInst :=
  let inode := { inode with exec := false, ftype := .special, fs := .devfs, inodeId := 1 }
  if strcmp path vgatty = 0 then (0, { inode with dev := mkdev devVgatty 0 })
  else if strcmp path comtty = 0 then (0, { inode with dev := mkdev devComtty 0 })
  else if strcmp path fb = 0 then (0, { inode with dev := mkdev devFb 0 })
  else if strcmp path fbtty = 0 then (0, { inode with dev := mkdev devFbtty 0 })
  else (-ENOENT, inode)

variable {σ : Type}

def headerCount : Nat := 2 ^ 23

def lookupLoop (tmp : Tmpfs σ FsInst) : (fuel : Nat) → Buffer → (str : Nat) → Inode FsInst →
    Except Fault (Int × Inode FsInst)
  | 0, _, _, _ => .error (.inMounts .endless)
  | fuel + 1, buf, str, inode => do
      match ← (strtokR buf str).mapError .inMounts with
      | none => return (0, inode)
      | some (i, save, buf) =>
        let (ret, inode) ← (tmpLookup tmp inode (Str.ofBytes (cstr buf (pathMax - i) i)) inode).mapError .inTmp
        if ret < 0 then return (ret, inode)
        else lookupLoop tmp fuel buf save inode

def lookupEach (heap : Heap) (fs : FileSystems σ) (p2 : List Byte) :
    Except Fault (Int × Inode FsInst × FileSystems σ) := do
  let (root, tmp) ← (tmpGetroot heap .tmpfs fs.tmp).mapError .inTmp
  let (ret, inode) ← lookupLoop tmp (pathMax + 1) (strncpy p2 pathMax) 0 root
  return (ret, inode, { fs with tmp := tmp })

def lookupWhole (fs : FileSystems σ) (getroot : Inode FsInst → Inode FsInst)
    (lookupAll : List Byte → Inode FsInst → Except Fault (Int × Inode FsInst × FileSystems σ)) (p2 : List Byte)
    (inode : Inode FsInst) : Except Fault (Int × Inode FsInst × FileSystems σ) :=
  let p2 := p2.dropWhile (· == slash)
  if p2 = [] then .ok (0, getroot inode, fs) else lookupAll p2 inode

def tarLookupAll (fs : FileSystems σ) (stack : Buffer) (path : List Byte) (inode : Inode FsInst) :
    Except Fault (Int × Inode FsInst × FileSystems σ) := do
  let (ret, inode, tar) ← (Tar.lookupAll headerCount .tarfs fs.tar path stack inode).mapError .inTar
  return (ret, inode, { fs with tar := tar })

def fsLookup (heap : Heap) (fs : FileSystems σ) (p : List Byte) (stack : Buffer) (inode : Inode FsInst) :
    Except Fault (Int × Inode FsInst × FileSystems σ) := do
  match ← (fsGetfs fs.mounts p).mapError .inMounts with
  | none => return (-ENOENT, inode, fs)
  | some (.tarfs, off) => lookupWhole fs (Tar.getroot .tarfs) (tarLookupAll fs stack) (p.drop off) inode
  | some (.devfs, off) =>
    lookupWhole fs devGetroot (fun path inode => .ok ((devLookupAll path inode).1, (devLookupAll path inode).2, fs))
      (p.drop off) inode
  | some (.tmpfs, off) => lookupEach heap fs (p.drop off)

def dev : List Byte := [0x64, 0x65, 0x76]

def tmp : List Byte := [0x74, 0x6d, 0x70]

def kmainMounts (junk : FsInst) : Except Mounts.Fault (MountNode FsInst) := do
  let root ← fsMount junk .tarfs ⟨false, junk, .null⟩ [slash]
  let root ← fsMount junk .devfs root (slash :: dev)
  fsMount junk .tmpfs root (slash :: tmp)

def splitLoop : (path : List Byte) → (i : Nat) → (found : Option Nat) → Option Nat
  | [], _, found => found
  | c :: path, i, found => splitLoop path (i + 1) (if c = slash then some i else found)

def splitDirPath (path : List Byte) : Except Fault (List Byte × List Byte) :=
  match splitLoop path 0 none with
  | none => .error .beforePath
  | some i => .ok (path.take i, path.drop (i + 1))

def sysMake (make : Tmpfs σ FsInst → Inode FsInst → Str → Except Tmpfs.Fault (Int × Tmpfs σ FsInst)) (heap : Heap)
    (fs : FileSystems σ) (path : List Byte) (stack : Buffer) (inode : Inode FsInst) :
    Except Fault (Int × FileSystems σ) := do
  let (dir, name) ← splitDirPath path
  let (rc, inode, fs) ← fsLookup heap fs dir stack inode
  if rc < 0 then return (rc, fs)
  else if inode.ftype ≠ .dir then return (-ENOTDIR, fs)
  else
    match inode.fs with
    | .tarfs | .devfs => return (-EPERM, fs)
    | .tmpfs =>
      let (rc, tmp) ← (make fs.tmp inode (Str.ofBytes name)).mapError .inTmp
      return (rc, { fs with tmp := tmp })

def sysCreat (heap : Heap) : FileSystems σ → List Byte → Buffer → Inode FsInst → Except Fault (Int × FileSystems σ) :=
  sysMake (tmpCreat heap) heap

def sysMkdir (heap : Heap) : FileSystems σ → List Byte → Buffer → Inode FsInst → Except Fault (Int × FileSystems σ) :=
  sysMake (tmpMkdir heap) heap

end Petix.Kernel.Lookup
