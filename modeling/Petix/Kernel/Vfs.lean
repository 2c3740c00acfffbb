import Petix.Library.ByteMemory
import Petix.Library.Word

/-!
# Inodes and open files (`kernel/fs.h`, `kernel/fs.c`)

`φ` stands for the pointer to a `struct fs_inst`. An `off_t` has 64 bits and is taken to be a number.
-/

namespace Petix.Kernel.Vfs
open Library

def EPERM : Int := 1

def ENOENT : Int := 2

def EEXIST : Int := 17

def ENOTDIR : Int := 20

def EISDIR : Int := 21

def EINVAL : Int := 22

def oDirectory : Nat := 1

inductive FileType where
  | dir
  | link
  | special
  | regular
  deriving DecidableEq

structure Inode (φ : Type) where
  exec : Bool
  ftype : FileType
  size : Nat
  inodeId : Nat
  dev : Nat
  fs : φ
  deriving DecidableEq

structure File (φ : Type) where
  offset : Int
  size : Int
  inode : Inode φ
  privateData : Int
  deriving DecidableEq

structure Dirent where
  inodeId : Nat
  present : Bool
  type : FileType
  name : Nat → Byte

variable {φ : Type}

def mkdev (ma mi : Nat) : Nat := (ma <<< 16) % 2 ^ 32 ||| mi

def major (dev : Nat) : Nat := (dev >>> 16) &&& 0xffff

def minor (dev : Nat) : Nat := dev &&& 0xffff

/-- `MIN(size - offset, n)` as a `size_t`: a negative difference is smaller than every `n`. -/
def clamp (left : Int) (n : Nat) : Nat := ((if left < n then left else n) % 2 ^ 32).toNat

theorem clamp_eq {left n : Nat} (word : n < 2 ^ 32) : clamp left n = min left n := by
  rw [clamp]
  split <;> omega

def fsOpen (fopen : Inode φ → File φ → File φ) (inode : Inode φ) (f : File φ) (flags : Nat) : Int × File φ :=
  match inode.ftype with
  | .regular =>
    if flags &&& oDirectory ≠ 0 then (-ENOTDIR, f) else (0, fopen inode { f with inode := inode, offset := 0 })
  | .dir =>
    if flags &&& oDirectory = 0 then (-EISDIR, f) else (0, fopen inode { f with inode := inode, offset := 0 })
  | .special | .link => (-EINVAL, f)

end Petix.Kernel.Vfs
