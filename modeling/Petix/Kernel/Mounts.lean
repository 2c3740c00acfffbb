import Petix.Library.ByteMemory

/-!
# Mount points (`kernel/fs.c`, `libc/string`)

A path is the bytes of a C string without its terminator. `fs_getfs` and `fs_mount` work on a copy of it in the
buffer `path`; a read behind the end of the buffer is a fault.
-/

namespace Petix.Kernel.Mounts
open Library

def pathMax : Nat := 4096

def fileNameLen : Nat := 256

inductive Fault where
  | pastBuffer
  | freedNode
  | endless
  deriving DecidableEq

def slash : Byte := 0x2f

abbrev Buffer := Nat → Byte

def strncpy (src : List Byte) (n : Nat) : Buffer := fun i => (src.take n).getD i 0

def cstr (buf : Buffer) : (left : Nat) → (i : Nat) → List Byte
  | 0, _ => []
  | left + 1, i => if buf i = 0 then [] else buf i :: cstr buf left (i + 1)

def strncmp : (s1 s2 : List Byte) → (n : Nat) → Int
  | _, _, 0 => 0
  | [], [], _ + 1 => 0
  | [], b :: _, _ + 1 => -b.toNat
  | a :: _, [], _ + 1 => a.toNat
  | a :: s1, b :: s2, n + 1 => if a = b then strncmp s1 s2 n else a.toNat - b.toNat

def skipWhile (more : Byte → Bool) (buf : Buffer) : (left : Nat) → (str : Nat) → Except Fault Nat
  | 0, _ => .error .pastBuffer
  | left + 1, str => if more (buf str) then skipWhile more buf left (str + 1) else .ok str

def skipDelim : Buffer → Nat → Nat → Except Fault Nat := skipWhile fun c => c != 0 && c == slash

def skipToken : Buffer → Nat → Nat → Except Fault Nat := skipWhile fun c => c != 0 && c != slash

def strtokR (buf : Buffer) (str : Nat) : Except Fault (Option (Nat × Nat × Buffer)) := do
  let ret ← skipDelim buf (pathMax - str) str
  if buf ret = 0 then return none
  else
    let str ← skipToken buf (pathMax - ret) ret
    if buf str = 0 then return some (ret, str, buf)
    else return some (ret, str + 1, Function.update buf str 0)

inductive MountTree (φ : Type) where
  | null
  | node (name : List Byte) (mountpoint : Bool) (fs : φ) (freed : Bool) (child sibling : MountTree φ)

structure MountNode (φ : Type) where
  mountpoint : Bool
  fs : φ
  child : MountTree φ

variable {φ : Type}

def findChild (i : List Byte) : MountTree φ → Except Fault (Option (MountNode φ))
  | .null => .ok none
  | .node name mountpoint fs freed child sibling =>
    if freed then .error .freedNode
    else if strncmp name i fileNameLen = 0 then .ok (some ⟨mountpoint, fs, child⟩)
    else findChild i sibling

def getfsLoop : (fuel : Nat) → Buffer → (str : Nat) → MountTree φ → (found : Option (φ × Nat)) →
    Except Fault (Option (φ × Nat))
  | 0, _, _, _, _ => .error .endless
  | fuel + 1, buf, str, child, found => do
      match ← strtokR buf str with
      | none => return found
      | some (i, save, buf) => match ← findChild (cstr buf (pathMax - i) i) child with
          | none => return found
          | some node =>
            getfsLoop fuel buf save node.child (if node.mountpoint then some (node.fs, save) else found)

def fsGetfs (root : MountNode φ) (p : List Byte) : Except Fault (Option (φ × Nat)) :=
  getfsLoop (pathMax + 1) (strncpy p pathMax) 0 root.child (if root.mountpoint then some (root.fs, 0) else none)

def unmountChild : MountTree φ → Except Fault (MountTree φ)
  | .null => .ok .null
  | .node name mountpoint fs freed child sibling =>
    if freed then .error .freedNode
    else do
      let child ← unmountChild child
      let sibling ← unmountChild sibling
      return .node name mountpoint fs true child sibling

def mountBelow (i : List Byte) (go : MountNode φ → Except Fault (MountNode φ)) :
    MountTree φ → Except Fault (Option (MountTree φ))
  | .null => .ok none
  | .node name mountpoint fs freed child sibling =>
    if freed then .error .freedNode
    else do
      match ← mountBelow i go sibling with
      | some sibling => return some (.node name mountpoint fs freed child sibling)
      | none =>
        if strncmp name i fileNameLen = 0 then
          let node ← go ⟨mountpoint, fs, child⟩
          return some (.node name node.mountpoint node.fs freed node.child sibling)
        else return none

def mountLoop (junk fs : φ) : (fuel : Nat) → Buffer → (str : Nat) → MountNode φ → Except Fault (MountNode φ)
  | 0, _, _, _ => .error .endless
  | fuel + 1, buf, str, node => do
      match ← strtokR buf str with
      | none =>
        let child ← unmountChild node.child
        return ⟨true, fs, child⟩
      | some (i, save, buf) =>
        let name := cstr buf (pathMax - i) i
        match ← mountBelow name (mountLoop junk fs fuel buf save) node.child with
        | some child => return { node with child := child }
        | none =>
          let new ← mountLoop junk fs fuel buf save ⟨false, junk, .null⟩
          return { node with
            child := .node (name.take fileNameLen) new.mountpoint new.fs false new.child node.child }

def fsMount (junk fs : φ) (root : MountNode φ) (targ : List Byte) : Except Fault (MountNode φ) :=
  mountLoop junk fs (pathMax + 1) (strncpy targ pathMax) 0 root

end Petix.Kernel.Mounts
