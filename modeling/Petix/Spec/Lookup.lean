import Petix.Kernel.Lookup
import Petix.Library.PathTree
import Petix.Spec.Mounts
import Petix.Spec.Tar
import Petix.Spec.Tmpfs

namespace Petix.Spec.Lookup
open Library Kernel.Vfs Kernel.Lookup Spec.Mounts
open Kernel.Mounts hiding Fault
open Kernel (Mounts.Fault)
open Kernel.Container (Str)
open Kernel.Tmpfs (Heap Tmpfs getChild)
open Kernel.Tar (Initrd TarFs)
open Spec.Tar (Entry Laid Opened firstNamed place)
open Spec.Tmpfs (Unused)

variable {σ : Type}

def upToLast (p : List Byte) : List Byte := (p.reverse.dropWhile (· != slash)).reverse

def seen (p : List Byte) : List Name :=
  if p.length < pathMax then components p else components (upToLast (p.take pathMax))

def mountOf (name : Name) : Option FsInst :=
  if name = tmp then some .tmpfs else if name = dev then some .devfs else none

def route (p : List Byte) : Except Mounts.Fault (FsInst × List Byte) :=
  match seen p with
  | [] => if p.length < pathMax then .ok (.tarfs, p) else .error .pastBuffer
  | name :: more => match mountOf name with
      | none => .ok (.tarfs, p)
      | some inst => if more = [] ∧ pathMax ≤ p.length then .error .pastBuffer else .ok (inst, behind p)

abbrev Tree := List Name → Option (Nat × FileType)

def Tree.bare (root : Nat) : Tree := fun path => if path = [] then some (root, .dir) else none

def isDir (entry : Nat × FileType) : Bool := entry.2 = .dir

structure Stores (s : Tmpfs σ FsInst) (tree : Tree) : Prop where
  root : ∃ root, s.privateData = some root ∧ tree [] = some (root, .dir)
  node : ∀ path id ftype, tree path = some (id, ftype) → id ≠ 0 ∧ ∃ node, s.nodes id = some node ∧
    node.inode.inodeId = id ∧ node.inode.ftype = ftype ∧ node.inode.fs = .tmpfs
  child : ∀ path id, tree path = some (id, .dir) → ∃ inode map, s.nodes id = some ⟨inode, .children map⟩ ∧
    ∀ name : Str, getChild map name = .ok (((tree (path ++ [name.chars])).map Prod.fst).getD 0)
  closed : PathTree.Closed isDir tree

def Represents (heap : Heap) (s : Tmpfs σ FsInst) (tree : Tree) : Prop :=
  Unused s ∧ tree = Tree.bare (heap.address 0) ∨ Stores s tree

structure Running (heap : Heap) (image : Initrd) (entries : List Entry) (tree : Tree) (fs : FileSystems σ) : Prop where
  mounts : ∃ junk, kmainMounts junk = .ok fs.mounts
  laid : Laid image 0 entries
  small : image.size < 2 ^ 31
  opened : Opened image fs.tar
  represents : Represents heap fs.tmp tree

def answer (heap : Heap) (fs : FileSystems σ) (p : List Byte) (stack : Buffer) (inode : Inode FsInst) :
    Except Fault (Int × Inode FsInst) :=
  (fsLookup heap fs p stack inode).map fun found => (found.1, found.2.1)

def Returns (result : Except Fault (Int × Inode FsInst)) : Prop :=
  ∃ ret inode, result = .ok (ret, inode) ∧ (ret = 0 ∨ ret < 0)

def Tree.Safe (tree : Tree) (p2 : List Byte) : Prop :=
  ¬PathTree.Blocked isDir tree [] (seen p2) ∧ (p2.length < pathMax ∨ tree (seen p2) = none)

def SafePath (tree : Tree) (p : List Byte) : Prop :=
  match seen p with
  | [] => p.length < pathMax
  | name :: more => match mountOf name with
      | none => True
      | some inst => (more = [] → p.length < pathMax) ∧ (inst = .tmpfs → tree.Safe (behind p))

def stripped (p : List Byte) : List Byte := p.dropWhile (· == slash)

def devices : List (List Byte) := [vgatty, comtty, fb, fbtty]

def Alike (entries : List Entry) (p q : List Byte) : Prop :=
  match components p with
  | [] => True
  | name :: _ => match mountOf name with
      | some .tmpfs => True
      | some .devfs => stripped (behind p) = stripped (behind q) ∨
          stripped (behind p) ∉ devices ∧ stripped (behind q) ∉ devices
      | _ => firstNamed (stripped p) (place 0 entries) = firstNamed (stripped q) (place 0 entries)

def Tree.outcome (tree : Tree) (path : List Name) : Int :=
  match tree path.dropLast with
  | none => -ENOENT
  | some (_, ftype) => if ftype ≠ .dir then -ENOTDIR else if tree path ≠ none then -EEXIST else 0

def resolves (heap : Heap) (fs : FileSystems σ) (p : List Byte) (stack : Buffer) (inode : Inode FsInst) :
    Option (Nat × FileType) :=
  match fsLookup heap fs p stack inode with
  | .ok (ret, inode, _) => if ret = 0 then some (inode.inodeId, inode.ftype) else none
  | .error _ => none

structure UnderTmp (p : CString) (path : List Name) : Prop where
  components : components p.bytes = tmp :: path
  short : p.bytes.length < pathMax

inductive MakeKind where
  | creat
  | mkdir

def MakeKind.ftype : MakeKind → FileType
  | .creat => .regular
  | .mkdir => .dir

def MakeKind.run (heap : Heap) : MakeKind → FileSystems σ → List Byte → Buffer → Inode FsInst →
    Except Fault (Int × FileSystems σ)
  | .creat => sysCreat heap
  | .mkdir => sysMkdir heap

structure Makes (tree : Tree) (p : CString) (path : List Name) : Prop where
  under : UnderTmp p path
  named : path ≠ [] ∧ p.bytes.getLast? ≠ some slash
  clear : ∀ q, q <+: path.dropLast → q ≠ path.dropLast → ∀ id, tree q ≠ some (id, .regular)

structure History (σ : Type) where
  fs : FileSystems σ
  tree : Tree

inductive TreeCall where
  | makes (kind : MakeKind) (p : CString) (stack : Buffer) (inode : Inode FsInst)
  | looks (p : CString) (stack : Buffer) (inode : Inode FsInst)

inductive TreeStep (heap : Heap) : History σ → TreeCall → History σ → Prop
  | makes {s kind p path stack inode rc fs'} (allowed : Makes s.tree p path)
      (run : MakeKind.run heap kind s.fs p.bytes stack inode = .ok (rc, fs')) :
      TreeStep heap s (.makes kind p stack inode)
        ⟨fs', if rc = 0 then Function.update s.tree path (resolves heap fs' p.bytes stack inode) else s.tree⟩
  | looks {s p stack inode ret inode' fs'} (run : fsLookup heap s.fs p.bytes stack inode = .ok (ret, inode', fs')) :
      TreeStep heap s (.looks p stack inode) { s with fs := fs' }

structure Booted (fs : FileSystems σ) : Prop where
  mounts : ∃ junk, kmainMounts junk = .ok fs.mounts
  unused : Unused fs.tmp

def treeCalls (heap : Heap) : System (History σ) TreeCall where
  initial s := Booted s.fs ∧ s.tree = Tree.bare (heap.address 0)
  step := TreeStep heap

end Petix.Spec.Lookup
