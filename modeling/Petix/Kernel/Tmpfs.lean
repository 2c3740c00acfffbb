import Petix.Kernel.Container
import Petix.Kernel.Paging
import Petix.Kernel.Vfs

/-!
# Files in memory (`kernel/fs/tmpfs.c`)

A node is known by its address, which is also its `inode_id`. Its allocations are never freed: `kmalloc_sync` puts
the next one where nothing lies yet. The lock of the instance makes each operation one step.
-/

namespace Petix.Kernel.Tmpfs
open Function Library Kernel.Vfs Kernel.Container
open Kernel.Paging (Allocator Frame)

inductive Fault where
  | notDir
  | notRegular
  | pastList
  | outOfPages
  | badNode
  | endless
  | inMap (fault : Container.Fault)
  deriving DecidableEq

def pageSize : Nat := 4096

structure Heap where
  address : Nat → Nat
  fresh : Injective address
  nonzero : ∀ k, address k ≠ 0

abbrev Children := Hashmap (HashmapEntry Str Nat)

inductive Contents where
  | children (map : Children)
  | pages (list : ItemList Frame)

structure TmpNode (φ : Type) where
  inode : Inode φ
  contents : Contents

abbrev PageMemory := Frame → Nat → Byte

structure Tmpfs (σ φ : Type) where
  privateData : Option Nat
  nodes : Nat → Option (TmpNode φ)
  allocations : Nat
  raw : Nat → Inode φ
  frames : σ
  mem : PageMemory

variable {σ φ : Type}

def Tmpfs.node (s : Tmpfs σ φ) (addr : Nat) : Except Fault (TmpNode φ) :=
  match s.nodes addr with
  | some node => .ok node
  | none => .error .badNode

def Tmpfs.setNode (s : Tmpfs σ φ) (addr : Nat) (node : TmpNode φ) : Tmpfs σ φ :=
  { s with nodes := update s.nodes addr (some node) }

def TmpNode.children (node : TmpNode φ) : Except Fault Children :=
  match node.contents with
  | .children map => .ok map
  | .pages _ => .error .badNode

def TmpNode.pages (node : TmpNode φ) : Except Fault (ItemList Frame) :=
  match node.contents with
  | .pages list => .ok list
  | .children _ => .error .badNode

theorem node_some {s : Tmpfs σ φ} {addr : Nat} {node : TmpNode φ} (here : s.nodes addr = some node) :
    s.node addr = .ok node := by
  rw [Tmpfs.node, here]

theorem pages_mk (inode : Inode φ) (list : ItemList Frame) : TmpNode.pages ⟨inode, .pages list⟩ = .ok list := rfl

theorem children_mk (inode : Inode φ) (map : Children) : TmpNode.children ⟨inode, .children map⟩ = .ok map := rfl

def childrenInit : Children := hashmapInit stringKeyHash stringKeyCmp true

def newNode (heap : Heap) (ftype : FileType) (size : Option Nat) (fs : φ) (contents : Contents) (s : Tmpfs σ φ) :
    Nat × Tmpfs σ φ :=
  let addr := heap.address s.allocations
  let raw := s.raw addr
  let inode := { raw with exec := false, ftype := ftype, inodeId := addr, fs := fs, size := size.getD raw.size }
  (addr, { s.setNode addr ⟨inode, contents⟩ with allocations := s.allocations + 1 })

def tmpGetroot (heap : Heap) (self : φ) (s : Tmpfs σ φ) : Except Fault (Inode φ × Tmpfs σ φ) := do
  let (root, s) := match s.privateData with
    | some root => (root, s)
    | none =>
      let (addr, s) := newNode heap .dir none self (.children childrenInit) s
      (addr, { s with privateData := some addr })
  let node ← s.node root
  return (node.inode, s)

def getChild (map : Children) (name : Str) : Except Fault Nat := (hashmapGet 0 map name).mapError .inMap

def tmpLookup (s : Tmpfs σ φ) (dir : Inode φ) (fname : Str) (out : Inode φ) : Except Fault (Int × Inode φ) :=
  if dir.ftype ≠ .dir then .error .notDir
  else do
    let parent ← s.node dir.inodeId
    let addr ← getChild (← parent.children) fname
    if addr = 0 then return (-ENOENT, out)
    else
      let node ← s.node addr
      return (0, node.inode)

def addChild (heap : Heap) (ftype : FileType) (size : Option Nat) (contents : Contents) (s : Tmpfs σ φ)
    (dir : Inode φ) (name : Str) : Except Fault (Int × Tmpfs σ φ) :=
  if dir.ftype ≠ .dir then .ok (-ENOTDIR, s)
  else do
    let parent ← s.node dir.inodeId
    let (addr, s) := newNode heap ftype size parent.inode.fs contents s
    let map ← parent.children
    if (← getChild map name) ≠ 0 then return (-EEXIST, s)
    else
      let map ← (hashmapInsert map (s.allocations + 1) name addr).mapError .inMap
      let s := s.setNode dir.inodeId { parent with contents := .children map }
      return (0, { s with allocations := s.allocations + 2 })

def tmpCreat (heap : Heap) : Tmpfs σ φ → Inode φ → Str → Except Fault (Int × Tmpfs σ φ) :=
  addChild heap .regular (some 0) (.pages listInit)

def tmpMkdir (heap : Heap) : Tmpfs σ φ → Inode φ → Str → Except Fault (Int × Tmpfs σ φ) :=
  addChild heap .dir none (.children childrenInit)

def tmpOpen (inode : Inode φ) (file : File φ) : File φ :=
  { file with size := inode.size, privateData := inode.inodeId }

abbrev Buffer := Nat → Byte

def memcpy (dst : Buffer) (i : Nat) (src : Buffer) (j count : Nat) : Buffer :=
  fun k => if i ≤ k ∧ k < i + count then src (j + (k - i)) else dst k

def pageCount : Nat := 2 ^ 20

def readLoop (pages : ItemList Frame) (mem : PageMemory) (stop : Int) :
    (fuel off pos : Nat) → Buffer → Except Fault Buffer
  | 0, _, _, _ => .error .endless
  | fuel + 1, off, pos, buf =>
    if off < stop then
      let page := off / pageSize
      let poff := off % pageSize
      let delta := pageSize - poff
      match listAt pages page with
      | none => .error .pastList
      | some data =>
        readLoop pages mem stop fuel ((off + delta) % 2 ^ 32) (pos + delta) (memcpy buf pos (mem data) poff delta)
    else .ok buf

def tmpRead (f : File φ) (buf : Buffer) (n : Nat) (s : Tmpfs σ φ) : Except Fault (Int × File φ × Buffer) :=
  if f.inode.ftype ≠ .regular then .error .notRegular
  else do
    let len := clamp (f.size - f.offset) n
    let node ← s.node f.inode.inodeId
    let pages ← node.pages
    let buf ← readLoop pages s.mem (f.offset + len) (pageCount + 2) (f.offset % 2 ^ 32).toNat 0 buf
    return (signed32 len, { f with offset := f.offset + len }, buf)

def ceilPages (x : Int) : Nat := ((x + pageSize - 1).tdiv pageSize % 2 ^ 32).toNat

def growPages (A : Allocator σ) : (count : Nat) → ItemList Frame → σ → Except Fault (ItemList Frame × σ)
  | 0, pages, frames => .ok (pages, frames)
  | count + 1, pages, frames => match A.allocPage frames with
      | none => .error .outOfPages
      | some (page, frames) => growPages A count (listAppend pages page) frames

def writeLoop (pages : ItemList Frame) (buf : Buffer) (stop : Int) :
    (fuel off pos : Nat) → PageMemory → Except Fault PageMemory
  | 0, _, _, _ => .error .endless
  | fuel + 1, off, pos, mem =>
    if off < stop then
      let page := off / pageSize
      let poff := off % pageSize
      let delta := clamp (stop - poff) (pageSize - poff)
      match listAt pages page with
      | none => .error .pastList
      | some data =>
        let mem := update mem data (memcpy (mem data) poff buf pos (pageSize - poff))
        writeLoop pages buf stop fuel ((off + delta) % 2 ^ 32) (pos + delta) mem
    else .ok mem

def tmpWrite (A : Allocator σ) (f : File φ) (buf : Buffer) (n : Nat) (s : Tmpfs σ φ) :
    Except Fault (Int × File φ × Tmpfs σ φ) :=
  if f.inode.ftype ≠ .regular then .error .notRegular
  else do
    let node ← s.node f.inode.inodeId
    let pages ← node.pages
    let currPages := ceilPages f.size
    let neededPages := ceilPages (f.offset + n)
    let (pages, frames) ← growPages A (sub32 neededPages currPages) pages s.frames
    let size := max f.size (f.offset + n)
    let inode := { node.inode with size := (size % 2 ^ 32).toNat }
    let mem ← writeLoop pages buf (f.offset + n) (pageCount + 2) (f.offset % 2 ^ 32).toNat 0 s.mem
    let s := { s.setNode f.inode.inodeId ⟨inode, .pages pages⟩ with frames := frames, mem := mem }
    return (signed32 n, { f with size := size, offset := f.offset + n }, s)

end Petix.Kernel.Tmpfs
