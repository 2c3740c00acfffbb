import Petix.Proof.Container.Inserts
import Petix.Spec.Tmpfs

namespace Petix.Proof.Tmpfs
open Function Library Library.Result Kernel.Vfs Kernel.Tmpfs Spec.Tmpfs
open Kernel.Container hiding Fault
open Proof.Container

variable {σ φ : Type} {heap : Heap} {s : Tmpfs σ φ} {addr : Nat} {dir inode : Inode φ} {map : Children}
  {names : Str → Option (HashmapEntry Str Nat)} {name : Str} {ftype : FileType} {size : Option Nat}
  {contents : Contents}
variable {node : TmpNode φ}

abbrev Lists (map : Children) (names : Str → Option (HashmapEntry Str Nat)) : Prop :=
  Sound HashmapEntry.key stringValueHash map names

theorem lists_childrenInit : Lists childrenInit fun _ => none := sound_init (keyed_init equalKeys_string 0)

theorem getChild_eq (lists : Lists map names) (name : Str) :
    getChild map name = .ok (((names name).map HashmapEntry.value).getD 0) := by
  rw [getChild, hashmapGet_eq lists]
  rfl

section
variable (directory : dir.ftype = .dir) (here : s.nodes dir.inodeId = some ⟨inode, .children map⟩)
include directory here

theorem tmpLookup_missing
    (missing : getChild map name = .ok 0) (out : Inode φ) : tmpLookup s dir name out = .ok (-ENOENT, out) := by
  rw [tmpLookup, if_neg (not_not.mpr directory), node_some here, ok_bind, children_mk, ok_bind, missing]
  rfl

theorem tmpLookup_found
    (found : getChild map name = .ok addr)
    (nonzero : addr ≠ 0) (there : s.nodes addr = some node) (out : Inode φ) :
    tmpLookup s dir name out = .ok (0, node.inode) := by
  rw [tmpLookup, if_neg (not_not.mpr directory), node_some here, ok_bind, children_mk, ok_bind, found,
    ok_bind, if_neg nonzero, node_some there]
  rfl

theorem addChild_exists
    (found : getChild map name = .ok addr) (nonzero : addr ≠ 0) :
    addChild heap ftype size contents s dir name = .ok (-EEXIST, (newNode heap ftype size inode.fs contents s).2) := by
  rw [addChild, if_neg (not_not.mpr directory), node_some here, ok_bind, children_mk]
  dsimp only
  rw [ok_bind, found, ok_bind, if_pos nonzero]
  rfl

theorem addChild_new
    (lists : Lists map names) (missing : names name = none) : ∃ map', addChild heap ftype size contents s dir name =
        .ok (0, { (newNode heap ftype size inode.fs contents s).2.setNode dir.inodeId ⟨inode, .children map'⟩ with
          allocations := s.allocations + 3 }) ∧
      Lists map' (update names name (some ⟨s.allocations + 2, name, heap.address s.allocations⟩)) := by
  obtain ⟨map', insert, lists', -⟩ := hashmapInsert_inserted lists ⟨s.allocations + 2, name, heap.address s.allocations⟩
  refine ⟨map', ?_, lists'⟩
  rw [addChild, if_neg (not_not.mpr directory), node_some here, ok_bind, children_mk]
  dsimp only
  rw [ok_bind, getChild_eq lists, missing, ok_bind, Option.map_none, Option.getD_none, if_neg (not_not.mpr rfl)]
  exact congrArg (fun run => Except.mapError Fault.inMap run >>= _) insert

end

theorem newNode_fresh (fresh : Fresh heap s) (ftype : FileType) (size : Option Nat) (fs : φ) (contents : Contents) :
    Fresh heap (newNode heap ftype size fs contents s).2 := by
  intro k later
  have other : heap.address k ≠ heap.address s.allocations := heap.fresh.ne (Nat.ne_of_gt later)
  exact (update_of_ne other ..).trans (fresh k (Nat.le_of_succ_le later))

theorem tmpGetroot_again {root : Nat} (made : s.privateData = some root)
    (here : s.nodes root = some node) (self : φ) : tmpGetroot heap self s = .ok (node.inode, s) := by
  rw [tmpGetroot, made]
  dsimp only
  rw [node_some here]
  rfl

theorem fresh_of_unused (unused : Unused s) (heap : Heap) : Fresh heap s := fun _ _ => unused.nodes _

theorem tmpGetroot_first (unused : Unused s) (heap : Heap) (self : φ) :
    ∃ root s', tmpGetroot heap self s = .ok (root, s') ∧ s'.privateData = some (heap.address 0) ∧
      s'.nodes = update s.nodes (heap.address 0) (some ⟨root, .children childrenInit⟩) ∧
      root.ftype = .dir ∧ root.inodeId = heap.address 0 ∧ root.fs = self ∧ s'.allocations = 1 ∧
      Fresh heap s' ∧ s'.frames = s.frames := by
  obtain ⟨_, _, _, raw, frames, mem⟩ := s
  have fresh := newNode_fresh (fresh_of_unused unused heap) .dir none self (.children childrenInit)
  obtain ⟨rfl, rfl, -⟩ := unused
  refine ⟨{ raw (heap.address 0) with exec := false, ftype := .dir, inodeId := heap.address 0, fs := self },
    ⟨some (heap.address 0), _, 1, raw, frames, mem⟩, ?_, rfl, rfl, rfl, rfl, rfl, rfl, fresh, rfl⟩
  rw [tmpGetroot]
  dsimp only
  rw [node_some (update_self ..)]
  rfl

theorem exists_created (unused : Unused s) (heap : Heap) (self : φ) (name : Str) :
    ∃ s' : Tmpfs σ φ, Created heap (heap.address 1) s' ∧ s'.frames = s.frames := by
  obtain ⟨root, s₁, -, -, nodes, directory, id, -, allocations, fresh, frames⟩ := tmpGetroot_first unused heap self
  have here : s₁.nodes root.inodeId = some ⟨root, .children childrenInit⟩ := by rw [nodes, id, update_self]
  obtain ⟨_, run, -⟩ := addChild_new directory here lists_childrenInit rfl
  exact ⟨_, ⟨s₁, root, name, fresh, congrArg heap.address allocations.symm, run⟩, frames⟩

theorem liveAllocations_newNode (heap : Heap) (ftype : FileType) (size : Option Nat) (fs : φ) (contents : Contents)
    (s : Tmpfs σ φ) : liveAllocations heap (newNode heap ftype size fs contents s).2 =
      insert (heap.address s.allocations) (liveAllocations heap s) := by
  ext addr
  constructor
  · rintro ⟨k, less, rfl⟩
    rcases Nat.lt_succ_iff_lt_or_eq.mp less with older | rfl
    · exact .inr ⟨k, older, rfl⟩
    · exact .inl rfl
  · rintro (rfl | ⟨k, less, rfl⟩)
    · exact ⟨_, Nat.lt_succ_self _, rfl⟩
    · exact ⟨k, Nat.lt_succ_of_lt less, rfl⟩

theorem not_refusesCleanly (directory : dir.ftype = .dir) (here : s.nodes dir.inodeId = some ⟨inode, .children map⟩)
    (found : getChild map name = .ok addr) (nonzero : addr ≠ 0) :
    ¬RefusesCleanly heap (addChild heap ftype size contents) s dir name := by
  rintro ⟨_, run, -, live⟩
  rw [addChild_exists directory here found nonzero] at run
  cases run
  rw [liveAllocations_newNode, Set.insert_eq_self] at live
  obtain ⟨_, older, same⟩ := live
  exact absurd (heap.fresh same) (Nat.ne_of_lt older)

theorem refused_node_leaks (directory : dir.ftype = .dir) (here : s.nodes dir.inodeId = some ⟨inode, .children map⟩)
    (found : getChild map name = .ok addr) :
    ((addr ≠ 0 → RefusesCleanly heap (tmpCreat heap) s dir name ∧ RefusesCleanly heap (tmpMkdir heap) s dir name) ↔
      addr = 0) ∧
    (addr ≠ 0 → ∃ s₁ s₂, tmpCreat heap s dir name = .ok (-EEXIST, s₁) ∧ tmpMkdir heap s dir name = .ok (-EEXIST, s₂) ∧
      liveAllocations heap s₁ = insert (heap.address s.allocations) (liveAllocations heap s) ∧
      liveAllocations heap s₂ = insert (heap.address s.allocations) (liveAllocations heap s)) := by
  refine ⟨⟨fun clean => ?_, fun missing present => absurd missing present⟩, fun nonzero => ?_⟩
  · by_contra nonzero
    exact not_refusesCleanly directory here found nonzero (clean nonzero).1
  · exact ⟨_, _, addChild_exists directory here found nonzero, addChild_exists directory here found nonzero,
      liveAllocations_newNode .., liveAllocations_newNode ..⟩

def counting : Heap := ⟨Nat.succ, Nat.succ_injective, Nat.succ_ne_zero⟩

def unusedFs (frames : σ) : Tmpfs σ Unit :=
  ⟨none, fun _ => none, 0, fun _ => ⟨false, .dir, 0, 0, 0, ()⟩, frames, fun _ _ => 0⟩

theorem unused_unusedFs (frames : σ) : Unused (unusedFs frames) := ⟨rfl, rfl, fun _ => rfl⟩

theorem exists_taken (unused : Unused s) (heap : Heap) (self : φ) (name : Str) :
    ∃ (s' : Tmpfs σ φ) (dir inode : Inode φ) (map : Children) (addr : Nat), dir.ftype = .dir ∧
      s'.nodes dir.inodeId = some ⟨inode, .children map⟩ ∧ getChild map name = .ok addr ∧ addr ≠ 0 := by
  obtain ⟨root, s₁, -, -, nodes, directory, id, -⟩ := tmpGetroot_first unused heap self
  have here : s₁.nodes root.inodeId = some ⟨root, .children childrenInit⟩ := by rw [nodes, id, update_self]
  obtain ⟨s', map, run, lists, there⟩ : ∃ s' map, tmpCreat heap s₁ root name = .ok (0, s') ∧ Lists map _ ∧
      s'.nodes root.inodeId = some ⟨root, .children map⟩ := by
    obtain ⟨map, run, lists⟩ := addChild_new directory here lists_childrenInit rfl
    exact ⟨_, map, run, lists, update_self ..⟩
  refine ⟨s', root, root, map, _, directory, there, getChild_eq lists name, ?_⟩
  rw [update_self]
  exact heap.nonzero _

theorem refused_node_leaks_taken : ∃ (s : Tmpfs Unit Unit) (dir : Inode Unit) (name : Str) (s' : Tmpfs Unit Unit),
    tmpMkdir counting s dir name = .ok (-EEXIST, s') ∧
      liveAllocations counting s' = insert (counting.address s.allocations) (liveAllocations counting s) := by
  obtain ⟨s, dir, _, _, _, directory, here, found, nonzero⟩ :=
    exists_taken (unused_unusedFs ()) counting () ⟨[102], by decide⟩
  obtain ⟨_, s', -, run, -, live⟩ := (@refused_node_leaks _ _ counting _ _ _ _ _ _ directory here found).2 nonzero
  exact ⟨s, dir, _, s', run, live⟩

theorem taken_name_leaks : ∃ (s : Tmpfs Unit Unit) (dir inode : Inode Unit) (map : Children) (name : Str) (addr : Nat),
    s.nodes dir.inodeId = some ⟨inode, .children map⟩ ∧ getChild map name = .ok addr ∧ addr ≠ 0 ∧
      ¬RefusesCleanly counting (tmpCreat counting) s dir name := by
  obtain ⟨s, dir, inode, map, addr, directory, here, found, nonzero⟩ :=
    exists_taken (unused_unusedFs ()) counting () ⟨[102], by decide⟩
  exact ⟨s, dir, inode, map, _, addr, here, found, nonzero, not_refusesCleanly directory here found nonzero⟩

end Petix.Proof.Tmpfs
