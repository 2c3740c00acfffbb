import Petix.Proof.Fs.Walk

namespace Petix.Proof.Fs
open Function Library Library.PathTree Kernel.Vfs Spec.Mounts Spec.Lookup
open Kernel.Lookup hiding Fault
open Kernel.Container (Str HashmapEntry)
open Kernel.Tmpfs hiding Fault
open Spec.Tmpfs (Unused Fresh)
open Proof.Tmpfs

variable {σ : Type} {heap : Heap} {s s' : Tmpfs σ FsInst} {tree : Tree} {path : List Name} {id : Nat}
  {ftype : FileType} {name : Str}

structure Keeps (heap : Heap) (s : Tmpfs σ FsInst) (tree : Tree) : Prop where
  root : ∃ root, s.privateData = some root ∧ tree [] = some (root, .dir)
  node : ∀ path id ftype, tree path = some (id, ftype) → id ≠ 0 ∧ ∃ node, s.nodes id = some node ∧
    node.inode.inodeId = id ∧ node.inode.ftype = ftype ∧ node.inode.fs = .tmpfs
  child : ∀ path id, tree path = some (id, .dir) → ∃ inode map names, s.nodes id = some ⟨inode, .children map⟩ ∧
    Lists map names ∧ ∀ name, (names name).map HashmapEntry.value = (tree (path ++ [name.chars])).map Prod.fst
  closed : Closed isDir tree
  apart : ∀ path path' id ftype ftype', tree path = some (id, ftype) → tree path' = some (id, ftype') → path = path'
  kinds : ∀ path id ftype, tree path = some (id, ftype) → ftype = .dir ∨ ftype = .regular
  fresh : Fresh heap s

def Tracks (heap : Heap) (s : Tmpfs σ FsInst) (tree : Tree) : Prop :=
  Unused s ∧ tree = Tree.bare (heap.address 0) ∨ Keeps heap s tree

theorem Keeps.stores (keeps : Keeps heap s tree) : Stores s tree where
  root := keeps.root
  node := keeps.node
  child path id here := by
    obtain ⟨inode, map, _, stored, lists, values⟩ := keeps.child path id here
    refine ⟨inode, map, stored, fun name => ?_⟩
    rw [getChild_eq lists, values]
  closed := keeps.closed

theorem Tracks.represents (tracks : Tracks heap s tree) : Represents heap s tree := tracks.imp_right Keeps.stores

theorem tracks_getroot (tracks : Tracks heap s tree) :
    ∃ root s', tmpGetroot heap .tmpfs s = .ok (root.inode, s') ∧ Keeps heap s' tree ∧
      ∃ id, tree [] = some (id, .dir) ∧ s'.nodes id = some root := by
  obtain ⟨root, id, s', run, stores, top, here⟩ := represents_getroot tracks.represents
  refine ⟨root, s', run, ?_, id, top, here⟩
  obtain ⟨unused, rfl⟩ | keeps := tracks
  · obtain ⟨inode, _, run₁, -, nodes, -, -, -, -, fresh, -⟩ := tmpGetroot_first unused heap FsInst.tmpfs
    obtain ⟨-, rfl⟩ := Prod.mk.inj (Except.ok.inj (run.symm.trans run₁))
    refine ⟨stores.root, stores.node, ?_, stores.closed, ?_, ?_, fresh⟩
    · intro path id there
      obtain ⟨rfl, rfl, -⟩ := bare_some there
      refine ⟨inode, childrenInit, fun _ => none, ?_, lists_childrenInit, fun name => ?_⟩
      · rw [nodes, update_self]
      · rfl
    · intro path _ id ftype _ there there'
      rw [(bare_some there).1, (bare_some there').1]
    · intro _ _ _ there
      exact .inl (bare_some there).2.2
  · obtain ⟨id', made, top'⟩ := keeps.root
    obtain ⟨-, node, stored, -⟩ := keeps.node [] id' .dir top'
    obtain ⟨-, rfl⟩ := Prod.mk.inj (Except.ok.inj (run.symm.trans (tmpGetroot_again made stored .tmpfs)))
    exact keeps

theorem Keeps.not_fresh (keeps : Keeps heap s tree) (here : tree path = some (id, ftype)) {k : Nat}
    (later : s.allocations ≤ k) : id ≠ heap.address k := by
  rintro rfl
  obtain ⟨-, node, stored, -⟩ := keeps.node path _ ftype here
  cases (keeps.fresh k later).symm.trans stored

theorem Keeps.newNode (keeps : Keeps heap s tree) (ftype : FileType) (size : Option Nat) (fs : FsInst)
    (contents : Contents) : Keeps heap (newNode heap ftype size fs contents s).2 tree := by
  have same {path : List Name} {id : Nat} {ftype' : FileType} (here : tree path = some (id, ftype')) :
      (Kernel.Tmpfs.newNode heap ftype size fs contents s).2.nodes id = s.nodes id :=
    update_of_ne (keeps.not_fresh here le_rfl) ..
  refine ⟨keeps.root, ?_, ?_, keeps.closed, keeps.apart, keeps.kinds, newNode_fresh keeps.fresh _ _ _ _⟩
  · intro path id ftype' here
    rw [same here]
    exact keeps.node path id ftype' here
  · intro path id here
    rw [same here]
    exact keeps.child path id here

def madeSize : MakeKind → Option Nat
  | .creat => some 0
  | .mkdir => none

def madeContents : MakeKind → Contents
  | .creat => .pages Kernel.Container.listInit
  | .mkdir => .children childrenInit

structure Inserted (heap : Heap) (kind : MakeKind) (id : Nat) (inode : Inode FsInst) (map : Children)
    (s s' : Tmpfs σ FsInst) : Prop where
  root : s'.privateData = s.privateData
  allocations : s.allocations < s'.allocations
  nodes : ∃ new : Inode FsInst, s'.nodes = update
      (update s.nodes (heap.address s.allocations) (some ⟨new, madeContents kind⟩)) id
      (some ⟨inode, .children map⟩) ∧
    new.inodeId = heap.address s.allocations ∧ new.ftype = kind.ftype ∧ new.fs = inode.fs

theorem Keeps.insert {kind : MakeKind} {inode : Inode FsInst} {map map' : Children}
    {names : Str → Option (HashmapEntry Str Nat)} {e : HashmapEntry Str Nat} (keeps : Keeps heap s tree)
    (parent : tree path = some (id, .dir)) (stored : s.nodes id = some ⟨inode, .children map⟩)
    (missing : tree (path ++ [name.chars]) = none)
    (values : ∀ n, (names n).map HashmapEntry.value = (tree (path ++ [n.chars])).map Prod.fst)
    (lists : Lists map' (update names name (some e))) (value : e.value = heap.address s.allocations)
    (inserted : Inserted heap kind id inode map' s s') : Keeps heap s'
      (update tree (path ++ [name.chars]) (some (heap.address s.allocations, kind.ftype))) := by
  obtain ⟨new, nodes, number, type, owner⟩ := inserted.nodes
  have apart : heap.address s.allocations ≠ id := (keeps.not_fresh parent le_rfl).symm
  have isNew {q : List Name} {i : Nat} {t : FileType} (here : update tree (path ++ [name.chars])
      (some (heap.address s.allocations, kind.ftype)) q = some (i, t)) :
      q = path ++ [name.chars] ∧ i = heap.address s.allocations ∧ t = kind.ftype ∨
        q ≠ path ++ [name.chars] ∧ tree q = some (i, t) := by
    by_cases same : q = path ++ [name.chars]
    · rw [same, update_self] at here
      cases here
      exact .inl ⟨same, rfl, rfl⟩
    · rw [update_of_ne same] at here
      exact .inr ⟨same, here⟩
  have atNew : s'.nodes (heap.address s.allocations) = some ⟨new, madeContents kind⟩ := by
    rw [nodes, update_of_ne apart, update_self]
  have atParent : s'.nodes id = some ⟨inode, .children map'⟩ := by rw [nodes, update_self]
  have atOther {q : List Name} {i : Nat} {t : FileType} (there : tree q = some (i, t)) (other : i ≠ id) :
      s'.nodes i = s.nodes i := by
    rw [nodes, update_of_ne other, update_of_ne (keeps.not_fresh there le_rfl)]
  obtain ⟨-, node, stored', number', type', owner'⟩ := keeps.node path id .dir parent
  cases stored.symm.trans stored'
  refine ⟨?_, ?_, ?_, ?_, ?_, ?_, ?_⟩
  · obtain ⟨root, made, _⟩ := keeps.root
    exact ⟨root, inserted.root.trans made, by rwa [update_of_ne (by simp)]⟩
  · intro q i t here
    obtain ⟨-, rfl, rfl⟩ | ⟨-, there⟩ := isNew here
    · exact ⟨heap.nonzero _, _, atNew, number, type, owner.trans owner'⟩
    · by_cases same : i = id
      · subst same
        cases keeps.apart _ _ _ _ _ there parent
        cases parent.symm.trans there
        exact ⟨(keeps.node path i .dir parent).1, _, atParent, number', type', owner'⟩
      · rw [atOther there same]
        exact keeps.node q i t there
  · intro q i here
    obtain ⟨rfl, rfl, made⟩ | ⟨-, there⟩ := isNew here
    · cases kind with
      | creat => cases made
      | mkdir =>
        refine ⟨new, childrenInit, fun _ => none, atNew, lists_childrenInit, fun n => ?_⟩
        rw [update_of_ne (by simp), keeps.closed.below missing]
        rfl
    · by_cases same : i = id
      · subst same
        cases keeps.apart _ _ _ _ _ there parent
        refine ⟨inode, map', _, atParent, lists, fun n => ?_⟩
        by_cases this : n = name
        · subst this
          rw [update_self, update_self, Option.map_some, Option.map_some, value]
        · have differs : path ++ [n.chars] ≠ path ++ [name.chars] := fun equal => this (Str.ext (by simpa using equal))
          rw [update_of_ne this, update_of_ne differs, values]
      · rw [atOther there same]
        obtain ⟨inode₁, map₁, names₁, stored₁, lists₁, values₁⟩ := keeps.child q i there
        refine ⟨inode₁, map₁, names₁, stored₁, lists₁, fun n => ?_⟩
        have differs : q ++ [n.chars] ≠ path ++ [name.chars] := by
          intro equal
          obtain ⟨rfl, -⟩ := List.append_inj' equal rfl
          cases parent.symm.trans there
          exact same rfl
        rw [update_of_ne differs, values₁]
  · exact keeps.closed.insert parent (isDir_iff.mpr rfl) missing _
  · intro q q' i t t' here here'
    obtain ⟨rfl, rfl, -⟩ | ⟨-, there⟩ := isNew here
    · obtain ⟨rfl, -⟩ | ⟨-, there'⟩ := isNew here'
      · rfl
      · exact absurd rfl (keeps.not_fresh there' le_rfl)
    · obtain ⟨-, rfl, -⟩ | ⟨-, there'⟩ := isNew here'
      · exact absurd rfl (keeps.not_fresh there le_rfl)
      · exact keeps.apart q q' i t t' there there'
  · intro q i t here
    obtain ⟨-, -, rfl⟩ | ⟨-, there⟩ := isNew here
    · cases kind with
      | creat => exact .inr rfl
      | mkdir => exact .inl rfl
    · exact keeps.kinds q i t there
  · intro k later
    have further := inserted.allocations.trans_le later
    rw [nodes, update_of_ne (keeps.not_fresh parent further.le).symm,
      update_of_ne (heap.fresh.ne further.ne'), keeps.fresh k further.le]

theorem addChild_keeps (keeps : Keeps heap s tree) (kind : MakeKind) {node : TmpNode FsInst}
    (parent : tree path = some (id, .dir)) (stored : s.nodes id = some node) (name : Str) :
    ∃ rc s', addChild heap kind.ftype (madeSize kind) (madeContents kind) s node.inode name = .ok (rc, s') ∧
      (tree (path ++ [name.chars]) ≠ none ∧ rc = -EEXIST ∧ Keeps heap s' tree ∨
        tree (path ++ [name.chars]) = none ∧ rc = 0 ∧ Keeps heap s'
          (update tree (path ++ [name.chars]) (some (heap.address s.allocations, kind.ftype)))) := by
  obtain ⟨inode, map, names, here, lists, values⟩ := keeps.child path id parent
  cases stored.symm.trans here
  obtain ⟨-, node, stored', number, directory, -⟩ := keeps.node path id .dir parent
  cases stored.symm.trans stored'
  have here' : s.nodes inode.inodeId = some ⟨inode, .children map⟩ := by rwa [number]
  have child : getChild map name = .ok (((tree (path ++ [name.chars])).map Prod.fst).getD 0) := by
    rw [getChild_eq lists, values]
  cases found : tree (path ++ [name.chars]) with
  | some entry =>
    rw [found] at child
    have nonzero := (keeps.node _ entry.1 entry.2 found).1
    refine ⟨_, _, addChild_exists directory here' child nonzero, .inl ⟨Option.some_ne_none _, rfl, ?_⟩⟩
    exact keeps.newNode _ _ _ _
  | none =>
    have missing : names name = none := by
      have same := values name
      rwa [found, Option.map_none, Option.map_eq_none_iff] at same
    obtain ⟨_, run, lists'⟩ := addChild_new directory here' lists missing
    refine ⟨_, _, run, .inr ⟨rfl, rfl, keeps.insert parent stored found values lists' rfl ⟨rfl, ?_, ?_⟩⟩⟩
    · exact Nat.lt_add_of_pos_right (by decide)
    · exact ⟨_, congrArg (update _ · _) number, rfl, rfl, rfl⟩

end Petix.Proof.Fs
