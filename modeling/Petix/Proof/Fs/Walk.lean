import Petix.Proof.Fs.Route
import Petix.Proof.Tmpfs.Nodes

namespace Petix.Proof.Fs
open List Library Library.PathTree Kernel.Mounts Kernel.Vfs Spec.Mounts Spec.Lookup
open Kernel.Lookup hiding Fault
open Kernel.Container (Str)
open Kernel.Tmpfs (Heap Tmpfs TmpNode tmpLookup tmpGetroot)
open Spec.Tmpfs (Unused)
open Proof.Tmpfs

variable {σ : Type} {heap : Heap} {s : Tmpfs σ FsInst} {fs : FileSystems σ} {tree : Tree} {ends : Bool}
  {path names : List Name} {buf : Buffer} {str : Nat} {p rest : List Byte}
variable {id : Nat} {ftype : FileType}

def eachName (s : Tmpfs σ FsInst) (ends : Bool) : List Name → Inode FsInst →
    Except Kernel.Lookup.Fault (Int × Inode FsInst)
  | [], inode => if ends then .ok (0, inode) else .error (.inMounts .pastBuffer)
  | name :: names, inode => do
      let (ret, inode) ← (tmpLookup s inode (Str.ofBytes name) inode).mapError .inTmp
      if ret < 0 then return (ret, inode) else eachName s ends names inode

theorem lookupLoop_eq {fuel : Nat} (here : Ahead buf str rest ends) (terminated : 0 ∉ rest)
    (enough : rest.length < fuel) (inode : Inode FsInst) :
    lookupLoop s fuel buf str inode = eachName s ends (ahead ends rest) inode := by
  induction fuel generalizing buf str rest inode with
  | zero => omega
  | succ fuel ih =>
    rw [lookupLoop]
    obtain ⟨none, done⟩ | ⟨_, rest', _, _, rfl, some, token, comps, next, -⟩ := strtokR_ahead here terminated
    · rw [done, none, eachName]
      cases ends with
      | true => rfl
      | false => rfl
    · rw [token, comps, eachName]
      rw [mem_append, not_or] at terminated
      have shorter : rest'.length < fuel := by
        have := length_pos_iff.mpr some
        rw [length_append] at enough
        omega
      simp only [← ih next terminated.2 shorter]
      rfl

theorem lookupEach_eq {root : Inode FsInst} (getroot : tmpGetroot heap .tmpfs fs.tmp = .ok (root, s))
    (terminated : 0 ∉ p) : lookupEach heap fs p = (eachName s (decide (p.length < pathMax)) (seen p) root >>=
      fun found => .ok (found.1, found.2, { fs with tmp := s })) := by
  have terminated' : 0 ∉ p.take pathMax := fun member => terminated (mem_of_mem_take member)
  have enough : (p.take pathMax).length < pathMax + 1 := by
    rw [length_take]
    omega
  rw [lookupEach, getroot, ← ahead_take, ← lookupLoop_eq (strncpy_ahead p) terminated' enough]
  rfl

def Meets (s : Tmpfs σ FsInst) (tree : Tree) (ends : Bool) (target : List Name)
    (result : Except Kernel.Lookup.Fault (Int × Inode FsInst)) : End → Prop
  | .found => ∃ id ftype node, tree target = some (id, ftype) ∧ s.nodes id = some node ∧
      result = if ends then .ok (0, node.inode) else .error (.inMounts .pastBuffer)
  | .missing => ∃ inode, result = .ok (-ENOENT, inode)
  | .blocked => result = .error (.inTmp .notDir)

theorem chars_ofBytes {name : Name} (terminated : 0 ∉ name) : (Str.ofBytes name).chars = name := by
  rw [Str.ofBytes, takeWhile_eq_self_iff]
  intro _ member
  exact decide_eq_true (ne_of_mem_of_not_mem member terminated)

theorem eachName_meets (stores : Stores s tree) {node : TmpNode FsInst}
    (here : tree path = some (id, ftype)) (stored : s.nodes id = some node)
    (terminated : ∀ name ∈ names, (0 : Byte) ∉ name) :
    Meets s tree ends (path ++ names) (eachName s ends names node.inode) (walk isDir tree path names) := by
  induction names generalizing path id ftype node with
  | nil =>
    rw [append_nil]
    exact ⟨id, ftype, node, here, stored, rfl⟩
  | cons name names ih =>
    obtain ⟨-, node', stored', number, type, -⟩ := stores.node path id ftype here
    cases stored.symm.trans stored'
    rw [forall_mem_cons] at terminated
    rw [eachName, walk, here, Option.any_some, isDir]
    by_cases directory : ftype = .dir
    · subst directory
      obtain ⟨inode, _, parent, children⟩ := stores.child path id here
      have child := children (Str.ofBytes name)
      rw [chars_ofBytes terminated.1] at child
      rw [← number] at parent
      cases next : tree (path ++ [name]) with
      | none =>
        rw [next] at child
        rw [tmpLookup_missing type parent child]
        exact ⟨_, rfl⟩
      | some entry =>
        obtain ⟨id', ftype'⟩ := entry
        obtain ⟨nonzero', _, stored', -⟩ := stores.node _ id' ftype' next
        rw [next] at child
        rw [tmpLookup_found type parent child nonzero' stored', append_cons]
        exact ih next stored' terminated.2
    · have notDir : node.inode.ftype ≠ .dir := type.symm ▸ directory
      rw [if_neg (fun equal => directory (of_decide_eq_true equal)), tmpLookup, if_pos notDir]
      rfl

theorem stores_start (stores : Stores s tree) : tree [] ≠ none := by
  obtain ⟨root, -, top⟩ := stores.root
  rw [top]
  exact Option.some_ne_none _

theorem stores_walk_found (stores : Stores s tree) : walk isDir tree [] names = .found ↔ tree names ≠ none :=
  walk_found_iff stores.closed (stores_start stores)

theorem stores_walk_blocked (stores : Stores s tree) :
    walk isDir tree [] names = .blocked ↔ Blocked isDir tree [] names :=
  walk_blocked_iff stores.closed (stores_start stores)

theorem isDir_iff {entry : Nat × FileType} : isDir entry = true ↔ entry.2 = .dir := decide_eq_true_iff

theorem closed_bare (root : Nat) : Closed isDir (Tree.bare root) := by
  intro _ _ here
  rw [Tree.bare, if_neg (by simp)] at here
  exact absurd rfl here

theorem bare_some {root : Nat} (here : Tree.bare root path = some (id, ftype)) :
    path = [] ∧ id = root ∧ ftype = .dir := by
  rw [Tree.bare] at here
  split at here
  case isTrue empty =>
    cases here
    exact ⟨empty, rfl, rfl⟩
  case isFalse => cases here

theorem represents_getroot (represents : Represents heap s tree) :
    ∃ root id s', tmpGetroot heap .tmpfs s = .ok (root.inode, s') ∧ Stores s' tree ∧
      tree [] = some (id, .dir) ∧ s'.nodes id = some root := by
  obtain ⟨unused, rfl⟩ | stores := represents
  · obtain ⟨root, s', run, made, nodes, directory, number, owner, -⟩ := tmpGetroot_first unused heap FsInst.tmpfs
    have here : s'.nodes (heap.address 0) = some ⟨root, .children Kernel.Tmpfs.childrenInit⟩ := by
      rw [nodes, Function.update_self]
    have top : Tree.bare (heap.address 0) [] = some (heap.address 0, .dir) := rfl
    refine ⟨⟨root, .children Kernel.Tmpfs.childrenInit⟩, heap.address 0, s', run,
      ⟨⟨_, made, top⟩, ?_, ?_, closed_bare _⟩, top, here⟩
    · intro path id _ there
      obtain ⟨-, rfl, rfl⟩ := bare_some there
      exact ⟨heap.nonzero 0, _, here, number, directory, owner⟩
    · intro _ id there
      obtain ⟨rfl, rfl, -⟩ := bare_some there
      refine ⟨root, _, here, fun name => ?_⟩
      rfl
  · obtain ⟨id, made, top⟩ := stores.root
    obtain ⟨-, node, here, -⟩ := stores.node [] id .dir top
    exact ⟨node, id, s, tmpGetroot_again made here .tmpfs, stores, top, here⟩

theorem seen_terminated (terminated : 0 ∉ p) : ∀ name ∈ seen p, (0 : Byte) ∉ name := by
  intro _ member zero
  rw [seen] at member
  split at member
  case isTrue => exact terminated (mem_of_mem_words member zero)
  case isFalse =>
    have within := mem_of_mem_words member zero
    rw [upToLast, mem_reverse] at within
    exact terminated (mem_of_mem_take (mem_reverse.mp ((dropWhile_sublist _).mem within)))

theorem lookupEach_meets (represents : Represents heap fs.tmp tree) (terminated : 0 ∉ p) : ∃ s' result, Stores s' tree ∧
      lookupEach heap fs p = (result >>= fun found => .ok (found.1, found.2, { fs with tmp := s' })) ∧
      Meets s' tree (decide (p.length < pathMax)) (seen p) result (walk isDir tree [] (seen p)) := by
  obtain ⟨_, _, s', getroot, stores, top, here⟩ := represents_getroot represents
  exact ⟨s', _, stores, lookupEach_eq getroot terminated, eachName_meets stores top here (seen_terminated terminated)⟩

end Petix.Proof.Fs
