import Mathlib.Data.List.DropRight
import Petix.Proof.Fs.Growth
import Petix.Proof.Fs.Slashes

namespace Petix.Proof.Fs
open Function List Library Library.Result Library.PathTree Kernel.Mounts Kernel.Vfs Spec.Mounts Spec.Lookup
open Kernel.Lookup hiding Fault
open Kernel.Container (Str)
open Kernel.Tmpfs (Heap Tmpfs addChild)
open Proof.Tmpfs (counting)

variable {σ : Type} {heap : Heap} {fs fs' : FileSystems σ} {s : Tmpfs σ FsInst} {tree : Tree} {path names : List Name}
  {p : CString} {dir name p2 : List Byte} {stack : Buffer} {inode : Inode FsInst}

theorem splitLoop_name (inner : ∀ a ∈ name, a ≠ slash) (i : Nat) (found : Option Nat) :
    splitLoop name i found = found := by
  induction name generalizing i found with
  | nil => rfl
  | cons c name ih =>
    rw [forall_mem_cons] at inner
    rw [splitLoop, if_neg inner.1, ih inner.2]

theorem splitLoop_last (inner : ∀ a ∈ name, a ≠ slash) (dir : List Byte) (i : Nat) (found : Option Nat) :
    splitLoop (dir ++ slash :: name) i found = some (i + dir.length) := by
  induction dir generalizing i found with
  | nil =>
    rw [nil_append, splitLoop, if_pos rfl, splitLoop_name inner]
    rfl
  | cons c dir ih => rw [cons_append, splitLoop, ih, length_cons, Nat.add_assoc, Nat.add_comm 1]

theorem splitDirPath_eq (inner : ∀ a ∈ name, a ≠ slash) (dir : List Byte) :
    splitDirPath (dir ++ slash :: name) = .ok (dir, name) := by
  rw [splitDirPath, splitLoop_last inner, Nat.zero_add]
  dsimp only
  rw [take_left, ← drop_drop, drop_left]
  rfl

theorem exists_last_slash {p : List Byte} (slashes : slash ∈ p) :
    ∃ dir name, p = dir ++ slash :: name ∧ ∀ a ∈ name, a ≠ slash := by
  obtain ⟨back, front, split, last⟩ := eq_append_cons_of_mem (mem_reverse.mpr slashes)
  refine ⟨front.reverse, back.reverse, ?_, ?_⟩
  · have := congrArg reverse split
    simpa using this
  · intro _ member
    exact ne_of_mem_of_not_mem (mem_reverse.mp member) last

theorem split_dir_path_iff (path : List Byte) :
    splitDirPath path = .ok ((path.rdropWhile (· ≠ slash)).dropLast, path.rtakeWhile (· ≠ slash)) ↔ slash ∈ path := by
  constructor
  · intro split
    by_contra none
    rw [splitDirPath, splitLoop_name (fun a member same => none (same ▸ member))] at split
    cases split
  · intro slashes
    obtain ⟨-, name, rfl, inner⟩ := exists_last_slash slashes
    have named : ∀ a ∈ name.reverse, decide (a ≠ slash) = true := by simpa using inner
    rw [splitDirPath_eq inner, rdropWhile, rtakeWhile, reverse_append, reverse_cons,
      append_assoc, takeWhile_append_of_pos named, dropWhile_append_of_pos named]
    simp

theorem split_dir_path_writes_before : splitDirPath [0x66#8] = .error .beforePath := rfl

theorem makes_split (makes : Makes tree p path) : ∃ dir name, p.bytes = dir ++ slash :: name ∧ (∀ a ∈ name, a ≠ slash) ∧
      components dir = tmp :: path.dropLast ∧ path = path.dropLast ++ [name] := by
  have comps := makes.under.components
  have slashes : slash ∈ p.bytes := by
    by_contra none
    have inside : ∀ a ∈ p.bytes, (a == slash) = false := fun a member =>
      beq_false_of_ne (ne_of_mem_of_not_mem member none)
    rw [components] at comps
    by_cases empty : p.bytes = []
    · rw [empty] at comps
      cases comps
    · rw [words_last empty inside] at comps
      exact makes.named.1 (cons.inj comps).2.symm
  obtain ⟨dir, name, split, inner⟩ := exists_last_slash slashes
  have some : name ≠ [] := by
    rintro rfl
    apply makes.named.2
    rw [split, getLast?_append]
    rfl
  rw [split, components, @words_append_cons _ (· == slash) slash (beq_self_eq_true slash),
    words_last some fun a member => beq_false_of_ne (inner a member)] at comps
  refine ⟨dir, name, split, inner, ?_⟩
  rw [components]
  cases first : words (· == slash) dir with
  | nil =>
    rw [first] at comps
    cases comps
    exact absurd rfl makes.named.1
  | cons head more =>
    rw [first, cons_append] at comps
    obtain ⟨rfl, rfl⟩ := cons.inj comps
    rw [dropLast_concat]
    exact ⟨rfl, rfl⟩

def found : Except Kernel.Lookup.Fault (Int × Inode FsInst) → Option (Nat × FileType)
  | .ok (ret, inode) => if ret = 0 then some (inode.inodeId, inode.ftype) else none
  | .error _ => none

theorem resolves_eq (heap : Heap) (fs : FileSystems σ) (p : List Byte) (stack : Buffer) (inode : Inode FsInst) :
    resolves heap fs p stack inode = found (answer heap fs p stack inode) := by
  rw [resolves, answer]
  cases fsLookup heap fs p stack inode with
  | error fault => rfl
  | ok result => rfl

theorem found_tmpfs (represents : Represents heap fs.tmp tree) (terminated : 0 ∉ p2) :
    found (answerIn heap fs stack inode (.tmpfs, p2)) = if p2.length < pathMax then tree (seen p2) else none := by
  obtain ⟨_, _, stores, run, meets⟩ := lookupEach_meets represents terminated
  have nothing (ending : walk isDir tree [] (seen p2) ≠ .found) : tree (seen p2) = none := by
    by_contra there
    exact ending ((stores_walk_found stores).mpr there)
  rw [answerIn, lookupIn, run]
  cases ending : walk isDir tree [] (seen p2) with
  | found =>
    rw [ending] at meets
    obtain ⟨id, ftype, node, there, stored, rfl⟩ := meets
    obtain ⟨-, _, stored', number, type, -⟩ := stores.node _ id ftype there
    cases stored.symm.trans stored'
    by_cases short : p2.length < pathMax
    · rw [decide_eq_true short, if_pos short, there, ← number, ← type]
      rfl
    · rw [decide_eq_false short, if_neg short]
      rfl
  | missing =>
    rw [ending] at meets
    obtain ⟨-, rfl⟩ := meets
    rw [nothing (by rw [ending]; simp), ite_self]
    rfl
  | blocked =>
    rw [ending] at meets
    cases meets
    rw [nothing (by rw [ending]; simp), ite_self]
    rfl

theorem route_terminated {p : List Byte} {inst : FsInst} (way : route p = .ok (inst, p2)) (terminated : 0 ∉ p) :
    0 ∉ p2 := by
  rw [route] at way
  split at way
  · split at way
    · cases way
      exact terminated
    · cases way
  · split at way
    · cases way
      exact terminated
    · split at way
      · cases way
      · cases way
        exact behind_terminated terminated

theorem answerIn_tarfs_congr (s : Tmpfs σ FsInst) :
    answerIn heap { fs with tmp := s } stack inode (.tarfs, p2) = answerIn heap fs stack inode (.tarfs, p2) := by
  rw [answerIn, answerIn, lookupIn, lookupIn, lookupWhole, lookupWhole]
  split
  · rfl
  · rw [tarLookupAll, tarLookupAll]
    cases Kernel.Tar.lookupAll headerCount .tarfs fs.tar (p2.dropWhile (· == slash)) stack inode with
    | error fault => rfl
    | ok result => rfl

section
variable (boot : fs.mounts = bootTree)
include boot

theorem resolves_congr (represents : Represents heap fs.tmp tree)
    (represents' : Represents heap s tree) (p : CString) (stack : Buffer) (inode : Inode FsInst) :
    resolves heap { fs with tmp := s } p.bytes stack inode = resolves heap fs p.bytes stack inode := by
  have boot' : ({ fs with tmp := s } : FileSystems σ).mounts = bootTree := boot
  rw [resolves_eq, resolves_eq, answer_boot boot p.terminated, answer_boot boot' p.terminated]
  cases way : route p.bytes with
  | error fault => rfl
  | ok entry =>
    obtain ⟨inst, p2⟩ := entry
    change found (answerIn heap { fs with tmp := s } stack inode (inst, p2)) =
      found (answerIn heap fs stack inode (inst, p2))
    cases inst with
    | tarfs => rw [answerIn_tarfs_congr]
    | devfs => rw [answerIn_devfs, answerIn_devfs]
    | tmpfs =>
      have terminated := route_terminated way p.terminated
      rw [found_tmpfs represents terminated, found_tmpfs represents' terminated]

theorem resolves_underTmp (represents : Represents heap fs.tmp tree)
    (under : UnderTmp p path) (stack : Buffer) (inode : Inode FsInst) :
    resolves heap fs p.bytes stack inode = tree path := by
  have shorter := (length_behind p.bytes).trans_lt under.short
  rw [resolves_eq, answer_boot boot p.terminated, route_short under.short, under.components]
  change found (answerIn heap fs stack inode (.tmpfs, behind p.bytes)) = _
  rw [found_tmpfs represents (behind_terminated p.terminated), if_pos shorter, seen, if_pos shorter,
    components_behind under.components]

theorem resolves_made {entry : Nat × FileType} (under : UnderTmp p path)
    (keeps : Keeps heap s (update tree path (some entry))) (stack : Buffer) (inode : Inode FsInst) :
    resolves heap { fs with tmp := s } p.bytes stack inode = some entry := by
  have represents : Represents heap s (update tree path (some entry)) := .inr keeps.stores
  have boot' : ({ fs with tmp := s } : FileSystems σ).mounts = bootTree := boot
  rw [resolves_underTmp boot' represents under, update_self]

theorem fsLookup_dir (tracks : Tracks heap fs.tmp tree) (terminated : 0 ∉ dir)
    (short : dir.length < pathMax) (comps : components dir = tmp :: names) (stack : Buffer) (inode : Inode FsInst) :
    ∃ s result, Keeps heap s tree ∧ Meets s tree true names result (walk isDir tree [] names) ∧
      fsLookup heap fs dir stack inode = (result >>= fun found => .ok (found.1, found.2, { fs with tmp := s })) := by
  obtain ⟨root, s, getroot, keeps, _, top, here⟩ := tracks_getroot tracks
  have shorter := (length_behind dir).trans_lt short
  have tokens : seen (behind dir) = names := by rw [seen, if_pos shorter, components_behind comps]
  have ends := seen_terminated (behind_terminated terminated)
  rw [tokens] at ends
  refine ⟨s, eachName s true names root.inode, keeps, eachName_meets keeps.stores top here ends, ?_⟩
  rw [fsLookup_boot boot terminated, route_short short, comps]
  change lookupEach heap fs (behind dir) = _
  rw [lookupEach_eq getroot (behind_terminated terminated), tokens, decide_eq_true shorter]

end

theorem run_eq (kind : MakeKind) : (MakeKind.run heap kind : FileSystems σ → _) =
    sysMake (addChild heap kind.ftype (madeSize kind) (madeContents kind)) heap := by
  cases kind with
  | creat => rfl
  | mkdir => rfl

theorem run_makes (boot : fs.mounts = bootTree) (tracks : Tracks heap fs.tmp tree) (makes : Makes tree p path)
    (kind : MakeKind) (stack : Buffer) (inode : Inode FsInst) :
    ∃ rc s, kind.run heap fs p.bytes stack inode = .ok (rc, { fs with tmp := s }) ∧ rc = tree.outcome path ∧
      (rc ≠ 0 ∧ Keeps heap s tree ∨ rc = 0 ∧ ∃ id, (∀ q ftype, tree q ≠ some (id, ftype)) ∧
        Keeps heap s (update tree path (some (id, kind.ftype)))) := by
  obtain ⟨dir, name, split, inner, comps, whole⟩ := makes_split makes
  have clear := makes.clear
  have short := makes.under.short
  have terminated := p.terminated
  obtain ⟨parent, rfl⟩ : ∃ parent, path = parent ++ [name] := ⟨_, whole⟩
  rw [dropLast_concat] at comps clear
  rw [split, length_append] at short
  rw [split, mem_append, mem_cons, not_or, not_or] at terminated
  obtain ⟨s, _, keeps, meets, lookup⟩ :=
    fsLookup_dir boot tracks terminated.1 (Nat.lt_of_le_of_lt (Nat.le_add_right _ _) short) comps stack inode
  rw [run_eq, sysMake, split, splitDirPath_eq inner, ok_bind, Tree.outcome, dropLast_concat]
  dsimp only
  rw [lookup]
  cases ending : walk isDir tree [] parent with
  | found =>
    rw [ending] at meets
    obtain ⟨id, ftype, node, there, stored, rfl⟩ := meets
    obtain ⟨-, _, stored', -, type, owner⟩ := keeps.node _ id ftype there
    cases stored.symm.trans stored'
    rw [if_pos rfl, ok_bind, ok_bind, there]
    dsimp only
    rw [if_neg (lt_irrefl 0)]
    by_cases directory : ftype = .dir
    · subst directory
      obtain ⟨rc, s', run, outcome⟩ := addChild_keeps keeps kind there stored (Str.ofBytes name)
      rw [chars_ofBytes terminated.2.2] at outcome
      refine ⟨rc, s', ?_, ?_, ?_⟩
      · rw [if_neg (not_not.mpr type), owner]
        rw [run]
        rfl
      · rw [if_neg (not_not.mpr rfl)]
        obtain ⟨exists_, rfl, -⟩ | ⟨missing, rfl, -⟩ := outcome
        · rw [if_pos exists_]
        · rw [if_neg (not_not.mpr missing)]
      · obtain ⟨-, rfl, keeps'⟩ | ⟨-, rfl, keeps'⟩ := outcome
        · exact .inl ⟨by decide, keeps'⟩
        · exact .inr ⟨rfl, _, fun q ftype here => keeps.not_fresh here le_rfl rfl, keeps'⟩
    · refine ⟨-ENOTDIR, s, ?_, (if_pos directory).symm, .inl ⟨by decide, keeps⟩⟩
      rw [if_pos (type.symm ▸ directory)]
      rfl
  | missing =>
    rw [ending] at meets
    obtain ⟨-, rfl⟩ := meets
    have nothing : tree parent = none := by
      by_contra there
      cases ending.symm.trans ((stores_walk_found keeps.stores).mpr there)
    rw [nothing]
    exact ⟨-ENOENT, s, rfl, rfl, .inl ⟨by decide, keeps⟩⟩
  | blocked =>
    obtain ⟨q, leads, proper, ⟨id, ftype⟩, there, leaf⟩ := (stores_walk_blocked keeps.stores).mp ending
    obtain rfl | rfl := keeps.kinds q id ftype there
    · cases leaf
    · exact absurd there (clear q leads proper id)

theorem fsLookup_tracks {ret : Int} {inode' : Inode FsInst} (boot : fs.mounts = bootTree)
    (tracks : Tracks heap fs.tmp tree) (run : fsLookup heap fs p.bytes stack inode = .ok (ret, inode', fs')) :
    fs'.mounts = fs.mounts ∧ Tracks heap fs'.tmp tree := by
  rw [fsLookup_boot boot p.terminated] at run
  cases way : route p.bytes with
  | error fault =>
    rw [way] at run
    cases run
  | ok entry =>
    obtain ⟨inst, p2⟩ := entry
    rw [way] at run
    change lookupIn heap fs stack inode (inst, p2) = _ at run
    cases inst with
    | tarfs =>
      rw [lookupIn, lookupWhole] at run
      split at run
      · cases run
        exact ⟨rfl, tracks⟩
      · obtain ⟨⟨ret', inode'', _⟩, -, rest⟩ := bind_ok run
        cases rest
        exact ⟨rfl, tracks⟩
    | devfs =>
      rw [lookupIn, lookupWhole] at run
      split at run
      · cases run
        exact ⟨rfl, tracks⟩
      · cases run
        exact ⟨rfl, tracks⟩
    | tmpfs =>
      obtain ⟨_, _, getroot, keeps, -⟩ := tracks_getroot tracks
      rw [lookupIn, lookupEach_eq getroot (route_terminated way p.terminated)] at run
      obtain ⟨⟨_, _⟩, -, rest⟩ := bind_ok run
      cases rest
      exact ⟨rfl, .inr keeps⟩

theorem treeStep_follows {s s' : History σ} {call : TreeCall} (boot : s.fs.mounts = bootTree)
    (tracks : Tracks heap s.fs.tmp s.tree) (step : TreeStep heap s call s') :
    s'.fs.mounts = bootTree ∧ Tracks heap s'.fs.tmp s'.tree := by
  cases step with
  | @makes kind p path stack inode rc fs' allowed run =>
    obtain ⟨_, _, run', -, outcome⟩ := run_makes boot tracks allowed kind stack inode
    obtain ⟨rfl, rfl⟩ := Prod.mk.inj (Except.ok.inj (run.symm.trans run'))
    obtain ⟨failed, keeps⟩ | ⟨rfl, _, -, keeps⟩ := outcome
    · rw [if_neg failed]
      exact ⟨boot, .inr keeps⟩
    · rw [if_pos rfl, resolves_made boot allowed.under keeps]
      exact ⟨boot, .inr keeps⟩
  | looks run =>
    obtain ⟨mounts, tracks'⟩ := fsLookup_tracks boot tracks run
    exact ⟨mounts.trans boot, tracks'⟩

theorem reachable_follows {s : History σ} (reachable : (treeCalls heap).Reachable s) :
    s.fs.mounts = bootTree ∧ Tracks heap s.fs.tmp s.tree := by
  induction reachable with
  | initial start =>
    obtain ⟨booted, tree⟩ := start
    exact ⟨mounts_eq booted.mounts, .inl ⟨booted.unused, tree⟩⟩
  | next _ step ih => exact treeStep_follows ih.1 ih.2 step

theorem tmpfs_is_tree {s : History σ} (reachable : (treeCalls heap).Reachable s) :
    (∀ p path stack inode, UnderTmp p path → resolves heap s.fs p.bytes stack inode = s.tree path) ∧
      ∀ kind p path stack inode, Makes s.tree p path →
        ∃ rc fs', MakeKind.run heap kind s.fs p.bytes stack inode = .ok (rc, fs') ∧ rc = s.tree.outcome path ∧
          (rc = 0 → ∃ id, (∀ q ftype, s.tree q ≠ some (id, ftype)) ∧
            resolves heap fs' p.bytes stack inode = some (id, kind.ftype)) ∧ (rc ≠ 0 → ∀ (q : CString) stack inode,
            resolves heap fs' q.bytes stack inode = resolves heap s.fs q.bytes stack inode) := by
  obtain ⟨boot, tracks⟩ := reachable_follows reachable
  refine ⟨fun p path stack inode under => resolves_underTmp boot tracks.represents under stack inode, ?_⟩
  intro kind _ _ stack inode makes
  obtain ⟨rc, tmp, run, equal, outcome⟩ := run_makes boot tracks makes kind stack inode
  refine ⟨rc, { s.fs with tmp := tmp }, run, equal, ?_, ?_⟩
  · intro succeeded
    obtain ⟨failed, -⟩ | ⟨-, id, new, keeps⟩ := outcome
    · exact absurd succeeded failed
    · exact ⟨id, new, resolves_made boot makes.under keeps stack inode⟩
  · intro failed q stack inode
    obtain ⟨-, keeps⟩ | ⟨succeeded, -⟩ := outcome
    · exact resolves_congr boot tracks.represents (.inr keeps.stores) q stack inode
    · exact absurd succeeded failed

theorem makes_tmpF : Makes (Tree.bare 1) tmpF [[0x66]] where
  under := ⟨rfl, by decide⟩
  named := by decide
  clear q leads proper := absurd (prefix_nil.mp leads) proper

theorem tmpfs_is_tree_tmpF : ∃ (s : History Unit) (id : Nat), (treeCalls counting).Reachable s ∧
    s.tree [[0x66]] = some (id, .regular) ∧
    ∀ stack inode, resolves counting s.fs tmpF.bytes stack inode = some (id, .regular) := by
  have start : (treeCalls counting).Reachable ⟨bootFs, Tree.bare 1⟩ :=
    .initial ⟨⟨running_bootFs.mounts, ⟨rfl, rfl, fun _ => rfl⟩⟩, rfl⟩
  obtain ⟨rc, _, run, equal, success, -⟩ :=
    (tmpfs_is_tree start).2 .creat tmpF [[0x66]] (fun _ => 0) anyFsInode makes_tmpF
  obtain rfl : rc = 0 := equal
  obtain ⟨id, -, made⟩ := success rfl
  have next := start.next (TreeStep.makes makes_tmpF run)
  rw [if_pos rfl, made] at next
  have there := update_self [[0x66]] (some (id, FileType.regular)) (Tree.bare 1)
  exact ⟨_, id, next, there, fun stack inode =>
    ((tmpfs_is_tree next).1 tmpF [[0x66]] stack inode makes_tmpF.under).trans there⟩

end Petix.Proof.Fs
