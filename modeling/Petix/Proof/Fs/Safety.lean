import Petix.Proof.Fs.Walk
import Petix.Proof.Tar.Lookup
import Petix.Proof.Tmpfs.ReadBack

namespace Petix.Proof.Fs
open Library Library.PathTree Kernel.Mounts Kernel.Vfs Spec.Mounts Spec.Lookup
open Kernel.Lookup hiding Fault
open Kernel.Tar (Initrd TarFs initrdOpen lookupAll)
open Kernel.Tmpfs (Heap)
open Spec.Tar (Entry Laid Opened LookedUp place)
open Proof.Tmpfs (counting)

variable {σ : Type} {heap : Heap} {image : Initrd} {entries : List Entry} {tree : Tree} {fs : FileSystems σ}
  {p p2 : List Byte} {stack : Buffer} {inode : Inode FsInst}

def answerIn (heap : Heap) (fs : FileSystems σ) (stack : Buffer) (inode : Inode FsInst) (way : FsInst × List Byte) :
    Except Kernel.Lookup.Fault (Int × Inode FsInst) :=
  (lookupIn heap fs stack inode way).map fun found => (found.1, found.2.1)

theorem mounts_eq (mounts : ∃ junk, kmainMounts junk = .ok fs.mounts) : fs.mounts = bootTree := by
  obtain ⟨junk, made⟩ := mounts
  exact (Except.ok.inj ((kmainMounts_eq junk).symm.trans made)).symm

theorem answer_boot (boot : fs.mounts = bootTree) (terminated : 0 ∉ p) (heap : Heap) (stack : Buffer)
    (inode : Inode FsInst) :
    answer heap fs p stack inode = ((route p).mapError .inMounts >>= answerIn heap fs stack inode) := by
  rw [answer, fsLookup_boot boot terminated]
  cases route p with
  | error fault => rfl
  | ok way => rfl

theorem tarLookupAll_laid (laid : Laid image 0 entries) (small : image.size < 2 ^ 31) (opened : Opened image fs.tar)
    (terminated : 0 ∉ p) (stack : Buffer) (inode : Inode FsInst) :
    ∃ ret inode' tar, tarLookupAll fs stack p inode = .ok (ret, inode', { fs with tar := tar }) ∧
      LookedUp .tarfs p (place 0 entries) inode ret inode' := by
  have enough : entries.length < headerCount := by
    have := Tar.laid_length laid
    rw [headerCount]
    omega
  obtain ⟨ret, inode', tar, run, -, found⟩ := Tar.lookupAllLoop_laid small
    (fun header => Tar.matches_named header terminated) .tarfs inode laid opened enough stack
  refine ⟨ret, inode', tar, ?_, found⟩
  rw [tarLookupAll, lookupAll, run]
  rfl

theorem answerIn_root (root : stripped p = []) :
    answerIn heap fs stack inode (.tarfs, p) = .ok (0, Kernel.Tar.getroot .tarfs inode) := by
  rw [stripped] at root
  rw [answerIn, lookupIn, lookupWhole, if_pos root]
  rfl

theorem answerIn_tarfs (named : stripped p ≠ []) : answerIn heap fs stack inode (.tarfs, p) =
    (tarLookupAll fs stack (stripped p) inode).map fun found => (found.1, found.2.1) := by
  rw [stripped] at named
  rw [answerIn, lookupIn, lookupWhole, if_neg named]
  rfl

theorem returns_tarfs (running : Running heap image entries tree fs) (terminated : 0 ∉ p2) :
    Returns (answerIn heap fs stack inode (.tarfs, p2)) := by
  by_cases root : stripped p2 = []
  · rw [answerIn_root root]
    exact ⟨0, _, rfl, .inl rfl⟩
  · obtain ⟨ret, inode', _, run, found⟩ := tarLookupAll_laid running.laid running.small running.opened
      (stripped_terminated terminated) stack inode
    rw [answerIn_tarfs root, run]
    refine ⟨ret, inode', rfl, ?_⟩
    rw [LookedUp] at found
    split at found
    · exact .inl found.1
    · rw [found.1]
      exact .inr (by decide)

theorem devLookupAll_returns (path : List Byte) (inode : Inode FsInst) :
    (devLookupAll path inode).1 = 0 ∨ (devLookupAll path inode).1 < 0 := by
  rw [devLookupAll]
  split_ifs
  case neg => exact .inr (show -ENOENT < 0 by decide)
  all_goals exact .inl rfl

theorem answerIn_devfs (p : List Byte) : answerIn heap fs stack inode (.devfs, p) =
    .ok (if stripped p = [] then (0, devGetroot inode) else devLookupAll (stripped p) inode) := by
  rw [answerIn, lookupIn, lookupWhole, stripped]
  split
  · rfl
  · rfl

theorem returns_devfs : Returns (answerIn heap fs stack inode (.devfs, p2)) := by
  rw [answerIn_devfs]
  split
  case isTrue => exact ⟨0, _, rfl, .inl rfl⟩
  case isFalse => exact ⟨_, _, rfl, devLookupAll_returns _ inode⟩

theorem returns_tmpfs_iff (represents : Represents heap fs.tmp tree) (terminated : 0 ∉ p2) :
    Returns (answerIn heap fs stack inode (.tmpfs, p2)) ↔ tree.Safe p2 := by
  obtain ⟨_, _, stores, run, meets⟩ := lookupEach_meets represents terminated
  rw [answerIn, lookupIn, run, Tree.Safe, ← stores_walk_blocked stores]
  cases ending : walk isDir tree [] (seen p2) with
  | found =>
    rw [ending] at meets
    obtain ⟨-, -, node, -, -, rfl⟩ := meets
    have there : tree (seen p2) ≠ none := (stores_walk_found stores).mp ending
    by_cases short : p2.length < pathMax
    · rw [decide_eq_true short]
      exact iff_of_true ⟨0, node.inode, rfl, .inl rfl⟩ ⟨nofun, .inl short⟩
    · rw [decide_eq_false short]
      refine iff_of_false ?_ fun safe => safe.2.elim short there
      rintro ⟨ret, inode', run, -⟩
      cases run
  | missing =>
    rw [ending] at meets
    obtain ⟨inode', rfl⟩ := meets
    have nothing : tree (seen p2) = none := by
      by_contra there
      cases ending.symm.trans ((stores_walk_found stores).mpr there)
    exact iff_of_true ⟨-ENOENT, inode', rfl, .inr (by decide)⟩ ⟨nofun, .inr nothing⟩
  | blocked =>
    rw [ending] at meets
    cases meets
    refine iff_of_false ?_ fun safe => safe.1 rfl
    rintro ⟨_, _, run, -⟩
    cases run

theorem fs_lookup_returns_iff (running : Running heap image entries tree fs) (p : CString) (stack : Buffer)
    (inode : Inode FsInst) : Returns (answer heap fs p.bytes stack inode) ↔ SafePath tree p.bytes := by
  have fails {fault : Kernel.Lookup.Fault} : ¬Returns (.error fault) := by
    rintro ⟨_, _, run, -⟩
    cases run
  rw [answer_boot (mounts_eq running.mounts) p.terminated, route, SafePath]
  cases seen p.bytes with
  | nil =>
    by_cases short : p.bytes.length < pathMax
    · simp only [short, if_true, iff_true]
      exact returns_tarfs running p.terminated
    · simp only [short, if_false, iff_false]
      exact fails
  | cons name more =>
    dsimp only
    cases mountOf name with
    | none => exact iff_of_true (returns_tarfs running p.terminated) trivial
    | some inst =>
      by_cases past : more = [] ∧ pathMax ≤ p.bytes.length
      · dsimp only
        rw [if_pos past]
        refine iff_of_false fails fun safe => ?_
        have := safe.1 past.1
        omega
      · have fits : more = [] → p.bytes.length < pathMax := fun empty => by
          by_contra long
          exact past ⟨empty, by omega⟩
        dsimp only
        rw [if_neg past, and_iff_right fits]
        cases inst with
        | tarfs => exact iff_of_true (returns_tarfs running (behind_terminated p.terminated)) (by simp)
        | devfs => exact iff_of_true returns_devfs (by simp)
        | tmpfs =>
          have terminated := behind_terminated p.terminated
          refine (returns_tmpfs_iff running.represents terminated).trans ?_
          exact ⟨fun safe _ => safe, fun safe => safe rfl⟩

theorem route_of_not_mem (long : pathMax ≤ p.length) (none : ∀ a ∈ p.take pathMax, a ≠ slash) :
    route p = .error .pastBuffer := by
  rw [route, seen, if_neg (by omega), upToLast_of_not_mem none]
  exact if_neg (by omega)

def anyFsInode : Inode FsInst := ⟨false, .dir, 0, 0, 0, .tarfs⟩

def bootFs : FileSystems Unit :=
  ⟨bootTree, initrdOpen Tar.hiImage, ⟨none, fun _ => none, 0, fun _ => anyFsInode, (), fun _ _ => 0⟩⟩

theorem running_bootFs : Running counting Tar.hiImage [Tar.oneFile [0x68, 0x69]] (Tree.bare 1) bootFs where
  mounts := ⟨.tarfs, kmainMounts_eq .tarfs⟩
  laid := Tar.laid_hiImage
  small := by decide
  opened := Tar.opened_initrdOpen Tar.hiImage
  represents := .inl ⟨⟨rfl, rfl, fun _ => rfl⟩, rfl⟩

def tmpF : CString := ⟨[0x2f, 0x74, 0x6d, 0x70, 0x2f, 0x66], by decide⟩

theorem fs_lookup_returns_tmpF : Returns (answer counting bootFs tmpF.bytes (fun _ => 0) anyFsInode) := by
  have safe : (Tree.bare 1).Safe (behind tmpF.bytes) := by
    refine ⟨?_, .inl (by decide)⟩
    rintro ⟨_, -, -, _, here, leaf⟩
    rw [List.nil_append, Tree.bare] at here
    split at here
    · cases here
      cases leaf
    · cases here
  exact (fs_lookup_returns_iff running_bootFs tmpF (fun _ => 0) anyFsInode).mpr ⟨by decide, fun _ => safe⟩

theorem fs_lookup_faults : (sysCreat counting bootFs tmpF.bytes (fun _ => 0) anyFsInode >>= fun made =>
        answer counting made.2 (tmpF.bytes ++ [0x2f, 0x78]) (fun _ => 0) anyFsInode) = .error (.inTmp .notDir) ∧
      answer counting bootFs (List.replicate pathMax 0x61) (fun _ => 0) anyFsInode =
        .error (.inMounts .pastBuffer) := by
  have letters : ∀ a ∈ List.replicate pathMax (0x61 : Byte), a = 0x61 := fun a => List.eq_of_mem_replicate
  have past : route (List.replicate pathMax 0x61) = .error .pastBuffer := by
    refine route_of_not_mem (by rw [List.length_replicate]) fun a member => ?_
    rw [letters a (List.mem_of_mem_take member)]
    decide
  refine ⟨rfl, ?_⟩
  rw [answer_boot rfl (fun zero => absurd (letters 0 zero) (by decide)), past]
  rfl

end Petix.Proof.Fs
