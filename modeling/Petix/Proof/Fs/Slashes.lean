import Petix.Proof.Fs.Safety

namespace Petix.Proof.Fs
open Library Kernel.Mounts Kernel.Vfs Spec.Mounts Spec.Lookup
open Kernel.Lookup hiding Fault
open Kernel.Container (strcmp)
open Kernel.Tar (Initrd lookupAll)
open Kernel.Tmpfs (Heap)
open Spec.Tar (Entry LookedUp firstNamed place)
open Proof.Tmpfs (counting)

variable {σ : Type} {heap : Heap} {image : Initrd} {entries : List Entry} {tree : Tree} {fs : FileSystems σ}
  {p q : List Byte} {stack : Buffer} {inode : Inode FsInst} {name : Name}

theorem tarfs_alike_iff (running : Running heap image entries tree fs) (terminated : 0 ∉ p) (terminated' : 0 ∉ q)
    (named : stripped p ≠ []) (named' : stripped q ≠ []) :
    answerIn heap fs stack inode (.tarfs, p) = answerIn heap fs stack inode (.tarfs, q) ↔
      firstNamed (stripped p) (place 0 entries) = firstNamed (stripped q) (place 0 entries) := by
  have ends := stripped_terminated terminated
  have ends' := stripped_terminated terminated'
  rw [answerIn_tarfs named, answerIn_tarfs named']
  constructor
  · intro same
    obtain ⟨_, _, _, run, found⟩ :=
      tarLookupAll_laid running.laid running.small running.opened ends stack inode
    obtain ⟨_, _, _, run', found'⟩ :=
      tarLookupAll_laid running.laid running.small running.opened ends' stack inode
    rw [run, run'] at same
    obtain ⟨rfl, rfl⟩ := Prod.mk.inj (Except.ok.inj same)
    exact Tar.firstNamed_eq_of_lookedUp found found'
  · intro same
    rw [tarLookupAll, tarLookupAll, lookupAll, lookupAll,
      Tar.lookupAllLoop_congr running.small ends ends' .tarfs inode running.laid running.opened same stack]

def deviceTable : List (List Byte × Nat) :=
  [(vgatty, mkdev devVgatty 0), (comtty, mkdev devComtty 0), (fb, mkdev devFb 0), (fbtty, mkdev devFbtty 0)]

theorem devLookupAll_eq (terminated : 0 ∉ p) (inode : Inode FsInst) : devLookupAll p inode =
    let inode := { inode with exec := false, ftype := .special, fs := .devfs, inodeId := 1 }
    match deviceTable.lookup p with
    | some dev => (0, { inode with dev := dev })
    | none => (-ENOENT, inode) := by
  have named {name : List Byte} (ends : 0 ∉ name) : strcmp p name = 0 ↔ (p == name) = true := by
    rw [Container.strcmp_eq_zero terminated ends, beq_iff_eq]
  simp only [devLookupAll, deviceTable, List.lookup_cons, List.lookup_nil, named (show 0 ∉ vgatty by decide),
    named (show 0 ∉ comtty by decide), named (show 0 ∉ fb by decide), named (show 0 ∉ fbtty by decide)]
  cases p == vgatty with
  | true => rfl
  | false =>
    cases p == comtty with
    | true => rfl
    | false =>
      cases p == fb with
      | true => rfl
      | false =>
        cases p == fbtty with
        | true => rfl
        | false => rfl

theorem lookup_deviceTable_none : deviceTable.lookup p = none ↔ p ∉ devices := by
  rw [List.lookup_eq_none_iff, show devices = deviceTable.map Prod.fst from rfl, List.mem_map, not_exists]
  refine forall_congr' fun entry => ?_
  rw [not_and, bne_iff_ne, ne_comm]

theorem mem_deviceTable {n : Nat} (found : deviceTable.lookup p = some n) : (p, n) ∈ deviceTable := by
  obtain ⟨_, _, whole, -⟩ := List.lookup_eq_some_iff.mp found
  rw [whole]
  exact List.mem_append_right _ (.head _)

theorem devLookupAll_alike_iff (terminated : 0 ∉ p) (terminated' : 0 ∉ q) :
    devLookupAll p inode = devLookupAll q inode ↔ p = q ∨ p ∉ devices ∧ q ∉ devices := by
  rw [devLookupAll_eq terminated, devLookupAll_eq terminated', ← lookup_deviceTable_none, ← lookup_deviceTable_none]
  have distinct : ∀ x ∈ deviceTable, ∀ y ∈ deviceTable, x.2 = y.2 → x.1 = y.1 := by decide
  cases found : deviceTable.lookup p with
  | none =>
    cases found' : deviceTable.lookup q with
    | none => exact iff_of_true rfl (.inr ⟨rfl, rfl⟩)
    | some n =>
      refine iff_of_false (fun equal => ?_) ?_
      · cases congrArg Prod.fst equal
      · rintro (rfl | ⟨-, ⟨⟩⟩)
        cases found.symm.trans found'
  | some n =>
    cases found' : deviceTable.lookup q with
    | none =>
      refine iff_of_false (fun equal => ?_) ?_
      · cases congrArg Prod.fst equal
      · rintro (rfl | ⟨⟨⟩, -⟩)
        cases found.symm.trans found'
    | some n' =>
      constructor
      · intro equal
        have numbers : n = n' := congrArg (fun found : Int × Inode FsInst => found.2.dev) equal
        exact .inl (distinct _ (mem_deviceTable found) _ (mem_deviceTable found') numbers)
      · rintro (rfl | ⟨⟨⟩, -⟩)
        cases found.symm.trans found'
        rfl

theorem devfs_alike_iff (terminated : 0 ∉ p) (terminated' : 0 ∉ q) (same : components p = components q) :
    answerIn heap fs stack inode (.devfs, p) = answerIn heap fs stack inode (.devfs, q) ↔
      stripped p = stripped q ∨ stripped p ∉ devices ∧ stripped q ∉ devices := by
  rw [answerIn_devfs, answerIn_devfs, Except.ok.injEq]
  by_cases root : components p = []
  · have empty : stripped p = [] := stripped_eq_nil.mpr root
    have empty' : stripped q = [] := stripped_eq_nil.mpr (same ▸ root)
    rw [empty, empty']
    exact iff_of_true rfl (.inl rfl)
  · have named : stripped p ≠ [] := mt stripped_eq_nil.mp root
    have named' : stripped q ≠ [] := mt stripped_eq_nil.mp (same ▸ root)
    rw [if_neg named, if_neg named']
    exact devLookupAll_alike_iff (stripped_terminated terminated) (stripped_terminated terminated')

theorem tmpfs_alike (running : Running heap image entries tree fs) (terminated : 0 ∉ p) (terminated' : 0 ∉ q)
    (short : p.length < pathMax) (short' : q.length < pathMax) (same : components p = components q) :
    answerIn heap fs stack inode (.tmpfs, p) = answerIn heap fs stack inode (.tmpfs, q) := by
  obtain ⟨_, -, _, getroot, -⟩ := represents_getroot running.represents
  rw [answerIn, answerIn, lookupIn, lookupIn, lookupEach_eq getroot terminated, lookupEach_eq getroot terminated',
    seen, seen, if_pos short, if_pos short', same, decide_eq_true short, decide_eq_true short']

theorem mountOf_ne_tarfs (name : Name) : mountOf name ≠ some .tarfs := by
  rw [mountOf]
  split_ifs <;> simp

theorem route_short (short : p.length < pathMax) : route p = .ok (match components p with
    | [] => (.tarfs, p)
    | name :: _ => match mountOf name with
        | none => (.tarfs, p)
        | some inst => (inst, behind p)) := by
  rw [route, seen, if_pos short]
  cases components p with
  | nil => exact if_pos short
  | cons name more =>
    dsimp only
    cases mountOf name with
    | none => rfl
    | some inst => exact if_neg fun past => by omega

theorem fs_lookup_alike_iff (running : Running heap image entries tree fs) (p q : CString)
    (short : p.bytes.length < pathMax) (short' : q.bytes.length < pathMax)
    (same : components p.bytes = components q.bytes) (stack : Buffer) (inode : Inode FsInst) :
    answer heap fs p.bytes stack inode = answer heap fs q.bytes stack inode ↔ Alike entries p.bytes q.bytes := by
  have boot := mounts_eq running.mounts
  rw [answer_boot boot p.terminated, answer_boot boot q.terminated, route_short short,
    route_short short', Alike, ← same]
  change answerIn _ _ _ _ _ = answerIn _ _ _ _ _ ↔ _
  cases first : components p.bytes with
  | nil =>
    have first' : components q.bytes = [] := same ▸ first
    rw [answerIn_root (stripped_eq_nil.mpr first), answerIn_root (stripped_eq_nil.mpr first')]
    exact iff_of_true rfl trivial
  | cons name more =>
    have named {p : List Byte} (some : components p = name :: more) : stripped p ≠ [] := by
      rw [Ne, stripped_eq_nil, some]
      exact List.cons_ne_nil _ _
    have first' : components q.bytes = name :: more := same ▸ first
    have terminated := behind_terminated p.terminated
    have terminated' := behind_terminated q.terminated
    have same' : components (behind p.bytes) = components (behind q.bytes) := by
      rw [components_behind first, components_behind first']
    dsimp only
    cases mount : mountOf name with
    | none => exact tarfs_alike_iff running p.terminated q.terminated (named first) (named first')
    | some inst =>
      cases inst with
      | tarfs => exact absurd mount (mountOf_ne_tarfs name)
      | devfs => exact devfs_alike_iff terminated terminated' same'
      | tmpfs =>
        refine iff_of_true ?_ trivial
        exact tmpfs_alike running terminated terminated' ((length_behind _).trans_lt short)
          ((length_behind _).trans_lt short') same'

def devFbPath : CString := ⟨slash :: dev ++ slash :: fb, by decide⟩

def devFbSlashes : CString := ⟨slash :: slash :: dev ++ slash :: slash :: fb, by decide⟩

theorem fs_lookup_alike_fb : answer counting bootFs devFbPath.bytes (fun _ => 0) anyFsInode =
      answer counting bootFs devFbSlashes.bytes (fun _ => 0) anyFsInode :=
  (fs_lookup_alike_iff running_bootFs devFbPath devFbSlashes (by decide) (by decide) rfl (fun _ => 0) anyFsInode).mpr
    (.inl rfl)

theorem fs_lookup_trailing_slash : components devFbPath.bytes = components (devFbPath.bytes ++ [slash]) ∧
      (answer counting bootFs devFbPath.bytes (fun _ => 0) anyFsInode).map Prod.fst = .ok 0 ∧
      (answer counting bootFs (devFbPath.bytes ++ [slash]) (fun _ => 0) anyFsInode).map Prod.fst = .ok (-ENOENT) ∧
      components [slash, 0x66] = components [slash, 0x66, slash] ∧
      (answer counting bootFs [slash, 0x66] (fun _ => 0) anyFsInode).map Prod.fst = .ok 0 ∧
      (answer counting bootFs [slash, 0x66, slash] (fun _ => 0) anyFsInode).map Prod.fst = .ok (-ENOENT) :=
  ⟨rfl, rfl, rfl, rfl, rfl, rfl⟩

end Petix.Proof.Fs
