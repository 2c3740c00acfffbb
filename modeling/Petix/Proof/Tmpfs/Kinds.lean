import Petix.Library.Result
import Petix.Spec.OpenFiles

namespace Petix.Proof.Tmpfs
open Function Library Library.Result Kernel Kernel.OpenFiles Spec.OpenFiles
open Kernel.Vfs (Inode File Dirent)
open Kernel.Mounts (Buffer)
open Kernel.Lookup (FsInst)
open Kernel.Tmpfs (Heap)
open Kernel.Paging (Allocator)

variable {σ : Type} {A : Allocator σ} {heap : Heap} {out : Outside} {s s' : State σ} {process : Nat} {ret : Int}
variable {i : Fin 16} {fd err stop : Int} {tar tar' : Tar.TarFs} {d d' dent : Dirent} {behind flags count : Nat}
variable {inode : Inode FsInst} {g : OpenFile} {path : List Byte} {pages : Container.ItemList Paging.Frame}
variable {α β : Type}

def Proper (f : OpenFile) : Prop :=
  ∀ fs, f.fops = .regOps fs → f.file.inode.ftype = .regular ∨ f.file.inode.ftype = .dir

def AllProper (s : State σ) : Prop := ∀ process i f, s.fds process i = some f → Proper f

theorem AllProper.setFd (proper : AllProper s) {f : Option OpenFile} (new : ∀ g, f = some g → Proper g) :
    AllProper (s.setFd process i f) := by
  intro other j g here
  by_cases same : other = process
  · subst same
    simp only [State.setFd, update_self] at here
    by_cases equal : j = i
    · subst equal
      exact new g (by simpa using here)
    · rw [update_of_ne equal] at here
      exact proper other j g here
  · simp only [State.setFd, update_of_ne same] at here
    exact proper other j g here

theorem openFd_here {f : OpenFile} (opened : s.openFd process fd = some (i, f)) : s.fds process i = some f := by
  unfold State.openFd at opened
  split_ifs at opened
  obtain ⟨_, here, equal⟩ := Option.map_eq_some_iff.mp opened
  obtain ⟨rfl, rfl⟩ := Prod.mk.inj equal
  exact here

theorem AllProper.sameInode (proper : AllProper s) {f : OpenFile}
    (opened : s.openFd process fd = some (i, f)) {fs : Lookup.FileSystems σ} {file : File FsInst}
    (same : file.inode = f.file.inode) :
    AllProper ({ s with fs := fs }.setFd process i (some { f with file := file })) := by
  have kept : AllProper { s with fs := fs } := proper
  refine kept.setFd fun g equal ops held => ?_
  obtain rfl := Option.some.inj equal
  rw [same]
  exact proper process i f (openFd_here opened) ops held

theorem tread_inode {f f' : File FsInst} {buf buf' : Buffer} {n : Nat}
    (run : Tar.tread tar f buf n = .ok (ret, tar', f', buf')) : f'.inode = f.inode := by
  obtain ⟨⟨_, _, _⟩, -, run⟩ := bind_ok run
  cases run
  split_ifs <;> rfl

theorem getdentLoop_inode {name buf : Buffer} {f f' : File FsInst} {fuel blk : Nat}
    (run : Tar.getdentLoop name f d fuel tar blk buf = .ok (tar', f', d')) : f'.inode = f.inode := by
  induction fuel generalizing f tar blk buf with
  | zero => cases run
  | succ fuel ih =>
    obtain ⟨⟨_, _⟩, -, run⟩ := bind_ok run
    dsimp only at run
    split_ifs at run
    · cases run
      rfl
    · obtain ⟨child, -, run⟩ := bind_ok run
      cases child with
      | true =>
        obtain ⟨_, -, run⟩ := bind_ok run
        obtain ⟨blk₁, -, run⟩ := bind_ok run
        cases run
        rfl
      | false =>
        obtain ⟨_, -, run⟩ := bind_ok run
        have later := ih run
        exact later

theorem getdent_inode {f f' : File FsInst} {fuel : Nat} {name stack : Buffer}
    (run : Tar.getdent fuel tar f d name stack = .ok (ret, tar', f', d')) : f'.inode = f.inode := by
  unfold Tar.getdent at run
  split_ifs at run
  · cases run
    rfl
  · obtain ⟨⟨_, _⟩, -, run⟩ := bind_ok run
    obtain ⟨⟨_, _, _⟩, loop, run⟩ := bind_ok run
    cases run
    exact getdentLoop_inode loop

section
variable {tmp tmp' : Tmpfs.Tmpfs σ FsInst} {f f' : File FsInst} {buf buf' : Buffer} {n : Nat}

theorem tmpRead_inode (run : Tmpfs.tmpRead f buf n tmp = .ok (ret, f', buf')) : f'.inode = f.inode := by
  unfold Tmpfs.tmpRead at run
  split_ifs at run
  obtain ⟨_, -, run⟩ := bind_ok run
  obtain ⟨_, -, run⟩ := bind_ok run
  obtain ⟨_, -, run⟩ := bind_ok run
  exact congrArg (fun r => r.2.1.inode) (pure_ok run).symm

theorem tmpWrite_inode (run : Tmpfs.tmpWrite A f buf n tmp = .ok (ret, f', tmp')) : f'.inode = f.inode := by
  unfold Tmpfs.tmpWrite at run
  split_ifs at run
  obtain ⟨_, -, run⟩ := bind_ok run
  obtain ⟨_, -, run⟩ := bind_ok run
  obtain ⟨_, -, run⟩ := bind_ok run
  obtain ⟨_, -, run⟩ := bind_ok run
  exact congrArg (fun r => r.2.1.inode) (pure_ok run).symm

theorem tmpGetdent_inode (run : tmpGetdent tmp f d behind = .ok (ret, f', d')) : f'.inode = f.inode := by
  unfold tmpGetdent at run
  split_ifs at run
  obtain ⟨_, -, run⟩ := bind_ok run
  obtain ⟨map, -, run⟩ := bind_ok run
  dsimp only at run
  generalize (if map.buckets = 0 then 0 else realEntry map behind 0) = start at run
  split_ifs at run
  · cases run
    rfl
  · split at run
    · cases run
    · cases run
    · obtain ⟨_, -, run⟩ := bind_ok run
      cases run
      rfl

end

theorem vfsOpen_kind {fopen : Inode FsInst → File FsInst → File FsInst} (keeps : ∀ i f, (fopen i f).inode = f.inode)
    {f : File FsInst} (opened : 0 ≤ (Vfs.fsOpen fopen inode f flags).1) :
    (Vfs.fsOpen fopen inode f flags).2.inode.ftype = .regular ∨
      (Vfs.fsOpen fopen inode f flags).2.inode.ftype = .dir := by
  unfold Vfs.fsOpen at opened ⊢
  cases kind : inode.ftype with
  | regular =>
    simp only [kind] at opened ⊢
    split_ifs at opened ⊢
    · exact absurd (show (0 : Int) ≤ -Vfs.ENOTDIR from opened) (by decide)
    · exact .inl (by rw [keeps, kind])
  | dir =>
    simp only [kind] at opened ⊢
    split_ifs at opened ⊢
    · exact absurd (show (0 : Int) ≤ -Vfs.EISDIR from opened) (by decide)
    · exact .inr (by rw [keeps, kind])
  | special =>
    simp only [kind] at opened
    exact absurd opened (by decide)
  | link =>
    simp only [kind] at opened
    exact absurd opened (by decide)

theorem regOpen_proper {f : File FsInst} (run : regOpen inode f flags = (err, g)) (opened : 0 ≤ err) : Proper g := by
  intro fs _
  unfold regOpen at run
  cases inst : inode.fs with
  | tarfs =>
    simp only [inst] at run
    cases run
    exact @vfsOpen_kind _ _ Tar.topen (fun _ _ => rfl) f opened
  | tmpfs =>
    simp only [inst] at run
    cases run
    exact @vfsOpen_kind _ _ Tmpfs.tmpOpen (fun _ _ => rfl) f opened
  | devfs =>
    simp only [inst] at run
    cases run
    refine vfsOpen_kind (fun _ _ => rfl) ?_
    by_contra failed
    rw [if_pos (by omega)] at opened
    exact failed opened

theorem fsOpen_proper {f : File FsInst} (run : OpenFiles.fsOpen out inode f flags = .ok (err, g)) (opened : 0 ≤ err) :
    Proper g := by
  unfold OpenFiles.fsOpen at run
  cases kind : inode.ftype with
  | special =>
    simp only [kind] at run
    intro _ held
    split_ifs at run <;> cases run <;> cases held
  | link =>
    simp only [kind] at run
    cases run
  | regular =>
    simp only [kind] at run
    exact regOpen_proper (Except.ok.inj run) opened
  | dir =>
    simp only [kind] at run
    exact regOpen_proper (Except.ok.inj run) opened

section
variable (proper : AllProper s)
include proper

theorem sysOpen_proper (run : sysOpen heap out s process path flags = .ok (ret, s')) :
    AllProper s' := by
  obtain ⟨⟨_, _, fs⟩, -, run⟩ := bind_ok run
  have kept : AllProper { s with fs := fs } := proper
  dsimp only at run
  split_ifs at run
  · cases run
    exact kept
  · split at run
    · cases run
      exact kept
    · obtain ⟨⟨_, _⟩, opening, run⟩ := bind_ok run
      split_ifs at run with failed
      · cases run
        exact kept
      · cases run
        refine kept.setFd fun g equal => ?_
        obtain rfl := Option.some.inj equal
        exact fsOpen_proper opening (by omega)

theorem sysRead_proper {buf : Buffer}
    (run : sysRead out s process fd buf count = .ok (ret, s')) : AllProper s' := by
  unfold sysRead at run
  split at run
  · cases run
    exact proper
  · rename_i i f opened
    split at run
    · cases run
      exact proper
    · cases run
      exact proper
    · obtain ⟨⟨r, _, file, _⟩, reading, run⟩ := bind_ok run
      cases run
      exact proper.sameInode opened (tread_inode (mapError_ok reading))
    · obtain ⟨⟨_, _, _⟩, reading, run⟩ := bind_ok run
      cases run
      exact proper.sameInode opened (tmpRead_inode (mapError_ok reading))

theorem sysWrite_proper {buf : Buffer}
    (run : sysWrite A out s process fd buf count = .ok (ret, s')) : AllProper s' := by
  unfold sysWrite at run
  split at run
  · cases run
    exact proper
  · rename_i i f opened
    split at run
    · cases run
      exact proper
    · cases run
      exact proper
    · cases run
      exact proper
    · obtain ⟨⟨_, _, _⟩, writing, run⟩ := bind_ok run
      cases run
      exact proper.sameInode opened (tmpWrite_inode (mapError_ok writing))

theorem sysGetdent_proper (run : sysGetdent out s process fd dent = .ok (ret, s')) : AllProper
    s' := by
  unfold sysGetdent at run
  split at run
  · cases run
    exact proper
  · rename_i i f opened
    split_ifs at run
    · cases run
      exact proper
    · split at run
      · cases run
        exact proper
      · cases run
        exact proper.sameInode opened rfl
      · obtain ⟨⟨r, _, file, _⟩, reading, run⟩ := bind_ok run
        cases run
        exact proper.sameInode opened (getdent_inode (mapError_ok reading))
      · obtain ⟨⟨_, _, _⟩, reading, run⟩ := bind_ok run
        cases run
        exact proper.sameInode opened (tmpGetdent_inode (mapError_ok reading))

theorem step_proper {a : Action} (step : (openFiles A heap).step s a s') : AllProper s' := by
  obtain ⟨_, call, _⟩ := a
  obtain ⟨_, run⟩ := step
  cases call with
  | sysOpen path flags => exact sysOpen_proper proper run
  | sysCreat path =>
    obtain ⟨⟨r, fs⟩, -, run⟩ := bind_ok run
    cases run
    exact proper
  | sysMkdir path =>
    obtain ⟨⟨_, _⟩, -, run⟩ := bind_ok run
    cases run
    exact proper
  | sysRead fd buf count => exact sysRead_proper proper run
  | sysWrite fd buf count => exact sysWrite_proper proper run
  | sysGetdent fd dent => exact sysGetdent_proper proper run
  | sysClose fd =>
    simp only [next, sysClose] at run
    split at run
    · cases run
      exact proper
    · cases run
      exact proper.setFd nofun

end

theorem reachable_proper (reachable : (openFiles A heap).Reachable s) : AllProper s := by
  induction reachable with
  | initial start =>
    obtain ⟨-, -, -, -, closed⟩ := start
    intro _ _ _ here
    rw [closed] at here
    cases here
  | next _ step ih => exact step_proper ih step

section
variable {tmp : Tmpfs.Tmpfs σ FsInst} {f : File FsInst} {buf : Buffer} {n : Nat} {fault : Tmpfs.Fault}

theorem node_ne_error (other : fault ≠ .badNode) (addr : Nat) : tmp.node addr ≠ .error fault := by
  unfold Tmpfs.Tmpfs.node
  split
  · exact nofun
  · simpa using other.symm

theorem pages_ne_error (other : fault ≠ .badNode) (node : Tmpfs.TmpNode FsInst) : node.pages ≠ .error fault := by
  unfold Tmpfs.TmpNode.pages
  split
  · exact nofun
  · simpa using other.symm

theorem children_ne_error (other : fault ≠ .badNode) (node : Tmpfs.TmpNode FsInst) : node.children ≠ .error fault := by
  unfold Tmpfs.TmpNode.children
  split
  · exact nofun
  · simpa using other.symm

theorem readLoop_ne_notRegular {mem : Tmpfs.PageMemory} (fuel off pos : Nat) (buf : Buffer) : Tmpfs.readLoop pages mem
    stop fuel off pos buf ≠ .error .notRegular := by
  induction fuel generalizing off pos buf with
  | zero => exact nofun
  | succ fuel ih =>
    refine ite_ne_error ?_ nofun
    dsimp only
    split
    · exact nofun
    · exact ih _ _ _

theorem writeLoop_ne_notRegular (fuel off pos : Nat)
    (mem : Tmpfs.PageMemory) : Tmpfs.writeLoop pages buf stop fuel off pos mem ≠ .error .notRegular := by
  induction fuel generalizing off pos mem with
  | zero => exact nofun
  | succ fuel ih =>
    refine ite_ne_error ?_ nofun
    dsimp only
    split
    · exact nofun
    · exact ih _ _ _

theorem growPages_ne_notRegular (count : Nat) (pages : Container.ItemList Paging.Frame) (frames : σ) :
    Tmpfs.growPages A count pages frames ≠ .error .notRegular := by
  induction count generalizing pages frames with
  | zero => exact nofun
  | succ count ih =>
    rw [Tmpfs.growPages]
    split
    · exact nofun
    · exact ih _ _

theorem tmpRead_asserts_iff : Tmpfs.tmpRead f buf n tmp = .error .notRegular ↔ f.inode.ftype ≠ .regular := by
  constructor
  · intro failed regular
    rw [Tmpfs.tmpRead, if_neg (not_not.mpr regular)] at failed
    refine bind_ne_error (node_ne_error (by decide) _) (fun node => ?_) failed
    refine bind_ne_error (pages_ne_error (by decide) _) fun pages => ?_
    exact bind_ne_error (readLoop_ne_notRegular _ _ _ _) fun _ => nofun
  · exact fun other => if_pos other

theorem tmpWrite_asserts_iff : Tmpfs.tmpWrite A f buf n tmp = .error .notRegular ↔ f.inode.ftype ≠ .regular := by
  constructor
  · intro failed regular
    rw [Tmpfs.tmpWrite, if_neg (not_not.mpr regular)] at failed
    refine bind_ne_error (node_ne_error (by decide) _) (fun node => ?_) failed
    refine bind_ne_error (pages_ne_error (by decide) _) fun pages => ?_
    refine bind_ne_error (growPages_ne_notRegular _ _ _) fun grown => ?_
    exact bind_ne_error (writeLoop_ne_notRegular _ _ _ _) fun _ => nofun
  · exact fun other => if_pos other

theorem tmpGetdent_asserts {d : Dirent} (directory : f.inode.ftype = .dir) :
    tmpGetdent tmp f d behind ≠ .error .notDir := by
  rw [tmpGetdent, if_neg (not_not.mpr directory)]
  refine bind_ne_error (node_ne_error (by decide) _) fun node => ?_
  refine bind_ne_error (children_ne_error (by decide) _) fun map => ite_ne_error nofun ?_
  split
  · exact nofun
  · exact nofun
  · exact bind_ne_error (node_ne_error (by decide) _) fun _ => nofun

end

def Spared {α : Type} (x : Except OpenFiles.Fault α) : Prop := ∀ fault, KindAssertion fault → x ≠ .error fault

theorem Spared.bind {x : Except OpenFiles.Fault α} {f : α → Except OpenFiles.Fault β} (first : Spared x)
    (rest : ∀ a, Spared (f a)) : Spared (x >>= f) := fun fault kind =>
  bind_ne_error (first fault kind) fun a => rest a fault kind

theorem Spared.ite {p : Prop} [Decidable p] {x y : Except OpenFiles.Fault α} (yes : Spared x)
    (no : Spared y) : Spared (if p then x else y) := fun fault kind =>
  ite_ne_error (yes fault kind) (no fault kind)

theorem spared_ok (a : α) : Spared (.ok a) := fun _ _ => nofun

theorem spared_mapError {ε α : Type} {x : Except ε α} {f : ε → OpenFiles.Fault} (other : ∀ e, ¬ KindAssertion (f e)) :
    Spared (x.mapError f) := by
  intro _ kind failed
  obtain ⟨e, -, rfl⟩ := mapError_error failed
  exact other e kind

theorem sysOpen_spared : Spared (sysOpen heap out s process path flags) := by
  have looks (fs : Lookup.FileSystems σ) : Spared (OpenFiles.lookup heap out fs path) := spared_mapError fun _ => id
  refine .bind ?_ fun found => .ite (spared_ok _) ?_
  · refine .bind (looks _) fun found => .ite (.ite ?_ (spared_ok _)) (spared_ok _)
    exact .bind (spared_mapError fun _ => id) fun made => .ite (spared_ok _) (looks _)
  · split
    · exact spared_ok _
    · refine .bind ?_ fun opened => .ite (spared_ok _) (spared_ok _)
      unfold OpenFiles.fsOpen
      split
      · exact .ite (spared_ok _) (.ite (spared_ok _) (spared_ok _))
      · exact spared_ok _
      · exact spared_ok _
      · rintro - kind ⟨⟩
        exact kind

theorem asserts_iff (proper : AllProper s) {x : Except OpenFiles.Fault (Int × State σ)}
    (other : ∀ i f, s.openFd process fd = some (i, f) → f.fops ≠ .regOps .tmpfs → Spared x)
    (shut : s.openFd process fd = none → Spared x)
    (checks : ∀ i file, s.openFd process fd = some (i, ⟨.regOps .tmpfs, file⟩) →
      ((∃ fault, KindAssertion fault ∧ x = .error fault) ↔ file.inode.ftype ≠ .regular)) :
    (∃ fault, KindAssertion fault ∧ x = .error fault) ↔ TmpDirectory s process fd := by
  constructor
  · rintro ⟨fault, kind, failed⟩
    cases opened : s.openFd process fd with
    | none => exact absurd failed (shut opened fault kind)
    | some found =>
      obtain ⟨i, fops, file⟩ := found
      by_cases tmpfs : fops = .regOps .tmpfs
      · subst tmpfs
        have irregular := (checks i file opened).mp ⟨fault, kind, failed⟩
        refine ⟨i, file, opened, ?_⟩
        exact (proper process i _ (openFd_here opened) .tmpfs rfl).resolve_left irregular
      · exact absurd failed (other i _ opened tmpfs fault kind)
  · rintro ⟨i, file, opened, directory⟩
    exact (checks i file opened).mpr (by rw [directory]; decide)

theorem wrapped_asserts_iff {x : Except Tmpfs.Fault α} {wrap : Tmpfs.Fault → OpenFiles.Fault} {f : α → β}
    (kinds : ∀ e, KindAssertion (wrap e) ↔ e = .notRegular) :
    (∃ fault, KindAssertion fault ∧ (do return f (← x.mapError wrap)) = .error fault) ↔ x = .error .notRegular := by
  constructor
  · rintro ⟨_, kind, failed⟩
    rcases bind_error failed with failed | ⟨_, -, failed⟩
    · obtain ⟨e, cause, rfl⟩ := mapError_error failed
      rw [cause, (kinds e).mp kind]
    · cases failed
  · rintro rfl
    exact ⟨wrap .notRegular, (kinds _).mpr rfl, rfl⟩

theorem sysRead_asserts_iff (proper : AllProper s) {buf : Buffer} :
    (∃ fault, KindAssertion fault ∧ sysRead out s process fd buf count = .error fault) ↔ TmpDirectory s process fd := by
  refine asserts_iff proper (fun i f opened notTmpfs => ?_) (fun shut => ?_) fun i file opened => ?_
  · unfold sysRead
    rw [opened]
    dsimp only
    split
    · exact spared_ok _
    · exact spared_ok _
    · exact .bind (spared_mapError fun _ => id) fun _ => spared_ok _
    · contradiction
  · unfold sysRead
    rw [shut]
    exact spared_ok _
  · rw [← @tmpRead_asserts_iff σ s.fs.tmp file buf count]
    unfold sysRead
    rw [opened]
    exact wrapped_asserts_iff fun e => by cases e <;> simp [KindAssertion]

theorem sysWrite_asserts_iff (proper : AllProper s) {buf : Buffer} :
    (∃ fault, KindAssertion fault ∧ sysWrite A out s process fd buf count = .error fault) ↔
      TmpDirectory s process fd := by
  refine asserts_iff proper (fun i f opened notTmpfs => ?_) (fun shut => ?_) fun i file opened => ?_
  · unfold sysWrite
    rw [opened]
    dsimp only
    split
    · exact spared_ok _
    · exact spared_ok _
    · exact spared_ok _
    · contradiction
  · unfold sysWrite
    rw [shut]
    exact spared_ok _
  · rw [← @tmpWrite_asserts_iff σ A s.fs.tmp file buf count]
    unfold sysWrite
    rw [opened]
    exact wrapped_asserts_iff fun e => by cases e <;> simp [KindAssertion]

theorem sysGetdent_spared : Spared (sysGetdent out s process fd dent) := by
  unfold sysGetdent
  split
  · exact spared_ok _
  · rename_i i f opened
    by_cases directory : f.file.inode.ftype = .dir
    · rw [if_neg (not_not.mpr directory)]
      split
      · exact spared_ok _
      · exact spared_ok _
      · exact .bind (spared_mapError fun _ => id) fun _ => spared_ok _
      · refine .bind (fun fault kind failed => ?_) fun _ => spared_ok _
        obtain ⟨e, cause, rfl⟩ := mapError_error failed
        cases e with
        | notDir => exact tmpGetdent_asserts directory cause
        | notRegular | pastList | outOfPages | badNode | endless | inMap => exact kind
    · rw [if_pos directory]
      exact spared_ok _

theorem kind_assertion_fails_iff (reachable : (openFiles A heap).Reachable s) (a : Action) :
    (∃ fault, KindAssertion fault ∧ next A heap a.out s a.process a.call = .error fault) ↔ ReadsDirectory s a := by
  have proper := reachable_proper reachable
  have never {x : Except OpenFiles.Fault (Int × State σ)} (spared : Spared x) :
      (∃ fault, KindAssertion fault ∧ x = .error fault) ↔ False :=
    iff_false_intro fun ⟨fault, kind, failed⟩ => spared fault kind failed
  obtain ⟨-, call, -⟩ := a
  cases call with
  | sysOpen path flags => exact never sysOpen_spared
  | sysCreat path => exact never (.bind (spared_mapError fun _ => id) fun _ => spared_ok _)
  | sysMkdir path => exact never (.bind (spared_mapError fun _ => id) fun _ => spared_ok _)
  | sysRead fd buf count => exact sysRead_asserts_iff proper
  | sysWrite fd buf count => exact sysWrite_asserts_iff proper
  | sysGetdent fd dent => exact never sysGetdent_spared
  | sysClose fd => exact never (spared_ok _)

def noPages : Allocator Unit where
  allocPage _ := none
  freePage _ _ := none
  allocated _ _ := False
  nonzero := nofun
  mapped := nofun
  fresh := nofun
  alloc_iff := nofun
  free_some := nofun
  free_iff := nofun

def plainHeap : Heap := ⟨fun k => k + 1, fun _ _ equal => Nat.succ.inj equal, fun k => k.succ_ne_zero⟩

def noInode : Inode FsInst := ⟨false, .regular, 0, 0, 0, .tarfs⟩

def plainOutside : Outside := ⟨false, 0, fun _ => 0, noInode, 0⟩

def booted : State Unit where
  fs := ⟨(Lookup.kmainMounts .tarfs).toOption.getD ⟨false, .tarfs, .null⟩, ⟨⟨0, fun _ => 0, by decide⟩, 0, 0⟩,
    ⟨none, fun _ => none, 0, fun _ => noInode, (), fun _ _ => 0⟩⟩
  fds := fun _ _ => none

theorem booted_reachable : (openFiles noPages plainHeap).Reachable booted := by
  refine .initial ⟨⟨.tarfs, ?_⟩, rfl, rfl, fun _ => rfl, fun _ _ => rfl⟩
  have made : (Lookup.kmainMounts .tarfs).toOption.isSome = true := by decide +kernel
  obtain ⟨_, equal⟩ := Option.isSome_iff_exists.mp made
  rw [booted, equal]
  exact ok_of_toOption equal

def openTmp : Action := ⟨0, .sysOpen [0x2f, 0x74, 0x6d, 0x70] 1, plainOutside⟩

def readZero : Action := ⟨0, .sysRead 0 (fun _ => 0) 1, plainOutside⟩

theorem kind_assertion_fails_booted :
    ¬ ∃ fault, KindAssertion fault ∧ next noPages plainHeap readZero.out booted readZero.process readZero.call =
      .error fault := by
  rw [kind_assertion_fails_iff booted_reachable readZero]
  rintro ⟨_, _, opened, -⟩
  cases opened

theorem read_of_directory_halts : ∃ s, (openFiles noPages plainHeap).Reachable s ∧
      next noPages plainHeap readZero.out s readZero.process readZero.call = .error (.tmpRead .notRegular) ∧
      KindAssertion (.tmpRead .notRegular) := by
  have computed : (next noPages plainHeap openTmp.out booted openTmp.process openTmp.call).toOption.bind (fun r =>
      (r.2.openFd 0 0).map fun f => (f.2.fops, f.2.file.inode.ftype)) = some (.regOps .tmpfs, .dir) := by
    decide +kernel
  obtain ⟨⟨ret, s⟩, opening, found⟩ := Option.bind_eq_some_iff.mp computed
  obtain ⟨⟨_, _, file⟩, opened, equal⟩ := Option.map_eq_some_iff.mp found
  obtain ⟨rfl, directory⟩ := Prod.mk.inj equal
  have halts : Tmpfs.tmpRead file (fun _ => 0) 1 s.fs.tmp = .error .notRegular :=
    tmpRead_asserts_iff.mpr (by rw [directory]; decide)
  refine ⟨s, booted_reachable.next (a := openTmp) ⟨ret, ok_of_toOption opening⟩, ?_, trivial⟩
  simp only [next, readZero, sysRead, opened, halts]
  rfl

end Petix.Proof.Tmpfs
