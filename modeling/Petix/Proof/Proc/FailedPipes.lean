import Petix.Proof.Proc.Operations
import Petix.Spec.FileCalls

namespace Petix.Proof.Proc
open Function Kernel Library Kernel.Pipes Kernel.Proc Kernel.Syscall
open Spec.Files Spec.Processes Spec.FileCalls Result

variable {k k' : State} {f : Nat} {p : Slot} {i : Fin 16} {call : Call}
variable {opened : State} {flags r w : Nat} {reply : FsReply} {ret : Int}

def Equipped (k : State) : Prop := ∀ f file, k.files f = some file → file.fops ≠ none

theorem Equipped.reuses (equipped : Equipped k) (reuses : Reuses k k') : Equipped k' := by
  intro f file' here
  obtain ⟨file, before, same⟩ := reuses f file' here
  rw [← same]
  exact equipped f file before

theorem Equipped.of_others (equipped : Equipped k) (others : ∀ g, g ≠ f → opened.files g = k.files g)
    (own : ∀ file, opened.files f = some file → file.fops ≠ none) : Equipped opened := by
  intro g file here
  by_cases same : g = f
  · subst same
    exact own file here
  · exact equipped g file ((others g same).symm.trans here)

theorem allocFd_none (call : allocFd k p = (none, k')) : k' = k ∧ ∀ i, slot k p i ≠ none := by
  unfold allocFd at call
  split at call
  · rename_i none_found
    cases call
    refine ⟨rfl, fun i => ?_⟩
    simpa [slot] using List.find?_eq_none.mp none_found i (List.mem_finRange i)
  · cases call

theorem allocFd_some (call : allocFd k p = (some i, k')) :
    slot k p i = none ∧ cells k' = update (cells k) (p, i) ⟨some k.nfiles, false⟩ ∧
      k'.files = update k.files k.nfiles (some ⟨none, none, 1⟩) ∧ k'.nfiles = k.nfiles + 1 := by
  unfold allocFd at call
  split at call
  · cases call
  · rename_i found
    cases call
    exact ⟨by simpa [slot] using List.find?_some found, cells_setFd _ p i _, rfl, rfl⟩

theorem setCloexec_cells (here : cells k (p, i) = ⟨some f, false⟩) :
    cells (if flags &&& oCloexec ≠ 0 then setCloexec k p i else k) =
        update (cells k) (p, i) ⟨some f, flags &&& oCloexec ≠ 0⟩ ∧
      (if flags &&& oCloexec ≠ 0 then setCloexec k p i else k).files = k.files := by
  have entry : (k.ptable p).fds i = ⟨some f, false⟩ := here
  split_ifs with flag
  · rw [setCloexec, cells_setFd, entry]
    simp [flag, State.setFd, State.setPcb]
  · have same : (⟨some f, decide (flags &&& oCloexec ≠ 0)⟩ : Fd) = cells k (p, i) := by simp [here, flag]
    rw [same, update_eq_self]
    exact ⟨rfl, rfl⟩

theorem fsOpen_files {flagged : State} (here : slot flagged p i = some f)
    (file : flagged.files f = some ⟨none, none, 1⟩) (call : fsOpen flagged p i reply = .ok opened) :
    cells opened = cells flagged ∧ (∀ g, g ≠ f → opened.files g = flagged.files g) ∧
      opened.files f = some ⟨if reply.stored then some .driver else none, none, 1⟩ := by
  obtain ⟨g, named, call⟩ := bind_ok call
  obtain rfl : f = g := Option.some.inj (here.symm.trans (deref_ok named))
  obtain ⟨_, there, call⟩ := bind_ok call
  cases file.symm.trans (deref_ok there)
  rw [← pure_ok call]
  cases reply.stored with
  | true => exact ⟨rfl, fun g other => update_of_ne other .., update_self ..⟩
  | false => exact ⟨rfl, fun _ _ => rfl, file⟩

inductive Opens (k : State) (p : Slot) (flags : Nat) (reply : FsReply) : State → Prop
  | refused : Opens k p flags reply k
  | made {i : Fin 16} {opened k' : State} (free : slot k p i = none)
      (put : cells opened = update (cells k) (p, i) ⟨some k.nfiles, flags &&& oCloexec ≠ 0⟩)
      (others : ∀ g, g ≠ k.nfiles → opened.files g = k.files g)
      (own : opened.files k.nfiles = some ⟨if reply.stored then some .driver else none, none, 1⟩)
      (last : 0 ≤ reply.opened ∧ k' = opened ∨ releaseFd opened p i = .ok k') : Opens k p flags reply k'

theorem sysOpen_opens (call : sysOpen k flags reply = .ok (ret, k')) :
    Opens k (pidOff k.curpid) flags reply k' := by
  obtain ⟨_, here, call⟩ := bind_ok call
  obtain ⟨rfl, -⟩ := current_found here
  split_ifs at call
  · cases pure_ok call
    exact .refused
  · cases alloc : allocFd k (pidOff k.curpid) with
    | mk fd allocated =>
      rw [alloc] at call
      cases fd with
      | none =>
        cases pure_ok call
        rw [(allocFd_none alloc).1]
        exact .refused
      | some i =>
        obtain ⟨free, put, files, -⟩ := allocFd_some alloc
        obtain ⟨_, fs, call⟩ := bind_ok call
        obtain ⟨stored, kept⟩ := setCloexec_cells (by rw [put, update_self])
        have named := (congrFun stored (pidOff k.curpid, i)).trans (update_self ..)
        obtain ⟨same, others, own⟩ := fsOpen_files (congrArg Fd.file named) (by rw [kept, files, update_self]) fs
        refine .made free (by rw [same, stored, put, update_idem]) (fun g other => ?_) own ?_
        · rw [others g other, kept, files, update_of_ne other]
        · split_ifs at call with failed
          · obtain ⟨_, release, call⟩ := bind_ok call
            cases pure_ok call
            exact .inr release
          · cases pure_ok call
            exact .inl ⟨Int.not_lt.mp failed, rfl⟩

theorem sysOpen_equipped (equipped : Equipped k)
    (consistent : 0 ≤ reply.opened → reply.stored = true) (call : sysOpen k flags reply = .ok (ret, k')) :
    Equipped k' := by
  cases sysOpen_opens call with
  | refused => exact equipped
  | @made i opened _ _ put others own last =>
    rcases last with ⟨fine, rfl⟩ | release
    · refine equipped.of_others others fun file present => ?_
      rw [own, consistent fine] at present
      cases present
      simp
    · have there := (congrFun put (pidOff k.curpid, i)).trans (update_self ..)
      have gone := releaseFd_last (congrArg Fd.file there) own rfl release
      intro g file present
      have other : g ≠ k.nfiles := by
        rintro rfl
        rw [gone] at present
        cases present
      obtain ⟨before, opened_before, same⟩ := (releaseFd_recounts release).reuses g file present
      rw [← same]
      exact equipped g before ((others g other).symm.trans opened_before)

theorem openPipe_files (call : openPipe k r w = .ok k') :
    k'.ptable = k.ptable ∧ (∀ f, f ≠ r → f ≠ w → k'.files f = k.files f) ∧
      ∀ f file, f = r ∨ f = w → k'.files f = some file → file.fops = some .pipe := by
  obtain ⟨_, -, call⟩ := bind_ok call
  obtain ⟨_, -, call⟩ := bind_ok call
  rw [← pure_ok call]
  refine ⟨rfl, ?_, ?_⟩
  · intro f other other'
    exact (update_of_ne other' ..).trans (update_of_ne other ..)
  · intro f _ either here
    by_cases same : f = w
    · subst same
      cases (update_self ..).symm.trans here
      rfl
    · obtain rfl := either.resolve_right same
      have first := (update_of_ne same ..).symm.trans here
      cases (update_self ..).symm.trans first
      rfl

theorem pipeInto_files {fd1 fd2 : Fin 16} (apart : (p, fd2) ≠ (p, fd1))
    (reading : cells k (p, fd1) = ⟨some r, false⟩) (writing : cells k (p, fd2) = ⟨some w, false⟩)
    (call : pipeInto k p fd1 fd2 flags = .ok k') :
    cells k' = update (update (cells k) (p, fd1) ⟨some r, flags &&& oCloexec ≠ 0⟩) (p, fd2)
        ⟨some w, flags &&& oCloexec ≠ 0⟩ ∧ (∀ f, f ≠ r → f ≠ w → k'.files f = k.files f) ∧
      ∀ f file, f = r ∨ f = w → k'.files f = some file → file.fops = some .pipe := by
  obtain ⟨r', named, call⟩ := bind_ok call
  obtain rfl : r = r' := Option.some.inj ((congrArg Fd.file reading).symm.trans (deref_ok named))
  obtain ⟨w', named', call⟩ := bind_ok call
  obtain rfl : w = w' := Option.some.inj ((congrArg Fd.file writing).symm.trans (deref_ok named'))
  obtain ⟨made, make, call⟩ := bind_ok call
  obtain ⟨ptable, others, own⟩ := openPipe_files make
  have same : cells made = cells k := by
    unfold cells
    rw [ptable]
  have nested : (if flags &&& oCloexec ≠ 0 then setCloexec (setCloexec made p fd1) p fd2 else made) =
      if flags &&& oCloexec ≠ 0 then setCloexec (if flags &&& oCloexec ≠ 0 then setCloexec made p fd1 else made) p fd2
      else if flags &&& oCloexec ≠ 0 then setCloexec made p fd1 else made := by
    split_ifs <;> rfl
  rw [← pure_ok call, nested]
  obtain ⟨first, files⟩ : _ ∧ (if flags &&& oCloexec ≠ 0 then setCloexec made p fd1 else made).files = _ :=
    setCloexec_cells (same ▸ reading)
  obtain ⟨second, files'⟩ := setCloexec_cells (by rw [first, update_of_ne apart, same, writing])
  rw [second, first, same, files', files]
  exact ⟨rfl, others, own⟩

inductive Piped (k : State) (p : Slot) (flags : Nat) : (Int × Option (Fin 16 × Fin 16)) × State → Prop
  | full : (∀ i, slot k p i ≠ none) → Piped k p flags ((-EMFILE, none), k)
  | leaks {k' : State} {i : Fin 16} {f : Nat} : slot k p i = none → (∀ j, slot k p j = none → j = i) →
      cells k' = update (cells k) (p, i) ⟨some f, false⟩ → Piped k p flags ((-EMFILE, none), k')
  | made {k' : State} {fd1 fd2 : Fin 16} {r w : Nat} : fd1 ≠ fd2 → slot k p fd1 = none → slot k p fd2 = none →
      cells k' = update (update (cells k) (p, fd1) ⟨some r, flags &&& oCloexec ≠ 0⟩) (p, fd2)
        ⟨some w, flags &&& oCloexec ≠ 0⟩ → (Equipped k → Equipped k') → Piped k p flags ((0, some (fd1, fd2)), k')

theorem sysPipe_piped {ret : Int × Option (Fin 16 × Fin 16)} (call : sysPipe k flags = .ok (ret, k')) :
    Piped k (pidOff k.curpid) flags (ret, k') := by
  obtain ⟨p, here, call⟩ := bind_ok call
  obtain ⟨rfl, -⟩ := current_found here
  generalize pidOff k.curpid = p at call ⊢
  cases alloc : allocFd k p with
  | mk fd first =>
    rw [alloc] at call
    cases fd with
    | none =>
      obtain ⟨same, full⟩ := allocFd_none alloc
      cases pure_ok call
      rw [same]
      exact .full full
    | some fd1 =>
      obtain ⟨free, put, files₁, -⟩ := allocFd_some alloc
      simp only at call
      cases alloc' : allocFd first p with
      | mk fd second =>
        rw [alloc'] at call
        cases fd with
        | none =>
          obtain ⟨same, full⟩ := allocFd_none alloc'
          cases pure_ok call
          refine .leaks free (fun j vacant => ?_) (same ▸ put)
          by_contra other
          apply full j
          have kept := congrFun put (p, j)
          rw [update_of_ne (by simpa using other)] at kept
          exact (congrArg Fd.file kept).trans vacant
        | some fd2 =>
          obtain ⟨free', put', files₂, -⟩ := allocFd_some alloc'
          obtain ⟨_, into, call⟩ := bind_ok call
          cases pure_ok call
          have apart : (p, fd2) ≠ (p, fd1) := by
            intro same
            have taken : (cells first (p, fd2)).file = none := free'
            rw [same, put, update_self] at taken
            cases taken
          obtain ⟨cells', others, own⟩ := pipeInto_files apart
            (by rw [put', update_of_ne apart.symm, put, update_self]) (by rw [put', update_self]) into
          refine .made (r := k.nfiles) (w := first.nfiles) (fun same => apart (same ▸ rfl)) free ?_ ?_ ?_
          · have kept := congrFun put (p, fd2)
            rw [update_of_ne apart] at kept
            exact (congrArg Fd.file kept).symm.trans free'
          · rw [cells', put', update_comm apart.symm, update_idem, put, update_comm apart, update_idem]
          intro equipped f file present
          by_cases new : f = k.nfiles ∨ f = first.nfiles
          · rw [own f file new present]
            simp
          · rw [not_or] at new
            rw [others f new.1 new.2, files₂, update_of_ne new.2, files₁, update_of_ne new.1] at present
            exact equipped f file present

theorem equipped_step (equipped : Equipped k) (step : (kernel.restrict Foreseen).step k call k') : Equipped k' := by
  obtain ⟨foreseen, step⟩ := step
  cases next_took step with
  | tick call => exact equipped.reuses (.of_files (sched_same call).files)
  | sysOpen _ call => exact sysOpen_equipped equipped foreseen call
  | sysClose _ call => exact equipped.reuses (sysClose_recounts call).reuses
  | sysDup2 _ call => exact equipped.reuses (sysDup2_recounts call).reuses
  | sysPipe _ call =>
    cases sysPipe_piped call with
    | full => exact equipped
    | leaks free only => exact absurd ⟨_, free, only⟩ foreseen
    | made _ _ _ _ keeps => exact keeps equipped
  | sysFork _ call => exact equipped.reuses (sysFork_reuses call)
  | sysExec _ call => exact equipped.reuses (sysExec_recounts call).reuses
  | sysExit _ call => exact equipped.reuses (sysExit_reuses call)
  | sysWaitpid _ call => exact equipped.reuses (.of_files (sysWaitpid_same call).files)
  | waitpidBlock => exact equipped.reuses (.of_files rfl)
  | waitpidReap _ call => exact equipped.reuses (.of_files (waitpidReap_same call).files)

theorem reachable_equipped (reachable : (kernel.restrict Foreseen).Reachable k) : Equipped k := by
  apply reachable.invariant
  · rintro _ rfl
    intro _ _ here
    cases here
  · exact fun _ _ _ => equipped_step

theorem Equipped.opsSet (equipped : Equipped k) (accounted : Accounted k) : OpsSet k := by
  intro _ _ f here
  obtain ⟨file, opened⟩ := accounted.balanced.counts.some_file (refs_pos here)
  obtain ⟨fops, stored⟩ := Option.ne_none_iff_exists'.mp (equipped f file opened)
  exact ⟨file, fops, opened, stored⟩

theorem withFile_safe {fd : Int} {use : File → Except FileCalls.Fault FileCalls.Reply} (ops : OpsSet k)
    (safe : ∀ file fops, file.fops = some fops → use file ≠ .error .nullFops) :
    FileCalls.withFile k fd use ≠ .error .nullFops := by
  unfold FileCalls.withFile
  cases getPcb k k.curpid with
  | none => simp [FileCalls.deref, bind, Except.bind]
  | some p =>
    simp only [FileCalls.deref, ok_bind]
    cases found : openFd k p fd with
    | none => simp [pure, Except.pure]
    | some i =>
      obtain ⟨⟨f, here⟩, -⟩ := openFd_some found
      obtain ⟨file, fops, opened, stored⟩ := ops p i f here
      have named : (((k.ptable p).fds i).file.bind k.files) = some file := by
        rw [show ((k.ptable p).fds i).file = some f from here, Option.bind_some, opened]
      simp only [named, ok_bind]
      exact safe file fops stored

theorem readFops_safe {file : File} {fops : FileOps} (stored : file.fops = some fops) :
    FileCalls.readFops file ≠ .error .nullFops := by
  simp [FileCalls.readFops, stored, FileCalls.deref, pure, Except.pure, bind, Except.bind]

theorem fileCall_safe (ops : OpsSet k) (fd : Int) (call : FileCalls.FileCall) :
    FileCalls.fileCall k fd call ≠ .error .nullFops := by
  have reads : FileCalls.withFile k fd FileCalls.readFops ≠ .error .nullFops :=
    withFile_safe ops fun file fops => readFops_safe
  cases call with
  | sysRead => exact reads
  | sysWrite => exact reads
  | sysIoctl => exact reads
  | sysGetdent notDir =>
    refine withFile_safe ops fun file fops stored => ?_
    split_ifs
    · simp
    · exact readFops_safe stored
  | sysMmap addr len =>
    rw [FileCalls.fileCall]
    split_ifs
    · simp
    · simp
    · exact reads

theorem pipe_fails_atomically_iff {fds : Option (Fin 16 × Fin 16)}
    (call : sysPipe k flags = .ok ((ret, fds), k')) :
    (ret < 0 → (k'.ptable (pidOff k.curpid)).fds = (k.ptable (pidOff k.curpid)).fds) ↔
      ¬ OneFree k (pidOff k.curpid) := by
  cases sysPipe_piped call with
  | full occupied =>
    refine iff_of_true (fun _ => rfl) ?_
    rintro ⟨i, free, -⟩
    exact occupied i free
  | @leaks _ i _ free only put =>
    refine iff_of_false ?_ (not_not_intro ⟨_, free, only⟩)
    intro same
    have taken : ((k'.ptable (pidOff k.curpid)).fds i).file = _ :=
      congrArg Fd.file ((congrFun put (pidOff k.curpid, i)).trans (update_self ..))
    rw [same (by decide)] at taken
    cases free.symm.trans taken
  | made apart free free' =>
    refine iff_of_true (fun negative => absurd negative (by decide)) ?_
    rintro ⟨_, -, only⟩
    exact apart ((only _ free).trans (only _ free').symm)

theorem failed_pipe_and_operations (k : State) (flags : Nat) :
    (∀ ret fds k', kernel.Reachable k → sysPipe k flags = .ok ((ret, fds), k') →
      ((ret < 0 → (k'.ptable (pidOff k.curpid)).fds = (k.ptable (pidOff k.curpid)).fds) ↔
        ¬ OneFree k (pidOff k.curpid))) ∧ ((kernel.restrict Foreseen).Reachable k →
      OpsSet k ∧ ∀ fd call, FileCalls.fileCall k fd call ≠ .error .nullFops) := by
  constructor
  · intro _ _ _ reachable call
    exact pipe_fails_atomically_iff call
  · intro reachable
    have ops := (reachable_equipped reachable).opsSet (reachable_accounted reachable.unrestrict)
    exact ⟨ops, fileCall_safe ops⟩

theorem failed_pipe_leaves_file : ∃ k k', kernel.Reachable k ∧ sysPipe k 0 = .ok ((-EMFILE, none), k') ∧
      slot k (pidOff k.curpid) 15 = none ∧ slot k' (pidOff k.curpid) 15 ≠ none ∧
      FileCalls.fileCall k' 15 .sysRead = .error .nullFops := by
  have run : ((List.replicate 7 (Call.sysPipe 0) ++ [Call.sysOpen 0 ⟨0, 0, 0, true, 0⟩]).foldlM advance initProc).bind
      (fun k => (sysPipe k 0).toOption.map fun r => (r.1, decide (slot k (pidOff k.curpid) 15 = none),
        decide (slot r.2 (pidOff k.curpid) 15 = none),
        decide (FileCalls.fileCall r.2 15 .sysRead = .error .nullFops))) =
      some ((-EMFILE, none), true, false, true) := by
    decide +kernel
  obtain ⟨k, computed, rest⟩ := Option.bind_eq_some_iff.mp run
  obtain ⟨⟨_, k'⟩, call, equal⟩ := Option.map_eq_some_iff.mp rest
  simp only [Prod.mk.injEq, decide_eq_true_eq, decide_eq_false_iff_not] at equal
  obtain ⟨rfl, free, taken, fault⟩ := equal
  exact ⟨k, k', System.Reachable.run advance_sound (.initial rfl) computed, ok_of_toOption call, free, taken, fault⟩

end Petix.Proof.Proc
