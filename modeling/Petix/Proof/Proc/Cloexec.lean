import Petix.Proof.Proc.FailedPipes
import Petix.Spec.Cloexec

namespace Petix.Proof.Proc
open Function Library Kernel.Proc Kernel.Syscall
open Spec.Files Spec.FileCalls Spec.Cloexec Result

variable {k k' : State} {p : Slot} {i : Fin 16} {flags : Nat} {fd : Fd} {o : Origin} {call : Call} {s s' : Traced}
variable {before after : Slot × Fin 16 → Fd} {origin : Slot × Fin 16 → Origin}
variable {f : Nat}

theorem SameFiles.cells_eq (same : SameFiles k k') : cells k' = cells k := by
  funext c
  exact congrFun (same.fds c.1) c.2

theorem pclose_cells (call : pclose k f = .ok k') : cells k' = cells k := by
  obtain ⟨file, -, call⟩ := bind_ok call
  cases data : file.privateData with
  | none =>
    simp only [data] at call
    rw [pure_ok call]
  | some ends =>
    simp only [data] at call
    obtain ⟨_, -, call⟩ := bind_ok call
    obtain ⟨woken, woke, call⟩ := bind_ok call
    have same : cells woken = cells k := (wake_same woke).cells_eq
    split_ifs at call
    · exact pure_ok call ▸ same
    · exact pure_ok call ▸ same

theorem dropFile_cells {file : File} (call : dropFile k f file = .ok k') : cells k' = cells k := by
  unfold dropFile at call
  split_ifs at call
  · obtain ⟨closed, close, call⟩ := bind_ok call
    have same : cells closed = cells k := (pclose_cells close).trans rfl
    exact pure_ok call ▸ same
  · exact pure_ok call ▸ rfl
  · rw [Except.ok.inj call]

theorem releaseFd_cells (call : releaseFd k p i = .ok k') : cells k' = update (cells k) (p, i) ⟨none, false⟩ := by
  obtain ⟨_, -, call⟩ := bind_ok call
  obtain ⟨_, -, call⟩ := bind_ok call
  obtain ⟨_, -, call⟩ := bind_ok call
  obtain ⟨_, drop, call⟩ := bind_ok call
  rw [← pure_ok call, cells_setFd, dropFile_cells drop]
  rfl

def Cleared (before : Slot × Fin 16 → Fd) : Prop := ∀ c, (before c).file = none → before c = ⟨none, false⟩

theorem Cleared.release (cleared : Cleared before) (c : Slot × Fin 16) : Cleared (update before c ⟨none, false⟩) := by
  intro d
  by_cases same : d = c
  · rw [same, update_self]
    exact fun _ => rfl
  · rw [update_of_ne same]
    exact cleared d

theorem releaseOpenFd_cells (cleared : Cleared (cells k)) (call : releaseOpenFd k p i = .ok k') :
    cells k' = update (cells k) (p, i) ⟨none, false⟩ := by
  unfold releaseOpenFd at call
  split_ifs at call with free
  · rw [← Except.ok.inj call, ← cleared (p, i) free, update_eq_self]
  · exact releaseFd_cells call

theorem execLoop_cells {fds : List (Fin 16)} (cleared : Cleared (cells k))
    (run : fds.foldlM (fun k i => if ((k.ptable p).fds i).cloexec then releaseOpenFd k p i else .ok k) k = .ok k')
    (c : Slot × Fin 16) :
    cells k' c = if c.1 = p ∧ c.2 ∈ fds ∧ (cells k c).cloexec then ⟨none, false⟩ else cells k c := by
  induction fds generalizing k with
  | nil => simp [← pure_ok run]
  | cons i fds ih =>
    obtain ⟨_, first, rest⟩ := bind_ok run
    obtain ⟨q, j⟩ := c
    simp only at first
    split_ifs at first with flagged
    · have put := releaseOpenFd_cells cleared first
      rw [ih (put ▸ cleared.release (p, i)) rest, put]
      by_cases here : (q, j) = (p, i)
      · cases here
        rw [update_self]
        exact (if_neg (by simp)).trans (if_pos ⟨rfl, .head _, flagged⟩).symm
      · rw [update_of_ne here]
        refine if_congr ?_ rfl rfl
        grind
    · rw [ih (Except.ok.inj first ▸ cleared) rest, ← Except.ok.inj first]
      refine if_congr ?_ rfl rfl
      have kept : (cells k (p, i)).cloexec ≠ true := flagged
      grind

def Fits (o : Origin) (fd : Fd) : Prop := fd.cloexec = (fd.file.isSome && decide (o = .cloexec))

theorem Fits.empty {o' : Origin} (fits : Fits o fd) (free : fd.file = none) : Fits o' fd := by
  unfold Fits at fits ⊢
  rw [fits, free]
  rfl

theorem fits_closed (o : Origin) : Fits o ⟨none, false⟩ := rfl

def Fill (p : Slot) (o : Origin) (before after : Slot × Fin 16 → Fd) : Prop :=
  ∀ c, after c = before c ∨ c.1 = p ∧ (before c).file = none ∧ Fits o (after c)

theorem Fill.put (free : (before (p, i)).file = none) (fits : Fits o fd) :
    Fill p o before (update before (p, i) fd) := by
  intro c
  by_cases here : c = (p, i)
  · rw [here, update_self]
    exact .inr ⟨rfl, free, fits⟩
  · exact .inl (update_of_ne here ..)

theorem Fill.trans {later : Slot × Fin 16 → Fd} (first : Fill p o before after) (second : Fill p o after later) :
    Fill p o before later := by
  intro c
  rcases second c with same | ⟨own, free, fits⟩
  · rw [same]
    exact first c
  · rcases first c with same | ⟨-, free', -⟩
    · exact .inr ⟨own, same ▸ free, fits⟩
    · exact .inr ⟨own, free', fits⟩

theorem Fill.fits (fill : Fill p o before after) (traces : ∀ c, Fits (origin c) (before c)) (c : Slot × Fin 16) :
    Fits (if c.1 = p ∧ (before c).file = none then o else origin c) (after c) := by
  rcases fill c with same | ⟨here, free, _⟩
  · rw [same]
    split_ifs with new
    · exact (traces c).empty new.2
    · exact traces c
  · rwa [if_pos ⟨here, free⟩]

theorem created_fits (flags f : Nat) : Fits (created flags) ⟨some f, flags &&& oCloexec ≠ 0⟩ := by
  unfold created
  split_ifs with flag
  · simp [Fits, flag]
  · simp [Fits, flag]

theorem sysOpen_fill {reply : FsReply} {ret : Int} (call : sysOpen k flags reply = .ok (ret, k')) :
    Fill (pidOff k.curpid) (created flags) (cells k) (cells k') := by
  cases sysOpen_opens call with
  | refused => exact fun c => .inl rfl
  | made free put _ _ last =>
    rcases last with ⟨-, rfl⟩ | release
    · rw [put]
      exact .put free (created_fits flags _)
    · rw [releaseFd_cells release, put, update_idem]
      exact .put free (fits_closed _)

theorem sysPipe_fill {ret : Int × Option (Fin 16 × Fin 16)} (call : sysPipe k flags = .ok (ret, k')) :
    Fill (pidOff k.curpid) (if created flags = .cloexec ∧ OneFree k (pidOff k.curpid) then .failed else created flags)
      (cells k) (cells k') := by
  cases sysPipe_piped call with
  | full => exact fun c => .inl rfl
  | leaks free only put =>
    rw [put]
    refine .put free ?_
    split_ifs with failed
    · rfl
    · have plain : created flags ≠ .cloexec := fun flag => failed ⟨flag, _, free, only⟩
      simp [Fits, plain]
  | made apart free free' put =>
    rw [put, if_neg]
    · refine (Fill.put free (created_fits flags _)).trans (.put ?_ (created_fits flags _))
      rw [update_of_ne (by simpa using apart.symm)]
      exact free'
    · rintro ⟨-, _, -, only⟩
      exact apart ((only _ free).trans (only _ free').symm)

theorem dupFd_cells (call : dupFd k p i = .ok k') : cells k' = cells k := by
  obtain ⟨_, -, call⟩ := bind_ok call
  obtain ⟨_, -, call⟩ := bind_ok call
  exact pure_ok call ▸ rfl

theorem sysDup2_cells {fd fd2 ret : Int} (cleared : Cleared (cells k)) (call : sysDup2 k fd fd2 = .ok (ret, k')) :
    (k' = k ∧ ∀ j : Fin 16, fd2 = j → fd ≠ fd2 → openFd k (pidOff k.curpid) fd = none ∧ ret = -EBADF) ∨
      ∃ (j : Fin 16) (f : Option Nat), fd2 = j ∧ fd ≠ fd2 ∧ openFd k (pidOff k.curpid) fd ≠ none ∧
        cells k' = update (cells k) (pidOff k.curpid, j) ⟨f, false⟩ := by
  obtain ⟨_, here, call⟩ := bind_ok call
  obtain ⟨rfl, -⟩ := current_found here
  cases found : openFd k (pidOff k.curpid) fd with
  | none =>
    rw [found] at call
    cases pure_ok call
    exact .inl ⟨rfl, fun _ _ _ => ⟨rfl, rfl⟩⟩
  | some i =>
    simp only [found] at call
    split_ifs at call with range same
    · cases pure_ok call
      exact .inl ⟨rfl, fun _ _ other => absurd same other⟩
    · obtain ⟨_, close, call⟩ := bind_ok call
      obtain ⟨counted, dup, call⟩ := bind_ok call
      have table : cells counted = _ := (dupFd_cells dup).trans (releaseOpenFd_cells cleared close)
      cases pure_ok call
      have entry := congrFun table (pidOff k.curpid, ⟨fd2.toNat, by omega⟩)
      rw [update_self, cells] at entry
      refine .inr ⟨⟨fd2.toNat, by omega⟩, ((counted.ptable (pidOff k.curpid)).fds i).file, by simp only; omega, same,
        nofun, ?_⟩
      rw [cells_setFd, table, update_idem, entry]
    · cases pure_ok call
      refine .inl ⟨rfl, fun j target _ => absurd ⟨?_, ?_⟩ range⟩ <;> omega

def Empties (k k' : State) : Prop := ∀ c, cells k' c = cells k c ∨ cells k' c = ⟨none, false⟩

theorem Empties.trans {k'' : State} (first : Empties k k') (second : Empties k' k'') : Empties k k'' := by
  intro c
  rcases second c with same | closed
  · exact (first c).imp same.trans same.trans
  · exact .inr closed

theorem Empties.of_update {c : Slot × Fin 16} (put : cells k' = update (cells k) c ⟨none, false⟩) : Empties k k' := by
  intro d
  rw [put]
  by_cases here : d = c
  · exact .inr (here ▸ update_self ..)
  · exact .inl (update_of_ne here ..)

theorem releaseOpenFd_empties (call : releaseOpenFd k p i = .ok k') : Empties k k' := by
  unfold releaseOpenFd at call
  split_ifs at call
  · exact fun c => .inl (by rw [Except.ok.inj call])
  · exact .of_update (releaseFd_cells call)

theorem sysExit_empties {code : BitVec 32} (call : sysExit k code = .ok k') : Empties k k' := by
  obtain ⟨p, -, call⟩ := bind_ok call
  obtain ⟨woken, wake, call⟩ := bind_ok call
  obtain ⟨closed, close, call⟩ := bind_ok call
  have coded : SameFiles k (k.setPcb p { k.ptable p with returnCode := code.truncate 8 }) := same_setPcb rfl
  have woke : Empties k woken := fun c => .inl (congrFun (coded.trans (wakeParent_same wake)).cells_eq c)
  have closes : Empties woken closed :=
    foldlM_invariant (fun _ i _ _ before step => before.trans (releaseOpenFd_empties step)) (fun c => .inl rfl) close
  refine (woke.trans closes).trans fun c => ?_
  rw [← pure_ok call]
  by_cases own : c.1 = p
  · simp [cells, own]
  · simp [cells, setPcb_other own]

def Traces (s : Traced) : Prop := ∀ c, Fits (s.origin c) (cells s.kernel c)

theorem Traces.cleared (traces : Traces s) : Cleared (cells s.kernel) := by
  intro c free
  have fits := traces c
  generalize cells s.kernel c = fd at free fits
  cases fd
  cases free
  cases fits
  rfl

theorem traces_step (traces : Traces s) (step : traced.step s call s') : Traces s' := by
  obtain ⟨k', ran, rfl⟩ := Option.map_eq_some_iff.mp step
  have keep (c : Slot × Fin 16) (same : cells k' c = cells s.kernel c) : Fits (s.origin c) (cells k' c) := same ▸ traces c
  have empty (empties : Empties s.kernel k') (c : Slot × Fin 16) : Fits (s.origin c) (cells k' c) :=
    (empties c).elim (keep c) fun closed => closed ▸ fits_closed _
  intro c
  cases next_took (advance_sound _ _ _ ran) with
  | tick call => exact keep c (congrFun (sched_same call).cells_eq c)
  | sysOpen _ call => exact (sysOpen_fill call).fits traces c
  | sysPipe _ call => exact (sysPipe_fill call).fits traces c
  | sysClose _ call =>
    refine empty ?_ c
    obtain ⟨p, -, call⟩ := bind_ok call
    split at call
    · cases pure_ok call
      exact fun c => .inl rfl
    · obtain ⟨_, close, call⟩ := bind_ok call
      cases pure_ok call
      exact .of_update (releaseFd_cells close)
  | sysDup2 _ call =>
    dsimp only [origins]
    rcases sysDup2_cells traces.cleared call with ⟨same, refused⟩ | ⟨j, _, target, other, opened, put⟩
    · rw [if_neg fun hit => hit.2.2.2 (refused c.2 hit.2.1 hit.2.2.1).1]
      exact keep c (by rw [same])
    · by_cases here : c = (pidOff s.kernel.curpid, j)
      · rw [here, if_pos ⟨rfl, target, other, opened⟩, put, update_self]
        simp [Fits]
      · rw [if_neg]
        · exact keep c (by rw [put, update_of_ne here])
        · rintro ⟨own, _, -⟩
          refine here (Prod.ext own (Fin.ext ?_))
          simp only
          omega
  | sysFork active call =>
    dsimp only [origins]
    cases sysFork_forked active.running call with
    | full =>
      rw [if_neg fun new => new.2 new.1]
      exact traces c
    | @made new _ _ free live _ fds others =>
      by_cases here : c.1 = new
      · rw [if_pos (here ▸ ⟨free, live⟩), cells, here, fds]
        exact traces (pidOff s.kernel.curpid, c.2)
      · rw [others c.1 here, if_neg fun new => new.2 new.1]
        exact keep c (by rw [cells, others c.1 here, cells])
  | sysExec _ call =>
    refine empty (fun c => ?_) c
    obtain ⟨_, -, run⟩ := bind_ok call
    rw [execLoop_cells traces.cleared run c]
    split_ifs
    · exact .inr rfl
    · exact .inl rfl
  | sysExit _ call => exact empty (sysExit_empties call) c
  | sysWaitpid _ call => exact keep c (congrFun (sysWaitpid_same call).cells_eq c)
  | waitpidBlock => exact keep c (congrFun waitpidBlock_same.cells_eq c)
  | waitpidReap _ call => exact keep c (congrFun (waitpidReap_same call).cells_eq c)

theorem reachable_traces (reachable : traced.Reachable s) : kernel.Reachable s.kernel ∧ Traces s := by
  induction reachable with
  | @initial s start =>
    refine ⟨.initial start, fun c => ?_⟩
    have blank : cells s.kernel c = ⟨none, false⟩ := by
      rw [show s.kernel = initProc from start, initProc_eq]
      by_cases first : c.1 = 0
      · simp [cells, first, emptyPcb]
      · simp [cells, first, emptyPcb]
    exact blank ▸ fits_closed _
  | next _ step ih =>
    have kept := traces_step ih.2 step
    obtain ⟨_, ran, rfl⟩ := Option.map_eq_some_iff.mp step
    exact ⟨ih.1.next (advance_sound _ _ _ ran), kept⟩

theorem exec_closes_created_iff (reachable : traced.Reachable s) : EmptyCleared s.kernel ∧ DupsPlain s.kernel ∧
      ((s.kernel.ptable s.proc).rs = .running → (ClosesCreated s ↔ ∀ i, slot s.kernel s.proc i ≠ none →
          s.origin (s.proc, i) ≠ .failed)) := by
  obtain ⟨kernel, traces⟩ := reachable_traces reachable
  refine ⟨?_, ?_, fun running => ?_⟩
  · intro p i free
    exact congrArg Fd.cloexec (traces.cleared (p, i) free)
  · intro _ _ k' i call other target
    rcases sysDup2_cells traces.cleared call with ⟨-, refused⟩ | ⟨j, _, _, -, -, put⟩
    · have negative := (refused i target other).2
      rw [target, EBADF] at negative
      omega
    · obtain rfl : i = j := by omega
      exact congrArg Fd.cloexec ((congrFun put (s.proc, i)).trans (update_self ..))
  · obtain ⟨sound, balanced, -⟩ := reachable_accounted kernel
    have active : Active s.kernel _ := ⟨running, rfl⟩
    obtain ⟨k', run, -⟩ := sysExec_kept balanced sound.idle (active.current sound)
    have closed (i : Fin 16) (opened : slot s.kernel s.proc i ≠ none) :
        slot k' s.proc i = none ↔ s.origin (s.proc, i) = .cloexec := by
      obtain ⟨_, here, loop⟩ := bind_ok run
      obtain ⟨rfl, -⟩ := current_found here
      have after := execLoop_cells traces.cleared loop (s.proc, i)
      have fits : (cells s.kernel (s.proc, i)).cloexec = _ := traces _
      have present : (cells s.kernel (s.proc, i)).file.isSome = true := Option.isSome_iff_ne_none.mpr opened
      rw [fits, present, Bool.true_and] at after
      change (cells k' (s.proc, i)).file = none ↔ _
      rw [after]
      split_ifs with created
      · exact iff_of_true rfl (of_decide_eq_true created.2.2)
      · exact iff_of_false opened fun flag => created ⟨rfl, List.mem_finRange i, decide_eq_true flag⟩
    constructor
    · rintro ⟨_, run', all⟩ i opened failed
      cases run.symm.trans run'
      have gone := (all i opened).mpr (by rw [failed]; nofun)
      rw [closed i opened, failed] at gone
      cases gone
    · intro none
      refine ⟨k', run, fun i opened => ?_⟩
      rw [closed i opened]
      have other := none i opened
      cases here : s.origin (s.proc, i) with
      | plain => simp
      | cloexec => simp
      | failed => exact absurd here other

def untraced : Traced := ⟨initProc, fun _ => .plain⟩

theorem run_reachable {calls : List Call} {s : Traced} (run : calls.foldlM follow untraced = some s) :
    traced.Reachable s :=
  System.Reachable.run (fun _ _ _ step => step) (.initial (show untraced.kernel = initProc from rfl)) run

theorem exec_closes_created_dup : ∃ s, traced.Reachable s ∧ slot s.kernel s.proc 0 ≠ none ∧
    slot s.kernel s.proc 1 ≠ none ∧ ClosesCreated s := by
  have run : ([Call.sysOpen oCloexec ⟨0, 0, 0, true, 0⟩, Call.sysDup2 0 1].foldlM follow untraced).map (fun s =>
      (decide ((s.kernel.ptable s.proc).rs = .running),
        decide (slot s.kernel s.proc 0 = none), decide (slot s.kernel s.proc 1 = none),
        decide (∀ i, s.origin (s.proc, i) ≠ .failed))) = some (true, false, false, true) := by
    decide +kernel
  obtain ⟨s, computed, equal⟩ := Option.map_eq_some_iff.mp run
  simp only [Prod.mk.injEq, decide_eq_true_eq, decide_eq_false_iff_not] at equal
  obtain ⟨running, zero, one, none⟩ := equal
  have reachable : traced.Reachable s := run_reachable computed
  exact ⟨s, reachable, zero, one, ((exec_closes_created_iff reachable).2.2 running).mpr fun i _ => none i⟩

theorem failed_pipe_outlives_exec : ∃ s k, traced.Reachable s ∧ sysExec s.kernel = .ok k ∧
    s.origin (s.proc, 15) ≠ .plain ∧ slot s.kernel s.proc 15 ≠ none ∧ slot k s.proc 15 ≠ none := by
  have run : ((List.replicate 7 (Call.sysPipe 0) ++ [Call.sysOpen 0 ⟨0, 0, 0, true, 0⟩, Call.sysPipe oCloexec]).foldlM
      follow untraced).bind (fun s => (sysExec s.kernel).toOption.map fun k =>
        (decide (s.origin (s.proc, 15) = .plain), decide (slot s.kernel s.proc 15 = none),
          decide (slot k s.proc 15 = none))) = some (false, false, false) := by
    decide +kernel
  obtain ⟨s, computed, rest⟩ := Option.bind_eq_some_iff.mp run
  obtain ⟨k, call, equal⟩ := Option.map_eq_some_iff.mp rest
  simp only [Prod.mk.injEq, decide_eq_false_iff_not] at equal
  exact ⟨s, k, run_reachable computed, ok_of_toOption call, equal⟩

end Petix.Proof.Proc
