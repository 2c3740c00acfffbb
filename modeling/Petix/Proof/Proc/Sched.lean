import Petix.Proof.Proc.Pids
import Petix.Proof.Proc.Tree

namespace Petix.Proof.Proc
open Library Library.Cyclic Kernel.Proc Kernel.Syscall Spec.Ptable Result

variable {k k' : State} {p q : Slot} {turn : Turn} {n : Nat}
variable {d : Nat}

theorem search_nearest {ptable : Slot → Pcb} {rs : ReadyState} {cur : Slot} {e fuel : Nat} (pos : 1 ≤ d)
    (enough : d + fuel = 1025) (ahead : d ≤ e) (last : e ≤ 1024) (here : (ptable (after cur e)).rs = rs) :
    ∃ f, d ≤ f ∧ f ≤ 1024 ∧ search ptable rs (after cur 1) fuel (after cur d) = some (after cur f) ∧
      (ptable (after cur f)).rs = rs ∧ ∀ i, d ≤ i → i < f → (ptable (after cur i)).rs ≠ rs := by
  induction fuel generalizing d with
  | zero => omega
  | succ fuel ih =>
    rw [search]
    split_ifs with found back
    · exact ⟨d, le_rfl, by omega, rfl, found, fun i low high => absurd high (by omega)⟩
    · rw [← after_succ, after_succ_eq_first pos (by omega)] at back
      have only : e = d := by omega
      exact absurd (only ▸ here) found
    · have further : d + 1 ≤ e := by
        have other : e ≠ d := fun same => found (same ▸ here)
        omega
      rw [← after_succ]
      obtain ⟨f, _, high, result, ready, nearest⟩ := ih (by omega) (by omega) further
      refine ⟨f, by omega, high, result, ready, fun i least most => ?_⟩
      rcases Nat.eq_or_lt_of_le least with rfl | beyond
      · exact found
      · exact nearest i beyond most

theorem curpid_preempt (k : State) : (preempt k).curpid = k.curpid := by
  simp only [preempt]
  split_ifs
  · rfl
  · rfl

theorem ptable_preempt (k : State) (p : Slot) : (preempt k).ptable p =
    if p = current k ∧ (k.ptable p).rs = .running then { k.ptable p with rs := .ready } else k.ptable p := by
  unfold preempt current
  by_cases same : p = pidOff k.curpid
  · subst same
    by_cases running : (k.ptable (pidOff k.curpid)).rs = .running
    · simp [running, State.setPcb]
    · simp [running]
  · by_cases running : (k.ptable (pidOff k.curpid)).rs = .running
    · simp [running, State.setPcb, same]
    · simp [running, same]

theorem preempt_pid (k : State) (p : Slot) : ((preempt k).ptable p).pid = (k.ptable p).pid := by
  rw [ptable_preempt]
  split_ifs
  · rfl
  · rfl

theorem preempt_running (k : State) (p : Slot) : { (preempt k).ptable p with rs := .running } =
    { k.ptable p with rs := .running } := by
  rw [ptable_preempt]
  split_ifs
  · rfl
  · rfl

theorem dispatch_same (k : State) (p : Slot) : (dispatch k p).ptable p = { k.ptable p with rs := .running } := by
  simp [dispatch, State.setPcb]

theorem dispatch_other (other : q ≠ p) : (dispatch k p).ptable q = k.ptable q := by simp [dispatch, State.setPcb, other]

theorem dispatch_curpid (k : State) (p : Slot) :
    (dispatch k p).curpid = if p = current k then k.curpid else (k.ptable p).pid := rfl

theorem dispatch_chooses (range : 1 ≤ d ∧ d ≤ 1024)
    (ready : ((preempt k).ptable (after (current k) d)).rs = .ready)
    (nearest : ∀ e, 1 ≤ e → e < d → ((preempt k).ptable (after (current k) e)).rs ≠ .ready) :
    Chooses k d (dispatch (preempt k) (after (current k) d)) where
  range := range
  ready := ready
  nearest := nearest
  chosen := (dispatch_same _ _).trans (preempt_running k _)
  others q other := dispatch_other other
  curpid consistent := by
    rw [dispatch_curpid, preempt_pid, curpid_preempt]
    split_ifs with same
    · have cur : after (current k) d = current k := same.trans (congrArg pidOff (curpid_preempt k))
      rw [cur]
      exact consistent.symm
    · rfl

theorem sched_chooses (ready : ((preempt k).ptable p).rs = .ready) : ∃ d k', sched k = some k' ∧ Chooses k d k' := by
  have here : ((preempt k).ptable (after (current k) (gap (current k) p))).rs = .ready := by rwa [after_gap]
  obtain ⟨d, low, high, found, chosen, nearest⟩ :=
    search_nearest (d := 1) le_rfl (show 1 + 1024 = 1025 from rfl) gap_pos gap_le here
  refine ⟨d, _, ?_, dispatch_chooses ⟨low, high⟩ chosen nearest⟩
  exact congrArg (Option.map (dispatch (preempt k))) found

theorem chooses_of_sched (call : sched k = some k') : ∃ d, Chooses k d k' := by
  obtain ⟨_, found, -⟩ := Option.map_eq_some_iff.mp call
  obtain ⟨d, _, same, chooses⟩ := sched_chooses (search_some found)
  rw [call] at same
  cases same
  exact ⟨d, chooses⟩

structure Scheduled (k : State) : Prop where
  home : ∀ p, (k.ptable p).rs ≠ .noproc → pidOff (k.ptable p).pid = p
  present : (k.ptable (current k)).rs ≠ .noproc
  curpid : (k.ptable (current k)).pid = k.curpid
  alone : ∀ p, (k.ptable p).rs = .running → p = current k

theorem chooses_current (scheduled : Scheduled k) (chooses : Chooses k d k') :
    current k' = after (current k) d := by
  have alive : (k.ptable (after (current k) d)).rs ≠ .noproc := by
    intro none
    have ready := chooses.ready
    rw [ptable_preempt] at ready
    simp [none] at ready
  have home := scheduled.home _ alive
  rwa [← chooses.curpid scheduled.curpid] at home

theorem chooses_entry (chooses : Chooses k d k') (p : Slot) :
    (k'.ptable p).pid = (k.ptable p).pid ∧ ((k.ptable p).rs = .noproc → (k'.ptable p).rs = .noproc) := by
  by_cases same : p = after (current k) d
  · refine ⟨by rw [same, chooses.chosen], fun none => ?_⟩
    have ready := chooses.ready
    rw [← same, ptable_preempt] at ready
    simp [none] at ready
  · rw [chooses.others p same, ptable_preempt]
    split_ifs with running
    · exact ⟨rfl, fun none => absurd (running.2.symm.trans none) (by decide)⟩
    · exact ⟨rfl, id⟩

theorem chooses_scheduled (scheduled : Scheduled k) (chooses : Chooses k d k') : Scheduled k' := by
  have cur := chooses_current scheduled chooses
  constructor
  · intro p live
    obtain ⟨pid, none⟩ := chooses_entry chooses p
    rw [pid]
    exact scheduled.home p fun empty => live (none empty)
  · rw [cur, chooses.chosen]
    simp
  · rw [cur, chooses.chosen]
    exact (chooses.curpid scheduled.curpid).symm
  · intro p running
    by_contra other
    rw [cur] at other
    rw [chooses.others p other, ptable_preempt] at running
    split_ifs at running with was
    exact was ⟨scheduled.alone p running, running⟩

theorem Scheduled.setPcb {pcb : Pcb} (scheduled : Scheduled k) (home : pcb.rs ≠ .noproc → pidOff pcb.pid = p)
    (cur : p = current k → pcb.rs ≠ .noproc ∧ pcb.pid = k.curpid) (stopped : pcb.rs ≠ .running) :
    Scheduled (k.setPcb p pcb) := by
  have same : current (k.setPcb p pcb) = current k := rfl
  constructor
  · intro q live
    by_cases changed : q = p
    · subst changed
      rw [setPcb_same] at live ⊢
      exact home live
    · rw [setPcb_other changed] at live ⊢
      exact scheduled.home q live
  · rw [same]
    by_cases changed : current k = p
    · rw [changed, setPcb_same]
      exact (cur changed.symm).1
    · rw [setPcb_other changed]
      exact scheduled.present
  · rw [same]
    by_cases changed : current k = p
    · rw [changed, setPcb_same]
      exact (cur changed.symm).2
    · rw [setPcb_other changed]
      exact scheduled.curpid
  · intro q running
    by_cases changed : q = p
    · subst changed
      rw [setPcb_same] at running
      exact absurd running stopped
    · rw [setPcb_other changed] at running
      exact scheduled.alone q running

theorem Scheduled.stop {pcb : Pcb} (scheduled : Scheduled k) (pid : pcb.pid = (k.ptable p).pid)
    (live : (k.ptable p).rs ≠ .noproc) (alive : pcb.rs ≠ .noproc) (stopped : pcb.rs ≠ .running) :
    Scheduled (k.setPcb p pcb) := by
  apply scheduled.setPcb _ _ stopped
  · intro _
    rw [pid]
    exact scheduled.home p live
  · rintro rfl
    exact ⟨alive, pid.trans scheduled.curpid⟩

theorem wakeParent_cases (call : wakeParent k p = .ok k') : k' = k ∨
    ∃ q w, (k.ptable q).rs = .blocked ∧ k' = k.setPcb q { k.ptable q with waitPid := w, rs := .ready } := by
  unfold wakeParent at call
  split_ifs at call
  · obtain ⟨q, -, rest⟩ := bind_ok call
    dsimp only at rest
    split_ifs at rest with waiting
    · cases rest
      exact .inr ⟨q, _, waiting.1, rfl⟩
    · cases rest
      exact .inl rfl
  · cases call
    exact .inl rfl

theorem wakeParent_scheduled (scheduled : Scheduled k) (call : wakeParent k p = .ok k') :
    Scheduled k' ∧ k'.curpid = k.curpid := by
  rcases wakeParent_cases call with rfl | ⟨_, -, blocked, rfl⟩
  · exact ⟨scheduled, rfl⟩
  · refine ⟨scheduled.stop rfl ?_ nofun nofun, rfl⟩
    rw [blocked]
    decide

theorem claimProc_scheduled (scheduled : Scheduled k) (free : (k.ptable p).rs = .noproc) :
    Scheduled (claimProc k p) := by
  have start : Scheduled { k with ptFree := p } :=
    ⟨scheduled.home, scheduled.present, scheduled.curpid, scheduled.alone⟩
  apply start.setPcb
  · intro _
    exact pidOff_makePid _ p
  · intro cur
    exact absurd (cur ▸ free) scheduled.present
  · simp

theorem move_scheduled (scheduled : Scheduled k) (move : Move k turn k') : Scheduled k' := by
  cases move with
  | sched call =>
    obtain ⟨_, chooses⟩ := chooses_of_sched call
    exact chooses_scheduled scheduled chooses
  | alloc running call =>
    obtain ⟨free, rfl⟩ := allocProc_some call
    exact claimProc_scheduled scheduled free
  | fork running created => exact scheduled.stop rfl (by rw [created]; decide) nofun nofun
  | block running => exact scheduled.stop rfl scheduled.present nofun nofun
  | wake blocked => exact scheduled.stop rfl (by rw [blocked]; decide) nofun nofun
  | exit running call =>
    obtain ⟨woken, curpid⟩ := wakeParent_scheduled scheduled call
    have same : current k = current _ := congrArg pidOff curpid.symm
    apply woken.stop
    · rfl
    · rw [same]
      exact woken.present
    · simp
    · simp
  | reap running other => exact scheduled.setPcb (fun alive => absurd rfl alive) (fun cur => absurd cur other) nofun

theorem initProc_other (other : p ≠ 0) : initProc.ptable p = emptyPcb := by
  rw [initProc_eq]
  simp [other]

theorem initProc_first : current initProc = 0 ∧ (initProc.ptable 0).rs = .running ∧
    (initProc.ptable 0).pid = initProc.curpid := by
  exact ⟨rfl, rfl, rfl⟩

theorem scheduled_initial : Scheduled initProc := by
  obtain ⟨cur, running, pid⟩ := initProc_first
  constructor
  · intro p live
    by_cases first : p = 0
    · rw [first, pid]
      exact cur
    · rw [initProc_other first] at live
      exact absurd rfl live
  · decide
  · exact pid
  · intro _ running
    by_contra other
    rw [initProc_other other] at running
    cases running

theorem scheduling_scheduled (reachable : scheduling.Reachable k) : Scheduled k := by
  apply reachable.invariant
  · rintro k rfl
    exact scheduled_initial
  · intro _ _ _ scheduled move
    exact move_scheduled scheduled move

theorem move_curpid (move : Move k turn k') (other : turn ≠ .sched) : k'.curpid = k.curpid := by
  cases move with
  | sched call => exact absurd rfl other
  | alloc running call =>
    obtain ⟨-, rfl⟩ := allocProc_some call
    rfl
  | fork running created => rfl
  | block running => rfl
  | wake blocked => rfl
  | exit running call =>
    rcases wakeParent_cases call with rfl | ⟨-, -, -, rfl⟩
    · rfl
    · rfl
  | reap running other => rfl

theorem sched_nearer (scheduled : Scheduled k) (before : ((preempt k).ptable p).rs = .ready)
    (call : sched k = some k') (still : (k'.ptable p).rs = .ready) : gap (current k') p < gap (current k) p := by
  obtain ⟨d, chooses⟩ := chooses_of_sched call
  have unchosen : p ≠ after (current k) d := by
    rintro rfl
    rw [chooses.chosen] at still
    cases still
  have short : d < gap (current k) p := by
    by_contra long
    rcases Nat.eq_or_lt_of_le (Nat.le_of_not_lt long) with same | less
    · exact unchosen (by rw [← same, after_gap])
    · exact chooses.nearest _ gap_pos less (by rwa [after_gap])
  rw [chooses_current scheduled chooses, gap_of_after short]
  have pos := chooses.range.1
  omega

theorem passedOver_gap (scheduled : Scheduled k) (run : PassedOver p k n k') :
    Scheduled k' ∧ n + gap (current k') p ≤ 1024 := by
  induction run with
  | start => exact ⟨scheduled, by simpa using gap_le⟩
  | sched _ before move still ih =>
    obtain ⟨scheduled, bound⟩ := ih
    refine ⟨move_scheduled scheduled move, ?_⟩
    cases move with
    | sched call =>
      have nearer := sched_nearer scheduled before call still
      omega
  | other _ other move _ ih =>
    obtain ⟨scheduled, bound⟩ := ih
    have same := congrArg pidOff (move_curpid move other)
    refine ⟨move_scheduled scheduled move, ?_⟩
    unfold current at bound ⊢
    rwa [same]

theorem sched_round_robin :
    (∀ k, (∃ p, ((preempt k).ptable p).rs = .ready) → ∃ d k', sched k = some k' ∧ Chooses k d k') ∧
    (∀ k, scheduling.Reachable k → (k.ptable (current k)).pid = k.curpid ∧
      ∀ p, (k.ptable p).rs = .running → p = current k) ∧
    (∀ k p n k', scheduling.Reachable k → PassedOver p k n k' → n ≤ 1023) := by
  refine ⟨?_, ?_, ?_⟩
  · rintro k ⟨p, ready⟩
    exact sched_chooses ready
  · intro k reachable
    have scheduled := scheduling_scheduled reachable
    exact ⟨scheduled.curpid, scheduled.alone⟩
  · intro _ p _ k' reachable run
    obtain ⟨-, _⟩ := passedOver_gap (scheduling_scheduled reachable) run
    have pos : 1 ≤ gap (current k') p := gap_pos
    omega

end Petix.Proof.Proc
