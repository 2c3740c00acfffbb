import Petix.Proof.Proc.Tree

namespace Petix.Proof.Proc
open Library Kernel.Proc Kernel.Syscall Spec.Processes

variable {t t' : Table} {k k' : State} {p q c : Slot} {w : Int} {call : Call}

def Waits (e : Entry) (w : Int) : Prop :=
  e.context = .scanned w ∨ e.context = .reaping ∧ e.rs = .blocked ∧ e.waitPid = w

theorem not_waits_user {e : Entry} (user : e.context = .user) : ¬ Waits e w := by
  rintro (scanned | ⟨reaping, -⟩)
  · rw [user] at scanned
    cases scanned
  · rw [user] at reaping
    cases reaping

theorem step_waits (step : Step t call t') (live : t'.Live q) (waits : Waits (t'.entry q) w) :
    t.Live q ∧ (Waits (t.entry q) w ∨
      q = t.current ∧ call = .sysWaitpid w ∧ ∀ c, t.Child t.current w c → (t.entry c).rs ≠ .terminated) := by
  cases step with
  | quiet => exact ⟨live, .inl waits⟩
  | tick ready =>
    refine ⟨(steady_tick ready q).2.2.mp live, .inl ?_⟩
    obtain ⟨_, entry, change⟩ := tick_entry ready q
    rw [entry] at waits
    rcases waits with scanned | ⟨reaping, blocked, wait⟩
    · exact .inl scanned
    · rcases change with same | ⟨-, runnable | runnable⟩
      · exact .inr ⟨reaping, same ▸ blocked, wait⟩
      · cases runnable.symm.trans blocked
      · cases runnable.symm.trans blocked
  | @fork new pid running free here =>
    by_cases same : q = new
    · subst same
      exact absurd waits (not_waits_user (by rw [set_entry_same]))
    · rw [Table.Live, set_entry_other same] at live
      rw [set_entry_other same] at waits
      exact ⟨live, .inl waits⟩
  | orphanExit running =>
    by_cases same : q = t.current
    · subst same
      exact absurd waits (not_waits_user (by rw [Table.terminate, set_entry_same]; exact running.2.2))
    · rw [Table.terminate, Table.Live, set_entry_other same] at live
      rw [Table.terminate, set_entry_other same] at waits
      exact ⟨live, .inl waits⟩
  | @exit code parent running child found =>
    refine ⟨(steady_exit running.1 q).2.2.mp live, .inl ?_⟩
    by_cases same : q = t.current
    · subst same
      rcases notify_entry t t.current parent t.current with ⟨entry, -⟩ | ⟨same, blocked, -⟩
      · refine absurd waits (not_waits_user ?_)
        rw [Table.terminate, set_entry_same, entry]
        exact running.2.2
      · rw [← same] at blocked
        cases running.1.symm.trans blocked
    · rw [Table.terminate, set_entry_other same] at waits
      rcases notify_entry t t.current parent q with ⟨entry, -⟩ | ⟨rfl, -, entry⟩
      · rwa [entry] at waits
      · rw [entry] at waits
        rcases waits with scanned | ⟨-, blocked, -⟩
        · exact .inl scanned
        · cases blocked
  | found running child dead =>
    by_cases same : q = t.current
    · subst same
      rw [set_entry_same] at waits
      rcases waits with scanned | ⟨-, blocked, -⟩
      · cases scanned
      · cases running.1.symm.trans blocked
    · rw [Table.Live, set_entry_other same] at live
      rw [set_entry_other same] at waits
      exact ⟨live, .inl waits⟩
  | scanned running some_child alive =>
    by_cases same : q = t.current
    · subst same
      refine ⟨live_of_running running.1, .inr ⟨rfl, ?_⟩⟩
      rw [set_entry_same] at waits
      rcases waits with scanned | ⟨reaping, -⟩
      · cases scanned
        exact ⟨rfl, alive⟩
      · cases reaping
    · rw [Table.Live, set_entry_other same] at live
      rw [set_entry_other same] at waits
      exact ⟨live, .inl waits⟩
  | block context running =>
    by_cases same : q = t.current
    · subst same
      rw [set_entry_same] at waits
      rcases waits with scanned | ⟨-, -, wait⟩
      · cases scanned
      · exact ⟨live_of_running running, .inl (.inl (wait ▸ context))⟩
    · rw [Table.Live, set_entry_other same] at live
      rw [set_entry_other same] at waits
      exact ⟨live, .inl waits⟩
  | @reap c context running found =>
    have other : q ≠ c := by
      rintro rfl
      exact reap_gone t t.current q live
    rw [Table.Live, reap_other other] at live
    rw [reap_other other] at waits
    refine ⟨(steady_unwait t t.current q).2.2.mp live, .inl ?_⟩
    by_cases same : q = t.current
    · subst same
      exact absurd waits (not_waits_user (by rw [Table.unwait, set_entry_same]))
    · rwa [Table.unwait, set_entry_other same] at waits

structure Attentive (t : Table) : Prop where
  positive : ∀ p, t.Live p → 0 < (t.entry p).pid
  unseen : ∀ q w, t.Live q → Waits (t.entry q) w → ∀ c, t.Child q w c → (t.entry c).rs ≠ .terminated

def Observed (t : Table) : Prop :=
  ∀ q w, t.Live q → (t.entry q).context = .scanned w → (t.entry t.current).ppid = (t.entry q).pid →
    ¬ Matches w (t.entry t.current).pid

theorem exit_unseen (step : Step t call t') (numbered : Numbered t) (attentive : Attentive t)
    (exit : ∃ code, call = .sysExit code) (observed : Observed t) (live : t.Live q) (waits : Waits (t.entry q) w)
    (after : Waits (t'.entry q) w) (parent : (t.entry t.current).ppid = (t.entry q).pid) :
    ¬ Matches w (t.entry t.current).pid := by
  intro matching
  obtain ⟨_, rfl⟩ := exit
  rcases waits with scanned | ⟨reaping, blocked, wait⟩
  · exact observed q w live scanned parent matching
  · cases step with
    | quiet quiet => exact quiet.elim
    | orphanExit running orphan =>
      have positive := attentive.positive q live
      rw [parent] at orphan
      exact absurd positive (Int.not_lt.mpr orphan)
    | @exit _ p running child found =>
      obtain rfl : q = p := by
        rw [← numbered.slot q live, ← parent]
        exact found.1
      have other : q ≠ t.current := by
        rintro rfl
        cases running.1.symm.trans blocked
      rw [Table.terminate, set_entry_other other] at after
      rcases notify_entry t t.current q q with ⟨-, asleep⟩ | ⟨-, -, entry⟩
      · exact asleep rfl blocked (wait ▸ matching)
      · rw [entry] at after
        rcases after with scanned | ⟨-, blocked, -⟩
        · cases reaping.symm.trans scanned
        · cases blocked

theorem exit_running {code : BitVec 32} (step : Step t (.sysExit code) t') : Running t .user := by
  cases step with
  | quiet quiet => exact quiet.elim
  | orphanExit running => exact running
  | exit running => exact running

theorem step_attentive (step : Step t call t') (numbered : Numbered t) (attentive : Attentive t)
    (observed : (∃ code, call = .sysExit code) → Observed t)
    (fresh : ∀ p, t'.Live p → ¬ t.Live p → 0 < (t'.entry p).pid) : Attentive t' := by
  constructor
  · intro p live
    by_cases before : t.Live p
    · rw [step_pid step (.inl before)]
      exact attentive.positive p before
    · exact fresh p live before
  · rintro q w live waits c ⟨liveC, parent, matching⟩ dead
    obtain ⟨before, waited⟩ := step_waits step live waits
    have pid := step_pid step (.inl before)
    rcases step_terminated step dead with earlier | ⟨exit, rfl⟩
    · have liveBefore : t.Live c := by
        rw [Table.Live, earlier]
        simp
      rw [step_ppid step liveBefore liveC, pid] at parent
      rw [step_pid step (.inl liveBefore)] at matching
      rcases waited with waited | ⟨rfl, -, scan⟩
      · exact attentive.unseen q w before waited c ⟨liveBefore, parent, matching⟩ earlier
      · exact scan c ⟨liveBefore, parent, matching⟩ earlier
    · obtain ⟨code, rfl⟩ := exit
      have running := live_of_running (exit_running step).1
      rw [step_ppid step running liveC, pid] at parent
      rw [step_pid step (.inl running)] at matching
      rcases waited with waited | ⟨-, scan, -⟩
      · exact exit_unseen step numbered attentive ⟨code, rfl⟩ (observed ⟨code, rfl⟩) before waited waits parent matching
      · cases scan

theorem fresh_positive (sound : Sound k) (step : kernel.step k call k') (observed : ExitsObserved k call)
    (live : (tableOf k').Live p) (before : ¬ (tableOf k).Live p) : 0 < ((tableOf k').entry p).pid := by
  obtain ⟨refined, -⟩ := next_refines step sound.idle
  rcases step_steady_or refined with steady | ⟨-, -, rfl, -⟩ | ⟨c, -, -, -, -, table⟩
  · exact absurd ((steady p).2.2.mp live) before
  · cases next_took step with
    | sysFork _ call => exact observed _ k' call p (not_not.mp before) live
  · rw [table] at live
    have other : p ≠ c := by
      rintro rfl
      exact reap_gone _ _ p live
    rw [Table.Live, reap_other other] at live
    exact absurd ((steady_unwait _ _ p).2.2.mp live) before

theorem reachable_attentive (reachable : (kernel.restrict ExitsObserved).Reachable k) :
    Sound k ∧ Attentive (tableOf k) := by
  induction reachable with
  | initial start =>
    rw [start]
    refine ⟨sound_initial, ?_, ?_⟩
    · intro p live
      rw [init_live live, init_entry]
      decide
    · intro _ _ live waits
      rw [init_live live, init_entry] at waits
      exact absurd waits (not_waits_user rfl)
  | next _ step ih =>
    obtain ⟨observed, step⟩ := step
    obtain ⟨sound, attentive⟩ := ih
    obtain ⟨refined, -⟩ := next_refines step sound.idle
    refine ⟨sound_step sound step, step_attentive refined sound.numbered attentive ?_ ?_⟩
    · rintro ⟨_, rfl⟩
      exact observed
    · intro _ live before
      exact fresh_positive sound step observed live before

theorem no_exit_missed_while_observed (reachable : (kernel.restrict ExitsObserved).Reachable k) : ¬ MissedExit k := by
  rintro ⟨q, c, blocked, reaping, dead, parent, matching⟩
  obtain ⟨-, attentive⟩ := reachable_attentive reachable
  refine attentive.unseen q (k.ptable q).waitPid ?_ (.inr ⟨reaping, blocked, rfl⟩) c ⟨?_, parent, matching⟩ dead
  · simp [Table.Live, tableOf, entryOf, blocked]
  · simp [Table.Live, tableOf, entryOf, dead]

theorem no_exit_missed_asleep :
    ∃ k, (kernel.restrict ExitsObserved).Reachable k ∧ (k.ptable 0).rs = .blocked ∧ (k.ptable 0).waitPid = -1 ∧
      (k.ptable 1).ppid = 1024 ∧ ¬ MissedExit k := by
  have positive : (advance initProc .sysFork).map (fun k =>
      decide (∀ p : Slot, (k.ptable p).rs ≠ .noproc → 0 < (k.ptable p).pid)) = some true := by
    decide +kernel
  have run : ((advance initProc .sysFork).bind fun k => (advance k (.sysWaitpid (-1))).bind fun k =>
      advance k .waitpidBlock).map (fun k => ((k.ptable 0).rs, (k.ptable 0).waitPid, (k.ptable 1).ppid)) =
        some (.blocked, -1, 1024) := by
    decide +kernel
  obtain ⟨k, computed, equal⟩ := Option.map_eq_some_iff.mp run
  simp only [Prod.mk.injEq] at equal
  obtain ⟨forked, fork, computed⟩ := Option.bind_eq_some_iff.mp computed
  obtain ⟨_, scan, block⟩ := Option.bind_eq_some_iff.mp computed
  rw [fork, Option.map_some, Option.some.injEq, decide_eq_true_iff] at positive
  have observed : ExitsObserved initProc .sysFork := by
    intro _ made call p _ live
    have running : (initProc.ptable (pidOff initProc.curpid)).rs = .running := by rfl
    have user : (initProc.ptable (pidOff initProc.curpid)).context = .user := by rfl
    have same : advance initProc .sysFork = some made := by
      simp only [advance, next, running, if_true, user, process, call]
      rfl
    obtain rfl : forked = made := Option.some.inj (fork.symm.trans same)
    exact positive p live
  have reachable : (kernel.restrict ExitsObserved).Reachable k :=
    .next (a := .waitpidBlock) (.next (a := .sysWaitpid (-1))
      (.next (a := .sysFork) (.initial rfl) ⟨observed, advance_sound _ _ _ fork⟩)
      ⟨trivial, advance_sound _ _ _ scan⟩) ⟨trivial, advance_sound _ _ _ block⟩
  exact ⟨k, reachable, equal.1, equal.2.1, equal.2.2, no_exit_missed_while_observed reachable⟩

theorem exit_missed : ∃ k, kernel.Reachable k ∧ MissedExit k := by
  have run : ([.sysFork, .sysWaitpid (-1), .tick, .sysExit 0, .tick, .waitpidBlock].foldlM advance initProc).map
      (fun k => ((k.ptable 0).rs, (k.ptable 0).context, (k.ptable 0).waitPid, (k.ptable 0).pid,
        (k.ptable 1).rs, (k.ptable 1).ppid)) = some (.blocked, .reaping, -1, 1024, .terminated, 1024) := by
    decide +kernel
  obtain ⟨k, computed, equal⟩ := Option.map_eq_some_iff.mp run
  simp only [Prod.mk.injEq] at equal
  obtain ⟨blocked, reaping, wait, pid, dead, ppid⟩ := equal
  refine ⟨k, System.Reachable.run advance_sound (.initial rfl) computed, 0, 1, blocked, reaping, dead, ?_, .inl wait⟩
  rw [ppid, pid]

end Petix.Proof.Proc
