import Petix.Proof.Proc.Refinement

namespace Petix.Proof.Proc
open Function Library Kernel.Proc Kernel.Syscall Spec.Processes

variable {t t' : Table} {p q c : Slot} {call : Call}
variable {e : Entry} {k : State}

def Runnable (rs : ReadyState) : Prop := rs = .ready ∨ rs = .running

theorem preempt_entry (t : Table) (q : Slot) : ∃ rs, t.preempt.entry q = { t.entry q with rs := rs } ∧
      (rs = (t.entry q).rs ∨ Runnable (t.entry q).rs ∧ Runnable rs) := by
  unfold Table.preempt
  split_ifs with running
  · by_cases same : q = t.current
    · subst same
      exact ⟨.ready, set_entry_same _ _ _, .inr ⟨.inr running, .inl rfl⟩⟩
    · exact ⟨_, set_entry_other same, .inl rfl⟩
  · exact ⟨_, rfl, .inl rfl⟩

theorem tick_entry (ready : (t.preempt.entry p).rs = .ready) (q : Slot) :
    ∃ rs, (t.preempt.dispatch p).entry q = { t.entry q with rs := rs } ∧
      (rs = (t.entry q).rs ∨ Runnable (t.entry q).rs ∧ Runnable rs) := by
  obtain ⟨rs, preempted, change⟩ := preempt_entry t q
  by_cases same : q = p
  · subst same
    refine ⟨.running, ?_, .inr ⟨?_, .inr rfl⟩⟩
    · exact (set_entry_same _ _ _).trans (by rw [preempted])
    · rw [preempted] at ready
      rcases change with equal | ⟨runnable, -⟩
      · exact .inl (equal ▸ ready)
      · exact runnable
  · exact ⟨rs, (set_entry_other same).trans preempted, change⟩

def Steady (t t' : Table) : Prop :=
  ∀ q, (t'.entry q).pid = (t.entry q).pid ∧ (t'.entry q).ppid = (t.entry q).ppid ∧ (t'.Live q ↔ t.Live q)

theorem Steady.refl (t : Table) : Steady t t := fun _ => ⟨rfl, rfl, Iff.rfl⟩

theorem Steady.trans {t'' : Table} (first : Steady t t') (second : Steady t' t'') : Steady t t'' := by
  intro q
  obtain ⟨pid, ppid, live⟩ := first q
  obtain ⟨pid', ppid', live'⟩ := second q
  exact ⟨pid'.trans pid, ppid'.trans ppid, live'.trans live⟩

theorem steady_set (pid : e.pid = (t.entry p).pid) (ppid : e.ppid = (t.entry p).ppid)
    (live : e.rs ≠ .noproc) (before : t.Live p) : Steady t (t.set p e) := by
  intro q
  by_cases same : q = p
  · subst same
    simp only [set_entry_same, Table.Live, pid, ppid, true_and]
    exact ⟨fun _ => before, fun _ => live⟩
  · simp only [Table.Live, set_entry_other same, and_self]

theorem steady_notify (t : Table) (p q : Slot) : Steady t (t.notify p q) := by
  unfold Table.notify
  split_ifs with waiting
  · refine steady_set rfl rfl (by simp) ?_
    rw [Table.Live, waiting.1]
    simp
  · exact .refl t

theorem notify_entry (t : Table) (p q r : Slot) : (t.notify p q).entry r = t.entry r ∧
      (r = q → (t.entry q).rs = .blocked → ¬ Matches (t.entry q).waitPid (t.entry p).pid) ∨
    (r = q ∧ (t.entry q).rs = .blocked ∧
      (t.notify p q).entry r = { t.entry q with waitPid := (t.entry p).pid, rs := .ready }) := by
  unfold Table.notify
  split_ifs with waiting
  · by_cases same : r = q
    · subst same
      exact .inr ⟨rfl, waiting.1, set_entry_same _ _ _⟩
    · exact .inl ⟨set_entry_other same, fun equal => absurd equal same⟩
  · refine .inl ⟨rfl, ?_⟩
    rintro - blocked (any | this)
    · exact waiting ⟨blocked, .inr any⟩
    · exact waiting ⟨blocked, .inl this⟩

theorem live_of_running (running : (t.entry p).rs = .running) : t.Live p := by
  rw [Table.Live, running]
  simp

theorem steady_tick (ready : (t.preempt.entry p).rs = .ready) : Steady t (t.preempt.dispatch p) := by
  intro q
  obtain ⟨_, entry, change⟩ := tick_entry ready q
  simp only [Table.Live, entry, true_and]
  rcases change with rfl | ⟨before | before, after | after⟩
  · exact Iff.rfl
  all_goals simp [before, after]

theorem steady_exit (running : (t.entry p).rs = .running) : Steady t ((t.notify p q).terminate p) := by
  have notified := steady_notify t p q
  refine notified.trans (steady_set rfl rfl (by simp) ?_)
  exact (notified p).2.2.mpr (live_of_running running)

theorem step_steady_or (step : Step t call t') : Steady t t' ∨
    (∃ new pid, call = .sysFork ∧ Running t .user ∧ (t.entry new).rs = .noproc ∧ pidOff pid = new ∧
      t' = t.set new { t.entry new with pid := pid, ppid := t.curpid, rs := .ready, context := .user }) ∨
    (∃ c, call = .waitpidReap ∧ (t.entry t.current).context = .reaping ∧
      (t.entry t.current).rs = .running ∧ t.Finds (t.entry t.current).waitPid c ∧
      t' = (t.unwait t.current).release c) := by
  cases step with
  | quiet => exact .inl (.refl t)
  | tick ready => exact .inl (steady_tick ready)
  | fork running free numbered => exact .inr (.inl ⟨_, _, rfl, running, free, numbered, rfl⟩)
  | orphanExit running => exact .inl (steady_set rfl rfl (by simp) (live_of_running running.1))
  | exit running child found => exact .inl (steady_exit running.1)
  | found running =>
    left
    refine steady_set rfl rfl ?_ (live_of_running running.1)
    exact live_of_running running.1
  | scanned running =>
    left
    refine steady_set rfl rfl ?_ (live_of_running running.1)
    exact live_of_running running.1
  | block context running => exact .inl (steady_set rfl rfl (by simp) (live_of_running running))
  | reap context running found => exact .inr (.inr ⟨_, rfl, context, running, found, rfl⟩)

theorem step_reap (step : Step t .waitpidReap t') :
    ∃ c, (t.entry t.current).context = .reaping ∧ (t.entry t.current).rs = .running ∧
      t.Finds (t.entry t.current).waitPid c ∧ t' = (t.unwait t.current).release c := by
  cases step with
  | quiet quiet => exact quiet.elim
  | reap context running found => exact ⟨_, context, running, found, rfl⟩

theorem steady_unwait (t : Table) (p : Slot) : Steady t (t.unwait p) := by
  intro q
  by_cases same : q = p
  · subst same
    simp [Table.unwait, Table.Live]
  · simp only [Table.unwait, Table.Live, set_entry_other same, and_self]

theorem reap_other (other : q ≠ c) : ((t.unwait p).release c).entry q = (t.unwait p).entry q := set_entry_other other

theorem reap_gone (t : Table) (p c : Slot) : ¬ ((t.unwait p).release c).Live c := by simp [Table.Live, Table.release]

theorem step_terminated (step : Step t call t') (dead : (t'.entry q).rs = .terminated) :
    (t.entry q).rs = .terminated ∨ (∃ code, call = .sysExit code) ∧ q = t.current := by
  have set_dead {e : Entry} {p : Slot} (alive : e.rs ≠ .terminated)
      (dead : ((t.set p e).entry q).rs = .terminated) : (t.entry q).rs = .terminated := by
    by_cases same : q = p
    · subst same
      rw [set_entry_same] at dead
      exact absurd dead alive
    · rwa [set_entry_other same] at dead
  cases step with
  | quiet => exact .inl dead
  | tick ready =>
    obtain ⟨_, entry, rfl | ⟨-, runnable | runnable⟩⟩ := tick_entry ready q
    · exact .inl (by rwa [entry] at dead)
    · rw [entry, runnable] at dead
      cases dead
    · rw [entry, runnable] at dead
      cases dead
  | fork => exact .inl (set_dead (by simp) dead)
  | orphanExit =>
    by_cases same : q = t.current
    · exact .inr ⟨⟨_, rfl⟩, same⟩
    · rw [Table.terminate, set_entry_other same] at dead
      exact .inl dead
  | @exit code parent =>
    by_cases same : q = t.current
    · exact .inr ⟨⟨_, rfl⟩, same⟩
    · rw [Table.terminate, set_entry_other same] at dead
      rcases notify_entry t t.current parent q with ⟨entry, -⟩ | ⟨-, -, entry⟩
      · rw [entry] at dead
        exact .inl dead
      · rw [entry] at dead
        cases dead
  | found running => exact .inl (set_dead (by simp [running.1]) dead)
  | scanned running => exact .inl (set_dead (by simp [running.1]) dead)
  | block => exact .inl (set_dead (by simp) dead)
  | @reap c context running =>
    by_cases same : q = c
    · rw [same, Table.release, set_entry_same] at dead
      cases dead
    · rw [reap_other same] at dead
      exact .inl (set_dead (by simp [running]) dead)

theorem Steady.finds {pid : Int} (steady : Steady t t') : t'.Finds pid p ↔ t.Finds pid p := by
  obtain ⟨same, -, live⟩ := steady p
  simp only [Table.Finds, same, live]

structure Numbered (t : Table) : Prop where
  slot : ∀ p, t.Live p → pidOff (t.entry p).pid = p
  current : (t.entry t.current).pid = t.curpid

theorem Numbered.finds (numbered : Numbered t) (live : t.Live p) : t.Finds (t.entry p).pid p :=
  ⟨numbered.slot p live, live, rfl⟩

theorem Numbered.unique (numbered : Numbered t) (live : t.Live p) (live' : t.Live q)
    (equal : (t.entry p).pid = (t.entry q).pid) : p = q := by
  rw [← numbered.slot p live, equal, numbered.slot q live']

theorem notify_curpid (t : Table) (p q : Slot) : (t.notify p q).curpid = t.curpid := by
  unfold Table.notify
  split_ifs
  · rfl
  · rfl

theorem preempt_curpid (t : Table) : t.preempt.curpid = t.curpid := by
  unfold Table.preempt
  split_ifs
  · rfl
  · rfl

theorem tick_current (numbered : Numbered t) (ready : (t.preempt.entry p).rs = .ready) : let t' := t.preempt.dispatch p
    (t'.entry t'.current).pid = t'.curpid := by
  intro t'
  have pid (q : Slot) : (t'.entry q).pid = (t.entry q).pid := (steady_tick ready q).1
  have curpid : t'.curpid = if p = t.current then t.curpid else (t.entry p).pid := by
    obtain ⟨_, preempted, -⟩ := preempt_entry t p
    simp only [t', Table.dispatch, Table.current, preempt_curpid, preempted]
    rfl
  rw [pid, Table.current, curpid]
  split_ifs with same
  · exact numbered.current
  · have live : t.Live p := by
      refine (steady_tick ready p).2.2.mp ?_
      exact live_of_running (set_entry_same _ _ _ ▸ rfl)
    rw [numbered.slot p live]

section
variable (step : Step t call t')
include step

theorem step_curpid (process_call : call ≠ .tick) : t'.curpid = t.curpid := by
  cases step with
  | tick => exact absurd rfl process_call
  | @exit code q => exact notify_curpid t t.current q
  | _ => rfl

theorem step_pid (live : t.Live q ∨ q = t.current) : (t'.entry q).pid = (t.entry q).pid := by
  rcases step_steady_or step with steady | ⟨new, -, -, running, free, -, rfl⟩ | ⟨c, -, -, -, -, rfl⟩
  · exact (steady q).1
  · have other : q ≠ new := by
      rintro rfl
      rcases live with live | rfl
      · exact live free
      · exact live_of_running running.1 free
    rw [set_entry_other other]
  · have unwaited := (steady_unwait t t.current q).1
    by_cases same : q = c
    · subst same
      rw [← unwaited, Table.release, set_entry_same]
    · rw [reap_other same, unwaited]

theorem step_ppid (live : t.Live q) (after : t'.Live q) : (t'.entry q).ppid = (t.entry q).ppid := by
  rcases step_steady_or step with steady | ⟨new, -, -, -, free, -, rfl⟩ | ⟨c, -, -, -, -, rfl⟩
  · exact (steady q).2.1
  · have other : q ≠ new := by
      rintro rfl
      exact live free
    rw [set_entry_other other]
  · have other : q ≠ c := by
      rintro rfl
      exact reap_gone t t.current q after
    rw [reap_other other]
    exact (steady_unwait t t.current q).2.1

theorem step_slot (numbered : Numbered t) (live : t'.Live q) : pidOff (t'.entry q).pid = q := by
  rcases step_steady_or step with steady | ⟨new, pid, -, -, -, here, rfl⟩ | ⟨c, -, -, -, -, rfl⟩
  · obtain ⟨pid, -, before⟩ := steady q
    rw [pid]
    exact numbered.slot q (before.mp live)
  · by_cases same : q = new
    · subst same
      simpa using here
    · rw [Table.Live, set_entry_other same] at live
      rw [set_entry_other same]
      exact numbered.slot q live
  · have other : q ≠ c := by
      rintro rfl
      exact reap_gone t t.current q live
    obtain ⟨pid, -, before⟩ := steady_unwait t t.current q
    rw [Table.Live, reap_other other] at live
    rw [reap_other other, pid]
    exact numbered.slot q (before.mp live)

theorem step_numbered (numbered : Numbered t) : Numbered t' := by
  refine ⟨fun q live => step_slot step numbered live, ?_⟩
  by_cases tick : call = .tick
  · subst tick
    cases step with
    | quiet quiet => exact quiet.elim
    | tick ready => exact tick_current numbered ready
  · have same : t'.current = t.current := congrArg pidOff (step_curpid step tick)
    rw [same, step_pid step (.inr rfl), step_curpid step tick]
    exact numbered.current

end

def Reaps (t : Table) (p c : Slot) : Prop :=
  t.Finds (t.entry p).waitPid c ∧ (t.entry c).rs = .terminated ∧ (t.entry c).ppid = (t.entry p).pid

def Reapable (t : Table) : Prop :=
  ∀ p, t.Live p → (t.entry p).context = .reaping → (t.entry p).rs ≠ .blocked → ∃ c, Reaps t p c

theorem Reaps.keep (reaps : Reaps t p c) (steady : Steady t t')
    (wait : (t'.entry p).waitPid = (t.entry p).waitPid) (dead : (t'.entry c).rs = .terminated) : Reaps t' p c := by
  obtain ⟨found, -, parent⟩ := reaps
  refine ⟨?_, dead, ?_⟩
  · rw [wait]
    exact steady.finds.mpr found
  · rw [(steady c).2.1, (steady p).1, parent]

theorem reapable_set (reapable : Reapable t) (running : (t.entry p).rs = .running)
    (steady : Steady t (t.set p e))
    (own : e.context = .reaping → e.rs ≠ .blocked → ∃ c, Reaps (t.set p e) p c) : Reapable (t.set p e) := by
  intro q live context unblocked
  by_cases same : q = p
  · subst same
    rw [set_entry_same] at context unblocked
    exact own context unblocked
  · have entry := set_entry_other (t := t) (e := e) same
    rw [entry] at context unblocked
    obtain ⟨c, reaps⟩ := reapable q ((steady q).2.2.mp live) context unblocked
    have other : c ≠ p := by
      rintro rfl
      rw [reaps.2.1] at running
      cases running
    exact ⟨c, reaps.keep steady (by rw [entry]) (by rw [set_entry_other other]; exact reaps.2.1)⟩

theorem tick_reapable (reapable : Reapable t) (ready : (t.preempt.entry p).rs = .ready) :
    Reapable (t.preempt.dispatch p) := by
  have steady := steady_tick ready
  intro q live context unblocked
  obtain ⟨rs, entry, change⟩ := tick_entry ready q
  have before : (t.entry q).rs ≠ .blocked := by
    intro blocked
    rw [entry] at unblocked
    rcases change with rfl | ⟨runnable | runnable, -⟩
    · exact unblocked blocked
    · rw [blocked] at runnable
      cases runnable
    · rw [blocked] at runnable
      cases runnable
  obtain ⟨c, reaps⟩ := reapable q ((steady q).2.2.mp live) (by rw [entry] at context; exact context) before
  refine ⟨c, reaps.keep steady (by rw [entry]) ?_⟩
  obtain ⟨-, entry, rfl | ⟨runnable | runnable, -⟩⟩ := tick_entry ready c
  · rw [entry]
    exact reaps.2.1
  · rw [reaps.2.1] at runnable
    cases runnable
  · rw [reaps.2.1] at runnable
    cases runnable

theorem exit_reapable (numbered : Numbered t) (reapable : Reapable t) (running : Running t .user)
    (found : t.Finds (t.entry t.current).ppid q) : Reapable ((t.notify t.current q).terminate t.current) := by
  have steady := steady_exit (q := q) running.1
  intro r live context unblocked
  by_cases self : r = t.current
  · subst self
    rw [Table.terminate, set_entry_same] at context
    rcases notify_entry t t.current q t.current with ⟨entry, -⟩ | ⟨same, blocked, -⟩
    · rw [entry, running.2.2] at context
      cases context
    · rw [← same, running.1] at blocked
      cases blocked
  · have entry' : ((t.notify t.current q).terminate t.current).entry r = (t.notify t.current q).entry r :=
      set_entry_other self
    rcases notify_entry t t.current q r with ⟨entry, -⟩ | ⟨rfl, -, entry⟩
    · rw [entry', entry] at context unblocked
      obtain ⟨c, reaps⟩ := reapable r ((steady r).2.2.mp live) context unblocked
      refine ⟨c, reaps.keep steady (by rw [entry', entry]) ?_⟩
      by_cases own : c = t.current
      · rw [own, Table.terminate, set_entry_same]
      · rw [Table.terminate, set_entry_other own]
        rcases notify_entry t t.current q c with ⟨entry, -⟩ | ⟨rfl, blocked, -⟩
        · rw [entry]
          exact reaps.2.1
        · rw [reaps.2.1] at blocked
          cases blocked
    · -- the parent was woken, and the child it reaps is the one that exits
      refine ⟨t.current, ?_, ?_, ?_⟩
      · rw [entry', entry]
        exact steady.finds.mpr (numbered.finds (live_of_running running.1))
      · rw [Table.terminate, set_entry_same]
      · rw [(steady t.current).2.1, (steady r).1, found.2.2]

theorem fork_reapable {new : Slot} (reapable : Reapable t) (free : (t.entry new).rs = .noproc)
    (context : e.context = .user) : Reapable (t.set new e) := by
  intro p live reaping unblocked
  by_cases same : p = new
  · subst same
    rw [set_entry_same, context] at reaping
    cases reaping
  · have entry := set_entry_other (t := t) (e := e) same
    rw [Table.Live, entry] at live
    rw [entry] at reaping unblocked
    obtain ⟨c, found, dead, parent⟩ := reapable p live reaping unblocked
    have other : c ≠ new := by
      rintro rfl
      rw [free] at dead
      cases dead
    have child := set_entry_other (t := t) (e := e) other
    refine ⟨c, ?_, ?_, ?_⟩
    · simpa only [Table.Finds, Table.Live, entry, child] using found
    · rw [child]
      exact dead
    · rw [child, entry]
      exact parent

theorem reap_reapable (numbered : Numbered t) (reapable : Reapable t) (running : (t.entry p).rs = .running)
    (context : (t.entry p).context = .reaping) (found : t.Finds (t.entry p).waitPid c) :
    Reapable ((t.unwait p).release c) := by
  obtain ⟨d, found', -, parent⟩ := reapable p (live_of_running running) context (by simp [running])
  obtain rfl : d = c := found'.1.symm.trans found.1
  intro q live reaping unblocked
  have other : q ≠ d := by
    rintro rfl
    exact reap_gone t p q live
  by_cases same : q = p
  · subst same
    rw [reap_other other, Table.unwait, set_entry_same] at reaping
    cases reaping
  · have entry : ((t.unwait p).release d).entry q = t.entry q := (reap_other other).trans (set_entry_other same)
    rw [Table.Live, entry] at live
    rw [entry] at reaping unblocked
    obtain ⟨e, found'', dead', parent'⟩ := reapable q live reaping unblocked
    have sibling : e ≠ d := by
      rintro rfl
      exact same (numbered.unique live (live_of_running running) (parent'.symm.trans parent))
    have own : e ≠ p := by
      rintro rfl
      rw [running] at dead'
      cases dead'
    have child : ((t.unwait p).release d).entry e = t.entry e := (reap_other sibling).trans (set_entry_other own)
    refine ⟨e, ?_, ?_, ?_⟩
    · simpa only [Table.Finds, Table.Live, entry, child] using found''
    · rw [child]
      exact dead'
    · rw [child, entry]
      exact parent'

theorem step_reapable (step : Step t call t') (numbered : Numbered t) (reapable : Reapable t) : Reapable t' := by
  cases step with
  | quiet => exact reapable
  | tick ready => exact tick_reapable reapable ready
  | fork running free here => exact fork_reapable reapable free rfl
  | orphanExit running =>
    refine reapable_set reapable running.1 (steady_set rfl rfl (by simp) (live_of_running running.1)) ?_
    intro context
    rw [running.2.2] at context
    cases context
  | exit running child found => exact exit_reapable numbered reapable running found
  | @found w c running child dead =>
    have steady : Steady t (t.set t.current { t.entry t.current with
        waitPid := (t.entry c).pid, context := .reaping }) :=
      steady_set rfl rfl (live_of_running running.1) (live_of_running running.1)
    refine reapable_set reapable running.1 steady ?_
    have other : c ≠ t.current := by
      rintro rfl
      rw [running.1] at dead
      cases dead
    refine fun _ _ => ⟨c, ?_, ?_, ?_⟩
    · rw [set_entry_same]
      exact steady.finds.mpr (numbered.finds child.1)
    · rw [set_entry_other other]
      exact dead
    · rw [set_entry_other other, set_entry_same]
      exact child.2.1
  | scanned running =>
    refine reapable_set reapable running.1
      (steady_set rfl rfl (live_of_running running.1) (live_of_running running.1)) ?_
    intro context
    cases context
  | block context running =>
    refine reapable_set reapable running (steady_set rfl rfl (by simp) (live_of_running running)) ?_
    intro _ unblocked
    exact absurd rfl unblocked
  | reap context running found => exact reap_reapable numbered reapable running context found

structure Sound (k : State) : Prop where
  idle : Idle k
  numbered : Numbered (tableOf k)
  reapable : Reapable (tableOf k)

theorem initProc_eq : initProc = { zeroed with
    ptable := update (fun _ => emptyPcb) 0 ⟨1024, -8, .running, 0, 0, fun _ => ⟨none, false⟩, .user⟩
    curpid := 1024 } := by
  have free : (zeroed.ptable zeroed.ptFree).rs = .noproc := rfl
  have first : allocProc zeroed = some (0, claimProc zeroed 0) := by rfl
  have pid : makePid (pidGen 0 + 1) 0 = 1024 := by decide
  have claimed : claimProc zeroed 0 = { zeroed with
      ptable := update (fun _ => emptyPcb) 0
        ⟨1024, -1, .created, 0, 0, fun _ => ⟨none, false⟩, .user⟩ } := by
    rw [← pid]
    rfl
  simp only [initProc, first, claimed, State.setPcb, update_idem, update_self]

theorem init_live (live : (tableOf initProc).Live p) : p = 0 := by
  by_contra other
  apply live
  simp only [tableOf, initProc_eq, update_of_ne other]
  rfl

theorem init_entry : (tableOf initProc).entry 0 = ⟨1024, -8, .running, 0, .user⟩ := by
  rw [initProc_eq]
  rfl

theorem sound_initial : Sound initProc where
  idle := by
    intro _ _ here
    cases here
  numbered := by
    constructor
    · intro p live
      rw [init_live live, init_entry]
      rfl
    · rfl
  reapable := by
    intro _ live context
    rw [init_live live, init_entry] at context
    cases context

theorem sound_step {k' : State} (sound : Sound k) (step : kernel.step k call k') : Sound k' := by
  obtain ⟨refined, idle⟩ := next_refines step sound.idle
  exact ⟨idle, step_numbered refined sound.numbered, step_reapable refined sound.numbered sound.reapable⟩

theorem reachable_sound (reachable : kernel.Reachable k) : Sound k :=
  reachable.invariant (fun _ start => start ▸ sound_initial) fun _ _ _ => sound_step

end Petix.Proof.Proc
