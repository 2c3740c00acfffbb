import Petix.Proof.Proc.Tree

namespace Petix.Proof.Proc
open Library Kernel.Proc Kernel.Syscall Spec.Processes

variable {t t' : Table} {k k' : State} {p q c : Slot} {call : Call}
variable {pid : Int}

def Parented (t : Table) : Prop := ∀ c, t.Live c → 0 < (t.entry c).ppid → ∃ q, t.Finds (t.entry c).ppid q

theorem parentsExist_iff : ParentsExist k ↔ Parented (tableOf k) := by
  refine forall_congr' fun c => forall_congr' fun live => forall_congr' fun child => ?_
  rw [Option.ne_none_iff_exists']
  exact exists_congr fun q => getPcb_iff

theorem finds_set_other {e : Entry} (other : q ≠ p) : (t.set p e).Finds pid q ↔ t.Finds pid q := by
  simp only [Table.Finds, Table.Live, set_entry_other other]

theorem reap_steady (other : q ≠ c) : (((t.unwait p).release c).entry q).pid = (t.entry q).pid ∧
      (((t.unwait p).release c).entry q).ppid = (t.entry q).ppid ∧ (((t.unwait p).release c).Live q ↔ t.Live q) := by
  simp only [Table.Live, reap_other other]
  exact steady_unwait t p q

theorem finds_reap (other : q ≠ c) : ((t.unwait p).release c).Finds pid q ↔ t.Finds pid q := by
  obtain ⟨same, -, live⟩ := reap_steady (t := t) (p := p) other
  simp only [Table.Finds, same, live]

theorem running_finds {context : Context} (running : Running t context) : t.Finds t.curpid t.current :=
  ⟨rfl, live_of_running running.1, running.2.1⟩

theorem step_child (step : Step t call t') (live : t'.Live c) : t.Live c ∧ (t'.entry c).ppid = (t.entry c).ppid ∨
      call = .sysFork ∧ (t'.entry c).ppid = t.curpid ∧ Running t .user := by
  rcases step_steady_or step with steady | ⟨new, _, fork, running, -, -, rfl⟩ | ⟨d, -, -, -, -, rfl⟩
  · obtain ⟨-, ppid, before⟩ := steady c
    exact .inl ⟨before.mp live, ppid⟩
  · by_cases same : c = new
    · subst same
      rw [set_entry_same]
      exact .inr ⟨fork, rfl, running⟩
    · rw [Table.Live, set_entry_other same] at live
      rw [set_entry_other same]
      exact .inl ⟨live, rfl⟩
  · have other : c ≠ d := by
      rintro rfl
      exact reap_gone t t.current c live
    obtain ⟨-, ppid, before⟩ := reap_steady (t := t) (p := t.current) other
    exact .inl ⟨before.mp live, ppid⟩

theorem step_finds (step : Step t call t') (found : t.Finds pid q)
    (kept : call = .waitpidReap → ¬ t.Finds (t.entry t.current).waitPid q) : t'.Finds pid q := by
  rcases step_steady_or step with steady | ⟨new, _, -, -, free, -, rfl⟩ | ⟨d, reap, -, -, released, rfl⟩
  · exact steady.finds.mpr found
  · have other : q ≠ new := by
      rintro rfl
      exact found.2.1 free
    exact (finds_set_other other).mpr found
  · have other : q ≠ d := by
      rintro rfl
      exact kept reap released
    exact (finds_reap other).mpr found

theorem step_parented (step : Step t call t') (parented : Parented t) (other : call ≠ .waitpidReap) : Parented t' := by
  intro c live child
  rcases step_child step live with ⟨before, ppid⟩ | ⟨-, ppid, running⟩
  · rw [ppid] at child ⊢
    obtain ⟨q, found⟩ := parented c before child
    exact ⟨q, step_finds step found fun reap => absurd reap other⟩
  · rw [ppid]
    exact ⟨t.current, step_finds step (running_finds running) fun reap => absurd reap other⟩

theorem reap_parented_iff (numbered : Numbered t) (parented : Parented t) (live : t.Live c) :
    Parented ((t.unwait p).release c) ↔
      ∀ e, e ≠ c → t.Live e → 0 < (t.entry e).ppid → (t.entry e).ppid ≠ (t.entry c).pid := by
  constructor
  · intro after e other liveE child orphan
    obtain ⟨-, ppid, before⟩ := reap_steady (t := t) (p := p) other
    obtain ⟨q, found, liveQ, -⟩ := after e (before.mpr liveE) (by rwa [ppid])
    rw [ppid, orphan, numbered.slot c live] at found
    subst found
    exact reap_gone t p c liveQ
  · intro childless e liveE child
    have other : e ≠ c := by
      rintro rfl
      exact reap_gone t p e liveE
    obtain ⟨-, ppid, before⟩ := reap_steady (t := t) (p := p) other
    rw [ppid] at child ⊢
    obtain ⟨q, found⟩ := parented e (before.mp liveE) child
    have survives : q ≠ c := by
      rintro rfl
      exact childless e other (before.mp liveE) child found.2.2.symm
    exact ⟨q, (finds_reap survives).mpr found⟩

theorem reapsChildless_iff (found : (tableOf k).Finds (k.ptable (pidOff k.curpid)).waitPid c) :
    ReapsChildless k .waitpidReap ↔ ∀ e, e ≠ c → (tableOf k).Live e → 0 < ((tableOf k).entry e).ppid →
      ((tableOf k).entry e).ppid ≠ ((tableOf k).entry c).pid := by
  constructor
  · intro childless
    exact childless c (getPcb_iff.mpr found)
  · intro childless d found'
    obtain rfl : c = d := found.1.symm.trans (getPcb_iff.mp found').1
    exact childless

theorem parentsExist_step (sound : Sound k) (exist : ParentsExist k) (step : kernel.step k call k') :
    ParentsExist k' ↔ ReapsChildless k call := by
  obtain ⟨refined, -⟩ := next_refines step sound.idle
  rw [parentsExist_iff] at exist ⊢
  by_cases reap : call = .waitpidReap
  · subst reap
    obtain ⟨_, -, -, found, table⟩ := step_reap refined
    rw [table, reap_parented_iff sound.numbered exist found.2.1]
    exact (reapsChildless_iff found).symm
  · have guard : ReapsChildless k call := by
      cases call with
      | waitpidReap => exact absurd rfl reap
      | _ => trivial
    exact iff_of_true (step_parented refined exist reap) guard

theorem reachable_parentsExist (reachable : (kernel.restrict ReapsChildless).Reachable k) :
    Sound k ∧ ParentsExist k := by
  induction reachable with
  | initial start =>
    rw [start]
    refine ⟨sound_initial, parentsExist_iff.mpr ?_⟩
    intro _ live child
    rw [init_live live, init_entry] at child
    exact absurd child (by decide)
  | next _ step ih => exact ⟨sound_step ih.1 step.2, (parentsExist_step ih.1 ih.2 step.2).mpr step.1⟩

def Reared (t : Table) : Prop :=
  ∀ c, t.Live c → 0 < (t.entry c).ppid → ∃ q, t.Finds (t.entry c).ppid q ∧ (t.entry q).rs ≠ .terminated

theorem step_reared (step : Step t call t') (numbered : Numbered t) (reapable : Reapable t) (reared : Reared t)
    (childless : (∃ code, call = .sysExit code) → ∀ e, t.Live e → (t.entry e).ppid ≠ t.curpid) : Reared t' := by
  intro c live child
  rcases step_child step live with ⟨before, ppid⟩ | ⟨fork, ppid, running⟩
  · rw [ppid] at child ⊢
    obtain ⟨q, found, alive⟩ := reared c before child
    refine ⟨q, step_finds step found ?_, ?_⟩
    · -- what is reaped has terminated
      rintro rfl released
      obtain ⟨-, context, running, -⟩ := step_reap step
      obtain ⟨e, found', dead, -⟩ := reapable t.current (live_of_running running) context (by simp [running])
      obtain rfl : e = q := found'.1.symm.trans released.1
      exact alive dead
    · intro dead
      rcases step_terminated step dead with earlier | ⟨exit, rfl⟩
      · exact alive earlier
      · exact childless exit c before (found.2.2.symm.trans numbered.current)
  · rw [ppid]
    refine ⟨t.current, step_finds step (running_finds running) (by simp [fork]), ?_⟩
    intro dead
    rcases step_terminated step dead with earlier | ⟨⟨_, exit⟩, -⟩
    · rw [running.1] at earlier
      cases earlier
    · cases fork.symm.trans exit

theorem reachable_reared (reachable : (kernel.restrict ExitsChildless).Reachable k) : Sound k ∧ Reared (tableOf k) := by
  induction reachable with
  | initial start =>
    rw [start]
    refine ⟨sound_initial, ?_⟩
    intro _ live child
    rw [init_live live, init_entry] at child
    exact absurd child (by decide)
  | next _ step ih =>
    obtain ⟨guard, step⟩ := step
    obtain ⟨refined, -⟩ := next_refines step ih.1.idle
    refine ⟨sound_step ih.1 step, step_reared refined ih.1.numbered ih.1.reapable ih.2 ?_⟩
    rintro ⟨_, rfl⟩
    exact guard

theorem wakeParent_ok (exist : ParentsExist k) (live : (k.ptable p).rs ≠ .noproc) : ∃ k', wakeParent k p = .ok k' := by
  unfold wakeParent
  split_ifs with child
  · obtain ⟨_, found⟩ := Option.ne_none_iff_exists'.mp (exist p live child)
    simp only [found, deref, bind, Except.bind]
    split_ifs
    · exact ⟨_, rfl⟩
    · exact ⟨_, rfl⟩
  · exact ⟨_, rfl⟩

theorem parents_exist_while_reaped_childless : ((kernel.restrict ReapsChildless).Reachable k → ParentsExist k ∧
      (∀ p, (k.ptable p).rs ≠ .noproc → ∃ k', wakeParent k p = .ok k') ∧
      ∀ call k', kernel.step k call k' → (ParentsExist k' ↔ ReapsChildless k call)) ∧
    ((kernel.restrict ExitsChildless).Reachable k → ∀ c, (k.ptable c).rs ≠ .noproc → 0 < (k.ptable c).ppid →
        ∃ q, getPcb k (k.ptable c).ppid = some q ∧ (k.ptable q).rs ≠ .terminated) := by
  constructor
  · intro reachable
    obtain ⟨sound, exist⟩ := reachable_parentsExist reachable
    exact ⟨exist, fun p live => wakeParent_ok exist live, fun call k' step => parentsExist_step sound exist step⟩
  · intro reachable c live child
    obtain ⟨q, found, alive⟩ := (reachable_reared reachable).2 c live child
    exact ⟨q, getPcb_iff.mpr found, alive⟩

theorem parents_exist_forked :
    ∃ k, (kernel.restrict ReapsChildless).Reachable k ∧ (kernel.restrict ExitsChildless).Reachable k ∧
      (k.ptable 1).rs = .running ∧ (k.ptable 1).ppid = 1024 ∧ ParentsExist k ∧
      ∃ q, getPcb k 1024 = some q ∧ (k.ptable q).rs ≠ .terminated := by
  have run : ((advance initProc .sysFork).bind fun k => advance k .tick).map
      (fun k => ((k.ptable 1).rs, (k.ptable 1).ppid)) = some (.running, 1024) := by
    decide +kernel
  obtain ⟨k, computed, equal⟩ := Option.map_eq_some_iff.mp run
  obtain ⟨running, ppid⟩ := Prod.mk.inj equal
  obtain ⟨_, fork, tick⟩ := Option.bind_eq_some_iff.mp computed
  have reaped : (kernel.restrict ReapsChildless).Reachable k :=
    .next (a := .tick) (.next (a := .sysFork) (.initial rfl) ⟨trivial, advance_sound _ _ _ fork⟩)
      ⟨trivial, advance_sound _ _ _ tick⟩
  have exited : (kernel.restrict ExitsChildless).Reachable k :=
    .next (a := .tick) (.next (a := .sysFork) (.initial rfl) ⟨trivial, advance_sound _ _ _ fork⟩)
      ⟨trivial, advance_sound _ _ _ tick⟩
  obtain ⟨exist, reared⟩ := parents_exist_while_reaped_childless (k := k)
  refine ⟨k, reaped, exited, running, ppid, (exist reaped).1, ?_⟩
  rw [← ppid]
  exact reared exited 1 (by simp [running]) (by simp [ppid])

theorem orphan_exit_faults : ∃ k, kernel.Reachable k ∧ ¬ ParentsExist k ∧ next k (.sysExit 0) = .error .nullPcb := by
  have run : ([.sysFork, .tick, .sysFork, .sysExit 0, .tick, .tick, .sysWaitpid (-1), .waitpidReap,
      .tick].foldlM advance initProc).map (fun k => ((k.ptable 2).rs, (k.ptable 2).ppid, getPcb k 1025,
        match next k (.sysExit 0) with | .error fault => some fault | .ok _ => none)) =
      some (.running, 1025, none, some .nullPcb) := by
    decide +kernel
  obtain ⟨k, computed, equal⟩ := Option.map_eq_some_iff.mp run
  simp only [Prod.mk.injEq] at equal
  obtain ⟨running, ppid, absent, fault⟩ := equal
  refine ⟨k, System.Reachable.run advance_sound (.initial rfl) computed, ?_, ?_⟩
  · intro exist
    refine exist 2 (by simp [running]) (by simp [ppid]) ?_
    rw [ppid]
    exact absent
  · split at fault
    · rename_i equal
      rw [equal, Option.some.inj fault]
    · cases fault

end Petix.Proof.Proc
