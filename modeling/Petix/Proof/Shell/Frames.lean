import Petix.Proof.Shell.World

namespace Petix.Proof.Shell
open Library Library.Result Kernel.Proc Kernel.Syscall Kernel.Shell
open Spec.Files Spec.Processes Spec.Shell Proof.Proc

variable {k k' : State} {t t' : Table} {p q : Slot} {call : Call} {pid : Int} {r : Request}
variable {allowed : State → Request → Prop} {w w' : World}

structure Undisturbed (e e' : Entry) : Prop where
  pid : e'.pid = e.pid
  context : e'.context = e.context
  live : e'.rs ≠ .noproc
  alive : e'.rs ≠ .terminated
  waitPid : e'.waitPid = e.waitPid ∨ e.waitPid = -1

theorem Undisturbed.refl {e : Entry} (live : e.rs ≠ .noproc) (alive : e.rs ≠ .terminated) : Undisturbed e e :=
  ⟨rfl, rfl, live, alive, .inl rfl⟩

theorem notify_undisturbed (t : Table) (q r p : Slot) (live : t.Live p) (alive : (t.entry p).rs ≠ .terminated) :
    Undisturbed (t.entry p) ((t.notify q r).entry p) := by
  unfold Table.notify
  split_ifs with waiting
  · by_cases same : p = r
    · subst same
      rw [set_entry_same]
      refine ⟨rfl, rfl, by simp, by simp, ?_⟩
      rcases waiting.2 with equal | any
      · exact .inl equal.symm
      · exact .inr any
    · rw [set_entry_other same]
      exact .refl live alive
  · exact .refl live alive

theorem step_undisturbed (step : Step t call t') (reapable : Reapable t) (other : call = .tick ∨ t.current ≠ p)
    (live : t.Live p) (alive : (t.entry p).rs ≠ .terminated) : Undisturbed (t.entry p) (t'.entry p) := by
  have same : Undisturbed (t.entry p) (t.entry p) := .refl live alive
  have elsewhere (user : call ≠ .tick) : p ≠ t.current := fun own => other.elim user fun apart => apart own.symm
  cases step with
  | quiet => exact same
  | tick ready =>
    obtain ⟨_, entry, change⟩ := tick_entry ready p
    rw [entry]
    rcases change with rfl | ⟨-, rfl | rfl⟩
    · exact same
    · exact ⟨rfl, rfl, by simp, by simp, .inl rfl⟩
    · exact ⟨rfl, rfl, by simp, by simp, .inl rfl⟩
  | @fork new _ running free _ =>
    have old : p ≠ new := by
      rintro rfl
      exact live free
    rw [set_entry_other old]
    exact same
  | orphanExit =>
    rw [Table.terminate, set_entry_other (elsewhere (by simp))]
    exact same
  | @exit code parent =>
    rw [Table.terminate, set_entry_other (elsewhere (by simp))]
    exact notify_undisturbed t t.current parent p live alive
  | found =>
    rw [set_entry_other (elsewhere (by simp))]
    exact same
  | scanned =>
    rw [set_entry_other (elsewhere (by simp))]
    exact same
  | block =>
    rw [set_entry_other (elsewhere (by simp))]
    exact same
  | @reap c context running found =>
    obtain ⟨d, found', dead, -⟩ := reapable t.current (live_of_running running) context (by simp [running])
    obtain rfl : d = c := found'.1.symm.trans found.1
    have spared : p ≠ d := by
      rintro rfl
      exact alive dead
    rw [reap_other spared, Table.unwait, set_entry_other (elsewhere (by simp))]
    exact same

def Child (t : Table) (p : Slot) (pid : Int) (q : Slot) : Prop :=
  t.Live q ∧ (t.entry q).ppid = (t.entry p).pid ∧ (t.entry q).pid = pid

theorem unreaped_iff : Unreaped k p pid ↔ ∃ q, Child (tableOf k) p pid q := Iff.rfl

theorem Steady.child (steady : Steady t t') : Child t' p pid q ↔ Child t p pid q := by
  obtain ⟨same, ppid, live⟩ := steady q
  simp only [Child, same, ppid, live, (steady p).1]

theorem step_child (step : Step t call t') (numbered : Numbered t) (reapable : Reapable t)
    (other : call = .tick ∨ t.current ≠ p) (live : t.Live p) : Child t' p pid q ↔ Child t p pid q := by
  have current (running : (t.entry t.current).rs = .running) (apart : t.current ≠ p) :
      (t.entry t.current).pid ≠ (t.entry p).pid :=
    fun same => apart (numbered.unique (live_of_running running) live same)
  rcases step_steady_or step with steady | ⟨new, -, rfl, running, free, -, rfl⟩ | ⟨c, rfl, context, running, found, rfl⟩
  · exact Steady.child steady
  · have apart := other.resolve_left (by simp)
    have old : p ≠ new := by
      rintro rfl
      exact live free
    by_cases same : q = new
    · subst same
      constructor
      · rintro ⟨-, parent, -⟩
        rw [set_entry_same, set_entry_other old, ← numbered.current] at parent
        exact absurd parent (current running.1 apart)
      · rintro ⟨alive, -⟩
        exact absurd free alive
    · simp only [Child, Table.Live, set_entry_other same, set_entry_other old]
  · have apart := other.resolve_left (by simp)
    obtain ⟨d, found', -, parent⟩ := reapable t.current (live_of_running running) context (by simp [running])
    obtain rfl : d = c := found'.1.symm.trans found.1
    by_cases same : q = d
    · subst same
      constructor
      · rintro ⟨alive, -⟩
        exact absurd alive (reap_gone t t.current q)
      · rintro ⟨-, parent', -⟩
        exact absurd (parent.symm.trans parent') (current running apart)
    · have unwaited := steady_unwait t t.current
      have entry : ((t.unwait t.current).release d).entry q = (t.unwait t.current).entry q := reap_other same
      have pid_p : (((t.unwait t.current).release d).entry p).pid = (t.entry p).pid := by
        by_cases mine : p = d
        · rw [mine, Table.release, set_entry_same]
          exact (unwaited d).1
        · rw [reap_other mine]
          exact (unwaited p).1
      obtain ⟨pid_q, ppid_q, live_q⟩ := unwaited q
      simp only [Child, Table.Live, entry, pid_p, pid_q, ppid_q]
      exact and_congr_left' live_q

theorem step_slot_other (accounted : Accounted k) (step : kernel.step k call k')
    (other : call = .tick ∨ pidOff k.curpid ≠ p) (live : (k.ptable p).rs ≠ .noproc) : slot k' p = slot k p := by
  obtain ⟨sound, balanced, -⟩ := accounted
  have idle := sound.idle
  have apart (process : call ≠ .tick) : p ≠ pidOff k.curpid := fun same => other.resolve_left process same.symm
  cases next_took step with
  | tick call => rw [(sched_same call).slots]
  | sysOpen active call => exact (of_total (sysOpen_kept balanced idle (active.current sound)) call).others p (apart nofun)
  | sysClose active call => exact (of_total (sysClose_kept balanced idle (active.current sound)) call).others p (apart nofun)
  | sysDup2 active call => exact (of_total (sysDup2_kept balanced idle (active.current sound)) call).others p (apart nofun)
  | sysPipe active call => exact (of_total (sysPipe_kept balanced (active.current sound)) call).others p (apart nofun)
  | sysFork active call =>
    cases sysFork_forked active.running call with
    | full => rfl
    | made _ free _ _ _ others =>
      unfold slot
      rw [others p]
      rintro rfl
      exact live free
  | sysExec active call =>
    obtain ⟨_, run, kept⟩ := sysExec_kept balanced idle (active.current sound)
    cases run.symm.trans call
    exact kept.others p (apart nofun)
  | sysExit _ call => exact (sysExit_balanced balanced idle call).2.1 p (apart nofun)
  | sysWaitpid _ call => rw [(sysWaitpid_same call).slots]
  | waitpidBlock => exact congrFun waitpidBlock_same.slots p
  | waitpidReap _ call => rw [(waitpidReap_same call).slots]

structure Alive (p : Slot) (w : World) : Prop where
  reachable : kernel.Reachable w.kernel
  live : (w.kernel.ptable p).rs ≠ .noproc
  alive : (w.kernel.ptable p).rs ≠ .terminated

structure Same (p : Slot) (w w' : World) : Prop where
  entry : Undisturbed (entryOf (w.kernel.ptable p)) (entryOf (w'.kernel.ptable p))
  slots : slot w'.kernel p = slot w.kernel p
  unreaped : ∀ pid, Unreaped w'.kernel p pid ↔ Unreaped w.kernel p pid
  children : w'.children = w.children

theorem Alive.step (alive : Alive p w) (step : kernel.step w.kernel call w'.kernel)
    (stays : ∀ code, call = .sysExit code → p ≠ pidOff w.kernel.curpid) : Alive p w' := by
  have sound := reachable_sound alive.reachable
  obtain ⟨refined, -⟩ := next_refines step sound.idle
  have free (gone : (w'.kernel.ptable p).rs = .noproc ∨ (w'.kernel.ptable p).rs = .terminated) : False := by
    rcases step_free (q := p) refined sound.reapable gone with absent | dead | ⟨⟨code, exit⟩, own⟩
    · exact alive.live absent
    · exact alive.alive dead
    · exact stays code exit own
  exact ⟨alive.reachable.next step, fun absent => free (.inl absent), fun dead => free (.inr dead)⟩

theorem Alive.performs {reply : Option (Reply r)} (alive : Alive p w)
    (step : (setting p allowed).performs r w reply w') (stays : ∀ code, r ≠ .exit code) : Alive p w' := by
  obtain ⟨⟨rfl, running, -, _, call⟩, -⟩ := step
  obtain ⟨_, taken, exits⟩ := serve_step running call
  exact alive.step taken fun code exit => absurd (exits code exit) (stays code)

theorem current_pcb (alive : Alive p w) (current : pidOff w.kernel.curpid = p)
    (running : (w.kernel.ptable p).rs = .running) : getPcb w.kernel w.kernel.curpid = some p := by
  subst current
  exact getPcb_iff.mpr ⟨rfl, live_of_running (t := tableOf w.kernel) running,
    (reachable_sound alive.reachable).numbered.current⟩

theorem Alive.rely (alive : Alive p w) (step : (setting p allowed).rely w w') : Alive p w' ∧ Same p w w' := by
  obtain ⟨⟨_, step, other⟩, children⟩ := step
  have accounted := reachable_accounted alive.reachable
  obtain ⟨refined, -⟩ := next_refines step accounted.sound.idle
  have entry := step_undisturbed refined accounted.sound.reapable other alive.live alive.alive
  refine ⟨⟨alive.reachable.next step, entry.live, entry.alive⟩, entry,
    step_slot_other accounted step other alive.live, fun pid => ?_, children⟩
  exact exists_congr fun q => step_child refined accounted.sound.numbered accounted.sound.reapable other alive.live

end Petix.Proof.Shell
