import Petix.Proof.Sync.Locks

namespace Petix.Proof.Sync
open Function Library Kernel.Sync Kernel.Proc Kernel.Syscall Kernel.SyncCalls
open Spec.Sync Proof.Proc

variable {s s' : SemRun} {k : State} {sem : Sem} {op : SemOp} {p : Slot} {n count : Nat} {w : Waiter}

def Awaits (lst : List Waiter) (n : Nat) (pcb : Pcb) : Prop :=
  ⟨pcb.pid, n⟩ ∈ lst ∧ pcb.rs = .blocked ∨ pcb.pid ∉ lst.map Waiter.pid ∧ Runnable pcb.rs

structure SemSound (count : Nat) (s : SemRun) : Prop where
  housed : Housed s.k
  count : s.sem.count + s.taken = count + s.signalled
  unmet : ∀ w ∈ s.sem.lst, s.sem.count < w.needed
  queue : ∀ w ∈ s.sem.lst, ∃ p, getPcb s.k w.pid = some p ∧ s.needs p = some w.needed ∧ (s.k.ptable p).rs = .blocked
  once : (s.sem.lst.map Waiter.pid).Nodup
  inside : ∀ p n, s.needs p = some n → 1 ≤ n ∧ Awaits s.sem.lst n (s.k.ptable p)

theorem Awaits.live {lst : List Waiter} {pcb : Pcb} (awaits : Awaits lst n pcb) : pcb.rs ≠ .noproc := by
  rcases awaits with ⟨-, blocked⟩ | ⟨-, ready | running⟩
  · simp [blocked]
  · simp [ready]
  · simp [running]

theorem semSound_initial (initial : (waiting count).initial s) : SemSound count s := by
  obtain ⟨housed, sem, needs, signalled, taken⟩ := initial
  refine ⟨housed, ?_, ?_, ?_, ?_, ?_⟩
  · simp [sem, signalled, taken]
  · simp [sem]
  · simp [sem]
  · simp [sem]
  · simp [needs]

section
variable (sound : SemSound count s)
include sound

theorem SemSound.table (housed : Housed k) (kept : ∀ p n, s.needs p = some n → (k.ptable p).pid = (s.k.ptable p).pid ∧
      ((s.k.ptable p).rs = .blocked → (k.ptable p).rs = .blocked) ∧
      (Runnable (s.k.ptable p).rs → Runnable (k.ptable p).rs)) : SemSound count { s with k := k } where
  housed := housed
  count := sound.count
  unmet := sound.unmet
  queue w here := by
    obtain ⟨p, found, needs, blocked⟩ := sound.queue w here
    obtain ⟨home, -, named⟩ := getPcb_found.mp found
    obtain ⟨pid, still, -⟩ := kept p _ needs
    have asleep := still blocked
    exact ⟨p, getPcb_found.mpr ⟨home, by simp [asleep], pid.trans named⟩, needs, asleep⟩
  once := sound.once
  inside p n needs := by
    obtain ⟨positive, awaits⟩ := sound.inside p n needs
    obtain ⟨pid, still, runs⟩ := kept p n needs
    refine ⟨positive, ?_⟩
    unfold Awaits
    rw [pid]
    exact awaits.imp (And.imp_right still) (And.imp_right runs)

theorem SemSound.sched (call : sched s.k = some k) : SemSound count { s with k := k } := by
  apply sound.table (housed_sched sound.housed call)
  intro p n needs
  obtain ⟨rs, entry, change⟩ := sched_entry call p
  rw [entry]
  refine ⟨rfl, ?_, ?_⟩
  · intro blocked
    rcases change with rfl | ⟨ready | running, -⟩
    · exact blocked
    · simp [blocked] at ready
    · simp [blocked] at running
  · intro runnable
    rcases change with rfl | ⟨-, now⟩
    · exact runnable
    · exact now

theorem SemSound.elsewhere
    (other : Elsewhere (fun p => s.needs p ≠ none) (fun _ => False) s.k k) : SemSound count { s with k := k } := by
  apply sound.table other.housed
  intro p _ needs
  rw [other.kept p (by simp [needs])]
  exact ⟨rfl, id, id⟩

theorem SemSound.sleeps (here : w ∈ s.sem.lst) : Sleeps s.k w.pid := by
  obtain ⟨p, found, -, blocked⟩ := sound.queue w here
  exact ⟨p, found, blocked⟩

theorem signalSem_eq (n : Nat) : signalSem s.k s.sem n =
    .ok (readied s.k (semSignal s.sem n).2, (semSignal s.sem n).1) := by
  have wakes : wake s.k (semSignal s.sem n).2 = .ok (readied s.k (semSignal s.sem n).2) := by
    rw [semSignal_eq]
    apply wake_eq sound.housed
    · exact sound.once.sublist (List.filter_sublist.map _)
    · intro _ here
      obtain ⟨_, served, rfl⟩ := List.mem_map.mp here
      exact sound.sleeps (List.mem_filter.mp served).1
  unfold signalSem
  rw [wakes]

end

section
variable {lst : List Waiter} {total : Nat} (once : (lst.map Waiter.pid).Nodup)
include once

theorem unserved_unnamed (here : w ∈ lst.filter (!Served total ·)) :
    w.pid ∉ (lst.filter (Served total)).map Waiter.pid := by
  intro named
  obtain ⟨_, served, same⟩ := List.mem_map.mp named
  obtain ⟨there, enough⟩ := List.mem_filter.mp served
  obtain ⟨before, short⟩ := List.mem_filter.mp here
  obtain rfl := List.inj_on_of_nodup_map once there before same
  simp [enough] at short

theorem Awaits.signal (awaits : Awaits lst n (k.ptable p)) : Awaits (lst.filter (!Served total ·)).reverse n
      ((readied k ((lst.filter (Served total)).map Waiter.pid)).ptable p) := by
  have live := awaits.live
  rcases awaits with ⟨queued, blocked⟩ | ⟨unqueued, runnable⟩
  · by_cases enough : Served total ⟨(k.ptable p).pid, n⟩
    · have served : (k.ptable p).pid ∈ (lst.filter (Served total)).map Waiter.pid :=
        List.mem_map.mpr ⟨_, List.mem_filter.mpr ⟨queued, enough⟩, rfl⟩
      rw [readied_named live served]
      refine .inr ⟨fun still => ?_, .inl rfl⟩
      obtain ⟨w, here, same⟩ := List.mem_map.mp still
      exact unserved_unnamed once (List.mem_reverse.mp here) (same ▸ served)
    · have still : ⟨(k.ptable p).pid, n⟩ ∈ lst.filter (!Served total ·) :=
        List.mem_filter.mpr ⟨queued, by simp [enough]⟩
      rw [readied_unnamed (unserved_unnamed once still)]
      exact .inl ⟨List.mem_reverse.mpr still, blocked⟩
  · have absent : (k.ptable p).pid ∉ (lst.filter (Served total)).map Waiter.pid :=
      fun named => unqueued ((List.filter_sublist.map Waiter.pid).subset named)
    rw [readied_unnamed absent]
    refine .inr ⟨fun still => unqueued ?_, runnable⟩
    obtain ⟨_, here, same⟩ := List.mem_map.mp still
    exact same ▸ List.mem_map_of_mem (List.mem_filter.mp (List.mem_reverse.mp here)).1

end

section
variable (sound : SemSound count s)
include sound

theorem SemSound.signal (positive : 1 ≤ n) (fits : count + s.signalled + n < 2 ^ 32) : SemSound count { s with
      k := readied s.k (semSignal s.sem n).2
      sem := (semSignal s.sem n).1
      signalled := s.signalled + n } := by
  have sum := sound.count
  have total : (s.sem.count + n) % 2 ^ 32 = s.sem.count + n := Nat.mod_eq_of_lt (by omega)
  rw [semSignal_eq, if_neg (by omega), total]
  refine ⟨housed_readied sound.housed, ?_, ?_, ?_, ?_, ?_⟩
  · dsimp only
    omega
  · intro w here
    have short := (List.mem_filter.mp (List.mem_reverse.mp here)).2
    simpa [Served] using short
  · intro w here
    have still := List.mem_reverse.mp here
    obtain ⟨p, found, needs, blocked⟩ := sound.queue w (List.mem_filter.mp still).1
    refine ⟨p, getPcb_readied.mpr found, needs, ?_⟩
    have named := (getPcb_found.mp found).2.2
    rw [readied_unnamed (named ▸ unserved_unnamed sound.once still)]
    exact blocked
  · rw [List.map_reverse, List.nodup_reverse]
    exact sound.once.sublist (List.filter_sublist.map _)
  · intro p m needs
    obtain ⟨least, awaits⟩ := sound.inside p m needs
    exact ⟨least, awaits.signal sound.once⟩

theorem SemSound.unqueued (runs : Runs s.k p) : s.k.curpid ∉ s.sem.lst.map Waiter.pid := by
  intro queued
  obtain ⟨w, here, same⟩ := List.mem_map.mp queued
  obtain ⟨_, found, -, blocked⟩ := sound.queue w here
  rw [same, runs.1] at found
  cases found
  have running := runs.2
  rw [blocked] at running
  cases running

theorem SemSound.served (runs : Runs s.k p) (enough : n ≤ s.sem.count) : SemSound count { s with
      sem := { s.sem with count := s.sem.count - n }
      needs := update s.needs p none
      taken := s.taken + n } := by
  refine ⟨sound.housed, ?_, ?_, ?_, sound.once, ?_⟩
  · have sum := sound.count
    dsimp only
    omega
  · intro w here
    have needed := sound.unmet w here
    dsimp only
    omega
  · intro w here
    obtain ⟨q, found, needs, blocked⟩ := sound.queue w here
    have other : q ≠ p := by
      rintro rfl
      rw [runs.2] at blocked
      cases blocked
    exact ⟨q, found, by simpa only [update_of_ne other] using needs, blocked⟩
  · intro q m needs
    by_cases same : q = p
    · simp [same] at needs
    · simp only [update_of_ne same] at needs
      exact sound.inside q m needs

theorem SemSound.enqueue (runs : Runs s.k p) (positive : 1 ≤ n) (short : s.sem.count < n) : SemSound count { s with
      k := setRs s.k p .blocked
      sem := { s.sem with lst := ⟨s.k.curpid, n⟩ :: s.sem.lst }
      needs := update s.needs p (some n) } := by
  obtain ⟨-, live, pid⟩ := getPcb_found.mp runs.1
  have fresh := sound.unqueued runs
  refine ⟨housed_setRs sound.housed live, sound.count, ?_, ?_, ?_, ?_⟩
  · intro w here
    rcases List.mem_cons.mp here with rfl | before
    · exact short
    · exact sound.unmet w before
  · intro w here
    rcases List.mem_cons.mp here with rfl | before
    · refine ⟨p, getPcb_setRs live runs.1 nofun, by simp, ?_⟩
      simp only [setRs_same]
    · obtain ⟨q, found, needs, blocked⟩ := sound.queue w before
      have other : q ≠ p := by
        rintro rfl
        rw [runs.2] at blocked
        cases blocked
      refine ⟨q, getPcb_setRs live found nofun, ?_, ?_⟩
      · simpa only [update_of_ne other] using needs
      · simpa only [setRs_other other] using blocked
  · exact List.nodup_cons.mpr ⟨fresh, sound.once⟩
  · intro q m needs
    by_cases same : q = p
    · subst same
      simp only [update_self, Option.some.injEq] at needs
      subst needs
      refine ⟨positive, .inl ⟨?_, ?_⟩⟩
      · simp only [setRs_same, pid]
        exact .head _
      · simp only [setRs_same]
    · simp only [update_of_ne same] at needs
      obtain ⟨least, awaits⟩ := sound.inside q m needs
      have distinct : (s.k.ptable q).pid ≠ s.k.curpid :=
        fun equal => same (same_process sound.housed runs.1 awaits.live equal)
      refine ⟨least, ?_⟩
      simp only [setRs_other same]
      rcases awaits with ⟨queued, blocked⟩ | ⟨unqueued, runnable⟩
      · exact .inl ⟨.tail _ queued, blocked⟩
      · exact .inr ⟨List.not_mem_cons_of_ne_of_not_mem distinct unqueued, runnable⟩

theorem SemSound.pass {ended : Bool} (runs : Runs s.k p) (positive : 1 ≤ n)
    (call : waitSem s.k p s.sem n = .ok (k, sem, ended)) : SemSound count { s with
      k := k
      sem := sem
      needs := update s.needs p (if ended then none else some n)
      taken := if ended then s.taken + n else s.taken } := by
  unfold waitSem semWait at call
  rw [if_pos runs.2] at call
  simp only [show n ≠ 0 by omega, if_false] at call
  by_cases enough : n ≤ s.sem.count
  · rw [if_pos enough] at call
    cases call
    exact sound.served runs enough
  · rw [if_neg enough] at call
    cases call
    exact sound.enqueue runs positive (by omega)

theorem SemSound.step (fits : Fits count s op) (step : SemStep s op s') : SemSound count s' := by
  cases step with
  | sched call => exact sound.sched call
  | signal positive call =>
    rw [signalSem_eq sound] at call
    cases call
    exact sound.signal positive fits
  | wait runs outside positive call => exact sound.pass runs positive call
  | retry runs needs call => exact sound.pass runs (sound.inside _ _ needs).1 call
  | other change => exact sound.elsewhere change

theorem SemSound.conserved : Conserved count s where
  count := sound.count
  unmet := sound.unmet
  asleep w here := sound.sleeps here
  once := sound.once
  inside p n needs := by
    obtain ⟨-, awaits⟩ := sound.inside p n needs
    exact awaits.imp_right And.right
  signal n := ⟨_, _, signalSem_eq sound n⟩

end

theorem semaphore_conserved (reachable : ((waiting count).restrict (Fits count)).Reachable s) : Conserved count s := by
  apply SemSound.conserved
  apply reachable.invariant
  · intro s initial
    exact semSound_initial initial
  · intro _ _ _ sound step
    exact sound.step step.1 step.2

theorem semaphore_conserved_short : ∃ s, ((waiting 0).restrict (Fits 0)).Reachable s ∧
    s.sem = ⟨1, [⟨1024, 2⟩]⟩ ∧ Conserved 0 s := by
  obtain ⟨-, runs, -, pid, -⟩ := twoProcs_run
  have start : ((waiting 0).restrict (Fits 0)).Reachable ⟨twoProcs, ⟨0, []⟩, fun _ => none, 0, 0⟩ :=
    .initial ⟨housed_twoProcs, rfl, fun _ => rfl, rfl, rfl⟩
  have wait : waitSem twoProcs 0 ⟨0, []⟩ 2 = .ok (setRs twoProcs 0 .blocked, ⟨0, [⟨1024, 2⟩]⟩, false) := by
    rw [waitSem, if_pos runs.2, pid]
    rfl
  have signal : signalSem (setRs twoProcs 0 .blocked) ⟨0, [⟨1024, 2⟩]⟩ 1 =
      .ok (setRs twoProcs 0 .blocked, ⟨1, [⟨1024, 2⟩]⟩) := rfl
  have queued := start.next (a := SemOp.wait 2) ⟨trivial, .wait runs rfl (by decide) wait⟩
  have short := queued.next (a := SemOp.signal 1) ⟨by simp [Spec.Sync.Fits], .signal (by decide) signal⟩
  exact ⟨_, short, rfl, semaphore_conserved short⟩

end Petix.Proof.Sync
