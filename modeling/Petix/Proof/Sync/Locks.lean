import Mathlib.Data.List.Nodup
import Petix.Proof.Sync.Waking
import Petix.Spec.Sync

namespace Petix.Proof.Sync
open Function Library Kernel.Sync Kernel.Proc Kernel.Syscall Kernel.SyncCalls
open Spec.Sync Proof.Proc

variable {s s' : LockRun} {k k' : State} {lock lock' : Lock} {op : LockOp} {p q h : Slot} {pid : Int}
variable {lst : List Int}

structure Holder (s : LockRun) (h : Slot) : Prop where
  live : (s.k.ptable h).rs ≠ .noproc
  heldBy : s.lock.heldBy = (s.k.ptable h).pid
  depth : s.depth h = s.lock.lcnt + 1
  others : ∀ q, q ≠ h → s.depth q = 0

def Stands (lst : List Int) (pcb : Pcb) : Prop := pcb.pid ∈ lst ∧ pcb.rs = .blocked ∨ pcb.pid ∉ lst ∧ Runnable pcb.rs

theorem Stands.live {pcb : Pcb} (stands : Stands lst pcb) : pcb.rs ≠ .noproc := by
  rcases stands with ⟨-, blocked⟩ | ⟨-, ready | running⟩
  · simp [blocked]
  · simp [ready]
  · simp [running]

structure LockSound (s : LockRun) : Prop where
  housed : Housed s.k
  own : s.lock.global = false
  held : s.lock.locked = true → ∃ h, Holder s h
  free : s.lock.locked = false → s.lock.lst = [] ∧ ∀ p, s.depth p = 0
  queue : ∀ pid ∈ s.lock.lst, ∃ p, getPcb s.k pid = some p ∧ s.acquiring p = true
  inside : ∀ p, s.acquiring p = true → s.depth p = 0 ∧ Stands s.lock.lst (s.k.ptable p)

theorem LockSound.holder (sound : LockSound s) (deep : 0 < s.depth p) : s.lock.locked = true ∧ Holder s p := by
  cases locked : s.lock.locked with
  | false =>
    have none := (sound.free locked).2 p
    omega
  | true =>
    obtain ⟨h, holder⟩ := sound.held locked
    have same : p = h := by
      by_contra other
      have none := holder.others p other
      omega
    exact ⟨rfl, same ▸ holder⟩

theorem lockSound_initial (initial : locking.initial s) : LockSound s := by
  obtain ⟨housed, unlocked, own, empty, depth, outside⟩ := initial
  refine ⟨housed, own, ?_, fun _ => ⟨empty, depth⟩, ?_, ?_⟩
  · simp [unlocked]
  · simp [empty]
  · simp [outside]

theorem LockSound.table (sound : LockSound s) (housed : Housed k)
    (holds : ∀ p, 0 < s.depth p → (k.ptable p).pid = (s.k.ptable p).pid ∧ (k.ptable p).rs ≠ .noproc)
    (stands : ∀ p, s.acquiring p = true → (k.ptable p).pid = (s.k.ptable p).pid ∧
      Stands s.lock.lst (k.ptable p)) : LockSound { s with k := k } where
  housed := housed
  own := sound.own
  held locked := by
    obtain ⟨h, holder⟩ := sound.held locked
    obtain ⟨pid, live⟩ := holds h (by rw [holder.depth]; omega)
    exact ⟨h, live, holder.heldBy.trans pid.symm, holder.depth, holder.others⟩
  free := sound.free
  queue pid here := by
    obtain ⟨p, found, inside⟩ := sound.queue pid here
    obtain ⟨same, stands⟩ := stands p inside
    obtain ⟨home, -, named⟩ := getPcb_found.mp found
    exact ⟨p, getPcb_found.mpr ⟨home, stands.live, same.trans named⟩, inside⟩
  inside p inside := ⟨(sound.inside p inside).1, (stands p inside).2⟩

theorem stands_of_sched (stands : Stands lst (k.ptable p)) (call : sched k = some k') :
    Stands lst (k'.ptable p) := by
  obtain ⟨_, entry, change⟩ := sched_entry call p
  rw [entry]
  rcases change with rfl | ⟨before, now⟩
  · exact stands
  · rcases stands with ⟨-, blocked⟩ | ⟨unqueued, -⟩
    · rcases before with ready | running
      · simp [blocked] at ready
      · simp [blocked] at running
    · exact .inr ⟨unqueued, now⟩

theorem sched_pid (call : sched k = some k') (p : Slot) :
    (k'.ptable p).pid = (k.ptable p).pid ∧ ((k'.ptable p).rs ≠ .noproc ↔ (k.ptable p).rs ≠ .noproc) := by
  obtain ⟨rs, entry, change⟩ := sched_entry call p
  rw [entry]
  refine ⟨rfl, ?_⟩
  rcases change with rfl | ⟨before, now⟩
  · rfl
  · have live {rs : ReadyState} (runnable : Runnable rs) : rs ≠ .noproc := by
      rcases runnable with rfl | rfl
      · simp
      · simp
    exact ⟨fun _ => live before, fun _ => live now⟩

theorem housed_sched (housed : Housed k) (call : sched k = some k') : Housed k' := by
  intro p live
  obtain ⟨pid, same⟩ := sched_pid call p
  rw [pid]
  exact housed p (same.mp live)

theorem LockSound.sched (sound : LockSound s) (call : sched s.k = some k) : LockSound { s with k := k } := by
  apply sound.table (housed_sched sound.housed call)
  · intro p deep
    obtain ⟨-, holder⟩ := sound.holder deep
    obtain ⟨pid, live⟩ := sched_pid call p
    exact ⟨pid, live.mpr holder.live⟩
  · intro p inside
    exact ⟨(sched_pid call p).1, stands_of_sched (sound.inside p inside).2 call⟩

theorem LockSound.elsewhere (sound : LockSound s)
    (other : Elsewhere (s.acquiring ·) (0 < s.depth ·) s.k k) : LockSound { s with k := k } := by
  apply sound.table other.housed other.stays
  intro p inside
  rw [other.kept p inside]
  exact ⟨rfl, (sound.inside p inside).2⟩

inductive Acquires (k : State) (p : Slot) (lock : Lock) : State → Lock → Bool → Prop
  | again : lock.locked = true → lock.heldBy = k.curpid →
      Acquires k p lock k { lock with lcnt := (lock.lcnt + 1) % 2 ^ 32 } true
  | queue : lock.locked = true → lock.heldBy ≠ k.curpid →
      Acquires k p lock (setRs k p .blocked) { lock with lst := k.curpid :: lock.lst } false
  | take : lock.locked = false →
      Acquires k p lock k { lock with locked := true, heldBy := k.curpid, global := false, lcnt := 0 } true

theorem acquireLock_cases {held : Bool} (own : lock.global = false) (found : getPcb k k.curpid = some p)
    (call : acquireLock true k lock = .ok (k', lock', held)) : Acquires k p lock k' lock' held := by
  unfold acquireLock at call
  rw [if_pos rfl] at call
  split_ifs at call with again locked
  · cases call
    have mine : lock.heldBy = k.curpid := again.2.resolve_right (by simp [own])
    exact .again again.1 mine
  · rw [found] at call
    cases call
    exact .queue locked fun mine => again ⟨locked, .inl mine⟩
  · cases call
    exact .take (by simpa using locked)

section
variable (sound : LockSound s)
include sound

theorem LockSound.again (runs : Runs s.k p) (shallow : s.depth p < 2 ^ 32)
    (locked : s.lock.locked = true) (mine : s.lock.heldBy = s.k.curpid) :
    LockSound ⟨s.k, { s.lock with lcnt := (s.lock.lcnt + 1) % 2 ^ 32 },
      update s.depth p (s.depth p + 1), update s.acquiring p false⟩ := by
  obtain ⟨h, holder⟩ := sound.held locked
  obtain rfl : h = p := same_process sound.housed runs.1 holder.live (holder.heldBy.symm.trans mine)
  have outside : s.acquiring h = false := by
    by_contra inside
    have zero := (sound.inside h (by simpa using inside)).1
    rw [holder.depth] at zero
    omega
  have same : update s.acquiring h false = s.acquiring := by rw [← outside, update_eq_self]
  rw [same]
  refine ⟨sound.housed, sound.own, fun _ => ⟨h, holder.live, holder.heldBy, ?_, ?_⟩, ?_, sound.queue, ?_⟩
  · have depth := holder.depth
    simp only [update_self]
    omega
  · intro q other
    simp only [update_of_ne other]
    exact holder.others q other
  · intro free
    exact absurd (locked.symm.trans free) (by simp)
  · intro q inside
    have other : q ≠ h := by
      rintro rfl
      rw [outside] at inside
      cases inside
    simp only [update_of_ne other]
    exact sound.inside q inside

theorem LockSound.take (runs : Runs s.k p) (unlocked : s.lock.locked = false) :
    LockSound ⟨s.k, { s.lock with locked := true, heldBy := s.k.curpid, global := false, lcnt := 0 },
      update s.depth p (s.depth p + 1), update s.acquiring p false⟩ := by
  obtain ⟨empty, depth⟩ := sound.free unlocked
  obtain ⟨-, live, pid⟩ := getPcb_found.mp runs.1
  refine ⟨sound.housed, rfl, fun _ => ⟨p, live, pid.symm, ?_, ?_⟩, nofun, ?_, ?_⟩
  · simp [depth]
  · intro q other
    simp [other, depth]
  · simp [empty]
  · intro q inside
    by_cases same : q = p
    · simp [same] at inside
    · simp only [update_of_ne same] at inside ⊢
      exact sound.inside q inside

theorem LockSound.enqueue (runs : Runs s.k p) (locked : s.lock.locked = true) (others : s.lock.heldBy ≠ s.k.curpid) :
    LockSound ⟨setRs s.k p .blocked, { s.lock with lst := s.k.curpid :: s.lock.lst }, s.depth,
      update s.acquiring p true⟩ := by
  obtain ⟨h, holder⟩ := sound.held locked
  obtain ⟨-, live, pid⟩ := getPcb_found.mp runs.1
  have elsewhere : h ≠ p := by
    rintro rfl
    exact others (holder.heldBy.trans pid)
  have distinct {q : Slot} (alive : (s.k.ptable q).rs ≠ .noproc) (other : q ≠ p) : (s.k.ptable q).pid ≠ s.k.curpid :=
    fun same => other (same_process sound.housed runs.1 alive same)
  refine ⟨housed_setRs sound.housed live, sound.own, fun _ => ⟨h, ?_, ?_, holder.depth, holder.others⟩, ?_, ?_, ?_⟩
  · simpa only [setRs_other elsewhere] using holder.live
  · simpa only [setRs_other elsewhere] using holder.heldBy
  · intro free
    exact absurd (locked.symm.trans free) (by simp)
  · intro pid' here
    rcases List.mem_cons.mp here with rfl | before
    · exact ⟨p, getPcb_setRs live runs.1 nofun, by simp⟩
    · obtain ⟨q, found, inside⟩ := sound.queue pid' before
      refine ⟨q, getPcb_setRs live found nofun, ?_⟩
      simp [update_apply, inside]
  · intro q inside
    by_cases same : q = p
    · subst same
      refine ⟨holder.others q (Ne.symm elsewhere), .inl ⟨?_, ?_⟩⟩
      · simp only [setRs_same, pid]
        exact .head _
      · simp only [setRs_same]
    · simp only [update_of_ne same] at inside
      obtain ⟨depth, stands⟩ := sound.inside q inside
      have fresh := distinct stands.live same
      refine ⟨depth, ?_⟩
      simp only [setRs_other same]
      rcases stands with ⟨queued, blocked⟩ | ⟨unqueued, runnable⟩
      · exact .inl ⟨.tail _ queued, blocked⟩
      · refine .inr ⟨fun queued => ?_, runnable⟩
        exact unqueued ((List.mem_cons.mp queued).resolve_left fresh)

def freed (s : LockRun) : State × Lock :=
  (readied s.k s.lock.lst, { s.lock with locked := false, heldBy := 0, lst := [] })

theorem releaseLock_eq (runs : Runs s.k p) (deep : 0 < s.depth p) : releaseLock s.k s.lock =
      .ok (if s.depth p = 1 then freed s else (s.k, { s.lock with lcnt := s.lock.lcnt - 1 })) := by
  obtain ⟨locked, holder⟩ := sound.holder deep
  obtain ⟨-, -, pid⟩ := getPcb_found.mp runs.1
  have mine : s.lock.locked = true ∧ (s.lock.heldBy = s.k.curpid ∨ s.lock.global = true) :=
    ⟨locked, .inl (holder.heldBy.trans pid)⟩
  have found : ∀ pid ∈ s.lock.lst, ∃ p, getPcb s.k pid = some p := by
    intro pid here
    obtain ⟨q, found, -⟩ := sound.queue pid here
    exact ⟨q, found⟩
  have outermost : s.lock.lcnt = 0 ↔ s.depth p = 1 := by
    rw [holder.depth]
    omega
  unfold releaseLock
  rw [if_neg (by simp [sound.own]), if_neg (not_not.mpr mine), readyAll_eq sound.housed found]
  simp only [outermost]
  split_ifs
  · rfl
  · rfl

theorem LockSound.freed (deep : s.depth p = 1) :
    LockSound ⟨(freed s).1, (freed s).2, update s.depth p (s.depth p - 1), s.acquiring⟩ := by
  obtain ⟨-, holder⟩ := sound.holder (p := p) (by omega)
  refine ⟨housed_readied sound.housed, sound.own, nofun, fun _ => ⟨rfl, ?_⟩, nofun, ?_⟩
  · intro q
    by_cases same : q = p
    · simp [same, deep]
    · simp only [update_of_ne same]
      exact holder.others q same
  · intro q inside
    obtain ⟨depth, stands⟩ := sound.inside q inside
    have other : q ≠ p := by
      rintro rfl
      omega
    refine ⟨by simpa only [update_of_ne other] using depth, .inr ⟨by simp [Sync.freed], ?_⟩⟩
    have live := stands.live
    rcases stands with ⟨queued, -⟩ | ⟨unqueued, runnable⟩
    · rw [Sync.freed, readied_named live queued]
      exact .inl rfl
    · rwa [Sync.freed, readied_unnamed unqueued]

theorem LockSound.unnest (deep : 0 < s.depth p) (nested : s.depth p ≠ 1) :
    LockSound ⟨s.k, { s.lock with lcnt := s.lock.lcnt - 1 }, update s.depth p (s.depth p - 1), s.acquiring⟩ := by
  obtain ⟨locked, holder⟩ := sound.holder deep
  refine ⟨sound.housed, sound.own, fun _ => ⟨p, holder.live, holder.heldBy, ?_, ?_⟩, ?_, sound.queue, ?_⟩
  · have depth := holder.depth
    simp only [update_self]
    omega
  · intro q other
    simp only [update_of_ne other]
    exact holder.others q other
  · intro free
    exact absurd (locked.symm.trans free) (by simp)
  · intro q inside
    obtain ⟨depth, stands⟩ := sound.inside q inside
    have other : q ≠ p := by
      rintro rfl
      omega
    exact ⟨by simpa only [update_of_ne other] using depth, stands⟩

theorem LockSound.step (shallow : Shallow s op) (step : LockStep s op s') : LockSound s' := by
  cases step with
  | sched call => exact sound.sched call
  | acquired runs call =>
    cases acquireLock_cases sound.own runs.1 call with
    | again locked mine => exact sound.again runs (shallow _ runs) locked mine
    | take unlocked => exact sound.take runs unlocked
  | queued runs call =>
    cases acquireLock_cases sound.own runs.1 call with
    | queue locked others => exact sound.enqueue runs locked others
  | release runs deep call =>
    rw [releaseLock_eq sound runs deep] at call
    split_ifs at call with outermost
    · cases call
      exact sound.freed outermost
    · cases call
      exact sound.unnest deep outermost
  | other change => exact sound.elsewhere change

theorem LockSound.exclusive : Exclusive s where
  alone p q deep deep' := by
    obtain ⟨-, holder⟩ := sound.holder deep
    by_contra other
    have none := holder.others q (Ne.symm other)
    omega
  nesting p deep := by
    obtain ⟨locked, holder⟩ := sound.holder deep
    exact ⟨locked, holder.heldBy, holder.depth.symm⟩
  inside p inside := (sound.inside p inside).2
  queue pid here := by
    obtain ⟨p, found, inside⟩ := sound.queue pid here
    refine ⟨p, found, inside, ?_⟩
    obtain ⟨-, stands⟩ := sound.inside p inside
    rcases stands with ⟨-, blocked⟩ | ⟨unqueued, -⟩
    · exact blocked
    · rw [(getPcb_found.mp found).2.2] at unqueued
      exact absurd here unqueued
  waits waiting := by
    by_contra unlocked
    exact waiting (sound.free (by simpa using unlocked)).1
  release p runs outermost := by
    refine ⟨(Sync.freed s).1, (Sync.freed s).2, ?_, rfl, rfl, ?_⟩
    · rw [releaseLock_eq sound runs (by omega), if_pos outermost]
    · intro q inside blocked
      obtain ⟨-, stands⟩ := sound.inside q inside
      have live := stands.live
      rcases stands with ⟨queued, -⟩ | ⟨-, ready | running⟩
      · rw [Sync.freed, readied_named live queued]
      · simp [blocked] at ready
      · simp [blocked] at running

end

theorem lock_exclusive (reachable : (locking.restrict Shallow).Reachable s) : Exclusive s := by
  apply LockSound.exclusive
  apply reachable.invariant
  · intro s initial
    exact lockSound_initial initial
  · intro _ _ _ sound step
    exact sound.step step.1 step.2

def freeLock : Lock := ⟨[], 0, 0, false, false⟩

def twoProcs : State := initProc.setPcb 1 ⟨1025, 1024, .ready, 0, 0, fun _ => ⟨none, false⟩, .user⟩

theorem housed_twoProcs : Housed twoProcs := by
  intro p live
  by_cases second : p = 1
  · subst second
    rfl
  · rw [twoProcs, setPcb_other second] at live ⊢
    exact scheduled_initial.home p live

theorem initProc_runs : Runs initProc 0 := by
  obtain ⟨cur, running, pid⟩ := initProc_first
  exact ⟨getPcb_found.mpr ⟨cur, by simp [running], pid⟩, running⟩

theorem twoProcs_run : sched twoProcs = some (dispatch (preempt twoProcs) 1) ∧ Runs twoProcs 0 ∧
    Runs (dispatch (preempt twoProcs) 1) 1 ∧ twoProcs.curpid = 1024 ∧
    (dispatch (preempt twoProcs) 1).curpid = 1025 := by
  unfold twoProcs
  rw [initProc_eq]
  exact ⟨rfl, ⟨rfl, rfl⟩, ⟨rfl, rfl⟩, rfl, rfl⟩

theorem twoProcs_take : acquireLock true twoProcs freeLock = .ok (twoProcs, ⟨[], 1024, 0, true, false⟩, true) := by
  rw [← twoProcs_run.2.2.2.1]
  rfl

theorem twoProcs_wait : acquireLock true (dispatch (preempt twoProcs) 1) ⟨[], 1024, 0, true, false⟩ =
    .ok (setRs (dispatch (preempt twoProcs) 1) 1 .blocked, ⟨[1025], 1024, 0, true, false⟩, false) := by
  obtain ⟨-, -⟩ := twoProcs_run
  unfold acquireLock
  rfl

theorem contended : ∃ s, (locking.restrict Shallow).Reachable s ∧ s.lock.lst = [1025] := by
  obtain ⟨turn, first, second, -⟩ := twoProcs_run
  have start : (locking.restrict Shallow).Reachable ⟨twoProcs, freeLock, fun _ => 0, fun _ => false⟩ :=
    .initial ⟨housed_twoProcs, rfl, rfl, rfl, fun _ => rfl, fun _ => rfl⟩
  have held := start.next (a := LockOp.acquire) ⟨fun p _ => Nat.two_pow_pos 32, .acquired first twoProcs_take⟩
  have switched := held.next (a := LockOp.sched) ⟨trivial, .sched turn⟩
  refine ⟨_, switched.next (a := LockOp.acquire) ⟨fun p _ => ?_, .queued second twoProcs_wait⟩, rfl⟩
  by_cases same : p = 0
  · simp [same]
  · simp [same]

theorem lock_exclusive_contended : ∃ s, (locking.restrict Shallow).Reachable s ∧ s.lock.lst = [1025] ∧ Exclusive s := by
  obtain ⟨s, reachable, waiting⟩ := contended
  exact ⟨s, reachable, waiting, lock_exclusive reachable⟩

theorem nested_reachable (n : Nat) : ∃ s, locking.Reachable s ∧ s.k = initProc ∧
    s.lock = ⟨[], initProc.curpid, n % 2 ^ 32, true, false⟩ ∧ s.depth 0 = n + 1 := by
  induction n with
  | zero =>
    have start : locking.Reachable ⟨initProc, freeLock, fun _ => 0, fun _ => false⟩ :=
      .initial ⟨scheduled_initial.home, rfl, rfl, rfl, fun _ => rfl, fun _ => rfl⟩
    exact ⟨_, start.next (.acquired initProc_runs rfl), rfl, rfl, rfl⟩
  | succ n ih =>
    obtain ⟨⟨-, -, _, _⟩, reachable, rfl, rfl, deep⟩ := ih
    have again : acquireLock true initProc ⟨[], initProc.curpid, n % 2 ^ 32, true, false⟩ =
        .ok (initProc, ⟨[], initProc.curpid, (n % 2 ^ 32 + 1) % 2 ^ 32, true, false⟩, true) := by
      rw [acquireLock, if_pos rfl, if_pos ⟨rfl, .inl rfl⟩]
    refine ⟨_, reachable.next (.acquired initProc_runs again), rfl, ?_, ?_⟩
    · simp only [Nat.mod_add_mod]
    · simpa using deep

theorem lcnt_wraps : ∃ s, locking.Reachable s ∧ s.depth 0 = 2 ^ 32 + 1 ∧ s.lock.lcnt = 0 ∧ ¬ Exclusive s := by
  obtain ⟨s, reachable, -, lock, deep⟩ := nested_reachable (2 ^ 32)
  have count : s.lock.lcnt = 0 := (congrArg Lock.lcnt lock).trans (Nat.mod_self _)
  refine ⟨s, reachable, deep, count, fun exclusive => ?_⟩
  obtain ⟨-, -, _⟩ := exclusive.nesting 0 (by omega)
  omega

section
variable {s : NodeRun} {n : Nat}

theorem kfree_mem_releaseAccesses {lst : List Nat} : .kfree (some n) ∈ releaseAccesses lst ↔ n ∈ lst.tail := by
  induction lst with
  | nil => simp [releaseAccesses]
  | cons node lst ih => cases lst <;> simp_all [releaseAccesses, eq_comm]

structure Numbered (s : NodeRun) : Prop where
  distinct : (s.nodes ++ s.walked.flatten).Nodup
  all : ∀ n, n < s.made ↔ n ∈ s.nodes ++ s.walked.flatten

theorem reachable_numbered (reachable : nodeRuns.Reachable s) : Numbered s := by
  induction reachable with
  | initial start =>
    obtain ⟨-, -, nodes, made, walked⟩ := start
    exact ⟨by simp [nodes, walked], by simp [nodes, made, walked]⟩
  | @next s _ _ _ step ih =>
    cases step with
    | acquired call => exact ⟨ih.distinct, ih.all⟩
    | queued call =>
      refine ⟨List.nodup_cons.mpr ⟨fun already => ?_, ih.distinct⟩, fun n => ?_⟩
      · exact absurd ((ih.all _).mpr already) (lt_irrefl _)
      · rw [List.cons_append, List.mem_cons, ← ih.all, Nat.lt_succ_iff_lt_or_eq, or_comm]
    | released call nested => exact ⟨ih.distinct, ih.all⟩
    | emptied call own outermost => exact ⟨ih.distinct, ih.all⟩

theorem Numbered.leaks (numbered : Numbered s) {rest : List Nat} (walked : n :: rest ∈ s.walked) : ¬NodesKept s := by
  rintro ⟨freed, -⟩
  obtain ⟨later, earlier, split⟩ := List.append_of_mem walked
  have distinct := numbered.distinct
  have here : n ∈ s.nodes ++ s.walked.flatten :=
    List.mem_append_right _ (List.mem_flatten.mpr ⟨_, walked, .head _⟩)
  rw [split, List.flatten_append, List.flatten_cons] at distinct
  have once : n ∉ s.nodes ∧ n ∉ later.flatten ∧ n ∉ rest ∧ n ∉ earlier.flatten := by
    rw [← List.append_assoc, List.cons_append, List.nodup_middle, List.nodup_cons] at distinct
    simpa only [List.mem_append, not_or, and_assoc] using distinct.1
  have never : .kfree (some n) ∉ accesses s := by
    rw [accesses, List.mem_flatMap]
    rintro ⟨lst, among, frees⟩
    rw [kfree_mem_releaseAccesses] at frees
    rw [List.mem_reverse, split, List.mem_append, List.mem_cons] at among
    rcases among with after | rfl | before
    · exact once.2.1 (List.mem_flatten.mpr ⟨lst, after, List.mem_of_mem_tail frees⟩)
    · exact once.2.2.1 frees
    · exact once.2.2.2 (List.mem_flatten.mpr ⟨lst, before, List.mem_of_mem_tail frees⟩)
  have count := freed n ((numbered.all n).mpr here) once.1
  rw [List.count_eq_zero_of_not_mem never] at count
  cases count

theorem nodes_kept_iff (reachable : nodeRuns.Reachable s) : NodesKept s ↔ ∀ lst ∈ s.walked, lst = [] := by
  have numbered := reachable_numbered reachable
  constructor
  · intro kept lst walked
    cases lst with
    | nil => rfl
    | cons n rest => exact absurd kept (numbered.leaks walked)
  · intro empty
    have none : s.walked.flatten = [] := List.flatten_eq_nil_iff.mpr empty
    have nothing : accesses s = [] := by
      rw [accesses, List.flatMap_eq_nil_iff]
      intro lst among
      rw [empty lst (List.mem_reverse.mp among)]
      rfl
    refine ⟨fun n made outside => ?_, fun n before behind split => ?_⟩
    · rw [numbered.all, none, List.append_nil] at made
      exact absurd made outside
    · rw [nothing] at split
      simp at split

end

theorem taken_reachable : nodeRuns.Reachable ⟨⟨[], 1024, 0, true, false⟩, [], 0, []⟩ := by
  have start : nodeRuns.Reachable ⟨freeLock, [], 0, []⟩ := .initial ⟨rfl, rfl, rfl, rfl, rfl⟩
  exact start.next (a := LockOp.acquire) (.acquired twoProcs_take)

theorem released_by {k : State} (lock : readyAll twoProcs lst = .ok k) :
    releaseLock twoProcs ⟨lst, 1024, 0, true, false⟩ = .ok (k, ⟨[], 0, 0, false, false⟩) := by
  rw [releaseLock, twoProcs_run.2.2.2.1, if_neg nofun, if_neg (by simp), if_pos rfl, lock]
  rfl

theorem nodes_kept_uncontended : ∃ s, nodeRuns.Reachable s ∧ s.walked = [[]] ∧ NodesKept s := by
  have reachable := taken_reachable.next (a := LockOp.release) (.emptied (released_by rfl) rfl rfl)
  exact ⟨_, reachable, rfl, (nodes_kept_iff reachable).mpr (by simp)⟩

theorem waiter_node_leaks : ∃ s, nodeRuns.Reachable s ∧ s.made = 1 ∧ s.nodes = [] ∧
    accesses s = [.read 0, .read 0, .kfree none] ∧ ¬NodesKept s := by
  obtain ⟨k, ready⟩ : ∃ k, readyAll twoProcs [1025] = .ok k := by
    unfold twoProcs
    exact ⟨_, rfl⟩
  have queued := taken_reachable.next (a := LockOp.acquire) (.queued twoProcs_wait)
  have reachable := queued.next (a := LockOp.release) (.emptied (released_by ready) rfl rfl)
  exact ⟨_, reachable, rfl, rfl, rfl, (reachable_numbered reachable).leaks (.head _)⟩

end Petix.Proof.Sync
