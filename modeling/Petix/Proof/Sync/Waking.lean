import Petix.Proof.Proc.Sched

namespace Petix.Proof.Sync
open Library Kernel.Sync Kernel.Proc Kernel.SyncCalls Proof.Proc

variable {k k' : State} {p q : Slot} {pid : Int} {pids : List Int} {rs : ReadyState}

theorem getPcb_found : getPcb k pid = some p ↔ pidOff pid = p ∧ (k.ptable p).rs ≠ .noproc ∧ (k.ptable p).pid = pid :=
  getPcb_iff

theorem same_process (housed : Housed k) (found : getPcb k pid = some p) (live : (k.ptable q).rs ≠ .noproc)
    (same : (k.ptable q).pid = pid) : q = p := by
  obtain ⟨home, -⟩ := getPcb_found.mp found
  rw [← home, ← same]
  exact (housed q live).symm

theorem getPcb_kept (kept : k'.ptable p = k.ptable p) (found : getPcb k pid = some p) : getPcb k' pid = some p := by
  rw [getPcb_found] at found ⊢
  rwa [kept]

theorem setRs_same (k : State) (p : Slot) (rs : ReadyState) : (setRs k p rs).ptable p = { k.ptable p with rs := rs } :=
  setPcb_same k p _

theorem setRs_other (other : q ≠ p) : (setRs k p rs).ptable q = k.ptable q := setPcb_other other

theorem setRs_pid (k : State) (p q : Slot) (rs : ReadyState) : ((setRs k p rs).ptable q).pid = (k.ptable q).pid := by
  by_cases same : q = p
  · rw [same, setRs_same]
  · rw [setRs_other same]

theorem housed_setRs (housed : Housed k) (live : (k.ptable p).rs ≠ .noproc) : Housed (setRs k p rs) := by
  intro q present
  rw [setRs_pid]
  by_cases same : q = p
  · exact same ▸ housed p live
  · rw [setRs_other same] at present
    exact housed q present

theorem getPcb_setRs (live : (k.ptable p).rs ≠ .noproc) (found : getPcb k pid = some q) (alive : rs ≠ .noproc) :
    getPcb (setRs k p rs) pid = some q := by
  by_cases same : q = p
  · obtain ⟨home, -, named⟩ := getPcb_found.mp found
    subst same
    rw [getPcb_found, setRs_same]
    exact ⟨home, alive, named⟩
  · exact getPcb_kept (setRs_other same) found

def readied (k : State) (pids : List Int) : State :=
  { k with ptable := fun p =>
      if (k.ptable p).pid ∈ pids ∧ (k.ptable p).rs ≠ .noproc then { k.ptable p with rs := .ready } else k.ptable p }

theorem readied_nil (k : State) : readied k [] = k := by simp [readied]

theorem readied_named (live : (k.ptable p).rs ≠ .noproc) (named : (k.ptable p).pid ∈ pids) :
    (readied k pids).ptable p = { k.ptable p with rs := .ready } :=
  if_pos ⟨named, live⟩

theorem readied_unnamed (unnamed : (k.ptable p).pid ∉ pids) : (readied k pids).ptable p = k.ptable p :=
  if_neg fun named => unnamed named.1

theorem readied_pid (k : State) (pids : List Int) (p : Slot) : ((readied k pids).ptable p).pid = (k.ptable p).pid := by
  dsimp only [readied]
  split_ifs
  · rfl
  · rfl

theorem readied_live : ((readied k pids).ptable p).rs ≠ .noproc ↔ (k.ptable p).rs ≠ .noproc := by
  dsimp only [readied]
  split_ifs with named
  · exact ⟨fun _ => named.2, fun _ => by simp⟩
  · rfl

theorem housed_readied (housed : Housed k) : Housed (readied k pids) := by
  intro p live
  rw [readied_pid]
  exact housed p (readied_live.mp live)

theorem getPcb_readied : getPcb (readied k pids) pid = some p ↔ getPcb k pid = some p := by
  rw [getPcb_found, getPcb_found, readied_live, readied_pid]

theorem readied_cons (housed : Housed k) (found : getPcb k pid = some p) :
    readied (setRs k p .ready) pids = readied k (pid :: pids) := by
  obtain ⟨-, live, same⟩ := getPcb_found.mp found
  unfold readied
  congr 1
  funext q
  by_cases here : q = p
  · subst here
    have named : (k.ptable q).pid ∈ pid :: pids := same ▸ .head _
    rw [setRs_same, if_pos (⟨named, live⟩ : (k.ptable q).pid ∈ pid :: pids ∧ (k.ptable q).rs ≠ .noproc)]
    split_ifs
    · rfl
    · rfl
  · rw [setRs_other here]
    have other : (k.ptable q).rs ≠ .noproc → (k.ptable q).pid ≠ pid :=
      fun alive equal => here (same_process housed found alive equal)
    congr 1
    apply propext
    constructor
    · rintro ⟨named, alive⟩
      exact ⟨.tail _ named, alive⟩
    · rintro ⟨named, alive⟩
      exact ⟨(List.mem_cons.mp named).resolve_left (other alive), alive⟩

theorem readyAll_eq (housed : Housed k) (found : ∀ pid ∈ pids, ∃ p, getPcb k pid = some p) :
    readyAll k pids = .ok (readied k pids) := by
  induction pids generalizing k with
  | nil => rw [readied_nil, readyAll]
  | cons pid pids ih =>
    obtain ⟨p, here⟩ := found pid (.head _)
    obtain ⟨-, live, -⟩ := getPcb_found.mp here
    rw [readyAll, here, ← readied_cons housed here]
    apply ih (housed_setRs housed live)
    intro other later
    obtain ⟨q, there⟩ := found other (.tail _ later)
    exact ⟨q, getPcb_setRs live there nofun⟩

def Sleeps (k : State) (pid : Int) : Prop := ∃ p, getPcb k pid = some p ∧ (k.ptable p).rs = .blocked

theorem Sleeps.kept (sleeps : Sleeps k pid) (kept : ∀ p, (k.ptable p).pid = pid → k'.ptable p = k.ptable p) :
    Sleeps k' pid := by
  obtain ⟨p, found, blocked⟩ := sleeps
  have same := kept p (getPcb_found.mp found).2.2
  exact ⟨p, getPcb_kept same found, by rw [same, blocked]⟩

theorem Sleeps.readied (sleeps : Sleeps k pid) (unnamed : pid ∉ pids) : Sleeps (readied k pids) pid := by
  apply sleeps.kept
  intro p same
  exact readied_unnamed (same ▸ unnamed)

theorem wake_eq (housed : Housed k) (distinct : pids.Nodup) (sleep : ∀ pid ∈ pids, Sleeps k pid) :
    wake k pids = .ok (readied k pids) := by
  induction pids generalizing k with
  | nil => rw [readied_nil, wake]
  | cons pid pids ih =>
    obtain ⟨p, here, blocked⟩ := sleep pid (.head _)
    obtain ⟨-, live, same⟩ := getPcb_found.mp here
    obtain ⟨fresh, distinct⟩ := List.nodup_cons.mp distinct
    rw [wake, here, ← readied_cons housed here, ← ih (housed_setRs housed live) distinct]
    · have test : kassert ((k.ptable p).rs == .blocked) .notBlocked = .ok () := by
        rw [blocked]
        rfl
      change (kassert ((k.ptable p).rs == .blocked) .notBlocked >>= fun _ => wake (setRs k p .ready) pids) = _
      rw [test]
      rfl
    · intro other later
      apply (sleep other (.tail _ later)).kept
      intro q named
      apply setRs_other
      rintro rfl
      exact fresh (same ▸ named ▸ later)

def Served (count : Nat) (w : Waiter) : Bool := w.needed ≤ count

theorem signalLoop_eq (count : Nat) (lst onto : List Waiter) : signalLoop count lst onto =
      ((lst.filter (!Served count ·)).reverse ++ onto, (lst.filter (Served count)).map Waiter.pid) := by
  induction lst generalizing onto with
  | nil => rfl
  | cons w lst ih =>
    rw [signalLoop, ih, ih]
    by_cases served : w.needed ≤ count
    · simp [Served, served]
    · simp [Served, served]

theorem semSignal_eq (sem : Sem) (n : Nat) : let count := if n = 0 then 1 else (sem.count + n) % 2 ^ 32
    semSignal sem n = (⟨count, (sem.lst.filter (!Served count ·)).reverse⟩,
      (sem.lst.filter (Served count)).map Waiter.pid) := by
  simp [semSignal, signalLoop_eq]

theorem sched_entry (call : sched k = some k') (p : Slot) : ∃ rs, k'.ptable p = { k.ptable p with rs := rs } ∧
      (rs = (k.ptable p).rs ∨ Runnable (k.ptable p).rs ∧ Runnable rs) := by
  obtain ⟨d, chooses⟩ := chooses_of_sched call
  by_cases same : p = Cyclic.after (Spec.Ptable.current k) d
  · have ready := chooses.ready
    rw [← same, ptable_preempt] at ready
    refine ⟨.running, same ▸ chooses.chosen, .inr ⟨?_, .inr rfl⟩⟩
    split_ifs at ready with running
    · exact .inr running.2
    · exact .inl ready
  · rw [chooses.others p same, ptable_preempt]
    split_ifs with running
    · exact ⟨.ready, rfl, .inr ⟨.inr running.2, .inl rfl⟩⟩
    · exact ⟨(k.ptable p).rs, rfl, .inl rfl⟩

end Petix.Proof.Sync
