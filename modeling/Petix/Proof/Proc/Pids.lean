import Mathlib.Data.List.Induction
import Petix.Proof.Proc.Refinement
import Petix.Spec.Ptable

namespace Petix.Proof.Proc
open Library Kernel.Proc Kernel.Syscall Spec.Ptable

variable {ledger : Ledger} {k : State} {p q : Slot} {op : Op} {ops : List Op} {n : Nat}

def nthPid (n : Nat) (p : Slot) : Int := signed32 (n * 1024 + p.val)

theorem nthPid_eq (few : n < 2 ^ 21) : nthPid n p = n * 1024 + p.val := by
  unfold nthPid signed32
  omega

theorem nthPid_last : nthPid (2 ^ 21) p = p.val - 2 ^ 31 := by
  unfold nthPid signed32
  omega

theorem makePid_zero : makePid (pidGen 0 + 1) p = nthPid 1 p := rfl

theorem makePid_nthPid : makePid (pidGen (nthPid n p) + 1) p = nthPid (n + 1) p := by
  unfold makePid pidGen nthPid signed32
  omega

structure Counted (ledger : Ledger) : Prop where
  unused : ∀ p, ledger.uses p = 0 → (ledger.k.ptable p).pid = 0 ∧ (ledger.k.ptable p).rs = .noproc
  last : ∀ p, 0 < ledger.uses p → (ledger.k.ptable p).pid = nthPid (ledger.uses p) p
  given : ∀ old ∈ ledger.given, ∃ n, 1 ≤ n ∧ n ≤ ledger.uses old.1 ∧ old.2 = nthPid n old.1

theorem Counted.next_pid (counted : Counted ledger) :
    makePid (pidGen (ledger.k.ptable p).pid + 1) p = nthPid (ledger.uses p + 1) p := by
  rcases Nat.eq_zero_or_pos (ledger.uses p) with zero | pos
  · rw [(counted.unused p zero).1, zero]
    exact makePid_zero
  · rw [counted.last p pos]
    exact makePid_nthPid

theorem Counted.uses_pos (counted : Counted ledger) (live : (ledger.k.ptable p).rs ≠ .noproc) : 0 < ledger.uses p := by
  by_contra none
  exact live (counted.unused p (by omega)).2

theorem run_alloc (call : allocProc ledger.k = some (p, k)) :
    Op.run ledger .alloc = ⟨k, (p, (k.ptable p).pid) :: ledger.given⟩ := by
  simp only [Op.run, call]

theorem run_full (call : allocProc ledger.k = none) : Op.run ledger .alloc = ledger := by simp only [Op.run, call]

theorem uses_cons (pid : Int) : (Ledger.mk k ((p, pid) :: ledger.given)).uses q =
    ledger.uses q + if p = q then 1 else 0 := by
  simp [Ledger.uses, List.countP_cons]

theorem claimProc_other (other : q ≠ p) : (claimProc k p).ptable q = k.ptable q := by
  simp [claimProc, State.setPcb, other]

theorem claimProc_pid : ((claimProc k p).ptable p).pid = makePid (pidGen (k.ptable p).pid + 1) p := by
  simp [claimProc, State.setPcb]

theorem counted_alloc (counted : Counted ledger) (call : allocProc ledger.k = some (p, k)) :
    Counted (Op.run ledger .alloc) := by
  obtain ⟨-, rfl⟩ := allocProc_some call
  rw [run_alloc call]
  constructor
  · intro q none
    rw [uses_cons] at none
    have other : q ≠ p := by
      rintro rfl
      simp at none
    rw [claimProc_other other]
    exact counted.unused q (by omega)
  · intro q some
    rw [uses_cons] at some ⊢
    by_cases same : p = q
    · subst same
      rw [if_pos rfl, claimProc_pid]
      exact counted.next_pid
    · rw [if_neg same] at some ⊢
      rw [claimProc_other (Ne.symm same)]
      exact counted.last q some
  · intro old here
    rw [uses_cons]
    rcases List.mem_cons.mp here with rfl | before
    · refine ⟨ledger.uses p + 1, by omega, by simp, ?_⟩
      rw [claimProc_pid]
      exact counted.next_pid
    · obtain ⟨n, first, _, pid⟩ := counted.given old before
      exact ⟨n, first, by omega, pid⟩

theorem releaseProc_pid : ((releaseProc k p).ptable q).pid = (k.ptable q).pid := by
  by_cases same : q = p
  · subst same
    simp [releaseProc, State.setPcb]
  · simp [releaseProc, State.setPcb, same]

theorem releaseProc_noproc (none : (k.ptable q).rs = .noproc) : ((releaseProc k p).ptable q).rs = .noproc := by
  by_cases same : q = p
  · subst same
    simp [releaseProc, State.setPcb]
  · simpa [releaseProc, State.setPcb, same] using none

theorem Counted.run (counted : Counted ledger) (op : Op) : Counted (op.run ledger) := by
  cases op with
  | alloc =>
    cases call : allocProc ledger.k with
    | none => rwa [run_full call]
    | some result => exact counted_alloc counted call
  | release p =>
    refine ⟨fun q none => ?_, fun q some => ?_, counted.given⟩
    · obtain ⟨pid, rs⟩ := counted.unused q none
      exact ⟨releaseProc_pid.trans pid, releaseProc_noproc rs⟩
    · exact releaseProc_pid.trans (counted.last q some)

theorem uses_le_run (ledger : Ledger) (op : Op) (p : Slot) : ledger.uses p ≤ (op.run ledger).uses p := by
  cases op with
  | alloc =>
    cases call : allocProc ledger.k with
    | none => rw [run_full call]
    | some result =>
      rw [run_alloc call, uses_cons]
      omega
  | release q => exact le_rfl

def Expired (ledger : Ledger) (p : Slot) (n : Nat) : Prop :=
  n ≤ ledger.uses p ∧ ((ledger.k.ptable p).rs ≠ .noproc → n < ledger.uses p)

theorem Expired.run (expired : Expired ledger p n) (op : Op) : Expired (op.run ledger) p n := by
  refine ⟨expired.1.trans (uses_le_run ledger op p), ?_⟩
  cases op with
  | alloc =>
    cases call : allocProc ledger.k with
    | none =>
      rw [run_full call]
      exact expired.2
    | some result =>
      obtain ⟨q, _⟩ := result
      obtain ⟨-, rfl⟩ := allocProc_some call
      rw [run_alloc call, uses_cons]
      by_cases same : q = p
      · intro _
        have before := expired.1
        rw [if_pos same]
        omega
      · intro live
        have before := expired.2 (claimProc_other (Ne.symm same) ▸ live)
        omega
  | release q =>
    intro live
    exact expired.2 fun none => live (releaseProc_noproc none)

theorem runOps_append (ops more : List Op) : runOps (ops ++ more) = more.foldl Op.run (runOps ops) := List.foldl_append

theorem runOps_snoc (ops : List Op) (op : Op) : runOps (ops ++ [op]) = op.run (runOps ops) := runOps_append ops [op]

theorem foldl_keeps (keeps : Ledger → Prop) (step : ∀ ledger op, keeps ledger → keeps (Op.run ledger op))
    (ops : List Op) (holds : keeps ledger) : keeps (ops.foldl Op.run ledger) := by
  induction ops generalizing ledger with
  | nil => exact holds
  | cons op ops ih => exact ih (step ledger op holds)

theorem counted_runOps (ops : List Op) : Counted (runOps ops) := by
  apply foldl_keeps Counted fun ledger op counted => counted.run op
  refine ⟨fun p _ => ⟨rfl, rfl⟩, fun p some => ?_, by simp⟩
  simp [Ledger.uses] at some

theorem uses_le_append (ops more : List Op) (p : Slot) : (runOps ops).uses p ≤ (runOps (ops ++ more)).uses p := by
  rw [runOps_append]
  apply foldl_keeps fun ledger => (runOps ops).uses p ≤ ledger.uses p
  · intro ledger op le
    exact le.trans (uses_le_run ledger op p)
  · exact le_rfl

theorem runOps_fresh {before : List Op} (call : allocProc (runOps before).k = some (p, k))
    (few : (runOps (before ++ [.alloc])).uses p < 2 ^ 21)
    (fewer : ∀ q, (runOps before).uses q < 2 ^ 21) : FreshPid (runOps before).given k p := by
  have counted := counted_runOps before
  obtain ⟨-, rfl⟩ := allocProc_some call
  rw [runOps_snoc, run_alloc call, uses_cons, if_pos rfl] at few
  have pid : ((claimProc (runOps before).k p).ptable p).pid = ((runOps before).uses p + 1 : Nat) * 1024 + p.val := by
    rw [claimProc_pid, counted.next_pid, nthPid_eq few]
  constructor
  · omega
  · intro q other live
    rw [claimProc_other other] at live ⊢
    rw [pid, counted.last q (counted.uses_pos live), nthPid_eq (fewer q)]
    have different : q.val ≠ p.val := fun equal => other (Fin.ext equal)
    omega
  · intro old here
    obtain ⟨_, -, last, equal⟩ := counted.given old here
    have few := fewer old.1
    rw [pid, equal, nthPid_eq (by omega)]
    by_cases same : old.1 = p
    · rw [same] at last ⊢
      omega
    · have different : old.1.val ≠ p.val := fun equal => same (Fin.ext equal)
      omega

theorem runOps_gone {before between : List Op} (live : ((runOps before).k.ptable p).rs ≠ .noproc)
    (few : (runOps (before ++ .release p :: between)).uses p < 2 ^ 21) :
    getPcb (runOps (before ++ .release p :: between)).k ((runOps before).k.ptable p).pid = none := by
  set after := runOps (before ++ .release p :: between) with last
  have start := counted_runOps before
  have counted : Counted after := counted_runOps _
  have expired : Expired after p ((runOps before).uses p) := by
    rw [last, runOps_append]
    rw [List.foldl_cons]
    apply foldl_keeps (Expired · p _) fun ledger op expired => expired.run op
    refine ⟨le_rfl, fun alive => absurd ?_ alive⟩
    simp [Op.run, releaseProc, State.setPcb]
  have old := start.last p (start.uses_pos live)
  rw [nthPid_eq (by have le := expired.1; omega)] at old
  have home : pidOff ((runOps before).k.ptable p).pid = p := by
    apply Fin.ext
    simp only [pidOff]
    omega
  unfold getPcb
  simp only [home]
  apply if_pos
  by_cases none : (after.k.ptable p).rs = .noproc
  · exact .inl none
  · right
    have later := expired.2 none
    rw [counted.last p (counted.uses_pos none), nthPid_eq few, old]
    omega

theorem uses_few (fresh : ∀ before later p k, ops = before ++ .alloc :: later →
    allocProc (runOps before).k = some (p, k) → FreshPid (runOps before).given k p) : (runOps ops).uses p < 2 ^ 21 := by
  induction ops using List.reverseRecOn with
  | nil => exact Nat.two_pow_pos 21
  | append_singleton ops op ih =>
    have few := ih fun before later p k split call =>
      fresh before (later ++ [op]) p k (by rw [split, List.append_assoc]; rfl) call
    rw [runOps_snoc]
    cases op with
    | release q => exact few
    | alloc =>
      cases call : allocProc (runOps ops).k with
      | none => rwa [run_full call]
      | some result =>
        obtain ⟨q, k'⟩ := result
        have positive := (fresh ops [] q k' rfl call).positive
        obtain ⟨-, rfl⟩ := allocProc_some call
        rw [run_alloc call, uses_cons]
        by_cases same : q = p
        · subst same
          rw [claimProc_pid, (counted_runOps ops).next_pid] at positive
          have wraps : (runOps ops).uses q + 1 ≠ 2 ^ 21 := by
            intro last
            rw [last, nthPid_last] at positive
            omega
          rw [if_pos rfl]
          omega
        · rw [if_neg same]
          exact few

theorem pids_unique_iff (ops : List Op) : PidsUnique ops ↔ ∀ p, (runOps ops).uses p < 2 ^ 21 := by
  constructor
  · intro unique p
    exact uses_few unique.fresh
  · intro few
    constructor
    · rintro before later p _ rfl call
      apply runOps_fresh call
      · refine (uses_le_append (before ++ [.alloc]) later p).trans_lt ?_
        rw [List.append_assoc]
        exact few p
      · intro q
        exact (uses_le_append before _ q).trans_lt (few q)
    · rintro _ p _ later rfl live
      exact runOps_gone live ((uses_le_append _ later p).trans_lt (few p))

def recycle (n : Nat) : List Op := (List.replicate n [.alloc, .release 0]).flatten

theorem allocProc_first (none : (k.ptable 0).rs = .noproc) (front : k.ptFree = 0) :
    allocProc k = some (0, claimProc k 0) := by
  unfold allocProc
  rw [front, search, if_pos none]
  rfl

theorem recycle_succ (n : Nat) : recycle (n + 1) = recycle n ++ [.alloc, .release 0] := by
  simp [recycle, List.replicate_succ']

theorem runOps_recycle (n : Nat) : ((runOps (recycle n)).k.ptable 0).rs = .noproc ∧
    (runOps (recycle n)).k.ptFree = 0 ∧ (runOps (recycle n)).uses 0 = n := by
  induction n with
  | zero => exact ⟨rfl, rfl, rfl⟩
  | succ n ih =>
    obtain ⟨none, front, uses⟩ := ih
    have step : runOps (recycle (n + 1)) = Op.run (Op.run (runOps (recycle n)) .alloc) (.release 0) := by
      rw [recycle_succ, runOps_append]
      rfl
    rw [step, run_alloc (allocProc_first none front)]
    refine ⟨?_, rfl, ?_⟩
    · simp [Op.run, releaseProc, State.setPcb]
    · exact (uses_cons _).trans (by rw [uses, if_pos rfl])

theorem pid_wraps : ¬ PidsUnique (recycle (2 ^ 21)) ∧ ((runOps (recycle (2 ^ 21))).k.ptable 0).pid = -2 ^ 31 := by
  obtain ⟨-, -, uses⟩ := runOps_recycle (2 ^ 21)
  constructor
  · intro unique
    have few := uses_few (p := 0) unique.fresh
    rw [uses] at few
    exact few.false
  · rw [(counted_runOps _).last 0 (by rw [uses]; decide), uses, nthPid_last]
    rfl

end Petix.Proof.Proc
