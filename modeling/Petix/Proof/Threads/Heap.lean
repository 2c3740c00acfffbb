import Petix.Proof.Threads.Steps

namespace Petix.Proof.Threads
open Function Library Kernel.Threads Spec.Threads
open Kernel.Proc (Slot State pidOff)
open Kernel.SyncCalls (Lock)

variable {m m' : Machine} {p q : Slot} {i : Instr} {rest code : List Instr} {heap : List Slot}

inductive Paired : List Instr → Prop
  | nil : Paired []
  | call {code : List Instr} : Paired code → Paired (.enter :: .leave :: code)
  | other {i : Instr} {code : List Instr} : i ≠ .enter → i ≠ .leave → Paired code → Paired (i :: code)

theorem Paired.append (paired : Paired code) (after : Paired rest) : Paired (code ++ rest) := by
  induction paired with
  | nil => exact after
  | call _ ih => exact .call ih
  | other notEnter notLeave _ ih => exact .other notEnter notLeave ih

theorem Paired.tail (paired : Paired (i :: rest)) (notEnter : i ≠ .enter) : Paired rest := by
  cases paired with
  | call => exact absurd rfl notEnter
  | other _ _ paired => exact paired

theorem paired_heapCalls (count : Nat) : Paired (heapCalls count) := by
  induction count with
  | zero => exact .nil
  | succ count ih => exact .call ih

theorem Paired.flatMap {α : Type} {f : α → List Instr} (each : ∀ a, Paired (f a)) (l : List α) :
    Paired (l.flatMap f) := by
  induction l with
  | nil => exact .nil
  | cons a l ih => exact (each a).append ih

theorem paired_of_forall (none : ∀ i ∈ code, i ≠ .enter ∧ i ≠ .leave) : Paired code := by
  induction code with
  | nil => exact .nil
  | cons i code ih =>
    obtain ⟨⟨notEnter, notLeave⟩, others⟩ := List.forall_mem_cons.mp none
    exact .other notEnter notLeave (ih others)

theorem paired_acquireLock (l : Nat) : Paired (acquireLock l) := paired_of_forall (by simp [acquireLock])

theorem paired_releaseLock (l : Nat) : Paired (releaseLock l) := paired_of_forall (by simp [releaseLock])

theorem paired_heapSync : Paired heapSync :=
  ((paired_acquireLock memlock).append (paired_heapCalls 1)).append (paired_releaseLock memlock)

theorem paired_pageSync : Paired pageSync := (paired_acquireLock memlock).append (paired_releaseLock memlock)

theorem paired_call (call : Call) : Paired call.code := by
  cases call with
  | acquireLock l => exact paired_acquireLock l
  | releaseLock l => exact paired_releaseLock l
  | heapSync => exact paired_heapSync
  | pageSync => exact paired_pageSync
  | semWait s n => exact paired_of_forall (by simp [Call.code, semWait])
  | semSignal s n => exact paired_of_forall (by simp [Call.code, semSignal])
  | globalSection => exact paired_of_forall (by simp [Call.code])

theorem paired_codeOf (calls : List Call) : Paired (codeOf calls) := .flatMap paired_call calls

theorem paired_releaseFd (file : Option (List Call)) : Paired (releaseFd file) := by
  cases file with
  | none => exact .nil
  | some close => exact (paired_codeOf close).append paired_heapSync

theorem paired_makeNode (lookup make : List Call) : Paired (makeNode lookup make) :=
  ((paired_heapSync.append (paired_codeOf lookup)).append (paired_codeOf make)).append paired_heapSync

theorem paired_sysOpen (path : OpenPath) : Paired (sysOpen path) := by
  obtain ⟨lookup, creat, opened⟩ := path
  refine ((paired_codeOf lookup).append ?_).append ?_
  · rcases creat with _ | ⟨dir, make, again⟩
    · exact .nil
    · exact (paired_makeNode dir make).append (paired_codeOf again)
  · rcases opened with _ | ⟨op, close⟩
    · exact .nil
    · exact (paired_heapSync.append (paired_codeOf op)).append (paired_releaseFd close)

theorem paired_sysExec (path : ExecPath) : Paired (sysExec path) := by
  induction path with
  | fails calls => exact paired_codeOf calls
  | script calls interpreter ih => exact ((paired_codeOf calls).append paired_heapSync).append ih
  | loads calls argc =>
    exact (((((paired_codeOf calls).append paired_heapSync).append (paired_heapCalls argc)).append
      (paired_heapCalls argc)).append paired_heapSync).append paired_heapSync

theorem paired_sysExit (status : BitVec 32) (fds : List (Option (List Call))) (pages : Nat) :
    Paired (sysExit status fds pages) := by
  have closes := Paired.flatMap paired_releaseFd fds
  have frees : Paired (List.replicate pages pageSync).flatten := by
    induction pages with
    | zero => exact .nil
    | succ pages ih => exact paired_pageSync.append ih
  refine ((((paired_of_forall ?_).append closes).append (paired_of_forall ?_)).append frees).append
    (paired_of_forall ?_)
  · simp
  · simp
  · simp

theorem paired_syscall (call : Syscall) : Paired call.code := by
  cases call with
  | fileOp op => exact paired_codeOf _
  | «open» path => exact paired_sysOpen path
  | close file => exact paired_releaseFd file
  | makeNode lookup make => exact paired_makeNode lookup make
  | pipe fd1 fd2 =>
    cases fd1 with
    | false => exact .nil
    | true =>
      cases fd2 with
      | false => exact paired_heapSync
      | true => exact (paired_heapSync.append paired_heapSync).append paired_heapSync
  | waitpid pid => exact paired_of_forall (by simp [Syscall.code, sysWaitpid])
  | schedYield => exact paired_of_forall (by simp [Syscall.code, sysSchedYield])
  | fork => exact paired_of_forall (by simp [Syscall.code, sysFork])
  | exec path => exact paired_sysExec path
  | exit status fds pages => exact paired_sysExit status fds pages

def Waits (i : Instr) : Prop :=
  i = .sched ∨ i = .acquireGlobal ∨ i = .pick ∨ i = .releaseGlobal ∨ i = .halt ∨ ∃ b, i = .nest b

inductive InCall : List Instr → Prop
  | leave {code : List Instr} : Paired code → InCall (.leave :: code)
  | wait {i : Instr} {code : List Instr} : Waits i → InCall code → InCall (i :: code)

theorem InCall.append (waits : ∀ i ∈ code, Waits i) (inCall : InCall rest) : InCall (code ++ rest) := by
  induction code with
  | nil => exact inCall
  | cons i code ih =>
    obtain ⟨first, others⟩ := List.forall_mem_cons.mp waits
    exact .wait first (ih others)

def Shape (heap : List Slot) (p : Slot) (code : List Instr) : Prop :=
  (p ∈ heap → InCall code) ∧ (p ∉ heap → Paired code)

def Exclusive (m : Machine) : Prop :=
  m.heap = [] ∨ ∃ p, m.heap = [p] ∧ (HasMemlock m p ∨ p = m.current ∧ ∃ code, m.code p = some (.leave :: code))

structure Alone (m : Machine) : Prop where
  running : ∃ code, m.code m.current = some code ∧ Shape m.heap m.current code
  waiting : Others (Shape m.heap) m
  heap : Exclusive m

theorem expands_paired (expands : Expands m i code) : Paired code := by
  cases expands with
  | lockDropped count => exact (paired_heapCalls count).append (paired_of_forall (by simp))
  | semPosted count => exact (paired_heapCalls count).append (paired_of_forall (by simp))
  | lockContended | semContended => exact .call (paired_of_forall (by simp))
  | _ => exact paired_of_forall (by simp [reapSection])

theorem expands_ne_enter (expands : Expands m i code) : i ≠ .enter := by
  cases expands <;> nofun

theorem expands_waits (expands : Expands m i code) (waits : Waits i) : ∀ i ∈ code, Waits i := by
  cases expands with
  | schedNested | nested | halted => simp
  | schedCalled | halts => simp [Waits]
  | _ => simp [Waits] at waits

section

variable {k k' : State} {lock lock' : Lock} {held : Bool} {locks : Nat → Lock}

theorem acquireLock_kept (locked : lock.locked = true) (own : lock.global = false) (other : lock.heldBy ≠ k.curpid)
    (call : Kernel.SyncCalls.acquireLock true k lock = .ok (k', lock', held)) :
    lock'.locked = true ∧ lock'.global = false ∧ lock'.heldBy = lock.heldBy := by
  unfold Kernel.SyncCalls.acquireLock at call
  rw [if_pos rfl, if_neg (by simp [own, other]), if_pos locked] at call
  split at call
  · cases call
  · cases call
    exact ⟨locked, own, rfl⟩

theorem releaseLock_other (own : lock.global = false) (other : lock.heldBy ≠ k.curpid) :
    Kernel.SyncCalls.releaseLock k lock = .error .unacquired := by
  unfold Kernel.SyncCalls.releaseLock
  rw [if_neg (by simp [own]), if_pos (by simp [own, other])]

theorem memlock_kept (isLocked : (m.locks memlock).locked = true) (own : (m.locks memlock).global = false)
    (other : (m.locks memlock).heldBy ≠ m.k.curpid) (change : Locked m i locks) :
    (locks memlock).locked = true ∧ (locks memlock).global = false ∧
      (locks memlock).heldBy = (m.locks memlock).heldBy := by
  cases change with
  | same => exact ⟨isLocked, own, rfl⟩
  | tested call | queued call =>
    rw [update_apply]
    split
    · rename_i same
      subst same
      exact acquireLock_kept isLocked own other call
    · exact ⟨isLocked, own, rfl⟩
  | dropped call =>
    rw [update_apply]
    split
    · rename_i same
      subst same
      rw [releaseLock_other own other] at call
      cases call
    · exact ⟨isLocked, own, rfl⟩

end

theorem hasMemlock_unique (first : HasMemlock m p) (second : HasMemlock m q) : p = q := first.2.2.symm.trans second.2.2

theorem hasMemlock_kept (has : HasMemlock m p) (away : p ≠ m.current) (change : Locked m i m'.locks) :
    HasMemlock m' p := by
  obtain ⟨isLocked, own, owner⟩ := has
  have other : (m.locks memlock).heldBy ≠ m.k.curpid := by
    intro same
    exact away (owner.symm.trans (congrArg pidOff same))
  obtain ⟨isLocked', own', same⟩ := memlock_kept isLocked own other change
  exact ⟨isLocked', own', same ▸ owner⟩

theorem hasMemlock_waits (has : HasMemlock m p) (waits : Waits i) (change : Locked m i m'.locks) : HasMemlock m' p := by
  generalize equal : m'.locks = locks at change
  unfold HasMemlock
  rw [equal]
  cases change with
  | same => exact has
  | tested | queued | dropped => simp [Waits] at waits

section
variable (alone : Alone m)
include alone

theorem Alone.away (outside : m.current ∉ m.heap) :
    m.heap = [] ∨ ∃ p, m.heap = [p] ∧ p ≠ m.current ∧ HasMemlock m p := by
  rcases alone.heap with none | ⟨p, one, has | ⟨rfl, -⟩⟩
  · exact .inl none
  · refine .inr ⟨p, one, ?_, has⟩
    rintro rfl
    exact outside (by simp [one])
  · exact absurd (by simp [one]) outside

theorem Alone.moves {depth : Nat} (moves : Moves m code depth m.heap m')
    (shape : Shape m.heap m.current code) (exclusive : Exclusive m') : Alone m' where
  running := by
    refine ⟨code, moves.running, ?_⟩
    rwa [moves.heap, moves.current]
  waiting := by
    rw [moves.heap]
    exact alone.waiting.moves moves
  heap := exclusive

theorem Alone.switch (shape : Shape m.heap m.current rest)
    (code : m'.code = update m.code m.current (some rest)) (runs : m'.code m'.current ≠ none)
    (heap : m'.heap = m.heap) (exclusive : Exclusive m') : Alone m' := by
  obtain ⟨next, there⟩ := Option.ne_none_iff_exists'.mp runs
  refine ⟨⟨next, there, ?_⟩, ?_, exclusive⟩
  · rw [heap]
    exact alone.waiting.switch shape code there
  · intro _ _ _ here
    rw [heap]
    exact alone.waiting.switch shape code here

theorem Alone.outside (outside : m.current ∉ m.heap) (paired : Paired (i :: rest))
    (begins : i = .enter → HasMemlock m m.current ∨ ∀ p ∈ m.heap, ¬HasMemlock m p)
    (vacant : ∀ new, i = .fork new → new ∉ m.heap) (effect : Effect m rest i m') (change : Locked m i m'.locks) : Alone m' := by
  have away := alone.away outside
  have exclusive (same : m'.heap = m.heap) : Exclusive m' := by
    rw [Exclusive, same]
    exact away.imp_right fun ⟨p, one, other, has⟩ => ⟨p, one, .inl (hasMemlock_kept has other change)⟩
  have shape {code : List Instr} (paired : Paired code) : Shape m.heap m.current code :=
    ⟨fun inside => absurd inside outside, fun _ => paired⟩
  cases effect with
  | acquireGlobal moves => exact alone.moves moves (shape (paired.tail nofun)) (exclusive moves.heap)
  | releaseGlobal held moves => exact alone.moves moves (shape (paired.tail nofun)) (exclusive moves.heap)
  | enter moves =>
    cases paired with
    | other notEnter => exact absurd rfl notEnter
    | @call code paired =>
      have none : m.heap = [] := by
        rcases away with none | ⟨p, one, other, has⟩
        · exact none
        · rcases begins rfl with own | free
          · exact absurd (hasMemlock_unique has own) other
          · exact absurd has (free p (by simp [one]))
      refine ⟨⟨_, moves.running, ?_⟩, ?_, .inr ⟨m.current, ?_, .inr ⟨moves.current.symm, code, ?_⟩⟩⟩
      · rw [moves.heap, moves.current]
        exact ⟨fun _ => .leave paired, fun out => absurd (.head _) out⟩
      · intro q other far here
        have shape := alone.waiting.moves moves q other far here
        rw [moves.current] at far
        rw [moves.heap, none]
        rw [none] at shape
        exact ⟨fun inside => absurd (List.mem_singleton.mp inside) far, fun _ => shape.2 List.not_mem_nil⟩
      · rw [moves.heap, none]
      · rw [← moves.current]
        exact moves.running
  | leave =>
    cases paired with
    | other _ notLeave => exact absurd rfl notLeave
  | expands expands moves =>
    have whole := (expands_paired expands).append (paired.tail (expands_ne_enter expands))
    exact alone.moves moves (shape whole) (exclusive moves.heap)
  | fork current code depth heap =>
    refine ⟨⟨rest, ?_, ?_⟩, ?_, exclusive heap⟩
    · rw [current, code, update_self]
    · rw [heap, current]
      exact shape (paired.tail nofun)
    · rw [heap]
      refine alone.waiting.fork (fun _ => ⟨fun inside => absurd inside (vacant _ rfl), fun _ => ?_⟩) current code
      exact paired_of_forall (by simp)
  | switch code runs depth heap => exact alone.switch (shape (paired.tail nofun)) code runs heap (exclusive heap)

theorem Alone.inside (inside : m.current ∈ m.heap) (here : m.code m.current = some (i :: rest))
    (inCall : InCall (i :: rest)) (effect : Effect m rest i m') (change : Locked m i m'.locks) : Alone m' := by
  have one : m.heap = [m.current] := by
    rcases alone.heap with none | ⟨p, one, -⟩
    · simp [none] at inside
    · rw [one, List.mem_singleton] at inside
      rw [one, inside]
  cases inCall with
  | leave paired =>
    cases effect with
    | expands expands => cases expands
    | leave moves =>
      rw [one, List.erase_cons_head] at moves
      refine ⟨⟨rest, moves.running, ?_⟩, ?_, .inl moves.heap⟩
      · rw [moves.heap]
        exact ⟨fun bad => absurd bad List.not_mem_nil, fun _ => paired⟩
      · intro q other far here
        have shape := alone.waiting.moves moves q other far here
        rw [moves.current] at far
        rw [moves.heap]
        refine ⟨fun bad => absurd bad List.not_mem_nil, fun _ => shape.2 ?_⟩
        rw [one, List.mem_singleton]
        exact far
  | wait waits inCall =>
    have has : HasMemlock m m.current := by
      rcases alone.heap with none | ⟨_, single, has | ⟨-, code, head⟩⟩
      · simp [none] at inside
      · rw [single, List.mem_singleton] at inside
        exact inside ▸ has
      · rw [single, List.mem_singleton] at inside
        rw [← inside, here] at head
        cases head
        simp [Waits] at waits
    have exclusive (same : m'.heap = m.heap) : Exclusive m' :=
      .inr ⟨m.current, same.trans one, .inl (hasMemlock_waits has waits change)⟩
    have shape {code : List Instr} (inCall : InCall code) : Shape m.heap m.current code :=
      ⟨fun _ => inCall, fun outside => absurd inside outside⟩
    cases effect with
    | acquireGlobal moves => exact alone.moves moves (shape inCall) (exclusive moves.heap)
    | releaseGlobal held moves => exact alone.moves moves (shape inCall) (exclusive moves.heap)
    | enter | leave | fork => simp [Waits] at waits
    | expands expands moves =>
      exact alone.moves moves (shape (.append (expands_waits expands waits) inCall)) (exclusive moves.heap)
    | switch code runs depth heap => exact alone.switch (shape inCall) code runs heap (exclusive heap)

theorem Alone.interrupted {handler : List Instr} (step : interrupted m handler = some m')
    (shape : ∀ code, Shape m.heap m.current code → Shape m.heap m.current (handler ++ code))
    (has : m.current ∈ m.heap → HasMemlock m m.current) : Alone m' := by
  obtain ⟨code, here, before⟩ := alone.running
  rw [Kernel.Threads.interrupted, here] at step
  dsimp only at step
  split at step
  · cases step
    have moves : Moves m (handler ++ code) m.depth m.heap (m.goto m.current (handler ++ code)) := moves_goto rfl ..
    refine alone.moves moves (shape code before) ?_
    rcases alone.heap with none | ⟨p, one, own | ⟨rfl, -⟩⟩
    · exact .inl none
    · exact .inr ⟨p, one, .inl own⟩
    · exact .inr ⟨m.current, one, .inl (has (by simp [one]))⟩
  · cases step

theorem Alone.next {label : Label} (disciplined : Disciplined m label) (step : next m label = some m') : Alone m' := by
  obtain ⟨code, here, shape⟩ := alone.running
  cases label with
  | syscall call =>
    rw [Kernel.Threads.next] at step
    split at step
    · rename_i user
      cases step
      cases user.symm.trans here
      have outside : m.current ∉ m.heap := by
        intro inside
        cases shape.1 inside
      have moves : Moves m call.code m.depth m.heap (m.goto m.current call.code) := moves_goto rfl ..
      refine alone.moves moves ⟨fun inside => absurd inside outside, fun _ => paired_syscall call⟩ ?_
      exact (alone.away outside).imp_right fun ⟨p, one, _, has⟩ => ⟨p, one, .inl has⟩
    · cases step
  | run =>
    rw [Kernel.Threads.next] at step
    split at step
    · rename_i i rest front
      cases front.symm.trans here
      have first : upcoming m = some i := by rw [upcoming, front]; rfl
      rw [Disciplined, forking, first] at disciplined
      by_cases inside : m.current ∈ m.heap
      · exact alone.inside inside front (shape.1 inside) (execute_spec step).1 (execute_spec step).2
      · apply alone.outside inside (shape.2 inside) _ _ (execute_spec step).1 (execute_spec step).2
        · rintro rfl
          exact disciplined.1 rfl
        · rintro new rfl
          exact of_decide_eq_true disciplined.2
    · cases step
  | timer =>
    refine alone.interrupted step ?_ disciplined
    intro code shape
    exact ⟨fun inside => .wait (.inl rfl) (shape.1 inside), fun outside => .other (by simp) (by simp) (shape.2 outside)⟩
  | interrupt calls =>
    refine alone.interrupted step ?_ fun inside => absurd inside disciplined
    intro code shape
    exact ⟨fun inside => absurd inside disciplined, fun outside => (paired_codeOf calls).append (shape.2 outside)⟩

end

theorem alone_initial (initial : machine.initial m) : Alone m := by
  obtain ⟨-, -, -, -, -, ⟨path, code⟩, none⟩ := initial
  refine ⟨⟨sysExec path, ?_, ?_⟩, ?_, .inl none⟩
  · rw [code, update_self]
  · rw [none]
    exact ⟨fun bad => absurd bad List.not_mem_nil, fun _ => paired_sysExec path⟩
  · intro _ _ away there
    rw [code, update_of_ne away] at there
    cases there

theorem heap_calls_exclusive (reachable : (machine.restrict Disciplined).Reachable m) : m.heap.length ≤ 1 := by
  have alone : Alone m := by
    apply reachable.invariant
    · intro m
      exact alone_initial
    · intro _ _ _ alone step
      exact alone.next step.1 step.2
  rcases alone.heap with none | ⟨_, one, -⟩
  · simp [none]
  · simp [one]

def preempted : List Label :=
  forks ++ .syscall (.pipe true false) :: List.replicate 4 .run ++ .timer :: List.replicate 4 .run ++
    [.syscall (.fileOp (some [.globalSection])), .run]

theorem heap_calls_exclusive_preempted :
    ∃ m, (machine.restrict Disciplined).Reachable m ∧ m.current = 1 ∧ m.heap = [0] ∧ m.heap.length ≤ 1 := by
  have computed : (preempted.foldlM (fun m label => if Disciplined m label then next m label else none) booted).map
      (fun m => (m.current, m.heap)) = some (1, [0]) := by decide +kernel
  obtain ⟨m, run, equal⟩ := Option.map_eq_some_iff.mp computed
  rw [Prod.mk.injEq] at equal
  have start : (machine.restrict Disciplined).Reachable booted := .initial booted_initial
  have reachable := start.leadsTo (System.leadsTo_run_guarded (fun _ _ _ => id) run)
  exact ⟨m, reachable, equal.1, equal.2, heap_calls_exclusive reachable⟩

def overlap : List Label :=
  forks ++ .syscall (.pipe true false) :: List.replicate 4 .run ++ .timer :: List.replicate 4 .run ++
    .syscall (.pipe true false) :: List.replicate 3 .run

theorem heap_calls_overlap : ∃ m, machine.Reachable m ∧ m.heap = [1, 0] := by
  have computed : (overlap.foldlM next booted).map Machine.heap = some [1, 0] := by decide +kernel
  obtain ⟨m, run, heap⟩ := Option.map_eq_some_iff.mp computed
  exact ⟨m, booted_reachable.run (fun _ _ _ => id) run, heap⟩

end Petix.Proof.Threads
