import Mathlib.Algebra.BigOperators.Group.List.Basic
import Mathlib.Data.Fintype.Card
import Petix.Proof.Threads.Steps

namespace Petix.Proof.Threads
open Function Library Kernel.Threads Spec.Threads
open Kernel.Proc (Slot State pidOff)
open Kernel.Syscall (forkPcb)

variable {m m' : Machine} {k k' : State} {p new : Slot} {i : Instr} {rest code : List Instr} {depth : Nat}
  {heap : List Slot}

def owes : Instr → Int
  | .acquireGlobal => -1
  | .releaseGlobal | .testLock _ | .dropLock _ | .testSem _ _ | .postSem _ _ | .allocProc | .scan _ => 1
  | _ => 0

def owed (code : List Instr) : Int := (code.map owes).sum

@[simp] theorem owed_nil : owed [] = 0 := rfl

@[simp] theorem owed_cons (i : Instr) (code : List Instr) : owed (i :: code) = owes i + owed code := by simp [owed]

@[simp] theorem owed_append (code rest : List Instr) : owed (code ++ rest) = owed code + owed rest := by simp [owed]

@[simp] theorem owed_heapCalls (count : Nat) : owed (heapCalls count) = 0 := by
  induction count with
  | zero => rfl
  | succ count ih => simp [heapCalls, owes, ih]

@[simp] theorem owed_acquireLock (l : Nat) : owed (acquireLock l) = 0 := rfl

@[simp] theorem owed_releaseLock (l : Nat) : owed (releaseLock l) = 0 := rfl

@[simp] theorem owed_heapSync : owed heapSync = 0 := rfl

@[simp] theorem owed_kmallocSync : owed kmallocSync = 0 := rfl

@[simp] theorem owed_kfreeSync : owed kfreeSync = 0 := rfl

@[simp] theorem owed_pageSync : owed pageSync = 0 := rfl

theorem owed_call (call : Call) : owed call.code = 0 := by cases call <;> rfl

theorem owed_flatMap {α : Type} {f : α → List Instr} (none : ∀ a, owed (f a) = 0) (l : List α) :
    owed (l.flatMap f) = 0 := by
  induction l with
  | nil => rfl
  | cons a l ih => rw [List.flatMap_cons, owed_append, none, ih, add_zero]

@[simp] theorem owed_codeOf (calls : List Call) : owed (codeOf calls) = 0 := owed_flatMap owed_call calls

@[simp] theorem owed_releaseFd (file : Option (List Call)) : owed (releaseFd file) = 0 := by
  cases file with
  | none => rfl
  | some close => simp [releaseFd]

@[simp] theorem owed_makeNode (lookup make : List Call) : owed (makeNode lookup make) = 0 := by simp [makeNode]

theorem owed_sysOpen (path : OpenPath) : owed (sysOpen path) = 0 := by
  obtain ⟨-, creat, opened⟩ := path
  rcases creat with _ | ⟨-, -⟩ <;> rcases opened with _ | ⟨-, -⟩ <;> simp [sysOpen]

theorem owed_sysExec (path : ExecPath) : owed (sysExec path) = 0 := by
  induction path with
  | fails calls => simp [sysExec]
  | script calls interpreter ih => simp [sysExec, ih]
  | loads calls argc => simp [sysExec]

theorem owed_sysExit (status : BitVec 32) (fds : List (Option (List Call))) (pages : Nat) :
    owed (sysExit status fds pages) = 0 := by
  have closes := owed_flatMap owed_releaseFd fds
  have frees : owed (List.replicate pages pageSync).flatten = 0 := by
    induction pages with
    | zero => rfl
    | succ pages ih => simp [List.replicate_succ, ih]
  simp [sysExit, closes, frees, owes]

theorem owed_syscall (call : Syscall) : owed call.code = 0 := by
  cases call with
  | fileOp op => exact owed_codeOf _
  | «open» path => exact owed_sysOpen path
  | close file => exact owed_releaseFd file
  | makeNode lookup make => exact owed_makeNode lookup make
  | pipe fd1 fd2 => cases fd1 <;> cases fd2 <;> rfl
  | waitpid pid => rfl
  | schedYield => rfl
  | fork => rfl
  | exec path => exact owed_sysExec path
  | exit status fds pages => exact owed_sysExit status fds pages

structure Balanced (m : Machine) : Prop where
  running : ∃ code, m.code m.current = some code ∧ (m.depth : Int) = owed code
  waiting : Others (fun _ code => owed code = 1) m

theorem Balanced.moves (balanced : Balanced m) (moves : Moves m code depth heap m')
    (equal : (depth : Int) = owed code) : Balanced m' where
  running := ⟨code, moves.running, moves.depth ▸ equal⟩
  waiting := balanced.waiting.moves moves

theorem expands_owed (expands : Expands m i code)
    (free : i = .allocProc → ∃ p, (m.k.ptable p).rs = .noproc) : owed code = owes i := by
  cases expands with
  | tableFull full =>
    obtain ⟨p, noproc⟩ := free rfl
    exact absurd noproc (full p)
  | lockDropped count => simp [owes]
  | semPosted count => simp [owes]
  | _ => rfl

theorem Balanced.effect (balanced : Balanced m) (here : m.code m.current = some (i :: rest))
    (free : i = .allocProc → ∃ p, (m.k.ptable p).rs = .noproc) (alone : i = .pick → m.depth = 1)
    (effect : Effect m rest i m') : Balanced m' := by
  obtain ⟨code, same, equal⟩ := balanced.running
  cases here.symm.trans same
  rw [owed_cons] at equal
  cases effect with
  | acquireGlobal moves => exact balanced.moves moves (by simp [owes] at equal ⊢; omega)
  | releaseGlobal held moves => exact balanced.moves moves (by simp [owes] at equal ⊢; omega)
  | enter moves => exact balanced.moves moves (by simpa [owes] using equal)
  | leave moves => exact balanced.moves moves (by simpa [owes] using equal)
  | expands expands moves => exact balanced.moves moves (by rw [owed_append, expands_owed expands free, equal])
  | fork current code depth heap =>
    refine ⟨⟨rest, ?_, ?_⟩, balanced.waiting.fork (fun _ => rfl) current code⟩
    · rw [current, code, update_self]
    · rw [depth, equal]
      simp [owes]
  | switch code runs depth heap =>
    -- both the process that leaves and the one that goes on owe one
    have left : owed rest = 1 := by
      rw [alone rfl] at equal
      simpa [owes] using equal.symm
    obtain ⟨next, there⟩ := Option.ne_none_iff_exists'.mp runs
    refine ⟨⟨next, there, ?_⟩, fun q other _ => balanced.waiting.switch left code⟩
    rw [depth, alone rfl, balanced.waiting.switch left code there]
    rfl

theorem Balanced.interrupted {handler : List Instr} (balanced : Balanced m) (none : owed handler = 0)
    (step : interrupted m handler = some m') : Balanced m' := by
  obtain ⟨code, here, equal⟩ := balanced.running
  rw [Kernel.Threads.interrupted, here] at step
  dsimp only at step
  split at step
  · cases step
    exact balanced.moves (moves_goto rfl ..) (by rw [equal, owed_append, none, zero_add])
  · cases step

theorem Balanced.next {label : Label} (balanced : Balanced m) (orderly : Orderly m label)
    (step : next m label = some m') : Balanced m' := by
  cases label with
  | syscall call =>
    rw [Kernel.Threads.next] at step
    split at step
    · rename_i user
      cases step
      obtain ⟨code, here, equal⟩ := balanced.running
      cases user.symm.trans here
      exact balanced.moves (moves_goto rfl ..) (by rw [equal, owed_syscall, owed_nil])
    · cases step
  | run =>
    rw [Kernel.Threads.next] at step
    split at step
    · rename_i i rest here
      have first : upcoming m = some i := by rw [upcoming, here]; rfl
      rw [Orderly, first] at orderly
      apply balanced.effect here _ _ (execute_spec step).1
      · rintro rfl
        exact orderly.1 rfl
      · rintro rfl
        exact orderly.2 rfl
    · cases step
  | timer => exact balanced.interrupted rfl step
  | interrupt calls => exact balanced.interrupted (owed_codeOf calls) step

theorem balanced_initial (initial : machine.initial m) : Balanced m := by
  obtain ⟨-, depth, -, -, -, ⟨path, code⟩, -⟩ := initial
  refine ⟨⟨sysExec path, ?_, ?_⟩, ?_⟩
  · rw [code, update_self]
  · rw [depth, owed_sysExec]
    rfl
  · intro _ _ away there
    rw [code, update_of_ne away] at there
    cases there

theorem user_mode_released (reachable : (machine.restrict Orderly).Reachable m) (user : UserMode m) : m.depth = 0 := by
  have balanced : Balanced m := by
    apply reachable.invariant
    · intro m
      exact balanced_initial
    · intro _ _ _ balanced step
      exact balanced.next step.1 step.2
  obtain ⟨_, here, equal⟩ := balanced.running
  cases user.symm.trans here
  rw [owed_nil] at equal
  exact_mod_cast equal

def yields : List Label :=
  forks ++ .syscall .schedYield :: List.replicate 4 .run ++
    .syscall (.fileOp (some [.heapSync])) :: List.replicate 8 .run

theorem user_mode_released_yield :
    ∃ m, (machine.restrict Orderly).Reachable m ∧ m.current = 1 ∧ UserMode m ∧ m.depth = 0 := by
  have computed : (yields.foldlM (fun m label => if Orderly m label then next m label else none) booted).map
      (fun m => (m.current, m.code m.current)) = some (1, some []) := by decide +kernel
  obtain ⟨m, run, equal⟩ := Option.map_eq_some_iff.mp computed
  rw [Prod.mk.injEq] at equal
  have start : (machine.restrict Orderly).Reachable booted := .initial booted_initial
  have reachable := start.leadsTo (System.leadsTo_run_guarded (fun _ _ _ => id) run)
  exact ⟨m, reachable, equal.1, equal.2, user_mode_released reachable equal.2⟩

structure At (k : State) (depth : Nat) (code : List Instr) (m : Machine) : Prop where
  k : m.k = k
  depth : m.depth = depth
  code : m.code m.current = some code

theorem next_run (here : m.code m.current = some (i :: rest)) : next m .run = execute m m.current rest i := by
  rw [Kernel.Threads.next, here]

theorem At.syscall (here : At k depth [] m) (call : Syscall) :
    ∃ m', machine.step m (.syscall call) m' ∧ At k depth call.code m' :=
  ⟨_, if_pos here.code, here.k, here.depth, update_self ..⟩

theorem At.acquireGlobal (here : At k depth (.acquireGlobal :: rest) m) :
    ∃ m', machine.step m .run m' ∧ At k (depth + 1) rest m' :=
  ⟨_, next_run here.code, here.k, congrArg (· + 1) here.depth, update_self ..⟩

theorem At.releaseGlobal (here : At k (depth + 1) (.releaseGlobal :: rest) m) :
    ∃ m', machine.step m .run m' ∧ At k depth rest m' := by
  have held : m.depth ≠ 0 := by rw [here.depth]; omega
  refine ⟨_, (next_run here.code).trans (if_neg held), here.k, ?_, update_self ..⟩
  change m.depth - 1 = depth
  rw [here.depth, Nat.add_sub_cancel]

theorem At.allocProc (here : At k depth (.allocProc :: rest) m) (found : Kernel.Proc.allocProc k = some (new, k')) :
    ∃ m', machine.step m .run m' ∧ At k' depth (.releaseGlobal :: .acquireGlobal :: .fork new :: .acquireGlobal ::
      .releaseGlobal :: .releaseGlobal :: rest) m' := by
  obtain ⟨rfl, equal, code⟩ := here
  have step := next_run code
  rw [execute, found] at step
  refine ⟨_, step, rfl, equal, ?_⟩
  change update m.code (pidOff m.k.curpid) _ (pidOff k'.curpid) = _
  rw [allocProc_curpid found, update_self]

theorem At.tableFull (here : At k depth (.allocProc :: rest) m) (full : Kernel.Proc.allocProc k = none) :
    ∃ m', machine.step m .run m' ∧ At k depth rest m' := by
  obtain ⟨rfl, equal, code⟩ := here
  have step := next_run code
  rw [execute, full] at step
  exact ⟨_, step, rfl, equal, update_self ..⟩

theorem At.fork (here : At k depth (.fork new :: rest) m) :
    ∃ m', machine.step m .run m' ∧ At (forkPcb k (pidOff k.curpid) new) depth rest m' := by
  obtain ⟨rfl, equal, code⟩ := here
  exact ⟨_, next_run code, rfl, equal, update_self ..⟩

theorem booted_at : At Kernel.Syscall.initProc 0 [] booted := by
  refine ⟨rfl, rfl, ?_⟩
  simp [Machine.current, booted]

theorem fork_run (here : At k 0 [] m) (found : Kernel.Proc.allocProc k = some (new, k')) :
    ∃ m', machine.LeadsTo m m' ∧ At (forkPcb k' (pidOff k'.curpid) new) 0 [] m' := by
  obtain ⟨_, step₁, here⟩ := here.syscall .fork
  obtain ⟨_, step₂, here⟩ := At.acquireGlobal here
  obtain ⟨_, step₃, here⟩ := here.allocProc found
  obtain ⟨_, step₄, here⟩ := here.releaseGlobal
  obtain ⟨_, step₅, here⟩ := here.acquireGlobal
  obtain ⟨_, step₆, here⟩ := here.fork
  obtain ⟨_, step₇, here⟩ := here.acquireGlobal
  obtain ⟨_, step₈, here⟩ := here.releaseGlobal
  obtain ⟨m₉, step₉, here⟩ := here.releaseGlobal
  refine ⟨m₉, ?_, here⟩
  exact .head ⟨_, step₁⟩ (.head ⟨_, step₂⟩ (.head ⟨_, step₃⟩ (.head ⟨_, step₄⟩ (.head ⟨_, step₅⟩ (.head ⟨_, step₆⟩
    (.head ⟨_, step₇⟩ (.head ⟨_, step₈⟩ (.single ⟨_, step₉⟩))))))))

def freeEntries (k : State) : Finset Slot := {p | (k.ptable p).rs = .noproc}

theorem mem_freeEntries : p ∈ freeEntries k ↔ (k.ptable p).rs = .noproc := by simp [freeEntries]

theorem freeEntries_fork (found : Kernel.Proc.allocProc k = some (new, k')) (old : Slot) :
    freeEntries (forkPcb k' old new) ⊂ freeEntries k := by
  obtain ⟨q, searched, equal⟩ := Option.map_eq_some_iff.mp found
  cases equal
  have free := Proc.search_some searched
  rw [Finset.ssubset_iff_of_subset]
  · refine ⟨new, mem_freeEntries.mpr free, ?_⟩
    rw [mem_freeEntries]
    simp [forkPcb]
  · intro q
    rw [mem_freeEntries, mem_freeEntries]
    by_cases same : q = new
    · simp [same, free]
    · simp [forkPcb, Kernel.Proc.State.setPcb, Kernel.Proc.claimProc, same]

theorem full_reachable (reachable : machine.Reachable m) (here : At k 0 [] m) :
    ∃ m' k', machine.Reachable m' ∧ At k' 0 [] m' ∧ Kernel.Proc.allocProc k' = none := by
  generalize size : (freeEntries k).card = n
  induction n using Nat.strong_induction_on generalizing m k with
  | _ n ih =>
    cases found : Kernel.Proc.allocProc k with
    | none => exact ⟨m, k, reachable, here, found⟩
    | some pair =>
      obtain ⟨_, run, there⟩ := fork_run here found
      have fewer := Finset.card_lt_card (freeEntries_fork found (pidOff pair.2.curpid))
      rw [size] at fewer
      exact ih _ fewer (reachable.leadsTo run) there rfl

def exitBlocks : List Label :=
  forks ++ .syscall (.pipe true false) :: List.replicate 3 .run ++ .timer :: List.replicate 4 .run ++
    .syscall (.exit 0 [some []] 0) :: List.replicate 19 .run

theorem depth_left_over : (∃ m m', machine.Reachable m ∧ UserMode m ∧ m.depth = 0 ∧ (∀ p, (m.k.ptable p).rs ≠ .noproc) ∧
      [Label.syscall .fork, .run, .run].foldlM next m = some m' ∧ UserMode m' ∧ m'.depth = 1) ∧
    ∃ m, exitBlocks.foldlM next booted = some m ∧ UserMode m ∧ m.depth = 1 := by
  constructor
  · obtain ⟨m, k, reachable, here, full⟩ := full_reachable booted_reachable booted_at
    obtain ⟨m₁, step₁, here₁⟩ := here.syscall .fork
    obtain ⟨m₂, step₂, here₂⟩ := At.acquireGlobal here₁
    obtain ⟨m₃, step₃, here₃⟩ := here₂.tableFull full
    refine ⟨m, m₃, reachable, here.code, here.depth, here.k ▸ allocProc_none full, ?_, here₃.code, here₃.depth⟩
    have run₁ : next m (.syscall .fork) = some m₁ := step₁
    have run₂ : next m₁ .run = some m₂ := step₂
    have run₃ : next m₂ .run = some m₃ := step₃
    simp [run₁, run₂, run₃]
  · have computed : (exitBlocks.foldlM next booted).map (fun m => (m.code m.current, m.depth)) = some (some [], 1) := by
      decide +kernel
    obtain ⟨m, run, equal⟩ := Option.map_eq_some_iff.mp computed
    rw [Prod.mk.injEq] at equal
    exact ⟨m, run, equal.1, equal.2⟩

end Petix.Proof.Threads
