import Petix.Proof.Proc.Sched
import Petix.Spec.Threads

namespace Petix.Proof.Threads
open Function Library Library.Result Library.Cyclic Kernel.Sync Kernel.Proc Kernel.Syscall
open Kernel.SyncCalls (Lock SyncFault setRs readyAll waitSem signalSem)
open Kernel.Threads Spec.Threads

variable {m m' : Machine} {k k' : State} {p q : Slot} {i : Instr} {rest code : List Instr} {lock lock' : Lock}
  {sem sem' : Sem} {n : Nat} {pid : Int} {held : Bool}

theorem acquireLock_curpid {slocks : Bool}
    (call : Kernel.SyncCalls.acquireLock slocks k lock = .ok (k', lock', held)) : k'.curpid = k.curpid := by
  unfold Kernel.SyncCalls.acquireLock at call
  split at call
  · split at call
    · cases call
      rfl
    · split at call
      · split at call
        · cases call
        · cases call
          rfl
      · cases call
        rfl
  · split at call
    · cases call
    · cases call
      rfl

theorem readyAll_curpid {lst : List Int} (call : readyAll k lst = .ok k') : k'.curpid = k.curpid := by
  induction lst generalizing k with
  | nil =>
    cases call
    rfl
  | cons pid lst ih =>
    rw [readyAll] at call
    split at call
    · cases call
    · rw [ih call]
      rfl

theorem releaseLock_curpid (call : Kernel.SyncCalls.releaseLock k lock = .ok (k', lock')) : k'.curpid = k.curpid := by
  unfold Kernel.SyncCalls.releaseLock at call
  split at call
  · split at call
    · cases call
      rfl
    · cases call
  · split at call
    · cases call
    · split at call
      · obtain ⟨_, ready, equal⟩ := map_ok call
        cases equal
        exact readyAll_curpid ready
      · cases call
        rfl

theorem waitSem_curpid (call : waitSem k p sem n = .ok (k', sem', held)) : k'.curpid = k.curpid := by
  unfold waitSem at call
  split at call
  · split at call
    · cases call
      rfl
    · cases call
      rfl
  · cases call

theorem wake_curpid {pids : List Int} (call : wake k pids = .ok k') : k'.curpid = k.curpid := by
  induction pids generalizing k with
  | nil =>
    cases call
    rfl
  | cons pid pids ih =>
    obtain ⟨_, -, call⟩ := bind_ok call
    obtain ⟨-, -, call⟩ := bind_ok call
    rw [ih call]
    rfl

theorem signalSem_curpid (call : signalSem k sem n = .ok (k', sem')) : k'.curpid = k.curpid := by
  unfold signalSem at call
  split at call
  · cases call
  · rename_i woken
    cases call
    exact wake_curpid woken

theorem procGetTerminatedChild_curpid (k : State) (p : Slot) (pid : Int) :
    (procGetTerminatedChild k p pid).2.curpid = k.curpid := by
  unfold procGetTerminatedChild
  split <;> rfl

theorem waitpidReap_curpid {result : Int × BitVec 8} (call : waitpidReap k p = .ok (result, k')) :
    k'.curpid = k.curpid := by
  obtain ⟨_, -, call⟩ := bind_ok call
  cases call
  rfl

theorem wakeParent_curpid (call : wakeParent k p = .ok k') : k'.curpid = k.curpid := by
  unfold wakeParent at call
  split at call
  · obtain ⟨_, -, call⟩ := bind_ok call
    dsimp only at call
    split at call
    · cases call
      rfl
    · cases call
      rfl
  · cases call
    rfl

theorem allocProc_curpid (call : Kernel.Proc.allocProc k = some (p, k')) : k'.curpid = k.curpid := by
  obtain ⟨_, -, equal⟩ := Option.map_eq_some_iff.mp call
  cases equal
  rfl

theorem allocProc_none (none : Kernel.Proc.allocProc k = none) (q : Slot) : (k.ptable q).rs ≠ .noproc := by
  intro _
  have first : after (after k.ptFree 1023) 1 = k.ptFree := by
    apply Fin.ext
    rw [val_after (by omega), val_after (by omega)]
    split_ifs <;> omega
  have here : (k.ptable (after (after k.ptFree 1023) (gap (after k.ptFree 1023) q))).rs = .noproc := by rwa [after_gap]
  have enough : 1 + 1024 = 1025 := rfl
  obtain ⟨_, -, -, found, -⟩ := Proc.search_nearest le_rfl enough gap_pos gap_le here
  rw [first] at found
  simp [Kernel.Proc.allocProc, found] at none

inductive Expands (m : Machine) : Instr → List Instr → Prop
  | lockHeld {l : Nat} : Expands m (.testLock l) [.releaseGlobal]
  | lockContended {l : Nat} : Expands m (.testLock l)
      [.enter, .leave, .queueLock l, .releaseGlobal, .sched, .acquireGlobal, .testLock l]
  | lockQueued {l : Nat} : Expands m (.queueLock l) []
  | lockDropped {l : Nat} (count : Nat) : Expands m (.dropLock l) (heapCalls count ++ [.releaseGlobal])
  | semTaken {s n : Nat} : Expands m (.testSem s n) [.releaseGlobal]
  | semContended {s n : Nat} : Expands m (.testSem s n)
      [.enter, .leave, .queueSem s n, .releaseGlobal, .sched, .acquireGlobal, .testSem s n]
  | semQueued {s n : Nat} : Expands m (.queueSem s n) []
  | semPosted {s n : Nat} (count : Nat) : Expands m (.postSem s n) (heapCalls count ++ [.releaseGlobal])
  | schedNested : Expands m .sched []
  | schedCalled : Expands m .sched [.acquireGlobal, .pick, .releaseGlobal]
  | halts : Expands m .pick [.nest true, .releaseGlobal, .halt, .acquireGlobal, .nest false, .pick]
  | nested {b : Bool} : Expands m (.nest b) []
  | halted : Expands m .halt []
  | tableFull (full : ∀ p, (m.k.ptable p).rs ≠ .noproc) : Expands m .allocProc []
  | procAllocated {new : Slot} : Expands m .allocProc
      [.releaseGlobal, .acquireGlobal, .fork new, .acquireGlobal, .releaseGlobal, .releaseGlobal]
  | childTerminated {pid : Int} : Expands m (.scan pid) (.releaseGlobal :: reapSection)
  | childRunning {pid : Int} : Expands m (.scan pid)
      (.releaseGlobal :: .acquireGlobal :: .block pid :: .releaseGlobal :: .sched :: reapSection)
  | childless {pid : Int} : Expands m (.scan pid) [.releaseGlobal]
  | blocked {pid : Int} : Expands m (.block pid) []
  | reaped : Expands m .reap [.acquireGlobal, .releaseGlobal]
  | exits {status : BitVec 32} : Expands m (.exit status) []
  | terminated : Expands m .terminate []

structure Moves (m : Machine) (code : List Instr) (depth : Nat) (heap : List Slot) (m' : Machine) : Prop where
  current : m'.current = m.current
  code : m'.code = update m.code m.current (some code)
  depth : m'.depth = depth
  heap : m'.heap = heap

inductive Effect (m : Machine) (rest : List Instr) : Instr → Machine → Prop
  | acquireGlobal {m' : Machine} (moves : Moves m rest (m.depth + 1) m.heap m') : Effect m rest .acquireGlobal m'
  | releaseGlobal {m' : Machine} (held : 0 < m.depth) (moves : Moves m rest (m.depth - 1) m.heap m') :
      Effect m rest .releaseGlobal m'
  | enter {m' : Machine} (moves : Moves m rest m.depth (m.current :: m.heap) m') : Effect m rest .enter m'
  | leave {m' : Machine} (moves : Moves m rest m.depth (m.heap.erase m.current) m') : Effect m rest .leave m'
  | expands {i : Instr} {code : List Instr} {m' : Machine} (expands : Expands m i code)
      (moves : Moves m (code ++ rest) m.depth m.heap m') : Effect m rest i m'
  | fork {new : Slot} {m' : Machine} (current : m'.current = m.current)
      (code : m'.code = update (update m.code new (some [.releaseGlobal])) m.current (some rest))
      (depth : m'.depth = m.depth) (heap : m'.heap = m.heap) : Effect m rest (.fork new) m'
  | switch {m' : Machine} (code : m'.code = update m.code m.current (some rest)) (runs : m'.code m'.current ≠ none)
      (depth : m'.depth = m.depth) (heap : m'.heap = m.heap) : Effect m rest .pick m'

theorem moves_goto (same : k.curpid = m.k.curpid) (locks : Nat → Lock) (sems : Nat → Sem) (nested : Bool) (depth : Nat)
    (heap : List Slot) (code : List Instr) : Moves m code depth heap (({ m with
      k := k, locks := locks, sems := sems, nested := nested, depth := depth, heap := heap }).goto m.current code) where
  current := congrArg pidOff same
  code := rfl
  depth := rfl
  heap := rfl

def Others (P : Slot → List Instr → Prop) (m : Machine) : Prop :=
  ∀ q code, q ≠ m.current → m.code q = some code → P q code

section

variable {P : Slot → List Instr → Prop} {depth : Nat} {heap : List Slot} {new : Slot}

theorem Moves.running (moves : Moves m code depth heap m') : m'.code m'.current = some code := by
  rw [moves.current, moves.code, update_self]

theorem Others.moves (others : Others P m) (moves : Moves m code depth heap m') : Others P m' := by
  intro q other away here
  rw [moves.current] at away
  rw [moves.code, update_of_ne away] at here
  exact others q other away here

theorem Others.fork (others : Others P m) (first : new ≠ m.current → P new [.releaseGlobal])
    (current : m'.current = m.current)
    (change : m'.code = update (update m.code new (some [.releaseGlobal])) m.current (some rest)) : Others P m' := by
  intro q other away here
  rw [current] at away
  rw [change, update_of_ne away, update_apply] at here
  split at here
  · rename_i same
    cases here
    exact same ▸ first (same ▸ away)
  · exact others q other away here

theorem Others.switch (others : Others P m) (left : P m.current rest)
    (change : m'.code = update m.code m.current (some rest)) {other : List Instr}
    (here : m'.code q = some other) : P q other := by
  rw [change, update_apply] at here
  split at here
  · rename_i same
    cases here
    exact same ▸ left
  · rename_i away
    exact others q other away here

end

inductive Locked (m : Machine) : Instr → (Nat → Lock) → Prop
  | same {i : Instr} : Locked m i m.locks
  | tested {l : Nat} {k : State} {lock : Lock} {held : Bool}
      (call : Kernel.SyncCalls.acquireLock true m.k (m.locks l) = .ok (k, lock, held)) :
      Locked m (.testLock l) (update m.locks l lock)
  | queued {l : Nat} {k : State} {lock : Lock} {held : Bool}
      (call : Kernel.SyncCalls.acquireLock true m.k (m.locks l) = .ok (k, lock, held)) :
      Locked m (.queueLock l) (update m.locks l lock)
  | dropped {l : Nat} {k : State} {lock : Lock} (call : Kernel.SyncCalls.releaseLock m.k (m.locks l) = .ok (k, lock)) :
      Locked m (.dropLock l) (update m.locks l lock)

theorem execute_spec (call : execute m m.current rest i = some m') : Effect m rest i m' ∧ Locked m i m'.locks := by
  cases i with
  | acquireGlobal =>
    cases call
    exact ⟨.acquireGlobal (moves_goto rfl ..), .same⟩
  | releaseGlobal =>
    rw [execute] at call
    split at call
    · cases call
    · rename_i positive
      cases call
      exact ⟨.releaseGlobal (Nat.pos_of_ne_zero positive) (moves_goto rfl ..), .same⟩
  | enter =>
    cases call
    exact ⟨.enter (moves_goto rfl ..), .same⟩
  | leave =>
    cases call
    exact ⟨.leave (moves_goto rfl ..), .same⟩
  | testLock l =>
    rw [execute] at call
    split at call
    · cases call
    · rename_i acquired
      cases call
      exact ⟨.expands .lockHeld (moves_goto (acquireLock_curpid acquired) ..), .tested acquired⟩
    · cases call
      exact ⟨.expands .lockContended (moves_goto rfl ..), .same⟩
  | queueLock l =>
    rw [execute] at call
    split at call
    · cases call
    · rename_i acquired
      cases call
      exact ⟨.expands .lockQueued (moves_goto (acquireLock_curpid acquired) ..), .queued acquired⟩
  | dropLock l =>
    rw [execute] at call
    split at call
    · cases call
    · rename_i released
      cases call
      refine ⟨.expands (.lockDropped (freed (m.locks l))) ?_, .dropped released⟩
      rw [List.append_assoc]
      exact moves_goto (releaseLock_curpid released) ..
  | testSem s n =>
    rw [execute] at call
    split at call
    · cases call
    · rename_i taken
      cases call
      exact ⟨.expands .semTaken (moves_goto (waitSem_curpid taken) ..), .same⟩
    · cases call
      exact ⟨.expands .semContended (moves_goto rfl ..), .same⟩
  | queueSem s n =>
    rw [execute] at call
    split at call
    · cases call
    · rename_i taken
      cases call
      exact ⟨.expands .semQueued (moves_goto (waitSem_curpid taken) ..), .same⟩
  | postSem s n =>
    rw [execute] at call
    split at call
    · cases call
    · rename_i posted
      cases call
      refine ⟨.expands (.semPosted (Kernel.Sync.semSignal (m.sems s) n).2.length) ?_, .same⟩
      rw [List.append_assoc]
      exact moves_goto (signalSem_curpid posted) ..
  | sched =>
    cases call
    split
    · exact ⟨.expands .schedNested (moves_goto rfl ..), .same⟩
    · exact ⟨.expands .schedCalled (moves_goto rfl ..), .same⟩
  | pick =>
    rw [execute] at call
    split at call
    · dsimp only at call
      split at call
      · cases call
      · rename_i runs
        cases call
        exact ⟨.switch rfl runs rfl rfl, .same⟩
    · split at call
      · cases call
        exact ⟨.expands .halts (moves_goto rfl ..), .same⟩
      · cases call
  | nest nested =>
    cases call
    exact ⟨.expands .nested (moves_goto rfl ..), .same⟩
  | halt =>
    cases call
    exact ⟨.expands .halted (moves_goto rfl ..), .same⟩
  | allocProc =>
    rw [execute] at call
    split at call
    · rename_i none
      cases call
      exact ⟨.expands (.tableFull (allocProc_none none)) (moves_goto rfl ..), .same⟩
    · rename_i found
      cases call
      exact ⟨.expands .procAllocated (moves_goto (allocProc_curpid found) ..), .same⟩
  | fork new =>
    cases call
    exact ⟨.fork rfl rfl rfl rfl, .same⟩
  | scan pid =>
    rw [execute] at call
    rcases scanned : procGetTerminatedChild m.k m.current pid with ⟨_, k⟩
    have same : k.curpid = m.k.curpid := by
      have kept := procGetTerminatedChild_curpid m.k m.current pid
      rwa [scanned] at kept
    rw [scanned] at call
    dsimp only at call
    split at call
    · cases call
      exact ⟨.expands .childTerminated (moves_goto same ..), .same⟩
    · split at call
      · cases call
        exact ⟨.expands .childRunning (moves_goto same ..), .same⟩
      · cases call
        exact ⟨.expands .childless (moves_goto same ..), .same⟩
  | block pid =>
    cases call
    have same : (waitpidBlock m.k m.current pid).curpid = m.k.curpid := rfl
    exact ⟨.expands .blocked (moves_goto same ..), .same⟩
  | reap =>
    rw [execute] at call
    split at call
    · cases call
    · rename_i reaped
      cases call
      exact ⟨.expands .reaped (moves_goto (waitpidReap_curpid reaped) ..), .same⟩
  | exit status =>
    rw [execute] at call
    split at call
    · cases call
    · rename_i woken
      cases call
      have same := wakeParent_curpid woken
      exact ⟨.expands .exits (moves_goto same ..), .same⟩
  | terminate =>
    cases call
    have same : ∀ pcb, (m.k.setPcb m.current pcb).curpid = m.k.curpid := fun _ => rfl
    exact ⟨.expands .terminated (moves_goto (same _) ..), .same⟩

def booted : Machine where
  k := initProc
  depth := 0
  nested := false
  locks := fun _ => ⟨[], 0, 0, false, false⟩
  sems := fun _ => ⟨0, []⟩
  code := update (fun _ => none) (pidOff initProc.curpid) (some [])
  heap := []

theorem booted_initial : machine.initial booted := by
  have exec : sysExec (.fails []) = [] := rfl
  refine ⟨rfl, rfl, rfl, fun _ => ⟨rfl, rfl, rfl⟩, fun _ => rfl, ⟨.fails [], ?_⟩, rfl⟩
  rw [exec, Machine.current, booted]

theorem booted_reachable : machine.Reachable booted := .initial booted_initial

def forks : List Label := .syscall .fork :: List.replicate 8 .run

end Petix.Proof.Threads
