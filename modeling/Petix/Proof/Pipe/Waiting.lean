import Petix.Proof.Pipe.Fifo
import Petix.Proof.Sync.Waking

namespace Petix.Proof.Pipe
open Function List Library Kernel.Sync Kernel.Pipes Kernel.PipeCalls Spec.Pipes
open Proof.Sync

variable {pipe : Pipe} {s s' : Session} {action : Action} {pid : Int} {sem : Sem} {calls : Int → Activity}
variable {view : Activity → Option Phase} {activity : Activity} {phase : Phase}
variable {view' : Activity → Option Phase}

def reads : Activity → Option Phase
  | .pread phase _ => some phase
  | _ => none

def writes : Activity → Option Phase
  | .pwrite phase _ => some phase
  | _ => none

def Asleep (phase : Option Phase) : Prop := phase = some .waiting ∨ phase = some .queued

section
variable {phase : Option Phase}

def wakePhase : Option Phase → Option Phase
  | some .queued => some .waiting
  | phase => phase

theorem wakePhase_awake (phase : Option Phase) : wakePhase phase ≠ some .queued := by
  unfold wakePhase
  split
  · simp
  · rename_i awake
    exact awake

theorem wakePhase_of_awake (awake : phase ≠ some .queued) : wakePhase phase = phase := by
  unfold wakePhase
  split
  · exact absurd rfl awake
  · rfl

theorem asleep_wakePhase_iff : Asleep (wakePhase phase) ↔ Asleep phase := by
  unfold wakePhase
  split
  · simp [Asleep]
  · rfl

end

theorem reads_wake (activity : Activity) : reads activity.wake = wakePhase (reads activity) := by
  unfold Activity.wake
  split
  · rfl
  · rfl
  · rename_i asleep _
    cases activity with
    | pread phase call =>
      cases phase with
      | queued => exact absurd rfl (asleep call)
      | _ => rfl
    | _ => rfl

theorem writes_wake (activity : Activity) : writes activity.wake = wakePhase (writes activity) := by
  unfold Activity.wake
  split
  · rfl
  · rfl
  · rename_i _ asleep
    cases activity with
    | pwrite phase call =>
      cases phase with
      | queued => exact absurd rfl (asleep call)
      | _ => rfl
    | _ => rfl

theorem afterPread_awake (c left : Nat) : some (afterPread pipe c left) ≠ some .queued := by
  unfold afterPread returnPart returnAll
  split_ifs
  all_goals simp

theorem afterPwrite_awake (c left : Nat) :
    some (afterPwrite c left) ≠ some .queued ∧ some (afterPwrite c left) ≠ some .locking := by
  unfold afterPwrite returnAll
  split_ifs
  all_goals simp

theorem ended_awake (ended : (s.calls pid).ended = true) :
    ¬ Asleep (reads (s.calls pid)) ∧ ¬ Asleep (writes (s.calls pid)) := by
  cases here : s.calls pid with
  | idle => simp [reads, writes, Asleep]
  | refused ret => simp [reads, writes, Asleep]
  | pread phase call =>
    rw [here] at ended
    cases phase with
    | returned ret => simp [reads, writes, Asleep]
    | _ => cases ended
  | pwrite phase call =>
    rw [here] at ended
    cases phase with
    | returned ret => simp [reads, writes, Asleep]
    | _ => cases ended

theorem startPread_phase (data : Option End) (count : Nat) :
    ¬ Asleep (reads (startPread data count)) ∧ writes (startPread data count) = none := by
  unfold startPread returnAll
  split
  · exact ⟨by simp [reads, Asleep], rfl⟩
  · refine ⟨?_, rfl⟩
    split_ifs
    all_goals simp [reads, Asleep]

theorem startPwrite_phase (data : Option End) (buf : List Byte) :
    ¬ Asleep (writes (startPwrite data buf)) ∧ writes (startPwrite data buf) ≠ some .locking ∧
      reads (startPwrite data buf) = none := by
  unfold startPwrite returnAll
  split
  · exact ⟨by simp [writes, Asleep], by simp [writes], rfl⟩
  · refine ⟨?_, ?_, rfl⟩
    all_goals
      split_ifs
      all_goals simp [writes, Asleep]

theorem condWait_ended (some : 1 ≤ sem.count) : condWait sem pid = ({ sem with count := sem.count - 1 }, true) := by
  simp [condWait, semWait, some]

structure Queue (sem : Sem) (view : Activity → Option Phase) (calls : Int → Activity) : Prop where
  ones : ∀ w ∈ sem.lst, w.needed = 1
  queued : ∀ pid, QueuedOn sem pid ↔ view (calls pid) = some .queued
  spent : sem.lst ≠ [] → sem.count = 0
  binary : sem.count ≤ 1

section
variable (queue : Queue sem view calls)
include queue

theorem Queue.update (before : view (calls pid) ≠ some .queued)
    (after : view activity ≠ some .queued) : Queue sem view (Function.update calls pid activity) := by
  refine ⟨queue.ones, fun p => ?_, queue.spent, queue.binary⟩
  rw [queue.queued]
  by_cases same : p = pid
  · subst same
    simp [before, after]
  · simp [same]

theorem Queue.empty (awake : ∀ pid, view (calls pid) ≠ some .queued) : sem.lst = [] := by
  by_contra some
  obtain ⟨w, here⟩ := exists_mem_of_ne_nil _ some
  exact awake w.pid ((queue.queued w.pid).mp ⟨w, here, rfl⟩)

theorem condWake_eq : condWake sem = (⟨1, []⟩, sem.lst.map Waiter.pid) := by
  have all : ∀ w ∈ sem.lst, Served 1 w = true := by
    intro w here
    simp [Served, queue.ones w here]
  have none : sem.lst.filter (!Served 1 ·) = [] := by
    rw [filter_eq_nil_iff]
    intro w here
    simp [all w here]
  rw [condWake, semSignal_eq, if_pos rfl, filter_eq_self.mpr all, none]
  rfl

theorem mem_woken : pid ∈ sem.lst.map Waiter.pid ↔ view (calls pid) = some .queued := by
  rw [← queue.queued, mem_map]
  rfl

end

theorem condWait_short (none : ¬ 1 ≤ sem.count) : condWait sem pid = (⟨sem.count, ⟨pid, 1⟩ :: sem.lst⟩, false) := by
  simp [condWait, semWait, none]

theorem Queue.wait (queue : Queue sem view calls) (here : view (calls pid) = some .waiting)
    (moves : view activity = some (if (condWait sem pid).2 then phase else .queued)) (awake : phase ≠ .queued) :
    Queue (condWait sem pid).1 view (Function.update calls pid activity) := by
  by_cases pending : 1 ≤ sem.count
  · rw [condWait_ended pending] at moves ⊢
    have fresh : Queue sem view (Function.update calls pid activity) :=
      queue.update (by simp [here]) (by simp [moves, awake])
    refine ⟨fresh.ones, fresh.queued, ?_, ?_⟩
    · intro waiting
      have zero := queue.spent waiting
      omega
    · have one := queue.binary
      dsimp only
      omega
  · rw [condWait_short pending] at moves ⊢
    refine ⟨?_, ?_, ?_, queue.binary⟩
    · intro w member
      rcases mem_cons.mp member with rfl | before
      · rfl
      · exact queue.ones w before
    · intro p
      by_cases same : p = pid
      · subst same
        simp [QueuedOn, moves]
      · have other := queue.queued p
        simp [QueuedOn, same, Ne.symm same, ← other]
    · intro _
      dsimp only
      omega

theorem wakeAll_unqueued (queue : Queue sem view calls) (awake : view (calls pid) ≠ some .queued) :
    wakeAll calls (condWake sem).2 pid = calls pid := by
  rw [condWake_eq queue]
  apply if_neg
  rwa [mem_woken queue]

theorem writes_of_reads {phase : Phase} (reading : reads activity = some phase) : writes activity = none := by
  cases activity with
  | pread phase call => rfl
  | _ => cases reading

theorem reads_of_writes {phase : Phase} (writing : writes activity = some phase) : reads activity = none := by
  cases activity with
  | pwrite phase call => rfl
  | _ => cases writing

section
variable (queue : Queue sem view calls)
include queue

theorem Queue.wakes (woken : ∀ activity, view activity.wake = wakePhase (view activity))
    (pid : Int) : view (wakeAll calls (condWake sem).2 pid) = wakePhase (view (calls pid)) := by
  by_cases queued : view (calls pid) = some .queued
  · rw [condWake_eq queue, wakeAll, if_pos ((mem_woken queue).mpr queued), woken]
  · rw [wakeAll_unqueued queue queued, wakePhase_of_awake queued]

theorem Queue.wake
    (woken : ∀ activity, view activity.wake = wakePhase (view activity)) :
    Queue (condWake sem).1 view (wakeAll calls (condWake sem).2) := by
  refine ⟨?_, fun pid => ?_, ?_, ?_⟩
  · rw [condWake_eq queue]
    nofun
  · rw [queue.wakes woken, condWake_eq queue]
    simp [QueuedOn, wakePhase_awake]
  · rw [condWake_eq queue]
    exact fun some => absurd rfl some
  · rw [condWake_eq queue]

theorem Queue.spares
    (woken : ∀ activity, view' activity.wake = wakePhase (view' activity))
    (apart : ∀ activity, view activity = some .queued → view' activity = none) (pid : Int) :
    view' (wakeAll calls (condWake sem).2 pid) = view' (calls pid) := by
  by_cases queued : view (calls pid) = some .queued
  · have none := apart _ queued
    rw [condWake_eq queue, wakeAll, if_pos ((mem_woken queue).mpr queued), woken, none]
    rfl
  · rw [wakeAll_unqueued queue queued]

theorem Queue.stalled (queued : QueuedOn sem pid) : view (calls pid) = some .queued ∧ sem.count = 0 := by
  refine ⟨(queue.queued pid).mp queued, queue.spent ?_⟩
  obtain ⟨_, here, -⟩ := queued
  exact ne_nil_of_mem here

theorem Queue.other {sem' : Sem}
    (queue' : Queue sem' view' calls) (woken : ∀ activity, view activity.wake = wakePhase (view activity))
    (apart : ∀ activity, view' activity = some .queued → view activity = none) :
    Queue sem view (wakeAll calls (condWake sem').2) := by
  refine ⟨queue.ones, fun pid => ?_, queue.spent, queue.binary⟩
  rw [queue.queued, queue'.spares woken apart]

end

structure Queues (s : Session) : Prop where
  readers : Queue s.pipe.rcond reads s.calls
  writers : Queue s.pipe.wcond writes s.calls

def Awake (activity : Activity) : Prop := reads activity ≠ some .queued ∧ writes activity ≠ some .queued

theorem Queues.update {t : Session} (queues : Queues s) (rcond : t.pipe.rcond = s.pipe.rcond)
    (wcond : t.pipe.wcond = s.pipe.wcond) (calls : t.calls = Function.update s.calls pid activity)
    (before : Awake (s.calls pid)) (after : Awake activity) : Queues t := by
  constructor
  · rw [rcond, calls]
    exact queues.readers.update before.1 after.1
  · rw [wcond, calls]
    exact queues.writers.update before.2 after.2

theorem awake_of_asleep (unread : ¬ Asleep (reads activity)) (unwritten : ¬ Asleep (writes activity)) :
    Awake activity :=
  ⟨fun queued => unread (.inr queued), fun queued => unwritten (.inr queued)⟩

theorem Queues.wakeNext (queues : Queues s) (side : End) (rest : List End) : Queues (wakeNext s pid side rest) := by
  cases side with
  | read =>
    constructor
    · exact queues.readers.wake reads_wake
    · exact queues.writers.other queues.readers writes_wake fun _ => writes_of_reads
  | write =>
    constructor
    · exact queues.readers.other queues.writers reads_wake fun _ => reads_of_writes
    · exact queues.writers.wake writes_wake

theorem outside_ended (outside : s.outside pid = true) : (s.calls pid).ended = true := by
  unfold Session.outside at outside
  simp only [Bool.and_eq_true] at outside
  exact outside.1

theorem ended_idle (ended : (s.calls pid).ended = true) : Awake (s.calls pid) := by
  obtain ⟨unread, unwritten⟩ := ended_awake ended
  exact awake_of_asleep unread unwritten

theorem pread_awake {call : Reading} (phase : Phase) (awake : phase ≠ .queued) : Awake (.pread phase call) :=
  ⟨by simpa [reads] using awake, by simp [writes]⟩

theorem pwrite_awake {call : Writing} (phase : Phase) (awake : phase ≠ .queued) : Awake (.pwrite phase call) :=
  ⟨by simp [reads], by simpa [writes] using awake⟩

theorem afterPread_unqueued (pipe : Pipe) (c left : Nat) : afterPread pipe c left ≠ .queued := by
  intro queued
  exact afterPread_awake c left (congrArg some queued)

theorem afterPwrite_unqueued (c left : Nat) : afterPwrite c left ≠ .queued := by
  intro queued
  exact (afterPwrite_awake c left).1 (congrArg some queued)

theorem queues_move (queues : Queues s) (fifo : Fifo s) (move : Move s action s') : Queues s' := by
  cases move with
  | pread outside bound =>
    obtain ⟨unread, unwriting⟩ := startPread_phase _ _
    exact queues.update rfl rfl rfl (ended_idle (outside_ended outside))
      (awake_of_asleep unread (by simp [unwriting, Asleep]))
  | pwrite outside bound =>
    obtain ⟨unwritten, -, unreading⟩ := startPwrite_phase _ _
    exact queues.update rfl rfl rfl (ended_idle (outside_ended outside))
      (awake_of_asleep (by simp [unreading, Asleep]) unwritten)
  | @pclose pid side outside free =>
    cases side with
    | read => exact ⟨queues.readers, queues.writers⟩
    | write => exact ⟨queues.readers, queues.writers⟩
  | wake held => exact queues.wakeNext _ _
  | @preadSection pid call here free =>
    obtain ⟨rcond, wcond, -⟩ := (preadLoop_taken fifo.range call.count).kept
    apply queues.update rcond wcond rfl
    · rw [here]
      exact pread_awake _ (by simp)
    · exact pread_awake _ (afterPread_unqueued _ _ _)
  | @preadWait pid call here free =>
    constructor
    · exact queues.readers.wait (by rw [here]; rfl) rfl (by simp)
    · exact queues.writers.update (by simp [here, writes]) (by simp [writes])
  | @checkOread pid call here free =>
    refine queues.update (t := checkOread s pid call) rfl rfl rfl ?_ ?_
    · rw [here]
      exact pwrite_awake _ (by simp)
    · apply pwrite_awake
      split_ifs
      · simp
      · simp [returnPart]
  | @pwriteSection pid call here free =>
    obtain ⟨_, put⟩ := pwriteLoop_put fifo.range call.buf
    obtain ⟨rcond, wcond, -⟩ := put.kept
    apply queues.update rcond wcond rfl
    · rw [here]
      exact pwrite_awake _ (by simp)
    · exact pwrite_awake _ (afterPwrite_unqueued _ _)
  | @pwriteWait pid call here free =>
    constructor
    · exact queues.readers.update (by simp [here, reads]) (by simp [reads])
    · exact queues.writers.wait (by rw [here]; rfl) rfl (by simp)

theorem reachable_queues (reachable : session.Reachable s) : Queues s := by
  induction reachable with
  | initial start =>
    subst start
    constructor
    · exact ⟨nofun, fun pid => by simp [QueuedOn, opened, newPipe, reads], fun some => absurd rfl some, by decide⟩
    · exact ⟨nofun, fun pid => by simp [QueuedOn, opened, newPipe, writes], fun some => absurd rfl some, by decide⟩
  | next before step ih => exact queues_move ih (reachable_fifo before) (move_of_next step)

end Petix.Proof.Pipe
