import Petix.Proof.Pipe.Transfer
import Petix.Proof.Pipe.Wakeups

namespace Petix.Proof.Pipe
open Function List Library Kernel.Sync Kernel.Pipes Kernel.PipeCalls Spec.Pipes
open Proof.Sync

variable {s s' : Session} {action : Action} {pid p closer : Int} {calls : Int → Activity}
variable {activity : Activity} {phase : Phase}
variable {t : Session}

structure Closed (s : Session) : Prop where
  reachable : session.Reachable s
  closed : s.pipe.owrite = false
  silent : NoWriter s

theorem Closed.no_writers (closed : Closed s) : s.pipe.wcond.lst = [] := by
  apply (reachable_queues closed.reachable).writers.empty
  intro pid queued
  cases here : s.calls pid with
  | pwrite phase call =>
    have ended := closed.silent pid phase call here
    obtain ⟨-, unwritten⟩ := ended_awake ended
    exact unwritten (.inr queued)
  | _ => simp [here, writes] at queued

inductive Drain (s : Session) : Session → Prop
  | pread {pid data count} : s.outside pid →
      Drain s { s with calls := update s.calls pid (startPread data count) }
  | wakeRead {pid rest} : s.held = some (pid, .read :: rest) → Drain s (wakeNext s pid .read rest)
  | wakeWrite {pid rest} : s.held = some (pid, .write :: rest) →
      Drain s { s with pipe := { s.pipe with wcond := ⟨1, []⟩ }, held := hold pid rest }
  | eof {pid call lo ret call' removed} : s.calls pid = .pread .locking call → s.held = none → Drain s { s with
        pipe := { s.pipe with lo := lo }
        held := hold pid (preadWakes { s.pipe with lo := lo })
        calls := update s.calls pid (.pread (.returned ret) call')
        removed := removed }
  | take {pid call} : s.calls pid = .pread .waiting call → s.pipe.rcond.count = 1 → Drain s { s with
        pipe := { s.pipe with rcond := ⟨0, s.pipe.rcond.lst⟩ }
        calls := update s.calls pid (.pread .locking call) }
  | sleep {pid call} : s.calls pid = .pread .waiting call → s.pipe.rcond.count = 0 → Drain s { s with
        pipe := { s.pipe with rcond := ⟨0, ⟨pid, 1⟩ :: s.pipe.rcond.lst⟩ }
        calls := update s.calls pid (.pread .queued call) }

theorem afterPread_closed {pipe : Pipe} {c left : Nat} (closed : pipe.owrite = false)
    (stopped : left = 0 ∨ IsEmpty pipe) : ∃ ret, afterPread pipe c left = .returned ret := by
  unfold afterPread
  split_ifs with ended positive
  · exact ⟨_, rfl⟩
  · rcases stopped with _ | empty
    · omega
    · exact absurd ⟨by simp [closed], empty⟩ ended
  · exact ⟨_, rfl⟩

theorem Closed.not_writing {call : Writing} (closed : Closed s) (here : s.calls pid = .pwrite phase call)
    (busy : ∀ ret, phase ≠ .returned ret) : False := by
  have ended := closed.silent pid phase call here
  rw [here] at ended
  cases phase with
  | returned ret => exact busy ret rfl
  | _ => cases ended

theorem drain_of_move (closed : Closed s) (only : ReadersOnly s action) (move : Move s action s') : Drain s s' := by
  have queues := reachable_queues closed.reachable
  cases move with
  | pread outside bound => exact .pread outside
  | pwrite outside bound => cases only
  | pclose outside free => cases only
  | @wake pid side rest held =>
    cases side with
    | read => exact .wakeRead held
    | write =>
      rw [wakeNext, wakeCond, condWake_quiet closed.no_writers]
      exact .wakeWrite held
  | @preadSection pid call here free =>
    have taken := preadLoop_taken (reachable_fifo closed.reachable).range call.count
    have shut : (preadLoop s.pipe call.count).1.owrite = false := taken.kept.2.2.1.trans closed.closed
    obtain ⟨_, last⟩ := afterPread_closed (c := call.c) shut taken.stopped
    unfold preadSection
    simp only [last]
    rw [taken.frame]
    exact .eof here free
  | @preadWait pid call here free =>
    unfold preadWait
    by_cases pending : 1 ≤ s.pipe.rcond.count
    · have one : s.pipe.rcond.count = 1 := le_antisymm queues.readers.binary pending
      rw [condWait_ended pending, one]
      exact .take here one
    · have zero : s.pipe.rcond.count = 0 := by omega
      rw [condWait_short pending, zero]
      exact .sleep here zero
  | checkOread here free => exact (closed.not_writing here (by simp)).elim
  | pwriteSection here free => exact (closed.not_writing here (by simp)).elim
  | pwriteWait here free => exact (closed.not_writing here (by simp)).elim

theorem silent_update (silent : NoWriter s) (reading : writes activity = none)
    (calls : t.calls = update s.calls pid activity) : NoWriter t := by
  intro p phase call here
  rw [calls] at here ⊢
  by_cases same : p = pid
  · subst same
    rw [update_self] at here
    rw [here] at reading
    cases reading
  · rw [update_of_ne same] at here ⊢
    exact silent p phase call here

theorem silent_wake (silent : NoWriter s) (pids : List Int) (calls : t.calls = wakeAll s.calls pids) :
    NoWriter t := by
  intro p phase call here
  rw [calls] at here ⊢
  unfold wakeAll at here ⊢
  split_ifs at here ⊢
  · cases was : s.calls p with
    | pwrite before call' =>
      have ended := silent p before call' was
      rw [was] at here ended
      cases before with
      | returned ret => rfl
      | _ => cases ended
    | pread before call' =>
      rw [was] at here
      cases before <;> cases here
    | idle =>
      rw [was] at here
      cases here
    | refused ret =>
      rw [was] at here
      cases here
  · exact silent p phase call here

theorem startPread_silent (data : Option End) (count : Nat) : writes (startPread data count) = none :=
  (startPread_phase data count).2

theorem Closed.step (closed : Closed s) (step : (session.restrict ReadersOnly).step s action s') :
    Drain s s' ∧ Closed s' := by
  have drain := drain_of_move closed step.1 (move_of_next step.2)
  have reachable := closed.reachable.next step.2
  refine ⟨drain, reachable, ?_, ?_⟩
  · cases drain with
    | _ => exact closed.closed
  · cases drain with
    | pread => exact silent_update closed.silent (startPread_silent _ _) rfl
    | wakeRead => exact silent_wake closed.silent _ rfl
    | wakeWrite => exact closed.silent
    | eof => exact silent_update closed.silent rfl rfl
    | take => exact silent_update closed.silent rfl rfl
    | sleep => exact silent_update closed.silent rfl rfl

theorem hungry_iff : Hungry s p ↔ Asleep (reads (s.calls p)) := by
  unfold Hungry Asleep
  cases s.calls p with
  | pread phase call =>
    simp only [reads, Activity.pread.injEq, Option.some.injEq]
    constructor
    · rintro ⟨_, ⟨waiting, -⟩ | ⟨queued, -⟩⟩
      · exact .inl waiting
      · exact .inr queued
    · rintro (waiting | queued)
      · exact ⟨call, .inl ⟨waiting, rfl⟩⟩
      · exact ⟨call, .inr ⟨queued, rfl⟩⟩
  | _ => simp [reads]

/-- Of the processes that were hungry at the close, all are still hungry and the wakeup is pending, or one of them
has taken it. -/
structure Draining (hungry : Int → Prop) (s : Session) : Prop where
  closed : Closed s
  holder : ∀ pid wakes, s.held = some (pid, wakes) → .read ∉ wakes
  left : s.pipe.rcond.count = 1 ∧ (∀ p, Hungry s p ↔ hungry p) ∨
    s.pipe.rcond.count = 0 ∧ ∃ first, hungry first ∧ ∀ p, Hungry s p ↔ hungry p ∧ p ≠ first

theorem hungry_update (calls : t.calls = update s.calls pid activity)
    (same : Asleep (reads activity) ↔ Asleep (reads (s.calls pid))) : Hungry t p ↔ Hungry s p := by
  rw [hungry_iff, hungry_iff, calls]
  by_cases here : p = pid
  · subst here
    rw [update_self]
    exact same
  · rw [update_of_ne here]

theorem hungry_fed (calls : t.calls = update s.calls pid activity)
    (fed : ¬ Asleep (reads activity)) : Hungry t p ↔ Hungry s p ∧ p ≠ pid := by
  rw [hungry_iff, hungry_iff, calls]
  by_cases here : p = pid
  · subst here
    simp [fed]
  · simp [here]

theorem not_asleep_locking : ¬ Asleep (some .locking) := by simp [Asleep]

theorem not_asleep_returned (ret : Int) : ¬ Asleep (some (.returned ret)) := by simp [Asleep]

section
variable {hungry : Int → Prop}

theorem Draining.same (draining : Draining hungry s) (closed : Closed t)
    (holder : ∀ pid wakes, t.held = some (pid, wakes) → .read ∉ wakes)
    (count : t.pipe.rcond.count = s.pipe.rcond.count) (kept : ∀ p, Hungry t p ↔ Hungry s p) : Draining hungry t := by
  refine ⟨closed, holder, ?_⟩
  simp only [count, kept]
  exact draining.left

theorem hold_unread {wakes : List End} (unread : .read ∉ wakes) (pid' : Int) (wakes' : List End)
    (held : hold pid wakes = some (pid', wakes')) : .read ∉ wakes' := by
  unfold hold at held
  split_ifs at held
  cases held
  exact unread

theorem preadWakes_unread (pipe : Pipe) : .read ∉ preadWakes pipe := by
  unfold preadWakes
  split_ifs
  · simp
  · simp

theorem Draining.step (draining : Draining hungry s) (step : (session.restrict ReadersOnly).step s action s') :
    Draining hungry s' := by
  obtain ⟨drain, closed⟩ := draining.closed.step step
  cases drain with
  | pread outside =>
    obtain ⟨unread, -⟩ := startPread_phase _ _
    obtain ⟨before, -⟩ := ended_awake (outside_ended outside)
    exact draining.same closed draining.holder rfl fun p => hungry_update rfl (iff_of_false unread before)
  | wakeRead held => exact absurd (.head _) (draining.holder _ _ held)
  | wakeWrite held =>
    have unread := draining.holder _ _ held
    exact draining.same closed (hold_unread fun later => unread (.tail _ later)) rfl fun p => .rfl
  | eof here free =>
    apply draining.same closed (hold_unread (preadWakes_unread _)) rfl
    intro p
    apply hungry_update rfl
    rw [here]
    exact iff_of_false (not_asleep_returned _) not_asleep_locking
  | @take pid call here one =>
    refine ⟨closed, draining.holder, .inr ⟨rfl, pid, ?_, ?_⟩⟩
    · rcases draining.left with ⟨-, all⟩ | ⟨zero, -⟩
      · exact (all pid).mp ⟨call, .inl here⟩
      · omega
    · intro p
      rcases draining.left with ⟨-, all⟩ | ⟨zero, -⟩
      · rw [← all p]
        exact hungry_fed rfl not_asleep_locking
      · omega
  | @sleep pid call here zero =>
    apply draining.same closed draining.holder zero.symm
    intro _
    apply hungry_update rfl
    rw [here]
    exact iff_of_true (.inr rfl) (.inl rfl)

theorem Draining.run (draining : Draining hungry s) (run : (session.restrict ReadersOnly).LeadsTo s s') :
    Draining hungry s' := by
  induction run with
  | refl => exact draining
  | tail _ last ih =>
    obtain ⟨_, step⟩ := last
    exact ih.step step

theorem queued_iff_hungry (settled : Settled s) (queues : Queues s) : QueuedOn s.pipe.rcond p ↔ Hungry s p := by
  rw [queues.readers.queued, hungry_iff]
  constructor
  · exact .inr
  · rintro (waiting | queued)
    · rcases settled.2 p with ended | ⟨call, here⟩ | ⟨_, here⟩
      · exact absurd (.inl waiting) (ended_awake ended).1
      · simp [here, reads] at waiting
      · simp [here, reads] at waiting
    · exact queued

theorem Draining.settled (draining : Draining hungry s) (settled : Settled s) :
    (∀ p, ¬ QueuedOn s.pipe.rcond p) ↔ ∀ p q, hungry p → hungry q → p = q := by
  have queues := reachable_queues draining.closed.reachable
  simp only [queued_iff_hungry settled queues]
  rcases draining.left with ⟨_, all⟩ | ⟨-, first, fed, rest⟩
  · have none : ∀ p, ¬ Hungry s p := by
      intro p starving
      obtain ⟨_, here, -⟩ := (queued_iff_hungry settled queues).mpr starving
      have zero := queues.readers.spent (ne_nil_of_mem here)
      omega
    refine iff_of_true none fun p q here => absurd ((all p).mpr here) (none p)
  · constructor
    · intro none p _ here there
      have only {p : Int} (here : hungry p) : p = first := by
        by_contra other
        exact none p ((rest p).mpr ⟨here, other⟩)
      exact (only here).trans (only there).symm
    · intro single p starving
      obtain ⟨here, other⟩ := (rest p).mp starving
      exact other (single p first here fed)

end

theorem closed_of_run (closed : Closed s) (run : (session.restrict ReadersOnly).LeadsTo s s') : Closed s' := by
  induction run with
  | refl => exact closed
  | tail _ last ih =>
    obtain ⟨_, step⟩ := last
    exact (ih.step step).2

theorem closed_of_lastWriteClose (close : LastWriteClose closer s) : Closed s := by
  obtain ⟨_, _, reachable, silent, step, run, -⟩ := close
  apply closed_of_run _ run
  cases move_of_next step with
  | pclose outside free => exact ⟨reachable.next step, rfl, silent⟩

theorem hungry_wakeAll {pids : List Int} (calls : t.calls = wakeAll s.calls pids) :
    Hungry t p ↔ Hungry s p := by
  rw [hungry_iff, hungry_iff, calls, wakeAll]
  split_ifs
  · rw [reads_wake]
    exact asleep_wakePhase_iff
  · rfl

theorem draining_of_wake (close : LastWriteClose closer s) (wake : session.step s .wake s') :
    Draining (Hungry s) s' := by
  have closed := closed_of_lastWriteClose close
  have queues := reachable_queues closed.reachable
  obtain ⟨-, -, -, -, -, -, last⟩ := close
  have step : (session.restrict ReadersOnly).step s .wake s' := ⟨trivial, wake⟩
  have closed' := (closed.step step).2
  cases move_of_next wake with
  | wake held =>
    rw [last] at held
    cases held
    refine ⟨closed', nofun, .inl ⟨?_, fun p => hungry_wakeAll rfl⟩⟩
    exact congrArg (fun result => result.1.count) (condWake_eq queues.readers)

theorem eof_reaches_readers_iff {woken settled : Session} (close : LastWriteClose closer s)
    (wake : session.step s .wake woken) (run : (session.restrict ReadersOnly).LeadsTo woken settled)
    (rest : Settled settled) : (∀ p, ¬ QueuedOn settled.pipe.rcond p) ↔ ∀ p q, Hungry s p → Hungry s q → p = q :=
  ((draining_of_wake close wake).run run).settled rest

def Involves (p : Int) : Action → Prop
  | .pread pid _ _ | .pwrite pid _ _ | .run pid => pid = p
  | .pclose _ _ | .wake => False

theorem idle_move (idle : s.calls p = .idle) (other : ¬ Involves p action) (move : Move s action s') :
    s'.calls p = .idle := by
  have update {pid : Int} {activity : Activity} (away : pid ≠ p) : update s.calls pid activity p = .idle := by
    rwa [update_of_ne (Ne.symm away)]
  cases move with
  | pclose => exact idle
  | @wake pid side rest held =>
    change wakeAll s.calls _ p = .idle
    rw [wakeAll, idle]
    split_ifs
    · rfl
    · rfl
  | _ => exact update other

theorem idle_run {labels : List Action} (idle : s.calls p = .idle) (others : ∀ action ∈ labels, ¬ Involves p action)
    (run : labels.foldlM next s = some s') : s'.calls p = .idle := by
  induction labels generalizing s with
  | nil =>
    cases run
    exact idle
  | cons action labels ih =>
    obtain ⟨_, first, rest⟩ := Option.bind_eq_some_iff.mp run
    exact ih (idle_move idle (others action (.head _)) (move_of_next first))
      (fun action later => others action (.tail _ later)) rest

def closeAfter (before later : List Action) : Option (Session × Session × Session × Session) := do
  let s₀ ← before.foldlM next opened
  let s₁ ← next s₀ (.pclose 0 .write)
  let s₂ ← next s₁ .wake
  let s₃ ← next s₂ .wake
  let s₄ ← later.foldlM next s₃
  return (s₀, s₂, s₃, s₄)

section
variable {before later : List Action} {s₀ s₂ s₃ s₄ : Session} (run : closeAfter before later = some (s₀, s₂, s₃, s₄))
include run

theorem closeAfter_run (silent : NoWriter s₀) (held : s₂.held = some (0, [.read]))
    (only : ∀ action ∈ later, ∀ s, ReadersOnly s action) :
    LastWriteClose 0 s₂ ∧ session.step s₂ .wake s₃ ∧ (session.restrict ReadersOnly).LeadsTo s₃ s₄ := by
  obtain ⟨_, start, run⟩ := Option.bind_eq_some_iff.mp run
  obtain ⟨s₁, close, run⟩ := Option.bind_eq_some_iff.mp run
  obtain ⟨_, first, run⟩ := Option.bind_eq_some_iff.mp run
  obtain ⟨_, last, run⟩ := Option.bind_eq_some_iff.mp run
  obtain ⟨_, rest, equal⟩ := Option.bind_eq_some_iff.mp run
  cases equal
  have reachable : session.Reachable s₀ := System.Reachable.run (fun _ _ _ step => step) (.initial rfl) start
  have step : (session.restrict ReadersOnly).step s₁ .wake s₂ := ⟨trivial, first⟩
  exact ⟨⟨s₀, s₁, reachable, silent, close, .single ⟨_, step⟩, held⟩, last,
    System.leadsTo_run_restrict (fun _ _ _ step => step) only rest⟩

theorem closeAfter_idle (others : ∀ action ∈ before ++ later, ¬ Involves p action) :
    s₀.calls p = .idle ∧ s₂.calls p = .idle ∧ s₄.calls p = .idle := by
  obtain ⟨_, start, run⟩ := Option.bind_eq_some_iff.mp run
  obtain ⟨_, close, run⟩ := Option.bind_eq_some_iff.mp run
  obtain ⟨_, first, run⟩ := Option.bind_eq_some_iff.mp run
  obtain ⟨_, last, run⟩ := Option.bind_eq_some_iff.mp run
  obtain ⟨_, rest, equal⟩ := Option.bind_eq_some_iff.mp run
  cases equal
  have early : s₀.calls p = .idle := idle_run rfl (fun action here => others action (mem_append_left _ here)) start
  have middle := idle_move (idle_move early id (move_of_next close)) id (move_of_next first)
  have late := idle_run (idle_move middle id (move_of_next last))
    (fun action here => others action (mem_append_right _ here)) rest
  exact ⟨early, middle, late⟩

end

set_option synthInstance.maxSize 400 in
theorem eof_reaches_readers_iff_alone : ∃ s woken settled, LastWriteClose 0 s ∧ session.step s .wake woken ∧
    (session.restrict ReadersOnly).LeadsTo woken settled ∧ Settled settled ∧ Hungry s 1 ∧
    ∀ p, ¬ QueuedOn settled.pipe.rcond p := by
  have run : (closeAfter [.pread 1 (some .read) 1, .run 1, .wake, .run 1] [.run 1, .run 1, .wake]).map
      (fun (s₀, s₂, _, s₄) => ([s₀.calls 1, s₂.calls 1, s₄.calls 1], [s₂.held, s₄.held])) =
      some ([.pread .queued ⟨1, 1, []⟩, .pread .queued ⟨1, 1, []⟩, .pread (.returned 0) ⟨1, 1, []⟩],
        [some (0, [.read]), none]) := by
    decide +kernel
  obtain ⟨⟨s₀, s₂, s₃, s₄⟩, run, equal⟩ := Option.map_eq_some_iff.mp run
  simp only [Prod.mk.injEq, cons.injEq, and_true] at equal
  obtain ⟨⟨early, middle, late⟩, held, free⟩ := equal
  have idle {p : Int} (out : p ≠ 1) : s₀.calls p = .idle ∧ s₂.calls p = .idle ∧ s₄.calls p = .idle :=
    closeAfter_idle run (by simp [Involves, Ne.symm out])
  have silent : NoWriter s₀ := by
    intro p _ _ writing
    by_cases out : p = 1
    · simp [out, early] at writing
    · simp [(idle out).1] at writing
  have alone {p : Int} (hungry : Hungry s₂ p) : p = 1 := by
    by_contra out
    simp [Hungry, (idle out).2.1] at hungry
  have settled : Settled s₄ := by
    refine ⟨free, fun p => .inl ?_⟩
    by_cases out : p = 1
    · rw [out, late]
      rfl
    · rw [(idle out).2.2]
      rfl
  obtain ⟨close, wake, rest⟩ := closeAfter_run run silent held (by simp [ReadersOnly])
  refine ⟨s₂, s₃, s₄, close, wake, rest, settled, ⟨_, .inr middle⟩, ?_⟩
  exact (eof_reaches_readers_iff close wake rest settled).mpr fun p q here there =>
    (alone here).trans (alone there).symm

set_option synthInstance.maxSize 400 in
theorem reader_misses_eof : ∃ s woken settled, LastWriteClose 0 s ∧ session.step s .wake woken ∧
    (session.restrict ReadersOnly).LeadsTo woken settled ∧ Settled settled ∧ QueuedOn settled.pipe.rcond 2 := by
  have run : (closeAfter [.pread 1 (some .read) 1, .run 1, .wake, .run 1, .pread 2 (some .read) 1, .run 2, .wake,
      .run 2] [.run 1, .run 1, .wake, .run 2]).map
      (fun (s₀, s₂, _, s₄) => ([s₀.calls 1, s₀.calls 2, s₄.calls 1, s₄.calls 2], [s₂.held, s₄.held], s₄.pipe.rcond)) =
      some ([.pread .queued ⟨1, 1, []⟩, .pread .queued ⟨1, 1, []⟩, .pread (.returned 0) ⟨1, 1, []⟩,
        .pread .queued ⟨1, 1, []⟩], [some (0, [.read]), none], ⟨0, [⟨2, 1⟩]⟩) := by
    decide +kernel
  obtain ⟨⟨s₀, s₂, s₃, s₄⟩, run, equal⟩ := Option.map_eq_some_iff.mp run
  simp only [Prod.mk.injEq, cons.injEq, and_true] at equal
  obtain ⟨⟨one, two, one', two'⟩, ⟨held, free⟩, queue⟩ := equal
  have idle {p : Int} (out : p ≠ 1 ∧ p ≠ 2) : s₀.calls p = .idle ∧ s₂.calls p = .idle ∧ s₄.calls p = .idle :=
    closeAfter_idle run (by simp [Involves, Ne.symm out.1, Ne.symm out.2])
  have reader (p : Int) : p = 1 ∨ p = 2 ∨ p ≠ 1 ∧ p ≠ 2 := by omega
  have silent : NoWriter s₀ := by
    intro p phase call writing
    rcases reader p with rfl | rfl | out
    · simp [one] at writing
    · simp [two] at writing
    · simp [(idle out).1] at writing
  have settled : Settled s₄ := by
    refine ⟨free, fun p => ?_⟩
    rcases reader p with rfl | rfl | out
    · rw [one']
      exact .inl rfl
    · exact .inr (.inl ⟨_, two'⟩)
    · rw [(idle out).2.2]
      exact .inl rfl
  obtain ⟨close, wake, rest⟩ := closeAfter_run run silent held (by simp [ReadersOnly])
  exact ⟨s₂, s₃, s₄, close, wake, rest, settled, ⟨2, 1⟩, by simp [queue], rfl⟩

end Petix.Proof.Pipe
