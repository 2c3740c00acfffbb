import Petix.Proof.Pipe.Waiting

namespace Petix.Proof.Pipe
open Function List Library Kernel.Sync Kernel.Pipes Kernel.PipeCalls Spec.Pipes

variable {pipe : Pipe} {s s' : Session} {action : Action} {reader writer pid : Int}
variable {phase rphase wphase : Option Phase} {held : Option (Int × List End)}
variable {side : End} {c left : Nat} {pipe' : Pipe} {calls : Int → Activity} {activity : Activity}

def Promised (held : Option (Int × List End)) (side : End) (owner : Int → Prop) : Prop :=
  ∃ pid wakes, held = some (pid, wakes) ∧ side ∈ wakes ∧ owner pid

structure Synced (reader writer : Int) (rphase wphase : Option Phase) (pipe : Pipe)
    (held : Option (Int × List End)) : Prop where
  rheld : ∀ wakes, held = some (reader, wakes) → rphase ≠ some .queued
  wheld : ∀ wakes, held = some (writer, wakes) → wphase ≠ some .queued
  reading : Asleep rphase → 1 ≤ pipe.rcond.count ∨ IsEmpty pipe ∧ pipe.owrite = true ∨
    Promised held .read fun pid => IsEmpty pipe ∨ pid = writer
  writing : Asleep wphase → 1 ≤ pipe.wcond.count ∨ IsFull pipe ∧ pipe.oread = true ∨
    Promised held .write fun pid => IsFull pipe ∨ pid = reader
  checked : wphase = some .locking ∨ Asleep wphase → pipe.oread = true ∨ 1 ≤ pipe.wcond.count ∨
    Promised held .write fun _ => True

theorem hold_owner {owner : Int} {wakes wakes' : List End} (same : hold pid wakes = some (owner, wakes')) :
    owner = pid := by
  unfold hold at same
  split_ifs at same
  cases same
  rfl

theorem Promised.wake {side other : End} {rest : List End} {owner : Int → Prop} (different : other ≠ side)
    (promised : Promised (some (pid, side :: rest)) other owner) : Promised (hold pid rest) other owner := by
  obtain ⟨_, _, same, here, owns⟩ := promised
  cases same
  have later : other ∈ rest := (mem_cons.mp here).resolve_left different
  exact ⟨pid, rest, if_neg (ne_nil_of_mem later), later, owns⟩

theorem not_promised {owner : Int → Prop} : ¬ Promised none side owner := by
  rintro ⟨_, _, here, -⟩
  cases here

theorem afterPread_asleep (asleep : Asleep (some (afterPread pipe c left))) :
    left > 0 ∧ (IsEmpty pipe → pipe.owrite = true) := by
  unfold afterPread at asleep
  split_ifs at asleep with closed positive
  · simp [Asleep, returnPart] at asleep
  · refine ⟨positive, fun empty => ?_⟩
    simpa [show pipe.hi = pipe.lo from empty] using closed
  · simp [Asleep, returnAll] at asleep

theorem afterPwrite_asleep (asleep : Asleep (some (afterPwrite c left))) : left > 0 := by
  unfold afterPwrite at asleep
  split_ifs at asleep with positive
  · exact positive
  · simp [Asleep, returnAll] at asleep

variable (synced : Synced reader writer rphase wphase pipe held)
include synced

theorem Synced.read_phase (awake : ¬ Asleep phase) : Synced reader writer phase wphase pipe held :=
  { synced with
    rheld := fun _ _ queued => awake (.inr queued)
    reading := fun asleep => absurd asleep awake }

theorem Synced.write_phase (awake : ¬ Asleep phase) (checked : phase = some .locking → pipe.oread = true) :
    Synced reader writer rphase phase pipe held :=
  { synced with
    wheld := fun _ _ queued => awake (.inr queued)
    writing := fun asleep => absurd asleep awake
    checked := fun active => .inl (checked (active.resolve_right awake)) }

theorem Synced.pclose (free : held = none) (side : End) (outside : pid = reader → rphase ≠ some .queued)
    (outside' : pid = writer → wphase ≠ some .queued) :
    Synced reader writer rphase wphase (closeEnd pipe side) (hold pid [.write, .read]) := by
  subst free
  have promised (waits : End) {owner : Int → Prop} (owns : owner pid) :
      Promised (hold pid [.write, .read]) waits owner := by
    refine ⟨pid, [.write, .read], rfl, ?_, owns⟩
    cases waits <;> simp
  have rheld (wakes : List End) (same : hold pid [.write, .read] = some (reader, wakes)) : rphase ≠ some .queued := by
    cases same
    exact outside rfl
  have wheld (wakes : List End) (same : hold pid [.write, .read] = some (writer, wakes)) : wphase ≠ some .queued := by
    cases same
    exact outside' rfl
  have reading (asleep : Asleep rphase) : 1 ≤ pipe.rcond.count ∨ IsEmpty pipe := by
    rcases synced.reading asleep with signal | ⟨empty, -⟩ | ⟨_, _, here, -⟩
    · exact .inl signal
    · exact .inr empty
    · cases here
  have writing (asleep : Asleep wphase) : 1 ≤ pipe.wcond.count ∨ IsFull pipe := by
    rcases synced.writing asleep with signal | ⟨full, -⟩ | ⟨_, _, here, -⟩
    · exact .inl signal
    · exact .inr full
    · cases here
  cases side with
  | read => exact ⟨rheld, wheld,
      fun asleep => (reading asleep).imp_right fun empty => .inr (promised .read (.inl empty)),
      fun asleep => (writing asleep).imp_right fun full => .inr (promised .write (.inl full)),
      fun _ => .inr (.inr (promised .write trivial))⟩
  | write => exact ⟨rheld, wheld,
      fun asleep => (reading asleep).imp_right fun empty => .inr (promised .read (.inl empty)),
      fun asleep => (writing asleep).imp_right fun full => .inr (promised .write (.inl full)),
      fun _ => .inr (.inr (promised .write trivial))⟩

theorem Synced.wake_read {rest : List End} (locked : held = some (pid, .read :: rest)) :
    Synced reader writer (wakePhase rphase) wphase { pipe with rcond := ⟨1, []⟩ } (hold pid rest) := by
  subst locked
  constructor
  · exact fun _ _ => wakePhase_awake rphase
  · intro _ same
    obtain rfl := hold_owner same
    exact synced.wheld _ rfl
  · exact fun _ => .inl (Nat.le_refl 1)
  · intro asleep
    exact (synced.writing asleep).imp_right (Or.imp_right (Promised.wake (by simp)))
  · intro active
    exact (synced.checked active).imp_right (Or.imp_right (Promised.wake (by simp)))

theorem Synced.wake_write {rest : List End} (locked : held = some (pid, .write :: rest)) :
    Synced reader writer rphase (wakePhase wphase) { pipe with wcond := ⟨1, []⟩ } (hold pid rest) := by
  subst locked
  constructor
  · intro _ same
    obtain rfl := hold_owner same
    exact synced.rheld _ rfl
  · exact fun _ _ => wakePhase_awake wphase
  · intro asleep
    exact (synced.reading asleep).imp_right (Or.imp_right (Promised.wake (by simp)))
  · exact fun _ => .inl (Nat.le_refl 1)
  · exact fun _ => .inr (.inl (Nat.le_refl 1))

theorem Synced.pread_section {bytes : List Byte} {c count left : Nat} (other : reader ≠ writer)
    (free : held = none) (taken : Taken pipe count pipe' bytes left) :
    Synced reader writer (some (afterPread pipe' c left)) wphase pipe' (hold reader (preadWakes pipe')) := by
  subst free
  obtain ⟨-, wcond, -, oread⟩ := taken.kept
  constructor
  · exact fun _ _ => afterPread_awake c left
  · intro _ same
    exact absurd (hold_owner same).symm other
  · intro asleep
    obtain ⟨more, opened⟩ := afterPread_asleep asleep
    have empty := taken.stopped.resolve_left (Nat.ne_of_gt more)
    exact .inr (.inl ⟨empty, opened empty⟩)
  · intro asleep
    rw [wcond, oread]
    rcases synced.writing asleep with signal | ⟨-, opened⟩ | promised
    · exact .inl signal
    · by_cases full : IsFull pipe'
      · exact .inr (.inl ⟨full, opened⟩)
      · rw [preadWakes_of_not_full full]
        exact .inr (.inr ⟨reader, [.write], rfl, mem_singleton_self _, .inr rfl⟩)
    · exact absurd promised not_promised
  · intro active
    rw [wcond, oread]
    rcases synced.checked active with opened | signal | promised
    · exact .inl opened
    · exact .inr (.inl signal)
    · exact absurd promised not_promised

theorem Synced.pwrite_section {buf bytes rest : List Byte} {c : Nat} (other : reader ≠ writer)
    (free : held = none) (locking : wphase = some .locking) (put : Put pipe buf pipe' bytes rest) :
    Synced reader writer rphase (some (afterPwrite c rest.length)) pipe' (hold writer (pwriteWakes pipe')) := by
  subst free
  obtain ⟨rcond, wcond, owrite, oread⟩ := put.kept
  have unclosed : pipe.oread = true ∨ 1 ≤ pipe.wcond.count := by
    rcases synced.checked (.inl locking) with opened | signal | promised
    · exact .inl opened
    · exact .inr signal
    · exact absurd promised not_promised
  constructor
  · intro _ same
    exact absurd (hold_owner same) other
  · exact fun _ _ => (afterPwrite_awake c _).1
  · intro asleep
    rw [rcond, owrite]
    rcases synced.reading asleep with signal | ⟨-, opened⟩ | promised
    · exact .inl signal
    · by_cases empty : IsEmpty pipe'
      · exact .inr (.inl ⟨empty, opened⟩)
      · rw [pwriteWakes_of_not_empty empty]
        exact .inr (.inr ⟨writer, [.read], rfl, mem_singleton_self _, .inr rfl⟩)
    · exact absurd promised not_promised
  · intro asleep
    have more : rest ≠ [] := ne_nil_of_length_pos (afterPwrite_asleep asleep)
    rw [wcond, oread]
    rcases unclosed with opened | signal
    · exact .inr (.inl ⟨put.stopped.resolve_left more, opened⟩)
    · exact .inl signal
  · intro _
    rw [wcond, oread]
    exact unclosed.imp_right .inl

theorem Synced.pread_wait (waiting : rphase = some .waiting) (outside : ∀ wakes, held ≠ some (reader, wakes)) :
    Synced reader writer (some (if (condWait pipe.rcond reader).2 then .locking else .queued)) wphase
      { pipe with rcond := (condWait pipe.rcond reader).1 } held := by
  by_cases signal : 1 ≤ pipe.rcond.count
  · rw [condWait_ended signal]
    exact { synced with
      rheld := fun _ _ => by simp
      reading := fun asleep => by simp [Asleep] at asleep }
  · exact { synced with
      rheld := fun wakes here => absurd here (outside wakes)
      reading := fun _ => .inr ((synced.reading (.inl waiting)).resolve_left signal) }

theorem Synced.pwrite_wait (waiting : wphase = some .waiting) (outside : ∀ wakes, held ≠ some (writer, wakes)) :
    Synced reader writer rphase (some (if (condWait pipe.wcond writer).2 then .checking else .queued))
      { pipe with wcond := (condWait pipe.wcond writer).1 } held := by
  by_cases signal : 1 ≤ pipe.wcond.count
  · rw [condWait_ended signal]
    exact { synced with
      wheld := fun _ _ => by simp
      writing := fun asleep => by simp [Asleep] at asleep
      checked := fun active => by simp [Asleep] at active }
  · have unclosed := synced.checked (.inr (.inl waiting))
    exact { synced with
      wheld := fun wakes here => absurd here (outside wakes)
      writing := fun _ => .inr ((synced.writing (.inl waiting)).resolve_left signal)
      checked := fun _ => unclosed.imp_right fun rest => .inr (rest.resolve_left signal) }

omit synced

structure Roles (reader writer : Int) (calls : Int → Activity) : Prop where
  reads : ∀ pid, pid ≠ reader → reads (calls pid) = none
  writes : ∀ pid, pid ≠ writer → writes (calls pid) = none

structure Pair (reader writer : Int) (s : Session) : Prop where
  fifo : Fifo s
  queues : Queues s
  roles : Roles reader writer s.calls
  synced : Synced reader writer (reads (s.calls reader)) (writes (s.calls writer)) s.pipe s.held

section
variable (roles : Roles reader writer calls)
include roles

theorem Roles.read
    (unwriting : Pipe.writes activity = none) : Roles reader writer (update calls reader activity) := by
  constructor
  · intro p different
    rw [update_of_ne different]
    exact roles.reads p different
  · intro p different
    by_cases same : p = reader
    · rwa [same, update_self]
    · rw [update_of_ne same]
      exact roles.writes p different

theorem Roles.write
    (unreading : Pipe.reads activity = none) : Roles reader writer (update calls writer activity) := by
  constructor
  · intro p different
    by_cases same : p = writer
    · rwa [same, update_self]
    · rw [update_of_ne same]
      exact roles.reads p different
  · intro p different
    rw [update_of_ne different]
    exact roles.writes p different

theorem Roles.wake (pids : List Int) : Roles reader writer (wakeAll calls pids) := by
  constructor
  · intro p different
    unfold wakeAll
    split_ifs
    · rw [reads_wake, roles.reads p different]
      rfl
    · exact roles.reads p different
  · intro p different
    unfold wakeAll
    split_ifs
    · rw [writes_wake, roles.writes p different]
      rfl
    · exact roles.writes p different

theorem Roles.reader_eq {phase : Phase} {call : Reading} (here : calls pid = .pread phase call) : pid = reader := by
  by_contra different
  have none := roles.reads pid different
  rw [here] at none
  cases none

theorem Roles.writer_eq {phase : Phase} {call : Writing} (here : calls pid = .pwrite phase call) : pid = writer := by
  by_contra different
  have none := roles.writes pid different
  rw [here] at none
  cases none

end

section
variable (roles : Roles reader writer s.calls) (other : reader ≠ writer) (fifo : Fifo s') (queues : Queues s')
include roles other fifo queues

theorem pair_read
    (calls : s'.calls = update s.calls reader activity) (unwriting : writes activity = none)
    (synced : Synced reader writer (reads activity) (writes (s.calls writer)) s'.pipe s'.held) :
    Pair reader writer s' := by
  refine ⟨fifo, queues, calls ▸ roles.read unwriting, ?_⟩
  rw [calls, update_self, update_of_ne other.symm]
  exact synced

theorem pair_write
    (calls : s'.calls = update s.calls writer activity) (unreading : reads activity = none)
    (synced : Synced reader writer (reads (s.calls reader)) (writes activity) s'.pipe s'.held) :
    Pair reader writer s' := by
  refine ⟨fifo, queues, calls ▸ roles.write unreading, ?_⟩
  rw [calls, update_self, update_of_ne other]
  exact synced

end

theorem wakeNext_synced {rest : List End} (queues : Queues s)
    (synced : Synced reader writer (reads (s.calls reader)) (writes (s.calls writer)) s.pipe s.held)
    (held : s.held = some (pid, side :: rest)) : Synced reader writer (reads ((wakeNext s pid side rest).calls reader))
      (writes ((wakeNext s pid side rest).calls writer)) (wakeNext s pid side rest).pipe
      (wakeNext s pid side rest).held := by
  cases side with
  | read =>
    simp only [wakeNext, wakeCond]
    rw [queues.readers.wakes reads_wake, queues.readers.spares writes_wake fun _ => writes_of_reads,
      condWake_eq queues.readers]
    exact synced.wake_read held
  | write =>
    simp only [wakeNext, wakeCond]
    rw [queues.writers.wakes writes_wake, queues.writers.spares reads_wake fun _ => reads_of_writes,
      condWake_eq queues.writers]
    exact synced.wake_write held

theorem outside_awake (outside : s.outside pid = true) :
    ¬ Asleep (reads (s.calls pid)) ∧ ¬ Asleep (writes (s.calls pid)) :=
  ended_awake (Bool.and_eq_true_iff.mp outside).1

theorem checkOread_phase (pipe : Pipe) (c count : Nat) :
    ¬ Asleep (some (if pipe.oread then .locking else returnPart c count)) ∧
      (some (if pipe.oread then .locking else returnPart c count) = some .locking → pipe.oread = true) := by
  unfold returnPart
  split_ifs with opened
  · exact ⟨by simp [Asleep], fun _ => opened⟩
  · exact ⟨by simp [Asleep], by simp⟩

theorem pair_move (pair : Pair reader writer s) (other : reader ≠ writer) (paired : Paired reader writer s action)
    (move : Move s action s') : Pair reader writer s' := by
  have fifo := fifo_move pair.fifo move
  have queues := queues_move pair.queues pair.fifo move
  obtain ⟨before, waiting, roles, synced⟩ := pair
  cases move with
  | pread outside bound =>
    obtain rfl := paired
    obtain ⟨awake, unwriting⟩ := startPread_phase _ _
    exact pair_read roles other fifo queues rfl unwriting (synced.read_phase awake)
  | pwrite outside bound =>
    obtain rfl := paired
    obtain ⟨awake, unlocked, unreading⟩ := startPwrite_phase _ _
    exact pair_write roles other fifo queues rfl unreading
      (synced.write_phase awake fun locking => absurd locking unlocked)
  | pclose outside free =>
    obtain ⟨unread, unwritten⟩ := outside_awake outside
    refine ⟨fifo, queues, roles, synced.pclose free _ ?_ ?_⟩
    · rintro rfl queued
      exact unread (.inr queued)
    · rintro rfl queued
      exact unwritten (.inr queued)
  | wake held => exact ⟨fifo, queues, roles.wake _, wakeNext_synced waiting synced held⟩
  | preadSection here free =>
    obtain rfl := roles.reader_eq here
    exact pair_read roles other fifo queues rfl rfl (synced.pread_section other free (preadLoop_taken before.range _))
  | preadWait here free =>
    obtain rfl := roles.reader_eq here
    rw [here] at synced
    exact pair_read roles other fifo queues rfl rfl (synced.pread_wait rfl free)
  | checkOread here free =>
    obtain rfl := roles.writer_eq here
    obtain ⟨awake, opened⟩ := checkOread_phase s.pipe _ _
    exact pair_write roles other fifo queues rfl rfl (synced.write_phase awake opened)
  | pwriteSection here free =>
    obtain rfl := roles.writer_eq here
    rw [here] at synced
    obtain ⟨_, put⟩ := pwriteLoop_put before.range _
    exact pair_write roles other fifo queues rfl rfl (synced.pwrite_section other free rfl put)
  | pwriteWait here free =>
    obtain rfl := roles.writer_eq here
    rw [here] at synced
    exact pair_write roles other fifo queues rfl rfl (synced.pwrite_wait rfl free)

theorem opened_pair (reader writer : Int) : Pair reader writer opened := by
  refine ⟨opened_fifo, reachable_queues (.initial rfl), ⟨fun _ _ => rfl, fun _ _ => rfl⟩, ?_⟩
  constructor
  · simp [opened]
  · simp [opened]
  · simp [Asleep, reads, opened]
  · simp [Asleep, writes, opened]
  · simp [Asleep, writes, opened]

theorem reachable_pair (other : reader ≠ writer)
    (reachable : (session.restrict (Paired reader writer)).Reachable s) : Pair reader writer s := by
  apply reachable.invariant
  · intro s start
    exact start ▸ opened_pair reader writer
  · intro _ _ _ pair step
    exact pair_move pair other step.1 (move_of_next step.2)

section
variable (pair : Pair reader writer s)
include pair

theorem Pair.reader_stalled (queued : QueuedOn s.pipe.rcond reader) : IsEmpty s.pipe ∧ s.pipe.owrite = true ∨
    Promised s.held .read fun pid => IsEmpty s.pipe ∨ pid = writer := by
  obtain ⟨blocked, count⟩ := pair.queues.readers.stalled queued
  exact (pair.synced.reading (.inr blocked)).resolve_left (by simp [count])

theorem Pair.writer_stalled (queued : QueuedOn s.pipe.wcond writer) : IsFull s.pipe ∧ s.pipe.oread = true ∨
    Promised s.held .write fun pid => IsFull s.pipe ∨ pid = reader := by
  obtain ⟨blocked, count⟩ := pair.queues.writers.stalled queued
  exact (pair.synced.writing (.inr blocked)).resolve_left (by simp [count])

theorem Pair.not_both (read : QueuedOn s.pipe.rcond reader) : ¬ QueuedOn s.pipe.wcond writer := by
  intro write
  -- a process in a queue is not the one inside the locked section
  have empty : IsEmpty s.pipe := by
    rcases pair.reader_stalled read with ⟨empty, -⟩ | ⟨_, wakes, here, -, empty | rfl⟩
    · exact empty
    · exact empty
    · exact absurd (pair.queues.writers.stalled write).1 (pair.synced.wheld wakes here)
  have full : IsFull s.pipe := by
    rcases pair.writer_stalled write with ⟨full, -⟩ | ⟨_, wakes, here, -, full | rfl⟩
    · exact full
    · exact full
    · exact absurd (pair.queues.readers.stalled read).1 (pair.synced.rheld wakes here)
  exact not_full_of_empty pair.fifo.range empty full

end

theorem no_wakeup_lost (other : reader ≠ writer) (reachable : (session.restrict (Paired reader writer)).Reachable s) :
    (s.held = none → (QueuedOn s.pipe.rcond reader → s.pipe.hi = s.pipe.lo ∧ s.pipe.owrite = true) ∧
      (QueuedOn s.pipe.wcond writer → (s.pipe.hi + 1) % pipeSize = s.pipe.lo ∧ s.pipe.oread = true)) ∧
    (∀ pid wakes, s.held = some (pid, wakes) →
      (QueuedOn s.pipe.rcond reader → s.pipe.hi = s.pipe.lo ∧ s.pipe.owrite = true ∨ .read ∈ wakes) ∧
      (QueuedOn s.pipe.wcond writer → (s.pipe.hi + 1) % pipeSize = s.pipe.lo ∧ s.pipe.oread = true ∨ .write ∈ wakes)) ∧
    ((∃ call, s.calls reader = .pread .queued call) → QueuedOn s.pipe.rcond reader) ∧
    ((∃ call, s.calls writer = .pwrite .queued call) → QueuedOn s.pipe.wcond writer) ∧
    ¬ (QueuedOn s.pipe.rcond reader ∧ QueuedOn s.pipe.wcond writer) := by
  have pair := reachable_pair other reachable
  refine ⟨?_, ?_, ?_, ?_, ?_⟩
  · intro free
    have none {side : End} {owner : Int → Prop} : ¬ Promised s.held side owner := free ▸ not_promised
    exact ⟨fun queued => (pair.reader_stalled queued).resolve_right none,
      fun queued => (pair.writer_stalled queued).resolve_right none⟩
  · intro _ _ held
    constructor
    · intro queued
      rcases pair.reader_stalled queued with stalled | ⟨_, _, same, promised, -⟩
      · exact .inl stalled
      · cases held.symm.trans same
        exact .inr promised
    · intro queued
      rcases pair.writer_stalled queued with stalled | ⟨_, _, same, promised, -⟩
      · exact .inl stalled
      · cases held.symm.trans same
        exact .inr promised
  · rintro ⟨call, here⟩
    exact (pair.queues.readers.queued reader).mpr (by rw [here]; rfl)
  · rintro ⟨_, here⟩
    exact (pair.queues.writers.queued writer).mpr (by rw [here]; rfl)
  · rintro ⟨read, write⟩
    exact pair.not_both read write

theorem no_wakeup_lost_waiting : ∃ s, (session.restrict (Paired 0 1)).Reachable s ∧ QueuedOn s.pipe.rcond 0 ∧
      s.pipe.hi = s.pipe.lo ∧ s.pipe.owrite = true ∧ ¬ QueuedOn s.pipe.wcond 1 := by
  have run : ([.pread 0 (some .read) 1, .run 0, .wake, .run 0].foldlM next opened).map
      (fun s => (s.pipe.rcond, s.held)) = some (⟨0, [⟨0, 1⟩]⟩, none) := by
    decide +kernel
  obtain ⟨s, computed, equal⟩ := Option.map_eq_some_iff.mp run
  obtain ⟨queue, free⟩ := Prod.mk.inj equal
  have reachable : (session.restrict (Paired 0 1)).Reachable s :=
    System.Reachable.leadsTo (.initial rfl)
      (System.leadsTo_run_restrict (fun _ _ _ step => step) (by simp [Paired]) computed)
  have queued : QueuedOn s.pipe.rcond 0 := ⟨⟨0, 1⟩, by simp [queue], rfl⟩
  obtain ⟨stalled, -, -, -, both⟩ := no_wakeup_lost (by decide) reachable
  obtain ⟨empty, opened⟩ := (stalled free).1 queued
  exact ⟨s, reachable, queued, empty, opened, fun write => both ⟨queued, write⟩⟩

end Petix.Proof.Pipe
