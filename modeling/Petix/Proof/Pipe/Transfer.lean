import Petix.Proof.Pipe.Fifo

namespace Petix.Proof.Pipe
open Function List Library Kernel.Sync Kernel.Pipes Kernel.PipeCalls Spec.Pipes

variable {s s' : Session} {action : Action} {reader writer pid : Int} {c : Nat} {xs sent : List Byte}

structure Calm (s : Session) (reader : Int) : Prop where
  reachable : session.Reachable s
  free : s.held = none
  readers : s.pipe.rcond.lst = []
  writers : s.pipe.wcond.lst = []
  oread : s.pipe.oread = true
  reading : (s.calls reader).ended = true

theorem reachable_move (reachable : session.Reachable s) (move : Move s action s') : session.Reachable s' :=
  reachable.next (next_of_move move)

theorem condWake_quiet {sem : Sem} (quiet : sem.lst = []) : condWake sem = (⟨1, []⟩, []) := by
  simp [condWake, semSignal, quiet, signalLoop]

theorem wakeAll_nil (calls : Int → Activity) : wakeAll calls [] = calls := by
  funext p
  exact if_neg (not_mem_nil)

theorem wakeNext_read (readers : s.pipe.rcond.lst = []) :
    wakeNext s pid .read [] = { s with pipe := { s.pipe with rcond := ⟨1, []⟩ }, held := none } := by
  simp only [wakeNext, wakeCond, condWake_quiet readers, wakeAll_nil]
  rfl

theorem wakeNext_write (writers : s.pipe.wcond.lst = []) :
    wakeNext s pid .write [] = { s with pipe := { s.pipe with wcond := ⟨1, []⟩ }, held := none } := by
  simp only [wakeNext, wakeCond, condWake_quiet writers, wakeAll_nil]
  rfl

theorem afterPread_ended {pipe : Pipe} {left : Nat} {call : Reading} (all : left = 0) :
    (Activity.pread (afterPread pipe c left) call).ended = true := by
  unfold afterPread
  split_ifs with closed positive
  · rfl
  · exact absurd all (Nat.ne_of_gt positive)
  · rfl

section
variable (calm : Calm s reader) (other : reader ≠ writer)
include calm other

theorem fill (empty : IsEmpty s.pipe) (more : xs ≠ [])
    (writing : s.calls writer = .pwrite .checking ⟨c, xs, sent⟩) :
    ∃ s' bytes rest, Calm s' reader ∧ xs = bytes ++ rest ∧ contents s'.pipe = bytes ∧ (rest = [] ∨ IsFull s'.pipe) ∧
      s'.calls writer = .pwrite (afterPwrite c rest.length) ⟨c, rest, sent ++ bytes⟩ := by
  have range := (reachable_fifo calm.reachable).range
  obtain ⟨bytes, put⟩ := pwriteLoop_put range xs
  have order := put.order
  rw [(contents_eq_nil_iff range).mpr empty, nil_append] at order
  have filled : bytes ≠ [] := by
    rintro rfl
    rcases put.stopped with all | full
    · exact more (by rw [put.split, all]; rfl)
    · exact not_full_of_empty put.range ((contents_eq_nil_iff put.range).mp order) full
  have unequal : ¬ IsEmpty (pwriteLoop s.pipe xs).1 := fun empty =>
    filled (order.symm.trans ((contents_eq_nil_iff put.range).mpr empty))
  let checked := checkOread s writer ⟨c, xs, sent⟩
  have first : Move s (.run writer) checked := .checkOread writing (by simp [calm.free])
  have locking : checked.calls writer = .pwrite .locking ⟨c, xs, sent⟩ := by simp [checked, checkOread, calm.oread]
  have second : Move checked (.run writer) (pwriteSection checked writer ⟨c, xs, sent⟩) :=
    .pwriteSection locking calm.free
  let written := pwriteSection checked writer ⟨c, xs, sent⟩
  have held : written.held = some (writer, [.read]) := by
    change hold writer (pwriteWakes (pwriteLoop s.pipe xs).1) = _
    rw [pwriteWakes_of_not_empty unequal]
    rfl
  have third : Move written .wake (wakeNext written writer .read []) := .wake held
  have reachable := reachable_move (reachable_move (reachable_move calm.reachable first) second) third
  have readers : written.pipe.rcond.lst = [] := (congrArg (·.rcond.lst) put.frame).trans calm.readers
  rw [wakeNext_read readers] at reachable
  refine ⟨_, bytes, (pwriteLoop s.pipe xs).2, ⟨reachable, rfl, rfl, ?_, ?_, ?_⟩, put.split, ?_, ?_, ?_⟩
  · exact (congrArg (·.wcond.lst) put.frame).trans calm.writers
  · exact (congrArg (·.oread) put.frame).trans calm.oread
  · simp only [written, pwriteSection, checked, checkOread, update_of_ne other]
    exact calm.reading
  · exact order
  · exact put.stopped
  · simp only [written, pwriteSection, checked, checkOread, update_self, put.sent_eq]

theorem drain {call : Writing} (full : IsFull s.pipe)
    (writing : s.calls writer = .pwrite .waiting call) :
    ∃ s', Calm s' reader ∧ IsEmpty s'.pipe ∧ s'.calls writer = .pwrite .checking call := by
  have range := (reachable_fifo calm.reachable).range
  -- the `pread` asks for exactly what is there
  obtain ⟨count, length⟩ : ∃ count, (contents s.pipe).length = count := ⟨_, rfl⟩
  have bound : count < 2 ^ 32 := length ▸ Nat.lt_trans (length_contents_lt range) (by decide)
  have positive : count > 0 := by
    rw [← length, length_contents_of_full range full]
    decide
  obtain ⟨range', order, _, stopped, frame⟩ := preadLoop_taken range count
  rw [order, length_append] at length
  have empty : IsEmpty (preadLoop s.pipe count).1 := by
    rcases stopped with all | empty
    · apply (contents_eq_nil_iff range').mp
      apply eq_nil_of_length_eq_zero
      omega
    · exact empty
  have all : (preadLoop s.pipe count).2.2 = 0 := by
    rw [(contents_eq_nil_iff range').mpr empty, length_nil] at length
    omega
  let started : Session := { s with calls := update s.calls reader (startPread (some .read) count) }
  have outside : s.outside reader := by simp [Session.outside, calm.reading, calm.free]
  have first : Move s (.pread reader (some .read) count) started := .pread outside bound
  have locking : started.calls reader = .pread .locking ⟨count, count, []⟩ := by
    simp [started, startPread, checkEnd, positive]
  have second : Move started (.run reader) (preadSection started reader ⟨count, count, []⟩) :=
    .preadSection locking calm.free
  let emptied := preadSection started reader ⟨count, count, []⟩
  have held : emptied.held = some (reader, [.write]) := by
    change hold reader (preadWakes (preadLoop s.pipe count).1) = _
    rw [preadWakes_of_not_full (not_full_of_empty range' empty)]
    rfl
  have third : Move emptied .wake (wakeNext emptied reader .write []) := .wake held
  have reachable := reachable_move (reachable_move (reachable_move calm.reachable first) second) third
  have writers : emptied.pipe.wcond.lst = [] := (congrArg (·.wcond.lst) frame).trans calm.writers
  rw [wakeNext_write writers] at reachable
  have waiting : emptied.calls writer = .pwrite .waiting call := by
    simp only [emptied, preadSection, started, update_of_ne other.symm]
    exact writing
  have reachable := reachable_move reachable (.pwriteWait waiting (by simp))
  refine ⟨_, ⟨reachable, rfl, ?_, rfl, ?_, ?_⟩, empty, ?_⟩
  · exact (congrArg (·.rcond.lst) frame).trans calm.readers
  · exact (congrArg (·.oread) frame).trans calm.oread
  · simp only [pwriteWait, update_of_ne other, emptied, preadSection, update_self]
    exact afterPread_ended all
  · simp only [pwriteWait, update_self]
    rfl

theorem transfer (empty : IsEmpty s.pipe) (more : xs ≠ [])
    (writing : s.calls writer = .pwrite .checking ⟨c, xs, sent⟩) :
    ∃ s', session.Reachable s' ∧ s'.calls writer = .pwrite (returnAll c) ⟨c, [], sent ++ xs⟩ := by
  -- every round leaves less of `xs`
  induction length : xs.length using Nat.strong_induction_on generalizing s xs sent with
  | _ n ih =>
    obtain ⟨filled, _, rest, calm, split, order, stopped, writing⟩ := fill calm other empty more writing
    cases rest with
    | nil =>
      refine ⟨filled, calm.reachable, ?_⟩
      rw [writing, split, append_nil]
      rfl
    | cons byte rest =>
      have full : IsFull filled.pipe := stopped.resolve_left (cons_ne_nil byte rest)
      have many := length_contents_of_full (reachable_fifo calm.reachable).range full
      rw [order] at many
      obtain ⟨_, calm, empty, writing⟩ := drain calm other full writing
      have shorter : (byte :: rest).length < n := by
        rw [← length, split, length_append, many]
        exact Nat.lt_add_of_pos_left (by decide)
      rw [split, ← append_assoc]
      exact ih _ shorter calm empty (cons_ne_nil byte rest) writing rfl

end

theorem pwrite_completes (bound : xs.length < 2 ^ 32) (more : xs ≠ []) :
    ∃ s, session.Reachable s ∧ s.calls 0 = .pwrite (returnAll xs.length) ⟨xs.length, [], xs⟩ := by
  have first : Move opened (.pwrite 0 (some .write) xs)
      { opened with calls := update opened.calls 0 (startPwrite (some .write) xs) } :=
    .pwrite rfl bound
  have calm : Calm { opened with calls := update opened.calls 0 (startPwrite (some .write) xs) } 1 :=
    ⟨reachable_move (.initial rfl) first, rfl, rfl, rfl, rfl, rfl⟩
  have writing : startPwrite (some .write) xs = .pwrite .checking ⟨xs.length, xs, []⟩ := by
    simp [startPwrite, checkEnd, length_pos_iff.mpr more]
  exact transfer calm (by decide) rfl more ((update_self ..).trans writing)

theorem pipe_keeps_order (reachable : session.Reachable s) : (s.pipe.lo < pipeSize ∧ s.pipe.hi < pipeSize) ∧
    (s.removed <+: s.inserted ∧ s.inserted = s.removed ++ contents s.pipe ∧
      (contents s.pipe).length = (s.pipe.hi + pipeSize - s.pipe.lo) % pipeSize ∧ (contents s.pipe).length ≤ 4095) ∧
    (∀ pid ret call, s.calls pid = .pread (.returned ret) call →
      ret = signed32 call.stored.length ∧ (call.c < 2 ^ 31 → ret = call.stored.length) ∧
      (call.stored.length < call.c → s.pipe.owrite = false)) ∧
    (∀ pid ret call, s.calls pid = .pwrite (.returned ret) call →
      ret = signed32 call.sent.length ∧ (call.c < 2 ^ 31 → ret = call.sent.length) ∧
      (call.sent.length < call.c → s.pipe.oread = false)) ∧
    ∀ pid ret call s', session.step s (.run pid) s' → s'.calls pid = .pread (.returned ret) call →
      call.stored.length < call.c → s'.pipe.owrite = false ∧ s'.pipe.hi = s'.pipe.lo := by
  have fifo := reachable_fifo reachable
  refine ⟨⟨fifo.range.low, fifo.range.high⟩, ⟨?_, fifo.order, ?_, ?_⟩, ?_, ?_, ?_⟩
  · exact ⟨contents s.pipe, fifo.order.symm⟩
  · exact Ring.length_contents
  · exact Nat.le_of_lt_succ (length_contents_lt fifo.range)
  · intro pid ret call ended
    have counted := fifo.calls pid
    rw [ended] at counted
    obtain ⟨value, short⟩ := counted.2 ret rfl
    refine ⟨value, fun bound => ?_, fun less => short.resolve_left (Nat.ne_of_lt less)⟩
    rw [value]
    apply signed32_of_lt
    exact Nat.lt_of_le_of_lt (Nat.le.intro counted.1) bound
  · intro pid ret call ended
    have counted := fifo.calls pid
    rw [ended] at counted
    obtain ⟨value, short⟩ := counted.2 ret rfl
    refine ⟨value, fun bound => ?_, fun less => short.resolve_left (Nat.ne_of_lt less)⟩
    rw [value]
    apply signed32_of_lt
    exact Nat.lt_of_le_of_lt (Nat.le.intro counted.1) bound
  · intro _ _ _ _ step ended short
    exact pread_short fifo (move_of_next step) ended short

theorem pipe_keeps_order_short_read :
    ∃ s, session.Reachable s ∧ s.calls 1 = .pread (.returned 2) ⟨3, 1, [7, 8]⟩ ∧ s.pipe.owrite = false ∧
      s.inserted = s.removed ++ contents s.pipe := by
  have run : ([.pwrite 0 (some .write) [7, 8], .run 0, .run 0, .wake, .pclose 0 .write, .wake, .wake,
      .pread 1 (some .read) 3, .run 1].foldlM next opened).map (fun s => s.calls 1) =
      some (.pread (.returned 2) ⟨3, 1, [7, 8]⟩) := by
    decide +kernel
  obtain ⟨s, computed, ended⟩ := Option.map_eq_some_iff.mp run
  have reachable : session.Reachable s := System.Reachable.run (fun _ _ _ step => step) (.initial rfl) computed
  obtain ⟨-, ⟨-, order, -⟩, reads, -⟩ := pipe_keeps_order reachable
  exact ⟨s, reachable, ended, (reads 1 2 _ ended).2.2 (by decide), order⟩

theorem pwrite_returns_negative : ∃ s call, session.Reachable s ∧ s.calls 0 = .pwrite (.returned (-2147483648)) call ∧
      call.c = 2147483648 ∧ call.sent.length = 2147483648 := by
  obtain ⟨xs, length⟩ : ∃ xs : List Byte, xs.length = 2147483648 := ⟨replicate 2147483648 0, length_replicate⟩
  have more : xs ≠ [] := by
    rintro rfl
    cases length
  obtain ⟨s, reachable, ended⟩ := pwrite_completes (by omega) more
  refine ⟨s, ⟨xs.length, [], xs⟩, reachable, ended.trans ?_, length, length⟩
  rw [length]
  rfl

end Petix.Proof.Pipe
