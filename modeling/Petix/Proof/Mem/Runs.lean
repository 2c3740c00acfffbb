import Petix.Proof.Mem.Bits

namespace Petix.Proof.Mem
open List Library Kernel.Mem Bitmap

variable {s s' : Frames} {page : Nat}

structure Consistent (s : Frames) : Prop where
  small : s.memBase / pageSize + s.frames.length * 32 < 2 ^ 32
  distinct : s.freeStack.Nodup
  depth : s.freeStack.length ≤ freeStackSize
  clear : ∀ p ∈ s.freeStack, p ≠ 0 ∧ s.memBase / pageSize ≤ p ∧
    p - s.memBase / pageSize < s.frames.length * 32 ∧ test s.frames (p - s.memBase / pageSize) = false

structure Marks (page : Nat) (value : Bool) (s s' : Frames) : Prop where
  memBase : s'.memBase = s.memBase
  nframes : s'.nframes = s.nframes
  words : s'.frames.length = s.frames.length
  low : s.memBase / pageSize ≤ page
  high : page - s.memBase / pageSize < s.frames.length * 32
  before : test s.frames (page - s.memBase / pageSize) = !value
  after : ∀ j, test s'.frames j = if j = page - s.memBase / pageSize then value else test s.frames j

section
variable (inv : Consistent s)
include inv

theorem allocPage_cases (call : allocPage s = .ok (page, s')) : page ≠ 0 ∧ Marks page true s s' ∧
      (s.freeStack = page :: s'.freeStack ∨ s.freeStack = [] ∧ s'.freeStack = []) := by
  have small := inv.small
  unfold allocPage at call
  cases stack : s.freeStack with
  | cons frame rest =>
    obtain ⟨nonzero, low, high, clear⟩ := inv.clear frame (by simp [stack])
    have index : sub32 frame (s.memBase / pageSize) = frame - s.memBase / pageSize := sub32_eq low (by omega)
    have inside := index_lt high
    obtain ⟨frames, written, words, after⟩ := setBit_ok inside true
    simp only [stack, index, getBit_ok inside, clear, written, kassert, bind, Except.bind, pure, Except.pure,
      Bool.not_false, if_true, bne_iff_ne, ne_eq, nonzero, not_false_eq_true, Except.ok.injEq, Prod.mk.injEq] at call
    obtain ⟨rfl, rfl⟩ := call
    exact ⟨nonzero, ⟨rfl, rfl, words, low, high, clear, after⟩, .inl rfl⟩
  | nil =>
    simp only [stack] at call
    cases scan : findWord s.frames (2 ^ 32) (sub32 s.nframes 1 / 32) with
    | error halt => simp only [scan, bind, Except.bind, reduceCtorEq] at call
    | ok found =>
      obtain ⟨i, w⟩ := found
      obtain ⟨here, equal, free⟩ := findWord_spec scan
      have bit := ctz_lt free
      have clear := ctz_clear free
      simp only [scan, bind, Except.bind] at call
      generalize (~~~w).ctz.toNat = k at *
      have div : (i * 32 + k) / 32 = i := by omega
      have mod : (i * 32 + k) % 32 = k := by omega
      have inside : (i * 32 + k) / 32 < s.frames.length := div.symm ▸ here
      have before : test s.frames (i * 32 + k) = false := by
        rw [test_eq inside, mod]
        simp only [div, equal]
        exact clear
      obtain ⟨_, written, words, after⟩ := setBit_ok inside true
      simp only [written, kassert, pure, Except.pure] at call
      split_ifs at call with nonzero
      obtain ⟨rfl, rfl⟩ := Prod.mk.inj (Except.ok.inj call)
      have index : i * 32 + k + s.memBase / pageSize - s.memBase / pageSize = i * 32 + k := Nat.add_sub_cancel _ _
      refine ⟨by simpa using nonzero, ⟨rfl, rfl, words, Nat.le_add_left _ _, ?_, ?_, ?_⟩, .inr ⟨rfl, rfl⟩⟩
      · omega
      · rw [index]
        exact before
      · rw [index]
        exact after

private theorem index_of_inside (bound : page < 2 ^ 32)
    (inside : sub32 page (s.memBase / pageSize) / 32 < s.frames.length) :
    s.memBase / pageSize ≤ page ∧ sub32 page (s.memBase / pageSize) = page - s.memBase / pageSize := by
  have small := inv.small
  have low : s.memBase / pageSize ≤ page := by
    by_contra below
    unfold sub32 at inside
    omega
  exact ⟨low, sub32_eq low bound⟩

theorem freePage_cases (bound : page < 2 ^ 32) (nonzero : page ≠ 0)
    (call : freePage s page = .ok s') : Marks page false s s' ∧
      s'.freeStack = if s.freeStack.length < freeStackSize then page :: s.freeStack else s.freeStack := by
  unfold freePage at call
  rw [if_neg nonzero] at call
  by_cases inside : sub32 page (s.memBase / pageSize) / 32 < s.frames.length
  · obtain ⟨low, index⟩ := index_of_inside inv bound inside
    rw [index] at inside call
    obtain ⟨frames, written, words, after⟩ := setBit_ok inside false
    rw [getBit_ok inside, written] at call
    cases set : test s.frames (page - s.memBase / pageSize) with
    | false => simp [set, kassert, bind, Except.bind] at call
    | true =>
      simp only [set, kassert, bind, Except.bind, if_true, pure, Except.pure, Except.ok.injEq] at call
      subst call
      exact ⟨⟨rfl, rfl, words, low, test_lt (by decide) set, set, after⟩, rfl⟩
  · rw [getBit_error (by omega)] at call
    cases call

theorem freePage_ok (low : s.memBase / pageSize ≤ page)
    (set : test s.frames (page - s.memBase / pageSize) = true) : ∃ s', freePage s page = .ok s' := by
  have small := inv.small
  have high := test_lt (by decide) set
  unfold freePage
  split_ifs
  · exact ⟨s, rfl⟩
  all_goals
    have inside := index_lt high
    obtain ⟨_, written, -⟩ := setBit_ok inside false
    rw [sub32_eq low (by omega), getBit_ok inside, written, set]
    exact ⟨_, rfl⟩

theorem allocPage_pop {rest : List Nat} (stack : s.freeStack = page :: rest) :
    ∃ s', allocPage s = .ok (page, s') := by
  have small := inv.small
  obtain ⟨nonzero, low, high, clear⟩ := inv.clear page (by simp [stack])
  have inside := index_lt high
  obtain ⟨_, written, -⟩ := setBit_ok inside true
  simp [allocPage, stack, sub32_eq low (show page < 2 ^ 32 by omega), getBit_ok inside, clear, written, kassert,
    bind, Except.bind, pure, Except.pure, nonzero]

end

structure Invariant (base length : Nat) (c : Client) : Prop where
  memBase : c.mem.memBase = base
  nframes : c.mem.nframes = length / pageSize
  words : c.mem.frames.length = ceilDiv (length / pageSize) 32
  consistent : Consistent c.mem
  marked : ∀ p, p ∈ c.allocated ↔ base / pageSize ≤ p ∧ test c.mem.frames (p - base / pageSize) = true
  nonzero : 0 ∉ c.allocated

variable {base length : Nat} {c c' : Client}

theorem invariant_initial (baseBound : base < 2 ^ 32) (lengthBound : length < 2 ^ 32) :
    Invariant base length ⟨memInit base length, ∅⟩ where
  memBase := rfl
  nframes := rfl
  words := by simp [memInit]
  consistent :=
    { small := by
        simp only [memInit, length_replicate, ceilDiv, pageSize]
        omega
      distinct := nodup_nil
      depth := Nat.zero_le _
      clear := by simp [memInit] }
  marked := by simp [memInit, test_replicate_zero]
  nonzero := by simp

private theorem Marks.consistent {value : Bool} (marks : Marks page value s s') (inv : Consistent s)
    (distinct : s'.freeStack.Nodup) (depth : s'.freeStack.length ≤ freeStackSize)
    (entries : ∀ p ∈ s'.freeStack, p ∈ s.freeStack ∧ p ≠ page ∨ p = page ∧ page ≠ 0 ∧ value = false) :
    Consistent s' where
  small := by rw [marks.memBase, marks.words]; exact inv.small
  distinct := distinct
  depth := depth
  clear := by
    intro p member
    rw [marks.memBase, marks.words, marks.after]
    rcases entries p member with ⟨old, _⟩ | ⟨rfl, nonzero, rfl⟩
    · obtain ⟨nonzero, low, high, clear⟩ := inv.clear p old
      have := marks.low
      rw [if_neg (by omega)]
      exact ⟨nonzero, low, high, clear⟩
    · rw [if_pos rfl]
      exact ⟨nonzero, marks.low, marks.high, rfl⟩

private theorem alloc_invariant (inv : Invariant base length c)
    (call : allocPage c.mem = .ok (page, mem)) : Invariant base length ⟨mem, insert page c.allocated⟩ := by
  obtain ⟨nonzero, marks, stack⟩ := allocPage_cases inv.consistent call
  have memBase := inv.memBase
  have low := marks.low
  have distinct := inv.consistent.distinct
  have depth := inv.consistent.depth
  refine ⟨marks.memBase.trans memBase, marks.nframes.trans inv.nframes, marks.words.trans inv.words, ?_, ?_, ?_⟩
  · rcases stack with popped | ⟨-, empty'⟩
    · rw [popped] at distinct depth
      refine marks.consistent inv.consistent distinct.of_cons (by simp at depth; omega) fun p member => .inl ?_
      rw [popped]
      refine ⟨.tail _ member, ?_⟩
      rintro rfl
      exact (nodup_cons.mp distinct).1 member
    · exact marks.consistent inv.consistent (by simp [empty']) (by simp [empty']) (by simp [empty'])
  · intro p
    rw [Finset.mem_insert, inv.marked, marks.after, memBase]
    rw [memBase] at low
    by_cases same : p = page
    · subst same
      simp [low]
    · have other : base / pageSize ≤ p → p - base / pageSize ≠ page - base / pageSize := by omega
      simp only [same, false_or]
      refine and_congr_right fun above => ?_
      rw [if_neg (other above)]
  · simp only [Finset.mem_insert, not_or]
    exact ⟨nonzero.symm, inv.nonzero⟩

private theorem free_invariant (inv : Invariant base length c) (bound : page < 2 ^ 32)
    (call : freePage c.mem page = .ok mem) : Invariant base length ⟨mem, c.allocated.erase page⟩ := by
  by_cases zero : page = 0
  · rw [freePage, if_pos zero, Except.ok.injEq] at call
    rw [← call, zero, Finset.erase_eq_of_notMem inv.nonzero]
    exact inv
  obtain ⟨marks, stack⟩ := freePage_cases inv.consistent bound zero call
  have memBase := inv.memBase
  have low := marks.low
  have fresh : page ∉ c.mem.freeStack := by
    intro member
    have clear := (inv.consistent.clear page member).2.2.2
    rw [marks.before] at clear
    cases clear
  refine ⟨marks.memBase.trans memBase, marks.nframes.trans inv.nframes, marks.words.trans inv.words, ?_, ?_, ?_⟩
  · split_ifs at stack with room
    · refine marks.consistent inv.consistent ?_ ?_ fun p member => ?_
      · rw [stack]
        exact nodup_cons.mpr ⟨fresh, inv.consistent.distinct⟩
      · rw [stack, length_cons]
        exact room
      · rw [stack] at member
        rcases mem_cons.mp member with rfl | old
        · exact .inr ⟨rfl, zero, rfl⟩
        · exact .inl ⟨old, fun equal => fresh (equal ▸ old)⟩
    · -- the stack is full: the page is recorded in the bitmap only
      refine marks.consistent inv.consistent (stack ▸ inv.consistent.distinct) (stack ▸ inv.consistent.depth) ?_
      rw [stack]
      exact fun p old => .inl ⟨old, fun equal => fresh (equal ▸ old)⟩
  · intro p
    rw [Finset.mem_erase, inv.marked, marks.after, memBase]
    rw [memBase] at low
    by_cases same : p = page
    · subst same
      simp
    · have other : base / pageSize ≤ p → p - base / pageSize ≠ page - base / pageSize := by omega
      simp only [ne_eq, same, not_false_eq_true, true_and]
      refine and_congr_right fun above => ?_
      rw [if_neg (other above)]
  · exact fun member => inv.nonzero (Finset.mem_of_mem_erase member)

theorem invariant_step (call : Call) (inv : Invariant base length c)
    (action : (clients base length).step c call c') : Invariant base length c' := by
  change c.next call = some c' at action
  cases call with
  | allocPage =>
    cases result : allocPage c.mem with
    | error halt => simp [Client.next, result] at action
    | ok pair =>
      simp only [Client.next, result, Option.some.injEq] at action
      exact action ▸ alloc_invariant inv result
  | freePage page =>
    cases result : freePage c.mem page with
    | error halt => simp [Client.next, result] at action
    | ok mem =>
      simp only [Client.next, result, Option.some.injEq] at action
      exact action ▸ free_invariant inv page.isLt result

theorem reachable_invariant (baseBound : base < 2 ^ 32) (lengthBound : length < 2 ^ 32)
    (reachable : (clients base length).Reachable c) : Invariant base length c :=
  reachable.invariant (fun _ start => start ▸ invariant_initial baseBound lengthBound)
    fun _ call _ inv => invariant_step call inv

theorem Invariant.allocPage_found (inv : Invariant base length c) (lengthBound : length < 2 ^ 32)
    (room : c.mem.freeStack ≠ [] ∨ ∃ w ∈ c.mem.frames, w ≠ BitVec.allOnes 32) :
    (∃ page mem, allocPage c.mem = .ok (page, mem)) ∨ allocPage c.mem = .error .frameZero ∧ base < pageSize := by
  cases stack : c.mem.freeStack with
  | cons page rest =>
    obtain ⟨mem, call⟩ := allocPage_pop inv.consistent stack
    exact .inl ⟨page, mem, call⟩
  | nil =>
    obtain ⟨w, member, free⟩ := room.resolve_left (by simp [stack])
    obtain ⟨k, inside, rfl⟩ := getElem_of_mem member
    have words := inv.words
    have count : length / pageSize < 2 ^ 32 := by
      unfold pageSize
      omega
    unfold ceilDiv at words
    obtain ⟨⟨i, w⟩, scan⟩ : ∃ found, findWord c.mem.frames (2 ^ 32) (sub32 c.mem.nframes 1 / 32) = .ok found := by
      rw [inv.nframes, sub32_eq (by omega) (by omega)]
      exact findWord_ok (by omega) (by omega) (by omega) ⟨k, inside, by omega, free⟩
    obtain ⟨_, _, clear⟩ := findWord_spec scan
    have bit := ctz_lt clear
    obtain ⟨frames, written, -⟩ := setBit_ok
      (show (i * 32 + (~~~w).ctz.toNat) / 32 < c.mem.frames.length by omega) true
    rw [allocPage, stack]
    simp only [scan, written, kassert, bind, Except.bind]
    split_ifs with nonzero
    · exact .inl ⟨_, _, rfl⟩
    · right
      refine ⟨rfl, ?_⟩
      have zero : c.mem.memBase / pageSize = 0 := by
        simp only [bne_iff_ne, ne_eq, not_not] at nonzero
        exact (Nat.add_eq_zero_iff.mp nonzero).2
      rw [inv.memBase] at zero
      exact (Nat.div_eq_zero_iff_lt (by decide)).mp zero

theorem allocated_pages_exact (baseBound : base < 2 ^ 32) (lengthBound : length < 2 ^ 32)
    (reachable : (clients base length).Reachable c) :
    (∀ page mem, allocPage c.mem = .ok (page, mem) → page ∉ c.allocated) ∧
    (∀ page rest, c.mem.freeStack = page :: rest → ∃ mem, allocPage c.mem = .ok (page, mem)) ∧
    (c.mem.freeStack ≠ [] ∨ (∃ w ∈ c.mem.frames, w ≠ BitVec.allOnes 32) →
      (∃ page mem, allocPage c.mem = .ok (page, mem)) ∨ allocPage c.mem = .error .frameZero ∧ base < pageSize) ∧
    (∀ page, page = 0 ∨ page ∈ c.allocated → ∃ mem, freePage c.mem page = .ok mem) ∧ (∀ page, page ∈ c.allocated ↔
      base / pageSize ≤ page ∧ getBit c.mem.frames (page - base / pageSize) = .ok true) ∧ c.mem.freeStack.Nodup ∧
    (∀ page ∈ c.mem.freeStack, base / pageSize ≤ page ∧ getBit c.mem.frames (page - base / pageSize) = .ok false) ∧
    c.mem.freeStack.length ≤ 128 := by
  have inv := reachable_invariant baseBound lengthBound reachable
  have memBase := inv.memBase
  have marked (i : Nat) : getBit c.mem.frames i = .ok true ↔ test c.mem.frames i = true := by
    by_cases inside : i / 32 < c.mem.frames.length
    · rw [getBit_ok inside, Except.ok.injEq]
    · rw [getBit_error (by omega)]
      simp only [reduceCtorEq, false_iff]
      intro set
      exact inside (index_lt (test_lt (by decide) set))
  refine ⟨?_, ?_, inv.allocPage_found lengthBound, ?_, ?_, inv.consistent.distinct, ?_, inv.consistent.depth⟩
  · intro page mem call member
    obtain ⟨_, marks, _⟩ := allocPage_cases inv.consistent call
    have set := ((inv.marked page).mp member).2
    rw [← memBase, marks.before] at set
    cases set
  · intro page _ stack
    exact allocPage_pop inv.consistent stack
  · rintro page (rfl | member)
    · exact ⟨c.mem, rfl⟩
    · obtain ⟨low, set⟩ := (inv.marked page).mp member
      rw [← memBase] at low set
      exact freePage_ok inv.consistent low set
  · intro page
    rw [inv.marked, marked]
  · intro page member
    obtain ⟨_, low, high, clear⟩ := inv.consistent.clear page member
    rw [memBase] at low high clear
    rw [getBit_ok (index_lt high), clear]
    exact ⟨low, rfl⟩

theorem allocated_pages_exact_reuse :
    ∃ c, (clients 0x100000 0x40000).Reachable c ∧ c.allocated = {288, 290} ∧ c.mem.freeStack = [289] ∧
      (∀ page mem, allocPage c.mem = .ok (page, mem) → page ∉ c.allocated) ∧
      ∃ mem, allocPage c.mem = .ok (289, mem) := by
  -- pages 288 to 290 are handed out; 289 and 288 are freed, and 288 is popped again
  have run : ([.allocPage, .allocPage, .allocPage, .freePage 289, .freePage 288, .allocPage].foldlM Client.next
      ⟨memInit 0x100000 0x40000, ∅⟩).map (fun c => (c.allocated, c.mem.freeStack)) = some ({288, 290}, [289]) := by
    decide +kernel
  obtain ⟨c, computed, equal⟩ := Option.map_eq_some_iff.mp run
  obtain ⟨allocated, stack⟩ := Prod.mk.inj equal
  have reachable : (clients 0x100000 0x40000).Reachable c :=
    System.Reachable.run (fun _ _ _ next => next) (.initial rfl) computed
  obtain ⟨fresh, popped, -⟩ := allocated_pages_exact (by decide) (by decide) reachable
  exact ⟨c, reachable, allocated, stack, fresh, popped 289 [] stack⟩

end Petix.Proof.Mem
