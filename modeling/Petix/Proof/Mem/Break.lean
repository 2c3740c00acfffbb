import Petix.Proof.Mem.Exhaustion
import Petix.Spec.Physical

namespace Petix.Proof.Mem
open List Library Library.Result Kernel.Mem Kernel.Physical Spec.Physical Bitmap

variable {array : List (BitVec 32)} {c : Client} {s s' : State} {base initbrk length most top i k page : Nat}
variable {fuel : Nat} {w : BitVec 32} {c' : Client} {freed : Fin (2 ^ 32)}

theorem findWord_outside (outside : array.length ≤ i) :
    findWord array fuel i ≠ .ok (k, w) := by
  cases fuel with
  | zero => simp [findWord]
  | succ fuel =>
    rw [findWord, word_error outside]
    simp [bind, Except.bind]

theorem findWord_passed (bound : array.length < 2 ^ 32) (inside : i < array.length)
    (found : findWord array fuel i = .ok (k, w)) :
    k ≤ i ∧ ∀ j, k < j → j ≤ i → array[j]? = some (BitVec.allOnes 32) := by
  induction fuel generalizing i with
  | zero => cases found
  | succ fuel ih =>
    rw [findWord, word_ok inside, ok_bind] at found
    split_ifs at found with here
    · cases pure_ok found
      exact ⟨le_rfl, fun j above below => absurd below (Nat.not_le.mpr above)⟩
    · have ones : array[i]? = some (BitVec.allOnes 32) := by
        rw [getElem?_eq_getElem inside]
        exact congrArg some (not_not.mp here)
      cases i with
      | zero =>
        -- past word 0 the index has wrapped and the read is outside
        exact absurd found (findWord_outside (Nat.le_of_lt_succ bound))
      | succ i =>
        rw [sub32_eq (Nat.le_add_left 1 i) (by omega), Nat.add_sub_cancel] at found
        obtain ⟨_, passed⟩ := ih (by omega) found
        refine ⟨by omega, fun j above below => ?_⟩
        by_cases last : j = i + 1
        · rw [last, ones]
        · exact passed j above (by omega)

theorem test_ones (ones : array[i / 32]? = some (BitVec.allOnes 32)) : test array i = true := by
  rw [test, ones, Option.getD_some, BitVec.getLsbD_allOnes]
  exact decide_eq_true (Nat.mod_lt i (by decide))

theorem Invariant.allocPage_low (inv : Invariant base length c) (lengthBound : length < 2 ^ 32)
    (empty : c.mem.freeStack = []) {mem : Frames} (call : allocPage c.mem = .ok (page, mem))
    (few : c.allocated.card < most) : lowestPage base length most ≤ page := by
  have small : c.mem.frames.length * 32 < 2 ^ 32 := Nat.lt_of_le_of_lt (Nat.le_add_left _ _) inv.consistent.small
  obtain ⟨-, marks, -⟩ := allocPage_cases inv.consistent call
  have some_frame : pageSize ≤ length := by
    by_contra none
    have high := marks.high
    rw [inv.words, ceilDiv, Nat.div_eq_of_lt (Nat.lt_of_not_le none)] at high
    simp at high
  have last := inv.lastWord lengthBound some_frame
  rw [allocPage, empty] at call
  obtain ⟨⟨k, _⟩, scan, call⟩ := bind_ok call
  obtain ⟨frames, -, call⟩ := bind_ok call
  obtain ⟨_, -, call⟩ := bind_ok call
  cases pure_ok call
  obtain ⟨-, passed⟩ := findWord_passed (by omega) (by omega) scan
  -- the words above word `k` are full
  have above : (Finset.Ico (32 * (k + 1)) (32 * c.mem.frames.length)).image (base / pageSize + ·) ⊆ c.allocated := by
    intro _ member
    obtain ⟨j, inside, rfl⟩ := Finset.mem_image.mp member
    obtain ⟨_, _⟩ := Finset.mem_Ico.mp inside
    refine (inv.marked _).mpr ⟨Nat.le_add_right _ _, ?_⟩
    rw [Nat.add_sub_cancel_left]
    exact test_ones (passed (j / 32) (by omega) (by omega))
  have count := Finset.card_le_card above
  rw [Finset.card_image_of_injective _ (fun a b same => Nat.add_left_cancel same), Nat.card_Ico] at count
  rw [lowestPage, ← inv.words, ceilDiv, inv.memBase]
  omega

theorem next_allocPage (step : c.next .allocPage = some c') :
    ∃ page mem, allocPage c.mem = .ok (page, mem) ∧ c' = ⟨mem, insert page c.allocated⟩ := by
  cases result : allocPage c.mem with
  | error halt => simp [Client.next, result] at step
  | ok pair => exact ⟨pair.1, pair.2, rfl, by simpa [Client.next, result] using step.symm⟩

theorem next_freePage (step : c.next (.freePage freed) = some c') :
    ∃ mem, freePage c.mem freed = .ok mem ∧ c' = ⟨mem, c.allocated.erase freed.val⟩ := by
  cases result : freePage c.mem freed with
  | error halt => simp [Client.next, result] at step
  | ok mem => exact ⟨mem, rfl, by simpa [Client.next, result] using step.symm⟩

structure Reserve (base length most top : Nat) (s : State) : Prop where
  pages : Invariant base length s.pages
  taken : ∀ p, p ∈ s.pages.allocated ∨ p ∈ s.pages.mem.freeStack → lowestPage base length most ≤ p
  below : s.pages.allocated = ∅ ∨ s.breakptr ≤ top

section
variable (reserve : Reserve base length most top s)
include reserve

theorem Reserve.alloc (lengthBound : length < 2 ^ 32) (few : s.pages.allocated.card < most) (below : s.breakptr ≤ top)
    (step : (clients base length).step s.pages .allocPage c) : Reserve base length most top { s with pages := c } := by
  have inv := invariant_step .allocPage reserve.pages step
  obtain ⟨page, _, call, rfl⟩ := next_allocPage step
  obtain ⟨-, -, stack⟩ := allocPage_cases reserve.pages.consistent call
  have low : lowestPage base length most ≤ page := by
    rcases stack with popped | ⟨empty, -⟩
    · exact reserve.taken page (.inr (by simp [popped]))
    · exact reserve.pages.allocPage_low lengthBound empty call few
  refine ⟨inv, ?_, .inr below⟩
  rintro p (member | member)
  · rcases Finset.mem_insert.mp member with rfl | old
    · exact low
    · exact reserve.taken p (.inl old)
  · refine reserve.taken p (.inr ?_)
    rcases stack with popped | ⟨-, empty⟩
    · rw [popped]
      exact .tail _ member
    · rw [empty] at member
      cases member

theorem Reserve.free
    (step : (clients base length).step s.pages (.freePage freed) c) :
    Reserve base length most top { s with pages := c } := by
  have inv := invariant_step (.freePage freed) reserve.pages step
  obtain ⟨_, call, rfl⟩ := next_freePage step
  refine ⟨inv, ?_, ?_⟩
  · rintro p (member | member)
    · exact reserve.taken p (.inl (Finset.mem_of_mem_erase member))
    · by_cases zero : freed.val = 0
      · rw [freePage, if_pos zero] at call
        cases call
        exact reserve.taken p (.inr member)
      · obtain ⟨marks, stack⟩ := freePage_cases reserve.pages.consistent freed.isLt zero call
        have was : freed.val ∈ s.pages.allocated := by
          rw [reserve.pages.marked, ← reserve.pages.memBase]
          exact ⟨marks.low, marks.before⟩
        rw [stack] at member
        split_ifs at member
        · rcases mem_cons.mp member with rfl | old
          · exact reserve.taken _ (.inl was)
          · exact reserve.taken p (.inr old)
        · exact reserve.taken p (.inr member)
  · rcases reserve.below with none | below
    · left
      rw [none]
      rfl
    · exact .inr below

theorem Reserve.step {action : Action} (lengthBound : length < 2 ^ 32)
    (step : ((memory base initbrk length).restrict (Budget most top)).step s action s') :
    Reserve base length most top s' := by
  obtain ⟨allowed, step⟩ := step
  obtain ⟨_, heap'⟩ := s'
  cases action with
  | pages call =>
    obtain ⟨step, rfl⟩ := step
    cases call with
    | allocPage => exact reserve.alloc lengthBound allowed.1 allowed.2 step
    | freePage freed => exact reserve.free step
  | heap call =>
    obtain ⟨⟨-, called, -⟩, rfl⟩ := step
    exact ⟨reserve.pages, reserve.taken, .inr (allowed heap' called)⟩

theorem Reserve.apart
    (room : top ≤ pageSize * lowestPage base length most) : Apart base s := by
  rintro - member a rfl ⟨-, below⟩
  rcases reserve.below with none | _
  · rw [none] at member
    cases member
  · have low := reserve.taken _ (.inl member)
    have start := Nat.mul_div_le a pageSize
    have reach := Nat.mul_le_mul_left pageSize low
    omega

end

theorem pages_and_heap_apart (baseBound : base < 2 ^ 32) (lengthBound : length < 2 ^ 32)
    (room : top ≤ pageSize * lowestPage base length most)
    (reachable : ((memory base initbrk length).restrict (Budget most top)).Reachable s) : Apart base s := by
  have reserve : Reserve base length most top s := by
    apply reachable.invariant
    · rintro s ⟨start, -⟩
      refine ⟨start ▸ invariant_initial baseBound lengthBound, ?_, .inl (by rw [start])⟩
      rw [start]
      rintro _ (member | member)
      · cases member
      · cases member
    · intro _ _ _ reserve step
      exact reserve.step lengthBound step
  exact reserve.apart room

def small : State where
  pages := ⟨memInit 0x100000 0x40000, ∅⟩
  heap := ⟨⟨fun _ => 0, 0, 0x110008⟩, []⟩

theorem small_initial : (memory 0x100000 0x110000 0x40000).initial small := by
  refine ⟨rfl, rfl, rfl, rfl, ?_, ?_⟩
  · decide
  · decide

theorem pages_and_heap_apart_small :
    ∃ s, ((memory 0x100000 0x110000 0x40000).restrict (Budget 32 0x120000)).Reachable s ∧
      s.pages.allocated = {288, 289} ∧ s.breakptr = 0x111020 ∧ Apart 0x100000 s := by
  have run : ([.pages .allocPage, .heap (.kmalloc 0x1000), .pages .allocPage].foldlM
      (fun s a => if Budget 32 0x120000 s a then State.next s a else none) small).map
      (fun s => (s.pages.allocated, s.breakptr)) = some ({288, 289}, 0x111020) := by
    decide +kernel
  obtain ⟨s, computed, equal⟩ := Option.map_eq_some_iff.mp run
  obtain ⟨pages, top⟩ := Prod.mk.inj equal
  have reachable : ((memory 0x100000 0x110000 0x40000).restrict (Budget 32 0x120000)).Reachable s :=
    System.Reachable.leadsTo (.initial small_initial)
      (System.leadsTo_run_guarded (State.next_sound 0x100000 0x110000 0x40000) computed)
  exact ⟨s, reachable, pages, top, pages_and_heap_apart (by decide) (by decide) (by decide) reachable⟩

theorem heap_grows_over_page : ∃ s, (memory 0x100000 0x110000 0x40000).Reachable s ∧ s.pages.allocated = {288, 289} ∧
      s.breakptr = 0x130020 ∧ ¬ Apart 0x100000 s := by
  have run : ([.pages .allocPage, .heap (.kmalloc 0x20000), .pages .allocPage].foldlM State.next small).map
      (fun s => (s.pages.allocated, s.breakptr)) = some ({288, 289}, 0x130020) := by
    decide +kernel
  obtain ⟨s, computed, equal⟩ := Option.map_eq_some_iff.mp run
  obtain ⟨pages, top⟩ := Prod.mk.inj equal
  refine ⟨s, System.Reachable.run (State.next_sound 0x100000 0x110000 0x40000) (.initial small_initial) computed,
    pages, top, ?_⟩
  intro apart
  refine apart 288 (by simp [pages]) (288 * 4096) (by decide) ⟨by decide, ?_⟩
  rw [top]
  decide

end Petix.Proof.Mem
