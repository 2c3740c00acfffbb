import Petix.Proof.Mem.Runs
import Petix.Spec.Mem
import Petix.Library.Result
import Mathlib.Data.Finset.Card
import Mathlib.Order.Interval.Finset.Nat

namespace Petix.Proof.Mem
open List Library Kernel.Mem Spec.Mem Bitmap Result

variable {array : List (BitVec 32)} {s : Frames} {c : Client} {base length i : Nat}

theorem findWord_eq_scan (array : List (BitVec 32)) (fuel i : Nat) :
    findWord array fuel i = match (scanWords array fuel i).2 with
      | .found k w => .ok (k, w)
      | .outside k => .error (.outOfBounds k)
      | .panic | .endless => .error .endless := by
  induction fuel generalizing i with
  | zero => rfl
  | succ fuel ih =>
    rw [findWord, scanWords, if_pos (Nat.zero_le i)]
    unfold word
    cases array[i]? with
    | none => rfl
    | some w =>
      by_cases free : w ≠ BitVec.allOnes 32
      · simp only [ok_bind, if_pos free, pure, Except.pure]
      · simp only [ok_bind, if_neg free]
        exact ih _

theorem allocPage_outside (empty : s.freeStack = [])
    (scan : (scanWords s.frames (2 ^ 32) (sub32 s.nframes 1 / 32)).2 = .outside i) :
    allocPage s = .error (.outOfBounds i) := by
  have found := findWord_eq_scan s.frames (2 ^ 32) (sub32 s.nframes 1 / 32)
  rw [scan] at found
  rw [allocPage, empty]
  simp only [found, bind, Except.bind]

theorem scanWords_full (ones : ∀ w ∈ array, w = BitVec.allOnes 32) (bound : array.length < 2 ^ 32)
    (inside : i < array.length) {fuel : Nat} (enough : i + 1 < fuel) :
    scanWords array fuel i = ((range (i + 1)).reverse ++ [2 ^ 32 - 1], .outside (2 ^ 32 - 1)) := by
  induction i generalizing fuel with
  | zero =>
    obtain ⟨fuel, rfl⟩ := Nat.exists_eq_add_of_lt enough
    have here := ones _ (getElem_mem inside)
    have past : array[2 ^ 32 - 1]? = none := getElem?_eq_none (by omega)
    have wrapped : sub32 0 1 = 2 ^ 32 - 1 := rfl
    simp only [Nat.zero_add, Nat.add_comm 1, scanWords, Nat.zero_le, if_true, getElem?_eq_getElem inside, here,
      ne_eq, not_true_eq_false, if_false, wrapped, past]
    rfl
  | succ i ih =>
    obtain ⟨-, rfl⟩ := Nat.exists_eq_add_of_lt enough
    have here := ones _ (getElem_mem inside)
    have down : sub32 (i + 1) 1 = i := sub32_eq (Nat.le_add_left 1 i) (by omega)
    rw [scanWords, if_pos (Nat.zero_le _), getElem?_eq_getElem inside]
    simp only [here, ne_eq, not_true_eq_false, if_false, down]
    rw [ih (by omega) (by omega), range_succ (n := i + 1), reverse_append]
    rfl

section
variable (inv : Invariant base length c)
include inv

theorem Invariant.lastWord (lengthBound : length < 2 ^ 32)
    (some_frame : pageSize ≤ length) : sub32 c.mem.nframes 1 / 32 + 1 = c.mem.frames.length := by
  have words := inv.words
  unfold ceilDiv pageSize at words
  unfold pageSize at some_frame
  rw [inv.nframes, pageSize, sub32_eq (by omega) (by omega), words]
  omega

theorem Invariant.not_panics (lengthBound : length < 2 ^ 32) (full : Full c.mem) : ¬ Panics c.mem := by
  have small : c.mem.frames.length * 32 < 2 ^ 32 := Nat.lt_of_le_of_lt (Nat.le_add_left _ _) inv.consistent.small
  intro panics
  unfold Panics at panics
  by_cases some_frame : pageSize ≤ length
  · have last := inv.lastWord lengthBound some_frame
    rw [scanWords_full full.2 (by omega) (by omega) (by omega)] at panics
    cases congrArg Prod.snd panics
  · -- there is no word at all
    have none : c.mem.frames.length = 0 := by rw [inv.words, ceilDiv, Nat.div_eq_of_lt (Nat.lt_of_not_le some_frame)]
    rw [show 2 ^ 32 = 2 ^ 32 - 1 + 1 from rfl, scanWords, if_pos (Nat.zero_le _),
      getElem?_eq_none (by omega)] at panics
    cases congrArg Prod.snd panics

theorem Invariant.allocated_subset :
    c.allocated ⊆ (Finset.range (c.mem.frames.length * 32)).image (base / pageSize + ·) := by
  intro p member
  obtain ⟨_, set⟩ := (inv.marked p).mp member
  refine Finset.mem_image.mpr ⟨p - base / pageSize, ?_, by omega⟩
  exact Finset.mem_range.mpr (test_lt (by decide) set)

theorem Invariant.card_le : c.allocated.card ≤ c.mem.frames.length * 32 := by
  refine (Finset.card_le_card inv.allocated_subset).trans (Finset.card_image_le.trans ?_)
  rw [Finset.card_range]

end

theorem alloc_fresh (baseBound : base < 2 ^ 32) (lengthBound : length < 2 ^ 32) (nonzero : pageSize ≤ base)
    (reachable : (clients base length).Reachable c) (empty : c.mem.freeStack = []) (clear : ¬ Full c.mem) :
    ∃ c', (clients base length).Reachable c' ∧ c'.mem.freeStack = [] ∧
      c'.mem.frames.length = c.mem.frames.length ∧ c'.allocated.card = c.allocated.card + 1 := by
  have inv := reachable_invariant baseBound lengthBound reachable
  have room : ∃ w ∈ c.mem.frames, w ≠ BitVec.allOnes 32 := by
    by_contra none
    refine clear ⟨empty, fun w member => ?_⟩
    by_contra other
    exact none ⟨w, member, other⟩
  rcases inv.allocPage_found lengthBound (.inr room) with ⟨page, mem, call⟩ | ⟨-, _⟩
  · obtain ⟨-, marks, stack⟩ := allocPage_cases inv.consistent call
    have fresh : page ∉ c.allocated := by
      intro member
      have set := ((inv.marked page).mp member).2
      rw [← inv.memBase, marks.before] at set
      cases set
    refine ⟨⟨mem, insert page c.allocated⟩, reachable.next (a := .allocPage) ?_, ?_, marks.words, ?_⟩
    · change c.next .allocPage = _
      rw [Client.next, call]
    · rcases stack with popped | ⟨-, empty'⟩
      · rw [empty] at popped
        cases popped
      · exact empty'
    · exact Finset.card_insert_of_notMem fresh
  · omega

theorem full_reachable (baseBound : base < 2 ^ 32) (lengthBound : length < 2 ^ 32) (nonzero : pageSize ≤ base)
    (left : Nat) (reachable : (clients base length).Reachable c) (empty : c.mem.freeStack = [])
    (room : c.mem.frames.length * 32 ≤ c.allocated.card + left) :
    ∃ c', (clients base length).Reachable c' ∧ Full c'.mem := by
  induction left generalizing c with
  | zero =>
    by_cases full : Full c.mem
    · exact ⟨c, reachable, full⟩
    · obtain ⟨c', reachable', -, words, card⟩ := alloc_fresh baseBound lengthBound nonzero reachable empty full
      have most := (reachable_invariant baseBound lengthBound reachable').card_le
      omega
  | succ left ih =>
    by_cases full : Full c.mem
    · exact ⟨c, reachable, full⟩
    · obtain ⟨_, reachable', empty', _, _⟩ := alloc_fresh baseBound lengthBound nonzero reachable empty full
      exact ih reachable' empty' (by omega)

theorem Invariant.not_full (inv : Invariant base length c) (low : base < pageSize) (some_frame : pageSize ≤ length) :
    ¬ Full c.mem := by
  rintro ⟨-, ones⟩
  have inside : 0 < c.mem.frames.length := by
    rw [inv.words, ceilDiv]
    unfold pageSize at some_frame ⊢
    omega
  have set : test c.mem.frames 0 = true := by
    rw [test_eq (by simpa using inside), get_eq_getElem, ones _ (getElem_mem _)]
    rfl
  refine inv.nonzero ((inv.marked 0).mpr ?_)
  rw [Nat.div_eq_of_lt low]
  exact ⟨Nat.zero_le _, set⟩

theorem full_scan_panics_iff (baseBound : base < 2 ^ 32) (lengthBound : length < 2 ^ 32) :
    (∀ c, (clients base length).Reachable c → Full c.mem → Panics c.mem) ↔ base < pageSize ∧ pageSize ≤ length := by
  constructor
  · intro panics
    by_contra other
    obtain ⟨c, reachable, full⟩ : ∃ c, (clients base length).Reachable c ∧ Full c.mem := by
      by_cases some_frame : pageSize ≤ length
      · exact full_reachable baseBound lengthBound (by omega) _ (.initial rfl) rfl (Nat.le_add_left _ _)
      · refine ⟨_, .initial rfl, rfl, ?_⟩
        simp [memInit, Nat.div_eq_of_lt (Nat.lt_of_not_le some_frame), ceilDiv]
    exact (reachable_invariant baseBound lengthBound reachable).not_panics lengthBound full (panics c reachable full)
  · rintro ⟨low, some_frame⟩ _ reachable full
    exact absurd full ((reachable_invariant baseBound lengthBound reachable).not_full low some_frame)

theorem full_scan_panics_only_low : (∀ c, (clients 0 0x40000).Reachable c → Full c.mem → Panics c.mem) ∧
      ¬ ∀ c, (clients 0x100000 0x40000).Reachable c → Full c.mem → Panics c.mem :=
  ⟨(full_scan_panics_iff (by decide) (by decide)).mpr (by decide),
    fun panics => absurd ((full_scan_panics_iff (by decide) (by decide)).mp panics) (by decide)⟩

theorem full_scan_leaves_bitmap : ∃ c, (clients 0x100000 0x20000).Reachable c ∧ Full c.mem ∧ ¬ Panics c.mem ∧
      scanWords c.mem.frames (2 ^ 32) (sub32 c.mem.nframes 1 / 32) = ([0, 0xffffffff], .outside 0xffffffff) ∧
      allocPage c.mem = .error (.outOfBounds 0xffffffff) := by
  have run : ((replicate 32 Call.allocPage).foldlM Client.next ⟨memInit 0x100000 0x20000, ∅⟩).map
      (fun c => (c.mem.freeStack, c.mem.frames, c.mem.nframes)) = some ([], [BitVec.allOnes 32], 32) := by
    decide +kernel
  obtain ⟨c, computed, equal⟩ := Option.map_eq_some_iff.mp run
  obtain ⟨stack, frames, number⟩ := by simpa only [Prod.mk.injEq] using equal
  have reachable : (clients 0x100000 0x20000).Reachable c :=
    System.Reachable.run (fun _ _ _ next => next) (.initial rfl) computed
  have full : Full c.mem := ⟨stack, by simp [frames]⟩
  have scan : scanWords c.mem.frames (2 ^ 32) (sub32 c.mem.nframes 1 / 32) =
      ([0, 0xffffffff], .outside 0xffffffff) := by
    have last : sub32 32 1 / 32 = 0 := by decide
    rw [number, frames, last, scanWords_full (by simp) (by decide) (by decide) (by decide)]
    simp
  refine ⟨c, reachable, full, ?_, scan, ?_⟩
  · exact (reachable_invariant (by decide) (by decide) reachable).not_panics (by decide) full
  · exact allocPage_outside stack (congrArg Prod.snd scan)

end Petix.Proof.Mem
