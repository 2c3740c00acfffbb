import Petix.Proof.Mem.Runs

namespace Petix.Proof.Mem
open List Library Kernel.Mem Bitmap

variable {base length k : Nat}

def taken (base length k : Nat) : Frames where
  memBase := base
  nframes := length / pageSize
  frames := replicate ((length / pageSize - 1) / 32) 0#32 ++ [BitVec.ofNat 32 (2 ^ k - 1)]
  freeStack := []

private theorem low_ones (k : Fin 32) : BitVec.ofNat 32 (2 ^ k.val - 1) ≠ BitVec.allOnes 32 ∧
      (~~~BitVec.ofNat 32 (2 ^ k.val - 1)).ctz.toNat = k.val ∧
      BitVec.ofNat 32 (2 ^ k.val - 1) ||| 1#32 <<< k.val = BitVec.ofNat 32 (2 ^ (k.val + 1) - 1) := by
  revert k
  decide +kernel

theorem memInit_eq_taken (some_frame : pageSize ≤ length) : memInit base length = taken base length 0 := by
  have words : ceilDiv (length / pageSize) 32 = (length / pageSize - 1) / 32 + 1 := by
    have := Nat.div_pos some_frame (by decide)
    unfold ceilDiv
    omega
  rw [memInit, words, replicate_succ']
  rfl

theorem allocPage_taken (base : Nat) (some_frame : pageSize ≤ length) (bound : length < 2 ^ 32) (room : k < 32) :
    allocPage (taken base length k) =
      if (length / pageSize - 1) / 32 * 32 + k + base / pageSize = 0 then .error .frameZero
      else .ok ((length / pageSize - 1) / 32 * 32 + k + base / pageSize, taken base length (k + 1)) := by
  obtain ⟨free, bit, marked⟩ := low_ones ⟨k, room⟩
  have start : sub32 (length / pageSize) 1 / 32 = (length / pageSize - 1) / 32 := by
    rw [sub32_eq (Nat.div_pos some_frame (by decide)) (Nat.lt_of_le_of_lt (Nat.div_le_self _ _) bound)]
  simp only [allocPage, taken, start]
  generalize (length / pageSize - 1) / 32 = last at *
  have read : word (replicate last 0#32 ++ [BitVec.ofNat 32 (2 ^ k - 1)]) last =
      .ok (BitVec.ofNat 32 (2 ^ k - 1)) := by
    simp [word]
  have scan : findWord (replicate last 0#32 ++ [BitVec.ofNat 32 (2 ^ k - 1)]) (2 ^ 32) last =
      .ok (last, BitVec.ofNat 32 (2 ^ k - 1)) := by
    rw [show 2 ^ 32 = 2 ^ 32 - 1 + 1 from rfl, findWord, read]
    simp only [bind, Except.bind, if_pos free]
    rfl
  have div : (last * 32 + k) / 32 = last := by omega
  have mod : (last * 32 + k) % 32 = k := by omega
  have written : setBit (replicate last 0#32 ++ [BitVec.ofNat 32 (2 ^ k - 1)]) (last * 32 + k) true =
      .ok (replicate last 0#32 ++ [BitVec.ofNat 32 (2 ^ (k + 1) - 1)]) := by
    simp only [setBit, div, mod, read, bind, Except.bind, if_true, marked, pure, Except.pure]
    simp
  simp only [scan, bit, written, kassert, bind, Except.bind]
  by_cases zero : last * 32 + k + base / pageSize = 0
  · rw [if_pos zero, if_neg (by simp [zero])]
  · rw [if_neg zero, if_pos (bne_iff_ne.mpr zero)]
    rfl

theorem taken_reachable (some_frame : pageSize ≤ length) (bound : length < 2 ^ 32)
    (nonzero : 0 < (length / pageSize - 1) / 32 + base / pageSize) (room : k ≤ 32) :
    ∃ allocated, (clients base length).Reachable ⟨taken base length k, allocated⟩ := by
  induction k with
  | zero => exact ⟨∅, .initial (by rw [← memInit_eq_taken some_frame]; rfl)⟩
  | succ k ih =>
    obtain ⟨allocated, reachable⟩ := ih (by omega)
    have call := allocPage_taken base some_frame bound (show k < 32 by omega)
    rw [if_neg (by omega)] at call
    refine ⟨insert ((length / pageSize - 1) / 32 * 32 + k + base / pageSize) allocated,
      reachable.next (a := .allocPage) ?_⟩
    simp only [clients, Client.next, call]

theorem pages_in_range_iff (baseBound : base < 2 ^ 32) (lengthBound : length < 2 ^ 32)
    (some_frame : 1 ≤ length / pageSize) :
    (∀ c, (clients base length).Reachable c → ∀ page mem, allocPage c.mem = .ok (page, mem) →
      base / pageSize ≤ page ∧ page < base / pageSize + length / pageSize) ↔
    length / pageSize % 32 = 0 ∨ base < pageSize ∧ length / pageSize < 32 := by
  have some_length : pageSize ≤ length := (Nat.div_pos_iff.mp some_frame).2
  constructor
  · intro inRange
    by_contra bad
    have nonzero : 0 < (length / pageSize - 1) / 32 + base / pageSize := by
      by_cases high : pageSize ≤ base
      · exact Nat.add_pos_right _ (Nat.div_pos high (by decide))
      · exact Nat.add_pos_left (by omega) _
    -- the bits of the last word below `nframes % 32` are taken; the next one is past the last frame
    obtain ⟨_, reachable⟩ := taken_reachable (k := length / pageSize % 32) some_length lengthBound nonzero
      (by omega)
    have call := allocPage_taken base some_length lengthBound
      (show length / pageSize % 32 < 32 from Nat.mod_lt _ (by decide))
    rw [if_neg (by omega)] at call
    have high := (inRange _ reachable _ _ call).2
    omega
  · rintro (_ | ⟨low, _⟩) c reachable _ _ call
    · have inv := reachable_invariant baseBound lengthBound reachable
      obtain ⟨_, marks, _⟩ := allocPage_cases inv.consistent call
      have low := marks.low
      have high := marks.high
      have words := inv.words
      rw [inv.memBase] at low high
      unfold ceilDiv at words
      omega
    · -- the first call stops at `kassert(frame != 0)`, so no run gets past the empty bitmap
      have halt : allocPage (memInit base length) = .error .frameZero := by
        rw [memInit_eq_taken some_length, allocPage_taken base some_length lengthBound (by decide),
          Nat.div_eq_of_lt low, if_pos (by omega)]
      have fresh : c = ⟨memInit base length, ∅⟩ := by
        refine System.Reachable.invariant (fun _ start => start) ?_ reachable
        rintro _ (_ | freed) _ rfl action
        · simp only [clients, Client.next, halt, reduceCtorEq] at action
        · have inv := invariant_initial baseBound lengthBound
          by_cases zero : freed.val = 0
          · simp only [clients, Client.next, freePage, if_pos zero, Finset.erase_empty, Option.some.injEq] at action
            exact action.symm
          · cases free : freePage (memInit base length) freed with
            | error => simp only [clients, Client.next, free, reduceCtorEq] at action
            | ok s =>
              obtain ⟨marks, -⟩ := freePage_cases inv.consistent freed.isLt zero free
              exact absurd ((inv.marked freed).mpr ⟨marks.low, marks.before⟩) (by simp)
      rw [fresh, halt] at call
      cases call

theorem pages_in_range_iff_whole_words : 0x40000 / pageSize = 2 * 32 ∧
    ∀ c, (clients 0x100000 0x40000).Reachable c → ∀ page mem, allocPage c.mem = .ok (page, mem) →
      0x100 ≤ page ∧ page < 0x140 :=
  ⟨by decide, (pages_in_range_iff (by decide) (by decide) (by decide)).mpr (.inl (by decide))⟩

theorem page_past_last_frame :
    ¬ ∀ c, (clients 0x100000 0x21000).Reachable c → ∀ page mem, allocPage c.mem = .ok (page, mem) →
      0x100000 / pageSize ≤ page ∧ page < 0x100000 / pageSize + 0x21000 / pageSize := by
  intro inRange
  have run : (Client.next ⟨memInit 0x100000 0x21000, ∅⟩ .allocPage).bind
      (fun c => (allocPage c.mem).toOption.map Prod.fst) = some 0x121 := by
    decide +kernel
  obtain ⟨c, first, second⟩ := Option.bind_eq_some_iff.mp run
  have reachable : (clients 0x100000 0x21000).Reachable c := .next (.initial rfl) first
  cases call : allocPage c.mem with
  | error => simp [call, Except.toOption] at second
  | ok result =>
    simp only [call, Except.toOption, Option.map_some, Option.some.injEq] at second
    have high := (inRange c reachable result.1 result.2 call).2
    rw [second] at high
    exact absurd high (by decide)

end Petix.Proof.Mem
