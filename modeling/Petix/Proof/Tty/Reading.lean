import Petix.Proof.Tty.Input

namespace Petix.Proof.Tty
open Library Kernel.Tty Spec.Tty

variable {t : PetixTty} {count n : Nat}

def advance (t : PetixTty) (n : Nat) : PetixTty := { t with fbase := (t.fbase + n) % ttyBuffLen }

theorem advance_ordered (ordered : Ordered t) (within : n ≤ (committed t).length) :
    Ordered (advance t n) ∧ committed (advance t n) = (committed t).drop n ∧ current (advance t n) = current t := by
  rw [committed, Ring.length_contents] at within
  have shorter := (Ring.length_drop ordered.fbase ordered.lbase within).2
  have cyclic := ordered.cyclic
  refine ⟨⟨Ring.add_lt ordered.fbase n, ordered.lbase, ordered.loff, ?_⟩,
    Ring.contents_drop ordered.fbase ordered.lbase within, by simp only [current, advance]⟩
  dsimp only [advance]
  omega

theorem take_committed (t : PetixTty) (n : Nat) : (committed t).take n =
    (List.range (min n (committed t).length)).map fun i => t.buffer ((t.fbase + i) % ttyBuffLen) := by
  rw [committed, Ring.length_contents, Ring.contents, ← List.map_take, List.take_range]

theorem slice_eq {start : Nat} (within : start + n ≤ ttyBuffLen) :
    t.slice start n = (List.range n).map fun i => t.buffer ((start + i) % ttyBuffLen) := by
  apply List.map_congr_left
  intro _ less
  rw [Nat.mod_eq_of_lt (by have := List.mem_range.mp less; omega)]

theorem copySection_eq (fbase : t.fbase < ttyBuffLen) (lbase : t.lbase < ttyBuffLen) (count : Nat) :
    copySection t count = (advance t (min count (committed t).length), (committed t).take count) := by
  have size : (committed t).length = _ := Ring.length_contents.trans (Ring.length_eq fbase lbase)
  rw [take_committed]
  rcases Nat.lt_trichotomy t.fbase t.lbase with ahead | _ | behind
  · have length : min count (committed t).length = min (t.lbase - t.fbase) count := by
      rw [size, if_pos (by omega), Nat.min_comm]
    rw [copySection, if_pos ahead, length]
    dsimp only
    rw [slice_eq (by omega), advance, Nat.mod_eq_of_lt (by omega)]
  · have length : min count (committed t).length = 0 := by
      rw [size, if_pos (by omega)]
      omega
    rw [copySection, if_neg (by omega), if_neg (by omega), length, advance, Nat.add_zero, Nat.mod_eq_of_lt fbase]
    rfl
  · have length : min count (committed t).length =
        min (ttyBuffLen - t.fbase) count + min t.lbase (count - min (ttyBuffLen - t.fbase) count) := by
      rw [size, if_neg (by omega)]
      omega
    rw [copySection, if_neg (by omega), if_pos behind, length]
    dsimp only
    rw [slice_eq (by omega), slice_eq (by omega), advance, Nat.mod_add_mod, Nat.add_assoc, List.range_add,
      List.map_append, List.map_map]
    congr 2
    apply List.map_congr_left
    intro i less
    rw [List.mem_range] at less
    -- The second half is not empty, so that the first one ends with the buffer.
    rw [Function.comp_apply, show t.fbase + (min (ttyBuffLen - t.fbase) count + i) = 0 + i + ttyBuffLen by omega,
      Nat.add_mod_right]

theorem copy_step_cyclic {t : PetixTty} (fbase : t.fbase < ttyBuffLen) (lbase : t.lbase < ttyBuffLen)
    (unread : t.fbase ≠ t.lbase) {count : Nat} (wanted : 0 < count) :
    let m := min count ((t.lbase + ttyBuffLen - t.fbase) % ttyBuffLen)
    copySection t count = ({ t with fbase := (t.fbase + m) % ttyBuffLen },
        (List.range m).map fun i => t.buffer ((t.fbase + i) % ttyBuffLen)) ∧
      ∀ s copied front, s.tty = t → (copied ++ (copySection t count).2).getLast? ≠ some sendChar →
        readPass s count copied front = { s with
          tty := (copySection t count).1
          phase := if m < count then .waiting (count - m) (copied ++ (copySection t count).2) front
            else .ending (copied ++ (copySection t count).2) } := by
  intro m
  have length : (committed t).length = (t.lbase + ttyBuffLen - t.fbase) % ttyBuffLen := Ring.length_contents
  have some : 0 < m := by
    have := mt (Ring.length_eq_zero_iff fbase lbase).mp (Ne.symm unread)
    unfold Ring.length at this
    omega
  have copy : copySection t count =
      (advance t m, (List.range m).map fun i => t.buffer ((t.fbase + i) % ttyBuffLen)) := by
    rw [copySection_eq fbase lbase, take_committed, length]
  refine ⟨copy, ?_⟩
  rintro s copied - rfl last
  rw [readPass, copy] at *
  have stored : copied ++ (List.range m).map (fun i => s.tty.buffer ((s.tty.fbase + i) % ttyBuffLen)) ≠ [] := by
    simp only [ne_eq, List.append_eq_nil_iff, List.map_eq_nil_iff, List.range_eq_nil]
    omega
  dsimp only at last ⊢
  rw [List.getLast?_eq_some_getLast stored, Ne, Option.some.injEq] at last
  rw [List.getLast?_eq_some_getLast stored, Option.getD_some, if_neg last, List.length_map, List.length_range]
  by_cases more : m < count
  · rw [if_pos more, if_pos (Nat.sub_pos_of_lt more)]
  · rw [if_neg more, if_neg (by omega)]

theorem copy_step_cyclic_wrapped :
    copySection { petixTtyInit with fbase := 2047, lbase := 2, buffer := fun i => BitVec.ofNat 8 i } 2 =
      ({ petixTtyInit with fbase := 1, lbase := 2, buffer := fun i => BitVec.ofNat 8 i }, [255#8, 0#8]) :=
  (copy_step_cyclic (by decide) (by decide) (by decide) (by decide)).1

theorem copied_ordered (ordered : Ordered t) (count : Nat) : Ordered (advance t (min count (committed t).length)) ∧
      committed (advance t (min count (committed t).length)) = (committed t).drop count ∧
      current (advance t (min count (committed t).length)) = current t := by
  obtain ⟨ordered, remaining, line⟩ := advance_ordered ordered (Nat.min_le_right count (committed t).length)
  refine ⟨ordered, remaining.trans ?_, line⟩
  rw [List.drop_eq_drop_iff, Nat.min_assoc, Nat.min_self]

theorem skipMarker_eq (ordered : Ordered t) {ch : Byte} {rest : List Byte} (head : committed t = ch :: rest) :
    skipMarker t = if ch = sendChar then advance t 1 else t := by
  have some : t.lbase ≠ t.fbase := by
    rw [Ne, ← committed_eq_nil_iff ordered, head]
    exact List.cons_ne_nil ch rest
  rw [committed, Ring.contents_pop ordered.fbase ordered.lbase some] at head
  rw [skipMarker, (List.cons.inj head).1]
  rfl

inductive Moves (s : Session) : Event → Session → Prop
  | input {seq : Seq} {tty : PetixTty} (run : petixTtyInputSeq s.tty seq = .ok tty) :
      Moves s (.input seq) { s with tty }
  | read {count : Nat} {front : Byte} (phase : s.phase = .idle) :
      Moves s (.read count front) { s with phase := if 0 < count then .loop count [] front else .ending [] }
  | pass {count : Nat} {copied : List Byte} {front : Byte} (phase : s.phase = .loop count copied front) :
      Moves s .pass (readPass s count copied front)
  | wake {count : Nat} {copied : List Byte} {front : Byte} (phase : s.phase = .waiting count copied front) :
      Moves s .wake { s with phase := .loop count copied front }
  | finish {copied : List Byte} (phase : s.phase = .ending copied) :
      Moves s .finish ⟨skipMarker s.tty, .idle, s.log ++ [((copied.length : Int), copied)]⟩
  | setFlags {icanon echo : Bool} (phase : s.phase = .idle) :
      Moves s (.setFlags icanon echo) { s with tty := { s.tty with icanon, echo } }
  | flush {icanon echo : Bool} (phase : s.phase = .idle) : Moves s (.flush icanon echo)
      { s with tty := { s.tty with fbase := s.tty.loff, lbase := s.tty.loff, icanon, echo } }

theorem moves_of_next {s s' : Session} {a : Event} (step : next s a = some s') : Moves s a s' := by
  unfold next at step
  split at step
  all_goals
    split at step
    all_goals cases step
  · exact .input ‹_›
  · exact .read ‹_›
  · exact .pass ‹_›
  · exact .wake ‹_›
  · exact .finish ‹_›
  · exact .setFlags ‹_›
  · exact .flush ‹_›

end Petix.Proof.Tty
