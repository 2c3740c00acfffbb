import Petix.Kernel.Strtok
import Petix.Proof.Fs.Tokens

namespace Petix.Proof.Strtok
open Function Library Library.Result Kernel.Mounts Kernel.Strtok Proof.Fs

variable {delim rest : List Byte} {size save pos fuel : Nat} {buf : Buffer} {str : Option Nat}

/-- At `call.1` there is the string `word`, and `call.2` is the place behind its terminator, or the end of the text. -/
def TokenAt (size length : Nat) (buf : Buffer) (call : Nat × Nat) (word : List Byte) : Prop :=
  cstr buf (size - call.1) call.1 = word ∧ call.2 = min length (call.1 + word.length + 1)

theorem strchr_isSome (delim : List Byte) (c : Byte) : (strchr delim c).isSome = decide (c ∈ delim) := by
  induction delim with
  | nil => rfl
  | cons b delim ih =>
    rw [strchr]
    by_cases same : b = c
    · simp [same]
    · simp [same, ih, Ne.symm same]

theorem strtokR_eq_token : Kernel.Strtok.strtokR delim size buf str save =
    (fun found => (found.map Prod.fst, found.elim (save, buf) Prod.snd)) <$>
      token (· ∈ delim) size buf (str.getD save) := by
  simp only [Kernel.Strtok.strtokR, token, strchr_isSome, map_bind]
  refine bind_congr fun ret => ?_
  split_ifs
  · rfl
  · rw [map_bind]
    refine bind_congr fun last => ?_
    split_ifs <;> rfl

theorem strtokAll_yields (text : Text buf pos rest) (stop : buf (pos + rest.length) = 0) (terminated : 0 ∉ rest)
    (fits : pos + rest.length < size) (start : str.getD save = pos) (enough : rest.length < fuel) :
    ∃ calls buf', strtokAll delim size fuel buf str save = .ok (calls, buf') ∧ (∀ i, i < pos ∨ buf i = 0 → buf' i = buf i) ∧
      List.Forall₂ (TokenAt size (pos + rest.length) buf') calls (words (· ∈ delim) rest) := by
  induction fuel generalizing buf pos rest str save with
  | zero => omega
  | succ fuel ih =>
    rw [strtokAll, strtokR_eq_token, start]
    obtain ⟨none, found⟩ | ⟨delims, word, tail, rfl, -, some, -, -, first, found⟩ :=
      token_cases (· ∈ delim) text stop terminated fits
    · rw [found]
      exact ⟨[], buf, rfl, fun _ _ => rfl, none ▸ .nil⟩
    · have length : (delims ++ word).length = delims.length + word.length := List.length_append
      have total : (delims ++ word ++ tail).length = delims.length + word.length + tail.length := by
        rw [List.length_append, length]
      rw [total] at stop fits enough
      rw [length] at found
      have positive := List.length_pos_iff.mpr some
      generalize place : pos + (delims.length + word.length) = e at found
      have later (i : Nat) (behind : e < i) : update buf e 0 i = buf i := update_of_ne (by omega) ..
      have rest : Text (update buf e 0) (e + min 1 tail.length) (tail.drop 1) := by
        intro i inside
        rw [List.length_drop] at inside
        rw [later _ (by omega), Nat.min_eq_left (by omega), Nat.add_assoc, ← place, ← length, text.drop _ (by omega)]
        cases tail with
        | nil => simp at inside
        | cons c more => rw [Nat.add_comm 1, List.getD_cons_succ, List.drop_succ_cons, List.drop_zero]
      have size_eq : e + min 1 tail.length + (tail.drop 1).length = e + tail.length := by
        rw [List.length_drop]
        omega
      have ends : update buf e 0 (e + tail.length) = 0 := by
        by_cases last : tail.length = 0
        · rw [last]
          exact update_self ..
        · rw [later _ (by omega), ← stop]
          congr 1
          omega
      obtain ⟨calls, buf', run, kept, tokens⟩ := @ih _ _ _ _ none rest (size_eq ▸ ends)
        (fun zero => terminated (List.mem_append_right _ (List.mem_of_mem_drop zero)))
        (by rw [List.length_drop]; omega) rfl (by rw [List.length_drop]; omega)
      rw [found]
      refine ⟨(pos + delims.length, e + min 1 tail.length) :: calls, buf', ?_, fun i old => ?_, first ▸ .cons ⟨?_, ?_⟩ ?_⟩
      · change strtokAll delim size fuel (update buf e 0) none (e + min 1 tail.length) >>= _ = _
        rw [run]
        rfl
      · have same : update buf e 0 i = buf i := by
          by_cases here : i = e
          · rw [old.resolve_left (by omega), here, update_self]
          · exact update_of_ne here ..
        rw [kept i (old.imp (by omega) same.trans), same]
      · refine cstr_token text.front (fun zero => terminated (by simp_all)) (fun i below => ?_) ?_ (by omega)
        · rw [kept i (.inl (by omega)), update_of_ne (by omega)]
        · rw [length, place, kept e (.inr (update_self ..)), update_self]
      · dsimp only
        omega
      · rw [size_eq] at tokens
        rwa [total, ← Nat.add_assoc, place]

theorem strtok_yields_tokens (delim s : List Byte) (terminated : 0 ∉ s) (buf : Buffer) (size save : Nat)
    (text : ∀ i ≤ s.length, buf i = s.getD i 0) (fits : s.length < size) :
    ∃ calls buf', strtokAll delim size (s.length + 1) buf (some 0) save = .ok (calls, buf') ∧
      List.Forall₂ (TokenAt size s.length buf') calls (words (· ∈ delim) s) := by
  have stop : buf (0 + s.length) = 0 := by rw [Nat.zero_add, text _ le_rfl, List.getD_eq_default _ _ le_rfl]
  have start : Text buf 0 s := fun i less => by rw [Nat.zero_add, text i less.le]
  obtain ⟨calls, buf', run, -, tokens⟩ := @strtokAll_yields delim s size save 0 _ buf (some 0) start stop terminated
    (by omega) rfl s.length.lt_succ_self
  exact ⟨calls, buf', run, by rwa [Nat.zero_add] at tokens⟩

theorem strtok_yields_tokens_two : ∃ calls buf',
    strtokAll [32#8] 9 5 (fun i => [97#8, 32#8, 32#8, 98#8].getD i 0) (some 0) 0 = .ok (calls, buf') ∧
      List.Forall₂ (TokenAt 9 4 buf') calls [[97#8], [98#8]] :=
  strtok_yields_tokens [32#8] [97#8, 32#8, 32#8, 98#8] (by decide) _ 9 0 (fun _ _ => rfl) (by decide)

end Petix.Proof.Strtok
