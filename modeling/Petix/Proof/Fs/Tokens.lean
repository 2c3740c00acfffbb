import Mathlib.Data.List.GetD
import Petix.Library.Result
import Petix.Spec.Mounts

namespace Petix.Proof.Fs
open Function List Library Kernel.Mounts Spec.Mounts

variable {buf : Buffer} {str left : Nat} {a : Byte} {p rest word : List Byte}

def Holds (buf : Buffer) (str : Nat) (rest : List Byte) : Prop := ∀ i, buf (str + i) = rest.getD i 0

theorem holds_strncpy (short : p.length < pathMax) : Holds (strncpy p pathMax) 0 p := by
  intro _
  rw [strncpy, take_of_length_le short.le, Nat.zero_add]

theorem Holds.tail (holds : Holds buf str (a :: rest)) : Holds buf (str + 1) rest := by
  intro i
  rw [Nat.add_assoc, Nat.add_comm 1, holds (i + 1), getD_cons_succ]

theorem Holds.drop (holds : Holds buf str (word ++ rest)) : Holds buf (str + word.length) rest := by
  induction word generalizing str with
  | nil => exact holds
  | cons a word ih =>
    rw [length_cons, Nat.add_comm word.length, ← Nat.add_assoc]
    exact ih holds.tail

theorem skipWhile_eq {more : Byte → Bool} {n : Nat} (go : ∀ i < n, more (buf (str + i)) = true)
    (stop : more (buf (str + n)) = false) (fits : n < left) : skipWhile more buf left str = .ok (str + n) := by
  induction n generalizing str left with
  | zero =>
    obtain ⟨left, rfl⟩ := Nat.exists_eq_add_of_lt fits
    rw [skipWhile, if_neg (by simpa using stop), Nat.add_zero]
  | succ n ih =>
    obtain ⟨-, rfl⟩ := Nat.exists_eq_add_of_lt fits
    have first : more (buf str) = true := go 0 (by omega)
    rw [skipWhile, if_pos first, ih]
    · rw [Nat.add_assoc, Nat.add_comm 1]
    · intro i _
      rw [Nat.add_assoc, Nat.add_comm 1]
      exact go (i + 1) (by omega)
    · rw [Nat.add_assoc, Nat.add_comm 1]
      exact stop
    · omega

theorem cstr_eq (here : ∀ i < word.length, buf (str + i) = word.getD i 0) (terminated : 0 ∉ word)
    (stop : buf (str + word.length) = 0) (fits : word.length < left) : cstr buf left str = word := by
  induction word generalizing str left with
  | nil =>
    obtain ⟨left, rfl⟩ := Nat.exists_eq_add_of_lt fits
    rw [cstr, if_pos (show buf str = 0 from stop)]
  | cons a word ih =>
    obtain ⟨-, rfl⟩ := Nat.exists_eq_add_of_lt fits
    rw [mem_cons, not_or] at terminated
    have first : buf str = a := here 0 (by simp)
    rw [cstr, first, if_neg (Ne.symm terminated.1), ih _ terminated.2]
    · rw [Nat.add_assoc, Nat.add_comm 1]
      exact stop
    · grind
    · intro i _
      rw [Nat.add_assoc, Nat.add_comm 1, here (i + 1) (by grind), getD_cons_succ]

def Text (buf : Buffer) (str : Nat) (text : List Byte) : Prop := ∀ i < text.length, buf (str + i) = text.getD i 0

theorem Holds.text (holds : Holds buf str rest) : Text buf str rest := fun i _ => holds i

theorem Text.front (text : Text buf str (word ++ rest)) : Text buf str word := by
  intro i inside
  rw [text i (by rw [length_append]; omega), getD_append _ _ _ _ inside]

theorem Text.drop (text : Text buf str (word ++ rest)) : Text buf (str + word.length) rest := by
  intro _ _
  rw [Nat.add_assoc, text _ (by rw [length_append]; omega), getD_append_right _ _ _ _ (by omega),
    Nat.add_sub_cancel_left]

theorem getD_mem {i : Nat} (inside : i < word.length) : word.getD i 0 ∈ word := by
  rw [getD_eq_getElem _ _ inside]
  exact getElem_mem inside

variable {sep : Byte → Bool} {size : Nat} {delims tail : List Byte}

def token (sep : Byte → Bool) (size : Nat) (buf : Buffer) (str : Nat) :
    Except Fault (Option (Nat × Nat × Buffer)) := do
  let ret ← skipWhile (fun c => c != 0 && sep c) buf (size - str) str
  if buf ret = 0 then return none
  else
    let str ← skipWhile (fun c => c != 0 && !sep c) buf (size - ret) ret
    if buf str = 0 then return some (ret, str, buf)
    else return some (ret, str + 1, update buf str 0)

theorem strtokR_eq_token : strtokR buf str = token (· == slash) pathMax buf str := rfl

theorem Text.holds (more : Byte → Bool) (text : Text buf str word) (terminated : 0 ∉ word)
    (all : ∀ a ∈ word, more a = true) : ∀ i < word.length, (buf (str + i) != 0 && more (buf (str + i))) = true := by
  intro i inside
  have here := getD_mem inside
  rw [text i inside, Bool.and_eq_true]
  exact ⟨bne_iff_ne.mpr fun zero => terminated (zero ▸ here), all _ here⟩

section
variable (only : ∀ a ∈ delims, sep a = true)
include only

theorem token_none (text : Text buf str delims) (terminated : 0 ∉ delims) (stop : buf (str + delims.length) = 0)
    (fits : str + delims.length < size) : token sep size buf str = .ok none := by
  rw [token, skipWhile_eq (text.holds sep terminated only) (by simp [stop]) (by omega)]
  exact if_pos stop

variable (terminated : 0 ∉ delims ++ word) (some : word ≠ []) (inside : ∀ a ∈ word, sep a = false)
include terminated some inside

theorem token_start (text : Text buf str (delims ++ word)) (fits : str + delims.length < size) :
    token sep size buf str = (do
      let str' ← skipWhile (fun c => c != 0 && !sep c) buf (size - (str + delims.length)) (str + delims.length)
      if buf str' = 0 then return .some (str + delims.length, str', buf)
      else return .some (str + delims.length, str' + 1, update buf str' 0)) := by
  rw [mem_append, not_or] at terminated
  have positive := length_pos_iff.mpr some
  have first : buf (str + delims.length) = word.getD 0 0 := text.drop 0 positive
  have member := getD_mem positive
  rw [token, skipWhile_eq (text.front.holds sep terminated.1 only) (by rw [first, inside _ member, Bool.and_false])
    (by omega)]
  refine if_neg ?_
  rw [first]
  exact fun zero => terminated.2 (zero ▸ member)

theorem token_scanned {e : Nat} (text : Text buf str (delims ++ word)) (last : e = str + (delims ++ word).length)
    (stop : buf e ≠ 0 → sep (buf e) = true) (fits : e < size) : token sep size buf str =
      .ok (.some (str + delims.length, if buf e = 0 then (e, buf) else (e + 1, update buf e 0))) := by
  rw [length_append, ← Nat.add_assoc] at last
  have start := token_start only terminated some inside text (show str + delims.length < size by omega)
  rw [mem_append, not_or] at terminated
  have here := text.drop.holds (!sep ·) terminated.2 fun a member => by rw [inside a member]; rfl
  rw [start, skipWhile_eq here (by rw [← last]; simpa using stop) (by omega), ← last, Result.ok_bind]
  split_ifs <;> rfl

end

theorem token_cases (sep : Byte → Bool) (text : Text buf str rest) (stop : buf (str + rest.length) = 0)
    (terminated : 0 ∉ rest) (fits : str + rest.length < size) : words sep rest = [] ∧ token sep size buf str = .ok none ∨
      ∃ delims word tail, rest = delims ++ word ++ tail ∧ (∀ a ∈ delims, sep a = true) ∧ word ≠ [] ∧
        (∀ a ∈ word, sep a = false) ∧ (tail = [] ∨ sep (tail.getD 0 0) = true) ∧
        words sep rest = word :: words sep (tail.drop 1) ∧ token sep size buf str =
          .ok (some (str + delims.length, str + (delims ++ word).length + min 1 tail.length,
            update buf (str + (delims ++ word).length) 0)) := by
  obtain ⟨none, only⟩ | ⟨delims, word, tail, rfl, only, some, inside, after⟩ := words_cases sep rest
  · exact .inl ⟨none, token_none only text terminated stop fits⟩
  · rw [← append_assoc] at text terminated stop fits
    rw [mem_append, not_or] at terminated
    rw [length_append] at stop fits
    have scanned := fun ends =>
      token_scanned only terminated.1 some inside text.front rfl ends (show _ < size by omega)
    refine .inr ⟨delims, word, tail, (append_assoc ..).symm, only, some, inside, ?_⟩
    obtain ⟨rfl, first⟩ | ⟨s, _, rfl, here, first⟩ := after
    · have last : buf (str + (delims ++ word).length) = 0 := stop
      rw [if_pos last] at scanned
      refine ⟨.inl rfl, first, ?_⟩
      rw [scanned (absurd last), ← last, update_eq_self]
      rfl
    · have last : buf (str + (delims ++ word).length) = s := text.drop 0 (by simp)
      have nonzero : s ≠ 0 := fun zero => terminated.2 (zero ▸ .head _)
      rw [last, if_neg nonzero] at scanned
      refine ⟨.inr here, first, ?_⟩
      rw [scanned fun _ => here, length_cons, Nat.min_eq_left (by omega)]

theorem cstr_token {buf' : Buffer} (text : Text buf str (delims ++ word)) (terminated : 0 ∉ word)
    (same : ∀ i < str + (delims ++ word).length, buf' i = buf i) (stop : buf' (str + (delims ++ word).length) = 0)
    (fits : str + (delims ++ word).length < size) :
    cstr buf' (size - (str + delims.length)) (str + delims.length) = word := by
  rw [length_append, ← Nat.add_assoc] at *
  refine cstr_eq (fun i below => ?_) terminated stop (by omega)
  rw [same _ (by omega), text.drop i below]

theorem behind_eq (only : ∀ a ∈ delims, (a == slash) = true) (some : word ≠ [])
    (inside : ∀ a ∈ word, (a == slash) = false) (stop : tail = [] ∨ tail.getD 0 0 = slash) :
    behind (delims ++ (word ++ tail)) = tail.drop 1 := by
  have skipped : (delims ++ (word ++ tail)).dropWhile (· == slash) = word ++ tail := by
    obtain ⟨a, more, rfl⟩ := exists_cons_of_ne_nil some
    rw [dropWhile_append_of_pos only, cons_append,
      dropWhile_cons_of_neg (by rw [inside a (.head _)]; exact Bool.false_ne_true)]
  have scanned : (word ++ tail).dropWhile (· != slash) = tail := by
    rw [dropWhile_append_of_pos fun a member => by rw [bne, inside a member]; rfl]
    cases tail with
    | nil => rfl
    | cons s more =>
      have here : s = slash := stop.resolve_left (cons_ne_nil s more)
      rw [here, dropWhile_cons_of_neg (by decide)]
  rw [behind, skipped, scanned]

theorem strtokR_spec (holds : Holds buf str rest) (terminated : 0 ∉ rest) (fits : str + rest.length < pathMax) :
    (components rest = [] ∧ strtokR buf str = .ok none) ∨ ∃ gone rest' i buf', rest = gone ++ rest' ∧ gone ≠ [] ∧
        strtokR buf str = .ok (some (i, str + gone.length, buf')) ∧
        components rest = cstr buf' (pathMax - i) i :: components rest' ∧ Holds buf' (str + gone.length) rest' ∧
        rest' = behind rest := by
  have stop : buf (str + rest.length) = 0 := by rw [holds, getD_eq_default _ _ le_rfl]
  rw [strtokR_eq_token]
  obtain done | ⟨delims, word, tail, rfl, only, some, inside, ends, comps, found⟩ :=
    token_cases (· == slash) holds.text stop terminated fits
  · exact .inl done
  · have length : (delims ++ word ++ tail.take 1).length = (delims ++ word).length + min 1 tail.length := by
      rw [length_append, length_take]
    rw [length_append] at fits
    have word0 : 0 ∉ word := fun zero => terminated (mem_append_left _ (mem_append_right _ zero))
    refine .inr ⟨delims ++ word ++ tail.take 1, tail.drop 1, str + delims.length,
      update buf (str + (delims ++ word).length) 0, ?_, by simp [some], ?_, ?_, ?_, ?_⟩
    · rw [append_assoc _ (tail.take 1), take_append_drop]
    · rw [found, length, Nat.add_assoc]
    · rw [cstr_token holds.text.front word0 (fun i below => update_of_ne (Nat.ne_of_lt below) ..) (update_self ..)
        (by omega)]
      exact comps
    · intro i
      rw [length, ← Nat.add_assoc]
      by_cases last : str + (delims ++ word).length + min 1 tail.length + i = str + (delims ++ word).length
      · obtain rfl : tail = [] := length_eq_zero_iff.mp (by omega)
        rw [last, update_self]
        simp
      · have byte := holds.drop (min 1 tail.length + i)
        rw [update_of_ne last, Nat.add_assoc, byte]
        cases tail with
        | nil => simp
        | cons s more => simp [Nat.add_comm 1]
    · rw [append_assoc, behind_eq only some inside (ends.imp_right fun here => by simpa using here)]

end Petix.Proof.Fs
