import Petix.Spec.ExecFile
import Petix.Library.Result

namespace Petix.Proof.Exec
open List Library Library.Result Kernel.ExecFile Spec.ExecFile

variable {past : Fault} {more : Byte → Bool} {str passed rest name : List Byte}
variable {n i : Nat} {newargv : Argv}

theorem skip_ok_iff : skip past more str = .ok (passed, rest) ↔
    str = passed ++ rest ∧ (∀ c ∈ passed, more c = true) ∧ ∃ stop later, rest = stop :: later ∧ more stop = false := by
  induction str generalizing passed with
  | nil =>
    refine iff_of_false (fun run => nomatch run) ?_
    rintro ⟨split, -, stop, later, rfl, -⟩
    simp at split
  | cons c str ih =>
    rw [skip]
    cases passes : more c with
    | false =>
      rw [if_neg (by simp), Except.ok.injEq, Prod.mk.injEq]
      constructor
      · rintro ⟨rfl, rfl⟩
        exact ⟨rfl, by simp, c, str, rfl, passes⟩
      · rintro ⟨split, all, -⟩
        cases passed with
        | nil => exact ⟨rfl, split⟩
        | cons d passed =>
          obtain ⟨rfl, -⟩ := cons.inj split
          simp [all c (.head _)] at passes
    | true =>
      constructor
      · intro run
        obtain ⟨⟨_, _⟩, inner, equal⟩ := map_ok run
        obtain ⟨rfl, rfl⟩ := Prod.mk.inj equal
        obtain ⟨rfl, all, stops⟩ := ih.mp inner
        exact ⟨rfl, forall_mem_cons.mpr ⟨passes, all⟩, stops⟩
      · rintro ⟨split, all, stop, later, rfl, stops⟩
        cases passed with
        | nil =>
          obtain ⟨rfl, -⟩ := cons.inj split
          simp [passes] at stops
        | cons d passed =>
          obtain ⟨rfl, inner⟩ := cons.inj split
          rw [ih.mpr ⟨inner, (forall_mem_cons.mp all).2, stop, later, rfl, stops⟩]
          rfl

theorem isDelim_ne_zero {c : Byte} (delim : isDelim c = true) : c ≠ 0 := by
  rintro rfl
  simp [isDelim] at delim

theorem strtokR_some_iff : strtokR str = .ok (some name) ↔ FirstWord str name := by
  constructor
  · intro run
    obtain ⟨⟨gap, _⟩, first, found⟩ := bind_ok run
    obtain ⟨rfl, delims, start, later, rfl, _⟩ := skip_ok_iff.mp first
    dsimp only at found
    by_cases ended : (start :: later).head? = some 0
    · rw [if_pos ended] at found
      cases found
    · rw [if_neg ended] at found
      obtain ⟨⟨_, _⟩, second, equal⟩ := bind_ok found
      obtain rfl := Option.some.inj (pure_ok equal)
      obtain ⟨split, letters, stop, rest, rfl, stops⟩ := skip_ok_iff.mp second
      refine ⟨gap, stop, rest, by rw [split, append_assoc], fun c member => ?_, ?_, fun c member => ?_, ?_⟩
      · exact (Bool.and_eq_true_iff.mp (delims c member)).2
      · rintro rfl
        simp_all
      · simpa using letters c member
      · exact or_iff_not_imp_left.mpr (by simpa using stops)
  · rintro ⟨gap, stop, rest, rfl, delims, nonempty, letters, stops⟩
    obtain ⟨start, name, rfl⟩ := exists_cons_of_ne_nil nonempty
    obtain ⟨nonzero, letter⟩ := letters start (.head _)
    have first : skip .pastData (fun c => c != 0 && isDelim c) (gap ++ start :: name ++ stop :: rest) =
        .ok (gap, start :: name ++ stop :: rest) := by
      refine skip_ok_iff.mpr ⟨append_assoc _ _ _, fun c member => ?_, start, _, rfl, by simp [letter]⟩
      exact Bool.and_eq_true_iff.mpr ⟨bne_iff_ne.mpr (isDelim_ne_zero (delims c member)), delims c member⟩
    have second : skip .pastData (fun c => c != 0 && !isDelim c) (start :: name ++ stop :: rest) =
        .ok (start :: name, stop :: rest) := by
      refine skip_ok_iff.mpr ⟨rfl, fun c member => by simpa using letters c member, stop, rest, rfl, ?_⟩
      rcases stops with rfl | delim
      · rfl
      · simp [delim]
    rw [strtokR, first, ok_bind]
    dsimp only
    rw [if_neg (by simpa using nonzero), second]
    rfl

theorem firstWord_nonzero {text : List Byte} (word : FirstWord text name) : ∀ c ∈ name, c ≠ 0 := by
  obtain ⟨-, -, -, -, -, -, letters, -⟩ := word
  exact fun c member => (letters c member).1

theorem strncpy_length (src : List Byte) (n : Nat) : (strncpy src n).length = n := by simp [strncpy]

theorem cString_strncpy (nonzero : ∀ c ∈ name, c ≠ 0) (short : name.length < n) :
    cString (strncpy name n) = .ok name := by
  have padded : strncpy name n = name ++ replicate (n - name.length) 0 := by
    rw [strncpy, take_append, take_of_length_le (by omega), take_replicate, Nat.min_eq_left (by omega)]
  obtain ⟨pad, size⟩ : ∃ pad, n - name.length = pad + 1 := ⟨n - name.length - 1, by omega⟩
  rw [cString, padded, size, replicate_succ,
    skip_ok_iff.mpr ⟨rfl, fun c member => bne_iff_ne.mpr (nonzero c member), 0, _, rfl, rfl⟩]
  rfl

theorem length_of_cString_strncpy (nonzero : ∀ c ∈ name, c ≠ 0) {copied : List Byte}
    (run : cString (strncpy name n) = .ok copied) : name.length < n := by
  obtain ⟨⟨_, _⟩, run, -⟩ := map_ok run
  obtain ⟨split, -, stop, _, rfl, stops⟩ := skip_ok_iff.mp run
  obtain rfl : stop = 0 := by simpa using stops
  by_contra long
  have whole : strncpy name n = name.take n := take_append_of_le_length (by omega)
  have zero : (0 : Byte) ∈ name.take n := by
    rw [← whole, split]
    simp
  exact nonzero 0 (mem_of_mem_take zero) rfl

theorem copyArgv_fits {args : List (List Byte)} {rest front back : Argv} (here : front.length = i + 1)
    (size : front.length + back.length = 128) (fits : args.length ≤ back.length) :
    copyArgv i (args.map some ++ none :: rest) (front ++ back) =
      .ok (front ++ args.map some ++ back.drop args.length) := by
  induction args generalizing i front back with
  | nil => simp [copyArgv, show i < 128 by omega]
  | cons arg args ih =>
    obtain ⟨slot, back, rfl⟩ := exists_cons_of_length_pos (l := back) (by simp at fits; omega)
    simp only [length_cons] at size fits
    have stored : (front ++ slot :: back).set (i + 1) (some arg) = front ++ [some arg] ++ back := by
      rw [← here, set_append_right _ _ le_rfl]
      simp
    have room : i + 1 < (front ++ slot :: back).length := by simp; omega
    rw [map_cons, cons_append, copyArgv, if_pos (by omega), if_pos room, stored, ih (by simp [here]) (by simp; omega) (by omega)]
    simp

theorem copyArgv_overflows {args : List (List Byte)} {rest : Argv} (size : newargv.length = 128)
    (start : i < 128) (many : 128 ≤ i + args.length) :
    copyArgv i (args.map some ++ none :: rest) newargv = .error .pastNewargv := by
  induction args generalizing i newargv with
  | nil => simp at many; omega
  | cons arg args ih =>
    rw [map_cons, cons_append, copyArgv, if_pos start]
    by_cases last : i + 1 < 128
    · rw [if_pos (by omega), ih (by simp [size]) last (by simp at many; omega)]
    · rw [if_neg (by omega)]

theorem makeNewargv_eq {scbuff : List Byte} {argv : Option Argv} {args : List (List Byte)} (holds : Holds argv args) :
    makeNewargv scbuff argv = if args.length < 128
      then .ok (some scbuff :: args.map some ++ replicate (127 - args.length) none)
      else .error .pastNewargv := by
  have blank : (replicate 128 none).set 0 (some scbuff) = [some scbuff] ++ replicate 127 none := rfl
  rcases holds with ⟨rfl, rfl⟩ | ⟨-, rfl⟩
  · rfl
  · simp only [makeNewargv, blank]
    split_ifs with few
    · rw [copyArgv_fits rfl (by simp) (by simp; omega), drop_replicate]
      rfl
    · exact copyArgv_overflows (by simp) (by omega) (by omega)

theorem scriptBuffer_ok_iff {cdata scbuff : List Byte} :
    scriptBuffer cdata = .ok scbuff ↔ ∃ name, FirstWord (cdata.drop 2) name ∧ scbuff = strncpy name 128 := by
  constructor
  · intro run
    obtain ⟨script, found, copied⟩ := bind_ok run
    cases script with
    | none => cases copied
    | some name => exact ⟨name, strtokR_some_iff.mp found, (pure_ok copied).symm⟩
  · rintro ⟨_, word, rfl⟩
    rw [scriptBuffer, strtokR_some_iff.mpr word]
    rfl

theorem scriptBranch_ok_iff {cdata scbuff : List Byte} {argv : Option Argv} :
    scriptBranch cdata argv = .ok (scbuff, newargv) ↔
      scriptBuffer cdata = .ok scbuff ∧ makeNewargv scbuff argv = .ok newargv := by
  constructor
  · intro run
    obtain ⟨_, copied, run⟩ := bind_ok run
    obtain ⟨_, made, equal⟩ := bind_ok run
    obtain ⟨rfl, rfl⟩ := Prod.mk.inj (pure_ok equal)
    exact ⟨copied, made⟩
  · rintro ⟨copied, made⟩
    rw [scriptBranch, copied, ok_bind, made]
    rfl

theorem script_branch_stays_iff (text : List Byte) {argv : Option Argv} {args : List (List Byte)}
    (holds : Holds argv args) : Stays (0x23 :: 0x21 :: text) argv args ↔
      ∃ name, FirstWord text name ∧ name.length < 128 ∧ args.length < 127 := by
  constructor
  · rintro ⟨_, _, _, _, run, -, -, terminated, size, contents⟩
    obtain ⟨name, word, rfl⟩ := scriptBuffer_ok_iff.mp (scriptBranch_ok_iff.mp run).1
    refine ⟨name, word, length_of_cString_strncpy (firstWord_nonzero word) terminated, ?_⟩
    have total := congrArg length contents
    simp only [size, length_append, length_cons, length_map] at total
    omega
  · rintro ⟨name, word, short, _⟩
    obtain ⟨free, room⟩ : ∃ free, 127 - args.length = free + 1 := ⟨126 - args.length, by omega⟩
    have made := @makeNewargv_eq (strncpy name 128) argv args holds
    rw [if_pos (by omega), room, replicate_succ] at made
    refine ⟨strncpy name 128, _, name, replicate free none, ?_, strncpy_length name 128, word,
      cString_strncpy (firstWord_nonzero word) short, ?_, rfl⟩
    · exact scriptBranch_ok_iff.mpr ⟨scriptBuffer_ok_iff.mpr ⟨name, word, rfl⟩, made⟩
    · simp
      omega

theorem script_branch_stays_short : Stays [0x23, 0x21, 0x61, 0x0a] none [] :=
  (script_branch_stays_iff [0x61, 0x0a] (.inl ⟨rfl, rfl⟩)).mpr
    ⟨[0x61], ⟨[], 0x0a, [], rfl, by simp, by simp, by decide, .inr rfl⟩, by decide, by decide⟩

theorem script_branch_leaves_buffers : scriptBranch [0x23, 0x21] none = .error .pastData ∧
      scriptBranch [0x23, 0x21, 0] none = .error .nullScript ∧
      scriptBranch [0x23, 0x21, 0x61, 0x0a] (some (replicate 128 (some [0]) ++ [none])) = .error .pastNewargv ∧
      ¬ Stays [0x23, 0x21] none [] := by
  refine ⟨by decide, by decide, by decide +kernel, ?_⟩
  rintro ⟨_, _, -, -, run, -⟩
  cases run

end Petix.Proof.Exec
