import Mathlib.Data.Nat.Digits.Lemmas
import Petix.Library.Result
import Petix.Spec.Printf

namespace Petix.Proof.Printf
open Library Library.Result Kernel Kernel.Ansi Kernel.Printf Spec.Printf

variable {cstr : BitVec 32 → List Byte} {ap : VaList} {format ch : List Byte} {c : Byte}

theorem printed_map {f : List Byte → List Byte} {x : Except Printf.Fault (List Byte)} :
    (∃ out, f <$> x = .ok out) ↔ ∃ out, x = .ok out := by
  cases x with
  | error fault => simp
  | ok text => simp

theorem plain_iff (nonzero : c ≠ 0#8) (other : c ≠ 37#8) :
    (∃ out, baseVprintf cstr (c :: ch) ap = .ok out) ↔ ∃ out, baseVprintf cstr ch ap = .ok out := by
  rw [baseVprintf.eq_def]
  simp only [if_neg nonzero, if_pos other, printed_map]

theorem short_iff (other : c ≠ 108#8) : (∃ out, baseVprintf cstr (37#8 :: c :: ch) ap = .ok out) ↔
    ∃ out, baseVprintf cstr ch (fun i => ap ((convert cstr ap c).2 + i)) = .ok out := by
  rw [baseVprintf.eq_def]
  simp [if_pos other, printed_map]

theorem long_iff (other : c ≠ 108#8) : (∃ out, baseVprintf cstr (37#8 :: 108#8 :: c :: ch) ap = .ok out) ↔
    ∃ out, baseVprintf cstr ch (fun i => ap ((convertLong ap c).2 + i)) = .ok out := by
  rw [baseVprintf.eq_def]
  simp [if_pos other, printed_map]

theorem longLong_iff : (∃ out, baseVprintf cstr (37#8 :: 108#8 :: 108#8 :: c :: ch) ap = .ok out) ↔
    ∃ out, baseVprintf cstr ch (fun i => ap ((convertLongLong ap c).2 + i)) = .ok out := by
  rw [baseVprintf.eq_def]
  simp [printed_map]

theorem complete_of_prints : (ap : VaList) → (format : List Byte) → 0#8 ∉ format →
    (∃ out, baseVprintf cstr (format ++ [0#8]) ap = .ok out) → Complete format
  | _, [], _, _ => .nil
  | ap, c :: rest, terminated, prints => by
    simp only [List.mem_cons, not_or] at terminated
    by_cases percent : c = 37#8
    · subst percent
      match rest with
      | [] => exact absurd prints (by simp [baseVprintf])
      | c :: rest =>
        simp only [List.mem_cons, not_or] at terminated
        by_cases letter : c = 108#8
        · subst letter
          match rest with
          | [] => exact absurd prints (by simp [baseVprintf])
          | c :: rest =>
            simp only [List.mem_cons, not_or] at terminated
            by_cases letter : c = 108#8
            · subst letter
              match rest with
              | [] => exact absurd prints (by simp [baseVprintf])
              | c :: rest =>
                simp only [List.mem_cons, not_or] at terminated
                exact .longLong (complete_of_prints _ rest terminated.2.2.2.2 (longLong_iff.mp prints))
            · exact .long letter (complete_of_prints _ rest terminated.2.2.2 ((long_iff letter).mp prints))
        · exact .short letter (complete_of_prints _ rest terminated.2.2 ((short_iff letter).mp prints))
    · exact .plain percent (complete_of_prints ap rest terminated.2
        ((plain_iff (Ne.symm terminated.1) percent).mp prints))

theorem base_vprintf_inside_iff (cstr : BitVec 32 → List Byte) (ap : VaList) (format : List Byte)
    (terminated : 0#8 ∉ format) : (∃ out, baseVprintf cstr (format ++ [0#8]) ap = .ok out) ↔ Complete format := by
  refine ⟨complete_of_prints ap format terminated, fun complete => ?_⟩
  induction complete generalizing ap with
  | nil => exact ⟨[], rfl⟩
  | plain other _ ih =>
    simp only [List.mem_cons, not_or] at terminated
    exact (plain_iff (Ne.symm terminated.1) other).mpr (ih _ terminated.2)
  | short other _ ih => exact (short_iff other).mpr (ih _ (by simp_all))
  | long other _ ih => exact (long_iff other).mpr (ih _ (by simp_all))
  | longLong _ ih => exact longLong_iff.mpr (ih _ (by simp_all))

theorem base_vprintf_inside_text :
    ∃ out, baseVprintf (fun _ => []) ([37#8, 108#8, 117#8, 33#8] ++ [0#8]) (fun _ => 7) = .ok out :=
  (base_vprintf_inside_iff _ _ _ (by decide)).mpr (.long (by decide) (.plain (by decide) .nil))

theorem base_vprintf_passes_terminator :
    baseVprintf (fun _ => []) ([97#8, 37#8] ++ [0#8]) (fun _ => 0) = .error .pastFormat := rfl

def value (text : List Byte) : Int := text.foldl (fun n ch => n * 10 + (ch.toInt - 48)) 0

theorem numeral_mem {n : Nat} (member : c ∈ numeral n) : 48 ≤ c.toNat := by
  unfold numeral at member
  split_ifs at member
  · simp_all
  · obtain ⟨_, digit, rfl⟩ := List.mem_map.mp member
    have less := Nat.digits_lt_base (by decide) (List.mem_reverse.mp digit)
    rw [BitVec.toNat_ofNat]
    omega

theorem numeral_step {n : Nat} (large : 10 ≤ n) :
    numeral n = numeral (n / 10) ++ [BitVec.ofNat 8 (n % 10 + 48)] := by
  rw [numeral, numeral, if_neg (by omega), if_neg (by omega), Nat.digits_def' (by decide) (by omega)]
  simp

theorem numeral_digit {n : Nat} (small : n < 10) : numeral n = [BitVec.ofNat 8 (n + 48)] := by
  interval_cases n <;> rfl

theorem value_numeral (n : Nat) : value (numeral n) = n := by
  have digit {d : Nat} (less : d < 10) : (BitVec.ofNat 8 (d + 48)).toInt - 48 = d := by
    interval_cases d <;> rfl
  induction n using Nat.strong_induction_on with
  | _ n ih =>
    by_cases small : n < 10
    · simp [numeral_digit small, value, digit small]
    · have before := ih (n / 10) (by omega)
      unfold value at before ⊢
      rw [numeral_step (by omega), List.foldl_append, before, List.foldl_cons, List.foldl_nil, digit (by omega)]
      omega

theorem putuintnz_eq {fuel n : Nat} (positive : 0 < n) (bound : n < 10 ^ fuel) : putuintnz fuel n = numeral n := by
  induction fuel generalizing n with
  | zero => omega
  | succ fuel ih =>
    rw [putuintnz, if_neg (by omega)]
    by_cases small : n < 10
    · have last : putuintnz fuel 0 = [] := by
        cases fuel with
        | zero => rfl
        | succ fuel => rfl
      rw [numeral_digit small, Nat.div_eq_of_lt small, last, Nat.mod_eq_of_lt small]
      rfl
    · rw [numeral_step (by omega), ih (by omega) (by omega)]

theorem putuint_eq {n : Nat} (bound : n < 2 ^ 32) : putuint n = numeral n := by
  unfold putuint
  split_ifs with zero
  · rw [zero]
    rfl
  · exact putuintnz_eq (by omega) (by omega)

theorem putint_eq (n : BitVec 32) : putint n.toInt = decimal n.toInt := by
  have low := BitVec.le_toInt n
  have high := BitVec.toInt_lt (x := n)
  unfold putint decimal
  rw [putuint_eq (by omega), putuint_eq (by omega)]

theorem atou_numeral (n : Nat) : atou (numeral n ++ [0#8]) = signed32 n := by
  have text : (numeral n ++ [0#8]).takeWhile (· ≠ 0#8) = numeral n := by
    rw [List.takeWhile_append_of_pos]
    · simp
    · intro c member
      have := numeral_mem member
      apply decide_eq_true
      rintro rfl
      simp at this
  have wraps (text : List Byte) (start : Int) :
      text.foldl (fun n ch => signed32 (signed32 (n * 10) + (ch.toInt - 48))) (signed32 start) =
        signed32 (text.foldl (fun n ch => n * 10 + (ch.toInt - 48)) start) := by
    induction text generalizing start with
    | nil => rfl
    | cons c text ih =>
      rw [List.foldl_cons, List.foldl_cons, ← ih]
      congr 1
      unfold signed32
      omega
  rw [atou, text, ← value_numeral n]
  exact wraps _ 0

theorem atoi_of_printed (cstr : BitVec 32 → List Byte) (ap : VaList) :
    baseVprintf cstr [37#8, 105#8, 0#8] ap = .ok (decimal (ap 0).toInt) ∧
    baseVprintf cstr [37#8, 108#8, 105#8, 0#8] ap = .ok (decimal (ap 0).toInt) ∧
    atoi (decimal (ap 0).toInt ++ [0#8]) = (ap 0).toInt := by
  have low := BitVec.le_toInt (ap 0)
  have high := BitVec.toInt_lt (x := ap 0)
  have printed : putint (ap 0).toInt ++ [] = decimal (ap 0).toInt := by rw [List.append_nil, putint_eq]
  refine ⟨congrArg Except.ok printed, congrArg Except.ok printed, ?_⟩
  unfold decimal atoi
  split_ifs with negative minus minus
  · rw [List.cons_append, List.tail_cons, atou_numeral]
    unfold signed32
    omega
  · exact absurd rfl minus
  · have member : 45#8 ∈ numeral (ap 0).toInt.toNat := by simpa using List.mem_of_mem_head? minus
    exact absurd (numeral_mem member) (by decide)
  · rw [atou_numeral]
    unfold signed32
    omega

theorem decimal_injective : Function.Injective decimal := by
  have numbers {a b : Nat} (same : numeral a = numeral b) : a = b := by
    have values := congrArg value same
    rw [value_numeral, value_numeral] at values
    exact Int.ofNat.inj values
  have minus {n : Nat} {text : List Byte} (same : 45#8 :: text = numeral n) : False :=
    absurd (numeral_mem (same ▸ List.mem_cons_self)) (by decide)
  intro _ _ same
  unfold decimal at same
  split_ifs at same
  · have := numbers (List.cons.inj same).2
    omega
  · exact (minus same).elim
  · exact (minus same.symm).elim
  · have := numbers same
    omega

def hexText (n : BitVec 32) : List Byte := (List.range 8).reverse.map fun i => hexDigit (n >>> (i * 4) &&& 0xf#32).toNat

theorem hexValue_hexText (n : BitVec 32) : hexValue (hexText n) = n.toNat := by
  have digit {d : Nat} (less : d < 16) :
      (if (hexDigit d).toNat < 65 then (hexDigit d).toNat - 48 else (hexDigit d).toNat - 55) = d := by
    interval_cases d <;> rfl
  have nibble (i : Nat) : (n >>> i &&& 0xf#32).toNat = n.toNat / 2 ^ i % 16 := by
    simp [Nat.shiftRight_eq_div_pow, Nat.and_two_pow_sub_one_eq_mod _ 4]
  have bound := n.isLt
  have places : (List.range 8).reverse = [7, 6, 5, 4, 3, 2, 1, 0] := rfl
  simp only [hexValue, hexText, nibble, places, List.foldl_map, List.foldl_cons, List.foldl_nil,
    digit (Nat.mod_lt _ (show 16 > 0 by decide))]
  omega

theorem printed_long_long (c : Byte) :
    baseVprintf cstr [37#8, 108#8, 108#8, c, 0#8] ap = .ok (convertLongLong ap c).1 := by
  simp [baseVprintf]

theorem printed_long_long_iff (cstr : BitVec 32 → List Byte) (ap : VaList) :
    (baseVprintf cstr [37#8, 108#8, 108#8, 117#8, 0#8] ap = .ok (decimal (ap 1 ++ ap 0).toNat) ↔
      (ap 1 ++ ap 0).toNat < 2 ^ 32) ∧
    (baseVprintf cstr [37#8, 108#8, 108#8, 100#8, 0#8] ap = .ok (decimal (ap 1 ++ ap 0).toInt) ↔
      -2 ^ 31 ≤ (ap 1 ++ ap 0).toInt ∧ (ap 1 ++ ap 0).toInt < 2 ^ 31) ∧
    ((∃ text, baseVprintf cstr [37#8, 108#8, 108#8, 88#8, 0#8] ap = .ok ([48#8, 120#8] ++ text) ∧
      hexValue text = (ap 1 ++ ap 0).toNat) ↔ (ap 1 ++ ap 0).toNat < 2 ^ 32) := by
  simp only [printed_long_long, convertLongLong]
  generalize ap 1 ++ ap 0 = v
  have low : (v.setWidth 32).toNat = v.toNat % 2 ^ 32 := BitVec.toNat_setWidth ..
  refine ⟨?_, ?_, ?_⟩
  · change Except.ok (putuint (v.setWidth 32).toNat) = _ ↔ _
    have unsigned (n : Nat) : numeral n = decimal n := by simp [decimal]
    rw [putuint_eq (by omega), unsigned, Except.ok.injEq, decimal_injective.eq_iff, low]
    omega
  · change Except.ok (putint (v.setWidth 32).toInt) = _ ↔ _
    rw [putint_eq, Except.ok.injEq, decimal_injective.eq_iff]
    rw [BitVec.toInt_eq_toNat_cond, BitVec.toInt_eq_toNat_cond, low]
    have := v.isLt
    split_ifs <;> omega
  · change (∃ text, Except.ok (puthex (v.setWidth 32)) = _ ∧ _) ↔ _
    constructor
    · rintro ⟨text, printed, value⟩
      obtain rfl : hexText (v.setWidth 32) = text := List.append_cancel_left (Except.ok.inj printed)
      rw [hexValue_hexText] at value
      omega
    · intro _
      refine ⟨hexText (v.setWidth 32), rfl, ?_⟩
      rw [hexValue_hexText, low]
      omega

theorem printed_long_long_truncated :
    let ap : VaList := fun i => if i = 1 then 1#32 else 0#32
    (ap 1 ++ ap 0).toNat = 2 ^ 32 ∧
      baseVprintf (fun _ => []) [37#8, 108#8, 108#8, 117#8, 0#8] ap = .ok [48#8] := ⟨rfl, rfl⟩

end Petix.Proof.Printf
