import Mathlib.Data.Nat.Digits.Lemmas
import Mathlib.Tactic.NormNum
import Petix.Proof.Tar.Headers

namespace Petix.Proof.Tar
open Library Kernel.Tar Spec.Tar

variable {image : Initrd} {e : Entry} {entries : List Entry} {blk : Nat}

theorem octal_octalDigits (n : Nat) : octal (octalDigits n) = n := by
  have digit {d : Nat} (less : d < 8) : (BitVec.ofNat 8 (d + 48)).toNat - 48 = d := by
    rw [BitVec.toNat_ofNat]
    omega
  have whole (ds : List Nat) (small : ∀ d ∈ ds, d < 8) :
      octal (ds.reverse.map fun d => BitVec.ofNat 8 (d + 48)) = Nat.ofDigits 8 ds := by
    induction ds with
    | nil => rfl
    | cons d ds ih =>
      rw [List.reverse_cons, List.map_append, octal, List.foldl_append, ← octal,
        ih fun d later => small d (.tail _ later), Nat.ofDigits_cons]
      simp only [List.map_cons, List.map_nil, List.foldl_cons, List.foldl_nil, digit (small d (.head _))]
      exact Nat.add_comm _ _
  rw [octalDigits, whole _ fun d => Nat.digits_lt_base (by omega), Nat.ofDigits_digits]

theorem octalDigits_digit {n : Nat} {c : Byte} (digit : c ∈ octalDigits n) : 48 ≤ c.toNat ∧ c.toNat < 56 := by
  obtain ⟨d, among, rfl⟩ := List.mem_map.mp digit
  have small := Nat.digits_lt_base (by omega) (List.mem_reverse.mp among)
  rw [BitVec.toNat_ofNat]
  omega

theorem field_octalDigits {byte : Nat → Byte} {pos width n : Nat} (fits : n < 8 ^ (width - 1)) (wide : 0 < width)
    (here : ∀ i < width, byte (pos + i) = (octalDigits n).getD i 0) : Field byte pos width n := by
  have short : (octalDigits n).length ≤ width - 1 := by
    rw [octalDigits, List.length_map, List.length_reverse]
    exact (Nat.digits_length_le_iff (by omega) n).mpr fits
  exact ⟨octalDigits n, by omega, fun c => octalDigits_digit, fun i le => here i (by omega), octal_octalDigits n⟩

def Encodable (e : Entry) : Prop := e.mode < 8 ^ 7 ∧ e.major < 8 ^ 7 ∧ e.minor < 8 ^ 7 ∧ e.content.length < 8 ^ 11

theorem header_headerByte (encodable : Encodable e) : Header (headerByte e) 0 e := by
  obtain ⟨mode, ma, mi, size⟩ := encodable
  have short := e.named.2.2
  refine ⟨fun i le => ?_, field_octalDigits mode (by omega) fun i less => ?_,
    field_octalDigits size (by omega) fun i less => ?_, rfl, field_octalDigits ma (by omega) fun i less => ?_,
    field_octalDigits mi (by omega) fun i less => ?_⟩
  · rw [headerByte, if_pos (by omega), Nat.zero_add]
  all_goals
    rw [headerByte]
    repeat rw [if_neg (by omega)]
    rw [if_pos (by omega), Nat.zero_add, Nat.add_sub_cancel_left]

theorem laid_archive (encodable : ∀ e ∈ entries, Encodable e)
    (size : 512 * (blk + totalBlocks entries + 1) ≤ image.size)
    (here : ∀ i < 512 * (totalBlocks entries + 1), image.byte (512 * blk + i) = archiveByte entries i) :
    Laid image blk entries := by
  induction entries generalizing blk with
  | nil => exact ⟨size, here 0 (by simp [totalBlocks])⟩
  | cons e entries ih =>
    have total : totalBlocks (e :: entries) = e.blocks + totalBlocks entries := List.sum_cons
    have blocks : e.content.length + 512 ≤ 512 * e.blocks := by
      rw [Entry.blocks]
      omega
    refine ⟨header_congr (header_headerByte (encodable e (.head _))) fun i less => ?_, fun i less => ?_,
      ih (fun e later => encodable e (.tail _ later)) (by omega) fun i less => ?_⟩
    · rw [here i (by omega), archiveByte, if_pos less, Nat.zero_add]
    · rw [show 512 * (blk + 1) + i = 512 * blk + (512 + i) by omega, here _ (by omega), archiveByte, if_neg (by omega),
        if_pos (by omega), Nat.add_sub_cancel_left]
    · rw [show 512 * (blk + e.blocks) + i = 512 * blk + (512 * e.blocks + i) by omega, here _ (by omega), archiveByte,
        if_neg (by omega), if_neg (by omega), Nat.add_sub_cancel_left]

theorem laid_imageOf (encodable : ∀ e ∈ entries, Encodable e) (below : 512 * (totalBlocks entries + 1) < 2 ^ 32) :
    Laid (imageOf entries below) 0 entries :=
  laid_archive encodable (by rw [imageOf, Nat.zero_add]) fun i _ => by rw [Nat.mul_zero, Nat.zero_add]; rfl

def oneFile (content : List Byte) : Entry := ⟨[0x66], 0, .regular, 0, 0, content, by decide⟩

theorem encodable_oneFile {content : List Byte} (short : content.length < 8 ^ 11) :
    ∀ e ∈ [oneFile content], Encodable e := by
  simp only [List.mem_singleton, forall_eq]
  exact ⟨Nat.two_pow_pos 21, Nat.two_pow_pos 21, Nat.two_pow_pos 21, short⟩

theorem totalBlocks_oneFile (content : List Byte) : totalBlocks [oneFile content] = (content.length + 511) / 512 + 1 :=
  List.sum_singleton

def hiImage : Initrd := imageOf [oneFile [0x68, 0x69]] (by decide)

theorem laid_hiImage : Laid hiImage 0 [oneFile [0x68, 0x69]] := laid_imageOf (encodable_oneFile (by decide)) _

section Large

theorem exists_large : ∃ content : List Byte, content.length = 2 ^ 31 := ⟨List.replicate _ 0, List.length_replicate⟩

variable {content : List Byte} (length : content.length = 2 ^ 31)

theorem totalBlocks_large (length : content.length = 2 ^ 31) : totalBlocks [oneFile content] = 2 ^ 22 + 1 := by
  rw [totalBlocks_oneFile, length]
  norm_num

def largeImage : Initrd := imageOf [oneFile content] (by rw [totalBlocks_large length]; norm_num)

theorem le_largeImage : 2 ^ 31 ≤ (largeImage length).size := by
  have size : (largeImage length).size = 512 * (totalBlocks [oneFile content] + 1) := rfl
  rw [size, totalBlocks_large length]
  norm_num

theorem laid_largeImage : Laid (largeImage length) 0 [oneFile content] :=
  laid_imageOf (encodable_oneFile (by rw [length]; norm_num)) _

end Large

end Petix.Proof.Tar
