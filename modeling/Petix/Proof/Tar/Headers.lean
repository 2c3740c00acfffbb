import Petix.Proof.Fs.Nodes
import Petix.Proof.Fs.Tokens
import Petix.Spec.Tar

namespace Petix.Proof.Tar
open Library Kernel.Mounts Kernel.Vfs Kernel.Tar Spec.Tar

variable {φ : Type} {image : Initrd} {fs : TarFs} {buf : Buffer} {e : Entry} {path : List Byte}
  {entries : List Entry} {blk : Nat}
variable {byte : Nat → Byte} {at_buf pos width value : Nat} {rest digits : List Byte}

theorem opened_initrdOpen (image : Initrd) : Opened image (initrdOpen image) := ⟨rfl, rfl⟩

theorem initrdRead_eq (opened : Opened image fs) (small : image.size < 2 ^ 31) (off n room : Nat)
    (inside : off ≤ image.size) (word : n < 2 ^ 32) (fits : min (image.size - off) n ≤ room) (buf : Buffer) :
    ∃ fs', initrdRead (lseek fs off) buf room n =
        .ok ((min (image.size - off) n : Nat), fs', overlay image off (min (image.size - off) n) buf) ∧
      Opened image fs' := by
  have left : (image.size : Int) - off = (image.size - off : Nat) := by omega
  refine ⟨⟨fs.initrd, fs.size, off + (min (image.size - off) n : Nat)⟩, ?_, opened.initrd, opened.size⟩
  rw [initrdRead, lseek, opened.size, opened.initrd, signed32_eq small, left, clamp_eq word]
  dsimp only
  rw [if_neg (by omega), if_neg (by omega), signed32_eq (by omega), Int.toNat_natCast]
  rfl

theorem blockOffset_eq (small : image.size < 2 ^ 31) (inside : 512 * blk ≤ image.size) :
    blockOffset blk = 512 * blk := by
  rw [blockOffset, blockSize]
  omega

theorem readHeader_eq (opened : Opened image fs) (small : image.size < 2 ^ 31) (inside : 512 * blk ≤ image.size)
    (buf : Buffer) : ∃ fs', readHeader fs blk buf = .ok (fs', headerOver image blk buf) ∧ Opened image fs' := by
  obtain ⟨fs', run, opened'⟩ :=
    initrdRead_eq opened small (512 * blk) 512 512 inside (by omega) (Nat.min_le_right _ _) buf
  refine ⟨fs', ?_, opened'⟩
  rw [readHeader, blockOffset_eq small inside, blockSize, run]
  rfl

theorem text_congr {pos width : Nat} {s : List Byte} (text : Text byte pos s)
    (short : s.length < width) {buf : Buffer} (same : ∀ i < width, buf (at_buf + i) = byte (pos + i)) :
    Text buf at_buf s := by
  intro i le
  rw [same i (by omega)]
  exact text i le

theorem text_tail {a : Byte} (text : Text buf pos (a :: rest)) : Text buf (pos + 1) rest := by
  intro i le
  rw [Nat.add_assoc, Nat.add_comm 1, text (i + 1) (Nat.succ_le_succ le), List.getD_cons_succ]

theorem octal_digit {n : Nat} {c : Byte} (digit : 48 ≤ c.toNat ∧ c.toNat < 56) :
    ((8 * (n % 2 ^ 32 : Nat) + c.toInt - 48) % 2 ^ 32).toNat = (8 * n + (c.toNat - 48)) % 2 ^ 32 := by
  rw [BitVec.toInt_eq_toNat_of_lt (by omega)]
  omega

theorem tarFieldLoop_eq (octal : ∀ c ∈ digits, 48 ≤ c.toNat ∧ c.toNat < 56) {left pos : Nat}
    (text : Text buf pos digits) (fits : digits.length < left) (n : Nat) : tarFieldLoop buf left pos (n % 2 ^ 32) =
      .ok (digits.foldl (fun n c => 8 * n + (c.toNat - 48)) n % 2 ^ 32) := by
  induction digits generalizing left pos n with
  | nil =>
    obtain ⟨left, rfl⟩ := Nat.exists_eq_add_of_lt fits
    have ends : buf pos = 0 := text 0 le_rfl
    rw [tarFieldLoop, if_pos ends, List.foldl_nil]
  | cons c digits ih =>
    obtain ⟨-, rfl⟩ := Nat.exists_eq_add_of_lt fits
    have first : buf pos = c := text 0 (Nat.zero_le _)
    have digit := octal c (.head _)
    have nonzero : c ≠ 0 := by
      rintro rfl
      exact absurd digit.1 (by decide)
    rw [tarFieldLoop, first, if_neg nonzero, octal_digit digit, List.foldl_cons]
    exact ih (fun c later => octal c (.tail _ later)) (text_tail text) (by rw [List.length_cons]; omega) _

theorem tarField_eq (field : Field buf pos width value) (fits : pos + width ≤ 512) :
    tarField buf pos = .ok (value % 2 ^ 32) := by
  obtain ⟨_, _, octal, text, rfl⟩ := field
  exact tarFieldLoop_eq octal text (by rw [blockSize]; omega) 0

theorem field_congr (field : Field byte pos width value) {buf : Buffer}
    (same : ∀ i < width, buf (at_buf + i) = byte (pos + i)) : Field buf at_buf width value := by
  obtain ⟨digits, short, octal, text, equal⟩ := field
  exact ⟨digits, short, octal, text_congr text short same, equal⟩

theorem header_congr (header : Header byte pos e) {buf : Buffer} (same : ∀ i < 512, buf (at_buf + i) = byte (pos + i))
    : Header buf at_buf e where
  name := text_congr header.name e.named.2.2 fun i less => same i (by omega)
  mode := field_congr header.mode fun i less => by rw [Nat.add_assoc, same _ (by omega), Nat.add_assoc]
  size := field_congr header.size fun i less => by rw [Nat.add_assoc, same _ (by omega), Nat.add_assoc]
  kind := by rw [same 156 (by omega), header.kind]
  major := field_congr header.major fun i less => by rw [Nat.add_assoc, same _ (by omega), Nat.add_assoc]
  minor := field_congr header.minor fun i less => by rw [Nat.add_assoc, same _ (by omega), Nat.add_assoc]

section
variable (header : Header buf 0 e)
include header

theorem headerName_eq : headerName buf = e.name := by
  obtain ⟨-, ends, _⟩ := e.named
  refine Fs.cstr_eq (fun i less => header.name i less.le) ends ?_ (by rw [blockSize]; omega)
  rw [header.name _ le_rfl, List.getD_eq_default _ _ le_rfl]

theorem header_first : buf 0 ≠ 0 := by
  obtain ⟨nonempty, ends, -⟩ := e.named
  have first : buf 0 = e.name.getD 0 0 := header.name 0 (Nat.zero_le _)
  rw [first, List.getD_eq_getElem _ _ (List.length_pos_iff.mpr nonempty)]
  exact fun zero => ends (zero ▸ List.getElem_mem _)

theorem text_behind (whole : e.name = path ++ rest) : Text buf path.length rest := by
  intro i _
  have here := header.name (path.length + i) (by rw [whole, List.length_append]; omega)
  rw [Nat.zero_add, whole, List.getD_append_right _ _ _ _ (by omega), Nat.add_sub_cancel_left] at here
  exact here

theorem slash_last (whole : e.name = path ++ rest) :
    buf path.length = slash ∧ buf (path.length + 1) = 0 ↔ rest = [slash] := by
  have ends : 0 ∉ rest := fun zero => e.named.2.1 (whole ▸ List.mem_append_right _ zero)
  have there := text_behind header whole
  cases rest with
  | nil =>
    rw [show buf path.length = 0 from there 0 le_rfl]
    simp [slash]
  | cons a rest =>
    rw [show buf path.length = a from there 0 (Nat.zero_le _), there 1 (by simp), List.getD_cons_succ]
    cases rest with
    | nil => simp
    | cons b rest =>
      simp only [List.mem_cons, not_or] at ends
      exact ⟨fun ⟨_, zero⟩ => absurd zero.symm ends.2.1, nofun⟩

theorem matches_iff (terminated : 0 ∉ path) (short : path.length < 100) : Matches buf path ↔ Named path e := by
  have ends := e.named.2.1
  have len : strnlen path 100 = path.length := by
    rw [strnlen]
    omega
  rw [Matches, Named, headerName_eq header, len, Fs.strncmp_eq_zero_iff ends terminated,
    Fs.strncmp_eq_zero_iff ends terminated, List.take_of_length_le e.named.2.2.le, List.take_of_length_le short.le,
    List.take_length]
  apply or_congr_right
  constructor
  · rintro ⟨front, behind⟩
    have whole : e.name = path ++ e.name.drop path.length := by
      nth_rewrite 1 [← List.take_append_drop path.length e.name, front]
      rfl
    rw [whole, (slash_last header whole).mp behind]
  · intro whole
    exact ⟨by rw [whole, List.take_left], (slash_last header whole).mpr rfl⟩

theorem matches_iff_of_long (terminated : 0 ∉ path) (long : 100 ≤ path.length) : Matches buf path ↔ Named path e := by
  have ends := e.named.2.1
  have short := e.named.2.2
  have other {n : Nat} (all : 100 ≤ n) : strncmp e.name path n ≠ 0 := by
    rw [Ne, Fs.strncmp_eq_zero_iff ends terminated, List.take_of_length_le (by omega)]
    intro same
    have length := congrArg List.length same
    rw [List.length_take] at length
    omega
  refine iff_of_false ?_ ?_
  · rw [Matches, headerName_eq header, strnlen]
    rintro (whole | ⟨front, -⟩)
    · exact other le_rfl whole
    · exact other (by omega) front
  · rintro (same | same)
    · rw [same] at short
      omega
    · rw [same, List.length_append] at short
      omega

theorem matches_named (terminated : 0 ∉ path) : Matches buf path ↔ Named path e :=
  (Nat.lt_or_ge path.length 100).elim (matches_iff header terminated) (matches_iff_of_long header terminated)

end

theorem laid_inside (laid : Laid image blk entries) : 512 * (blk + 1) ≤ image.size := by
  induction entries generalizing blk with
  | nil => exact laid.1
  | cons e entries ih =>
    have further : blk + 1 ≤ blk + e.blocks + 1 := Nat.succ_le_succ (Nat.le_add_right _ _)
    exact (Nat.mul_le_mul_left 512 further).trans (ih laid.2.2)

theorem laid_length (laid : Laid image blk entries) : 512 * (blk + entries.length + 1) ≤ image.size := by
  induction entries generalizing blk with
  | nil => exact laid.1
  | cons e entries ih =>
    have behind := ih laid.2.2
    rw [Entry.blocks] at behind
    rw [List.length_cons]
    omega

theorem laid_content (laid : Laid image blk (e :: entries)) : 512 * (blk + 1) + e.content.length ≤ image.size := by
  have behind := laid_inside laid.2.2
  clear laid
  rw [Entry.blocks] at behind
  omega

theorem tarNextBlk_eq (header : Header buf 0 e) (small : image.size < 2 ^ 31)
    (inside : 512 * (blk + 1) + e.content.length ≤ image.size) : tarNextBlk buf blk = .ok (blk + e.blocks) := by
  have size := tarField_eq header.size (by omega)
  rw [tarNextBlk, sizeAt, size, Entry.blocks, blockSize]
  refine congrArg Except.ok ?_
  omega

theorem mkdev_major {ma mi : Nat} (small : ma < 2 ^ 16) (small' : mi < 2 ^ 16) :
    major (mkdev ma mi) = ma ∧ minor (mkdev ma mi) = mi := by
  have shifted : ma <<< 16 % 2 ^ 32 = ma <<< 16 := by omega
  have whole : mkdev ma mi = ma <<< 16 + mi := by rw [mkdev, shifted, Nat.shiftLeft_add_eq_or_of_lt small']
  rw [major, minor, whole, Nat.shiftRight_eq_div_pow, Nat.shiftLeft_eq,
    show 0xffff = 2 ^ 16 - 1 from rfl, Nat.and_two_pow_sub_one_eq_mod, Nat.and_two_pow_sub_one_eq_mod]
  omega

theorem octal_lt (octal : ∀ c ∈ digits, 48 ≤ c.toNat ∧ c.toNat < 56) (n : Nat) :
    digits.foldl (fun n c => 8 * n + (c.toNat - 48)) n < (n + 1) * 8 ^ digits.length := by
  induction digits generalizing n with
  | nil => simp
  | cons c digits ih =>
    have digit := octal c (.head _)
    have rest := ih (fun c later => octal c (.tail _ later)) (8 * n + (c.toNat - 48))
    rw [List.foldl_cons, List.length_cons, Nat.pow_succ']
    refine rest.trans_le ?_
    rw [← Nat.mul_assoc]
    exact Nat.mul_le_mul_right _ (by omega)

theorem short_field {pos value : Nat} (field : Field buf pos 8 value) (fits : pos + 8 ≤ 512) :
    tarField buf pos = .ok value := by
  rw [tarField_eq field fits]
  obtain ⟨digits, _, octal, -, rfl⟩ := field
  have bound := octal_lt octal 0
  have largest : 8 ^ digits.length ≤ 8 ^ 7 := Nat.pow_le_pow_right (by omega) (by omega)
  rw [Nat.mod_eq_of_lt]
  rw [Spec.Tar.octal]
  omega

theorem fillInode_describes (header : Header buf 0 e) (fits : e.content.length < 2 ^ 32) (self : φ) (blk : Nat)
    (inode : Inode φ) : ∃ inode', fillInode self buf blk inode = .ok inode' ∧ Describes self blk e inode' := by
  have mode := short_field header.mode (by omega)
  have size := tarField_eq header.size (by omega)
  have ma := short_field header.major (by omega)
  have mi := short_field header.minor (by omega)
  have flag := header.kind
  rw [Nat.mod_eq_of_lt fits] at size
  rw [fillInode, modeAt, sizeAt, mode, size, Result.ok_bind, fillType, typeflagAt, devmajorAt, devminorAt, flag, ma, mi]
  cases kind : e.kind with
  | regular => exact ⟨_, rfl, rfl, by rw [kind]; rfl, rfl, rfl, rfl, by rw [kind]; nofun⟩
  | directory => exact ⟨_, rfl, rfl, by rw [kind]; rfl, rfl, rfl, rfl, by rw [kind]; nofun⟩
  | character => exact ⟨_, rfl, rfl, by rw [kind]; rfl, rfl, rfl, rfl, fun _ => ⟨rfl, mkdev_major⟩⟩
  | block => exact ⟨_, rfl, rfl, by rw [kind]; rfl, rfl, rfl, rfl, fun _ => ⟨rfl, mkdev_major⟩⟩

end Petix.Proof.Tar
