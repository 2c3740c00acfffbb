import Petix.Proof.Tar.Lookup

namespace Petix.Proof.Tar
open Library Library.Result Kernel.Mounts Kernel.Vfs Kernel.Tar Spec.Tar

variable {φ : Type} {image : Initrd} {fs : TarFs} {buf : Buffer} {path : List Byte} {blk : Nat}
  {stack : Buffer} {inode : Inode φ}
variable {pos size : Nat}

theorem tarFieldLoop_ok_iff {left n : Nat} :
    (∃ value, tarFieldLoop buf left pos n = .ok value) ↔ ∃ i, pos ≤ i ∧ i < pos + left ∧ buf i = 0 := by
  induction left generalizing pos n with
  | zero =>
    simp only [tarFieldLoop, reduceCtorEq, exists_false, false_iff, not_exists, not_and]
    omega
  | succ left ih =>
    rw [tarFieldLoop]
    split
    case isTrue ends => simpa using ⟨pos, le_rfl, by omega, ends⟩
    case isFalse more =>
        rw [ih]
        constructor
        · rintro ⟨i, low, high, ends⟩
          exact ⟨i, by omega, by omega, ends⟩
        · rintro ⟨i, low, _, ends⟩
          refine ⟨i, lt_of_le_of_ne low ?_, by omega, ends⟩
          rintro rfl
          exact more ends

theorem tarField_ok_iff (inside : pos ≤ 512) :
    (∃ value, tarField buf pos = .ok value) ↔ Terminated buf pos := by
  rw [tarField, tarFieldLoop_ok_iff, blockSize, Nat.add_sub_cancel' inside, Terminated]

theorem terminated_mono {later : Nat} (le : pos ≤ later) (terminated : Terminated buf later) :
    Terminated buf pos := by
  obtain ⟨i, low, high, ends⟩ := terminated
  exact ⟨i, le.trans low, high, ends⟩

theorem terminated_of_ok {value : Nat} (inside : pos ≤ 512) (field : tarField buf pos = .ok value) :
    Terminated buf pos := (tarField_ok_iff inside).mp ⟨value, field⟩

theorem fillType_ok_iff (inode : Inode φ) : (∃ inode', fillType buf inode = .ok inode') ↔
    (buf typeflagAt = regtype ∨ buf typeflagAt = dirtype) ∨
      (buf typeflagAt = chrtype ∨ buf typeflagAt = blktype) ∧ Terminated buf devmajorAt ∧ Terminated buf devminorAt := by
  rw [fillType]
  split
  case isTrue regular => simp [regular]
  case isFalse notRegular =>
  split
  case isTrue directory => simp [directory]
  case isFalse notDirectory =>
  rw [or_iff_right (not_or.mpr ⟨notRegular, notDirectory⟩)]
  split
  case isFalse other => simp [other]
  case isTrue special =>
      constructor
      · intro done
        obtain ⟨ma, first, rest⟩ := exists_bind_ok.mp done
        obtain ⟨mi, second, -⟩ := exists_bind_ok.mp rest
        exact ⟨special, terminated_of_ok (by decide) first, terminated_of_ok (by decide) second⟩
      · rintro ⟨-, first, second⟩
        obtain ⟨_, first⟩ := (tarField_ok_iff (by decide)).mpr first
        obtain ⟨_, second⟩ := (tarField_ok_iff (by decide)).mpr second
        rw [first, second]
        exact ⟨_, rfl⟩

theorem fillInode_ok_iff (self : φ) (blk : Nat) (inode : Inode φ) :
    (∃ inode', fillInode self buf blk inode = .ok inode') ↔ Usable buf := by
  constructor
  · intro done
    obtain ⟨mode, -, rest⟩ := exists_bind_ok.mp done
    obtain ⟨inode', type, rest⟩ := exists_bind_ok.mp rest
    obtain ⟨size, field, -⟩ := exists_bind_ok.mp rest
    rcases (fillType_ok_iff _).mp ⟨inode', type⟩ with plain | ⟨special, -, ends⟩
    · exact .inl ⟨plain, terminated_of_ok (by decide) field⟩
    · exact .inr ⟨special, ends⟩
  · intro usable
    have ends : Terminated buf sizeAt := usable.elim And.right fun special => terminated_mono (by decide) special.2
    obtain ⟨mode, first⟩ := (tarField_ok_iff (by decide)).mpr (terminated_mono (show modeAt ≤ sizeAt by decide) ends)
    obtain ⟨_, last⟩ := (tarField_ok_iff (by decide)).mpr ends
    obtain ⟨_, type⟩ := (fillType_ok_iff { inode with exec := mode &&& 0o111 != 0 }).mpr
      (usable.imp And.left fun special => ⟨special.1, terminated_mono (by decide) special.2, special.2⟩)
    rw [fillInode, first, ok_bind, type, last]
    exact ⟨_, rfl⟩

theorem tarNextBlk_exact (field : tarField buf sizeAt = .ok size)
    (word : 512 * (blk + (size + 511) / 512 + 1) < 2 ^ 32) :
    tarNextBlk buf blk = .ok (blk + (size + 511) / 512 + 1) := by
  rw [tarNextBlk, field, blockSize]
  refine congrArg Except.ok ?_
  omega

theorem readHeader_outside (opened : Opened image fs) (small : image.size < 2 ^ 31) (outside : image.size < 512 * blk)
    (word : 512 * blk < 2 ^ 32) (buf : Buffer) : ∃ fault, readHeader fs blk buf = .error fault := by
  have left : signed32 image.size - (blockOffset blk : Int) = image.size - 512 * blk := by
    rw [signed32_eq small, blockOffset, blockSize]
    omega
  have wrapped : clamp (image.size - 512 * blk) 512 = 2 ^ 32 + image.size - 512 * blk := by
    rw [clamp]
    split <;> omega
  rw [readHeader, initrdRead, lseek, opened.size, blockSize]
  rw [left, wrapped, opened.initrd]
  split
  · exact ⟨_, rfl⟩
  · rw [if_pos (by rw [blockOffset, blockSize]; omega)]
    exact ⟨_, rfl⟩

theorem searchable_inside (searchable : Searchable image path blk buf) : 512 * blk ≤ image.size := by
  cases searchable with
  | stop inside stops => exact inside
  | next inside on field rest => exact inside

theorem searchable_returns (small : image.size < 2 ^ 31) (self : φ) (inode : Inode φ)
    (searchable : Searchable image path blk buf) (opened : Opened image fs) :
    ∃ fuel result, lookupAllLoop self path inode fuel fs blk buf = .ok result := by
  induction searchable generalizing fs with
  | @stop blk buf inside stops =>
    obtain ⟨fs', run, opened'⟩ := readHeader_eq opened small inside _
    refine ⟨1, ?_⟩
    rw [lookupAllLoop_succ _ _ _ _ run]
    by_cases zero : headerOver image blk buf 0 = 0
    · exact ⟨_, if_pos zero⟩
    · obtain ⟨found, usable⟩ := stops.resolve_left zero
      obtain ⟨_, filled⟩ := (fillInode_ok_iff self _ inode).mpr usable
      rw [if_neg zero, if_pos found, filled]
      exact ⟨_, rfl⟩
  | next inside on field rest ih =>
    obtain ⟨_, run, opened'⟩ := readHeader_eq opened small inside _
    obtain ⟨fuel, result, later⟩ := ih opened'
    refine ⟨fuel + 1, result, ?_⟩
    rw [lookupAllLoop_succ _ _ _ _ run, if_neg on.1, if_neg on.2,
      tarNextBlk_exact field (by have := searchable_inside rest; omega)]
    exact later

theorem goesOn_not_stops (on : GoesOn path buf) : ¬Stops path buf := by
  rintro (zero | ⟨found, -⟩)
  · exact on.1 zero
  · exact on.2 found

theorem searchable_next (searchable : Searchable image path blk buf) (on : GoesOn path (headerOver image blk buf))
    (field : tarField (headerOver image blk buf) sizeAt = .ok size) :
    Searchable image path (blk + (size + 511) / 512 + 1) (headerOver image blk buf) := by
  cases searchable with
  | stop inside stops => exact absurd stops (goesOn_not_stops on)
  | next inside on field' rest =>
    cases field.symm.trans field'
    exact rest

theorem readsAt_searchable (small : image.size < 2 ^ 31) (start : Searchable image path 0 stack)
    (reads : ReadsAt (initrdOpen image) path stack blk buf) : Searchable image path blk buf := by
  induction reads with
  | first => exact start
  | next before run on next ih =>
    obtain ⟨_, run', -⟩ := readHeader_eq (opened_initrdOpen image) small (searchable_inside ih) _
    cases run.symm.trans run'
    obtain ⟨_, field, -⟩ := bind_ok next
    have rest := searchable_next ih on field
    have inside := searchable_inside rest
    cases next.symm.trans (tarNextBlk_exact field (by omega))
    exact rest

theorem searchable_of_returns (small : image.size < 2 ^ 31)
    (noWrap : ∀ blk buf fs' buf' size, ReadsAt (initrdOpen image) path stack blk buf →
      readHeader (initrdOpen image) blk buf = .ok (fs', buf') → GoesOn path buf' → tarField buf' sizeAt = .ok size →
      512 * (blk + (size + 511) / 512 + 1) < 2 ^ 32) (self : φ) {fuel : Nat} {result : Int × Inode φ × TarFs}
    (reads : ReadsAt (initrdOpen image) path stack blk buf) (word : 512 * blk < 2 ^ 32) (opened : Opened image fs)
    (run : lookupAllLoop self path inode fuel fs blk buf = .ok result) : Searchable image path blk buf := by
  induction fuel generalizing blk buf fs with
  | zero => cases run
  | succ fuel ih =>
    have inside : 512 * blk ≤ image.size := by
      by_contra outside
      obtain ⟨_, fails⟩ := readHeader_outside opened small (by omega) word buf
      rw [lookupAllLoop, fails] at run
      cases run
    obtain ⟨_, read, opened'⟩ := readHeader_eq opened small inside buf
    obtain ⟨fs₀, read₀, -⟩ := readHeader_eq (opened_initrdOpen image) small inside buf
    rw [lookupAllLoop_succ _ _ _ _ read] at run
    split at run
    case isTrue zero => exact .stop inside (.inl zero)
    case isFalse nonzero =>
    split at run
    case isTrue found =>
        obtain ⟨inode', filled, -⟩ := bind_ok run
        exact .stop inside (.inr ⟨found, (fillInode_ok_iff self blk inode).mp ⟨inode', filled⟩⟩)
    case isFalse other =>
        obtain ⟨_, next, rest⟩ := bind_ok run
        obtain ⟨size, field, -⟩ := bind_ok next
        have word' := noWrap blk buf fs₀ _ size reads read₀ ⟨nonzero, other⟩ field
        cases next.symm.trans (tarNextBlk_exact field word')
        exact .next inside ⟨nonzero, other⟩ field (ih (.next reads read₀ ⟨nonzero, other⟩ next) word' opened' rest)

theorem tarfs_lookup_all_bounded_iff (image : Initrd) (path : List Byte) (stack : Buffer) (inode : Inode Unit) :
    Bounded image path stack inode ↔ image.size < 2 ^ 31 ∧ Searchable image path 0 stack := by
  constructor
  · rintro ⟨⟨fuel, _, run⟩, noWrap⟩
    have small : image.size < 2 ^ 31 := by
      by_contra large
      cases fuel with
      | zero => cases run
      | succ fuel =>
        rw [lookupAll_large (opened_initrdOpen image) (by omega)] at run
        cases run
    exact ⟨small, searchable_of_returns small noWrap () .first (by omega) (opened_initrdOpen image) run⟩
  · rintro ⟨small, searchable⟩
    refine ⟨searchable_returns small () inode searchable (opened_initrdOpen image), ?_⟩
    intro _ buf _ _ _ reads read on field
    have here := readsAt_searchable small searchable reads
    obtain ⟨_, read₀, -⟩ := readHeader_eq (opened_initrdOpen image) small (searchable_inside here) buf
    cases read.symm.trans read₀
    have inside := searchable_inside (searchable_next here on field)
    omega

def truncated : Initrd := ⟨512, fun i => if i = 0 then 0x66 else if i = 156 then 0x30 else 0, by decide⟩

theorem lookup_all_reads_past_image :
    lookupAll 3 () (initrdOpen truncated) [0x67] (fun _ => 0) anyInode = .error .pastBuffer := by
  rfl

end Petix.Proof.Tar
