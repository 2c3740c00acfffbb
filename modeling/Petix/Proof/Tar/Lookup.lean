import Petix.Proof.Tar.Images

namespace Petix.Proof.Tar
open Library Kernel.Mounts Kernel.Vfs Kernel.Tar Spec.Tar

variable {φ : Type} {image : Initrd} {fs : TarFs} {buf : Buffer} {e : Entry} {path : List Byte}
  {entries : List Entry} {blk fuel : Nat}
variable {start : Nat} {path' : List Byte}

theorem overlay_header (header : Header image.byte (512 * blk) e) (buf : Buffer) :
    Header (overlay image (512 * blk) 512 buf) 0 e :=
  header_congr header fun i less => by rw [overlay, Nat.zero_add, if_pos less]

theorem readHeader_laid (opened : Opened image fs) (small : image.size < 2 ^ 31) (laid : Laid image blk entries)
    (buf : Buffer) :
    ∃ fs', readHeader fs blk buf = .ok (fs', overlay image (512 * blk) 512 buf) ∧ Opened image fs' := by
  have inside := laid_inside laid
  have start : 512 * blk ≤ image.size := by omega
  obtain ⟨fs', run, opened'⟩ := readHeader_eq opened small start buf
  rw [headerOver, Nat.min_eq_right (by omega)] at run
  exact ⟨fs', run, opened'⟩

theorem lookupAllLoop_succ {fs' : TarFs} {buf' : Buffer} (self : φ) (path : List Byte) (inode : Inode φ) (fuel : Nat)
    (run : readHeader fs blk buf = .ok (fs', buf')) : lookupAllLoop self path inode (fuel + 1) fs blk buf =
      if buf' 0 = 0 then .ok (-ENOENT, inode, fs')
      else if Matches buf' path then fillInode self buf' blk inode >>= fun inode => .ok (0, inode, fs')
      else tarNextBlk buf' blk >>= fun next => lookupAllLoop self path inode fuel fs' next buf' := by
  rw [lookupAllLoop, run]
  rfl

theorem lookupAllLoop_laid (small : image.size < 2 ^ 31)
    (matches_named : ∀ {buf e}, Header buf 0 e → (Matches buf path ↔ Named path e)) (self : φ) (inode : Inode φ)
    (laid : Laid image blk entries) (opened : Opened image fs) (enough : entries.length < fuel) (buf : Buffer) :
    ∃ ret inode' fs', lookupAllLoop self path inode fuel fs blk buf = .ok (ret, inode', fs') ∧ Opened image fs' ∧
      LookedUp self path (place blk entries) inode ret inode' := by
  induction entries generalizing blk fs fuel buf with
  | nil =>
    obtain ⟨fuel, rfl⟩ := Nat.exists_eq_add_of_lt enough
    obtain ⟨fs', run, opened'⟩ := readHeader_laid opened small laid buf
    have ends : overlay image (512 * blk) 512 buf 0 = 0 := laid.2
    refine ⟨-ENOENT, inode, fs', ?_, opened', rfl, rfl⟩
    rw [lookupAllLoop_succ _ _ _ _ run, if_pos ends]
  | cons e entries ih =>
    obtain ⟨fuel, rfl⟩ := Nat.exists_eq_succ_of_ne_zero (Nat.ne_zero_of_lt enough)
    have left : entries.length < fuel := Nat.lt_of_succ_lt_succ enough
    obtain ⟨fs', run, opened'⟩ := readHeader_laid opened small laid buf
    have header := overlay_header laid.1 buf
    have inside := laid_content laid
    rw [lookupAllLoop_succ _ _ _ _ run, if_neg (header_first header), place]
    by_cases named : Named path e
    · obtain ⟨inode', filled, describes⟩ := fillInode_describes header (by omega) self blk inode
      refine ⟨0, inode', fs', ?_, opened', ?_⟩
      · rw [if_pos ((matches_named header).mpr named), filled]
        rfl
      · rw [LookedUp, firstNamed, List.find?_cons_of_pos (by simpa using named)]
        exact ⟨rfl, describes⟩
    · obtain ⟨ret, inode', fs'', rest, opened'', _⟩ := ih laid.2.2 opened' left (overlay image (512 * blk) 512 buf)
      refine ⟨ret, inode', fs'', ?_, opened'', ?_⟩
      · rw [if_neg (mt (matches_named header).mp named), tarNextBlk_eq header small inside]
        exact rest
      · rwa [LookedUp, firstNamed, List.find?_cons_of_neg (by simpa using named)]

theorem tarfs_lookup_all_first_named (laid : Laid image 0 entries) (small : image.size < 2 ^ 31)
    (opened : Opened image fs) (terminated : 0 ∉ path) (short : path.length < 100) (self : φ) (inode : Inode φ)
    (stack : Buffer) (enough : entries.length < fuel) :
    ∃ ret inode' fs', lookupAll fuel self fs path stack inode = .ok (ret, inode', fs') ∧
      LookedUp self path (place 0 entries) inode ret inode' := by
  obtain ⟨ret, inode', fs', run, -, found⟩ :=
    lookupAllLoop_laid small (fun header => matches_iff header terminated short) self inode laid opened enough stack
  exact ⟨ret, inode', fs', run, found⟩

theorem le_of_mem_place (among : (blk, e) ∈ place start entries) : start ≤ blk := by
  induction entries generalizing start with
  | nil => cases among
  | cons first entries ih =>
    rcases List.mem_cons.mp among with same | later
    · exact (congrArg Prod.fst same).ge
    · exact (Nat.le_add_right _ _).trans (ih later)

theorem eq_of_mem_place {e' : Entry} (among : (blk, e) ∈ place start entries)
    (among' : (blk, e') ∈ place start entries) : e = e' := by
  induction entries generalizing start with
  | nil => cases among
  | cons first entries ih =>
    have further {e : Entry} (later : (start, e) ∈ place (start + first.blocks) entries) : False := by
      have := le_of_mem_place later
      rw [Entry.blocks] at this
      omega
    rcases List.mem_cons.mp among with same | later
    · cases same
      rcases List.mem_cons.mp among' with same' | later'
      · exact (congrArg Prod.snd same').symm
      · exact (further later').elim
    · rcases List.mem_cons.mp among' with same' | later'
      · cases same'
        exact (further later).elim
      · exact ih later later'

theorem firstNamed_cons (path : List Byte) (blk : Nat) (e : Entry) (entries : List Entry) :
    firstNamed path (place blk (e :: entries)) =
      if Named path e then some (blk, e) else firstNamed path (place (blk + e.blocks) entries) := by
  rw [firstNamed, place, List.find?_cons]
  split
  case h_1 named => rw [if_pos (of_decide_eq_true named)]
  case h_2 other =>
    rw [if_neg (of_decide_eq_false other)]
    rfl

theorem mem_of_firstNamed {placed : List (Nat × Entry)} (found : firstNamed path placed = some (blk, e)) :
    (blk, e) ∈ placed :=
  List.mem_of_find?_eq_some found

theorem lookupAllLoop_congr (small : image.size < 2 ^ 31) (terminated : 0 ∉ path)
    (terminated' : 0 ∉ path') (self : φ) (inode : Inode φ) (laid : Laid image blk entries) (opened : Opened image fs)
    (same : firstNamed path (place blk entries) = firstNamed path' (place blk entries)) (buf : Buffer) :
    lookupAllLoop self path inode fuel fs blk buf = lookupAllLoop self path' inode fuel fs blk buf := by
  induction entries generalizing blk fs fuel buf with
  | nil =>
    cases fuel with
    | zero => rfl
    | succ fuel =>
      obtain ⟨fs', run, -⟩ := readHeader_laid opened small laid buf
      have ends : overlay image (512 * blk) 512 buf 0 = 0 := laid.2
      rw [lookupAllLoop_succ _ _ _ _ run, lookupAllLoop_succ _ _ _ _ run, if_pos ends, if_pos ends]
  | cons e entries ih =>
    cases fuel with
    | zero => rfl
    | succ fuel =>
      obtain ⟨_, run, opened'⟩ := readHeader_laid opened small laid buf
      have header := overlay_header laid.1 buf
      have first := header_first header
      have later {path : List Byte} : firstNamed path (place (blk + e.blocks) entries) ≠ some (blk, e) := by
        intro found
        have := le_of_mem_place (mem_of_firstNamed found)
        rw [Entry.blocks] at this
        omega
      rw [firstNamed_cons, firstNamed_cons] at same
      rw [lookupAllLoop_succ _ _ _ _ run, lookupAllLoop_succ _ _ _ _ run, if_neg first, if_neg first]
      simp only [matches_named header terminated, matches_named header terminated']
      by_cases named : Named path e
      · by_cases named' : Named path' e
        · rw [if_pos named, if_pos named']
        · rw [if_pos named, if_neg named'] at same
          exact absurd same.symm later
      · by_cases named' : Named path' e
        · rw [if_neg named, if_pos named'] at same
          exact absurd same later
        · rw [if_neg named, if_neg named'] at same
          rw [if_neg named, if_neg named', tarNextBlk_eq header small (laid_content laid)]
          exact ih laid.2.2 opened' same _

theorem firstNamed_eq_of_lookedUp {self : φ} {inode inode' : Inode φ} {ret : Int}
    (found : LookedUp self path (place blk entries) inode ret inode')
    (found' : LookedUp self path' (place blk entries) inode ret inode') :
    firstNamed path (place blk entries) = firstNamed path' (place blk entries) := by
  rw [LookedUp] at found found'
  cases first : firstNamed path (place blk entries) with
  | none =>
    rw [first] at found
    cases first' : firstNamed path' (place blk entries) with
    | none => rfl
    | some entry =>
      rw [first'] at found'
      cases found.1.symm.trans found'.1
  | some entry =>
    rw [first] at found
    cases first' : firstNamed path' (place blk entries) with
    | none =>
      rw [first'] at found'
      cases found.1.symm.trans found'.1
    | some entry' =>
      rw [first'] at found'
      obtain ⟨number, _⟩ := entry
      obtain ⟨number', _⟩ := entry'
      obtain rfl : number = number' := found.2.inodeId.symm.trans found'.2.inodeId
      rw [eq_of_mem_place (mem_of_firstNamed first) (mem_of_firstNamed first')]

section
variable (opened : Opened image fs) (large : 2 ^ 31 ≤ image.size)
include opened large

theorem initrdRead_large (off : Nat) {room : Nat}
    (more : room < image.size - off) (n : Nat) (buf : Buffer) :
    initrdRead (lseek fs off) buf room n = .error .pastBuffer := by
  have below := image.below
  have left : clamp (signed32 image.size - off) n = image.size - off := by
    rw [clamp, signed32]
    split <;> omega
  rw [initrdRead, lseek, opened.size, left]
  rw [if_pos more]

theorem readHeader_large (buf : Buffer) :
    readHeader fs 0 buf = .error .pastBuffer := by
  rw [readHeader, show blockOffset 0 = 0 from rfl, blockSize, initrdRead_large opened large 0 (by omega)]
  rfl

theorem lookupAll_large (fuel : Nat) (self : φ)
    (path : List Byte) (stack : Buffer) (inode : Inode φ) :
    lookupAll (fuel + 1) self fs path stack inode = .error .pastBuffer := by
  rw [lookupAll, lookupAllLoop, readHeader_large opened large]
  rfl

end

def anyInode : Inode Unit := ⟨false, .dir, 0, 0, 0, ()⟩

theorem tarfs_lookup_all_first_named_hi :
    ∃ ret inode' fs', lookupAll 2 () (initrdOpen hiImage) [0x66] (fun _ => 0) anyInode = .ok (ret, inode', fs') ∧
      ret = 0 ∧ inode'.ftype = .regular ∧ inode'.size = 2 := by
  obtain ⟨ret, inode', fs', run, found⟩ := tarfs_lookup_all_first_named laid_hiImage (by decide)
    (opened_initrdOpen hiImage) (show 0 ∉ [0x66] by decide) (by decide) () anyInode (fun _ => 0) (show 1 < 2 by decide)
  have first : firstNamed [0x66] (place 0 [oneFile [0x68, 0x69]]) = some (0, oneFile [0x68, 0x69]) := rfl
  exact ⟨ret, inode', fs', run, found.1, found.2.ftype, found.2.size⟩

theorem lookup_all_overruns_buffer : ∃ (content : List Byte) (length : content.length = 2 ^ 31),
      Laid (largeImage length) 0 [oneFile content] ∧ (largeImage length).size < 2 ^ 32 ∧
      lookupAll 2 () (initrdOpen (largeImage length)) [0x66] (fun _ => 0) anyInode = .error .pastBuffer := by
  obtain ⟨content, length⟩ := exists_large
  exact ⟨content, length, laid_largeImage length, (largeImage length).below,
    lookupAll_large (opened_initrdOpen _) (le_largeImage length) 1 () _ _ _⟩

end Petix.Proof.Tar
