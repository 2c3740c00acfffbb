import Petix.Proof.Tar.Lookup

namespace Petix.Proof.Tar
open Function Library Kernel.Mounts Kernel.Vfs Kernel.Tar Spec.Tar

variable {image : Initrd} {fs : TarFs} {buf : Buffer} {e : Entry} {entries : List Entry} {blk n : Nat} {f : File Unit}
variable {start : Nat} {inode : Inode Unit}

theorem place_append (blk : Nat) (before behind : List Entry) :
    place blk (before ++ behind) = place blk before ++ place (blk + totalBlocks before) behind := by
  induction before generalizing blk with
  | nil => rfl
  | cons e before ih =>
    have total : totalBlocks (e :: before) = e.blocks + totalBlocks before := List.sum_cons
    rw [List.cons_append, place, ih, place, total, Nat.add_assoc]
    rfl

theorem laid_append {before behind : List Entry} (laid : Laid image blk (before ++ behind)) :
    Laid image (blk + totalBlocks before) behind := by
  induction before generalizing blk with
  | nil => exact laid
  | cons e before ih =>
    have total : totalBlocks (e :: before) = e.blocks + totalBlocks before := List.sum_cons
    rw [total, ← Nat.add_assoc]
    exact ih laid.2.2

theorem exists_split (among : (blk, e) ∈ place start entries) :
    ∃ before behind, entries = before ++ e :: behind ∧ blk = start + totalBlocks before := by
  induction entries generalizing start with
  | nil => cases among
  | cons e' entries ih =>
    rcases List.mem_cons.mp among with here | later
    · cases here
      exact ⟨[], entries, rfl, rfl⟩
    · obtain ⟨before, behind, rfl, rfl⟩ := ih later
      exact ⟨e' :: before, behind, rfl, Nat.add_assoc _ _ _⟩

theorem laid_at (laid : Laid image start entries) (among : (blk, e) ∈ place start entries) :
    ∃ later, Laid image blk (e :: later) := by
  obtain ⟨_, behind, rfl, rfl⟩ := exists_split among
  exact ⟨behind, laid_append laid⟩

structure OpenAt (blk : Nat) (e : Entry) (off : Nat) (f : File Unit) : Prop where
  size : f.size = e.content.length
  start : f.privateData = (512 * (blk + 1) : Nat)
  offset : f.offset = off
  within : off ≤ e.content.length

theorem topen_start (word : 512 * (blk + 1) < 2 ^ 32) (number : inode.inodeId = blk)
    (f : File Unit) : (topen inode f).privateData = (512 * (blk + 1) : Nat) := by
  rw [topen, number, blockSize, Nat.mul_comm, Nat.mod_eq_of_lt word]
  exact if_neg (by rw [idRoot]; omega)

theorem openAt_topen (word : 512 * (blk + 1) < 2 ^ 32) (describes : Describes () blk e inode)
    (regular : e.kind = .regular) (file : File Unit) : OpenAt blk e 0 (fsOpen topen inode file 0).2 := by
  have type : inode.ftype = .regular := by rw [describes.ftype, regular, Kind.ftype]
  rw [fsOpen, type]
  exact ⟨congrArg Nat.cast describes.size, topen_start word describes.inodeId _, rfl, Nat.zero_le _⟩

theorem tread_eq (laid : Laid image blk (e :: entries)) (small : image.size < 2 ^ 31) (opened : Opened image fs)
    {off : Nat} (openAt : OpenAt blk e off f) (word : n < 2 ^ 32) (buf : Buffer) :
    ∃ fs' f' buf', tread fs f buf n = .ok ((min (e.content.length - off) n : Nat), fs', f', buf') ∧ Opened image fs' ∧
      OpenAt blk e (off + min (e.content.length - off) n) f' ∧
      (List.range (min (e.content.length - off) n)).map buf' = (e.content.drop off).take n := by
  have inside := laid_content laid
  have within := openAt.within
  have position : f.privateData + f.offset = (512 * (blk + 1) + off : Nat) := by
    rw [openAt.start, openAt.offset]
    omega
  have left : clamp (f.size - f.offset) n = min (e.content.length - off) n := by
    have nonnegative : f.size - f.offset = (e.content.length - off : Nat) := by
      rw [openAt.size, openAt.offset]
      omega
    rw [nonnegative, clamp_eq word]
  have whole : min (image.size - (512 * (blk + 1) + off)) (min (e.content.length - off) n) =
      min (e.content.length - off) n := by omega
  obtain ⟨fs', run, opened'⟩ := initrdRead_eq opened small (512 * (blk + 1) + off) (min (e.content.length - off) n) n
    (by omega) (by omega) (by omega) buf
  rw [whole] at run
  refine ⟨fs', if 0 < ((min (e.content.length - off) n : Nat) : Int) then
    { f with offset := f.offset + (min (e.content.length - off) n : Nat) } else f,
    overlay image (512 * (blk + 1) + off) (min (e.content.length - off) n) buf, ?_, opened', ?_, ?_⟩
  · rw [tread, left, position, run]
    rfl
  · split
    case isTrue positive => exact ⟨openAt.size, openAt.start, by simp [openAt.offset], by omega⟩
    case isFalse nothing => exact ⟨openAt.size, openAt.start, by rw [openAt.offset]; omega, by omega⟩
  · apply List.ext_getElem
    · simp
      omega
    · intro i low _
      rw [List.length_map, List.length_range] at low
      simp only [List.getElem_map, List.getElem_range, List.getElem_take, List.getElem_drop, overlay, if_pos low]
      rw [Nat.add_assoc, laid.2.1 (off + i) (by omega), List.getD_eq_getElem]

variable {s s' : Readers} {call : ReaderCall}

structure Progress (image : Initrd) (entries : List Entry) (s : Readers) : Prop where
  opened : Opened image s.fs
  handles : ∀ h handle, s.handle h = some handle → ∃ blk, (blk, handle.entry) ∈ place 0 entries ∧
    OpenAt blk handle.entry handle.got.length handle.file ∧ handle.got <+: handle.entry.content

theorem progress_step (laid : Laid image 0 entries) (small : image.size < 2 ^ 31) (progress : Progress image entries s)
    (step : ReaderStep (place 0 entries) s call s') : Progress image entries s' := by
  cases step with
  | @opens h blk e inode file among regular describes free =>
    refine ⟨progress.opened, fun h' handle here => ?_⟩
    by_cases same : h' = h
    · subst same
      dsimp only at here
      rw [update_self] at here
      cases here
      obtain ⟨later, placed⟩ := laid_at laid among
      have inside := laid_content placed
      exact ⟨blk, among, openAt_topen (by omega) describes regular file, List.nil_prefix⟩
    · dsimp only at here
      rw [update_of_ne same] at here
      exact progress.handles h' handle here
  | @reads h n buf handle ret fs' file' buf' here word run =>
    obtain ⟨blk, among, openAt, got⟩ := progress.handles h handle here
    obtain ⟨_, placed⟩ := laid_at laid among
    obtain ⟨_, _, _, run', opened', _, bytes⟩ := tread_eq placed small progress.opened openAt word buf
    cases run.symm.trans run'
    refine ⟨opened', fun h' handle' there => ?_⟩
    by_cases same : h' = h
    · subst same
      dsimp only at there
      rw [update_self] at there
      cases there
      rw [Int.toNat_natCast]
      refine ⟨blk, among, ?_, ?_⟩
      · rwa [List.length_append, List.length_map, List.length_range]
      · rw [bytes]
        obtain ⟨rest, whole⟩ := got
        rw [← whole, List.drop_left]
        exact (List.prefix_append_right_inj _).mpr (List.take_prefix n rest)
    · dsimp only at there
      rw [update_of_ne same] at there
      exact progress.handles h' handle' there
  | moves => exact ⟨⟨progress.opened.initrd, progress.opened.size⟩, progress.handles⟩

theorem tarfs_reads_own_content (laid : Laid image 0 entries) (small : image.size < 2 ^ 31)
    (reachable : (readers image entries).Reachable s) {h : Nat} {handle : Handle} (here : s.handle h = some handle) :
    handle.got <+: handle.entry.content ∧ ∀ n < 2 ^ 32, ∀ buf, ∃ ret fs' file' buf',
      tread s.fs handle.file buf n = .ok (ret, fs', file', buf') ∧
        (0 < n → ret = 0 → handle.got = handle.entry.content) := by
  have progress : Progress image entries s := by
    refine reachable.invariant ?_ fun s call s' => progress_step laid small
    rintro - rfl
    exact ⟨opened_initrdOpen image, fun h handle here => absurd here (Option.some_ne_none handle).symm⟩
  obtain ⟨_, among, openAt, got⟩ := progress.handles h handle here
  obtain ⟨_, placed⟩ := laid_at laid among
  refine ⟨got, fun n word buf => ?_⟩
  obtain ⟨fs', f', buf', run, -⟩ := tread_eq placed small progress.opened openAt word buf
  refine ⟨_, fs', f', buf', run, fun positive nothing => got.eq_of_length_le ?_⟩
  omega

def anyFile : File Unit := ⟨0, 0, anyInode, 0⟩

def fileInode (content : List Byte) : Inode Unit := ⟨false, .regular, content.length, 0, 0, ()⟩

def oneReader (image : Initrd) (content : List Byte) : Readers :=
  ⟨initrdOpen image, update (fun _ => none) 0
    (some ⟨(fsOpen topen (fileInode content) anyFile 0).2, oneFile content, []⟩)⟩

theorem describes_fileInode (content : List Byte) : Describes () 0 (oneFile content) (fileInode content) :=
  ⟨rfl, rfl, rfl, by simp [fileInode, oneFile], rfl, nofun⟩

theorem reachable_oneReader (image : Initrd) (content : List Byte) :
    (readers image [oneFile content]).Reachable (oneReader image content) := by
  refine .next (a := .opens 0 0 (oneFile content) (fileInode content) anyFile) (.initial rfl) ?_
  exact .opens (List.mem_singleton_self _) rfl (describes_fileInode content) rfl

theorem tarfs_reads_own_content_hi :
    ∃ handle, (oneReader hiImage [0x68, 0x69]).handle 0 = some handle ∧ handle.got <+: [0x68, 0x69] ∧
      ∃ ret fs' file' buf', tread (initrdOpen hiImage) handle.file (fun _ => 0) 1 = .ok (ret, fs', file', buf') ∧
        ret ≠ 0 := by
  obtain ⟨got, reads⟩ :=
    tarfs_reads_own_content laid_hiImage (by decide) (reachable_oneReader hiImage [0x68, 0x69]) (h := 0) rfl
  obtain ⟨ret, fs', file', buf', run, last⟩ := reads 1 (by decide) (fun _ => 0)
  have nonzero : ret ≠ 0 := by
    intro nothing
    cases last (by decide) nothing
  exact ⟨_, rfl, got, ret, fs', file', buf', run, nonzero⟩

theorem tread_leaves_large_image : ∃ (content : List Byte) (length : content.length = 2 ^ 31) (handle : Handle),
      Laid (largeImage length) 0 [oneFile content] ∧ (largeImage length).size < 2 ^ 32 ∧
      (readers (largeImage length) [oneFile content]).Reachable (oneReader (largeImage length) content) ∧
      (oneReader (largeImage length) content).handle 0 = some handle ∧
      tread (initrdOpen (largeImage length)) handle.file (fun _ => 0) 1 = .error .pastBuffer := by
  obtain ⟨content, length⟩ := exists_large
  have large := le_largeImage length
  refine ⟨content, length, _, laid_largeImage length, (largeImage length).below, reachable_oneReader _ _, rfl, ?_⟩
  have openAt := openAt_topen (by omega) (describes_fileInode content) rfl anyFile
  rw [tread, openAt.start, openAt.offset, ← Nat.cast_add, initrdRead_large (opened_initrdOpen _) large _ (by omega)]
  rfl

end Petix.Proof.Tar
