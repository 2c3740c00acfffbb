import Petix.Proof.Exec.Segments
import Petix.Spec.Loading

namespace Petix.Proof.Exec
open List Library Kernel.Exec Spec.Exec Spec.Loading

variable {m m' : Memory} {file size bottom i j fuel x : Nat}

def InFile (m : Memory) (file i x : Nat) : Prop :=
  pVaddr m (phdrAt m file i) ≤ x ∧ x < pVaddr m (phdrAt m file i) + pFilesz m (phdrAt m file i)

section
variable (image : Image m file size bottom)
include image

theorem inFile_inSegment (loads : Loads m file i) (inside : InFile m file i x) : InSegment m file i x := by
  obtain ⟨low, _⟩ := inside
  have := (image.tail i loads).1
  exact ⟨low, by omega⟩

structure Loaded (m : Memory) (file i : Nat) (m' : Memory) : Prop where
  kernel : ∀ x < userBase, m' x = m x
  copied : ∀ j < i, Loads m file j → Copied m m' file j
  kept : ∀ x, (∀ j < i, Loads m file j → ¬ InFile m file j x) → m' x = m x

section
variable (below : file + size ≤ userBase)
include below

theorem Loaded.field (loaded : Loaded m file i m')
    (less : j < ePhnum m file) {offset : Nat} (inside : offset + 4 ≤ 32) :
    m'.read 4 (phdrAt m file j + offset) = m.read 4 (phdrAt m file j + offset) := by
  have table := image.table
  unfold phdrAt
  exact Memory.read_congr fun x low high => loaded.kernel x (by omega)

theorem Loaded.round (loaded : Loaded m file i m') (less : i < ePhnum m file) :
    ∃ m'', loadSegment file (phdrAt m file i) m' = some m'' ∧ Loaded m file (i + 1) m'' := by
  have type : pType m' (phdrAt m file i) = pType m (phdrAt m file i) :=
    show m'.read 4 (phdrAt m file i + 0) = _ from loaded.field image below less (by omega)
  have vaddr : pVaddr m' (phdrAt m file i) = pVaddr m (phdrAt m file i) := loaded.field image below less (by omega)
  have offset : pOffset m' (phdrAt m file i) = pOffset m (phdrAt m file i) := loaded.field image below less (by omega)
  have filesz : pFilesz m' (phdrAt m file i) = pFilesz m (phdrAt m file i) := loaded.field image below less (by omega)
  rw [loadSegment, type, vaddr, offset, filesz]
  by_cases load : pType m (phdrAt m file i) = 1
  · have loads : Loads m file i := ⟨less, load⟩
    have base : userBase ≤ pVaddr m (phdrAt m file i) := (image.segments i less load).1
    have source := image.inside i loads
    rw [if_pos load, if_pos base]
    obtain ⟨next, copy⟩ : ∃ next, m'.copy (pVaddr m (phdrAt m file i)) (file + pOffset m (phdrAt m file i))
      (pFilesz m (phdrAt m file i)) = next := ⟨_, rfl⟩
    have outside {x : Nat} (other : ¬ InFile m file i x) : next x = m' x := by
      rw [← copy]
      refine Memory.copy_outside _ _ _ _ x ?_
      unfold InFile at other
      omega
    refine ⟨next, congrArg some copy, ?_, ?_, ?_⟩
    · intro x low
      rw [outside fun here => absurd here.1 (by omega), loaded.kernel x low]
    · intro j le loads' t short
      by_cases same : j = i
      · subst same
        rw [← copy, Memory.copy_inside m' (.inr (by omega)) short, loaded.kernel _ (by omega)]
      · -- segment `j` was copied before and does not meet segment `i`
        have here : InFile m file j (pVaddr m (phdrAt m file j) + t) := ⟨by omega, by omega⟩
        rw [outside fun there => image.apart j i _ loads' loads same (inFile_inSegment image loads' here)
          (inFile_inSegment image loads there)]
        exact loaded.copied j (by omega) loads' t short
    · intro x other
      rw [outside (other i i.lt_succ_self loads)]
      exact loaded.kept x fun j earlier => other j (by omega)
  · rw [if_neg load]
    refine ⟨m', rfl, ⟨loaded.kernel, fun j le loads => ?_, fun x other => loaded.kept x fun j less => other j (by omega)⟩⟩
    refine loaded.copied j (lt_of_le_of_ne (by omega) ?_) loads
    rintro rfl
    exact load loads.2

theorem Loaded.run (loaded : Loaded m file i m') (reached : i ≤ ePhnum m file) (enough : ePhnum m file < i + fuel) :
    ∃ m'', loadSegments file (file + ePhoff m file) fuel i m' = some m'' ∧ Loaded m file (ePhnum m file) m'' := by
  have phnum : ePhnum m' file = ePhnum m file := by
    have complete := image.complete
    exact Memory.read_congr fun x low high => loaded.kernel x (by omega)
  induction fuel generalizing i m' with
  | zero => omega
  | succ fuel ih =>
    rw [loadSegments, phnum]
    by_cases less : i < ePhnum m file
    · obtain ⟨m₁, load, loaded₁⟩ := loaded.round image below less
      have phnum₁ : ePhnum m₁ file = ePhnum m file := by
        have complete := image.complete
        exact Memory.read_congr fun x low high => loaded₁.kernel x (by omega)
      obtain ⟨m₂, rest, loaded₂⟩ := ih loaded₁ (by omega) (by omega) phnum₁
      refine ⟨m₂, ?_, loaded₂⟩
      rw [if_pos less]
      exact Option.bind_eq_some_iff.mpr ⟨m₁, load, rest⟩
    · obtain rfl : i = ePhnum m file := by omega
      exact ⟨m', if_neg less, loaded⟩

theorem loadElfFile_loaded :
    ∃ m', loadElfFile file m = some (eEntry m file, m') ∧ Loaded m file (ePhnum m file) m' := by
  have word : ePhnum m file < 256 ^ 2 := Memory.read_lt m 2 _
  have start : Loaded m file 0 m := ⟨fun _ _ => rfl, fun _ less => absurd less (Nat.not_lt_zero _), fun _ _ => rfl⟩
  obtain ⟨m', loads, loaded⟩ := start.run image below (Nat.zero_le _) (show ePhnum m file < 0 + 2 ^ 16 by omega)
  have complete := image.complete
  have entry : eEntry m' file = eEntry m file := Memory.read_congr fun x low high => loaded.kernel x (by omega)
  refine ⟨m', ?_, loaded⟩
  rw [loadElfFile, if_pos ⟨image.header, image.executable⟩, loads, ← entry]
  rfl

end

theorem Loaded.tail (loaded : Loaded m file (ePhnum m file) m')
    (loads : Loads m file i) {t : Nat} (behind : pFilesz m (phdrAt m file i) ≤ t)
    (inside : t < pMemsz m (phdrAt m file i)) :
    m' (pVaddr m (phdrAt m file i) + t) = m (pVaddr m (phdrAt m file i) + t) := by
  refine loaded.kept _ fun j less loads' there => ?_
  by_cases same : j = i
  · subst same
    have := there.2
    omega
  · exact image.apart j i _ loads' loads same (inFile_inSegment image loads' there) ⟨by omega, by omega⟩

theorem segments_zero_filled_iff (below : file + size ≤ userBase) :
    ∃ m', loadElfFile file m = some (eEntry m file, m') ∧
      ((∀ i, Loads m file i → Copied m m' file i ∧ ZeroTail m m' file i) ↔
        ∀ i, Loads m file i → ZeroTail m m file i) := by
  obtain ⟨m', run, loaded⟩ := loadElfFile_loaded image below
  refine ⟨m', run, ?_⟩
  constructor
  · intro filled i loads t behind inside
    rw [← loaded.tail image loads behind inside]
    exact (filled i loads).2 t behind inside
  · intro zero i loads
    refine ⟨loaded.copied i loads.1 loads, fun t behind inside => ?_⟩
    rw [loaded.tail image loads behind inside]
    exact zero i loads t behind inside

end

/-- A file at address 8 whose one segment has no bytes in the file and four bytes of memory. The user part of the
memory is filled with `fill`. -/
def sample (fill : Byte) : Memory := fun x =>
  if x < userBase then
    (correctEIdent ++ [2, 0, 3, 0, 1, 0, 0, 0, 0, 0, 0, 0xc0, 52, 0, 0, 0] ++ replicate 12 0 ++ [1, 0] ++
      replicate 6 0 ++ [1, 0, 0, 0, 84, 0, 0, 0, 0, 0, 0, 0xc0] ++ replicate 8 0 ++ [4, 0, 0, 0] ++
      replicate 8 0 : List Byte).getD (x - 8) 0
  else fill

theorem sample_read (fill : Byte) {width address : Nat} (low : address + width ≤ userBase) :
    (sample fill).read width address = (sample 0).read width address :=
  Memory.read_congr fun x _ high => by rw [sample, sample, if_pos (by omega), if_pos (by omega)]

theorem sample_high (fill : Byte) (t : Nat) : sample fill (userBase + t) = fill := if_neg (by omega)

theorem sample_phdr (fill : Byte) (i : Nat) : phdrAt (sample fill) 8 i = 60 + 32 * i := by
  have phoff : ePhoff (sample fill) 8 = 52 := (sample_read fill (by decide)).trans (by decide +kernel)
  rw [phdrAt, phoff]

theorem sample_phnum (fill : Byte) : ePhnum (sample fill) 8 = 1 :=
  (sample_read fill (by decide)).trans (by decide +kernel)

theorem sample_vaddr (fill : Byte) : pVaddr (sample fill) (phdrAt (sample fill) 8 0) = userBase := by
  rw [sample_phdr]
  exact (sample_read fill (by decide)).trans (by decide +kernel)

theorem sample_image (fill : Byte) : Image (sample fill) 8 84 (userBase + 4) := by
  have phnum := sample_phnum fill
  have phoff : ePhoff (sample fill) 8 = 52 := (sample_read fill (by decide)).trans (by decide +kernel)
  have only {i : Nat} (less : i < ePhnum (sample fill) 8) : phdrAt (sample fill) 8 i = 60 ∧ i = 0 := by
    obtain rfl : i = 0 := by omega
    exact ⟨sample_phdr fill 0, rfl⟩
  have offset : pOffset (sample fill) 60 = 84 := (sample_read fill (by decide)).trans (by decide +kernel)
  have vaddr : pVaddr (sample fill) 60 = userBase := by
    have here := sample_vaddr fill
    rwa [sample_phdr] at here
  have filesz : pFilesz (sample fill) 60 = 0 := (sample_read fill (by decide)).trans (by decide +kernel)
  have memsz : pMemsz (sample fill) 60 = 4 := (sample_read fill (by decide)).trans (by decide +kernel)
  refine ⟨⟨by omega, ?_, ?_, by decide, by omega, fun i less _ => ?_⟩, by decide, fun i loads => ?_, fun i loads => ?_,
    fun i j x loads loads' other => ?_⟩
  · have ident : (range 16).map (fun i => sample fill (8 + i)) = (range 16).map fun i => sample 0 (8 + i) := by
      refine map_congr_left fun i inside => ?_
      have small : 8 + i < userBase := lt_trans (Nat.add_lt_add_left (mem_range.mp inside) 8) (by decide)
      rw [sample, sample, if_pos small, if_pos small]
    have header : checkElfHeader (sample 0) 8 = true := by decide +kernel
    unfold checkElfHeader at header ⊢
    rwa [ident]
  · exact (sample_read fill (by decide)).trans (by decide +kernel)
  · obtain ⟨here, rfl⟩ := only less
    rw [← phdrAt, here, vaddr, filesz]
    omega
  · rw [(only loads.1).1, offset, filesz]
  · rw [(only loads.1).1, vaddr, filesz, memsz]
    omega
  · exact absurd ((only loads.1).2.trans (only loads'.1).2.symm) other

theorem sample_only {fill : Byte} {i : Nat} (loads : Loads (sample fill) 8 i) : i = 0 := by
  have phnum := sample_phnum fill
  have := loads.1
  omega

theorem segments_zero_filled_clean : ∃ m', loadElfFile 8 (sample 0) = some (eEntry (sample 0) 8, m') ∧
      ∀ i, Loads (sample 0) 8 i → Copied (sample 0) m' 8 i ∧ ZeroTail (sample 0) m' 8 i := by
  obtain ⟨m', run, filled⟩ := segments_zero_filled_iff (sample_image 0) (by decide)
  refine ⟨m', run, filled.mpr fun i loads t _ _ => ?_⟩
  rw [sample_only loads, sample_vaddr, sample_high]

theorem segment_keeps_old_bytes : Image (sample 0xaa) 8 84 (userBase + 4) ∧
      ∃ m', loadElfFile 8 (sample 0xaa) = some (eEntry (sample 0xaa) 8, m') ∧ Loads (sample 0xaa) 8 0 ∧
        m' (pVaddr (sample 0xaa) (phdrAt (sample 0xaa) 8 0)) = 0xaa ∧ ¬ ZeroTail (sample 0xaa) m' 8 0 := by
  have image := sample_image 0xaa
  have loads : Loads (sample 0xaa) 8 0 := by decide +kernel
  have behind : pFilesz (sample 0xaa) (phdrAt (sample 0xaa) 8 0) ≤ 0 := by decide +kernel
  have inside : 0 < pMemsz (sample 0xaa) (phdrAt (sample 0xaa) 8 0) := by decide +kernel
  obtain ⟨m', run, loaded⟩ := loadElfFile_loaded image (by decide)
  have old := loaded.tail image loads behind inside
  rw [sample_vaddr, sample_high] at old
  refine ⟨image, m', run, loads, by rw [sample_vaddr]; exact old, fun zero => ?_⟩
  have cleared := zero 0 behind inside
  rw [sample_vaddr, old] at cleared
  exact absurd cleared (by decide)

end Petix.Proof.Exec
