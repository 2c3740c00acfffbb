import Petix.Spec.Exec

namespace Petix.Proof.Exec
open List Library Kernel.Exec Spec.Exec

variable {m m' : Memory} {file size bottom i fuel : Nat}

section
variable (program : Program m file size bottom)
include program

theorem program_congr
    (same : ∀ x, file ≤ x → x < file + size → m' x = m x) :
    Program m' file size bottom ∧ ePhoff m' file = ePhoff m file ∧ ePhnum m' file = ePhnum m file ∧
      eEntry m' file = eEntry m file := by
  have complete := program.complete
  have read (width offset : Nat) (inside : offset + width ≤ size) :
      m'.read width (file + offset) = m.read width (file + offset) :=
    Memory.read_congr fun x low high => same x (by omega) (by omega)
  have phoff : ePhoff m' file = ePhoff m file := read 4 28 (by omega)
  have phnum : ePhnum m' file = ePhnum m file := read 2 44 (by omega)
  refine ⟨⟨program.base, ?_, ?_, complete, ?_, ?_⟩, phoff, phnum, read 4 24 (by omega)⟩
  · have ident : (range 16).map (fun i => m' (file + i)) = (range 16).map fun i => m (file + i) := by
      apply map_congr_left
      intro i inside
      have := mem_range.mp inside
      exact same _ (by omega) (by omega)
    have header := program.header
    unfold checkElfHeader at header ⊢
    rwa [ident]
  · exact (read 2 16 (by omega)).trans program.executable
  · rw [phoff, phnum]
    exact program.table
  · rw [phoff, phnum]
    intro i less
    have table := program.table
    have field (offset : Nat) (inside : offset + 4 ≤ 32) :
        m'.read 4 (file + ePhoff m file + 32 * i + offset) = m.read 4 (file + ePhoff m file + 32 * i + offset) :=
      Memory.read_congr fun x low high => same x (by omega) (by omega)
    unfold pType pVaddr pFilesz
    rw [show m'.read 4 (file + ePhoff m file + 32 * i) = _ from field 0 (by omega), field 8 (by omega),
      field 16 (by omega)]
    exact program.segments i less

theorem loadSegment_loads (less : i < ePhnum m file) :
    ∃ m', loadSegment file (file + ePhoff m file + 32 * i) m = some m' ∧
      ∀ x, x < userBase ∨ bottom ≤ x → m' x = m x := by
  unfold loadSegment
  by_cases load : pType m (file + ePhoff m file + 32 * i) = 1
  · obtain ⟨low, _⟩ := program.segments i less load
    rw [if_pos load, if_pos low]
    refine ⟨_, rfl, fun x outside => Memory.copy_outside _ _ _ _ x ?_⟩
    omega
  · rw [if_neg load]
    exact ⟨m, rfl, fun _ _ => rfl⟩

theorem loadSegments_loads (below : file + size ≤ userBase)
    (reached : i ≤ ePhnum m file) (enough : ePhnum m file < i + fuel) :
    ∃ m', loadSegments file (file + ePhoff m file) fuel i m = some m' ∧
      ∀ x, x < userBase ∨ bottom ≤ x → m' x = m x := by
  induction fuel generalizing i m with
  | zero => omega
  | succ fuel ih =>
    rw [loadSegments]
    by_cases less : i < ePhnum m file
    · obtain ⟨m₁, load, kept₁⟩ := loadSegment_loads program less
      obtain ⟨program₁, phoff, _, -⟩ := program_congr program fun x _ high => kept₁ x (.inl (by omega))
      obtain ⟨m₂, loads, kept₂⟩ := @ih m₁ (i + 1) program₁ (by omega) (by omega)
      rw [phoff] at loads
      refine ⟨m₂, ?_, fun x outside => (kept₂ x outside).trans (kept₁ x outside)⟩
      rw [if_pos less, load]
      exact loads
    · exact ⟨m, if_neg less, fun _ _ => rfl⟩

theorem loadElfFile_loads (below : file + size ≤ userBase) :
    ∃ m', loadElfFile file m = some (eEntry m file, m') ∧ ∀ x, x < userBase ∨ bottom ≤ x → m' x = m x := by
  have word : ePhnum m file < 256 ^ 2 := Memory.read_lt m 2 _
  obtain ⟨m', loads, kept⟩ := loadSegments_loads program below (Nat.zero_le _) (show ePhnum m file < 0 + 2 ^ 16 by omega)
  obtain ⟨-, -, -, entry⟩ := program_congr program fun x _ high => kept x (.inl (by omega))
  refine ⟨m', ?_, kept⟩
  rw [loadElfFile, if_pos ⟨program.header, program.executable⟩, loads, ← entry]
  rfl

end

end Petix.Proof.Exec
