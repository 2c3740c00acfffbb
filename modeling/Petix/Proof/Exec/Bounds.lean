import Mathlib.Data.List.TakeWhile
import Petix.Proof.Exec.Tails
import Petix.Spec.Loader

namespace Petix.Proof.Exec
open List Library Kernel Kernel.Loader Spec.Loading Spec.Loader
open Kernel.Exec hiding loadSegment loadSegments loadElfFile

variable {m m' : Memory} {file size i fuel : Nat}

theorem userBase_eq : userBase = 0xc0000000 := rfl

theorem userStackTop_eq : userStackTop = 0xffffefff := rfl

theorem add32_eq {a b : Nat} (fits : a + b < 2 ^ 32) : add32 a b = a + b := Nat.mod_eq_of_lt fits

theorem add32_wraps {a b : Nat} (high : 2 ^ 32 ≤ a + b) (once : a + b < 2 * 2 ^ 32) : add32 a b = a + b - 2 ^ 32 := by
  unfold add32
  omega

theorem read_confined_iff (below : file + size ≤ userBase) {a count : Nat} (fits : file + a < 2 ^ 32) :
    Confined file size (.read (file + a) count) ↔ count = 0 ∨ a + count ≤ size := by
  rw [userBase_eq] at below
  constructor
  · intro confined
    by_contra outside
    have first := (confined 0 (by omega)).2
    have last := (confined (size - a) (by omega)).2
    rw [add32_eq (by omega)] at last
    omega
  · intro _ _ _
    rw [add32_eq (by omega)]
    omega

theorem read_add32_confined_iff (below : file + size ≤ userBase) {a count : Nat} (word : a < 2 ^ 32) :
    Confined file size (.read (add32 file a) count) ↔ count = 0 ∨ a + count ≤ size := by
  by_cases fits : file + a < 2 ^ 32
  · rw [add32_eq fits]
    exact read_confined_iff below fits
  · rw [userBase_eq] at below
    rw [add32_wraps (by omega) (by omega)]
    constructor
    · intro confined
      by_contra outside
      have first := (confined 0 (by omega)).1
      rw [add32_eq (by omega)] at first
      omega
    · intro _ _ _
      omega

theorem write_confined_iff {v count : Nat} (low : userBase ≤ v) (word : v < 2 ^ 32) :
    Confined file size (.write v count) ↔ count = 0 ∨ v + count ≤ userStackTop + 1 := by
  rw [userBase_eq] at low
  constructor
  · intro confined
    by_contra outside
    rw [userStackTop_eq] at outside
    have first := (confined 0 (by omega)).2
    have last := (confined (0xfffff000 - v) (by omega)).2
    rw [add32_eq (by omega), userStackTop_eq] at last
    omega
  · intro inside _ _
    rw [userStackTop_eq] at inside ⊢
    rw [add32_eq (by omega), userBase_eq]
    omega

theorem copy32_outside (m : Memory) {target source count x : Nat} (other : ∀ t < count, x ≠ add32 target t) :
    copy32 m target source count x = m x := by
  induction count with
  | zero => rfl
  | succ count ih =>
    rw [copy32, Function.update_of_ne (other count count.lt_succ_self)]
    exact ih fun t less => other t (by omega)

def SameFile (m m' : Memory) (file size : Nat) : Prop := ∀ x, file ≤ x → x < file + size → m' x = m x

theorem SameFile.read (same : SameFile m m' file size) {width address : Nat} (low : file ≤ address)
    (high : address + width ≤ file + size) : m'.read width address = m.read width address :=
  Memory.read_congr fun x above under => same x (by omega) (by omega)

theorem phdr_confined_iff (below : file + size ≤ userBase) (near : i = 0 ∨ ePhoff m file + 32 * i < size + 32) :
    Confined file size (.read (add32 (add32 file (ePhoff m file)) (32 * i)) 4) ↔ ePhoff m file + 32 * i + 4 ≤ size := by
  have word : ePhoff m file < 256 ^ 4 := Memory.read_lt m 4 _
  have base := userBase_eq
  by_cases first : i = 0
  · have whole : add32 (add32 file (ePhoff m file)) (32 * i) = add32 file (ePhoff m file) := by
      rw [first, Nat.mul_zero]
      exact Nat.mod_eq_of_lt (Nat.mod_lt _ (by decide))
    rw [whole, read_add32_confined_iff below (by omega)]
    omega
  · rw [add32_eq (a := file) (by omega), add32_eq (by omega), Nat.add_assoc, read_confined_iff below (by omega)]
    omega

theorem phdr_eq (below : file + size ≤ userBase) (inside : ePhoff m file + 32 * i + 4 ≤ size) :
    add32 (add32 file (ePhoff m file)) (32 * i) = phdrAt m file i := by
  have base := userBase_eq
  rw [add32_eq (a := file) (by omega), add32_eq (by omega), phdrAt]

def AllConfined (file size : Nat) (accesses : List Access) : Prop := ∀ a ∈ accesses, Confined file size a

theorem allConfined_cons {a : Access} {accesses : List Access} :
    AllConfined file size (a :: accesses) ↔ Confined file size a ∧ AllConfined file size accesses :=
  forall_mem_cons

theorem allConfined_append {first second : List Access} :
    AllConfined file size (first ++ second) ↔ AllConfined file size first ∧ AllConfined file size second :=
  forall_mem_append

theorem allConfined_nil : AllConfined file size [] := nofun

theorem field_confined_iff (below : file + size ≤ userBase) (inside : ePhoff m file + 32 * i + 4 ≤ size)
    {offset last : Nat} (four : last = offset + 4) (small : last ≤ 20) :
    Confined file size (.read (phdrAt m file i + offset) 4) ↔ ePhoff m file + 32 * i + last ≤ size := by
  have base := userBase_eq
  rw [phdrAt, Nat.add_assoc, Nat.add_assoc, read_confined_iff below (by omega)]
  omega

theorem type_confined (below : file + size ≤ userBase) (inside : ePhoff m file + 32 * i + 4 ≤ size) :
    Confined file size (.read (phdrAt m file i) 4) := by
  exact (field_confined_iff below inside rfl (by decide)).mpr inside

section Fields
variable (same : SameFile m m' file size)
include same

theorem SameFile.pType (inside : ePhoff m file + 32 * i + 4 ≤ size) :
    pType m' (phdrAt m file i) = pType m (phdrAt m file i) := by
  unfold phdrAt
  exact same.read (by omega) (by omega)

theorem SameFile.pOffset (inside : ePhoff m file + 32 * i + 8 ≤ size) :
    pOffset m' (phdrAt m file i) = pOffset m (phdrAt m file i) := by
  unfold phdrAt
  exact same.read (by omega) (by omega)

theorem SameFile.pVaddr (inside : ePhoff m file + 32 * i + 12 ≤ size) :
    pVaddr m' (phdrAt m file i) = pVaddr m (phdrAt m file i) := by
  unfold phdrAt
  exact same.read (by omega) (by omega)

theorem SameFile.pFilesz (inside : ePhoff m file + 32 * i + 20 ≤ size) :
    pFilesz m' (phdrAt m file i) = pFilesz m (phdrAt m file i) := by
  unfold phdrAt
  exact same.read (by omega) (by omega)

end Fields

section
variable (below : file + size ≤ userBase)
include below

theorem segment_confined_iff (same : SameFile m m' file size)
    (middle : ePhoff m file + 32 * i + 12 ≤ size) (base : userBase ≤ pVaddr m (phdrAt m file i)) :
    AllConfined file size [.read (phdrAt m file i) 4, .read (phdrAt m file i + 8) 4, .read (phdrAt m file i + 4) 4,
        .read (phdrAt m file i + 16) 4,
        .read (add32 file (pOffset m' (phdrAt m file i))) (pFilesz m' (phdrAt m file i)),
        .write (pVaddr m' (phdrAt m file i)) (pFilesz m' (phdrAt m file i))] ↔ ePhoff m file + 32 * i + 20 ≤ size ∧
        (pFilesz m (phdrAt m file i) ≠ 0 → pOffset m (phdrAt m file i) + pFilesz m (phdrAt m file i) ≤ size ∧
            pVaddr m (phdrAt m file i) + pFilesz m (phdrAt m file i) ≤ userStackTop + 1) := by
  have head : ePhoff m file + 32 * i + 4 ≤ size := by omega
  have fileszRead := field_confined_iff below head (show 20 = 16 + 4 from rfl) (by decide)
  by_cases whole : ePhoff m file + 32 * i + 20 ≤ size
  · have offset := same.pOffset (show ePhoff m file + 32 * i + 8 ≤ size by omega)
    rw [offset, same.pVaddr middle, same.pFilesz whole]
    have source := @read_add32_confined_iff file size below _ (pFilesz m (phdrAt m file i))
      (show pOffset m (phdrAt m file i) < 2 ^ 32 from Memory.read_lt m 4 _)
    have target := @write_confined_iff file size _ (pFilesz m (phdrAt m file i)) base
      (show pVaddr m (phdrAt m file i) < 2 ^ 32 from Memory.read_lt m 4 _)
    constructor
    · intro confined
      simp only [allConfined_cons, source, target] at confined
      obtain ⟨-, -, -, -, source, target, -⟩ := confined
      exact ⟨whole, fun nonzero => ⟨source.resolve_left nonzero, target.resolve_left nonzero⟩⟩
    · rintro ⟨-, segment⟩
      simp only [allConfined_cons, source, target]
      refine ⟨type_confined below head, ?_, ?_, fileszRead.mpr whole, ?_, ?_, allConfined_nil⟩
      · exact (field_confined_iff below head (show 12 = 8 + 4 from rfl) (by decide)).mpr middle
      · exact (field_confined_iff below head (show 8 = 4 + 4 from rfl) (by decide)).mpr (by omega)
      · exact or_iff_not_imp_left.mpr fun nonzero => (segment nonzero).1
      · exact or_iff_not_imp_left.mpr fun nonzero => (segment nonzero).2
  · refine iff_of_false (fun confined => whole (fileszRead.mp (confined _ ?_))) fun inside => whole inside.1
    simp only [mem_cons, true_or, or_true]

theorem round_confined_iff (same : SameFile m m' file size) (near : i = 0 ∨ ePhoff m file + 32 * i < size + 32) :
    AllConfined file size (loadSegment file (add32 (add32 file (ePhoff m file)) (32 * i)) m').1 ↔
      EntryInside m file size i := by
  by_cases head : ePhoff m file + 32 * i + 4 ≤ size
  · rw [phdr_eq below head, loadSegment, same.pType head]
    by_cases load : pType m (phdrAt m file i) = 1
    · rw [if_pos load]
      have vaddrRead := field_confined_iff below head (show 12 = 8 + 4 from rfl) (by decide)
      by_cases middle : ePhoff m file + 32 * i + 12 ≤ size
      · by_cases base : userBase ≤ pVaddr m (phdrAt m file i)
        · rw [if_pos (same.pVaddr middle ▸ base), segment_confined_iff below same middle base]
          exact ⟨fun segment => ⟨head, fun _ => ⟨middle, fun _ => segment⟩⟩, fun inside => (inside.2 load).2 base⟩
        · rw [if_neg (same.pVaddr middle ▸ base)]
          refine iff_of_true ?_ ⟨head, fun _ => ⟨middle, fun high => absurd high base⟩⟩
          exact allConfined_cons.mpr ⟨type_confined below head, allConfined_cons.mpr ⟨vaddrRead.mpr middle, allConfined_nil⟩⟩
      · refine iff_of_false (fun confined => middle (vaddrRead.mp (confined _ ?_))) fun inside => middle (inside.2 load).1
        split_ifs <;> simp only [mem_cons, true_or, or_true]
    · rw [if_neg load]
      refine iff_of_true ?_ ⟨head, fun load' => absurd load' load⟩
      exact allConfined_cons.mpr ⟨type_confined below head, allConfined_nil⟩
  · refine iff_of_false (fun confined => head ((phdr_confined_iff below near).mp ?_)) fun inside => head inside.1
    refine confined _ ?_
    unfold loadSegment
    split_ifs <;> exact .head _

theorem round_result (same : SameFile m m' file size) (inside : EntryInside m file size i) :
    (Halts m file i ∧ (loadSegment file (add32 (add32 file (ePhoff m file)) (32 * i)) m').2 = none) ∨
      ¬ Halts m file i ∧ ∃ m'', (loadSegment file (add32 (add32 file (ePhoff m file)) (32 * i)) m').2 = some m'' ∧
        SameFile m m'' file size := by
  obtain ⟨head, rest⟩ := inside
  have type := same.pType head
  rw [phdr_eq below head, loadSegment, type]
  by_cases load : pType m (phdrAt m file i) = 1
  · obtain ⟨middle, rest⟩ := rest load
    have vaddr := same.pVaddr middle
    rw [if_pos load, vaddr]
    by_cases base : userBase ≤ pVaddr m (phdrAt m file i)
    · obtain ⟨whole, segment⟩ := rest base
      have filesz := same.pFilesz whole
      rw [if_pos base, filesz]
      refine .inr ⟨fun halts => absurd halts.2 (by omega), _, rfl, fun x low high => ?_⟩
      -- the segment lies above the file, and does not reach the end of the address space
      rw [copy32_outside, same x low high]
      intro _ _
      have target := (segment (by omega)).2
      rw [userStackTop_eq] at target
      rw [add32_eq (by omega)]
      omega
    · rw [if_neg base]
      exact .inl ⟨⟨load, by omega⟩, rfl⟩
  · rw [if_neg load]
    exact .inr ⟨fun halts => load halts.1, m', rfl, same⟩

theorem run_confined_iff (header : 46 ≤ size) (same : SameFile m m' file size)
    (near : i = 0 ∨ ePhoff m file + 32 * i < size + 32) (enough : ePhnum m file < i + fuel) :
    AllConfined file size (loadSegments file (add32 file (ePhoff m file)) fuel i m').1 ↔
      ∀ l, i ≤ l → l < ePhnum m file → (∀ j, i ≤ j → j < l → ¬ Halts m file j) → EntryInside m file size l := by
  have base := userBase_eq
  have phnumRead : Confined file size (.read (file + 44) 2) :=
    (read_confined_iff below (by omega)).mpr (.inr (by omega))
  induction fuel generalizing i m' with
  | zero =>
    refine iff_of_true allConfined_nil fun l low less => ?_
    omega
  | succ fuel ih =>
    have phnum : ePhnum m' file = ePhnum m file := same.read (by omega) (by omega)
    rw [loadSegments, phnum]
    by_cases less : i < ePhnum m file
    · rw [if_pos less]
      have round := round_confined_iff below same near
      by_cases inside : EntryInside m file size i
      · rcases round_result below same inside with ⟨halts, result⟩ | ⟨goes, m'', result, same'⟩
        · -- nothing is read behind the entry at which the kernel halts
          generalize loadSegment file (add32 (add32 file (ePhoff m file)) (32 * i)) m' = load at round result
          obtain ⟨accesses, last⟩ := load
          obtain rfl : last = none := result
          refine iff_of_true (allConfined_cons.mpr ⟨phnumRead, round.mpr inside⟩) fun l low bound before => ?_
          rcases Nat.eq_or_lt_of_le low with rfl | later
          · exact inside
          · exact absurd halts (before i le_rfl later)
        · have head := inside.1
          have rest := @ih m'' (i + 1) same' (.inr (by omega)) (by omega)
          generalize loadSegment file (add32 (add32 file (ePhoff m file)) (32 * i)) m' = load at round result
          obtain ⟨_, last⟩ := load
          obtain rfl : last = some m'' := result
          dsimp only
          rw [cons_append, allConfined_cons, allConfined_append]
          constructor
          · rintro ⟨-, -, later⟩ l low bound before
            rcases Nat.eq_or_lt_of_le low with rfl | above
            · exact inside
            · exact rest.mp later l above bound fun j low' => before j (by omega)
          · intro all
            refine ⟨phnumRead, round.mpr inside, rest.mpr fun l low bound before => ?_⟩
            refine all l (by omega) bound fun j low' under => ?_
            rcases Nat.eq_or_lt_of_le low' with rfl | above
            · exact goes
            · exact before j above under
      · refine iff_of_false (fun confined => inside (round.mp fun a member => confined a ?_)) fun all =>
          inside (all i le_rfl less fun j low under => absurd under (by omega))
        split <;> rename_i result <;> rw [result] at member
        · exact .tail _ member
        · exact mem_append_left _ (.tail _ member)
    · rw [if_neg less]
      refine iff_of_true (allConfined_cons.mpr ⟨phnumRead, allConfined_nil⟩) fun l low bound => ?_
      omega

end

theorem phnum_read {phdrs : Nat} (some : fuel ≠ 0) :
    Access.read (file + 44) 2 ∈ (loadSegments file phdrs fuel i m).1 := by
  obtain ⟨-, rfl⟩ := Nat.exists_eq_succ_of_ne_zero some
  rw [loadSegments]
  split
  · split <;> exact .head _
  · exact .head _

theorem identReads_eq (pass : checkElfHeader m file = true) : identReads m file = 17 := by
  have ident : (range 16).map (fun i => m (file + i)) = correctEIdent := by simpa [checkElfHeader] using pass
  have all : ∀ i ∈ range 16, decide (m (file + i) = correctEIdent.getD i 0) = true := by
    intro _ inside
    have less := mem_range.mp inside
    rw [← ident]
    simp [getD, less]
  rw [identReads, takeWhile_eq_self_iff.mpr all]
  rfl

theorem load_confined_iff (below : file + size ≤ userBase) (pass : checkElfHeader m file = true) :
    (∀ a ∈ (loadElfFile file m).1, Confined file size a) ↔ Inside m file size := by
  have base := userBase_eq
  have header (offset count : Nat) (some : 0 < count) (small : offset < 46) :
      Confined file size (.read (file + offset) count) ↔ offset + count ≤ size := by
    rw [read_confined_iff below (by omega)]
    omega
  have check : Confined file size (.read file 17) ↔ 17 ≤ size := by
    have first := header 0 17 (by decide) (by decide)
    rwa [Nat.add_zero, Nat.zero_add] at first
  have type := header 16 2 (by decide) (by decide)
  have phnumBound : ePhnum m file < 0 + 2 ^ 16 := by
    have word : ePhnum m file < 256 ^ 2 := Memory.read_lt m 2 _
    omega
  change AllConfined file size _ ↔ _
  rw [loadElfFile, identReads_eq pass, if_neg (by simp [pass])]
  by_cases executable : eType m file = 2
  · rw [if_neg (by simpa using executable)]
    have phnumRead := @phnum_read m file 0 (2 ^ 16) (add32 file (ePhoff m file)) (by decide)
    have run (complete : 46 ≤ size) := run_confined_iff below complete (fun _ _ _ => rfl) (.inl rfl) phnumBound
    generalize loadSegments file (add32 file (ePhoff m file)) (2 ^ 16) 0 m = loop at phnumRead run
    obtain ⟨accesses, last⟩ := loop
    have trace : AllConfined file size accesses ∧ 17 ≤ size ∧ 46 ≤ size ↔ Inside m file size := by
      constructor
      · rintro ⟨confined, -, complete⟩
        refine ⟨by omega, fun _ => ⟨complete, fun i less before => ?_⟩⟩
        exact (run complete).mp confined i i.zero_le less fun j _ => before j
      · intro inside
        obtain ⟨complete, entries⟩ := inside.table executable
        refine ⟨(run complete).mpr fun l _ less before => ?_, by omega, complete⟩
        exact entries l less fun j => before j j.zero_le
    have complete (confined : AllConfined file size accesses) : 46 ≤ size :=
      (header 44 2 (by decide) (by decide)).mp (confined _ phnumRead)
    rw [← trace]
    have phoff := header 28 4 (by decide) (by decide)
    have entry := header 24 4 (by decide) (by decide)
    cases last with
    | none =>
      simp only [allConfined_append, allConfined_cons, check, type, phoff]
      constructor
      · rintro ⟨⟨enough, -⟩, confined⟩
        exact ⟨confined, enough, complete confined⟩
      · rintro ⟨confined, enough, whole⟩
        exact ⟨⟨enough, by omega, by omega, allConfined_nil⟩, confined⟩
    | some m' =>
      simp only [allConfined_append, allConfined_cons, check, type, phoff, entry]
      constructor
      · rintro ⟨⟨⟨enough, -⟩, confined⟩, -⟩
        exact ⟨confined, enough, complete confined⟩
      · rintro ⟨confined, enough, _⟩
        exact ⟨⟨⟨enough, by omega, by omega, allConfined_nil⟩, confined⟩, by omega, allConfined_nil⟩
  · rw [if_pos executable]
    simp only [allConfined_cons, check, type]
    constructor
    · rintro ⟨-, enough, -⟩
      exact ⟨enough, fun executable' => absurd executable' executable⟩
    · intro inside
      have enough := inside.header
      exact ⟨by omega, enough, allConfined_nil⟩

theorem copy32_eq (m : Memory) {target source count : Nat} (target32 : target + count ≤ 2 ^ 32)
    (source32 : source + count ≤ 2 ^ 32) : copy32 m target source count = m.copy target source count := by
  induction count with
  | zero => rfl
  | succ count ih => rw [copy32, Memory.copy, ih (by omega) (by omega), add32_eq (by omega), add32_eq (by omega)]

theorem round_eq (below : file + size ≤ userBase) (same : SameFile m m' file size)
    (inside : EntryInside m file size i) : (loadSegment file (add32 (add32 file (ePhoff m file)) (32 * i)) m').2 =
      Exec.loadSegment file (phdrAt m file i) m' := by
  obtain ⟨head, rest⟩ := inside
  rw [phdr_eq below head, loadSegment, Exec.loadSegment, same.pType head]
  by_cases load : pType m (phdrAt m file i) = 1
  · obtain ⟨middle, rest⟩ := rest load
    rw [if_pos load, if_pos load, same.pVaddr middle]
    by_cases base : userBase ≤ pVaddr m (phdrAt m file i)
    · obtain ⟨whole, segment⟩ := rest base
      rw [if_pos base, if_pos base, same.pFilesz whole, same.pOffset (by omega)]
      by_cases empty : pFilesz m (phdrAt m file i) = 0
      · rw [empty]
        rfl
      · obtain ⟨-, target⟩ := segment empty
        rw [userStackTop_eq] at target
        rw [add32_eq (by omega), copy32_eq m' (by omega) (by omega)]
    · rw [if_neg base, if_neg base]
  · rw [if_neg load, if_neg load]

theorem run_eq (below : file + size ≤ userBase) (header : 46 ≤ size) (same : SameFile m m' file size)
    (entries : ∀ l, i ≤ l → l < ePhnum m file → (∀ j, i ≤ j → j < l → ¬ Halts m file j) → EntryInside m file size l) :
    (loadSegments file (add32 file (ePhoff m file)) fuel i m').2 =
      Exec.loadSegments file (file + ePhoff m file) fuel i m' := by
  induction fuel generalizing i m' with
  | zero => rfl
  | succ fuel ih =>
    have phnum : ePhnum m' file = ePhnum m file := same.read (by omega) (by omega)
    rw [loadSegments, Exec.loadSegments, phnum]
    by_cases less : i < ePhnum m file
    · have inside := entries i le_rfl less fun j low under => absurd under (by omega)
      have round : _ = Exec.loadSegment file (file + ePhoff m file + 32 * i) m' := round_eq below same inside
      have result := round_result below same inside
      rw [if_pos less, if_pos less, ← round]
      generalize loadSegment file (add32 (add32 file (ePhoff m file)) (32 * i)) m' = load at result
      obtain ⟨_, last⟩ := load
      rcases result with ⟨-, halted⟩ | ⟨goes, m'', went, same'⟩
      · obtain rfl : last = none := halted
        rfl
      · obtain rfl : last = some m'' := went
        refine ih same' fun l low bound before => entries l (by omega) bound fun j low' under => ?_
        rcases Nat.eq_or_lt_of_le low' with rfl | above
        · exact goes
        · exact before j above under
    · rw [if_neg less, if_neg less]

theorem loadElfFile_eq (below : file + size ≤ userBase) (pass : checkElfHeader m file = true)
    (inside : Inside m file size) : (loadElfFile file m).2 = Exec.loadElfFile file m := by
  rw [loadElfFile, Exec.loadElfFile, if_neg (by simp [pass])]
  by_cases executable : eType m file = 2
  · obtain ⟨complete, entries⟩ := inside.table executable
    have run := @run_eq m m file size 0 (2 ^ 16) below complete (fun _ _ _ => rfl) fun l _ less before =>
      entries l less fun j => before j j.zero_le
    rw [if_neg (by simpa using executable), if_pos ⟨pass, executable⟩, ← run]
    generalize loadSegments file (add32 file (ePhoff m file)) (2 ^ 16) 0 m = loop
    obtain ⟨-, last⟩ := loop
    cases last <;> rfl
  · rw [if_pos executable, if_neg fun both => executable both.2]

theorem loadElfFile_eq_sample : (loadElfFile 8 (sample 0)).2 = Exec.loadElfFile 8 (sample 0) := by
  refine @loadElfFile_eq _ 8 84 (by decide) (by decide +kernel) ⟨by decide, fun _ => ⟨by decide, fun i _ _ => ?_⟩⟩
  obtain rfl : i = 0 := by
    have phnum := sample_phnum 0
    omega
  unfold EntryInside
  decide +kernel

theorem load_confined_sample : 8 + 84 ≤ userBase ∧ ∀ a ∈ (loadElfFile 8 (sample 0)).1, Confined 8 84 a := by
  refine ⟨by decide, (load_confined_iff (by decide) (by decide +kernel)).mpr ⟨by decide, fun _ => ⟨by decide, ?_⟩⟩⟩
  intro i _ _
  obtain rfl : i = 0 := by
    have phnum := sample_phnum 0
    omega
  unfold EntryInside
  decide +kernel

def stackSample : Memory := fun x =>
  (correctEIdent ++ [2, 0, 3, 0, 1, 0, 0, 0, 0, 0, 0, 0xc0, 52, 0, 0, 0] ++ replicate 12 0 ++ [1, 0] ++
    replicate 6 0 ++ [1, 0, 0, 0, 0, 0, 0, 0, 0, 0xf0, 0xff, 0xff] ++ replicate 4 0 ++
    [1, 0, 0, 0, 1, 0, 0, 0] ++ replicate 8 0 : List Byte).getD (x - 8) 0

theorem load_writes_kernel_stack :
    checkElfHeader stackSample 8 = true ∧ Access.write 0xfffff000 1 ∈ (loadElfFile 8 stackSample).1 ∧
      ¬ Confined 8 84 (.write 0xfffff000 1) := by
  refine ⟨by decide +kernel, by decide +kernel, fun confined => ?_⟩
  exact absurd (confined 0 (by decide)).2 (by decide)

end Petix.Proof.Exec
