import Petix.Proof.Mem.Runs
import Petix.Spec.Paging

namespace Petix.Proof.Paging
open Function List Library Kernel Kernel.Paging Spec.Paging Proof.Mem

variable {addr : BitVec 32}

section
variable {σ : Type} {k m : Machine σ} {kpagedir : Frame} {pageTabs : Fin identityLen → Frame} {i i' : Fin identityLen}

structure Mapped (kpagedir : Frame) (pageTabs : Fin identityLen → Frame) (k : Machine σ) (i : Fin identityLen) :
    Prop where
  entry : (k.mem kpagedir (i.castLE (by decide))).present = true
  table : (k.mem kpagedir (i.castLE (by decide))).high = pageTabs i
  present : ∀ j, (k.mem (pageTabs i) j).present = true
  frame : ∀ j, (k.mem (pageTabs i) j).high.val = i.val * 1024 + j.val

theorem initPaging_initial {A : Allocator σ} (start : (paging A kpagedir).initial m) :
    (paging A kpagedir).initial (initPaging kpagedir pageTabs m) := by
  have last (k : Machine σ) (kept : (paging A kpagedir).initial k) :
      (paging A kpagedir).initial (unmapZeroPage kpagedir k) := kept
  apply last
  refine foldlRecOn _ _ (foldlRecOn _ _ ?_ ?_) ?_
  · exact start
  · exact fun k kept i _ => kept
  · exact fun k kept i _ => kept

variable (apart : ∀ i, pageTabs i ≠ kpagedir)
include apart

theorem mapTable_mapped : Mapped kpagedir pageTabs (mapTable kpagedir pageTabs k i) i := by
  have dir : (mapTable kpagedir pageTabs k i).mem kpagedir (i.castLE (by decide)) =
      { ((k.mem kpagedir (i.castLE (by decide))).set 0 true).set 1 true with high := pageTabs i } := by
    simp only [mapTable, Machine.fill, Machine.store, update_of_ne (apart i).symm, update_self]
  have tab (j : Fin 1024) : ∃ w, (mapTable kpagedir pageTabs k i).mem (pageTabs i) j = identityEntry i j w := by
    simp only [mapTable, Machine.fill, update_self]
    exact ⟨_, rfl⟩
  constructor
  · rw [dir]
    rfl
  · rw [dir]
  · intro j
    obtain ⟨w, equal⟩ := tab j
    rw [equal]
    rfl
  · intro j
    obtain ⟨_, equal⟩ := tab j
    rw [equal]
    rfl

variable (distinct : Function.Injective pageTabs)
include distinct

theorem Mapped.mapTable (mapped : Mapped kpagedir pageTabs k i) :
    Mapped kpagedir pageTabs (mapTable kpagedir pageTabs k i') i := by
  by_cases same : i' = i
  · subst same
    exact mapTable_mapped apart
  · have other : pageTabs i ≠ pageTabs i' := fun equal => same (distinct equal).symm
    have index : (i.castLE (by decide) : Fin 1024) ≠ i'.castLE (by decide) :=
      fun equal => same (Fin.ext (Fin.mk.inj equal)).symm
    have dir : (Kernel.Paging.mapTable kpagedir pageTabs k i').mem kpagedir (i.castLE (by decide)) =
        k.mem kpagedir (i.castLE (by decide)) := by
      simp only [Kernel.Paging.mapTable, Machine.fill, Machine.store, update_of_ne (apart i').symm,
        update_self, update_of_ne index]
    have tab : (Kernel.Paging.mapTable kpagedir pageTabs k i').mem (pageTabs i) = k.mem (pageTabs i) := by
      simp only [Kernel.Paging.mapTable, Machine.fill, Machine.store, update_of_ne other, update_of_ne (apart i)]
    exact ⟨dir ▸ mapped.entry, dir ▸ mapped.table, tab ▸ mapped.present, tab ▸ mapped.frame⟩

theorem mapTables_mapped {is : List (Fin identityLen)} (reached : i ∈ is ∨ Mapped kpagedir pageTabs k i) :
    Mapped kpagedir pageTabs (is.foldl (mapTable kpagedir pageTabs) k) i := by
  induction is generalizing k with
  | nil => exact reached.resolve_left not_mem_nil
  | cons i' is ih =>
    apply ih
    rcases reached with here | mapped
    · rcases mem_cons.mp here with rfl | later
      · exact .inr (mapTable_mapped apart)
      · exact .inl later
    · exact .inr (mapped.mapTable apart distinct)

theorem unmapZeroPage_walk (low : addr.toNat < procRegion)
    (mapped : ∀ i, Mapped kpagedir pageTabs k i) :
    (walk (unmapZeroPage kpagedir k).mem kpagedir addr).map (fun entries => entries.2.high) =
      if addr.toNat < 4096 then none else some (frameOf addr) := by
  have bound : addr.toNat / 2 ^ 22 < identityLen := by unfold procRegion at low; unfold identityLen; omega
  have first : (k.mem kpagedir 0).high = pageTabs ⟨0, by decide⟩ := (mapped ⟨0, by decide⟩).table
  obtain ⟨i, index⟩ : ∃ i : Fin identityLen, i.val = addr.toNat / 2 ^ 22 := ⟨⟨_, bound⟩, rfl⟩
  have dir : dirIdx addr = i.castLE (by decide) := Fin.ext index.symm
  unfold walk unmapZeroPage Machine.store Machine.fill
  dsimp only
  rw [first, update_of_ne (apart _).symm, dir, if_pos (mapped i).entry, (mapped i).table]
  by_cases zero : addr.toNat < 4096
  · obtain rfl : i = ⟨0, by decide⟩ := Fin.ext (show i.val = 0 by omega)
    have start : tabIdx addr = 0 := Fin.ext (show addr.toNat / 2 ^ 12 % 1024 = 0 by omega)
    rw [if_pos zero, start, update_self, update_self, if_neg (by simp [Word.present, Word.set])]
    rfl
  · have kept (w : Word) : update k.mem (pageTabs ⟨0, by decide⟩)
        (update (k.mem (pageTabs ⟨0, by decide⟩)) 0 w) (pageTabs i) (tabIdx addr) =
        k.mem (pageTabs i) (tabIdx addr) := by
      by_cases table : i = ⟨0, by decide⟩
      · subst table
        have later : tabIdx addr ≠ 0 := by
          intro start
          have table : addr.toNat / 2 ^ 22 = 0 := index.symm
          have page : addr.toNat / 2 ^ 12 % 1024 = 0 := congrArg Fin.val start
          omega
        rw [update_self, update_of_ne later]
      · rw [update_of_ne fun equal => table (distinct equal)]
    have frame : (k.mem (pageTabs i) (tabIdx addr)).high = frameOf addr := by
      apply Fin.ext
      rw [(mapped i).frame]
      change i.val * 1024 + addr.toNat / 2 ^ 12 % 1024 = addr.toNat / 2 ^ 12
      omega
    rw [kept, if_pos ((mapped i).present _), if_neg zero, Option.map_some, frame]

theorem initPaging_table (i : Fin identityLen) :
    ((initPaging kpagedir pageTabs m).mem kpagedir (i.castLE (by decide))).high = pageTabs i := by
  have last (k : Machine σ) (mapped : ∀ i, Mapped kpagedir pageTabs k i) :
      ((unmapZeroPage kpagedir k).mem kpagedir (i.castLE (by decide))).high = pageTabs i := by
    have first : (k.mem kpagedir 0).high = pageTabs ⟨0, by decide⟩ := (mapped ⟨0, by decide⟩).table
    unfold unmapZeroPage Machine.store Machine.fill
    dsimp only
    rw [first, update_of_ne (apart _).symm, (mapped i).table]
  exact last _ fun i => mapTables_mapped apart distinct (.inl (mem_finRange i))

theorem initPaging_identity (low : addr.toNat < procRegion) :
    (walk (initPaging kpagedir pageTabs m).mem kpagedir addr).map (fun entries => entries.2.high) =
      if addr.toNat < 4096 then none else some (frameOf addr) := by
  exact unmapZeroPage_walk apart distinct low fun i => mapTables_mapped apart distinct (.inl (mem_finRange i))

end

variable {base length : Nat} {c c' : { c : Mem.Client // Invariant base length c }} {f : Frame}

def allocFrame (c : { c : Mem.Client // Invariant base length c }) :
    Option (Frame × { c : Mem.Client // Invariant base length c }) :=
  match call : Mem.allocPage c.1.mem with
  | .ok (page, mem) =>
    if bound : page < 0xC0000 then
      some (⟨page, by omega⟩, ⟨⟨mem, insert page c.1.allocated⟩,
        invariant_step .allocPage c.2 (by simp [Mem.clients, Mem.Client.next, call])⟩)
    else none
  | .error _ => none

def freeFrame (c : { c : Mem.Client // Invariant base length c }) (f : Frame) :
    Option { c : Mem.Client // Invariant base length c } :=
  match call : Mem.freePage c.1.mem f.val with
  | .ok mem => some ⟨⟨mem, c.1.allocated.erase f.val⟩,
      invariant_step (.freePage ⟨f.val, by omega⟩) c.2 (by simp [Mem.clients, Mem.Client.next, call])⟩
  | .error _ => none

theorem allocFrame_some (call : allocFrame c = some (f, c')) :
    ∃ mem, Mem.allocPage c.1.mem = .ok (f.val, mem) ∧ f.val < 0xC0000 ∧ c'.1 = ⟨mem, insert f.val c.1.allocated⟩ := by
  unfold allocFrame at call
  split at call
  · rename_i page mem found
    split_ifs at call with bound
    cases call
    exact ⟨mem, found, bound, rfl⟩
  · cases call

theorem freeFrame_some (call : freeFrame c f = some c') : c'.1.allocated = c.1.allocated.erase f.val := by
  unfold freeFrame at call
  split at call
  · cases call
    rfl
  · cases call

theorem freePage_allocated {c : Mem.Client} (inv : Invariant base length c) {page : Nat}
    (allocated : page ∈ c.allocated) : ∃ mem, Mem.freePage c.mem page = .ok mem := by
  obtain ⟨low, set⟩ := (inv.marked page).mp allocated
  rw [← inv.memBase] at low set
  exact freePage_ok inv.consistent low set

theorem freeFrame_allocated (allocated : f.val ∈ c.1.allocated) : ∃ c', freeFrame c f = some c' := by
  obtain ⟨_, freed⟩ := freePage_allocated c.2 allocated
  unfold freeFrame
  split
  · exact ⟨_, rfl⟩
  · rename_i failed
    rw [freed] at failed
    cases failed

def memAllocator (base length : Nat) : Allocator { c : Mem.Client // Invariant base length c } where
  allocPage := allocFrame
  freePage := freeFrame
  allocated c f := f.val ∈ c.1.allocated
  nonzero := by
    intro c f c' call zero
    obtain ⟨mem, found, -⟩ := allocFrame_some call
    exact (allocPage_cases c.2.consistent found).1 (congrArg Fin.val zero)
  mapped := by
    intro c f c' call
    obtain ⟨mem, -, bound, -⟩ := allocFrame_some call
    exact bound
  fresh := by
    intro c f c' call allocated
    obtain ⟨mem, found, -⟩ := allocFrame_some call
    obtain ⟨-, marks, -⟩ := allocPage_cases c.2.consistent found
    obtain ⟨-, set⟩ := (c.2.marked f.val).mp allocated
    have clear := marks.before
    rw [c.2.memBase, set] at clear
    cases clear
  alloc_iff := by
    intro c f c' call g
    obtain ⟨mem, -, -, equal⟩ := allocFrame_some call
    rw [equal, Finset.mem_insert, Fin.val_inj]
  free_some := freeFrame_allocated
  free_iff := by
    intro c f c' call g
    rw [freeFrame_some call, Finset.mem_erase, and_comm, ne_eq, Fin.val_inj]

theorem memAllocator_reserved (outside : f.val < base / Mem.pageSize ∨
    base / Mem.pageSize + Mem.ceilDiv (length / Mem.pageSize) 32 * 32 ≤ f.val) :
    Reserved (memAllocator base length) f := by
  intro c _ call
  obtain ⟨_, found, -⟩ := allocFrame_some call
  obtain ⟨-, marks, -⟩ := allocPage_cases c.2.consistent found
  have low := marks.low
  have high := marks.high
  rw [c.2.memBase] at low high
  rw [c.2.words] at high
  omega

def unpaged : Machine { c : Mem.Client // Invariant 0x100000 0x40000 c } where
  frames := ⟨⟨Mem.memInit 0x100000 0x40000, ∅⟩, invariant_initial (by decide) (by decide)⟩
  mem := fun _ _ => ⟨fun _ => true, 0⟩
  held := ∅
  spaces := ∅
  remapped := ∅

def pageTabs : Fin identityLen → Frame := fun i => ⟨0x400 + i.val, by have := i.isLt; unfold identityLen at this; omega⟩

def booted : Machine { c : Mem.Client // Invariant 0x100000 0x40000 c } := initPaging 0x10 pageTabs unpaged

end Petix.Proof.Paging
