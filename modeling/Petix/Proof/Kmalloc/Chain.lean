import Petix.Kernel.Kmalloc
import Petix.Library.BlockList

namespace Petix.Proof.Kmalloc
open List Library Kernel.Kmalloc BlockList

abbrev Apart (b c : Nat) : Prop := b + 24 ≤ c ∨ c + 24 ≤ b

abbrev Off (b x : Nat) : Prop := x < b ∨ b + 24 ≤ x

theorem block_congr {h h' : Heap} {b : Nat}
    (agree : ∀ x, b ≤ x → x < b + 24 → h.mem x = h'.mem x) : h.block b = h'.block b := by
  have field (width offset : Nat) (inside : offset + width ≤ 24) :
      h.mem.read width (b + offset) = h'.mem.read width (b + offset) :=
    Memory.read_congr fun x low high => agree x (by omega) (by omega)
  simp only [Heap.block, Block.mk.injEq]
  exact ⟨field 4 0 (by omega), field 4 4 (by omega), field 8 8 (by omega), field 4 16 (by omega), field 4 20 (by omega)⟩

private theorem write_frame (h : Heap) {width address b : Nat} (value : Nat)
    (apart : address + width ≤ b ∨ b + 24 ≤ address) :
    Heap.block { h with mem := h.mem.write width address value } b = h.block b :=
  block_congr fun x _ _ => Memory.write_outside _ _ _ _ x (by omega)

section Setters

variable (h : Heap) (b v : Nat)

@[simp] theorem setPrev_base : (h.setPrev b v).base = h.base := rfl
@[simp] theorem setNext_base : (h.setNext b v).base = h.base := rfl
@[simp] theorem setPosMag_base : (h.setPosMag b v).base = h.base := rfl
@[simp] theorem setLen_base : (h.setLen b v).base = h.base := rfl
@[simp] theorem setUsed_base : (h.setUsed b v).base = h.base := rfl
@[simp] theorem setBase_base : (h.setBase b).base = b := rfl
@[simp] theorem ksbrk_base : (h.ksbrk v).base = h.base := rfl

@[simp] theorem setPrev_breakptr : (h.setPrev b v).breakptr = h.breakptr := rfl
@[simp] theorem setNext_breakptr : (h.setNext b v).breakptr = h.breakptr := rfl
@[simp] theorem setPosMag_breakptr : (h.setPosMag b v).breakptr = h.breakptr := rfl
@[simp] theorem setLen_breakptr : (h.setLen b v).breakptr = h.breakptr := rfl
@[simp] theorem setUsed_breakptr : (h.setUsed b v).breakptr = h.breakptr := rfl
@[simp] theorem setBase_breakptr : (h.setBase b).breakptr = h.breakptr := rfl
@[simp] theorem ksbrk_breakptr : (h.ksbrk v).breakptr = h.breakptr + v := rfl

@[simp] theorem setBase_mem : (h.setBase b).mem = h.mem := rfl
@[simp] theorem setBase_block (c : Nat) : (h.setBase b).block c = h.block c := rfl
@[simp] theorem ksbrk_block (c : Nat) : (h.ksbrk v).block c = h.block c := rfl

@[simp] theorem setPrev_block_self : (h.setPrev b v).block b = { h.block b with prev := v % 2 ^ 32 } := by
  simp only [Heap.block, Heap.setPrev, Block.mk.injEq]
  exact ⟨Memory.read_write_same .., Memory.read_write_disjoint _ _ (by omega),
    Memory.read_write_disjoint _ _ (by omega), Memory.read_write_disjoint _ _ (by omega),
    Memory.read_write_disjoint _ _ (by omega)⟩

@[simp] theorem setNext_block_self : (h.setNext b v).block b = { h.block b with next := v % 2 ^ 32 } := by
  simp only [Heap.block, Heap.setNext, Block.mk.injEq]
  exact ⟨Memory.read_write_disjoint _ _ (by omega), Memory.read_write_same ..,
    Memory.read_write_disjoint _ _ (by omega), Memory.read_write_disjoint _ _ (by omega),
    Memory.read_write_disjoint _ _ (by omega)⟩

@[simp] theorem setPosMag_block_self : (h.setPosMag b v).block b = { h.block b with posMag := v % 2 ^ 64 } := by
  simp only [Heap.block, Heap.setPosMag, Block.mk.injEq]
  exact ⟨Memory.read_write_disjoint _ _ (by omega), Memory.read_write_disjoint _ _ (by omega),
    Memory.read_write_same .., Memory.read_write_disjoint _ _ (by omega), Memory.read_write_disjoint _ _ (by omega)⟩

@[simp] theorem setLen_block_self : (h.setLen b v).block b = { h.block b with len := v % 2 ^ 32 } := by
  simp only [Heap.block, Heap.setLen, Block.mk.injEq]
  exact ⟨Memory.read_write_disjoint _ _ (by omega), Memory.read_write_disjoint _ _ (by omega),
    Memory.read_write_disjoint _ _ (by omega), Memory.read_write_same .., Memory.read_write_disjoint _ _ (by omega)⟩

@[simp] theorem setUsed_block_self : (h.setUsed b v).block b = { h.block b with used := v % 2 ^ 32 } := by
  simp only [Heap.block, Heap.setUsed, Block.mk.injEq]
  exact ⟨Memory.read_write_disjoint _ _ (by omega), Memory.read_write_disjoint _ _ (by omega),
    Memory.read_write_disjoint _ _ (by omega), Memory.read_write_disjoint _ _ (by omega), Memory.read_write_same ..⟩

@[simp] theorem initBlock_base (prev next len used : Nat) : (h.initBlock b prev next len used).base = h.base := rfl

@[simp] theorem initBlock_breakptr (prev next len used : Nat) :
    (h.initBlock b prev next len used).breakptr = h.breakptr := rfl

theorem initBlock_block_self (prev next len used : Nat) : (h.initBlock b prev next len used).block b =
      { prev := prev % 2 ^ 32
        next := next % 2 ^ 32
        posMag := (mallocMag ^^^ signExtend b) % 2 ^ 64
        len := len % 2 ^ 32
        used := used % 2 ^ 32 } := by
  simp only [Heap.initBlock, setUsed_block_self, setLen_block_self, setPosMag_block_self,
    setNext_block_self, setPrev_block_self]

section Bytes

variable {h b} {x : Nat} (off : Off b x)
include off

theorem setPrev_mem : (h.setPrev b v).mem x = h.mem x := Memory.write_outside _ _ _ _ x (by omega)
theorem setNext_mem : (h.setNext b v).mem x = h.mem x := Memory.write_outside _ _ _ _ x (by omega)
theorem setPosMag_mem : (h.setPosMag b v).mem x = h.mem x := Memory.write_outside _ _ _ _ x (by omega)
theorem setLen_mem : (h.setLen b v).mem x = h.mem x := Memory.write_outside _ _ _ _ x (by omega)
theorem setUsed_mem : (h.setUsed b v).mem x = h.mem x := Memory.write_outside _ _ _ _ x (by omega)

theorem initBlock_mem (prev next len used : Nat) : (h.initBlock b prev next len used).mem x = h.mem x := by
  simp only [Heap.initBlock, setUsed_mem _ off, setLen_mem _ off, setPosMag_mem _ off, setNext_mem _ off,
    setPrev_mem _ off]

end Bytes

variable {h b} {c : Nat} (apart : Apart b c)
include apart

theorem setPrev_block_apart : (h.setPrev b v).block c = h.block c := write_frame h v (by omega)
theorem setNext_block_apart : (h.setNext b v).block c = h.block c := write_frame h v (by omega)
theorem setPosMag_block_apart : (h.setPosMag b v).block c = h.block c := write_frame h v (by omega)
theorem setLen_block_apart : (h.setLen b v).block c = h.block c := write_frame h v (by omega)
theorem setUsed_block_apart : (h.setUsed b v).block c = h.block c := write_frame h v (by omega)

theorem initBlock_block_apart (prev next len used : Nat) : (h.initBlock b prev next len used).block c = h.block c := by
  simp only [Heap.initBlock, setUsed_block_apart _ apart, setLen_block_apart _ apart,
    setPosMag_block_apart _ apart, setNext_block_apart _ apart, setPrev_block_apart _ apart]

end Setters

theorem block_next_lt (h : Heap) (b : Nat) : (h.block b).next < 2 ^ 32 := Memory.read_lt _ _ _

structure Cell where
  addr : Nat
  len : Nat
  used : Nat

namespace Cell

def finish (b : Cell) : Nat := b.addr + 24 + b.len

def header (b : Cell) (next prev : Nat) : Block where
  prev := prev
  next := next
  posMag := mallocMag ^^^ signExtend b.addr
  len := b.len
  used := b.used

end Cell

def Stored (h : Heap) (b : Cell) (next prev : Nat) : Prop := h.block b.addr = b.header next prev

/-- The headers in memory, followed from `base`, are the cells of the list, newest first; the cells
lie in address order below the break and the newest one ends there. -/
structure Represents (h : Heap) (cells : List Cell) : Prop where
  linked : Linked Cell.addr (Stored h) 0 cells 0
  stacked : Stacked Cell.addr Cell.finish h.breakptr cells
  base : h.base = first Cell.addr 0 cells
  top : first Cell.finish h.breakptr cells = h.breakptr
  placed : ∀ b ∈ cells, b.addr % 8 = 0 ∧ 0 < b.addr
  breakPositive : 0 < h.breakptr
  bounded : h.breakptr < 2 ^ 32

variable {h : Heap} {cells pre post : List Cell} {b : Cell}

theorem Represents.block (repr : Represents h (pre ++ b :: post)) :
    h.block b.addr = b.header (last Cell.addr 0 pre) (first Cell.addr 0 post) :=
  ((linked_append _ _).mp repr.linked).2.1

section
variable (repr : Represents h cells)
include repr

theorem Represents.finish_le (member : b ∈ cells) : b.finish ≤ h.breakptr :=
  (repr.stacked.mem member).2

theorem Represents.apart {c : Cell} (memberB : b ∈ cells)
    (memberC : c ∈ cells) : b = c ∨ b.finish ≤ c.addr ∨ c.finish ≤ b.addr :=
  repr.stacked.eq_or_apart memberB memberC

theorem Represents.block_used (member : b ∈ cells) : (h.block b.addr).used = b.used := by
  obtain ⟨_, _, rfl⟩ := append_of_mem member
  exact congrArg Block.used repr.block

theorem Represents.block_len (member : b ∈ cells) : (h.block b.addr).len = b.len := by
  obtain ⟨_, _, rfl⟩ := append_of_mem member
  exact congrArg Block.len repr.block

end

section
variable (repr : Represents h (pre ++ b :: post))
include repr

theorem Represents.next_eq : (h.block b.addr).next = last Cell.addr 0 pre := congrArg Block.next repr.block

theorem Represents.next_eq_zero : (h.block b.addr).next = 0 ↔ pre = [] := by
  rw [repr.next_eq]
  rcases last_cases Cell.addr 0 pre with ⟨rfl, equal⟩ | ⟨a, member, equal⟩
  · simp [equal]
  · have := (repr.placed a (mem_append_left _ member)).2
    constructor
    · omega
    · rintro rfl
      cases member

theorem Represents.next_lt : last Cell.addr 0 pre < 2 ^ 32 := repr.next_eq ▸ block_next_lt h b.addr

theorem Represents.finish_le_next
    (top : last Cell.addr 0 pre ≠ 0) : b.finish ≤ last Cell.addr 0 pre := by
  rcases last_cases Cell.addr 0 pre with ⟨_, equal⟩ | ⟨a, member, equal⟩
  · exact absurd equal top
  · rw [equal]
    exact repr.stacked.around.1 a member

theorem Represents.below (c : Cell) (member : c ∈ post) : c.addr + 24 + c.len ≤ b.addr := repr.stacked.around.2 c member

end

theorem mag_lt {p : Nat} (bound : p < 2 ^ 32) : mallocMag ^^^ signExtend p < 2 ^ 64 := by
  have small : signExtend p < 2 ^ 64 := by
    unfold signExtend
    split <;> omega
  exact Nat.xor_lt_two_pow (by decide) small

theorem Represents.isMemBlock (repr : Represents h (pre ++ b :: post)) : h.isMemBlock b.addr = true := by
  rw [Heap.isMemBlock, repr.block, beq_iff_eq, Cell.header, Nat.xor_comm mallocMag, ← Nat.xor_assoc,
    Nat.xor_self, Nat.zero_xor]

theorem align8_lt (i : Nat) : align8 i < 8 := Nat.mod_lt _ (by decide)

theorem align8_aligns (i : Nat) : (i + align8 i) % 8 = 0 := by
  unfold align8
  omega

end Petix.Proof.Kmalloc
