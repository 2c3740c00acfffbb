import Petix.Proof.Kmalloc.Chain

namespace Petix.Proof.Kmalloc
open List Library Kernel.Kmalloc BlockList

variable {h : Heap} {cells pre post : List Cell} {b : Cell}
variable {x : Nat}

section Push

variable (h : Heap) (size : Nat)

theorem pushBlock_base : (h.pushBlock size).2.base = h.breakptr + align8 h.breakptr := rfl

theorem pushBlock_breakptr : (h.pushBlock size).2.breakptr = h.breakptr + align8 h.breakptr + 24 + size := by
  have exact : (h.pushBlock size).2.breakptr = h.breakptr + (align8 h.breakptr + sizeofBlock + size) := by
    simp only [Heap.pushBlock]
    split_ifs <;> rfl
  rw [exact, sizeofBlock]
  omega

theorem pushBlock_block_new : (h.pushBlock size).2.block (h.breakptr + align8 h.breakptr) =
      { prev := h.base % 2 ^ 32
        next := 0
        posMag := (mallocMag ^^^ signExtend (h.breakptr + align8 h.breakptr)) % 2 ^ 64
        len := size % 2 ^ 32
        used := 1 } := by
  simp only [Heap.pushBlock, setBase_block, initBlock_block_self]
  split_ifs <;> rfl

theorem pushBlock_mem (offNew : Off (h.breakptr + align8 h.breakptr) x)
    (offBase : h.base ≠ 0 → Off h.base x) : (h.pushBlock size).2.mem x = h.mem x := by
  simp only [Heap.pushBlock, setBase_mem, initBlock_mem offNew]
  split_ifs with nonempty
  · exact setNext_mem _ (offBase nonempty)
  · rfl

theorem pushBlock_block_frame {c : Nat} (apartNew : Apart (h.breakptr + align8 h.breakptr) c)
    (apartBase : h.base ≠ 0 → Apart h.base c) : (h.pushBlock size).2.block c = h.block c := by
  refine block_congr fun x low high => pushBlock_mem h size (by omega) fun nonempty => ?_
  omega

theorem pushBlock_block_base (nonempty : h.base ≠ 0) (apart : Apart (h.breakptr + align8 h.breakptr) h.base) :
    (h.pushBlock size).2.block h.base = { h.block h.base with next := (h.breakptr + align8 h.breakptr) % 2 ^ 32 } := by
  simp only [Heap.pushBlock, setBase_block, initBlock_block_apart apart]
  rw [if_pos (by exact nonempty)]
  exact setNext_block_self _ _ _

end Push

theorem Represents.pushBlock (repr : Represents h cells) (size : Nat) (fits : (h.pushBlock size).2.breakptr < 2 ^ 32) :
    Represents (h.pushBlock size).2 (⟨h.breakptr + align8 h.breakptr, size, 1⟩ :: cells) := by
  have brk := pushBlock_breakptr h size
  have new := pushBlock_block_new h size
  have aligns := align8_aligns h.breakptr
  have frame := @pushBlock_block_frame h size
  have old := pushBlock_block_base h size
  have positive := repr.breakPositive
  generalize newAddr : h.breakptr + align8 h.breakptr = n at *
  have bound : n < 2 ^ 32 := by omega
  rw [Nat.mod_eq_of_lt (mag_lt bound), Nat.mod_eq_of_lt (show size < 2 ^ 32 by omega)] at new
  rw [Nat.mod_eq_of_lt bound] at old
  constructor
  case linked =>
    cases cells with
    | nil =>
      refine ⟨new.trans ?_, trivial⟩
      rw [repr.base]
      rfl
    | cons b rest =>
      have base : h.base = b.addr := repr.base
      have finish : b.addr + 24 + b.len ≤ h.breakptr := repr.finish_le (.head _)
      have nonempty : h.base ≠ 0 := by
        have := repr.placed b (.head _)
        omega
      refine ⟨new.trans ?_, ?_, repr.linked.2.mono fun c member next prev cell => ?_⟩
      · rw [base, Nat.mod_eq_of_lt (by omega)]
        rfl
      · have stored : h.block b.addr = b.header 0 (first Cell.addr 0 rest) := repr.linked.1
        rw [Stored, ← base, old nonempty (by omega), base, stored]
        rfl
      · have under : c.addr + 24 + c.len ≤ b.addr := (repr.stacked.2.2.mem member).2
        exact (frame (by omega) (by omega)).trans cell
  case stacked =>
    refine ⟨?_, ?_, repr.stacked.mono (by simp only; omega)⟩
    all_goals
      simp only [Cell.finish]
      omega
  case base => rw [pushBlock_base, newAddr, first_cons]
  case top =>
    simp only [first_cons, Cell.finish]
    omega
  case placed => exact forall_mem_cons.mpr ⟨⟨aligns, by simp only; omega⟩, repr.placed⟩
  case breakPositive => omega
  case bounded => exact fits

def splitAddr (b size : Nat) : Nat := b + 24 + size + align8 (b + 24 + size)

theorem splitAddr_apart (b size : Nat) : Apart (splitAddr b size) b := by
  unfold splitAddr
  omega

section Shrink

variable {h : Heap} {b size : Nat} (taken : minSplitSize ≤ sub32 (h.block b).len size)
include taken

private theorem shrinkBlock_eq : (h.shrinkBlock b size).2 = let n := splitAddr b size
      let h₁ := h.initBlock n b (h.block b).next (sub32 (b + (h.block b).len) n) 0
      let h₂ := h₁.setBase (if b = h.base then n else h.base)
      let h₃ := if (h.block b).next ≠ 0 then h₂.setPrev (h.block b).next n else h₂
      (h₃.setNext b n).setLen b size := by
  have self : b + sizeofBlock + size + align8 (b + sizeofBlock + size) = splitAddr b size := rfl
  rw [Heap.shrinkBlock, if_pos taken]
  simp only [self, initBlock_base, setBase_block, initBlock_block_apart (splitAddr_apart b size)]

theorem shrinkBlock_breakptr : (h.shrinkBlock b size).2.breakptr = h.breakptr := by
  rw [shrinkBlock_eq taken]
  split_ifs <;> rfl

theorem shrinkBlock_base : (h.shrinkBlock b size).2.base = if b = h.base then splitAddr b size else h.base := by
  rw [shrinkBlock_eq taken]
  split_ifs <;> rfl

theorem shrinkBlock_block_self (apart : (h.block b).next ≠ 0 → Apart (h.block b).next b) :
    (h.shrinkBlock b size).2.block b = { h.block b with next := splitAddr b size % 2 ^ 32, len := size % 2 ^ 32 } := by
  rw [shrinkBlock_eq taken]
  simp only [setLen_block_self, setNext_block_self]
  by_cases top : (h.block b).next ≠ 0
  · rw [if_pos top, setPrev_block_apart _ (apart top), setBase_block, initBlock_block_apart (splitAddr_apart b size)]
  · rw [if_neg top, setBase_block, initBlock_block_apart (splitAddr_apart b size)]

theorem shrinkBlock_block_new
    (apart : (h.block b).next ≠ 0 → Apart (h.block b).next (splitAddr b size)) :
    (h.shrinkBlock b size).2.block (splitAddr b size) =
      { prev := b % 2 ^ 32
        next := (h.block b).next % 2 ^ 32
        posMag := (mallocMag ^^^ signExtend (splitAddr b size)) % 2 ^ 64
        len := sub32 (b + (h.block b).len) (splitAddr b size) % 2 ^ 32
        used := 0 } := by
  have self := (splitAddr_apart b size).symm
  rw [shrinkBlock_eq taken]
  simp only [setLen_block_apart _ self, setNext_block_apart _ self]
  by_cases top : (h.block b).next ≠ 0
  · rw [if_pos top, setPrev_block_apart _ (apart top), setBase_block, initBlock_block_self, Nat.zero_mod]
  · rw [if_neg top, setBase_block, initBlock_block_self, Nat.zero_mod]

theorem shrinkBlock_block_next (top : (h.block b).next ≠ 0) (apartSelf : Apart b (h.block b).next)
    (apart : Apart (splitAddr b size) (h.block b).next) : (h.shrinkBlock b size).2.block (h.block b).next =
      { h.block (h.block b).next with prev := splitAddr b size % 2 ^ 32 } := by
  rw [shrinkBlock_eq taken]
  simp only [setLen_block_apart _ apartSelf, setNext_block_apart _ apartSelf, if_pos top,
    setPrev_block_self, setBase_block, initBlock_block_apart apart]

theorem shrinkBlock_mem (offSelf : Off b x) (offNew : Off (splitAddr b size) x)
    (offNext : (h.block b).next ≠ 0 → Off (h.block b).next x) : (h.shrinkBlock b size).2.mem x = h.mem x := by
  rw [shrinkBlock_eq taken]
  simp only [setLen_mem _ offSelf, setNext_mem _ offSelf]
  by_cases top : (h.block b).next ≠ 0
  · rw [if_pos top, setPrev_mem _ (offNext top), setBase_mem, initBlock_mem offNew]
  · rw [if_neg top, setBase_mem, initBlock_mem offNew]

theorem shrinkBlock_block_frame {c : Nat} (apartSelf : Apart b c) (apartNew : Apart (splitAddr b size) c)
    (apartNext : (h.block b).next ≠ 0 → Apart (h.block b).next c) : (h.shrinkBlock b size).2.block c = h.block c := by
  refine block_congr fun x low high => shrinkBlock_mem taken (by omega) (by omega) fun top => ?_
  omega

end Shrink

theorem Represents.shrinkBlock (repr : Represents h (pre ++ b :: post)) {size : Nat}
    (room : size + minSplitSize ≤ b.len) : Represents (h.shrinkBlock b.addr size).2
      (pre ++ ⟨splitAddr b.addr size, b.addr + b.len - splitAddr b.addr size, 0⟩ ::
        { b with len := size } :: post) := by
  have member : b ∈ pre ++ b :: post := mem_append_right _ (.head _)
  have finish : b.addr + 24 + b.len ≤ h.breakptr := repr.finish_le member
  have bounded := repr.bounded
  have stored := repr.block
  have len : (h.block b.addr).len = b.len := congrArg Block.len stored
  have taken : minSplitSize ≤ sub32 (h.block b.addr).len size := by
    rw [len, sub32_eq (by omega) (by omega)]
    omega
  rw [minSplitSize] at room
  have brk := shrinkBlock_breakptr taken
  have base := shrinkBlock_base taken
  have self := shrinkBlock_block_self taken
  have new := shrinkBlock_block_new taken
  have above := shrinkBlock_block_next taken
  have frame := @shrinkBlock_block_frame h b.addr size taken
  rw [repr.next_eq] at self new above frame
  have pad := align8_lt (b.addr + 24 + size)
  have addr : splitAddr b.addr size = b.addr + 24 + size + align8 (b.addr + 24 + size) := rfl
  have aligns : splitAddr b.addr size % 8 = 0 := align8_aligns _
  generalize splitAddr b.addr size = n at *
  have linked := (linked_append _ _).mp repr.linked
  have stacked := stacked_append.mp repr.stacked
  have apartNext : last Cell.addr 0 pre ≠ 0 → b.addr + 24 + b.len ≤ last Cell.addr 0 pre := repr.finish_le_next
  constructor
  case linked =>
    rw [linked_append]
    refine ⟨linked.1.relink ?_ ?_, ?_, ?_, linked.2.2.mono ?_⟩
    · intro c member next prev cell
      obtain ⟨a, memberA, equal, _⟩ := stacked.1.above_last 0 member
      have := repr.stacked.around.1 a memberA
      simp only [Cell.finish] at *
      exact (frame (by omega) (by omega) (by omega)).trans cell
    · intro c member next cell
      have equal : last Cell.addr 0 pre = c.addr := last_of_getLast? 0 member
      have := repr.placed c (by simp [mem_of_getLast? member])
      have up := apartNext (by omega)
      rw [equal] at above up
      refine (above (by omega) (by omega) (by omega)).trans ?_
      rw [cell]
      simp [Cell.header]
      omega
    · refine (new (by omega)).trans ?_
      simp only [Cell.header, first_cons, Block.mk.injEq, len, sub32_eq (show n ≤ b.addr + b.len by omega)
        (show b.addr + b.len < 2 ^ 32 by omega)]
      exact ⟨Nat.mod_eq_of_lt (by omega), Nat.mod_eq_of_lt repr.next_lt,
        Nat.mod_eq_of_lt (mag_lt (by omega)), Nat.mod_eq_of_lt (by omega), trivial⟩
    · refine (self (by omega)).trans ?_
      simp only [stored, Cell.header, Block.mk.injEq]
      exact ⟨trivial, Nat.mod_eq_of_lt (by omega), trivial, Nat.mod_eq_of_lt (by omega), trivial⟩
    · intro c member _ _ cell
      have := repr.below c member
      exact (frame (by omega) (by omega) (by omega)).trans cell
  case stacked =>
    have limit := stacked.2.2.1
    rw [brk, stacked_append]
    simp only [Stacked, Cell.finish] at limit ⊢
    exact ⟨stacked.1, by omega, by omega, by omega, by omega, stacked.2.2.2⟩
  case base =>
    have other (c : Cell) (member : c ∈ pre) : c.addr ≠ b.addr := by
      have : b.addr + 24 + b.len ≤ c.addr := repr.stacked.around.1 c member
      omega
    rw [base, repr.base, first_append, first_append, first_cons, first_cons]
    exact (first_replace other).symm
  case top =>
    have top := repr.top
    rw [first_append, first_cons] at top ⊢
    simp only [Cell.finish] at top ⊢
    rw [brk, show n + 24 + (b.addr + b.len - n) = b.addr + 24 + b.len by omega]
    exact top
  case placed =>
    have placed := repr.placed
    simp only [forall_mem_append, forall_mem_cons] at placed ⊢
    exact ⟨placed.1, ⟨aligns, by omega⟩, placed.2.1, placed.2.2⟩
  case breakPositive =>
    rw [brk]
    exact repr.breakPositive
  case bounded => omega

section Merge

variable {h : Heap} {b : Nat}

theorem blockMergeNext_breakptr : (h.blockMergeNext b).breakptr = h.breakptr := by
  simp only [Heap.blockMergeNext]
  split_ifs <;> rfl

variable (apartAbove : Apart b (h.block b).next)
include apartAbove

private theorem blockMergeNext_eq : h.blockMergeNext b = let n := (h.block b).next
      let u := (h.block n).next
      let h₁ := h.setLen b (sub32 n b + (h.block n).len)
      let h₂ := (h₁.setBase (if n = h.base then b else h.base)).setNext b u
      if u ≠ 0 then h₂.setPrev u b else h₂ := by
  have small := Nat.mod_eq_of_lt (block_next_lt h (h.block b).next)
  simp only [Heap.blockMergeNext, setLen_block_self, setLen_base, setBase_block,
    setLen_block_apart _ apartAbove, setNext_block_self, small]

theorem blockMergeNext_base : (h.blockMergeNext b).base = if (h.block b).next = h.base then b else h.base := by
  rw [blockMergeNext_eq apartAbove]
  dsimp only
  split_ifs <;> rfl

theorem blockMergeNext_block_self
    (apart : (h.block (h.block b).next).next ≠ 0 → Apart (h.block (h.block b).next).next b) :
    (h.blockMergeNext b).block b = { h.block b with
        next := (h.block (h.block b).next).next
        len := (sub32 (h.block b).next b + (h.block (h.block b).next).len) % 2 ^ 32 } := by
  have small := Nat.mod_eq_of_lt (block_next_lt h (h.block b).next)
  rw [blockMergeNext_eq apartAbove]
  by_cases top : (h.block (h.block b).next).next ≠ 0
  · rw [if_pos top, setPrev_block_apart _ (apart top), setNext_block_self, setBase_block, setLen_block_self, small]
  · rw [if_neg top, setNext_block_self, setBase_block, setLen_block_self, small]

theorem blockMergeNext_block_next (top : (h.block (h.block b).next).next ≠ 0)
    (apart : Apart b (h.block (h.block b).next).next) : (h.blockMergeNext b).block (h.block (h.block b).next).next =
      { h.block (h.block (h.block b).next).next with prev := b % 2 ^ 32 } := by
  rw [blockMergeNext_eq apartAbove]
  rw [if_pos top, setPrev_block_self, setNext_block_apart _ apart, setBase_block, setLen_block_apart _ apart]

theorem blockMergeNext_mem (offSelf : Off b x)
    (offNext : (h.block (h.block b).next).next ≠ 0 → Off (h.block (h.block b).next).next x) :
    (h.blockMergeNext b).mem x = h.mem x := by
  rw [blockMergeNext_eq apartAbove]
  by_cases top : (h.block (h.block b).next).next ≠ 0
  · rw [if_pos top, setPrev_mem _ (offNext top), setNext_mem _ offSelf, setBase_mem, setLen_mem _ offSelf]
  · rw [if_neg top, setNext_mem _ offSelf, setBase_mem, setLen_mem _ offSelf]

theorem blockMergeNext_block_frame {c : Nat} (apartSelf : Apart b c)
    (apartNext : (h.block (h.block b).next).next ≠ 0 → Apart (h.block (h.block b).next).next c) :
    (h.blockMergeNext b).block c = h.block c := by
  refine block_congr fun x low high => blockMergeNext_mem apartAbove (by omega) fun top => ?_
  omega

end Merge

theorem Represents.blockMergeNext {n : Cell} (repr : Represents h (pre ++ n :: b :: post)) :
    Represents (h.blockMergeNext b.addr)
      (pre ++ { b with len := n.addr - b.addr + n.len } :: post) := by
  have regroup : pre ++ n :: b :: post = (pre ++ [n]) ++ b :: post := by simp
  have reprB : Represents h ((pre ++ [n]) ++ b :: post) := regroup ▸ repr
  have bounded := repr.bounded
  have finish : n.addr + 24 + n.len ≤ h.breakptr := repr.finish_le (by simp)
  have under : b.addr + 24 + b.len ≤ n.addr := repr.below b (.head _)
  have nextB : (h.block b.addr).next = n.addr := by rw [reprB.next_eq, last_concat]
  have storedN := repr.block
  have nextN : (h.block n.addr).next = last Cell.addr 0 pre := repr.next_eq
  have lenN : (h.block n.addr).len = n.len := congrArg Block.len storedN
  have apartAbove : Apart b.addr (h.block b.addr).next := by omega
  have base := blockMergeNext_base apartAbove
  have self := blockMergeNext_block_self apartAbove
  have above := blockMergeNext_block_next apartAbove
  have frame := @blockMergeNext_block_frame h b.addr apartAbove
  have brk := @blockMergeNext_breakptr h b.addr
  rw [nextB, nextN] at self above frame
  rw [nextB] at base
  have apartNext : last Cell.addr 0 pre ≠ 0 → n.addr + 24 + n.len ≤ last Cell.addr 0 pre := repr.finish_le_next
  have linked := (linked_append _ _).mp repr.linked
  have stacked := stacked_append.mp repr.stacked
  constructor
  case linked =>
    rw [linked_append]
    refine ⟨linked.1.relink ?_ ?_, ?_, linked.2.2.2.mono ?_⟩
    · intro c member next prev cell
      obtain ⟨a, memberA, equal, up⟩ := stacked.1.above_last 0 member
      have := repr.stacked.around.1 a memberA
      simp only [Cell.finish] at *
      exact (frame (by omega) (by omega)).trans cell
    · intro c member next cell
      have equal : last Cell.addr 0 pre = c.addr := last_of_getLast? 0 member
      have := repr.placed c (by simp [mem_of_getLast? member])
      have up := apartNext (by omega)
      rw [equal] at above up
      refine (above (by omega) (by omega)).trans ?_
      rw [cell]
      simp only [Cell.header, first_cons, Block.mk.injEq]
      exact ⟨Nat.mod_eq_of_lt (by omega), trivial, trivial, trivial, trivial⟩
    · refine (self (by omega)).trans ?_
      simp only [reprB.block, Cell.header, Block.mk.injEq, lenN,
        sub32_eq (show b.addr ≤ n.addr by omega) (show n.addr < 2 ^ 32 by omega)]
      exact ⟨trivial, trivial, trivial, Nat.mod_eq_of_lt (by omega), trivial⟩
    · intro c member _ _ cell
      have := reprB.below c member
      exact (frame (by omega) (by omega)).trans cell
  case stacked =>
    have limit := stacked.2.2.1
    rw [brk, stacked_append]
    simp only [Stacked, Cell.finish] at limit ⊢
    exact ⟨stacked.1, by omega, by omega, stacked.2.2.2.2.2⟩
  case base =>
    have other (c : Cell) (member : c ∈ pre) : c.addr ≠ n.addr := by
      have : n.addr + 24 + n.len ≤ c.addr := repr.stacked.around.1 c member
      omega
    rw [base, repr.base, first_append, first_append, first_cons, first_cons]
    exact (first_replace other).symm
  case top =>
    have top := repr.top
    rw [first_append, first_cons] at top ⊢
    simp only [Cell.finish] at top ⊢
    rw [brk, show b.addr + 24 + (n.addr - b.addr + n.len) = n.addr + 24 + n.len by omega]
    exact top
  case placed =>
    have placed := repr.placed
    simp only [forall_mem_append, forall_mem_cons] at placed ⊢
    exact ⟨placed.1, placed.2.2⟩
  case breakPositive =>
    rw [brk]
    exact repr.breakPositive
  case bounded => omega

end Petix.Proof.Kmalloc
