import Petix.Proof.Kmalloc.Operations

namespace Petix.Proof.Kmalloc
open List Library Kernel.Kmalloc BlockList

variable {h h' : Heap} {cells cells' pre post : List Cell} {b : Cell} {size : Nat}
variable {v x : Nat}

theorem Represents.congr (repr : Represents h cells) (base : h'.base = h.base)
    (brk : h'.breakptr = h.breakptr) (same : ∀ c ∈ cells, h'.block c.addr = h.block c.addr) : Represents h' cells where
  linked := repr.linked.mono fun c member _ _ stored => (same c member).trans stored
  stacked := brk ▸ repr.stacked
  base := base.trans repr.base
  top := brk ▸ repr.top
  placed := repr.placed
  breakPositive := brk ▸ repr.breakPositive
  bounded := brk ▸ repr.bounded

theorem Represents.payload (repr : Represents h cells) (member : b ∈ cells) {m : Memory}
    (inside : ∀ x, x < b.addr + 24 ∨ b.finish ≤ x → m x = h.mem x) : Represents { h with mem := m } cells := by
  refine repr.congr rfl rfl fun c memberC => block_congr fun x low high => inside x ?_
  rcases repr.apart member memberC with rfl | _ | below
  · exact .inl high
  · exact .inr (by omega)
  · simp only [Cell.finish] at below
    exact .inl (by omega)

theorem Represents.setUsed (repr : Represents h (pre ++ b :: post)) (small : v < 2 ^ 32) :
    Represents (h.setUsed b.addr v) (pre ++ { b with used := v } :: post) := by
  have linked := (linked_append _ _).mp repr.linked
  have frame (c : Cell) (apart : b.finish ≤ c.addr ∨ c.finish ≤ b.addr) :
      (h.setUsed b.addr v).block c.addr = h.block c.addr := by
    simp only [Cell.finish] at apart
    exact setUsed_block_apart _ (by omega)
  constructor
  case linked =>
    rw [linked_append]
    refine ⟨linked.1.mono fun c member _ _ stored => ?_, ?_, linked.2.2.mono fun c member _ _ stored => ?_⟩
    · exact (frame c (.inl (repr.stacked.around.1 c member))).trans stored
    · refine (setUsed_block_self h b.addr v).trans ?_
      rw [repr.block, Nat.mod_eq_of_lt small]
      rfl
    · exact (frame c (.inr (repr.stacked.around.2 c member))).trans stored
  case stacked =>
    have stacked := stacked_append.mp repr.stacked
    exact stacked_append.mpr stacked
  case base =>
    rw [setUsed_base, repr.base, first_append, first_append]
    rfl
  case top =>
    have top := repr.top
    rw [first_append] at top ⊢
    exact top
  case placed =>
    have placed := repr.placed
    simp only [forall_mem_append, forall_mem_cons] at placed ⊢
    exact placed
  case breakPositive => exact repr.breakPositive
  case bounded => exact repr.bounded

theorem Represents.grow (repr : Represents h (b :: post)) (larger : b.len ≤ size)
    (fits : h.breakptr + (size - b.len) < 2 ^ 32) :
    Represents ((h.ksbrk (size - b.len)).setLen b.addr size) ({ b with len := size } :: post) := by
  have top : b.addr + 24 + b.len = h.breakptr := repr.top
  constructor
  case linked =>
    refine ⟨?_, repr.linked.2.mono fun c member _ _ stored => ?_⟩
    · refine (setLen_block_self _ b.addr size).trans ?_
      have stored : h.block b.addr = b.header 0 (first Cell.addr 0 post) := repr.linked.1
      rw [ksbrk_block, stored, Nat.mod_eq_of_lt (by omega)]
      rfl
    · have under : c.addr + 24 + c.len ≤ b.addr := (repr.stacked.2.2.mem member).2
      exact (setLen_block_apart _ (by omega)).trans stored
  case stacked =>
    refine ⟨?_, ?_, repr.stacked.2.2⟩
    all_goals
      simp only [Cell.finish, setLen_breakptr, ksbrk_breakptr]
      omega
  case base => exact repr.base
  case top =>
    simp only [first_cons, Cell.finish, setLen_breakptr, ksbrk_breakptr]
    omega
  case placed =>
    have placed := repr.placed
    simp only [forall_mem_cons] at placed ⊢
    exact placed
  case breakPositive =>
    simp only [setLen_breakptr, ksbrk_breakptr]
    omega
  case bounded =>
    simp only [setLen_breakptr, ksbrk_breakptr]
    omega

def Clear (cells : List Cell) (x : Nat) : Prop := ∀ c ∈ cells, Off c.addr x

structure Rewrites (h : Heap) (cells : List Cell) (h' : Heap) (cells' : List Cell) : Prop where
  repr : Represents h' cells'
  bytes : ∀ x, Clear cells x → Clear cells' x → h'.mem x = h.mem x

theorem Represents.clear (repr : Represents h cells) (member : b ∈ cells) (low : b.addr + 24 ≤ x)
    (high : x < b.finish) : Clear cells x := by
  intro _ memberC
  rcases repr.apart member memberC with rfl | _ | below
  · exact .inr low
  · exact .inl (by omega)
  · simp only [Cell.finish] at below
    exact .inr (by omega)

theorem Represents.addr_inj (repr : Represents h cells) {c : Cell} (memberB : b ∈ cells) (memberC : c ∈ cells)
    (equal : b.addr = c.addr) : b = c := by
  have extentB := (repr.stacked.mem memberB).1
  have extentC := (repr.stacked.mem memberC).1
  rcases repr.apart memberB memberC with same | apart | _
  · exact same
  all_goals omega

theorem Rewrites.payload (rewrites : Rewrites h cells h' cells') (repr : Represents h cells) (member : b ∈ cells)
    (member' : b ∈ cells') (low : b.addr + 24 ≤ x) (high : x < b.finish) : h'.mem x = h.mem x :=
  rewrites.bytes x (repr.clear member low high) (rewrites.repr.clear member' low high)

theorem Rewrites.trans {h₁ : Heap} {cells₁ : List Cell} (first : Rewrites h cells h₁ cells₁)
    (second : Rewrites h₁ cells₁ h' cells') (between : ∀ x, Clear cells x → Clear cells' x → Clear cells₁ x) :
    Rewrites h cells h' cells' where
  repr := second.repr
  bytes x before after :=
    (second.bytes x (between x before after) after).trans (first.bytes x before (between x before after))

theorem clear_subset (addrs : ∀ c ∈ cells', ∃ d ∈ cells, d.addr = c.addr) (clear : Clear cells x) :
    Clear cells' x := by
  intro c member
  obtain ⟨d, memberD, equal⟩ := addrs c member
  exact equal ▸ clear d memberD

theorem Clear.replace {b' : Cell} (clear : Clear (pre ++ b :: post) x) (addr : b'.addr = b.addr) :
    Clear (pre ++ b' :: post) x := by
  simp only [Clear, forall_mem_append, forall_mem_cons] at clear ⊢
  rw [addr]
  exact clear

theorem Represents.rewrites_setUsed (repr : Represents h (pre ++ b :: post)) (small : v < 2 ^ 32) :
    Rewrites h (pre ++ b :: post) (h.setUsed b.addr v) (pre ++ { b with used := v } :: post) where
  repr := repr.setUsed small
  bytes _ before _ := setUsed_mem v (before b (by simp))

theorem Represents.rewrites_push (repr : Represents h cells) {size : Nat}
    (fits : (h.pushBlock size).2.breakptr < 2 ^ 32) :
    Rewrites h cells (h.pushBlock size).2 (⟨h.breakptr + align8 h.breakptr, size, 1⟩ :: cells) where
  repr := repr.pushBlock size fits
  bytes x before after := by
    refine pushBlock_mem h size (after _ (.head _)) fun nonempty => ?_
    rw [repr.base] at nonempty ⊢
    cases cells with
    | nil => exact absurd rfl nonempty
    | cons b rest => exact before b (.head _)

section
variable (repr : Represents h (pre ++ b :: post))
include repr

theorem Represents.off_next
    (clear : Clear (pre ++ b :: post) x) (top : (h.block b.addr).next ≠ 0) : Off (h.block b.addr).next x := by
  rw [repr.next_eq] at top ⊢
  rcases last_cases Cell.addr 0 pre with ⟨_, none⟩ | ⟨a, member, equal⟩
  · exact absurd none top
  · exact equal ▸ clear a (mem_append_left _ member)

theorem Represents.rewrites_split {size : Nat}
    (room : size + minSplitSize ≤ b.len) : Rewrites h (pre ++ b :: post) (h.shrinkBlock b.addr size).2
      (pre ++ ⟨splitAddr b.addr size, b.addr + b.len - splitAddr b.addr size, 0⟩ ::
        { b with len := size } :: post) where
  repr := repr.shrinkBlock room
  bytes x before after := by
    have finish : b.addr + 24 + b.len ≤ h.breakptr := repr.finish_le (by simp)
    have bounded := repr.bounded
    have taken : minSplitSize ≤ sub32 (h.block b.addr).len size := by
      rw [show (h.block b.addr).len = b.len from congrArg Block.len repr.block, sub32_eq (by omega) (by omega)]
      omega
    exact shrinkBlock_mem taken (before b (by simp))
      (after _ (mem_append_right _ (.head _))) (repr.off_next before)

theorem Represents.shrinkBlock_kept (room : size ≤ b.len)
    (small : b.len < size + minSplitSize) : (h.shrinkBlock b.addr size).2 = h := by
  have finish : b.addr + 24 + b.len ≤ h.breakptr := repr.finish_le (by simp)
  have bounded := repr.bounded
  rw [Heap.shrinkBlock, if_neg]
  rw [show (h.block b.addr).len = b.len from congrArg Block.len repr.block, sub32_eq room (by omega)]
  omega

end

theorem Represents.rewrites_merge {n : Cell} (repr : Represents h (pre ++ n :: b :: post)) :
    Rewrites h (pre ++ n :: b :: post) (h.blockMergeNext b.addr)
      (pre ++ { b with len := n.addr - b.addr + n.len } :: post) where
  repr := repr.blockMergeNext
  bytes x before _ := by
    have reprB : Represents h ((pre ++ [n]) ++ b :: post) := by simpa using repr
    have next : (h.block b.addr).next = n.addr := by rw [reprB.next_eq, last_concat]
    have under := repr.below b (.head _)
    refine blockMergeNext_mem (by omega) (before b (by simp)) ?_
    rw [next]
    exact repr.off_next before

end Petix.Proof.Kmalloc
