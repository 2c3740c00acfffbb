import Petix.Proof.Kmalloc.Rewrites

namespace Petix.Proof.Kmalloc
open List Library Kernel.Kmalloc BlockList

variable {h h' : Heap} {cells cells' pre post rest : List Cell} {b : Cell} {size : Nat}
variable {c b' t : Cell} {pre' : List Cell}

theorem Represents.getFreeBlockFrom (repr : Represents h (pre ++ rest)) (size : Nat) {fuel : Nat}
    (enough : rest.length < fuel) : (∀ c ∈ rest, c.used = 0 → c.len < size) ∧
        h.getFreeBlockFrom size fuel (first Cell.addr 0 rest) = some (0, h) ∨
      ∃ newer b older, rest = newer ++ b :: older ∧ (∀ c ∈ newer, c.used = 0 → c.len < size) ∧
        b.used = 0 ∧ size ≤ b.len ∧ h.getFreeBlockFrom size fuel (first Cell.addr 0 rest) =
          some (b.addr, (h.shrinkBlock b.addr size).2.setUsed b.addr 1) := by
  induction rest generalizing pre fuel with
  | nil =>
    cases fuel with
    | zero => omega
    | succ fuel => exact .inl ⟨by simp, rfl⟩
  | cons b rest ih =>
    cases fuel with
    | zero => omega
    | succ fuel =>
      have stored := repr.block
      have positive := (repr.placed b (by simp)).2
      rw [first_cons, Heap.getFreeBlockFrom, if_neg (by omega)]
      by_cases found : (h.block b.addr).used = 0 ∧ size ≤ (h.block b.addr).len
      · rw [if_pos found]
        rw [stored] at found
        exact .inr ⟨[], b, rest, rfl, by simp, found.1, found.2, rfl⟩
      · rw [if_neg found, show (h.block b.addr).prev = first Cell.addr 0 rest from congrArg Block.prev stored]
        rw [stored] at found
        have skipped (free : b.used = 0) : b.len < size := Nat.lt_of_not_le fun room => found ⟨free, room⟩
        have regroup : pre ++ b :: rest = (pre ++ [b]) ++ rest := by simp
        rw [regroup] at repr
        rcases ih repr (by simpa using enough) with ⟨none, walk⟩ | ⟨newer, d, older, rfl, none, walk⟩
        · exact .inl ⟨forall_mem_cons.mpr ⟨skipped, none⟩, walk⟩
        · exact .inr ⟨b :: newer, d, older, rfl, forall_mem_cons.mpr ⟨skipped, none⟩, walk⟩

/-- `kmalloc` takes the newest free block that is large enough, whole or without the tail it splits
off, and adds a block at the break when there is none. -/
inductive Allocates (size : Nat) : List Cell → Cell → List Cell → Prop
  | push {cells : List Cell} {addr : Nat} : (∀ c ∈ cells, c.used = 0 → c.len < size) → (∀ c ∈ cells, c.addr < addr) →
      Allocates size cells ⟨addr, size, 1⟩ (⟨addr, size, 1⟩ :: cells)
  | whole {pre post : List Cell} {b : Cell} : (∀ c ∈ pre, c.used = 0 → c.len < size) → b.used = 0 →
      size ≤ b.len → b.len < size + minSplitSize →
      Allocates size (pre ++ b :: post) { b with used := 1 } (pre ++ { b with used := 1 } :: post)
  | split {pre post : List Cell} {b tail : Cell} : (∀ c ∈ pre, c.used = 0 → c.len < size) → b.used = 0 →
      size + minSplitSize ≤ b.len → tail.used = 0 →
      Allocates size (pre ++ b :: post) ⟨b.addr, size, 1⟩ (pre ++ tail :: ⟨b.addr, size, 1⟩ :: post)

private theorem Represents.allocates_found (repr : Represents h (pre ++ b :: post))
    (newest : ∀ c ∈ pre, c.used = 0 → c.len < size) (free : b.used = 0) (room : size ≤ b.len) :
    ∃ taken cells', Allocates size (pre ++ b :: post) taken cells' ∧ taken.addr = b.addr ∧
      Rewrites h (pre ++ b :: post) ((h.shrinkBlock b.addr size).2.setUsed b.addr 1) cells' := by
  by_cases small : b.len < size + minSplitSize
  · rw [repr.shrinkBlock_kept room small]
    exact ⟨_, _, .whole newest free room small, rfl, repr.rewrites_setUsed (by omega)⟩
  · have split := repr.rewrites_split (Nat.le_of_not_lt small)
    have regroup (tail c : Cell) : pre ++ tail :: c :: post = (pre ++ [tail]) ++ c :: post := by simp
    refine ⟨⟨b.addr, size, 1⟩, pre ++ ⟨splitAddr b.addr size, b.addr + b.len - splitAddr b.addr size, 0⟩ ::
      ⟨b.addr, size, 1⟩ :: post, .split newest free (Nat.le_of_not_lt small) rfl, rfl, ?_⟩
    rw [regroup] at split ⊢
    exact split.trans (split.repr.rewrites_setUsed (by omega)) fun x _ after => after.replace rfl

theorem Represents.kmalloc_allocates (repr : Represents h cells) (nonzero : size ≠ 0) :
    ∃ ptr h', h.kmalloc size = some (ptr, h') ∧ (h'.breakptr < 2 ^ 32 →
      ∃ taken cells', Allocates size cells taken cells' ∧ ptr = taken.addr + 24 ∧ Rewrites h cells h' cells') := by
  have pushed (none : ∀ c ∈ cells, c.used = 0 → c.len < size)
      (fits : (h.pushBlock size).2.breakptr < 2 ^ 32) :
      ∃ taken cells', Allocates size cells taken cells' ∧ (h.pushBlock size).1 + sizeofBlock = taken.addr + 24 ∧
        Rewrites h cells (h.pushBlock size).2 cells' := by
    refine ⟨_, _, .push none fun c member => ?_, rfl, repr.rewrites_push fits⟩
    have : c.addr + 24 + c.len ≤ h.breakptr := repr.finish_le member
    change c.addr < h.breakptr + align8 h.breakptr
    omega
  rw [Heap.kmalloc, if_neg nonzero]
  by_cases empty : h.base = 0
  · rw [if_pos empty]
    refine ⟨_, _, rfl, pushed fun c member => ?_⟩
    cases cells with
    | nil => cases member
    | cons b rest =>
      have := (repr.placed b (.head _)).2
      have base : h.base = b.addr := repr.base
      omega
  · rw [if_neg empty, Heap.getFreeBlock, repr.base]
    have short : cells.length < 2 ^ 32 := by
      have := repr.stacked.length_le
      have := repr.bounded
      omega
    have whole : Represents h ([] ++ cells) := repr
    rcases whole.getFreeBlockFrom size short with ⟨none, walk⟩ | ⟨_, b, _, rfl, newest, free, room, walk⟩
    · rw [walk]
      exact ⟨_, _, rfl, pushed none⟩
    · have positive := (repr.placed b (by simp)).2
      obtain ⟨taken, cells', allocates, addr, rewrites⟩ := repr.allocates_found newest free room
      rw [walk]
      refine ⟨b.addr + sizeofBlock, (h.shrinkBlock b.addr size).2.setUsed b.addr 1, ?_, fun _ => ?_⟩
      · simp [show b.addr ≠ 0 by omega]
      · exact ⟨taken, cells', allocates, by rw [addr, sizeofBlock], rewrites⟩

theorem Allocates.taken {taken : Cell} (allocates : Allocates size cells taken cells') :
    taken ∈ cells' ∧ taken.used = 1 ∧ size ≤ taken.len := by
  cases allocates with
  | push none above => exact ⟨.head _, rfl, le_rfl⟩
  | whole newest free room small => exact ⟨by simp, rfl, room⟩
  | split newest free room tail => exact ⟨by simp, rfl, le_rfl⟩

theorem Allocates.kept {taken : Cell} (allocates : Allocates size cells taken cells') (member : c ∈ cells)
    (used : c.used ≠ 0) : c ∈ cells' := by
  cases allocates with
  | push none above => exact .tail _ member
  | whole newest free room small =>
    simp only [mem_append, mem_cons] at member ⊢
    rcases member with above | rfl | below
    · exact .inl above
    · exact absurd free used
    · exact .inr (.inr below)
  | split newest free room tail =>
    simp only [mem_append, mem_cons] at member ⊢
    rcases member with above | rfl | below
    · exact .inl above
    · exact absurd free used
    · exact .inr (.inr (.inr below))

theorem Allocates.origin {taken : Cell} (allocates : Allocates size cells taken cells') (member : c ∈ cells')
    (used : c.used ≠ 0) : c = taken ∨ c ∈ cells := by
  cases allocates with
  | push none above => exact mem_cons.mp member
  | whole newest free room small =>
    simp only [mem_append, mem_cons] at member ⊢
    rcases member with above | rfl | below
    · exact .inr (.inl above)
    · exact .inl rfl
    · exact .inr (.inr (.inr below))
  | split newest free room unused =>
    simp only [mem_append, mem_cons] at member ⊢
    rcases member with above | rfl | rfl | below
    · exact .inr (.inl above)
    · exact absurd unused used
    · exact .inl rfl
    · exact .inr (.inr (.inr below))

theorem Allocates.fresh {taken : Cell} (allocates : Allocates size cells taken cells')
    (repr : Represents h cells) (member : c ∈ cells) (used : c.used ≠ 0) : c.addr ≠ taken.addr := by
  have other (b : Cell) (memberB : b ∈ cells) (free : b.used = 0) : c.addr ≠ b.addr := by
    intro equal
    rw [repr.addr_inj member memberB equal] at used
    exact used free
  cases allocates with
  | push none above => exact Nat.ne_of_lt (above c member)
  | @whole pre post b newest free room small => exact other b (by simp) free
  | @split pre post b tail newest free room unused => exact other b (by simp) free

theorem kfree_breakptr (h : Heap) (ptr : Nat) : (h.kfree ptr).breakptr = h.breakptr := by
  simp only [Heap.kfree]
  split_ifs <;> simp only [blockMergeNext_breakptr, setUsed_breakptr]

inductive MergesAbove (b : Cell) : List Cell → List Cell → Cell → Prop
  | kept {pre : List Cell} : (∀ n ∈ pre.getLast?, n.used ≠ 0) → MergesAbove b pre pre b
  | merged {pre : List Cell} {n : Cell} : n.used = 0 →
      MergesAbove b (pre ++ [n]) pre { b with len := n.addr - b.addr + n.len }

inductive MergesBelow (b : Cell) : List Cell → Cell → List Cell → Prop
  | kept {post : List Cell} : (∀ p ∈ post.head?, p.used ≠ 0) → MergesBelow b post b post
  | merged {post : List Cell} {p : Cell} : p.used = 0 →
      MergesBelow b (p :: post) { p with len := b.addr - p.addr + b.len } post

inductive Releases (b : Cell) : List Cell → List Cell → Prop
  | intro {pre pre' post post' : List Cell} {b' b'' : Cell} : (∀ c ∈ pre ++ post, c.addr ≠ b.addr) →
      MergesAbove { b with used := 0 } pre pre' b' → MergesBelow b' post b'' post' →
      Releases b (pre ++ b :: post) (pre' ++ b'' :: post')

theorem Represents.mergeAbove (repr : Represents h (pre ++ b :: post)) :
    ∃ pre' b', MergesAbove b pre pre' b' ∧ Rewrites h (pre ++ b :: post)
      (if (h.block b.addr).next ≠ 0 ∧ (h.block (h.block b.addr).next).used = 0 then h.blockMergeNext b.addr
        else h) (pre' ++ b' :: post) := by
  rcases eq_nil_or_concat' pre with rfl | ⟨pre, n, rfl⟩
  · rw [if_neg fun merges => merges.1 repr.next_eq]
    exact ⟨[], b, .kept (by simp), repr, fun _ _ _ => rfl⟩
  · have next : (h.block b.addr).next = n.addr := by rw [repr.next_eq, last_concat]
    have regroup : (pre ++ [n]) ++ b :: post = pre ++ n :: b :: post := by simp
    have reprN : Represents h (pre ++ n :: b :: post) := regroup ▸ repr
    have positive := (repr.placed n (by simp)).2
    have used : (h.block n.addr).used = n.used := reprN.block_used (by simp)
    rw [next, used]
    by_cases free : n.used = 0
    · rw [if_pos ⟨by omega, free⟩, regroup]
      exact ⟨pre, _, .merged free, reprN.rewrites_merge⟩
    · rw [if_neg fun merges => free merges.2]
      exact ⟨pre ++ [n], b, .kept (by simpa using free), repr, fun _ _ _ => rfl⟩

theorem Represents.mergeBelow (repr : Represents h (pre ++ b :: post)) :
    ∃ b' post', MergesBelow b post b' post' ∧ Rewrites h (pre ++ b :: post)
      (if (h.block b.addr).prev ≠ 0 ∧ (h.block (h.block b.addr).prev).used = 0 then
        h.blockMergeNext (h.block b.addr).prev else h) (pre ++ b' :: post') := by
  have prev : (h.block b.addr).prev = first Cell.addr 0 post := congrArg Block.prev repr.block
  cases post with
  | nil =>
    rw [if_neg fun merges => merges.1 prev]
    exact ⟨b, [], .kept (by simp), repr, fun _ _ _ => rfl⟩
  | cons p post =>
    have reprP : Represents h ((pre ++ [b]) ++ p :: post) := by simpa using repr
    have positive := (repr.placed p (by simp)).2
    have used : (h.block p.addr).used = p.used := reprP.block_used (by simp)
    rw [prev, first_cons, used]
    by_cases free : p.used = 0
    · rw [if_pos ⟨by omega, free⟩]
      exact ⟨_, post, .merged free, repr.rewrites_merge⟩
    · rw [if_neg fun merges => free merges.2]
      exact ⟨b, p :: post, .kept (by simpa using free), repr, fun _ _ _ => rfl⟩

theorem MergesAbove.addr (merges : MergesAbove b pre pre' b') :
    b'.addr = b.addr ∧ b'.used = b.used := by
  cases merges <;> exact ⟨rfl, rfl⟩

theorem MergesAbove.subset (merges : MergesAbove b pre pre' b') : pre' ⊆ pre := by
  cases merges with
  | kept _ => exact List.Subset.refl _
  | merged _ => exact subset_append_left _ _

theorem MergesBelow.subset {post' : List Cell} (merges : MergesBelow b post b' post') : post' ⊆ post := by
  cases merges with
  | kept _ => exact List.Subset.refl _
  | merged _ => exact subset_cons_self _ _

theorem Represents.kfree_releases (repr : Represents h cells) (member : b ∈ cells) :
    ∃ cells', Releases b cells cells' ∧ Rewrites h cells (h.kfree (b.addr + 24)) cells' := by
  obtain ⟨pre, post, rfl⟩ := append_of_mem member
  have cleared := repr.rewrites_setUsed (show 0 < 2 ^ 32 by omega)
  obtain ⟨pre', _, mergesAbove, above⟩ := cleared.repr.mergeAbove
  have addr := mergesAbove.addr.1
  obtain ⟨b'', post', mergesBelow, below⟩ := above.repr.mergeBelow
  have others (c : Cell) (memberC : c ∈ pre ++ post) : c.addr ≠ b.addr := by
    rcases mem_append.mp memberC with inPre | inPost
    · have : b.addr + 24 + b.len ≤ c.addr := repr.stacked.around.1 c inPre
      omega
    · have := repr.below c inPost
      omega
  refine ⟨pre' ++ b'' :: post', .intro others mergesAbove mergesBelow, ?_⟩
  rw [addr] at below
  rw [Heap.kfree, if_neg (by omega)]
  simp only [show b.addr + 24 - sizeofBlock = b.addr by rw [sizeofBlock]; omega, repr.isMemBlock, if_true]
  refine (cleared.trans above fun x before _ => before.replace rfl).trans below fun x before _ => ?_
  refine Clear.replace (b := b) (clear_subset ?_ before) addr
  intro c memberC
  simp only [mem_append, mem_cons] at memberC ⊢
  rcases memberC with inPre | rfl | inPost
  · exact ⟨c, .inl (mergesAbove.subset inPre), rfl⟩
  · exact ⟨c, .inr (.inl rfl), rfl⟩
  · exact ⟨c, .inr (.inr inPost), rfl⟩

theorem Releases.kept (releases : Releases b cells cells') (member : c ∈ cells) (used : c.used ≠ 0)
    (other : c.addr ≠ b.addr) : c ∈ cells' := by
  cases releases with
  | intro _ above below =>
    simp only [mem_append, mem_cons] at member ⊢
    rcases member with inPre | rfl | inPost
    · cases above with
      | kept _ => exact .inl inPre
      | merged free =>
        rcases mem_append.mp inPre with inPre | equal
        · exact .inl inPre
        · rw [mem_singleton.mp equal] at used
          exact absurd free used
    · exact absurd rfl other
    · cases below with
      | kept _ => exact .inr (.inr inPost)
      | merged free =>
        rcases mem_cons.mp inPost with rfl | inPost
        · exact absurd free used
        · exact .inr (.inr inPost)

theorem Releases.subset (releases : Releases b cells cells') : ∀ c ∈ cells', ∃ d ∈ cells, d.addr = c.addr := by
  cases releases with
  | @intro _ _ post _ _ _ _ above below =>
    intro c member
    rcases mem_append.mp member with inPre | rest
    · exact ⟨c, mem_append_left _ (above.subset inPre), rfl⟩
    rcases mem_cons.mp rest with rfl | inPost
    · cases below with
      | kept _ => exact ⟨b, by simp, above.addr.1.symm⟩
      | @merged post p free => exact ⟨p, by simp, rfl⟩
    · exact ⟨c, mem_append_right _ (.tail _ (below.subset inPost)), rfl⟩

theorem Releases.origin (releases : Releases b cells cells') (member : c ∈ cells')
    (used : c.used ≠ 0) : c ∈ cells ∧ c.addr ≠ b.addr := by
  cases releases with
  | @intro _ _ _ _ _ b'' others above below =>
    have free : b''.used = 0 := by
      have := above.addr.2
      cases below with
      | kept _ => exact this
      | merged free => exact free
    simp only [mem_append, mem_cons] at member ⊢
    rcases member with inPre | rfl | inPost
    · exact ⟨.inl (above.subset inPre), others c (mem_append_left _ (above.subset inPre))⟩
    · exact absurd free used
    · exact ⟨.inr (.inr (below.subset inPost)), others c (mem_append_right _ (below.subset inPost))⟩

/-- What `krealloc` does for the block `b`, with the block its caller gets; there is none when the
block was empty, nothing is asked for and the block is not the newest. -/
inductive Resizes (size : Nat) (b : Cell) : List Cell → Option Cell → List Cell → Prop
  | keeps {cells : List Cell} : size < b.len → b.len < size + minSplitSize → Resizes size b cells (some b) cells
  | splits {pre post : List Cell} {tail : Cell} : size + minSplitSize ≤ b.len → tail.used = 0 →
      Resizes size b (pre ++ b :: post) (some { b with len := size })
        (pre ++ tail :: { b with len := size } :: post)
  | grows {post : List Cell} : b.len ≤ size →
      Resizes size b (b :: post) (some { b with len := size }) ({ b with len := size } :: post)
  | absorbs {pre post : List Cell} {n : Cell} : b.len ≤ size → n.used = 0 → size ≤ n.addr - b.addr + n.len →
      Resizes size b (pre ++ n :: b :: post) (some { b with len := n.addr - b.addr + n.len })
        (pre ++ { b with len := n.addr - b.addr + n.len } :: post)
  | moves {pre post cells₁ cells' : List Cell} {taken : Cell} : b.len ≤ size → pre ≠ [] →
      Allocates size (pre ++ b :: post) taken cells₁ → Releases b cells₁ cells' →
      Resizes size b (pre ++ b :: post) (some taken) cells'
  | drops {pre post cells' : List Cell} : size = 0 → b.len = 0 → pre ≠ [] →
      Releases b (pre ++ b :: post) cells' → Resizes size b (pre ++ b :: post) none cells'

theorem Resizes.kept {target : Option Cell} (resizes : Resizes size b cells target cells')
    (member : c ∈ cells) (used : c.used ≠ 0) (other : c.addr ≠ b.addr) : c ∈ cells' := by
  cases resizes with
  | keeps _ _ => exact member
  | splits _ _ =>
    simp only [mem_append, mem_cons] at member ⊢
    rcases member with above | rfl | below
    · exact .inl above
    · exact absurd rfl other
    · exact .inr (.inr (.inr below))
  | grows _ =>
    rcases mem_cons.mp member with rfl | below
    · exact absurd rfl other
    · exact .tail _ below
  | absorbs _ free _ =>
    simp only [mem_append, mem_cons] at member ⊢
    rcases member with above | rfl | rfl | below
    · exact .inl above
    · exact absurd free used
    · exact absurd rfl other
    · exact .inr (.inr below)
  | moves _ _ allocates releases => exact releases.kept (allocates.kept member used) used other
  | drops _ _ _ releases => exact releases.kept member used other

theorem Resizes.target (resizes : Resizes size b cells (some t) cells') (repr : Represents h cells)
    (member : b ∈ cells) (used : b.used ≠ 0) :
    t ∈ cells' ∧ t.used ≠ 0 ∧ size ≤ t.len ∧ ∀ c ∈ cells, c.used ≠ 0 → c.addr ≠ b.addr → c.addr ≠ t.addr := by
  cases resizes with
  | keeps smaller _ => exact ⟨member, used, Nat.le_of_lt smaller, fun _ _ _ other => other⟩
  | splits _ _ => exact ⟨by simp, used, le_rfl, fun _ _ _ other => other⟩
  | grows _ => exact ⟨.head _, used, le_rfl, fun _ _ _ other => other⟩
  | absorbs _ _ enough => exact ⟨by simp, used, enough, fun _ _ _ other => other⟩
  | moves _ _ allocates releases =>
    obtain ⟨memberT, _, room⟩ := allocates.taken
    have fresh := allocates.fresh repr member used
    exact ⟨releases.kept memberT (by omega) fresh.symm, by omega, room,
      fun c memberC usedC _ => allocates.fresh repr memberC usedC⟩

structure Preserves (size : Nat) (b : Cell) (cells : List Cell) (target : Option Cell) (h h' : Heap) : Prop where
  others : ∀ c ∈ cells, c.used ≠ 0 → c.addr ≠ b.addr → ∀ x, c.addr + 24 ≤ x → x < c.finish → h'.mem x = h.mem x
  contents : ∀ t ∈ target, ∀ i < min b.len size, h'.mem (t.addr + 24 + i) = h.mem (b.addr + 24 + i)

private theorem Resizes.preserves (resizes : Resizes size b cells (some t) cells')
    (rewrites : Rewrites h cells h' cells') (repr : Represents h cells) (member : b ∈ cells) (used : b.used ≠ 0)
    (addr : t.addr = b.addr) : Preserves size b cells (some t) h h' := by
  obtain ⟨memberT, _, _, _⟩ := resizes.target repr member used
  refine ⟨fun c memberC usedC other x low high => ?_, fun t' equal i inside => ?_⟩
  · exact rewrites.payload repr memberC (resizes.kept memberC usedC other) low high
  · obtain rfl := Option.some.inj equal
    rw [addr]
    have before := repr.clear member (show b.addr + 24 ≤ b.addr + 24 + i by omega)
      (by simp only [Cell.finish]; omega)
    have after := rewrites.repr.clear memberT (show t.addr + 24 ≤ b.addr + 24 + i by omega)
      (by simp only [Cell.finish]; omega)
    exact rewrites.bytes _ before after

private theorem Represents.krealloc_move (repr : Represents h cells) (member : b ∈ cells)
    (used : b.used ≠ 0) (larger : b.len ≤ size) (nonzero : size ≠ 0) :
    ∃ ptr h₁, h.kmalloc size = some (ptr, h₁) ∧ (h₁.breakptr < 2 ^ 32 →
      ∃ taken cells₁ cells', Allocates size cells taken cells₁ ∧ Releases b cells₁ cells' ∧ ptr = taken.addr + 24 ∧
        let h' := Heap.kfree { h₁ with mem := h₁.mem.copy ptr (b.addr + 24) (h₁.block b.addr).len } (b.addr + 24)
        Represents h' cells' ∧ Preserves size b cells (some taken) h h') := by
  obtain ⟨ptr, h₁, call, allocated⟩ := repr.kmalloc_allocates nonzero
  refine ⟨ptr, h₁, call, fun fits => ?_⟩
  obtain ⟨taken, cells₁, allocates, rfl, rewrites⟩ := allocated fits
  have fresh (c : Cell) (memberC : c ∈ cells) (usedC : c.used ≠ 0) : c.addr ≠ taken.addr :=
    allocates.fresh repr memberC usedC
  obtain ⟨memberT, _, _⟩ := allocates.taken
  have member₁ := allocates.kept member used
  have len : (h₁.block b.addr).len = b.len := by
    obtain ⟨_, _, rfl⟩ := append_of_mem member₁
    exact congrArg Block.len rewrites.repr.block
  rw [len]
  have outside (x : Nat) (out : x < taken.addr + 24 ∨ taken.finish ≤ x) :
      h₁.mem.copy (taken.addr + 24) (b.addr + 24) b.len x = h₁.mem x :=
    Memory.copy_outside _ _ _ _ x (by simp only [Cell.finish] at out; omega)
  have copied := rewrites.repr.payload memberT outside
  obtain ⟨cells', releases, freed⟩ := copied.kfree_releases member₁
  refine ⟨taken, cells₁, cells', allocates, releases, rfl, freed.repr, ?_, ?_⟩
  · intro c memberC usedC other x low high
    have inFirst := allocates.kept memberC usedC
    rw [freed.payload copied inFirst (releases.kept inFirst usedC other) low high]
    refine (outside x ?_).trans (rewrites.payload repr memberC inFirst low high)
    rcases rewrites.repr.apart inFirst memberT with rfl | apart | apart
    · exact absurd rfl (fresh c memberC usedC)
    · exact .inl (by omega)
    · exact .inr (by omega)
  · intro _ equal i _
    obtain rfl := Option.some.inj equal
    have inPayload : taken.addr + 24 + i < taken.finish := by
      simp only [Cell.finish]
      omega
    rw [freed.payload copied memberT (releases.kept memberT (by omega) (fresh b member used).symm)
      (show taken.addr + 24 ≤ taken.addr + 24 + i by omega) inPayload]
    refine (Memory.copy_inside h₁.mem ?_ (by omega)).trans ?_
    · rcases rewrites.repr.apart member₁ memberT with equal | apart | apart
      · exact absurd (congrArg Cell.addr equal) (fresh b member used)
      all_goals
        simp only [Cell.finish] at apart
        omega
    · exact rewrites.payload repr member member₁ (by omega) (by simp only [Cell.finish]; omega)

private theorem Represents.krealloc_drop (repr : Represents h cells) (member : b ∈ cells) :
    ∃ cells', Releases b cells cells' ∧ Represents (h.kfree (b.addr + 24)) cells' ∧
      Preserves 0 b cells none h (h.kfree (b.addr + 24)) := by
  obtain ⟨cells', releases, freed⟩ := repr.kfree_releases member
  refine ⟨cells', releases, freed.repr, fun c memberC used other x low high => ?_, by simp⟩
  exact freed.payload repr memberC (releases.kept memberC used other) low high

private theorem Represents.krealloc_shrink (repr : Represents h (pre ++ b :: post)) (smaller : size < b.len) :
    ∃ t cells', Resizes size b (pre ++ b :: post) (some t) cells' ∧ t.addr = b.addr ∧
      Rewrites h (pre ++ b :: post) (h.shrinkBlock b.addr size).2 cells' := by
  by_cases small : b.len < size + minSplitSize
  · rw [repr.shrinkBlock_kept (Nat.le_of_lt smaller) small]
    exact ⟨b, _, .keeps smaller small, rfl, repr, fun _ _ _ => rfl⟩
  · exact ⟨{ b with len := size }, _, .splits (Nat.le_of_not_lt small) rfl, rfl,
      repr.rewrites_split (Nat.le_of_not_lt small)⟩

def pointer : Option Cell → Nat
  | none => 0
  | some t => t.addr + 24

theorem Represents.krealloc_resizes (repr : Represents h cells) (member : b ∈ cells) (used : b.used ≠ 0) (size : Nat) :
    ∃ ptr h', h.krealloc (b.addr + 24) size = some (ptr, h') ∧ (h'.breakptr < 2 ^ 32 →
      ∃ target cells', ptr = pointer target ∧ Resizes size b cells target cells' ∧ Represents h' cells' ∧
        Preserves size b cells target h h') := by
  obtain ⟨pre, post, rfl⟩ := append_of_mem member
  have stored := repr.block
  have len : (h.block b.addr).len = b.len := congrArg Block.len stored
  have bounded := repr.bounded
  rw [Heap.krealloc]
  simp only [show b.addr + 24 - sizeofBlock = b.addr by rw [sizeofBlock]; omega, repr.isMemBlock,
    not_true_eq_false, if_false]
  by_cases smaller : size < (h.block b.addr).len
  · rw [if_pos smaller]
    obtain ⟨t, cells', resizes, addr, shrunk⟩ := repr.krealloc_shrink (len ▸ smaller)
    exact ⟨_, _, rfl, fun _ => ⟨some t, cells', by rw [pointer, addr], resizes, shrunk.repr,
      resizes.preserves shrunk repr member used addr⟩⟩
  rw [if_neg smaller]
  rw [len] at smaller
  have larger : b.len ≤ size := Nat.le_of_not_lt smaller
  by_cases newest : (h.block b.addr).next = 0 ∧ b.addr = h.base
  · rw [if_pos newest, len]
    obtain rfl := repr.next_eq_zero.mp newest.1
    refine ⟨_, _, rfl, fun fits => ?_⟩
    have grown : Rewrites h (b :: post) ((h.ksbrk (size - b.len)).setLen b.addr size)
        ({ b with len := size } :: post) :=
      ⟨Represents.grow repr larger fits, fun x before _ => setLen_mem size (before b (.head _))⟩
    have resizes : Resizes size b (b :: post) (some { b with len := size }) _ := .grows larger
    exact ⟨_, _, rfl, resizes, grown.repr, resizes.preserves grown repr member used rfl⟩
  rw [if_neg newest]
  have newer : pre ≠ [] := by
    rintro rfl
    exact newest ⟨repr.next_eq_zero.mpr rfl, repr.base.symm⟩
  by_cases absorbs : (h.block (h.block b.addr).next).used = 0 ∧
      size ≤ (sub32 (h.block b.addr).next b.addr + (h.block (h.block b.addr).next).len) % 2 ^ 32
  · rw [if_pos absorbs]
    obtain ⟨pre, n, rfl⟩ := (eq_nil_or_concat' pre).resolve_left newer
    rw [repr.next_eq, last_concat] at absorbs
    rw [append_assoc, singleton_append] at repr ⊢
    have finish : n.addr + 24 + n.len ≤ h.breakptr := repr.finish_le (by simp)
    have under := repr.below b (.head _)
    rw [repr.block, sub32_eq (by omega) (by omega)] at absorbs
    have total : n.addr - b.addr + n.len < 2 ^ 32 := by omega
    rw [Cell.header, Nat.mod_eq_of_lt total] at absorbs
    have resizes : Resizes size b (pre ++ n :: b :: post) (some { b with len := n.addr - b.addr + n.len }) _ :=
      .absorbs larger absorbs.1 absorbs.2
    exact ⟨_, _, rfl, fun _ => ⟨_, _, rfl, resizes, repr.blockMergeNext,
      resizes.preserves repr.rewrites_merge repr (by simp) used rfl⟩⟩
  rw [if_neg absorbs]
  by_cases zero : size = 0
  · have empty : b.len = 0 := Nat.le_zero.mp (zero ▸ larger)
    obtain ⟨cells', releases, freed, preserves⟩ := repr.krealloc_drop member
    refine ⟨0, h.kfree (b.addr + 24), ?_, fun _ => ⟨none, cells', rfl, .drops zero empty newer releases, freed, ?_⟩⟩
    · rw [zero, Heap.kmalloc, if_pos rfl]
      simp only [Option.bind_eq_bind, Option.bind_some, len, empty]
      rfl
    · rw [zero]
      exact preserves
  · obtain ⟨_, _, call, moved⟩ := repr.krealloc_move member used larger zero
    rw [call]
    refine ⟨_, _, rfl, fun fits => ?_⟩
    rw [kfree_breakptr] at fits
    obtain ⟨taken, _, cells', allocates, releases, rfl, freed, preserves⟩ := moved fits
    exact ⟨some taken, cells', rfl, .moves larger newer allocates releases, freed, preserves⟩

def UsedKept (freed : Nat) (cells cells' : List Cell) : Prop := ∀ c ∈ cells, c.used ≠ 0 → c.addr ≠ freed → c ∈ cells'

structure Handed (freed size ptr : Nat) (cells cells' : List Cell) (h' : Heap) : Prop where
  repr : Represents h' cells'
  kept : UsedKept freed cells cells'
  block : ∃ b ∈ cells', ptr = b.addr + 24 ∧ b.used ≠ 0 ∧ size ≤ b.len ∧
    ∀ c ∈ cells, c.used ≠ 0 → c.addr ≠ freed → c.addr ≠ b.addr

def Moved (freed size ptr : Nat) (cells : List Cell) (h' : Heap) : Prop :=
  ∃ cells', Handed freed size ptr cells cells' h' ∨
    size = 0 ∧ ptr = 0 ∧ Represents h' cells' ∧ UsedKept freed cells cells'

theorem Represents.kmalloc (repr : Represents h cells) (nonzero : size ≠ 0) :
    ∃ ptr h', h.kmalloc size = some (ptr, h') ∧
      (h'.breakptr < 2 ^ 32 → ∃ cells', Handed 0 size ptr cells cells' h') := by
  obtain ⟨ptr, h', call, allocated⟩ := repr.kmalloc_allocates nonzero
  refine ⟨ptr, h', call, fun fits => ?_⟩
  obtain ⟨taken, cells', allocates, rfl, rewrites⟩ := allocated fits
  obtain ⟨member, _, room⟩ := allocates.taken
  exact ⟨cells', rewrites.repr, fun c memberC usedC _ => allocates.kept memberC usedC, taken, member, rfl,
    by omega, room, fun c memberC usedC _ => allocates.fresh repr memberC usedC⟩

theorem Represents.krealloc (repr : Represents h cells) (member : b ∈ cells) (used : b.used ≠ 0) (size : Nat) :
    ∃ ptr h', h.krealloc (b.addr + 24) size = some (ptr, h') ∧
      (h'.breakptr < 2 ^ 32 → Moved b.addr size ptr cells h') := by
  obtain ⟨ptr, h', call, resized⟩ := repr.krealloc_resizes member used size
  refine ⟨ptr, h', call, fun fits => ?_⟩
  obtain ⟨target, cells', rfl, resizes, repr', -⟩ := resized fits
  have kept : UsedKept b.addr cells cells' := fun c memberC usedC other => resizes.kept memberC usedC other
  cases target with
  | none =>
    cases resizes with
    | drops zero _ _ _ => exact ⟨cells', .inr ⟨zero, rfl, repr', kept⟩⟩
  | some t =>
    obtain ⟨memberT, usedT, room, fresh⟩ := resizes.target repr member used
    exact ⟨cells', .inl ⟨repr', kept, t, memberT, rfl, usedT, room, fresh⟩⟩

end Petix.Proof.Kmalloc
