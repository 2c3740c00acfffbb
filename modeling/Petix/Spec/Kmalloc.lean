import Petix.Kernel.Kmalloc

namespace Petix.Spec.Kmalloc
open Library Kernel.Kmalloc

inductive PrevWalk (h : Heap) : Nat → List Nat → Prop
  | null : PrevWalk h 0 []
  | block {b : Nat} {rest : List Nat} : b ≠ 0 → PrevWalk h (h.block b).prev rest → PrevWalk h b (b :: rest)

structure WellFormed (h : Heap) (chain : List Nat) : Prop where
  walk : PrevWalk h h.base chain
  decreasing : chain.Pairwise (· > ·)
  aligned : ∀ b ∈ chain, b % 8 = 0
  prevNext : ∀ b ∈ chain, (h.block b).prev ≠ 0 → (h.block (h.block b).prev).next = b
  nextNull : ∀ b ∈ chain, (h.block b).next = 0 ↔ b = h.base
  payload : ∀ b ∈ chain, (h.block b).next ≠ 0 → b + sizeofBlock + (h.block b).len ≤ (h.block b).next
  baseEnd : h.base ≠ 0 → h.base + sizeofBlock + (h.block h.base).len = h.breakptr

def Serves (h : Heap) (ptr size : Nat) : Prop :=
  ptr ≠ 0 ∧ ptr % 8 = 0 ∧ size ≤ (h.block (ptr - sizeofBlock)).len

def Disjoint (h : Heap) (p q : Nat) : Prop :=
  p + (h.block (p - sizeofBlock)).len ≤ q ∨ q + (h.block (q - sizeofBlock)).len ≤ p

def capacity (h : Heap) (ptr : Nat) : Nat := (h.block (ptr - sizeofBlock)).len

def SameBytes (h : Heap) (p : Nat) (h' : Heap) (q n : Nat) : Prop := ∀ i < n, h'.mem (q + i) = h.mem (p + i)

structure StringAt (m : Memory) (str n : Nat) : Prop where
  characters : ∀ i < n, m (str + i) ≠ 0
  terminator : m (str + n) = 0
  short : n < 2 ^ 32

def Foreign (c : Client) (chain : List Nat) (x : Nat) : Prop :=
  (∃ e ∈ c.live, e.1 ≤ x ∧ x < e.1 + e.2) ∨ ∀ b ∈ chain, x < b ∨ b + sizeofBlock + (c.heap.block b).len ≤ x

def Within (live : List (Nat × Nat)) (x : Nat) : Prop := ∃ e ∈ live, e.1 ≤ x ∧ x < e.1 + e.2

def Spared (floor limit : Nat) (live : List (Nat × Nat)) (x : Nat) : Prop :=
  x < floor ∨ limit ≤ x ∨ Within live x

def ReusesLonger (h : Heap) (chain : List Nat) (n : Nat) : Prop :=
  ∃ newer b older, chain = newer ++ b :: older ∧ (∀ a ∈ newer, (h.block a).used = 0 → (h.block a).len < n) ∧
    (h.block b).used = 0 ∧ n < (h.block b).len ∧ (h.block b).len < n + minSplitSize

structure Duplicates (c : Client) (chain : List Nat) (str n : Nat) (copy : Memcpy) (h : Heap) : Prop where
  nonnull : copy.target ≠ 0
  fresh : copy.target ∉ c.live.map Prod.fst ∧ ∃ chain', WellFormed h chain' ∧ copy.target - sizeofBlock ∈ chain'
  holds : SameBytes c.heap str (copy.run h) copy.target (n + 1)
  inside : copy.count ≤ capacity h copy.target
  headers : ∀ b ∈ chain, b ≠ copy.target - sizeofBlock → (copy.run h).block b = c.heap.block b
  others : ∀ q ∈ c.live.map Prod.fst,
    capacity (copy.run h) q = capacity c.heap q ∧ SameBytes c.heap q (copy.run h) q (capacity c.heap q)

def Coalesced (h : Heap) (chain : List Nat) : Prop :=
  chain.IsChain fun b p => ¬((h.block b).used = 0 ∧ (h.block p).used = 0)

def NextUsed (h : Heap) (b : Nat) : Prop := (h.block b).next ≠ 0 → (h.block (h.block b).next).used ≠ 0
def PrevUsed (h : Heap) (b : Nat) : Prop := (h.block b).prev ≠ 0 → (h.block (h.block b).prev).used ≠ 0

instance (h : Heap) (b : Nat) : Decidable (NextUsed h b) := inferInstanceAs (Decidable (_ → _))
instance (h : Heap) (b : Nat) : Decidable (PrevUsed h b) := inferInstanceAs (Decidable (_ → _))

def TailSeparated (c : Client) : Call → Prop
  | .krealloc ptr size => ptr ≠ 0 → size + minSplitSize ≤ capacity c.heap ptr → NextUsed c.heap (ptr - sizeofBlock)
  | _ => True

/-- The call gives back, moves or extends no block next to a free one; the newest block may grow at the
break. -/
def NeighboursUsed (c : Client) : Call → Prop
  | .kfree ptr => ptr ≠ 0 → NextUsed c.heap (ptr - sizeofBlock) ∧ PrevUsed c.heap (ptr - sizeofBlock)
  | .krealloc ptr size => ptr ≠ 0 → capacity c.heap ptr ≤ size → (c.heap.block (ptr - sizeofBlock)).next ≠ 0 →
      NextUsed c.heap (ptr - sizeofBlock) ∧ PrevUsed c.heap (ptr - sizeofBlock)
  | _ => True

def KeepsHeaders (c : Client) (call : Call) : Prop := TailSeparated c call ∧ NeighboursUsed c call

instance (c : Client) : (call : Call) → Decidable (TailSeparated c call)
  | .krealloc _ _ => inferInstanceAs (Decidable (_ → _ → _))
  | .kmalloc _ | .kfree _ | .store _ _ _ => inferInstanceAs (Decidable True)

instance (c : Client) : (call : Call) → Decidable (NeighboursUsed c call)
  | .krealloc _ _ => inferInstanceAs (Decidable (_ → _ → _ → _))
  | .kfree _ => inferInstanceAs (Decidable (_ → _))
  | .kmalloc _ | .store _ _ _ => inferInstanceAs (Decidable True)

instance (c : Client) (call : Call) : Decidable (KeepsHeaders c call) := inferInstanceAs (Decidable (_ ∧ _))

end Petix.Spec.Kmalloc
