import Petix.Proof.Kmalloc.Coalescing

namespace Petix.Proof.Kmalloc
open List Library Kernel.Kmalloc Spec.Kmalloc

variable {floor limit size ptr : Nat} {h h' : Heap} {live : List (Nat × Nat)}
variable {e e' : Nat × Nat} {x : Nat} {cells : List Cell}

structure Serving (floor limit : Nat) (h : Heap) (live : List (Nat × Nat)) : Prop where
  chain : ∃ cells, Represents h cells ∧ Held cells live ∧ ∀ b ∈ cells, floor ≤ b.addr
  low : floor ≤ h.breakptr
  high : h.breakptr ≤ limit
  word : limit < 2 ^ 32

theorem getFreeBlockFrom_breakptr {fuel curr b : Nat} (found : h.getFreeBlockFrom size fuel curr = some (b, h')) :
    h'.breakptr = h.breakptr := by
  induction fuel generalizing curr with
  | zero => cases found
  | succ fuel ih =>
    rw [Heap.getFreeBlockFrom] at found
    split_ifs at found
    · obtain ⟨-, rfl⟩ := by simpa using found
      rfl
    · obtain ⟨-, rfl⟩ := by simpa using found
      rw [setUsed_breakptr]
      by_cases taken : minSplitSize ≤ sub32 (h.block curr).len size
      · exact shrinkBlock_breakptr taken
      · rw [Heap.shrinkBlock, if_neg taken]
    · exact ih found

theorem kmalloc_breakptr (call : h.kmalloc size = some (ptr, h')) :
    h.breakptr ≤ h'.breakptr ∧ h'.breakptr ≤ h.breakptr + 31 + size := by
  have pushed (g : Heap) (same : g.breakptr = h.breakptr) :
      h.breakptr ≤ (g.pushBlock size).2.breakptr ∧ (g.pushBlock size).2.breakptr ≤ h.breakptr + 31 + size := by
    rw [pushBlock_breakptr, same]
    unfold align8
    omega
  unfold Heap.kmalloc at call
  split_ifs at call
  · obtain ⟨-, rfl⟩ := by simpa using call
    omega
  · obtain ⟨-, rfl⟩ := by simpa using call
    exact pushed h rfl
  · obtain ⟨⟨_, g⟩, found, rest⟩ := Option.bind_eq_some_iff.mp call
    have same := getFreeBlockFrom_breakptr found
    dsimp only at rest
    split_ifs at rest
    · obtain ⟨-, rfl⟩ := by simpa using rest
      exact pushed g same
    · obtain ⟨-, rfl⟩ := by simpa using rest
      omega

theorem Serving.inside (serving : Serving floor limit h live) (member : e ∈ live) :
    floor < e.1 ∧ e.1 + e.2 ≤ limit := by
  obtain ⟨_, repr, held, above⟩ := serving.chain
  obtain ⟨b, memberB, _, -, _⟩ := held.cell e member
  have finish : b.addr + 24 + b.len ≤ h.breakptr := repr.finish_le memberB
  have := above b memberB
  have := serving.high
  omega

theorem Serving.apart (serving : Serving floor limit h live) (member : e ∈ live)
    (member' : e' ∈ live) (other : e.1 ≠ e'.1) : e.1 + e.2 ≤ e'.1 ∨ e'.1 + e'.2 ≤ e.1 := by
  obtain ⟨_, repr, held, -⟩ := serving.chain
  obtain ⟨_, memberB, equal, -, _⟩ := held.cell e member
  obtain ⟨_, memberB', equal', -, _⟩ := held.cell e' member'
  rcases repr.apart memberB memberB' with rfl | above | below
  · exact absurd (equal.trans equal'.symm) other
  · simp only [Cell.finish] at above
    omega
  · simp only [Cell.finish] at below
    omega

theorem Serving.fresh (serving : Serving floor limit h (e :: live)) (member : e' ∈ live) :
    e'.1 ≠ e.1 := by
  obtain ⟨_, -, held, -⟩ := serving.chain
  intro equal
  have nodup := held.nodup
  rw [map_cons, nodup_cons] at nodup
  exact nodup.1 (equal ▸ mem_map_of_mem member)

theorem Serving.spared_off {held : List (Nat × Nat)} (serving : Serving floor limit h live)
    (member : e ∈ live) (others : ∀ e' ∈ held, e' ∈ live ∧ e'.1 ≠ e.1) (spared : Spared floor limit held x) :
    x < e.1 ∨ e.1 + e.2 ≤ x := by
  have inside := serving.inside member
  rcases spared with _ | _ | ⟨e', member', _, _⟩
  · exact .inl (by omega)
  · exact .inr (by omega)
  · obtain ⟨memberL, other⟩ := others e' member'
    have := serving.apart memberL member other
    omega

theorem Serving.store (serving : Serving floor limit h live) {m : Memory}
    (inside : ∀ x, ¬Within live x → x < limit → m x = h.mem x) : Serving floor limit { h with mem := m } live := by
  obtain ⟨cells, repr, held, above⟩ := serving.chain
  have high := serving.high
  refine ⟨⟨cells, repr.congr rfl rfl fun c memberC => block_congr fun x low top => inside x ?_ ?_, held, above⟩,
    serving.low, high, serving.word⟩
  · rintro ⟨e, member, _, _⟩
    obtain ⟨b, memberB, _, -, _⟩ := held.cell e member
    have within : x < b.finish := by
      simp only [Cell.finish]
      omega
    rcases repr.clear memberB (by omega) within c memberC with _ | _
    · omega
    · omega
  · have finish : c.addr + 24 + c.len ≤ h.breakptr := repr.finish_le memberC
    omega

theorem spared_clear (spared : Spared floor limit live x) (repr : Represents h cells)
    (held : Held cells live) (above : ∀ b ∈ cells, floor ≤ b.addr) (high : h.breakptr ≤ limit) : Clear cells x := by
  rcases spared with _ | _ | ⟨e, member, _, _⟩
  · intro c memberC
    have := above c memberC
    exact .inl (by omega)
  · intro c memberC
    have finish : c.addr + 24 + c.len ≤ h.breakptr := repr.finish_le memberC
    exact .inr (by omega)
  · obtain ⟨_, memberB, _, -, _⟩ := held.cell e member
    refine repr.clear memberB (by omega) ?_
    simp only [Cell.finish]
    omega

theorem Allocates.above {cells' : List Cell} {taken : Cell} (allocates : Allocates size cells taken cells')
    (repr' : Represents h' cells') (above : ∀ b ∈ cells, floor ≤ b.addr) (first : cells = [] → floor ≤ taken.addr) :
    ∀ b ∈ cells', floor ≤ b.addr := by
  cases allocates with
  | push none higher =>
    intro b member
    rcases mem_cons.mp member with rfl | old
    · cases cells with
      | nil => exact first rfl
      | cons c rest =>
        have := above c (.head _)
        have := higher c (.head _)
        dsimp only at *
        omega
    · exact above b old
  | whole newest free room small => simpa only [forall_mem_append, forall_mem_cons] using above
  | @split pre post b tail newest free room unused =>
    have tailAbove := repr'.below ⟨b.addr, size, 1⟩ (.head _)
    simp only [forall_mem_append, forall_mem_cons] at above ⊢
    exact ⟨above.1, by dsimp only at tailAbove; omega, above.2⟩

theorem Serving.kmalloc (serving : Serving floor limit h live) (nonzero : size ≠ 0) :
    ∃ ptr h', h.kmalloc size = some (ptr, h') ∧ (h'.breakptr ≤ limit →
      Serving floor limit h' ((ptr, size) :: live) ∧ ∀ x, Spared floor limit live x → h'.mem x = h.mem x) := by
  obtain ⟨cells, repr, held, above⟩ := serving.chain
  obtain ⟨ptr, h', call, allocated⟩ := repr.kmalloc_allocates nonzero
  refine ⟨ptr, h', call, fun high => ?_⟩
  have word := serving.word
  obtain ⟨taken, cells', allocates, rfl, rewrites⟩ := allocated (by omega)
  obtain ⟨member, _, room⟩ := allocates.taken
  have first (none : cells = []) : floor ≤ taken.addr := by
    have base : h.base = 0 := by rw [repr.base, none]; rfl
    rw [Heap.kmalloc, if_neg nonzero, if_pos base] at call
    have := congrArg Prod.fst (Option.some.inj call)
    have low := serving.low
    simp only [sizeofBlock] at this
    omega
  have above' := allocates.above rewrites.repr above first
  have held' : Held cells' ((taken.addr + 24, size) :: live) := by
    constructor
    · intro e memberE
      rcases mem_cons.mp memberE with rfl | old
      · exact ⟨taken, member, rfl, by omega, room⟩
      · obtain ⟨b, memberB, equal, usedB, roomB⟩ := held.cell e old
        exact ⟨b, allocates.kept memberB usedB, equal, usedB, roomB⟩
    · rw [map_cons, nodup_cons]
      refine ⟨fun old => ?_, held.nodup⟩
      obtain ⟨_, memberB, _, usedB⟩ := held.block old
      have := allocates.fresh repr memberB usedB
      omega
  have low := serving.low
  have grows := (kmalloc_breakptr call).1
  refine ⟨⟨⟨cells', rewrites.repr, held', above'⟩, by omega, high, word⟩, fun x spared => ?_⟩
  have after : Spared floor limit ((taken.addr + 24, size) :: live) x := by
    refine spared.imp_right fun rest => rest.imp_right ?_
    rintro ⟨e, memberE, inside⟩
    exact ⟨e, .tail _ memberE, inside⟩
  exact rewrites.bytes x (spared_clear spared repr held above serving.high)
    (spared_clear after rewrites.repr held' above' high)

theorem Serving.kfree (serving : Serving floor limit h live) (member : ptr ∈ live.map Prod.fst) :
    Serving floor limit (h.kfree ptr) (dropLive live ptr) ∧
      ∀ x, Spared floor limit (dropLive live ptr) x → (h.kfree ptr).mem x = h.mem x := by
  obtain ⟨_, repr, held, above⟩ := serving.chain
  obtain ⟨b, memberB, rfl, -⟩ := held.block member
  obtain ⟨cells', releases, rewrites⟩ := repr.kfree_releases memberB
  have brk := kfree_breakptr h (b.addr + 24)
  have held' : Held cells' (dropLive live (b.addr + 24)) := by
    refine held.afterDrop (fun c memberC usedC other => releases.kept memberC usedC other) ?_
    exact fun e _ other => other
  have above' : ∀ c ∈ cells', floor ≤ c.addr := by
    intro c memberC
    obtain ⟨d, memberD, equal⟩ := releases.subset c memberC
    exact equal ▸ above d memberD
  refine ⟨⟨⟨cells', rewrites.repr, held', above'⟩, ?_, ?_, serving.word⟩, fun x spared => ?_⟩
  · rw [brk]
    exact serving.low
  · rw [brk]
    exact serving.high
  · have before : Spared floor limit live x := by
      refine spared.imp_right fun rest => rest.imp_right ?_
      rintro ⟨e, memberE, inside⟩
      exact ⟨e, (mem_filter.mp memberE).1, inside⟩
    have high' : (h.kfree (b.addr + 24)).breakptr ≤ limit := brk ▸ serving.high
    exact rewrites.bytes x (spared_clear before repr held above serving.high)
      (spared_clear spared rewrites.repr held' above' high')

theorem stays_live (member : e ∈ live) (other : e.1 ≠ ptr) : e ∈ dropLive live ptr :=
  mem_filter.mpr ⟨member, by simpa using other⟩

theorem reachable_serving {c : Client} (reachable : clients.Reachable c) {chain : List Nat}
    (walk : PrevWalk c.heap c.heap.base chain) (above : ∀ b ∈ chain, floor ≤ b) (low : floor ≤ c.heap.breakptr)
    (high : c.heap.breakptr ≤ limit) (word : limit < 2 ^ 32) : Serving floor limit c.heap c.live := by
  obtain ⟨cells, repr, held⟩ := reachable_invariant reachable
  rw [repr.prevWalk_iff] at walk
  subst walk
  exact ⟨⟨cells, repr, held, fun b member => above b.addr (mem_map_of_mem member)⟩, low, high, word⟩

end Petix.Proof.Kmalloc
