import Mathlib.Data.List.Chain
import Petix.Proof.Kmalloc.Runs

namespace Petix.Proof.Kmalloc
open List Library Kernel.Kmalloc Spec.Kmalloc BlockList

variable {h : Heap} {cells cells' pre post : List Cell} {b : Cell} {size : Nat} {live live' : List (Nat × Nat)}
variable {call : Call}
variable {taken b' : Cell} {target : Option Cell} {c : Client} {ptr : Nat} {chain : List Nat}

def NoFreePair (cells : List Cell) : Prop := cells.IsChain fun b p => ¬(b.used = 0 ∧ p.used = 0)

structure BesideUsed (pre post : List Cell) : Prop where
  above : ∀ n ∈ pre.getLast?, n.used ≠ 0
  below : ∀ p ∈ post.head?, p.used ≠ 0

theorem noFreePair_cons : NoFreePair (b :: post) ↔ NoFreePair post ∧ (b.used = 0 → ∀ p ∈ post.head?, p.used ≠ 0) := by
  simp only [NoFreePair, isChain_cons, not_and]
  exact ⟨fun both => ⟨both.2, fun free p head => both.1 p head free⟩,
    fun both => ⟨fun p head free => both.2 free p head, both.1⟩⟩

theorem noFreePair_append_cons :
    NoFreePair (pre ++ b :: post) ↔ NoFreePair pre ∧ NoFreePair post ∧ (b.used = 0 → BesideUsed pre post) := by
  rw [NoFreePair, isChain_append]
  change NoFreePair pre ∧ NoFreePair (b :: post) ∧ _ ↔ _
  simp only [noFreePair_cons, head?_cons, Option.mem_some_iff, forall_eq', not_and]
  constructor
  · rintro ⟨above, ⟨below, down⟩, up⟩
    exact ⟨above, below, fun free => ⟨fun n last unused => up n last unused free, down free⟩⟩
  · rintro ⟨above, below, beside⟩
    exact ⟨above, ⟨below, fun free => (beside free).below⟩, fun n last unused free => (beside free).above n last unused⟩

theorem Represents.coalesced_iff (repr : Represents h cells) :
    Coalesced h (cells.map Cell.addr) ↔ NoFreePair cells := by
  rw [Coalesced, NoFreePair, isChain_map]
  refine List.IsChain.iff_of_mem_imp fun b p memberB memberP => ?_
  rw [repr.block_used memberB, repr.block_used memberP]

theorem Represents.nextUsed_iff (repr : Represents h (pre ++ b :: post)) :
    NextUsed h b.addr ↔ ∀ n ∈ pre.getLast?, n.used ≠ 0 := by
  rcases eq_nil_or_concat' pre with rfl | ⟨pre, n, rfl⟩
  · simp [NextUsed, repr.next_eq, last]
  · have positive := (repr.placed n (by simp)).2
    have used := repr.block_used (show n ∈ (pre ++ [n]) ++ b :: post by simp)
    simp [NextUsed, repr.next_eq, used, show n.addr ≠ 0 by omega]

theorem Represents.prevUsed_iff (repr : Represents h (pre ++ b :: post)) :
    PrevUsed h b.addr ↔ ∀ p ∈ post.head?, p.used ≠ 0 := by
  have prev : (h.block b.addr).prev = first Cell.addr 0 post := congrArg Block.prev repr.block
  cases post with
  | nil => simp [PrevUsed, prev]
  | cons p post =>
    have positive := (repr.placed p (by simp)).2
    have used := repr.block_used (show p ∈ pre ++ b :: p :: post by simp)
    simp [PrevUsed, prev, used, show p.addr ≠ 0 by omega]

theorem noFreePair_used (used : b.used ≠ 0) (above : NoFreePair pre) (below : NoFreePair post) :
    NoFreePair (pre ++ b :: post) :=
  noFreePair_append_cons.mpr ⟨above, below, fun free => absurd free used⟩

theorem noFreePair_tail {tail : Cell} (unused : tail.used = 0) (used : b.used ≠ 0) (above : NoFreePair pre)
    (below : NoFreePair post) : NoFreePair (pre ++ tail :: b :: post) ↔ ∀ n ∈ pre.getLast?, n.used ≠ 0 := by
  have lower : NoFreePair (b :: post) := noFreePair_used (show b.used ≠ 0 from used) isChain_nil below
  rw [noFreePair_append_cons]
  constructor
  · exact fun whole => (whole.2.2 unused).above
  · exact fun last => ⟨above, lower, fun _ => ⟨last, by simpa using used⟩⟩

theorem Allocates.noFreePair (allocates : Allocates size cells taken cells')
    (apart : NoFreePair cells) : NoFreePair cells' := by
  cases allocates with
  | push none above => exact noFreePair_cons.mpr ⟨apart, fun free => absurd free Nat.one_ne_zero⟩
  | whole newest free room small =>
    obtain ⟨above, below, _⟩ := noFreePair_append_cons.mp apart
    exact noFreePair_used Nat.one_ne_zero above below
  | split newest free room unused =>
    obtain ⟨above, below, beside⟩ := noFreePair_append_cons.mp apart
    exact (noFreePair_tail unused Nat.one_ne_zero above below).mpr (beside free).above

theorem MergesAbove.noFreePair {pre' : List Cell} (merges : MergesAbove b pre pre' b')
    (apart : NoFreePair pre) : NoFreePair pre' ∧ ∀ n ∈ pre'.getLast?, n.used ≠ 0 := by
  cases merges with
  | kept used => exact ⟨apart, used⟩
  | merged free =>
    obtain ⟨above, _, beside⟩ := noFreePair_append_cons.mp apart
    exact ⟨above, (beside free).above⟩

theorem MergesBelow.noFreePair {post' : List Cell} (merges : MergesBelow b post b' post')
    (apart : NoFreePair post) : NoFreePair post' ∧ ∀ p ∈ post'.head?, p.used ≠ 0 := by
  cases merges with
  | kept used => exact ⟨apart, used⟩
  | merged free =>
    obtain ⟨below, down⟩ := noFreePair_cons.mp apart
    exact ⟨below, down free⟩

theorem Releases.noFreePair (releases : Releases b cells cells') (apart : NoFreePair cells) : NoFreePair cells' := by
  cases releases with
  | intro _ mergesAbove mergesBelow =>
    obtain ⟨above, below, _⟩ := noFreePair_append_cons.mp apart
    obtain ⟨above, up⟩ := mergesAbove.noFreePair above
    obtain ⟨below, down⟩ := mergesBelow.noFreePair below
    exact noFreePair_append_cons.mpr ⟨above, below, fun _ => ⟨up, down⟩⟩

theorem Resizes.noFreePair_iff (resizes : Resizes size b cells target cells')
    (repr : Represents h cells) (used : b.used ≠ 0) (apart : NoFreePair cells) :
    NoFreePair cells' ↔ (size + minSplitSize ≤ b.len → NextUsed h b.addr) := by
  cases resizes with
  | keeps _ small => exact iff_of_true apart fun room => by omega
  | splits room unused =>
    obtain ⟨above, below, _⟩ := noFreePair_append_cons.mp apart
    have beside := @noFreePair_tail _ _ { b with len := size } _ unused used above below
    rw [beside, ← repr.nextUsed_iff]
    exact ⟨fun next _ => next, fun next => next room⟩
  | grows larger =>
    have := (noFreePair_cons.mp apart).1
    exact iff_of_true (noFreePair_cons.mpr ⟨this, fun free => absurd free used⟩) fun room => by
      rw [minSplitSize] at room
      omega
  | absorbs larger free enough =>
    obtain ⟨above, below, _⟩ := noFreePair_append_cons.mp apart
    have lower := (noFreePair_cons.mp below).1
    exact iff_of_true (noFreePair_used used above lower) fun room => by
      rw [minSplitSize] at room
      omega
  | moves larger _ allocates releases =>
    exact iff_of_true (releases.noFreePair (allocates.noFreePair apart)) fun room => by
      rw [minSplitSize] at room
      omega
  | drops zero empty _ releases =>
    exact iff_of_true (releases.noFreePair apart) fun room => by
      rw [minSplitSize] at room
      omega

theorem Effect.noFreePair_iff (effect : Effect cells c.live call cells' live')
    (repr : Represents c.heap cells) (apart : NoFreePair cells) : NoFreePair cells' ↔ TailSeparated c call := by
  cases effect with
  | kmallocZero | kfreeNull | store => exact iff_of_true apart trivial
  | kreallocNullZero => exact iff_of_true apart fun nonzero => absurd rfl nonzero
  | kmalloc allocates => exact iff_of_true (allocates.noFreePair apart) trivial
  | kreallocNull allocates => exact iff_of_true (allocates.noFreePair apart) fun nonzero => absurd rfl nonzero
  | @krealloc size b target _ member used resizes =>
    rw [resizes.noFreePair_iff repr used apart, TailSeparated, capacity, repr.len_eq member, sizeofBlock,
      Nat.add_sub_cancel]
    exact ⟨fun next _ => next, fun next => next (by omega)⟩
  | kfree member used releases => exact iff_of_true (releases.noFreePair apart) trivial

def Owned (cells : List Cell) (live : List (Nat × Nat)) : Prop :=
  ∀ b ∈ cells, b.used ≠ 0 → b.addr + 24 ∈ live.map Prod.fst

theorem mem_dropLive {q : Nat} (member : q ∈ live.map Prod.fst) (other : q ≠ ptr) :
    q ∈ (dropLive live ptr).map Prod.fst := by
  obtain ⟨_, memberE, rfl⟩ := mem_map.mp member
  exact mem_map_of_mem (mem_filter.mpr ⟨memberE, by simpa using other⟩)

theorem Releases.owned (releases : Releases b cells cells') (owned : Owned cells live) :
    Owned cells' (dropLive live (b.addr + 24)) := by
  intro c member used
  obtain ⟨member, _⟩ := releases.origin member used
  exact mem_dropLive (owned c member used) (by omega)

theorem Allocates.owned (allocates : Allocates size cells taken cells') (owned : Owned cells live) :
    Owned cells' ((taken.addr + 24, size) :: live) := by
  intro c member used
  rcases allocates.origin member used with rfl | member
  · exact .head _
  · exact .tail _ (owned c member used)

theorem Owned.replace {t : Cell} (owned : Owned (pre ++ b :: post) live) (addr : t.addr = b.addr) :
    Owned (pre ++ t :: post) ((t.addr + 24, size) :: dropLive live (b.addr + 24)) := by
  intro c member used
  rw [map_cons, addr]
  by_cases same : c.addr = b.addr
  · rw [same]
    exact .head _
  · refine .tail _ (mem_dropLive (owned c ?_ used) (by omega))
    simp only [mem_append, mem_cons] at member ⊢
    rcases member with above | rfl | below
    · exact .inl above
    · exact absurd addr same
    · exact .inr (.inr below)

theorem Owned.unused {n : Cell} (owned : Owned (pre ++ b :: post) live) (unused : n.used = 0) :
    Owned (pre ++ n :: b :: post) live := by
  intro c member used
  simp only [mem_append, mem_cons] at member
  rcases member with above | rfl | rfl | below
  · exact owned c (by simp [above]) used
  · exact absurd unused used
  · exact owned c (by simp) used
  · exact owned c (by simp [below]) used

theorem Owned.subset (owned : Owned cells live) (subset : cells' ⊆ cells) : Owned cells' live :=
  fun c member used => owned c (subset member) used

theorem Resizes.owned (resizes : Resizes size b cells target cells') (member : b ∈ cells)
    (owned : Owned cells live) : Owned cells' (addLive (dropLive live (b.addr + 24)) (pointer target) size) := by
  cases resizes with
  | keeps smaller small =>
    obtain ⟨_, post, rfl⟩ := append_of_mem member
    exact owned.replace rfl
  | splits room unused => exact (owned.replace (t := { b with len := size }) rfl).unused unused
  | @grows post larger =>
    have whole : Owned ([] ++ b :: post) live := owned
    exact whole.replace rfl
  | absorbs larger free enough =>
    refine Owned.replace (owned.subset fun c => ?_) rfl
    simp only [mem_append, mem_cons]
    exact fun inside => inside.imp_right .inr
  | moves larger _ allocates releases =>
    intro c member used
    obtain ⟨member, _⟩ := releases.origin member used
    rcases allocates.origin member used with rfl | member
    · exact .head _
    · exact .tail _ (mem_dropLive (owned c member used) (by omega))
  | drops zero empty _ releases => exact releases.owned owned

theorem Effect.owned (effect : Effect cells live call cells' live') (owned : Owned cells live) :
    Owned cells' live' := by
  cases effect with
  | kmallocZero | kreallocNullZero | kfreeNull | store => exact owned
  | kmalloc allocates | kreallocNull allocates => exact allocates.owned owned
  | krealloc member used resizes => exact resizes.owned member owned
  | kfree member used releases => exact releases.owned owned

structure Separate (c : Client) (cells : List Cell) : Prop where
  repr : Represents c.heap cells
  held : Held cells c.live
  owned : Owned cells c.live
  apart : NoFreePair cells

theorem Separate.step {c' : Client} (separate : Separate c cells) (step : clients.step c call c') :
    ∃ cells', Represents c'.heap cells' ∧ Effect cells c.live call cells' c'.live ∧
      (NoFreePair cells' ↔ TailSeparated c call) ∧ (TailSeparated c call → Separate c' cells') := by
  obtain ⟨cells', repr', effect⟩ := step_effect separate.repr separate.held step
  have exact := effect.noFreePair_iff separate.repr separate.apart
  refine ⟨cells', repr', effect, exact, fun guard => ⟨repr', ?_, effect.owned separate.owned, exact.mpr guard⟩⟩
  exact effect.held separate.repr repr' separate.held

theorem reachable_separate (reachable : (clients.restrict TailSeparated).Reachable c) :
    ∃ cells, Separate c cells := by
  induction reachable with
  | initial start =>
    obtain ⟨base, live, positive, bounded⟩ := start
    refine ⟨[], ⟨trivial, trivial, base, rfl, by simp, positive, bounded⟩, ?_, by simp [Owned], isChain_nil⟩
    rw [live]
    exact ⟨by simp, nodup_nil⟩
  | next _ action ih =>
    obtain ⟨_, separate⟩ := ih
    obtain ⟨cells', -, -, -, next⟩ := separate.step action.2
    exact ⟨cells', next action.1⟩

theorem prevWalk_cons {b p : Nat} {rest : List Nat} (nonzero : b ≠ 0) (prev : (h.block b).prev = p)
    (walk : PrevWalk h p rest) : PrevWalk h b (b :: rest) :=
  .block nonzero (prev ▸ walk)

theorem PrevWalk.unique {start : Nat} {chain' : List Nat} (walk : PrevWalk h start chain)
    (walk' : PrevWalk h start chain') : chain = chain' := by
  induction walk generalizing chain' with
  | null =>
    cases walk' with
    | null => rfl
    | block nonzero _ => exact absurd rfl nonzero
  | block nonzero _ ih =>
    cases walk' with
    | null => exact absurd rfl nonzero
    | block _ rest => rw [ih rest]

theorem Represents.prevWalk_iff (repr : Represents h cells) :
    PrevWalk h h.base chain ↔ chain = cells.map Cell.addr :=
  ⟨fun walk => PrevWalk.unique walk repr.wellFormed.walk, fun equal => equal ▸ repr.wellFormed.walk⟩

theorem Represents.base_ne_zero (repr : Represents h cells) : h.base ≠ 0 ↔ cells ≠ [] := by
  rw [repr.base]
  cases cells with
  | nil => simp
  | cons b rest =>
    have := (repr.placed b (.head _)).2
    simp only [first_cons, ne_eq, reduceCtorEq, not_false_eq_true, iff_true]
    omega

theorem Effect.ne_nil (effect : Effect cells live call cells' live') (nonempty : cells ≠ []) : cells' ≠ [] := by
  have released {b : Cell} {cells cells' : List Cell} (releases : Releases b cells cells') : cells' ≠ [] := by
    cases releases with
    | intro _ _ _ => simp
  cases effect with
  | kmallocZero | kreallocNullZero | kfreeNull | store => exact nonempty
  | kmalloc allocates | kreallocNull allocates => exact ne_nil_of_mem allocates.taken.1
  | krealloc member used resizes =>
    cases resizes with
    | keeps _ _ => exact nonempty
    | splits _ _ | grows _ | absorbs _ _ _ => simp
    | moves _ _ _ releases | drops _ _ _ releases => exact released releases
  | kfree member used releases => exact released releases

theorem map_dropLive (nodup : (live.map Prod.fst).Nodup) :
    (dropLive live ptr).map Prod.fst = (live.map Prod.fst).erase ptr := by
  rw [nodup.erase_eq_filter, filter_map]
  refine congrArg (map Prod.fst) (filter_congr fun e _ => ?_)
  by_cases same : e.1 = ptr <;> simp [same]

theorem Separate.free_all {ptrs : List Nat} (separate : Separate c cells)
    (all : ptrs.Perm (c.live.map Prod.fst)) (nonempty : cells ≠ []) :
    ∃ cells', cells' ≠ [] ∧ Represents (ptrs.foldl Heap.kfree c.heap) cells' ∧ NoFreePair cells' ∧
      ∀ b ∈ cells', b.used = 0 := by
  induction ptrs generalizing c cells with
  | nil =>
    have none : c.live.map Prod.fst = [] := all.symm.eq_nil
    refine ⟨cells, nonempty, separate.repr, separate.apart, fun b member => ?_⟩
    by_contra used
    have := separate.owned b member used
    rw [none] at this
    cases this
  | cons ptr ptrs ih =>
    have live : ptr ∈ c.live.map Prod.fst := all.subset (.head _)
    have bounded : (c.heap.kfree ptr).breakptr < 2 ^ 32 := by
      rw [kfree_breakptr]
      exact separate.repr.bounded
    have step : clients.step c (.kfree ptr) ⟨c.heap.kfree ptr, dropLive c.live ptr⟩ := ⟨.inr live, rfl, bounded⟩
    obtain ⟨_, -, effect, -, next⟩ := separate.step step
    have rest : ptrs.Perm ((dropLive c.live ptr).map Prod.fst) := by
      rw [map_dropLive separate.held.nodup]
      exact (cons_perm_iff_perm_erase.mp all).2
    exact ih (next trivial) rest (effect.ne_nil nonempty)

theorem NoFreePair.singleton (apart : NoFreePair cells) (nonempty : cells ≠ []) (free : ∀ b ∈ cells, b.used = 0) :
    ∃ b, cells = [b] := by
  cases cells with
  | nil => exact absurd rfl nonempty
  | cons b rest =>
    cases rest with
    | nil => exact ⟨b, rfl⟩
    | cons p rest =>
      have used := (noFreePair_cons.mp apart).2 (free b (.head _)) p (by simp)
      exact absurd (free p (by simp)) used

theorem free_blocks_apart {c : Client} (reachable : (clients.restrict TailSeparated).Reachable c) :
    (∃ chain, PrevWalk c.heap c.heap.base chain ∧ Coalesced c.heap chain) ∧
    (∀ ptrs : List Nat, ptrs.Perm (c.live.map Prod.fst) → c.heap.base ≠ 0 →
      ∃ b, PrevWalk (ptrs.foldl Heap.kfree c.heap) (ptrs.foldl Heap.kfree c.heap).base [b] ∧
        ((ptrs.foldl Heap.kfree c.heap).block b).used = 0) ∧ ∀ call c', clients.step c call c' →
      ((∃ chain, PrevWalk c'.heap c'.heap.base chain ∧ Coalesced c'.heap chain) ↔ TailSeparated c call) := by
  obtain ⟨cells, separate⟩ := reachable_separate reachable
  have coalesced {h : Heap} {cells : List Cell} (repr : Represents h cells) :
      (∃ chain, PrevWalk h h.base chain ∧ Coalesced h chain) ↔ NoFreePair cells := by
    simp only [repr.prevWalk_iff, exists_eq_left, repr.coalesced_iff]
  refine ⟨(coalesced separate.repr).mpr separate.apart, fun ptrs all nonempty => ?_, fun call c' step => ?_⟩
  · obtain ⟨cells', nonempty, repr, apart, free⟩ := separate.free_all all (separate.repr.base_ne_zero.mp nonempty)
    obtain ⟨b, rfl⟩ := apart.singleton nonempty free
    refine ⟨b.addr, repr.prevWalk_iff.mpr rfl, ?_⟩
    rw [repr.block_used (.head _)]
    exact free b (.head _)
  · obtain ⟨_, repr', -, exact, -⟩ := separate.step step
    rw [coalesced repr', exact]

theorem free_blocks_apart_split :
    ∃ c, (clients.restrict TailSeparated).Reachable c ∧ c.live = [(0x180020, 8), (0x180168, 8)] ∧
      (∃ chain, PrevWalk c.heap c.heap.base chain ∧ Coalesced c.heap chain) ∧
      ∃ b, PrevWalk ([0x180020, 0x180168].foldl Heap.kfree c.heap)
        ([0x180020, 0x180168].foldl Heap.kfree c.heap).base [b] := by
  -- the first block is split below the second one, which is in use
  let calls : List Call := [.kmalloc 300, .kmalloc 8, .krealloc 0x180020 8]
  let start : Client := ⟨⟨fun _ => 0, 0, 0x180003⟩, []⟩
  have computed : (calls.foldlM (fun c call => if TailSeparated c call then c.next call else none) start).map
      (fun c => (c.live, c.heap.base)) = some ([(0x180020, 8), (0x180168, 8)], 0x180150) := by
    decide +kernel
  obtain ⟨c, ran, observed⟩ := Option.map_eq_some_iff.mp computed
  simp only [Prod.mk.injEq] at observed
  obtain ⟨live, base⟩ := observed
  have initial : (clients.restrict TailSeparated).Reachable start := .initial ⟨rfl, rfl, by decide, by decide⟩
  have reachable := initial.leadsTo (System.leadsTo_run_guarded Client.next_sound ran)
  obtain ⟨coalesced, single, -⟩ := free_blocks_apart reachable
  obtain ⟨b, walk, -⟩ := single [0x180020, 0x180168] (by rw [live]; exact .refl _) (by rw [base]; decide)
  exact ⟨c, reachable, live, coalesced, b, walk⟩

theorem tail_beside_free_block :
    ∃ c, clients.Reachable c ∧ (¬∃ chain, PrevWalk c.heap c.heap.base chain ∧ Coalesced c.heap chain) ∧
      ∃ freed, freed = (c.live.map Prod.fst).foldl Heap.kfree c.heap ∧ freed.base = 0x180150 ∧
        (freed.block freed.base).prev = 0x180008 := by
  let calls : List Call := [.kmalloc 300, .kmalloc 8, .kmalloc 8, .kfree 0x180168, .krealloc 0x180020 8]
  let start : Client := ⟨⟨fun _ => 0, 0, 0x180003⟩, []⟩
  have links : (calls.foldlM Client.next start).map
      (fun c => (c.heap.base, (c.heap.block 0x180170).prev, (c.heap.block 0x180150).prev)) =
      some (0x180170, 0x180150, 0x180028) := by
    decide +kernel
  have states : (calls.foldlM Client.next start).map
      (fun c => ((c.heap.block 0x180150).used, (c.heap.block 0x180028).used)) = some (0, 0) := by
    decide +kernel
  have freed : (calls.foldlM Client.next start).map (fun c =>
      (((c.live.map Prod.fst).foldl Heap.kfree c.heap).base,
        (((c.live.map Prod.fst).foldl Heap.kfree c.heap).block 0x180150).prev)) = some (0x180150, 0x180008) := by
    decide +kernel
  obtain ⟨c, ran, observed⟩ := Option.map_eq_some_iff.mp links
  rw [ran, Option.map_some, Option.some.injEq, Prod.mk.injEq] at states freed
  simp only [Prod.mk.injEq] at observed
  obtain ⟨base, prev, prevFree⟩ := observed
  have initial : clients.Reachable start := .initial ⟨rfl, rfl, by decide, by decide⟩
  refine ⟨c, initial.run Client.next_sound ran, ?_, _, rfl, freed.1, by rw [freed.1]; exact freed.2⟩
  rintro ⟨_, walk, coalesced⟩
  rw [base] at walk
  cases walk with
  | block _ walk =>
    rw [prev] at walk
    cases walk with
    | block _ walk =>
      rw [prevFree] at walk
      cases walk with
      | block _ walk =>
        have apart := (isChain_cons_cons.mp (isChain_cons_cons.mp coalesced).2).1
        exact apart states

end Petix.Proof.Kmalloc
