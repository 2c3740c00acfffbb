import Mathlib.Data.List.Infix
import Petix.Proof.Kmalloc.Coalescing

namespace Petix.Proof.Kmalloc
open List Library Kernel.Kmalloc Spec.Kmalloc BlockList

variable {h : Heap} {cells cells' pre post : List Cell} {b : Cell} {size : Nat} {live' : List (Nat × Nat)}
variable {call : Call}
variable {cells₁ : List Cell} {taken : Cell} {c c₀ : Client}

def HeadersKept (cells cells' : List Cell) : Prop := ∀ c ∈ cells, ∃ c' ∈ cells', c'.addr = c.addr

theorem HeadersKept.refl (cells : List Cell) : HeadersKept cells cells := fun c member => ⟨c, member, rfl⟩

theorem HeadersKept.trans (first : HeadersKept cells cells₁)
    (second : HeadersKept cells₁ cells') : HeadersKept cells cells' := by
  intro c member
  obtain ⟨c₁, member₁, equal₁⟩ := first c member
  obtain ⟨c', member', equal'⟩ := second c₁ member₁
  exact ⟨c', member', equal'.trans equal₁⟩

theorem HeadersKept.subset (kept : HeadersKept cells cells₁) (subset : cells₁ ⊆ cells') :
    HeadersKept cells cells' := by
  intro c member
  obtain ⟨c', member', equal⟩ := kept c member
  exact ⟨c', subset member', equal⟩

theorem headersKept_replace {t : Cell} (addr : t.addr = b.addr) :
    HeadersKept (pre ++ b :: post) (pre ++ t :: post) := by
  intro c member
  simp only [mem_append, mem_cons] at member ⊢
  rcases member with above | rfl | below
  · exact ⟨c, .inl above, rfl⟩
  · exact ⟨t, .inr (.inl rfl), addr⟩
  · exact ⟨c, .inr (.inr below), rfl⟩

theorem headersKept_split {t tail : Cell} (addr : t.addr = b.addr) :
    HeadersKept (pre ++ b :: post) (pre ++ tail :: t :: post) := by
  refine (headersKept_replace addr).subset ?_
  intro _
  simp only [mem_append, mem_cons]
  exact fun inside => inside.imp_right .inr

theorem Allocates.headersKept (allocates : Allocates size cells taken cells') :
    HeadersKept cells cells' := by
  cases allocates with
  | push none above => exact (HeadersKept.refl _).subset (subset_cons_self _ _)
  | whole newest free room small => exact headersKept_replace rfl
  | split newest free room unused => exact headersKept_split rfl

def Enclosed (b : Cell) (cells : List Cell) : Prop := ∃ pre post, cells = pre ++ b :: post ∧ BesideUsed pre post

theorem Enclosed.replace {d : Cell} {mid : List Cell} (enclosed : Enclosed b (pre ++ d :: post))
    (used : b.used ≠ 0) (free : d.used = 0) : Enclosed b (pre ++ mid ++ post) := by
  obtain ⟨above, below, equal, beside⟩ := enclosed
  rcases append_eq_append_iff.mp equal with ⟨between, rfl, rest⟩ | ⟨between, rfl, rest⟩
  · cases between with
    | nil =>
      obtain ⟨rfl, -⟩ := cons.inj rest
      exact absurd free used
    | cons e between =>
      obtain ⟨rfl, rfl⟩ := cons.inj rest
      have nonempty : between ≠ [] := by
        rintro rfl
        exact beside.above d (by simp) free
      refine ⟨pre ++ mid ++ between, below, by simp, ?_, beside.below⟩
      have above := beside.above
      rw [show pre ++ d :: between = (pre ++ [d]) ++ between by simp] at above
      rw [getLast?_append_of_ne_nil _ nonempty] at above ⊢
      exact above
  · cases between with
    | nil =>
      obtain ⟨rfl, -⟩ := cons.inj rest
      exact absurd free used
    | cons e between =>
      obtain ⟨rfl, rfl⟩ := cons.inj rest
      have nonempty : between ≠ [] := by
        rintro rfl
        exact beside.below d (by simp) free
      refine ⟨above, between ++ mid ++ post, by simp, beside.above, ?_⟩
      have below : ∀ p ∈ (between ++ d :: post).head?, p.used ≠ 0 := beside.below
      rw [head?_append_of_ne_nil _ nonempty] at below
      rw [append_assoc, head?_append_of_ne_nil _ nonempty]
      exact below

theorem Allocates.enclosed (allocates : Allocates size (pre ++ b :: post) taken cells')
    (newer : pre ≠ []) (used : b.used ≠ 0) (beside : BesideUsed pre post) : Enclosed b cells' := by
  have start : Enclosed b (pre ++ b :: post) := ⟨pre, post, rfl, beside⟩
  generalize equal : pre ++ b :: post = cells at allocates start
  cases allocates with
  | @push _ addr none above =>
    refine ⟨⟨addr, size, 1⟩ :: pre, post, by rw [← equal, cons_append], ?_, beside.below⟩
    rw [← singleton_append, getLast?_append_of_ne_nil _ newer]
    exact beside.above
  | @whole pre post d newest free room small =>
    have replaced : Enclosed b (pre ++ [{ d with used := 1 }] ++ post) := start.replace used free
    simpa using replaced
  | @split pre post d tail newest free room unused =>
    have replaced : Enclosed b (pre ++ [tail, ⟨d.addr, size, 1⟩] ++ post) := start.replace used free
    simpa using replaced

theorem Releases.headersKept (releases : Releases b cells cells') (enclosed : Enclosed b cells) :
    HeadersKept cells cells' := by
  cases releases with
  | @intro pre _ post _ _ _ others mergesAbove mergesBelow =>
    obtain ⟨above, below, equal, beside⟩ := enclosed
    have absent (side : List Cell) (inside : side ⊆ pre ++ post) : b ∉ side :=
      fun member => others b (inside member) rfl
    obtain ⟨rfl, -, rfl⟩ := (append_cons_inj_of_notMem (absent pre (by simp)) (absent post (by simp))).mp equal
    cases mergesAbove with
    | merged free => exact absurd free (beside.above _ (by simp))
    | kept _ =>
      cases mergesBelow with
      | merged free => exact absurd free (beside.below _ (by simp))
      | kept _ => exact headersKept_replace rfl

theorem Represents.enclosed_iff (repr : Represents h (pre ++ b :: post)) :
    NextUsed h b.addr ∧ PrevUsed h b.addr ↔ BesideUsed pre post := by
  rw [repr.nextUsed_iff, repr.prevUsed_iff]
  exact ⟨fun both => ⟨both.1, both.2⟩, fun both => ⟨both.above, both.below⟩⟩

theorem Represents.enclosed (repr : Represents h cells) (member : b ∈ cells)
    (beside : NextUsed h b.addr ∧ PrevUsed h b.addr) : Enclosed b cells := by
  obtain ⟨pre, post, rfl⟩ := append_of_mem member
  exact ⟨pre, post, rfl, repr.enclosed_iff.mp beside⟩

theorem Resizes.headersKept {target : Option Cell} (resizes : Resizes size b cells target cells')
    (repr : Represents h cells) (used : b.used ≠ 0)
    (beside : b.len ≤ size → (h.block b.addr).next ≠ 0 → NextUsed h b.addr ∧ PrevUsed h b.addr) :
    HeadersKept cells cells' := by
  have enclosed {pre post : List Cell} (repr : Represents h (pre ++ b :: post)) (newer : pre ≠ [])
      (larger : b.len ≤ size) : BesideUsed pre post :=
    repr.enclosed_iff.mp (beside larger fun none => newer (repr.next_eq_zero.mp none))
  cases resizes with
  | keeps smaller small => exact .refl _
  | splits room unused => exact headersKept_split rfl
  | @grows post larger => exact @headersKept_replace [] post b _ rfl
  | @absorbs pre post n larger free enough =>
    have regroup : pre ++ n :: b :: post = (pre ++ [n]) ++ b :: post := by simp
    rw [regroup] at repr
    exact absurd free ((enclosed repr (by simp) larger).above n (by simp))
  | moves larger newer allocates releases =>
    exact allocates.headersKept.trans (releases.headersKept (allocates.enclosed newer used (enclosed repr newer larger)))
  | drops zero empty newer releases => exact releases.headersKept ⟨_, _, rfl, enclosed repr newer (by omega)⟩

theorem Effect.headersKept (effect : Effect cells c.live call cells' live')
    (repr : Represents c.heap cells) (guard : NeighboursUsed c call) : HeadersKept cells cells' := by
  cases effect with
  | kmallocZero | kreallocNullZero | kfreeNull | store => exact .refl _
  | kmalloc allocates | kreallocNull allocates => exact allocates.headersKept
  | krealloc member used resizes =>
    rw [NeighboursUsed, capacity, repr.len_eq member, sizeofBlock, Nat.add_sub_cancel] at guard
    exact resizes.headersKept repr used (guard (by omega))
  | kfree member used releases => exact releases.headersKept (repr.enclosed member (guard (by omega)))

theorem Separate.run (separate : Separate c₀ cells)
    (run : (clients.restrict KeepsHeaders).LeadsTo c₀ c) : ∃ cells', Separate c cells' ∧ HeadersKept cells cells' := by
  induction run with
  | refl => exact ⟨cells, separate, .refl _⟩
  | tail _ last ih =>
    obtain ⟨_, separate₁, kept⟩ := ih
    obtain ⟨_, guard, step⟩ := last
    obtain ⟨cells', -, effect, -, next⟩ := separate₁.step step
    exact ⟨cells', next guard.1, kept.trans (effect.headersKept separate₁.repr guard.2)⟩

theorem Represents.kfree_free (repr : Represents h (pre ++ b :: post)) (free : b.used = 0)
    (beside : BesideUsed pre post) : h.kfree (b.addr + 24) = h := by
  have used : (h.block b.addr).used = 0 := (congrArg Block.used repr.block).trans free
  have cleared : h.setUsed b.addr 0 = h := by
    have same : h.mem.write 4 (b.addr + 20) (h.mem.read 4 (b.addr + 20)) = h.mem := Memory.write_read _ _ _
    rw [show h.mem.read 4 (b.addr + 20) = 0 from used] at same
    rw [Heap.setUsed, same]
  obtain ⟨next, prev⟩ := repr.enclosed_iff.mpr beside
  have noNext : ¬((h.block b.addr).next ≠ 0 ∧ (h.block (h.block b.addr).next).used = 0) :=
    fun merges => next merges.1 merges.2
  have noPrev : ¬((h.block b.addr).prev ≠ 0 ∧ (h.block (h.block b.addr).prev).used = 0) :=
    fun merges => prev merges.1 merges.2
  rw [Heap.kfree, if_neg (by omega)]
  simp only [show b.addr + 24 - sizeofBlock = b.addr by rw [sizeofBlock]; omega, repr.isMemBlock, if_true, cleared,
    if_neg noNext, if_neg noPrev]

theorem stale_headers_harmless {c₀ c : Client} (reachable : (clients.restrict KeepsHeaders).Reachable c₀)
    (run : (clients.restrict KeepsHeaders).LeadsTo c₀ c) :
    (∀ chain₀ chain a, PrevWalk c₀.heap c₀.heap.base chain₀ → PrevWalk c.heap c.heap.base chain → a ∈ chain₀ →
      c.heap.isMemBlock a → a ∈ chain) ∧
    ∀ ptr ∈ c₀.live.map Prod.fst, ptr ∉ c.live.map Prod.fst → c.heap.kfree ptr = c.heap := by
  have weaker : (clients.restrict TailSeparated).Reachable c₀ := by
    induction reachable with
    | initial start => exact .initial start
    | next _ action ih => exact .next (ih (.head ⟨_, action⟩ run)) ⟨action.1.1, action.2⟩
  obtain ⟨_, separate₀⟩ := reachable_separate weaker
  obtain ⟨_, separate, kept⟩ := separate₀.run run
  constructor
  · intro _ _ _ walk₀ walk member _
    rw [separate₀.repr.prevWalk_iff] at walk₀
    rw [separate.repr.prevWalk_iff] at walk
    subst walk₀ walk
    obtain ⟨b₀, member₀, rfl⟩ := mem_map.mp member
    obtain ⟨b, memberB, equal⟩ := kept b₀ member₀
    exact equal ▸ mem_map_of_mem memberB
  · intro _ held freed
    obtain ⟨b₀, member₀, rfl, -⟩ := separate₀.held.block held
    obtain ⟨b, memberB, equal⟩ := kept b₀ member₀
    rw [← equal] at freed ⊢
    have free : b.used = 0 := by
      by_contra used
      exact freed (separate.owned b memberB used)
    obtain ⟨_, _, rfl⟩ := append_of_mem memberB
    exact separate.repr.kfree_free free ((noFreePair_append_cons.mp separate.apart).2.2 free)

theorem stale_headers_harmless_between :
    ∃ c₀ c, (clients.restrict KeepsHeaders).Reachable c₀ ∧ (clients.restrict KeepsHeaders).LeadsTo c₀ c ∧
      0x180040 ∈ c₀.live.map Prod.fst ∧ 0x180040 ∉ c.live.map Prod.fst ∧ c.heap.kfree 0x180040 = c.heap := by
  -- the middle one of three blocks is given back
  let start : Client := ⟨⟨fun _ => 0, 0, 0x180003⟩, []⟩
  let next (c : Client) (call : Call) : Option Client := if KeepsHeaders c call then c.next call else none
  let calls : List Call := [.kmalloc 8, .kmalloc 8, .kmalloc 8]
  have held : (calls.foldlM next start).map Client.live = some [(0x180060, 8), (0x180040, 8), (0x180020, 8)] := by
    decide +kernel
  have freed : ((calls.foldlM next start).bind ([Call.kfree 0x180040].foldlM next)).map Client.live =
      some [(0x180060, 8), (0x180020, 8)] := by
    decide +kernel
  obtain ⟨c₀, ran₀, live₀⟩ := Option.map_eq_some_iff.mp held
  rw [ran₀, Option.bind_some] at freed
  obtain ⟨c, ran, live⟩ := Option.map_eq_some_iff.mp freed
  have initial : (clients.restrict KeepsHeaders).Reachable start := .initial ⟨rfl, rfl, by decide, by decide⟩
  have reachable := initial.leadsTo (System.leadsTo_run_guarded Client.next_sound ran₀)
  have run := System.leadsTo_run_guarded Client.next_sound ran
  have member : 0x180040 ∈ c₀.live.map Prod.fst := by simp [live₀]
  have absent : 0x180040 ∉ c.live.map Prod.fst := by simp [live]
  exact ⟨c₀, c, reachable, run, member, absent, (stale_headers_harmless reachable run).2 _ member absent⟩

theorem double_free_drops_live : ∃ c₀ c chain₀ chain, clients.Reachable c₀ ∧ clients.LeadsTo c₀ c ∧
      PrevWalk c₀.heap c₀.heap.base chain₀ ∧ PrevWalk c.heap c.heap.base chain ∧
      0x180028 ∈ chain₀ ∧ c.heap.isMemBlock 0x180028 ∧ 0x180028 ∉ chain ∧
      0x180040 ∈ c₀.live.map Prod.fst ∧ 0x180060 ∈ c.live.map Prod.fst ∧ 0x180040 ∉ c.live.map Prod.fst ∧
      0x180048 ∈ chain ∧ PrevWalk (c.heap.kfree 0x180040) (c.heap.kfree 0x180040).base [0x180008] := by
  let start : Client := ⟨⟨fun _ => 0, 0, 0x180003⟩, []⟩
  let calls : List Call := [.kmalloc 8, .kmalloc 8, .kmalloc 8]
  let frees : List Call := [.kfree 0x180020, .kfree 0x180040]
  have before : (calls.foldlM Client.next start).map (fun c => (c.live, c.heap.base, (c.heap.block 0x180048).prev,
      (c.heap.block 0x180028).prev, (c.heap.block 0x180008).prev)) =
      some ([(0x180060, 8), (0x180040, 8), (0x180020, 8)], 0x180048, 0x180028, 0x180008, 0) := by
    decide +kernel
  have after : ((calls.foldlM Client.next start).bind (frees.foldlM Client.next)).map (fun c =>
      (c.live, c.heap.base, (c.heap.block 0x180048).prev, (c.heap.block 0x180008).prev)) =
      some ([(0x180060, 8)], 0x180048, 0x180008, 0) := by
    decide +kernel
  have again : ((calls.foldlM Client.next start).bind (frees.foldlM Client.next)).map (fun c =>
      (c.heap.isMemBlock 0x180028, (c.heap.kfree 0x180040).base, ((c.heap.kfree 0x180040).block 0x180008).prev)) =
      some (true, 0x180008, 0) := by
    decide +kernel
  obtain ⟨c₀, ran₀, observed₀⟩ := Option.map_eq_some_iff.mp before
  rw [ran₀, Option.bind_some] at after again
  obtain ⟨c, ran, observed⟩ := Option.map_eq_some_iff.mp after
  rw [ran, Option.map_some, Option.some.injEq] at again
  simp only [Prod.mk.injEq] at observed₀ observed again
  obtain ⟨live₀, base₀, third₀, second₀, first₀⟩ := observed₀
  obtain ⟨live, base, third, first⟩ := observed
  obtain ⟨magic, baseFreed, firstFreed⟩ := again
  have initial : clients.Reachable start := .initial ⟨rfl, rfl, by decide, by decide⟩
  have walk₀ : PrevWalk c₀.heap c₀.heap.base [0x180048, 0x180028, 0x180008] := by
    rw [base₀]
    have rest := prevWalk_cons (by decide) second₀ (prevWalk_cons (by decide) first₀ .null)
    exact prevWalk_cons (by decide) third₀ rest
  have walk : PrevWalk c.heap c.heap.base [0x180048, 0x180008] := by
    rw [base]
    exact prevWalk_cons (by decide) third (prevWalk_cons (by decide) first .null)
  have walkFreed : PrevWalk (c.heap.kfree 0x180040) (c.heap.kfree 0x180040).base [0x180008] := by
    rw [baseFreed]
    exact prevWalk_cons (by decide) firstFreed .null
  exact ⟨c₀, c, _, _, initial.run Client.next_sound ran₀,
    System.leadsTo_run (fun a _ s => Client.next_sound s a) ran, walk₀, walk, by decide, magic, by decide,
    by simp [live₀], by simp [live], by simp [live], by decide, walkFreed⟩

end Petix.Proof.Kmalloc
