import Petix.Spec.Kmalloc
import Petix.Proof.Kmalloc.Calls

namespace Petix.Proof.Kmalloc
open List Library Kernel.Kmalloc Spec.Kmalloc BlockList

variable {h h' : Heap} {cells cells' : List Cell} {live : List (Nat × Nat)}
variable {freed ptr size : Nat} {c : Client} {call : Call}

private theorem prevWalk_of_linked {next : Nat} (linked : Linked Cell.addr (Stored h) next cells 0)
    (positive : ∀ b ∈ cells, 0 < b.addr) : PrevWalk h (first Cell.addr 0 cells) (cells.map Cell.addr) := by
  induction cells generalizing next with
  | nil => exact .null
  | cons b rest ih =>
    obtain ⟨stored, linked⟩ := linked
    have nonzero : b.addr ≠ 0 := by
      have := positive b (.head _)
      omega
    refine .block nonzero ?_
    rw [first_cons, show (h.block b.addr).prev = first Cell.addr 0 rest from congrArg Block.prev stored]
    exact ih linked fun c member => positive c (.tail _ member)

theorem Represents.wellFormed (repr : Represents h cells) : WellFormed h (cells.map Cell.addr) := by
  constructor
  case walk =>
    rw [repr.base]
    exact prevWalk_of_linked repr.linked fun b member => (repr.placed b member).2
  case decreasing =>
    rw [pairwise_map]
    refine repr.stacked.pairwise.imp ?_
    intro _ _ below
    simp only [Cell.finish] at below
    omega
  case aligned => simpa using fun b member => (repr.placed b member).1
  case prevNext =>
    intro b member nonzero
    obtain ⟨b, memberB, rfl⟩ := mem_map.mp member
    obtain ⟨pre, post, rfl⟩ := append_of_mem memberB
    have prev : (h.block b.addr).prev = first Cell.addr 0 post := congrArg Block.prev repr.block
    cases post with
    | nil => exact absurd prev nonzero
    | cons p post =>
      have split : Represents h ((pre ++ [b]) ++ p :: post) := by simpa using repr
      rw [prev, first_cons, split.next_eq, last_concat]
  case nextNull =>
    intro b member
    obtain ⟨b, memberB, rfl⟩ := mem_map.mp member
    obtain ⟨pre, post, rfl⟩ := append_of_mem memberB
    rw [repr.next_eq_zero, repr.base, first_append, first_cons]
    cases pre with
    | nil => simp
    | cons a pre =>
      have : b.addr + 24 + b.len ≤ a.addr := repr.stacked.around.1 a (.head _)
      simp only [reduceCtorEq, first_cons, false_iff]
      omega
  case payload =>
    intro b member nonzero
    obtain ⟨b, memberB, rfl⟩ := mem_map.mp member
    obtain ⟨_, _, rfl⟩ := append_of_mem memberB
    rw [repr.next_eq] at nonzero ⊢
    rw [show (h.block b.addr).len = b.len from congrArg Block.len repr.block]
    exact repr.finish_le_next nonzero
  case baseEnd =>
    intro nonempty
    cases cells with
    | nil => exact absurd repr.base nonempty
    | cons b rest =>
      have stored : h.block b.addr = b.header 0 (first Cell.addr 0 rest) := repr.linked.1
      rw [repr.base, first_cons, stored]
      exact repr.top

structure Held (cells : List Cell) (live : List (Nat × Nat)) : Prop where
  cell : ∀ e ∈ live, ∃ b ∈ cells, e.1 = b.addr + 24 ∧ b.used ≠ 0 ∧ e.2 ≤ b.len
  nodup : (live.map Prod.fst).Nodup

theorem Held.afterDrop (held : Held cells live) (kept : UsedKept freed cells cells')
    (other : ∀ e ∈ live, e.1 ≠ ptr → e.1 ≠ freed + 24) : Held cells' (dropLive live ptr) := by
  constructor
  · intro e member
    obtain ⟨member, ne⟩ := mem_filter.mp member
    obtain ⟨b, memberB, equal, used, room⟩ := held.cell e member
    have apart := other e member (by simpa using ne)
    exact ⟨b, kept b memberB used (by omega), equal, used, room⟩
  · exact held.nodup.sublist (filter_sublist.map _)

theorem Held.afterAdd {newPtr : Nat} (held : Held cells live)
    (handed : Handed freed size newPtr cells cells' h') (other : ∀ e ∈ live, e.1 ≠ ptr → e.1 ≠ freed + 24) :
    Held cells' (addLive (dropLive live ptr) newPtr size) := by
  obtain ⟨-, kept, b, memberB, rfl, used, room, fresh⟩ := handed
  have dropped := held.afterDrop kept other
  rw [addLive, if_neg (by omega)]
  constructor
  · intro e member
    rcases mem_cons.mp member with rfl | member
    · exact ⟨b, memberB, rfl, used, room⟩
    · exact dropped.cell e member
  · rw [map_cons, nodup_cons]
    refine ⟨fun member => ?_, dropped.nodup⟩
    obtain ⟨e, member, _⟩ := mem_map.mp member
    obtain ⟨member, ne⟩ := mem_filter.mp member
    obtain ⟨c, memberC, _, usedC, _⟩ := held.cell e member
    have apart := other e member (by simpa using ne)
    have := fresh c memberC usedC (by omega)
    omega

private theorem Held.drop_null (held : Held cells live) : dropLive live 0 = live := by
  refine filter_eq_self.mpr fun e member => ?_
  obtain ⟨_, _, _, _⟩ := held.cell e member
  simp only [ne_eq, decide_not, Bool.not_eq_eq_eq_not, Bool.not_true, decide_eq_false_iff_not]
  omega

theorem Held.block (held : Held cells live) (member : ptr ∈ live.map Prod.fst) :
    ∃ b ∈ cells, ptr = b.addr + 24 ∧ b.used ≠ 0 := by
  obtain ⟨e, memberE, rfl⟩ := mem_map.mp member
  obtain ⟨b, memberB, equal, used, _⟩ := held.cell e memberE
  exact ⟨b, memberB, equal, used⟩

inductive Effect (cells : List Cell) (live : List (Nat × Nat)) : Call → List Cell → List (Nat × Nat) → Prop
  | kmallocZero : Effect cells live (.kmalloc 0) cells live
  | kmalloc {size : Nat} {taken : Cell} {cells' : List Cell} : Allocates size cells taken cells' →
      Effect cells live (.kmalloc size) cells' ((taken.addr + 24, size) :: live)
  | kreallocNullZero : Effect cells live (.krealloc 0 0) cells live
  | kreallocNull {size : Nat} {taken : Cell} {cells' : List Cell} : Allocates size cells taken cells' →
      Effect cells live (.krealloc 0 size) cells' ((taken.addr + 24, size) :: live)
  | krealloc {size : Nat} {b : Cell} {target : Option Cell} {cells' : List Cell} : b ∈ cells → b.used ≠ 0 →
      Resizes size b cells target cells' → Effect cells live (.krealloc (b.addr + 24) size) cells'
        (addLive (dropLive live (b.addr + 24)) (pointer target) size)
  | kfreeNull : Effect cells live (.kfree 0) cells live
  | kfree {b : Cell} {cells' : List Cell} : b ∈ cells → b.used ≠ 0 → Releases b cells cells' →
      Effect cells live (.kfree (b.addr + 24)) cells' (dropLive live (b.addr + 24))
  | store {ptr offset : Nat} {value : Byte} : Effect cells live (.store ptr offset value) cells live

private theorem kmalloc_effect (repr : Represents h cells)
    (call : h.kmalloc size = some (ptr, h')) (fits : h'.breakptr < 2 ^ 32) : size = 0 ∧ ptr = 0 ∧ h' = h ∨
      ∃ taken cells', Allocates size cells taken cells' ∧ ptr = taken.addr + 24 ∧ Represents h' cells' := by
  by_cases zero : size = 0
  · rw [Heap.kmalloc, if_pos zero, Option.some.injEq, Prod.mk.injEq] at call
    exact .inl ⟨zero, call.1.symm, call.2.symm⟩
  · obtain ⟨_, _, call', allocated⟩ := repr.kmalloc_allocates zero
    rw [call, Option.some.injEq, Prod.mk.injEq] at call'
    obtain ⟨rfl, rfl⟩ := call'
    obtain ⟨taken, cells', allocates, equal, rewrites⟩ := allocated fits
    exact .inr ⟨taken, cells', allocates, equal, rewrites.repr⟩

theorem step_effect {c' : Client} (repr : Represents c.heap cells) (held : Held cells c.live)
    (step : clients.step c call c') :
    ∃ cells', Represents c'.heap cells' ∧ Effect cells c.live call cells' c'.live := by
  obtain ⟨legal, action, fits⟩ := step
  cases call with
  | kmalloc size =>
    obtain ⟨⟨ptr, heap⟩, called, result⟩ := Option.bind_eq_some_iff.mp action
    obtain rfl := Option.some.inj result
    rcases kmalloc_effect repr called fits with ⟨rfl, rfl, rfl⟩ | ⟨taken, cells', allocates, rfl, repr'⟩
    · exact ⟨cells, repr, .kmallocZero⟩
    · exact ⟨cells', repr', .kmalloc allocates⟩
  | krealloc ptr size =>
    obtain ⟨⟨_, _⟩, called, result⟩ := Option.bind_eq_some_iff.mp action
    obtain rfl := Option.some.inj result
    rcases legal.1 with rfl | live
    · rw [held.drop_null]
      rcases kmalloc_effect repr called fits with ⟨rfl, rfl, rfl⟩ | ⟨_, cells', allocates, rfl, repr'⟩
      · exact ⟨cells, repr, .kreallocNullZero⟩
      · exact ⟨cells', repr', .kreallocNull allocates⟩
    · obtain ⟨b, memberB, rfl, used⟩ := held.block live
      obtain ⟨_, _, called', resized⟩ := repr.krealloc_resizes memberB used size
      rw [called, Option.some.injEq, Prod.mk.injEq] at called'
      obtain ⟨rfl, rfl⟩ := called'
      obtain ⟨_, cells', rfl, resizes, repr', -⟩ := resized fits
      exact ⟨cells', repr', .krealloc memberB used resizes⟩
  | kfree ptr =>
    obtain rfl := Option.some.inj action
    rcases legal with rfl | live
    · rw [held.drop_null]
      exact ⟨cells, repr, .kfreeNull⟩
    · obtain ⟨b, memberB, rfl, used⟩ := held.block live
      obtain ⟨cells', releases, freed⟩ := repr.kfree_releases memberB
      exact ⟨cells', freed.repr, .kfree memberB used releases⟩
  | store ptr offset value =>
    obtain rfl := Option.some.inj action
    obtain ⟨e, member, rfl, _⟩ := legal
    obtain ⟨_, memberB, _, -, _⟩ := held.cell e member
    refine ⟨cells, repr.payload memberB fun x outside => ?_, .store⟩
    simp only [Cell.finish] at outside
    exact Function.update_of_ne (by omega) _ _

private theorem Held.afterAllocate {taken : Cell} (held : Held cells live) (repr : Represents h cells)
    (repr' : Represents h' cells') (allocates : Allocates size cells taken cells') :
    Held cells' ((taken.addr + 24, size) :: live) := by
  obtain ⟨member, _, room⟩ := allocates.taken
  have handed : Handed 0 size (taken.addr + 24) cells cells' h' :=
    ⟨repr', fun c memberC usedC _ => allocates.kept memberC usedC, taken, member, rfl, by omega, room,
      fun c memberC usedC _ => allocates.fresh repr memberC usedC⟩
  have other (e : Nat × Nat) (memberE : e ∈ live) (_ : e.1 ≠ 0) : e.1 ≠ 0 + 24 := by
    obtain ⟨b, memberB, _, _⟩ := held.cell e memberE
    have := (repr.placed b memberB).2
    omega
  have added := held.afterAdd handed other
  rwa [held.drop_null] at added

theorem Effect.held {live' : List (Nat × Nat)} (effect : Effect cells live call cells' live')
    (repr : Represents h cells) (repr' : Represents h' cells') (held : Held cells live) : Held cells' live' := by
  cases effect with
  | kmallocZero | kreallocNullZero | kfreeNull | store => exact held
  | kmalloc allocates | kreallocNull allocates => exact held.afterAllocate repr repr' allocates
  | @krealloc size b target _ member used resizes =>
    have kept : UsedKept b.addr cells cells' := fun c memberC usedC other => resizes.kept memberC usedC other
    cases target with
    | none => exact held.afterDrop kept fun _ _ ne => ne
    | some t =>
      obtain ⟨memberT, usedT, room, fresh⟩ := resizes.target repr member used
      exact held.afterAdd ⟨repr', kept, t, memberT, rfl, usedT, room, fresh⟩ fun _ _ ne => ne
  | kfree member used releases =>
    exact held.afterDrop (fun c memberC usedC other => releases.kept memberC usedC other) fun _ _ ne => ne

def Invariant (c : Client) : Prop := ∃ cells, Represents c.heap cells ∧ Held cells c.live

theorem invariant_initial (c : Client) (start : clients.initial c) : Invariant c := by
  obtain ⟨base, live, positive, bounded⟩ := start
  refine ⟨[], ⟨trivial, trivial, base, rfl, by simp, positive, bounded⟩, ?_⟩
  rw [live]
  exact ⟨by simp, nodup_nil⟩

theorem invariant_step (c : Client) (call : Call) (c' : Client) (inv : Invariant c)
    (action : clients.step c call c') : Invariant c' := by
  obtain ⟨_, repr, held⟩ := inv
  obtain ⟨cells', repr', effect⟩ := step_effect repr held action
  exact ⟨cells', repr', effect.held repr repr' held⟩

theorem reachable_invariant (reachable : clients.Reachable c) : Invariant c :=
  reachable.invariant invariant_initial invariant_step

theorem Represents.len_eq (repr : Represents h cells) {b : Cell} (member : b ∈ cells) :
    (h.block (b.addr + 24 - sizeofBlock)).len = b.len := by
  obtain ⟨_, _, rfl⟩ := append_of_mem member
  rw [show b.addr + 24 - sizeofBlock = b.addr by rw [sizeofBlock]; omega, repr.block]
  rfl

theorem Handed.serves (handed : Handed freed size ptr cells cells' h') : Serves h' ptr size := by
  obtain ⟨repr, _, b, member, rfl, _, room, _⟩ := handed
  have placed := repr.placed b member
  exact ⟨by omega, by omega, by rw [repr.len_eq member]; exact room⟩

theorem Represents.serves (repr : Represents h cells) (held : Held cells live) {e : Nat × Nat}
    (member : e ∈ live) : Serves h e.1 e.2 := by
  obtain ⟨b, memberB, equal, used, room⟩ := held.cell e member
  have handed : Handed 0 e.2 e.1 [] cells h := ⟨repr, by simp [UsedKept], b, memberB, equal, used, room, by simp⟩
  exact handed.serves

theorem Represents.disjoint (repr : Represents h cells) (held : Held cells live) :
    live.Pairwise fun e f => Disjoint h e.1 f.1 := by
  have distinct : live.Pairwise fun e f => e.1 ≠ f.1 := pairwise_map.mp held.nodup
  refine distinct.imp_of_mem ?_
  intro e f memberE memberF ne
  obtain ⟨_, memberB, equalB, _⟩ := held.cell e memberE
  obtain ⟨_, memberC, equalC, _⟩ := held.cell f memberF
  rw [Spec.Kmalloc.Disjoint, equalB, equalC, repr.len_eq memberB, repr.len_eq memberC]
  rcases repr.apart memberB memberC with rfl | _ | _
  · exact absurd (equalB.trans equalC.symm) ne
  all_goals
    simp only [Cell.finish] at *
    omega

theorem heap_chain_wellFormed {c : Client} (reachable : clients.Reachable c) : (∃ chain, WellFormed c.heap chain) ∧
    (∀ e ∈ c.live, Serves c.heap e.1 e.2) ∧ c.live.Pairwise (fun e f => Disjoint c.heap e.1 f.1) ∧
    (∀ ptr size, (Call.krealloc ptr size).Legal c → ∃ newPtr h', c.heap.krealloc ptr size = some (newPtr, h') ∧
        (size ≠ 0 → h'.breakptr < 2 ^ 32 → Serves h' newPtr size)) ∧
    ∀ size, ∃ ptr h', c.heap.kmalloc size = some (ptr, h') ∧
      (size ≠ 0 → h'.breakptr < 2 ^ 32 → Serves h' ptr size) := by
  obtain ⟨_, repr, held⟩ := reachable_invariant reachable
  have malloc (size : Nat) : ∃ ptr h', c.heap.kmalloc size = some (ptr, h') ∧
      (size ≠ 0 → h'.breakptr < 2 ^ 32 → Serves h' ptr size) := by
    by_cases zero : size = 0
    · exact ⟨0, c.heap, by rw [Heap.kmalloc, if_pos zero], fun nonzero => absurd zero nonzero⟩
    · obtain ⟨ptr, h', call, handed⟩ := repr.kmalloc zero
      refine ⟨ptr, h', call, fun _ fits => ?_⟩
      obtain ⟨cells', handed⟩ := handed fits
      exact handed.serves
  refine ⟨⟨_, repr.wellFormed⟩, fun e => repr.serves held, repr.disjoint held, ?_, malloc⟩
  rintro _ size ⟨rfl | live, _⟩
  · exact malloc size
  · obtain ⟨e, member, rfl⟩ := mem_map.mp live
    obtain ⟨_, memberB, equal, used, _⟩ := held.cell e member
    obtain ⟨newPtr, h', call, moved⟩ := repr.krealloc memberB used size
    refine ⟨newPtr, h', equal ▸ call, fun nonzero fits => ?_⟩
    rcases moved fits with ⟨_, handed | ⟨zero, _⟩⟩
    · exact handed.serves
    · exact absurd zero nonzero

theorem heap_chain_wellFormed_split : ∃ c, c.live = [(0x180020, 150), (0x180100, 8)] ∧ clients.Reachable c ∧
      (∃ chain, WellFormed c.heap chain) ∧ c.live.Pairwise fun e f => Disjoint c.heap e.1 f.1 := by
  -- two allocations; the first is freed, split for a third, which then grows back over the rest
  have live : ([.kmalloc 200, .kmalloc 8, .kfree 0x180020, .kmalloc 16, .krealloc 0x180020 150].foldlM
      Client.next ⟨⟨fun _ => 0, 0, 0x180003⟩, []⟩).map Client.live = some [(0x180020, 150), (0x180100, 8)] := by
    decide +kernel
  obtain ⟨c, computed, live⟩ := Option.map_eq_some_iff.mp live
  have start : clients.Reachable ⟨⟨fun _ => 0, 0, 0x180003⟩, []⟩ := .initial ⟨rfl, rfl, by decide, by decide⟩
  have reachable := start.run Client.next_sound computed
  have wellFormed := heap_chain_wellFormed reachable
  exact ⟨c, live, reachable, wellFormed.1, wellFormed.2.2.1⟩

end Petix.Proof.Kmalloc
