import Petix.Proof.Kmalloc.Runs

namespace Petix.Proof.Kmalloc
open Library Kernel.Kmalloc Spec.Kmalloc

variable {h h' : Heap} {cells cells' : List Cell} {b : Cell} {size : Nat} {target : Option Cell}

theorem Represents.capacity_eq (repr : Represents h cells) (member : b ∈ cells) : capacity h (b.addr + 24) = b.len :=
  repr.len_eq member

theorem Preserves.sameBytes {t : Cell} (preserves : Preserves size b cells (some t) h h') :
    SameBytes h (b.addr + 24) h' (t.addr + 24) (min b.len size) :=
  preserves.contents t rfl

theorem Preserves.other {c : Cell} (preserves : Preserves size b cells target h h')
    (resizes : Resizes size b cells target cells') (repr : Represents h cells) (repr' : Represents h' cells')
    (member : c ∈ cells) (used : c.used ≠ 0) (other : c.addr ≠ b.addr) :
    capacity h' (c.addr + 24) = capacity h (c.addr + 24) ∧
      SameBytes h (c.addr + 24) h' (c.addr + 24) (capacity h (c.addr + 24)) := by
  rw [repr'.capacity_eq (resizes.kept member used other), repr.capacity_eq member]
  refine ⟨rfl, fun i inside => preserves.others c member used other _ (by omega) ?_⟩
  rw [Cell.finish]
  omega

theorem krealloc_keeps_contents {c : Client} (reachable : clients.Reachable c) {ptr size : Nat}
    (live : ptr ∈ c.live.map Prod.fst) (positive : 0 < size) :
    ∃ newPtr h', c.heap.krealloc ptr size = some (newPtr, h') ∧ (h'.breakptr < 2 ^ 32 →
      (∃ chain, WellFormed h' chain ∧ newPtr - sizeofBlock ∈ chain) ∧ Serves h' newPtr size ∧
      SameBytes c.heap ptr h' newPtr (min (capacity c.heap ptr) size) ∧ ∀ q ∈ c.live.map Prod.fst, q ≠ ptr →
        capacity h' q = capacity c.heap q ∧ SameBytes c.heap q h' q (capacity c.heap q)) := by
  obtain ⟨_, repr, held⟩ := reachable_invariant reachable
  obtain ⟨_, member, rfl, used⟩ := held.block live
  obtain ⟨newPtr, h', call, resized⟩ := repr.krealloc_resizes member used size
  refine ⟨newPtr, h', call, fun fits => ?_⟩
  obtain ⟨target, _, rfl, resizes, repr', preserves⟩ := resized fits
  obtain ⟨t, rfl⟩ : ∃ t, target = some t := by
    cases resizes with
    | drops zero _ _ _ => omega
    | keeps _ _ | splits _ _ | grows _ | absorbs _ _ _ | moves _ _ _ _ => exact ⟨_, rfl⟩
  obtain ⟨memberT, -, room, -⟩ := resizes.target repr member used
  have placed := repr'.placed t memberT
  refine ⟨⟨_, repr'.wellFormed, ?_⟩, ⟨?_, ?_, ?_⟩, ?_, ?_⟩
  · exact List.mem_map_of_mem memberT
  · rw [pointer]
    omega
  · rw [pointer]
    omega
  · rw [pointer, repr'.len_eq memberT]
    exact room
  · rw [repr.capacity_eq member]
    exact preserves.sameBytes
  · intro _ memberQ ne
    obtain ⟨_, memberD, rfl, usedD⟩ := held.block memberQ
    exact preserves.other resizes repr repr' memberD usedD fun equal => ne (by rw [equal])

theorem krealloc_keeps_contents_moved : ∃ c h', clients.Reachable c ∧ 0x180020 ∈ c.live.map Prod.fst ∧
      c.heap.krealloc 0x180020 300 = some (0x180120, h') ∧ h'.mem 0x180120 = 7 ∧
      SameBytes c.heap 0x180100 h' 0x180100 8 := by
  -- the block above is in use, so the contents are copied to a new block at the break
  let calls : List Call := [.kmalloc 200, .kmalloc 8, .store 0x180020 0 7]
  let start : Client := ⟨⟨fun _ => 0, 0, 0x180003⟩, []⟩
  have computed : (calls.foldlM Client.next start).map
      (fun c => (c.live, c.heap.mem 0x180020, capacity c.heap 0x180020, capacity c.heap 0x180100)) =
      some ([(0x180100, 8), (0x180020, 200)], 7, 200, 8) := by
    decide +kernel
  have moved : (calls.foldlM Client.next start).bind
      (fun c => (c.heap.krealloc 0x180020 300).map fun r => (r.1, r.2.breakptr)) = some (0x180120, 0x18024c) := by
    decide +kernel
  obtain ⟨c, ran, observed⟩ := Option.map_eq_some_iff.mp computed
  simp only [Prod.mk.injEq] at observed
  obtain ⟨live, stored, len, lenOther⟩ := observed
  have initial : clients.Reachable start := .initial ⟨rfl, rfl, by decide, by decide⟩
  have reachable := initial.run Client.next_sound ran
  have member : 0x180020 ∈ c.live.map Prod.fst := by simp [live]
  obtain ⟨_, h', call, kept⟩ := krealloc_keeps_contents reachable member (show 0 < 300 by decide)
  rw [ran, Option.bind_some, call, Option.map_some, Option.some.injEq, Prod.mk.injEq] at moved
  obtain ⟨rfl, top⟩ := moved
  obtain ⟨-, -, contents, others⟩ := kept (by rw [top]; decide)
  rw [len] at contents
  refine ⟨c, h', reachable, member, call, (contents 0 (by decide)).trans stored, ?_⟩
  have other := (others 0x180100 (by simp [live]) (by decide)).2
  rwa [lenOther] at other

end Petix.Proof.Kmalloc
