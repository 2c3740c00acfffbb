import Petix.Proof.Paging.Faults

namespace Petix.Proof.Paging
open Function List Library Library.Result Library.Ownership Kernel.Paging Spec.Paging

variable {σ : Type} {A : Allocator σ} {m k : Machine σ} {as f tab : Frame} {i j : Fin 1024} {p : Place}
variable {own : Place → Option Frame}
variable {spaces : Finset Frame} {mem : Frame → Page}

structure Draining (A : Allocator σ) (m : Machine σ) (own : Place → Option Frame) (k : Machine σ) : Prop where
  mem : k.mem = m.mem
  spaces : k.spaces = m.spaces
  remapped : k.remapped = m.remapped
  exact : Exact own k.held
  marked : ∀ f ∈ k.held, A.allocated k.frames f
  fewer : k.held ⊆ m.held
  marks : ∀ f, A.allocated k.frames f ↔ A.allocated m.frames f ∧ (f ∈ m.held → f ∈ k.held)

theorem Draining.free (draining : Draining A m own k) (here : own p = some f) :
    ∃ k', free A k f = .ok k' ∧ Draining A m (update own p none) k' := by
  obtain ⟨k', freed⟩ := free_held draining.marked (draining.exact.mem here)
  obtain ⟨frames, marks, rfl⟩ := free_ok freed
  refine ⟨_, freed, draining.mem, draining.spaces, draining.remapped, draining.exact.erase here, ?_, ?_, ?_⟩
  · intro g held
    obtain ⟨different, held⟩ := Finset.mem_erase.mp held
    exact (marks g).mpr ⟨draining.marked g held, different⟩
  · exact (Finset.erase_subset _ _).trans draining.fewer
  · intro g
    rw [marks, draining.marks, Finset.mem_erase]
    constructor
    · rintro ⟨⟨allocated, held⟩, different⟩
      exact ⟨allocated, fun before => ⟨different, held before⟩⟩
    · rintro ⟨allocated, held⟩
      refine ⟨⟨allocated, fun before => (held before).2⟩, ?_⟩
      rintro rfl
      exact (held (draining.fewer (draining.exact.mem here))).1 rfl

theorem foldlM_cons_ok {α β ε : Type} {step : β → α → Except ε β} {items : List α} {item : α} {b b' : β}
    (first : step b item = .ok b') : (item :: items).foldlM step b = items.foldlM step b' := by
  rw [foldlM_cons, first]
  rfl

def pagePlaces (as : Frame) (i : Fin 1024) (js : List (Fin 1024)) : List Place := js.map (.page as i)

theorem freeEntries_draining (js : List (Fin 1024)) (distinct : js.Nodup) (draining : Draining A m own k)
    (here : tableAt m.spaces m.mem as i = some tab)
    (owned : ∀ j ∈ js, own (.page as i j) = pageAt m.spaces m.mem as i j) :
    ∃ k', js.foldlM (fun k j => freeEntry A k tab j) k = .ok k' ∧
      Draining A m (without own (pagePlaces as i js)) k' := by
  induction js generalizing own k with
  | nil => exact ⟨k, rfl, by rwa [pagePlaces, map_nil, without_nil]⟩
  | cons j js ih =>
    obtain ⟨absent, distinct⟩ := nodup_cons.mp distinct
    have first : ∃ k', freeEntry A k tab j = .ok k' ∧ Draining A m (update own (.page as i j) none) k' := by
      have mine := owned j (.head _)
      rw [pageAt_of_table here] at mine
      unfold freeEntry
      rw [draining.mem]
      split_ifs at mine ⊢ with owns
      · exact draining.free mine
      · refine ⟨k, rfl, ?_⟩
        rwa [← mine, update_eq_self]
    obtain ⟨_, freed, draining⟩ := first
    obtain ⟨final, run, draining⟩ := ih distinct draining fun j' later => by
      rw [update_of_ne, owned j' (.tail _ later)]
      intro same
      cases same
      exact absent later
    refine ⟨final, (foldlM_cons_ok freed).trans run, ?_⟩
    rwa [pagePlaces, map_cons, without_cons]

def tablePlaces (as : Frame) (i : Fin 1024) : List Place := pagePlaces as i (finRange 1024) ++ [.table as i]

theorem freeTable_draining (draining : Draining A m own k) (live : as ∈ m.spaces) (region : identityLen ≤ i.val)
    (owned : ∀ p ∈ tablePlaces as i, own p = frameAt m.spaces m.mem p) :
    ∃ k', freeTable A k as i = .ok k' ∧ Draining A m (without own (tablePlaces as i)) k' := by
  unfold freeTable
  rw [draining.mem]
  split_ifs with owns
  · have here : tableAt m.spaces m.mem as i = some (m.mem as i).high := if_pos ⟨live, region, owns⟩
    obtain ⟨middle, run, drained⟩ := freeEntries_draining (finRange 1024) (nodup_finRange 1024) draining here
      fun j _ => owned (.page as i j) (by simp [tablePlaces, pagePlaces])
    have table : without own (pagePlaces as i (finRange 1024)) (.table as i) = some (m.mem as i).high := by
      rw [without_of_not_mem (by simp [pagePlaces]), owned _ (by simp [tablePlaces])]
      exact here
    obtain ⟨final, freed, _⟩ := drained.free table
    refine ⟨final, ?_, ?_⟩
    · rw [freeEntries, run]
      change free A middle (middle.mem as i).high = _
      rw [drained.mem, freed]
    · rwa [tablePlaces, without_append, without_cons, without_nil]
  · refine ⟨k, rfl, ?_⟩
    have vacant : tableAt m.spaces m.mem as i = none := if_neg fun owned => owns owned.2.2
    rw [without_of_none]
    · exact draining
    · intro p place
      rw [owned p place]
      simp only [tablePlaces, pagePlaces, mem_append, mem_map, mem_singleton] at place
      rcases place with ⟨-, -, rfl⟩ | rfl
      · exact pageAt_of_none vacant
      · exact vacant

theorem freeTables_draining (is : List (Fin 1024)) (distinct : is.Nodup) (draining : Draining A m own k)
    (live : as ∈ m.spaces) (region : ∀ i ∈ is, identityLen ≤ i.val)
    (owned : ∀ i ∈ is, ∀ p ∈ tablePlaces as i, own p = frameAt m.spaces m.mem p) :
    ∃ k', is.foldlM (fun k i => freeTable A k as i) k = .ok k' ∧
      Draining A m (without own (is.flatMap (tablePlaces as))) k' := by
  induction is generalizing own k with
  | nil => exact ⟨k, rfl, by rwa [flatMap_nil, without_nil]⟩
  | cons i is ih =>
    obtain ⟨absent, distinct⟩ := nodup_cons.mp distinct
    obtain ⟨_, freed, draining⟩ := freeTable_draining draining live (region i (.head _))
      (owned i (.head _))
    obtain ⟨final, run, draining⟩ := ih distinct draining (fun i' later => region i' (.tail _ later))
      fun i' later p place => by
        rw [without_of_not_mem, owned i' (.tail _ later) p place]
        intro other
        simp only [tablePlaces, pagePlaces, mem_append, mem_map, mem_singleton] at place other
        rcases place with ⟨_, -, rfl⟩ | rfl
        · rcases other with ⟨j', -, same⟩ | same
          · cases same
            exact absent later
          · cases same
        · rcases other with ⟨_, -, same⟩ | same
          · cases same
          · cases same
            exact absent later
    refine ⟨final, (foldlM_cons_ok freed).trans run, ?_⟩
    rwa [flatMap_cons, without_append]

def spacePlaces (as : Frame) : List Place := dirIndices.flatMap (tablePlaces as) ++ [.dir as]

theorem mem_spacePlaces : p ∈ spacePlaces as ↔ p.space = as ∧ (∀ d i, p = .table d i → identityLen ≤ i.val) ∧
      ∀ d i j, p = .page d i j → identityLen ≤ i.val := by
  simp only [spacePlaces, tablePlaces, pagePlaces, mem_append, mem_flatMap, mem_map,
    mem_singleton, mem_dirIndices, mem_finRange, true_and]
  cases p with
  | dir d => simp [Place.space]
  | table d i => simp [Place.space, and_comm, eq_comm]
  | page d i j => simp [Place.space, and_comm, eq_comm]

theorem space_of_mem (place : p ∈ spacePlaces as) : p.space = as := (mem_spacePlaces.mp place).1

theorem frameAt_low (space : p.space = as) (low : p ∉ spacePlaces as) :
    frameAt spaces mem p = none := by
  rw [mem_spacePlaces] at low
  have tables {d : Frame} {i : Fin 1024} (below : ¬ identityLen ≤ i.val) : tableAt spaces mem d i = none :=
    if_neg fun owned => below owned.2.1
  cases p with
  | dir d => exact absurd ⟨space, by simp, by simp⟩ low
  | table d i =>
    apply tables
    intro region
    refine low ⟨space, ?_, by simp⟩
    rintro _ _ ⟨⟩
    exact region
  | page d i j =>
    apply pageAt_of_none (tables _)
    intro region
    refine low ⟨space, by simp, ?_⟩
    rintro _ _ _ ⟨⟩
    exact region

theorem frameAt_erase (spaces : Finset Frame) (mem : Frame → Page) (as : Frame) :
    frameAt (spaces.erase as) mem = without (frameAt spaces mem) (spacePlaces as) := by
  funext p
  by_cases space : p.space = as
  · rw [frameAt_of_dead (by simp [space])]
    unfold without
    split_ifs with place
    · rfl
    · exact (frameAt_low space place).symm
  · rw [without_of_not_mem fun place => space (space_of_mem place)]
    have tables {d : Frame} {i : Fin 1024} (other : d ≠ as) :
        tableAt (spaces.erase as) mem d i = tableAt spaces mem d i := by
      simp only [tableAt, Finset.mem_erase, ne_eq, other, not_false_eq_true, true_and]
    cases p with
    | dir d =>
      have other : d ≠ as := space
      simp only [frameAt, Finset.mem_erase, ne_eq, other, not_false_eq_true, true_and]
    | table d i => exact tables space
    | page d i j =>
      have other : d ≠ as := space
      change pageAt _ _ d i j = pageAt _ _ d i j
      rw [pageAt, pageAt, tables other]

theorem frameAt_erase_iff :
    frameAt (spaces.erase as) mem p = some f ↔ frameAt spaces mem p = some f ∧ p.space ≠ as := by
  rw [frameAt_erase]
  by_cases space : p.space = as
  · simp only [space, ne_eq, not_true_eq_false, and_false, iff_false]
    rw [← frameAt_erase, frameAt_of_dead (by simp [space])]
    simp
  · rw [without_of_not_mem fun place => space (space_of_mem place)]
    simp [space]

theorem freeProcAddrSpace_drains (formed : Formed A m) (live : as ∈ m.spaces) :
    ∃ k, freeProcAddrSpace A m as = .ok k ∧ Draining A m (frameAt (m.spaces.erase as) m.mem) k := by
  have nonzero : as ≠ 0 := fun zero => formed.nonzero (zero ▸ formed.dir_held live)
  have start : Draining A m (frameAt m.spaces m.mem) m :=
    ⟨rfl, rfl, rfl, formed.exact, formed.marked, Finset.Subset.refl _, fun f => ⟨fun here => ⟨here, id⟩, And.left⟩⟩
  obtain ⟨_, run, drained⟩ := freeTables_draining dirIndices ((nodup_finRange 1024).filter _) start live
    (fun i here => mem_dirIndices.mp here) fun _ _ _ _ => rfl
  have dir : without (frameAt m.spaces m.mem) (dirIndices.flatMap (tablePlaces as)) (.dir as) = some as := by
    rw [without_of_not_mem (by simp [tablePlaces, pagePlaces])]
    exact frameAt_dir live
  obtain ⟨final, freed, drained⟩ := drained.free dir
  refine ⟨final, ?_, ?_⟩
  · rw [freeProcAddrSpace, if_neg nonzero, run]
    exact freed
  · rwa [frameAt_erase, spacePlaces, without_append, without_cons, without_nil]

theorem Draining.held_iff (draining : Draining A m (frameAt (m.spaces.erase as) m.mem) k) (formed : Formed A m) :
    f ∈ k.held ↔ f ∈ m.held ∧ ∀ p, p.space = as → frameAt m.spaces m.mem p ≠ some f := by
  rw [draining.exact.held_iff, formed.exact.held_iff]
  constructor
  · rintro ⟨p, here⟩
    obtain ⟨here, other⟩ := frameAt_erase_iff.mp here
    refine ⟨⟨p, here⟩, ?_⟩
    intro _ space there
    cases formed.exact.once here there
    exact other space
  · rintro ⟨⟨p, here⟩, others⟩
    exact ⟨p, frameAt_erase_iff.mpr ⟨here, fun space => others p space here⟩⟩

theorem Draining.formed (draining : Draining A m (frameAt (m.spaces.erase as) m.mem) k) (formed : Formed A m) :
    Formed A { k with spaces := k.spaces.erase as } := by
  obtain ⟨mem, spaces, remapped, exact, marked, fewer, -⟩ := draining
  constructor
  · rw [mem, spaces]
    exact exact
  · exact marked
  · exact fun f here => formed.supplied f (fewer here)
  · exact fun zero => formed.nonzero (fewer zero)
  · rw [mem, spaces]
    intro d live
    exact formed.dirs d (Finset.mem_of_mem_erase live)
  · rw [mem, spaces, remapped]
    intro d i tab here
    obtain ⟨live, region, owns, high⟩ := tableAt_some here
    exact formed.tabs d i tab (high ▸ if_pos ⟨Finset.mem_of_mem_erase live, region, owns⟩)

end Petix.Proof.Paging
