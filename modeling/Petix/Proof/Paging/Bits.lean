import Petix.Proof.Paging.Isolation

namespace Petix.Proof.Paging
open Function Library Library.Result Kernel.Paging Spec.Paging

variable {σ : Type} {A : Allocator σ} {m m' k : Machine σ} {as dir pd kpagedir : Frame}
variable {own : Place → Option Frame} {action : Action}

theorem Opened.kept (opened : Opened m) (formed : Formed A m) (spaces : m'.spaces ⊆ m.spaces)
    (tables : ∀ f, m.IsTable f → m'.mem f = m.mem f) : Opened m' := by
  intro d live i region
  have before := spaces live
  apply (opened d before i region).congr
  · rw [tables d ⟨d, before, .inl rfl⟩]
  · intro present
    apply tables
    refine ⟨d, before, .inr ⟨i, region, ?_, rfl⟩⟩
    rw [Word.ownsTable, present, formed.dirs d before i region]
    rfl

theorem createProcAddrSpace_opened (opened : Opened m) (formed : Formed A m)
    (call : createProcAddrSpace A kpagedir m = .ok (pd, m')) : Opened { m' with spaces := insert pd m'.spaces } := by
  obtain ⟨_, allocates, rfl⟩ := createProcAddrSpace_ok call
  have unused := allocates.unused formed
  intro d live i region
  dsimp only at live ⊢
  rcases Finset.mem_insert.mp live with rfl | live
  · have entry : update m.mem d (fun i =>
        if identityLen ≤ i.val then blankEntry (m.mem kpagedir i) else m.mem kpagedir i) d i =
        blankEntry (m.mem kpagedir i) := by
      rw [update_self, if_pos region]
    constructor
    · rw [entry]
      exact ⟨rfl, rfl⟩
    · rw [entry]
      intro present
      cases present
  · apply (opened d live i region).congr
    · rw [update_of_ne (ne_of_mem_of_not_mem (formed.dir_held live) unused)]
    · intro present
      exact update_of_ne
        (ne_of_mem_of_not_mem (formed.table_held (formed.table live region present)) unused) ..

theorem Forked.opened (opened : Opened m) (formed : Formed A m) (live : as ∈ m.spaces)
    (forked : Forked A m as dir k own) : Opened { k with spaces := insert dir k.spaces } := by
  intro d here i region
  rcases Finset.mem_insert.mp here with rfl | before
  · obtain ⟨flags, copies⟩ := forked.entry formed live region
    obtain ⟨entry, pages⟩ := opened as live i region
    refine ⟨entry.flags flags, fun present j absent => ?_⟩
    have table : (m.mem as i).present = true := (congrFun flags 0).symm.trans present
    have copy := ((copies table).2 j).flags
    exact (pages table j ((congrFun copy 0).symm.trans absent)).flags copy
  · rw [forked.grows.spaces] at before
    apply (opened d before i region).congr
    · exact congrFun (forked.kept (formed.dir_held before)) i
    · intro present
      exact forked.kept (formed.table_held (formed.table before region present))

theorem opened_step (opened : Opened m) (formed : Formed A m) (step : (paging A kpagedir).step m action m') :
    Opened m' := by
  cases formed.took step with
  | create call => exact createProcAddrSpace_opened opened formed call
  | pageFault live region call => exact (pageFaultHandler_fills formed live region call).opened opened
  | fork live forked => exact forked.opened opened formed live
  | remap live given call => exact (remapPageUser_fills formed live given call).opened opened
  | free live call =>
    obtain ⟨_, computed, draining⟩ := freeProcAddrSpace_drains formed live
    cases computed.symm.trans call
    refine opened.kept formed ?_ fun f _ => congrFun draining.mem f
    exact draining.spaces ▸ Finset.erase_subset _ m.spaces
  | write free =>
    refine opened.kept formed (Finset.Subset.refl _) fun g table => update_of_ne ?_ ..
    rintro rfl
    exact free table
  | allocOther => exact opened
  | freeOther => exact opened

theorem reachable_opened (reachable : (paging A kpagedir).Reachable m) : Formed A m ∧ Opened m := by
  apply reachable.invariant
  · intro m start
    refine ⟨formed_initial start, ?_⟩
    intro d live
    rw [start.2.1] at live
    exact absurd live (Finset.notMem_empty d)
  · intro _ _ _ inv step
    exact ⟨formed_step inv.1 step, opened_step inv.2 inv.1 step⟩

end Petix.Proof.Paging
