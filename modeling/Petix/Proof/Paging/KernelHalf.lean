import Petix.Proof.Paging.Runs

namespace Petix.Proof.Paging
open Function Library Library.Result Library.Ownership Kernel.Paging Spec.Paging

variable {σ : Type} {A : Allocator σ} {m m' boot k : Machine σ} {as dir d kpagedir f : Frame}
variable {own : Place → Option Frame} {action : Action} {kernel : Set Frame} {start : Frame → Page}

def spares (kernel : Set Frame) (_ : Machine σ) : Action → Prop
  | .write f _ => f ∉ kernel
  | _ => True

structure Shared (A : Allocator σ) (kernel : Set Frame) (kpagedir : Frame) (start : Frame → Page) (m : Machine σ) :
    Prop where
  formed : Formed A m
  tables : ∀ f ∈ kernel, m.mem f = start f
  low : ∀ d ∈ m.spaces, ∀ i, ¬ identityLen ≤ i.val → m.mem d i = start kpagedir i

theorem Forked.reserved (forked : Forked A m as dir k own) (never : Reserved A f) : k.mem f = m.mem f := by
  have new := forked.grows.supplied dir (forked.exact.mem forked.mine) forked.unused
  apply forked.grows.mem f
  · rintro rfl
    exact new never
  · intro here
    by_contra absent
    exact forked.grows.supplied f here absent never

section
variable (static : ∀ f ∈ kernel, Reserved A f) (root : kpagedir ∈ kernel)
include static

theorem Shared.keeps (shared : Shared A kernel kpagedir start m) (formed : Formed A m') (keeps : Keeps A m m') :
    Shared A kernel kpagedir start m' := by
  refine ⟨formed, ?_, ?_⟩
  · intro f here
    rw [keeps.reserved f (static f here), shared.tables f here]
  · intro d live i below
    rw [keeps.spaces] at live
    rw [keeps.low d live i below, shared.low d live i below]

include root

theorem Shared.step (shared : Shared A kernel kpagedir start m)
    (step : ((paging A kpagedir).restrict (spares kernel)).step m action m') : Shared A kernel kpagedir start m' := by
  obtain ⟨allowed, step⟩ := step
  have formed := formed_step shared.formed step
  cases shared.formed.took step with
  | create call =>
    obtain ⟨_, allocates, rfl⟩ := createProcAddrSpace_ok call
    refine ⟨formed, ?_, ?_⟩
    · intro f here
      exact (update_of_ne (allocates.ne shared.formed (.inr (static f here))) ..).trans
        (shared.tables f here)
    · intro d live i below
      rcases Finset.mem_insert.mp live with rfl | live
      · refine (congrFun (update_self ..) i).trans ?_
        rw [if_neg below, shared.tables kpagedir root]
      · have other := allocates.ne shared.formed (.inl (shared.formed.dir_held live))
        exact (congrFun (update_of_ne other ..) i).trans (shared.low d live i below)
  | pageFault live region call =>
    exact shared.keeps static formed (pageFaultHandler_fills shared.formed live region call).toKeeps
  | fork live forked =>
    refine ⟨formed, fun f here => (forked.reserved (static f here)).trans (shared.tables f here), ?_⟩
    intro d here i below
    rcases Finset.mem_insert.mp here with rfl | before
    · exact (forked.low i below).trans (shared.low _ live i below)
    · rw [forked.grows.spaces] at before
      exact (congrFun (forked.kept (shared.formed.dir_held before)) i).trans (shared.low d before i below)
  | remap live given call => exact shared.keeps static formed (remapPageUser_fills shared.formed live given call).toKeeps
  | free live call =>
    obtain ⟨_, computed, draining⟩ := freeProcAddrSpace_drains shared.formed live
    cases computed.symm.trans call
    refine ⟨formed, fun f here => (congrFun draining.mem f).trans (shared.tables f here), ?_⟩
    intro d here i below
    have before : d ∈ m.spaces := draining.spaces ▸ Finset.mem_of_mem_erase here
    exact (congrFun (congrFun draining.mem d) i).trans (shared.low d before i below)
  | write free =>
    refine ⟨formed, ?_, ?_⟩
    · intro g here
      exact (update_of_ne (ne_of_mem_of_not_mem here allowed) ..).trans (shared.tables g here)
    · intro d live i below
      refine (congrFun (update_of_ne ?_ ..) i).trans (shared.low d live i below)
      rintro rfl
      exact free ⟨d, live, .inl rfl⟩
  | allocOther => exact ⟨formed, shared.tables, shared.low⟩
  | freeOther => exact ⟨formed, shared.tables, shared.low⟩

theorem shared_run (initial : (paging A kpagedir).initial boot)
    (run : ((paging A kpagedir).restrict (spares kernel)).LeadsTo boot m) : Shared A kernel kpagedir boot.mem m := by
  induction run with
  | refl =>
    refine ⟨formed_initial initial, fun _ _ => rfl, ?_⟩
    rw [initial.2.1]
    exact fun d live => absurd live (Finset.notMem_empty d)
  | tail _ last ih =>
    obtain ⟨_, step⟩ := last
    exact ih.step static root step

end

section
variable {pageTabs : Fin identityLen → Frame} (apart : ∀ i, pageTabs i ≠ kpagedir)
variable (distinct : Function.Injective pageTabs) (static : ∀ f ∈ insert kpagedir (Set.range pageTabs), Reserved A f)
variable (initial : (paging A kpagedir).initial boot)
variable (run : ((paging A kpagedir).restrict (spares (insert kpagedir (Set.range pageTabs)))).LeadsTo
  (initPaging kpagedir pageTabs boot) m)
include apart distinct static initial run

theorem kernel_identity (live : d ∈ m.spaces) {addr : BitVec 32} (low : addr.toNat < procRegion) :
    (walk m.mem d addr).map (fun entries => entries.2.high) =
      if addr.toNat < 4096 then none else some (frameOf addr) := by
  have shared := shared_run static (Set.mem_insert kpagedir _) (initPaging_initial initial) run
  have bound : addr.toNat / 2 ^ 22 < identityLen := by unfold procRegion at low; unfold identityLen; omega
  have table : ((initPaging kpagedir pageTabs boot).mem kpagedir (dirIdx addr)).high =
      pageTabs ⟨addr.toNat / 2 ^ 22, bound⟩ := initPaging_table apart distinct ⟨_, bound⟩
  have same : walk m.mem d addr = walk (initPaging kpagedir pageTabs boot).mem kpagedir addr := by
    refine (walk_congr (shared.low d live (dirIdx addr) (Nat.not_le.mpr bound)) ?_).1
    intro _
    rw [table]
    exact shared.tables _ (.inr (Set.mem_range_self _))
  rw [same, initPaging_identity apart distinct low]

end

end Petix.Proof.Paging
