import Petix.Proof.Paging.Bits
import Petix.Spec.PageFaults

namespace Petix.Proof.Paging
open Function Library Library.Result Kernel Kernel.Paging Spec.Paging

section
variable {σ : Type} {A : Allocator σ} {m m' : Machine σ} {d pd kpagedir f tab : Frame} {i j : Fin 1024}
variable {mem : Frame → Page} {addr other : BitVec 32} {w : Word} {frames : σ} {pageTabs : Fin identityLen → Frame}

theorem frameOf_eq : frameOf other = frameOf addr ↔ dirIdx other = dirIdx addr ∧ tabIdx other = tabIdx addr := by
  simp only [frameOf, dirIdx, tabIdx, Fin.mk.injEq]
  omega

theorem frameOf_low (region : procRegion ≤ addr.toNat) (low : other.toNat < procRegion) :
    frameOf other ≠ frameOf addr := by
  intro same
  have page : other.toNat / 2 ^ 12 = addr.toNat / 2 ^ 12 := congrArg Fin.val same
  unfold procRegion at low region
  omega

theorem dirIdx_ne_kernel (region : procRegion ≤ addr.toNat) (i : Fin identityLen) :
    i.castLE (by decide) ≠ dirIdx addr := by
  intro same
  have index := dirIdx_region region
  rw [← same] at index
  exact absurd i.isLt (Nat.not_lt.mpr index)

def Passes (mem : Frame → Page) (d f : Frame) : Prop := f = d ∨ ∃ i, (mem d i).present = true ∧ (mem d i).high = f

theorem walk_fill (off : ¬ Passes mem d f) (page : Page) : walk (update mem f page) d addr = walk mem d addr := by
  have dir : d ≠ f := fun same => off (.inl same.symm)
  refine (walk_congr ?_ ?_).1
  · rw [update_of_ne dir]
  · intro present
    exact update_of_ne (fun same => off (.inr ⟨_, present, same⟩)) ..

theorem walk_stored_page (dir : tab ≠ d) (once : ∀ i', (mem d i').present = true → (mem d i').high = tab → i' = i)
    (elsewhere : ¬ (dirIdx other = i ∧ tabIdx other = j)) : walk (stored mem tab j w) d other = walk mem d other := by
  have entry : stored mem tab j w d (dirIdx other) = mem d (dirIdx other) := by rw [stored_other dir.symm]
  unfold walk
  dsimp only
  rw [entry]
  by_cases present : (mem d (dirIdx other)).present = true
  · rw [stored_elsewhere fun same => elsewhere ⟨once _ present same.1, same.2⟩]
  · rw [if_neg present, if_neg present]

theorem walk_stored_table (absent : ∀ i', (mem d i').present = true → (mem d i').high ≠ d)
    (elsewhere : dirIdx other ≠ i) : walk (stored mem d i w) d other = walk mem d other := by
  refine (walk_congr (stored_index elsewhere) ?_).1
  intro present
  exact stored_other (absent _ present)

theorem walk_eq_none : walk mem d addr = none ↔
    ((mem d (dirIdx addr)).present = true → (mem (mem d (dirIdx addr)).high (tabIdx addr)).present = false) := by
  unfold walk
  dsimp only
  split_ifs with table page
  · simp [table, page]
  · simp [page]
  · simp [table]

theorem Formed.faultable (formed : Formed A m) (live : d ∈ m.spaces) (region : procRegion ≤ addr.toNat)
    (absent : walk m.mem d addr = none) : Faultable m.mem d addr := by
  have index := dirIdx_region region
  refine ⟨absent, formed.dirs d live _ index, fun table => ?_⟩
  rcases formed.tabs d _ _ (formed.table live index table) (tabIdx addr) with demand | ⟨present, -⟩
  · exact demand
  · rw [walk_of_present table present] at absent
    cases absent

section
variable (formed : Formed A m) (live : pd ∈ m.spaces) (kernel : KernelMapped pageTabs m pd)
include formed live kernel

theorem KernelMapped.passes (pass : Passes m.mem pd f) : f ∈ m.held ∨ f ∈ Set.range pageTabs := by
  rcases pass with rfl | ⟨i, present, rfl⟩
  · exact .inl (formed.dir_held live)
  · by_cases region : identityLen ≤ i.val
    · exact .inl (formed.table_held (formed.table live region present))
    · exact .inr ⟨⟨i.val, Nat.lt_of_not_le region⟩, (kernel.table ⟨i.val, Nat.lt_of_not_le region⟩).symm⟩

theorem KernelMapped.once (region : identityLen ≤ i.val) (present : (m.mem pd i).present = true) (i' : Fin 1024)
    (present' : (m.mem pd i').present = true) (same : (m.mem pd i').high = (m.mem pd i).high) : i' = i := by
  have here := formed.table live region present
  by_cases region' : identityLen ≤ i'.val
  · have there := formed.table live region' present'
    rw [same] at there
    exact (table_unique formed.exact there here).2
  · have low := kernel.table ⟨i'.val, Nat.lt_of_not_le region'⟩
    refine absurd (formed.table_held here) ?_
    rw [← same]
    exact low ▸ kernel.own _

theorem KernelMapped.table_ne (i' : Fin 1024) (present : (m.mem pd i').present = true) : (m.mem pd i').high ≠ pd := by
  by_cases region : identityLen ≤ i'.val
  · exact table_ne_dir formed.exact live (formed.table live region present)
  · have low := kernel.table ⟨i'.val, Nat.lt_of_not_le region⟩
    intro same
    apply kernel.own ⟨i'.val, Nat.lt_of_not_le region⟩
    rw [← low]
    exact same.symm ▸ formed.dir_held live

end

theorem KernelMapped.lost (kernel : KernelMapped pageTabs m pd) {i : Fin identityLen} (positive : 0 < j.val)
    (entry : mem pd (i.castLE (by decide)) = m.mem pd (i.castLE (by decide)))
    (absent : (mem (pageTabs i) j).present = false) :
    ∃ other, other.toNat < procRegion ∧ walk mem pd other ≠ walk m.mem pd other := by
  have bound : i.val < 768 := i.isLt
  obtain ⟨other, _⟩ : ∃ other : BitVec 32, other.toNat = i.val * 2 ^ 22 + j.val * 2 ^ 12 :=
    ⟨BitVec.ofNat 32 (i.val * 2 ^ 22 + j.val * 2 ^ 12), by rw [BitVec.toNat_ofNat]; omega⟩
  have dir : dirIdx other = i.castLE (by decide) := Fin.ext (show other.toNat / 2 ^ 22 = i.val by omega)
  have tab : tabIdx other = j := Fin.ext (show other.toNat / 2 ^ 12 % 1024 = j.val by omega)
  have low : other.toNat < procRegion := by unfold procRegion; omega
  refine ⟨other, low, fun same => kernel.mapped other (by omega) low ?_⟩
  rw [← same, walk_eq_none, dir, tab, entry, kernel.table i]
  exact fun _ => absent

theorem alloc_then_iff (use : Frame → Machine σ → Machine σ) :
    (do let (f, k) ← alloc A m; return use f k) = Except.ok m' ↔ ∃ f frames, A.allocPage m.frames = some (f, frames) ∧
      m' = use f { m with frames := frames, held := insert f m.held } := by
  unfold alloc
  cases A.allocPage m.frames with
  | none =>
    constructor
    · intro call
      cases call
    · rintro ⟨f, frames, here, -⟩
      cases here
  | some answer =>
    constructor
    · intro call
      exact ⟨answer.1, answer.2, rfl, (pure_ok call).symm⟩
    · rintro ⟨_, _, here, rfl⟩
      cases here
      rfl

theorem demandPage_ok_iff (absent : (m.mem tab j).present = false) (demand : (m.mem tab j).tabAlloc = true) :
    demandPage A m tab j = .ok m' ↔ ∃ f frames, A.allocPage m.frames = some (f, frames) ∧
      m' = addPage { m with frames := frames, held := insert f m.held } tab j f := by
  have call : demandPage A m tab j = (do let (f, k) ← alloc A m; return addPage k tab j f) := by
    simp [demandPage, absent, demand]
  rw [call]
  exact alloc_then_iff fun f k => addPage k tab j f

theorem demandTable_ok_iff (absent : (m.mem pd i).present = false) (demand : (m.mem pd i).dirAlloc = true) :
    demandTable A m pd i = .ok m' ↔ ∃ f frames, A.allocPage m.frames = some (f, frames) ∧
      m' = addTable { m with frames := frames, held := insert f m.held } pd i f := by
  have call : demandTable A m pd i = (do let (f, k) ← alloc A m; return addTable k pd i f) := by
    simp [demandTable, absent, demand]
  rw [call]
  exact alloc_then_iff fun f k => addTable k pd i f

theorem unheld (formed : Formed A m) (here : A.allocPage m.frames = some (f, frames)) : f ∉ m.held :=
  fun held => A.fresh here (formed.marked f held)

section
variable (formed : Formed A m) (live : pd ∈ m.spaces) (kernel : KernelMapped pageTabs m pd)
variable (region : procRegion ≤ addr.toNat) (fault : Faultable m.mem pd addr)
variable (here : A.allocPage m.frames = some (f, frames))
include formed live region

section
variable (present : (m.mem pd (dirIdx addr)).present = true)
variable (fills : m' = addPage { m with frames := frames, held := insert f m.held } (m.mem pd (dirIdx addr)).high
  (tabIdx addr) f)
include here present fills

theorem addPage_fills : m'.mem pd = m.mem pd ∧ m'.mem f = zeroPage ∧
    m'.mem (m.mem pd (dirIdx addr)).high (tabIdx addr) =
      { ((m.mem (m.mem pd (dirIdx addr)).high (tabIdx addr)).set 0 true).set 8 false with high := f } ∧
    ∀ j, j ≠ tabIdx addr → m'.mem (m.mem pd (dirIdx addr)).high j = m.mem (m.mem pd (dirIdx addr)).high j := by
  have unused := unheld formed here
  have table := formed.table live (dirIdx_region region) present
  have different : (m.mem pd (dirIdx addr)).high ≠ f := ne_of_mem_of_not_mem (formed.table_held table) unused
  have dir := ne_of_mem_of_not_mem (formed.dir_held live) unused
  subst fills
  rw [addPage_mem different]
  refine ⟨?_, ?_, stored_self .., ?_⟩
  · exact (stored_other (table_ne_dir formed.exact live table).symm).trans (update_of_ne dir ..)
  · exact (stored_other different.symm).trans (update_self ..)
  · intro j index
    exact (stored_index index).trans (congrFun (update_of_ne different ..) j)

include kernel

theorem addPage_others_iff : (∀ other, frameOf other ≠ frameOf addr → walk m'.mem pd other = walk m.mem pd other) ↔
      f ∉ Set.range pageTabs := by
  have unused := unheld formed here
  have table := formed.table live (dirIdx_region region) present
  have different : (m.mem pd (dirIdx addr)).high ≠ f := ne_of_mem_of_not_mem (formed.table_held table) unused
  have dir := ne_of_mem_of_not_mem (formed.dir_held live) unused
  constructor
  · rintro others ⟨i, rfl⟩
    obtain ⟨entries, zero, -⟩ := addPage_fills formed live region here present fills
    have absent : (m'.mem (pageTabs i) 1).present = false := by
      rw [zero]
      rfl
    obtain ⟨other, low, differ⟩ := KernelMapped.lost kernel (by decide) (congrFun entries _) absent
    exact differ (others other (frameOf_low region low))
  · intro outside _ elsewhere
    have off : ¬ Passes m.mem pd f := fun pass => (KernelMapped.passes formed live kernel pass).elim unused outside
    subst fills
    rw [addPage_mem different, ← walk_fill off zeroPage]
    have same : update m.mem f zeroPage pd = m.mem pd := update_of_ne dir ..
    apply walk_stored_page (table_ne_dir formed.exact live table) (i := dirIdx addr)
    · intro i' present' equal
      rw [same] at present' equal
      exact KernelMapped.once formed live kernel (dirIdx_region region) present i' present' equal
    · exact fun index => elsewhere (frameOf_eq.mpr index)

include fault

theorem addPage_mapsOnly (opened : Opened m) (outside : f ∉ Set.range pageTabs) : MapsOnly A m m' pd addr := by
  have index := dirIdx_region region
  have absent := walk_eq_none.mp fault.absent present
  obtain ⟨entries, zero, word, -⟩ := addPage_fills formed live region here present fills
  have table := formed.table live index present
  have call := (demandPage_ok_iff absent (fault.page present)).mpr ⟨f, frames, here, fills⟩
  have kept := demandPage_fills formed table call
  obtain ⟨granted, pages⟩ := opened pd live _ index
  obtain ⟨rw, user⟩ := pages present _ absent
  constructor
  · refine ⟨_, _, walk_of_present ?_ ?_, ?_⟩
    · rw [entries]
      exact present
    · rw [entries, word]
      rfl
    · rw [entries, word]
      exact ⟨A.fresh here, zero, rw.trans granted.1.symm, user.trans granted.2.symm⟩
  · exact (addPage_others_iff formed live kernel region here present fills).mpr outside
  · intro _ high gone
    exact kept.formed.faultable (kept.spaces.symm ▸ live) high gone

end

section
variable (absent : (m.mem pd (dirIdx addr)).present = false)
variable (adds : m' = addTable { m with frames := frames, held := insert f m.held } pd (dirIdx addr) f)
include here adds

omit region in
theorem addTable_adds : m'.mem pd (dirIdx addr) = { (m.mem pd (dirIdx addr)).set 0 true with high := f } ∧
    (∀ i, i ≠ dirIdx addr → m'.mem pd i = m.mem pd i) ∧
    ∀ j, m'.mem f j = demandEntry (m.mem pd (dirIdx addr)) (zeroPage j) := by
  have dir := ne_of_mem_of_not_mem (formed.dir_held live) (unheld formed here)
  subst adds
  rw [addTable_mem dir]
  refine ⟨stored_self .., ?_, ?_⟩
  · intro i index
    exact (stored_index index).trans (congrFun (update_of_ne dir ..) i)
  · intro j
    exact congrFun ((stored_other dir.symm).trans (update_self ..)) j

include absent

section
include fault

theorem added_table (opened : Opened m) :
    Formed A m' ∧ Opened m' ∧ pd ∈ m'.spaces ∧ (m'.mem pd (dirIdx addr)).present = true ∧
      (m'.mem pd (dirIdx addr)).high = f ∧ Faultable m'.mem pd addr := by
  have call := (demandTable_ok_iff absent fault.table).mpr ⟨f, frames, here, adds⟩
  have kept := demandTable_fills formed live (dirIdx_region region) call
  obtain ⟨entry, -, blank⟩ := addTable_adds formed live here adds
  have live' : pd ∈ m'.spaces := kept.spaces.symm ▸ live
  refine ⟨kept.formed, kept.opened opened, live', by rw [entry]; rfl, by rw [entry],
    kept.formed.faultable live' region ?_⟩
  rw [walk_eq_none, entry]
  intro _
  rw [blank]
  rfl

include kernel

theorem added_table_outside (opened : Opened m) {k : Machine σ} {page : Frame} {frames' : σ}
    (here' : A.allocPage m'.frames = some (page, frames'))
    (fills : k = addPage { m' with frames := frames', held := insert page m'.held } (m'.mem pd (dirIdx addr)).high
      (tabIdx addr) page)
    (others : ∀ other, frameOf other ≠ frameOf addr → walk k.mem pd other = walk m.mem pd other) :
    f ∉ Set.range pageTabs := by
  rintro ⟨i, rfl⟩
  obtain ⟨formed', -, live', present, high, -⟩ := added_table formed live region fault here absent adds opened
  obtain ⟨-, entries, blank⟩ := addTable_adds formed live here adds
  obtain ⟨same, -, -, kept⟩ := addPage_fills formed' live' region here' present fills
  -- one of the entries 1 and 2 is not the one that is filled
  obtain ⟨j, positive, index⟩ : ∃ j : Fin 1024, 0 < j.val ∧ j ≠ tabIdx addr := by
    by_cases first : tabIdx addr = 1
    · exact ⟨2, by decide, by rw [first]; decide⟩
    · exact ⟨1, by decide, fun equal => first equal.symm⟩
  have gone : (k.mem (pageTabs i) j).present = false := by
    rw [high] at kept
    rw [kept j index, blank]
    rfl
  have entry : k.mem pd (i.castLE (by decide)) = m.mem pd (i.castLE (by decide)) := by
    rw [same]
    exact entries _ (dirIdx_ne_kernel region i)
  obtain ⟨other, low, differ⟩ := KernelMapped.lost kernel positive entry gone
  exact differ (others other (frameOf_low region low))
end

include kernel

omit region in
theorem addTable_walk (outside : f ∉ Set.range pageTabs) (other : BitVec 32) :
    walk m'.mem pd other = walk m.mem pd other := by
  have unused := unheld formed here
  have dir := ne_of_mem_of_not_mem (formed.dir_held live) unused
  have off : ¬ Passes m.mem pd f := fun pass => (KernelMapped.passes formed live kernel pass).elim unused outside
  by_cases index : dirIdx other = dirIdx addr
  · -- the new table has no pages
    obtain ⟨entry, -, blank⟩ := addTable_adds formed live here adds
    have before : walk m.mem pd other = none := by
      rw [walk_eq_none, index, absent]
      exact fun present => absurd present (by decide)
    rw [before, walk_eq_none, index, entry]
    intro _
    rw [blank]
    rfl
  · have same : update m.mem f (fun j => demandEntry (m.mem pd (dirIdx addr)) (zeroPage j)) pd = m.mem pd :=
      update_of_ne dir ..
    subst adds
    rw [addTable_mem dir, ← walk_fill off fun j => demandEntry (m.mem pd (dirIdx addr)) (zeroPage j)]
    apply walk_stored_table _ index
    rw [same]
    exact KernelMapped.table_ne formed live kernel

theorem addTable_kernel (outside : f ∉ Set.range pageTabs) : KernelMapped pageTabs m' pd := by
  have entries := (addTable_adds formed live here adds).2.1
  have walks := addTable_walk formed live kernel here absent adds outside
  constructor
  · intro i held
    subst adds
    rcases Finset.mem_insert.mp held with same | held
    · exact outside ⟨i, same⟩
    · exact kernel.own i held
  · intro i
    rw [entries _ (dirIdx_ne_kernel region i), kernel.table]
  · intro other above low
    rw [walks]
    exact kernel.mapped other above low

omit region in
theorem added_table_mapsOnly {k : Machine σ} (outside : f ∉ Set.range pageTabs) (only : MapsOnly A m' k pd addr) :
    MapsOnly A m k pd addr := by
  have entry := (addTable_adds formed live here adds).1
  have walks := addTable_walk formed live kernel here absent adds outside
  have supply : m'.frames = frames := by rw [adds]; rfl
  constructor
  · obtain ⟨e, t, found, fresh, zero, bits⟩ := only.page
    rw [entry] at bits
    refine ⟨e, t, found, fun before => fresh ?_, zero, bits⟩
    rw [supply, A.alloc_iff here]
    exact .inr before
  · exact fun other elsewhere => (only.others other elsewhere).trans (walks other)
  · exact only.faultable

end

end

section
variable {errorCode : BitVec 32} (code : errorCode &&& 0x9 = 0)
include code

theorem pageFaultHandler_present (present : (m.mem pd (dirIdx addr)).present = true) :
    pageFaultHandler A m pd addr errorCode = demandPage A m (m.mem pd (dirIdx addr)).high (tabIdx addr) := by
  have table : demandTable A m pd (dirIdx addr) = .ok m := by simp [demandTable, present]
  rw [pageFaultHandler, if_neg (not_not.mpr code), table, ok_bind, present]
  rfl

theorem pageFaultHandler_absent (formed : Formed A m) (live : pd ∈ m.spaces)
    (absent : (m.mem pd (dirIdx addr)).present = false) (demand : (m.mem pd (dirIdx addr)).dirAlloc = true) :
    pageFaultHandler A m pd addr errorCode = .ok m' ↔ ∃ f frames k, A.allocPage m.frames = some (f, frames) ∧
      k = addTable { m with frames := frames, held := insert f m.held } pd (dirIdx addr) f ∧
      pageFaultHandler A k pd addr errorCode = .ok m' := by
  have handler : pageFaultHandler A m pd addr errorCode = (do
      let k ← demandTable A m pd (dirIdx addr)
      if !(k.mem pd (dirIdx addr)).present then .error .notPresent
      else demandPage A k (k.mem pd (dirIdx addr)).high (tabIdx addr)) := by
    rw [pageFaultHandler, if_neg (not_not.mpr code)]
  have later {f : Frame} {frames : σ} {k : Machine σ} (here : A.allocPage m.frames = some (f, frames))
      (adds : k = addTable { m with frames := frames, held := insert f m.held } pd (dirIdx addr) f) :
      (k.mem pd (dirIdx addr)).present = true := by
    rw [(addTable_adds formed live here adds).1]
    rfl
  constructor
  · intro call
    rw [handler] at call
    obtain ⟨k, first, last⟩ := bind_ok call
    obtain ⟨f, frames, here, adds⟩ := (demandTable_ok_iff absent demand).mp first
    have present := later here adds
    rw [present] at last
    refine ⟨f, frames, k, here, adds, ?_⟩
    rw [pageFaultHandler_present code present]
    exact last
  · rintro ⟨f, frames, _, here, adds, call⟩
    have present := later here adds
    rw [pageFaultHandler_present code present] at call
    rw [handler, (demandTable_ok_iff absent demand).mpr ⟨f, frames, here, adds⟩, ok_bind, present]
    exact call

theorem pageFaultHandler_serves (fault : Faultable m.mem pd addr) (present : (m.mem pd (dirIdx addr)).present = true) :
    pageFaultHandler A m pd addr errorCode = .ok m' ↔ ∃ f frames, A.allocPage m.frames = some (f, frames) ∧
      m' = addPage { m with frames := frames, held := insert f m.held } (m.mem pd (dirIdx addr)).high
        (tabIdx addr) f := by
  rw [pageFaultHandler_present code present]
  exact demandPage_ok_iff (walk_eq_none.mp fault.absent present) (fault.page present)

end

theorem kernel_mapped {boot : Machine σ} (apart : ∀ i, pageTabs i ≠ kpagedir)
    (distinct : Function.Injective pageTabs) (static : ∀ f ∈ insert kpagedir (Set.range pageTabs), Reserved A f)
    (initial : (paging A kpagedir).initial boot)
    (run : ((paging A kpagedir).restrict (spares (insert kpagedir (Set.range pageTabs)))).LeadsTo
      (initPaging kpagedir pageTabs boot) m) (live : d ∈ m.spaces) : KernelMapped pageTabs m d := by
  have shared := shared_run static (Set.mem_insert kpagedir _) (initPaging_initial initial) run
  constructor
  · intro i held
    exact shared.formed.supplied _ held (static _ (.inr (Set.mem_range_self i)))
  · intro i
    rw [shared.low d live _ (Nat.not_le.mpr i.isLt)]
    exact initPaging_table apart distinct i
  · intro _ above low absent
    have identity := kernel_identity apart distinct static initial run live low
    rw [absent, if_neg (Nat.not_lt.mpr above)] at identity
    cases identity

end

def crowded : Machine { c : Mem.Client // Mem.Invariant 0x100000 0x340000 c } :=
  initPaging 0x100 (fun i => ⟨0x101 + i.val, by have := i.isLt; unfold identityLen at this; omega⟩)
    { frames := ⟨⟨Mem.memInit 0x100000 0x340000, ∅⟩, Mem.invariant_initial (by decide) (by decide)⟩
      mem := fun _ _ => ⟨fun _ => true, 0⟩
      held := ∅
      spaces := ∅
      remapped := ∅ }

end Petix.Proof.Paging
