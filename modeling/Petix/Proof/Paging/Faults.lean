import Petix.Proof.Paging.Owners

namespace Petix.Proof.Paging
open Function Library Library.Result Library.Ownership Kernel.Paging Spec.Paging

variable {σ : Type} {A : Allocator σ} {m m' : Machine σ} {spaces : Finset Frame} {mem mem' : Frame → Page}
variable {d f tab pd as : Frame} {i j : Fin 1024} {w : Word} {frames : σ} {p : Place}
variable {m'' : Machine σ} {kpagedir phys : Frame} {addr : BitVec 32}

def Filled (remapped : Finset Frame) (w : Word) : Prop := w.tabAlloc = true ∨ w.present = true ∧ w.high ∈ remapped

structure Formed (A : Allocator σ) (m : Machine σ) : Prop where
  exact : Exact (frameAt m.spaces m.mem) m.held
  marked : ∀ f ∈ m.held, A.allocated m.frames f
  supplied : ∀ f ∈ m.held, ¬ Reserved A f
  nonzero : 0 ∉ m.held
  dirs : ∀ d ∈ m.spaces, ∀ i, identityLen ≤ i.val → (m.mem d i).dirAlloc = true
  tabs : ∀ d i tab, tableAt m.spaces m.mem d i = some tab → ∀ j, Filled m.remapped (m.mem tab j)

structure Allocates (A : Allocator σ) (m : Machine σ) (f : Frame) (frames : σ) : Prop where
  supplied : ¬ Reserved A f
  fresh : ¬ A.allocated m.frames f
  nonzero : f ≠ 0
  marks : ∀ g, A.allocated frames g ↔ g = f ∨ A.allocated m.frames g

theorem alloc_ok (call : alloc A m = .ok (f, m')) :
    ∃ frames, Allocates A m f frames ∧ m' = { m with frames := frames, held := insert f m.held } := by
  unfold alloc at call
  split at call
  · rename_i page frames here
    cases call
    exact ⟨frames, ⟨fun never => never _ _ here, A.fresh here, A.nonzero here, A.alloc_iff here⟩, rfl⟩
  · cases call

theorem Allocates.unused (allocates : Allocates A m f frames) (formed : Formed A m) : f ∉ m.held :=
  fun here => allocates.fresh (formed.marked f here)

section
variable (formed : Formed A m)
include formed

theorem Formed.claim {mem' : Frame → Page} {spaces' : Finset Frame}
    (allocates : Allocates A m f frames) (vacant : frameAt m.spaces m.mem p = none)
    (owned : frameAt spaces' mem' = update (frameAt m.spaces m.mem) p (some f))
    (dirs : ∀ d ∈ spaces', ∀ i, identityLen ≤ i.val → (mem' d i).dirAlloc = true)
    (tabs : ∀ d i tab, tableAt spaces' mem' d i = some tab → ∀ j, Filled m.remapped (mem' tab j)) :
    Formed A { m with frames := frames, mem := mem', held := insert f m.held, spaces := spaces' } := by
  constructor
  · rw [owned]
    exact formed.exact.insert vacant (allocates.unused formed)
  · intro g here
    rw [allocates.marks]
    exact (Finset.mem_insert.mp here).imp_right (formed.marked g)
  · intro g here
    rcases Finset.mem_insert.mp here with rfl | here
    · exact allocates.supplied
    · exact formed.supplied g here
  · intro here
    rcases Finset.mem_insert.mp here with zero | here
    · exact allocates.nonzero zero.symm
    · exact formed.nonzero here
  · exact dirs
  · exact tabs

theorem Formed.dir_held (live : d ∈ m.spaces) : d ∈ m.held := formed.exact.mem (frameAt_dir live)

theorem Formed.table_held (here : tableAt m.spaces m.mem d i = some tab) : tab ∈ m.held :=
  formed.exact.mem (frameAt_table here)

theorem Formed.page_held (here : tableAt m.spaces m.mem d i = some tab)
    (owns : (m.mem tab j).ownsPage) : (m.mem tab j).high ∈ m.held :=
  formed.exact.mem (frameAt_page ((pageAt_of_table here).trans (if_pos owns)))

theorem Formed.table (live : d ∈ m.spaces) (region : identityLen ≤ i.val)
    (present : (m.mem d i).present = true) : tableAt m.spaces m.mem d i = some (m.mem d i).high := by
  apply if_pos
  refine ⟨live, region, ?_⟩
  rw [Word.ownsTable, present, formed.dirs d live i region]
  rfl

end

structure Keeps (A : Allocator σ) (m m' : Machine σ) : Prop where
  spaces : m'.spaces = m.spaces
  reserved : ∀ f, Reserved A f → m'.mem f = m.mem f
  low : ∀ d ∈ m.spaces, ∀ i, ¬ identityLen ≤ i.val → m'.mem d i = m.mem d i

theorem Keeps.refl (m : Machine σ) : Keeps A m m := ⟨rfl, fun _ _ => rfl, fun _ _ _ _ => rfl⟩

theorem Keeps.trans (first : Keeps A m m') (second : Keeps A m' m'') : Keeps A m m'' := by
  constructor
  · exact second.spaces.trans first.spaces
  · exact fun f never => (second.reserved f never).trans (first.reserved f never)
  · intro d live i below
    rw [second.low d (first.spaces.symm ▸ live) i below, first.low d live i below]

theorem Formed.keeps (formed : Formed A m) (spaces : m'.spaces = m.spaces) (held : f ∈ m.held)
    (others : ∀ g, g ≠ f → g ∈ m.held ∨ Reserved A g → m'.mem g = m.mem g)
    (low : f ∈ m.spaces → ∀ i, ¬ identityLen ≤ i.val → m'.mem f i = m.mem f i) : Keeps A m m' := by
  refine ⟨spaces, ?_, ?_⟩
  · intro g never
    apply others g _ (.inr never)
    rintro rfl
    exact formed.supplied g held never
  · intro d live i below
    by_cases same : d = f
    · subst same
      exact low live i below
    · rw [others d same (.inl (formed.dir_held live))]

def Granted (w : Word) : Prop := w.rw = true ∧ w.user = true

theorem Granted.flags {w' : Word} (granted : Granted w) (same : w'.flags = w.flags) : Granted w' :=
  ⟨(congrFun same 1).trans granted.1, (congrFun same 2).trans granted.2⟩

structure Open (mem : Frame → Page) (d : Frame) (i : Fin 1024) : Prop where
  entry : Granted (mem d i)
  pages : (mem d i).present = true → ∀ j, (mem (mem d i).high j).present = false → Granted (mem (mem d i).high j)

theorem Open.congr (opened : Open mem d i) (entry : mem' d i = mem d i)
    (table : (mem d i).present = true → mem' (mem d i).high = mem (mem d i).high) : Open mem' d i := by
  constructor
  · rw [entry]
    exact opened.entry
  · rw [entry]
    intro present
    rw [table present]
    exact opened.pages present

def Opened (m : Machine σ) : Prop := ∀ d ∈ m.spaces, ∀ i : Fin 1024, identityLen ≤ i.val → Open m.mem d i

structure Fills (A : Allocator σ) (m m' : Machine σ) : Prop extends Keeps A m m' where
  formed : Formed A m'
  opened : Opened m → Opened m'

theorem Fills.refl (formed : Formed A m) : Fills A m m := ⟨.refl m, formed, id⟩

theorem Fills.trans (first : Fills A m m') (second : Fills A m' m'') : Fills A m m'' :=
  ⟨first.toKeeps.trans second.toKeeps, second.formed, second.opened ∘ first.opened⟩

theorem Allocates.ne {g : Frame} (allocates : Allocates A m f frames) (formed : Formed A m)
    (old : g ∈ m.held ∨ Reserved A g) : g ≠ f := by
  rintro rfl
  exact old.elim (allocates.unused formed) allocates.supplied

theorem createProcAddrSpace_ok (call : createProcAddrSpace A kpagedir m = .ok (pd, m')) :
    ∃ frames, Allocates A m pd frames ∧ m' = { m with
      frames := frames
      held := insert pd m.held
      mem := update m.mem pd fun i =>
        if identityLen ≤ i.val then blankEntry (m.mem kpagedir i) else m.mem kpagedir i } := by
  obtain ⟨⟨_, _⟩, first, last⟩ := bind_ok call
  obtain ⟨frames, allocates, rfl⟩ := alloc_ok first
  cases pure_ok last
  refine ⟨frames, allocates, ?_⟩
  simp only [Machine.fill, update_idem, update_self]

theorem createProcAddrSpace_formed (formed : Formed A m)
    (call : createProcAddrSpace A kpagedir m = .ok (pd, m')) : Formed A { m' with spaces := insert pd m'.spaces } := by
  obtain ⟨_, allocates, rfl⟩ := createProcAddrSpace_ok call
  have unused := allocates.unused formed
  have blank (i : Fin 1024) (region : identityLen ≤ i.val) (page : Page) :
      (if identityLen ≤ i.val then blankEntry (page i) else page i) = blankEntry (page i) := if_pos region
  have tables := tableAt_new formed.exact unused
    (show ∀ i : Fin 1024, identityLen ≤ i.val → Word.ownsTable
      (if identityLen ≤ i.val then blankEntry (m.mem kpagedir i) else m.mem kpagedir i) = false from
      fun i region => by rw [blank i region]; rfl)
  dsimp only
  apply formed.claim (p := .dir pd) allocates
  · exact if_neg (not_live formed.exact unused)
  · exact frameAt_new formed.exact unused fun i region => by rw [blank i region]; rfl
  · intro d live i region
    by_cases same : d = pd
    · subst same
      rw [update_self, blank i region]
      rfl
    · rw [update_of_ne same]
      exact formed.dirs d ((Finset.mem_insert.mp live).resolve_left same) i region
  · intro d i tab here j
    rw [tables] at here
    rw [update_of_ne (ne_of_mem_of_not_mem (formed.table_held here) unused)]
    exact formed.tabs d i tab here j

theorem addTable_mem (different : pd ≠ tab) : addTable m pd i tab = { m with
      mem := stored (update m.mem tab fun j => demandEntry (m.mem pd i) (zeroPage j)) pd i
        { (m.mem pd i).set 0 true with high := tab } } := by
  simp only [addTable, Machine.fill, Machine.store, stored, update_idem, update_self, update_of_ne different]

theorem tableAt_of_absent (absent : (mem d i).present = false) : tableAt spaces mem d i = none := by
  apply if_neg
  rintro ⟨-, -, owns⟩
  rw [Word.ownsTable, absent] at owns
  cases owns

theorem demandTable_fills (formed : Formed A m) (live : pd ∈ m.spaces) (region : identityLen ≤ i.val)
    (call : demandTable A m pd i = .ok m') : Fills A m m' := by
  unfold demandTable at call
  split_ifs at call with neither absent
  · obtain ⟨⟨tab, _⟩, first, last⟩ := bind_ok call
    obtain ⟨_, allocates, rfl⟩ := alloc_ok first
    cases pure_ok last
    have unused := allocates.unused formed
    have different := ne_of_mem_of_not_mem (formed.dir_held live) unused
    rw [addTable_mem different]
    simp only [Bool.and_eq_true, Bool.not_eq_true'] at absent
    have vacant : tableAt m.spaces m.mem pd i = none := tableAt_of_absent absent.1
    have same := frameAt_fill formed.exact unused fun j => demandEntry (m.mem pd i) (zeroPage j)
    have owned := frameAt_store_dir (w := { (m.mem pd i).set 0 true with high := tab })
      (same ▸ formed.exact) live region ((congrFun same (.table pd i)).trans vacant)
      (show (m.mem pd i).dirAlloc = true from absent.2) unused (by intro j; rw [update_self]; rfl)
    rw [same] at owned
    have kept (g : Frame) (held : g ∈ m.held) (ne : g ≠ pd) :
        stored (update m.mem tab fun j => demandEntry (m.mem pd i) (zeroPage j)) pd i
          { (m.mem pd i).set 0 true with high := tab } g = m.mem g := by
      rw [stored_other ne, update_of_ne (ne_of_mem_of_not_mem held unused)]
    refine ⟨formed.keeps rfl (formed.dir_held live) ?_ ?_, formed.claim (p := .table pd i) allocates vacant owned ?_ ?_, ?_⟩
    · intro _ other old
      exact (stored_other other).trans (update_of_ne (allocates.ne formed old) ..)
    · intro _ i' below
      have index : i' ≠ i := by
        rintro rfl
        exact below region
      exact (stored_index index).trans (congrFun (update_of_ne different ..) i')
    · intro d live' i' region'
      by_cases d_eq : d = pd
      · subst d_eq
        by_cases i_eq : i' = i
        · subst i_eq
          rw [stored_self]
          exact absent.2
        · rw [stored_index i_eq, update_of_ne different]
          exact formed.dirs d live i' region'
      · rw [kept d (formed.dir_held live') d_eq]
        exact formed.dirs d live' i' region'
    · intro d i' tab' here j
      have there := congrFun owned (.table d i')
      by_cases place : Place.table d i' = .table pd i
      · rw [place, update_self] at there
        cases place
        cases here.symm.trans there
        rw [stored_other different.symm, update_self]
        exact .inl rfl
      · rw [update_of_ne place] at there
        have before : tableAt m.spaces m.mem d i' = some tab' := there.symm.trans here
        rw [kept tab' (formed.table_held before) (table_ne_dir formed.exact live before)]
        exact formed.tabs d i' tab' before j
    · intro opened d live' i' region'
      have granted := (opened pd live i region).entry
      by_cases same : d = pd ∧ i' = i
      · obtain ⟨rfl, rfl⟩ := same
        dsimp only
        constructor
        · rw [stored_self]
          exact ⟨granted.1, granted.2⟩
        · rw [stored_self]
          intro _ _ _
          rw [stored_other different.symm, update_self]
          exact ⟨granted.1, granted.2⟩
      · apply (opened d live' i' region').congr
        · by_cases dir : d = pd
          · subst dir
            exact (stored_index fun index => same ⟨rfl, index⟩).trans (congrFun (update_of_ne different ..) i')
          · exact congrFun (kept d (formed.dir_held live') dir) i'
        · intro present
          have here := formed.table live' region' present
          exact kept _ (formed.table_held here) (table_ne_dir formed.exact live here)
  · cases call
    exact .refl formed

theorem addPage_mem {page : Frame} (different : tab ≠ page) : addPage m tab j page = { m with
      mem := stored (update m.mem page zeroPage) tab j
        { ((m.mem tab j).set 0 true).set 8 false with high := page } } := by
  simp only [addPage, Machine.fill, Machine.store, stored, update_of_ne different]

theorem Formed.store_tab {remapped : Finset Frame} {mem : Frame → Page} (formed : Formed A m)
    (here : tableAt m.spaces m.mem d i = some tab) (kept : ∀ g ∈ m.held, mem g = m.mem g)
    (filled : Filled remapped w) (more : m.remapped ⊆ remapped) :
    (∀ d ∈ m.spaces, ∀ i, identityLen ≤ i.val → (stored mem tab j w d i).dirAlloc = true) ∧
    ∀ d i tab', tableAt m.spaces (stored mem tab j w) d i = some tab' →
      ∀ j', Filled remapped (stored mem tab j w tab' j') := by
  have dirs (d : Frame) (live : d ∈ m.spaces) : stored mem tab j w d = m.mem d := by
    rw [stored_other (table_ne_dir formed.exact live here).symm, kept d (formed.dir_held live)]
  constructor
  · intro d live i region
    rw [dirs d live]
    exact formed.dirs d live i region
  · intro d' i' tab' there j'
    rw [tableAt_congr fun live => congrFun (dirs d' live) i'] at there
    have old : Filled remapped (m.mem tab' j') := (formed.tabs d' i' tab' there j').imp_right (And.imp_right (more ·))
    have same := kept tab' (formed.table_held there)
    by_cases tab_eq : tab' = tab
    · subst tab_eq
      by_cases j_eq : j' = j
      · subst j_eq
        rwa [stored_self]
      · rwa [stored_index j_eq, same]
    · rwa [stored_other tab_eq, same]

theorem Opened.store_tab (opened : Opened m) (formed : Formed A m) (here : tableAt m.spaces m.mem d i = some tab)
    (spaces : m'.spaces = m.spaces) (kept : ∀ g ∈ m.held, mem g = m.mem g)
    (stores : m'.mem = stored mem tab j w) (present : w.present = true) : Opened m' := by
  intro d' live i' region
  rw [spaces] at live
  rw [stores]
  obtain ⟨granted, pages⟩ := opened d' live i' region
  have entry : stored mem tab j w d' i' = m.mem d' i' := by
    rw [stored_other (table_ne_dir formed.exact live here).symm, kept d' (formed.dir_held live)]
  constructor
  · rw [entry]
    exact granted
  · rw [entry]
    intro table j' absent
    have same := kept _ (formed.table_held (formed.table live region table))
    by_cases place : (m.mem d' i').high = tab ∧ j' = j
    · rw [place.1, place.2, stored_self, present] at absent
      cases absent
    · have word : stored mem tab j w (m.mem d' i').high j' = m.mem (m.mem d' i').high j' := by
        by_cases equal : (m.mem d' i').high = tab
        · rw [equal, stored_index fun index => place ⟨equal, index⟩, ← equal, same]
        · rw [stored_other equal, same]
      rw [word] at absent ⊢
      exact pages table j' absent

theorem demandPage_fills (formed : Formed A m) (here : tableAt m.spaces m.mem d i = some tab)
    (call : demandPage A m tab j = .ok m') : Fills A m m' := by
  unfold demandPage at call
  split_ifs at call with neither absent
  · obtain ⟨⟨page, _⟩, first, last⟩ := bind_ok call
    obtain ⟨_, allocates, rfl⟩ := alloc_ok first
    cases pure_ok last
    have unused := allocates.unused formed
    rw [addPage_mem (ne_of_mem_of_not_mem (formed.table_held here) unused)]
    simp only [Bool.and_eq_true, Bool.not_eq_true'] at absent
    have vacant : frameAt m.spaces m.mem (.page d i j) = none := by
      refine (pageAt_of_table here).trans ?_
      rw [Word.ownsPage, absent.1]
      rfl
    have same := frameAt_fill formed.exact unused zeroPage
    have owned := frameAt_store_page (j := j) (w := { ((m.mem tab j).set 0 true).set 8 false with high := page })
      (same ▸ formed.exact) ((congrFun same (.table d i)).trans here)
      (show (m.mem tab j).tabAlloc = true from absent.2)
    rw [same] at owned
    have kept (g : Frame) (held : g ∈ m.held) : update m.mem page zeroPage g = m.mem g :=
      update_of_ne (ne_of_mem_of_not_mem held unused) ..
    obtain ⟨dirs, tabs⟩ := formed.store_tab here kept
      (show Filled m.remapped { ((m.mem tab j).set 0 true).set 8 false with high := page } from .inl absent.2)
      (Finset.Subset.refl _)
    refine ⟨formed.keeps rfl (formed.table_held here) ?_ ?_, formed.claim allocates vacant owned dirs tabs,
      fun opened => opened.store_tab formed here rfl kept rfl rfl⟩
    · intro _ other old
      exact (stored_other other).trans (update_of_ne (allocates.ne formed old) ..)
    · exact fun live => absurd rfl (table_ne_dir formed.exact live here)
  · cases call
    exact .refl formed

theorem dirIdx_region (region : procRegion ≤ addr.toNat) : identityLen ≤ (dirIdx addr).val := by
  simp only [procRegion, identityLen, dirIdx] at region ⊢
  omega

theorem pageFaultHandler_fills {linaddr errorCode : BitVec 32} (formed : Formed A m) (live : pd ∈ m.spaces)
    (region : procRegion ≤ linaddr.toNat) (call : pageFaultHandler A m pd linaddr errorCode = .ok m') :
    Fills A m m' := by
  unfold pageFaultHandler at call
  split_ifs at call
  obtain ⟨_, first, last⟩ := bind_ok call
  have fills := demandTable_fills formed live (dirIdx_region region) first
  split_ifs at last with absent
  have here := fills.formed.table (fills.spaces ▸ live) (dirIdx_region region) (by simpa using absent)
  exact fills.trans (demandPage_fills fills.formed here last)

theorem touch_fills (formed : Formed A m) (live : pd ∈ m.spaces)
    (region : procRegion ≤ addr.toNat) (call : touch A m pd addr = .ok m') : Fills A m m' := by
  unfold touch at call
  split_ifs at call
  · cases call
    exact .refl formed
  · exact pageFaultHandler_fills formed live region call

theorem free_ok (call : free A m f = .ok m') : ∃ frames, (∀ g, A.allocated frames g ↔ A.allocated m.frames g ∧ g ≠ f) ∧
      m' = { m with frames := frames, held := m.held.erase f } := by
  unfold free at call
  split at call
  · rename_i frames here
    cases call
    exact ⟨frames, A.free_iff here, rfl⟩
  · cases call

theorem free_held (formed : ∀ f ∈ m.held, A.allocated m.frames f) (held : f ∈ m.held) : ∃ m', free A m f = .ok m' := by
  obtain ⟨_, here⟩ := A.free_some (formed f held)
  unfold free
  rw [here]
  exact ⟨_, rfl⟩

theorem Formed.install {e : Word} {held : Finset Frame} (formed : Formed A m)
    (here : tableAt m.spaces m.mem d i = some tab) (present : e.present = true) (disowned : e.tabAlloc = false)
    (exact : Exact (update (frameAt m.spaces m.mem) (.page d i j) none) held) (fewer : held ⊆ m.held)
    (marked : ∀ f ∈ held, A.allocated frames f) : Formed A { m with
      frames := frames
      mem := stored m.mem tab j { e with high := phys }
      held := held
      remapped := insert phys m.remapped } := by
  have owns : ({ e with high := phys } : Word).ownsPage = false := by
    change (e.present && e.tabAlloc) = false
    rw [disowned, Bool.and_false]
  obtain ⟨dirs, tabs⟩ := formed.store_tab (j := j) here (fun g _ => rfl)
    (show Filled (insert phys m.remapped) { e with high := phys } from
      .inr ⟨present, Finset.mem_insert_self phys m.remapped⟩) (Finset.subset_insert phys m.remapped)
  refine ⟨?_, marked, fun f here => formed.supplied f (fewer here), fun zero => formed.nonzero (fewer zero), dirs, tabs⟩
  rw [frameAt_store_other formed.exact here owns]
  exact exact

theorem installPage_store : installPage (m.store tab j w) tab j phys = { m with
      mem := stored m.mem tab j { w with high := phys }
      remapped := insert phys m.remapped } := by
  simp only [installPage, Machine.store, Machine.fill, stored, update_self, update_idem]

theorem remapEntry_fills (formed : Formed A m) (here : tableAt m.spaces m.mem d i = some tab)
    (call : remapEntry A m tab j phys = .ok m') : Fills A m m' := by
  have keeps {k : Machine σ} {w : Word} (spaces : k.spaces = m.spaces) (mem : k.mem = stored m.mem tab j w) :
      Keeps A m k := by
    apply formed.keeps spaces (formed.table_held here)
    · intro g other _
      rw [mem, stored_other other]
    · exact fun live => absurd rfl (table_ne_dir formed.exact live here)
  unfold remapEntry at call
  split_ifs at call with absent
  have present : (m.mem tab j).present = true := by simpa using absent
  obtain ⟨_, first, last⟩ := bind_ok call
  cases pure_ok last
  unfold disownPage at first
  split_ifs at first with owns
  · obtain ⟨_, erased, last⟩ := bind_ok first
    obtain ⟨_, marks, rfl⟩ := free_ok erased
    cases pure_ok last
    rw [installPage_store]
    have owned : frameAt m.spaces m.mem (.page d i j) = some (m.mem tab j).high :=
      (pageAt_of_table here).trans (if_pos owns)
    refine ⟨keeps rfl rfl, ?_, fun opened => opened.store_tab formed here rfl (fun g _ => rfl) rfl
      (show ({ (m.mem tab j).set 9 false with high := phys } : Word).present = true from present)⟩
    apply formed.install (e := (m.mem tab j).set 9 false) here present rfl (formed.exact.erase owned)
      (Finset.erase_subset _ _)
    intro g held
    obtain ⟨different, held⟩ := Finset.mem_erase.mp held
    exact (marks g).mpr ⟨formed.marked g held, different⟩
  · cases first
    have disowned : (m.mem tab j).tabAlloc = false := by simpa [Word.ownsPage, present] using owns
    have vacant : frameAt m.spaces m.mem (.page d i j) = none := (pageAt_of_table here).trans (if_neg owns)
    refine ⟨keeps rfl rfl, ?_, fun opened => opened.store_tab formed here rfl (fun g _ => rfl) rfl
      (show ({ m.mem tab j with high := phys } : Word).present = true from present)⟩
    apply formed.install here present disowned _ (Finset.Subset.refl _) formed.marked
    rw [← vacant, update_eq_self]
    exact formed.exact

theorem remapPageUser_fills {virt phys : BitVec 32} {ret : Int} (formed : Formed A m) (current : pd ∈ m.spaces)
    (live : as ∈ m.spaces) (call : remapPageUser A m pd as virt phys = .ok (ret, m')) : Fills A m m' := by
  unfold remapPageUser at call
  split_ifs at call with outside
  · cases call
    exact .refl formed
  · have region : procRegion ≤ virt.toNat := Nat.le_of_not_lt fun below => outside (.inl below)
    obtain ⟨_, first, call⟩ := bind_ok call
    have fills := touch_fills formed current region first
    obtain ⟨_, second, last⟩ := bind_ok call
    cases pure_ok last
    unfold remapInto at second
    split_ifs at second with absent
    have here := fills.formed.table (fills.spaces ▸ live) (dirIdx_region region) (by simpa using absent)
    exact fills.trans (remapEntry_fills fills.formed here second)

end Petix.Proof.Paging
