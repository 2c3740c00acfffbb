import Petix.Proof.Paging.Boot
import Petix.Proof.Paging.Copy
import Petix.Proof.Paging.Release

namespace Petix.Proof.Paging
open Function Library Library.Result Library.Ownership Kernel.Paging Spec.Paging

variable {σ : Type} {A : Allocator σ} {m m' k : Machine σ} {as dir d pd kpagedir f : Frame} {i j : Fin 1024}
variable {own : Place → Option Frame} {action : Action}
variable {addr : BitVec 32} {e t : Word}

section
variable (formed : Formed A m) (live : as ∈ m.spaces) (forked : Forked A m as dir k own)
include forked

theorem Forked.kept (here : f ∈ m.held) : k.mem f = m.mem f :=
  forked.grows.kept here (ne_of_mem_of_not_mem here forked.unused)

theorem Forked.tableAt_child (region : identityLen ≤ i.val) :
    tableAt (insert dir m.spaces) k.mem dir i = own (.table dir i) := by
  have copied := forked.high i region
  unfold TableCopied at copied
  split_ifs at copied with owns
  · obtain ⟨_, here, word, -⟩ := copied
    rw [here, tableAt, word]
    exact if_pos ⟨Finset.mem_insert_self dir m.spaces, region, owns⟩
  · obtain ⟨absent, -, word⟩ := copied
    rw [absent, tableAt, word]
    exact if_neg fun owned => owns owned.2.2

theorem Forked.pageAt_child (region : identityLen ≤ i.val) :
    pageAt (insert dir m.spaces) k.mem dir i j = own (.page dir i j) := by
  have table := forked.tableAt_child region
  have copied := forked.high i region
  unfold TableCopied at copied
  split_ifs at copied with owns
  · obtain ⟨_, here, -, copies⟩ := copied
    rw [pageAt_of_table (table.trans here)]
    have copy := copies j
    unfold PageCopied at copy
    split_ifs at copy with page
    · obtain ⟨_, there, word, -⟩ := copy
      rw [there, word]
      exact if_pos page
    · rw [copy.1, copy.2]
      exact if_neg page
  · rw [pageAt_of_none (table.trans copied.1), copied.2.1 j]

include formed

theorem Forked.frameAt_eq : frameAt (insert dir m.spaces) k.mem = own := by
  have tables {d : Frame} {i : Fin 1024} (other : d ≠ dir) :
      tableAt (insert dir m.spaces) k.mem d i = tableAt m.spaces m.mem d i := by
    by_cases live : d ∈ m.spaces
    · simp only [tableAt, Finset.mem_insert, or_iff_right other, forked.kept (formed.dir_held live)]
    · simp only [tableAt, Finset.mem_insert, or_iff_right other, live, false_and, if_false]
  funext p
  by_cases space : p.space = dir
  · cases p with
    | dir d =>
      obtain rfl : d = dir := space
      rw [forked.mine]
      exact frameAt_dir (Finset.mem_insert_self d m.spaces)
    | table d i =>
      obtain rfl : d = dir := space
      by_cases region : identityLen ≤ i.val
      · exact forked.tableAt_child region
      · rw [forked.lowTable i region]
        exact if_neg fun owned => region owned.2.1
    | page d i j =>
      obtain rfl : d = dir := space
      by_cases region : identityLen ≤ i.val
      · exact forked.pageAt_child region
      · rw [forked.lowPage i j region]
        exact pageAt_of_none (if_neg fun owned => region owned.2.1)
  · rw [forked.others p space]
    cases p with
    | dir d => simp only [frameAt, Finset.mem_insert, or_iff_right (show d ≠ dir from space)]
    | table d i => exact tables space
    | page d i j =>
      have other : d ≠ dir := space
      change pageAt _ _ d i j = pageAt _ _ d i j
      cases here : tableAt m.spaces m.mem d i with
      | none => rw [pageAt_of_none here, pageAt_of_none ((tables other).trans here)]
      | some tab =>
        rw [pageAt_of_table here, pageAt_of_table ((tables other).trans here), forked.kept (formed.table_held here)]

include live

theorem Forked.wellFormed : Formed A { k with spaces := insert dir k.spaces } := by
  have spaces : k.spaces = m.spaces := forked.grows.spaces
  have remapped : k.remapped = m.remapped := forked.grows.remapped
  have owners := forked.frameAt_eq formed
  constructor
  · rw [spaces, owners]
    exact forked.exact
  · exact forked.grows.marked formed.marked
  · intro f here
    by_cases before : f ∈ m.held
    · exact formed.supplied f before
    · exact forked.grows.supplied f here before
  · exact forked.grows.nonzero formed.nonzero
  · rw [spaces]
    intro d here i region
    rcases Finset.mem_insert.mp here with rfl | before
    · have copied := forked.high i region
      have parent := formed.dirs as live i region
      unfold TableCopied at copied
      split_ifs at copied
      · obtain ⟨t, -, word, -⟩ := copied
        rw [word]
        exact parent
      · rw [copied.2.2]
        exact parent
    · rw [forked.kept (formed.dir_held before)]
      exact formed.dirs d before i region
  · rw [spaces, remapped]
    intro d i tab here j
    have place : own (.table d i) = some tab := owners ▸ here
    by_cases same : d = dir
    · subst same
      have region := (tableAt_some here).2.1
      have copied := forked.high i region
      unfold TableCopied at copied
      split_ifs at copied with owns
      · obtain ⟨_, there, -, copies⟩ := copied
        cases there.symm.trans place
        have parent := formed.tabs as i _ (if_pos ⟨live, region, owns⟩) j
        have copy := copies j
        unfold PageCopied at copy
        split_ifs at copy with page
        · obtain ⟨_, -, word, -⟩ := copy
          rw [word]
          exact .inl (Bool.and_eq_true_iff.mp page).2
        · rw [copy.2]
          exact parent
      · cases copied.1.symm.trans place
    · have before : tableAt m.spaces m.mem d i = some tab := (forked.others (.table d i) same).symm.trans place
      rw [forked.kept (formed.table_held before)]
      exact formed.tabs d i tab before j

end

theorem Formed.write {page : Page} (formed : Formed A m) (free : ¬ m.IsTable f) : Formed A (m.fill f page) := by
  have dirs (d : Frame) (live : d ∈ m.spaces) : update m.mem f page d = m.mem d := by
    apply update_of_ne
    rintro rfl
    exact free ⟨d, live, .inl rfl⟩
  have tabs (d : Frame) (i : Fin 1024) (tab : Frame) (here : tableAt m.spaces m.mem d i = some tab) :
      update m.mem f page tab = m.mem tab := by
    apply update_of_ne
    rintro rfl
    obtain ⟨live, region, owns, high⟩ := tableAt_some here
    exact free ⟨d, live, .inr ⟨i, region, owns, high⟩⟩
  have same := frameAt_congr dirs tabs
  constructor
  · change Exact (frameAt m.spaces (update m.mem f page)) m.held
    rw [same]
    exact formed.exact
  · exact formed.marked
  · exact formed.supplied
  · exact formed.nonzero
  · intro d live i region
    change (update m.mem f page d i).dirAlloc = true
    rw [dirs d live]
    exact formed.dirs d live i region
  · intro d i tab here j
    have before : tableAt m.spaces m.mem d i = some tab := (congrFun same (.table d i)).symm.trans here
    change Filled m.remapped (update m.mem f page tab j)
    rw [tabs d i tab before]
    exact formed.tabs d i tab before j

theorem Formed.reframe {frames : σ} (formed : Formed A m) (marked : ∀ f ∈ m.held, A.allocated frames f) :
    Formed A { m with frames := frames } :=
  ⟨formed.exact, marked, formed.supplied, formed.nonzero, formed.dirs, formed.tabs⟩

inductive Took (A : Allocator σ) (kpagedir : Frame) (m : Machine σ) : Action → Machine σ → Prop
  | create {pd k : _} (call : createProcAddrSpace A kpagedir m = .ok (pd, k)) :
    Took A kpagedir m .create { k with spaces := insert pd k.spaces }
  | pageFault {pd linaddr errorCode k : _} (live : pd ∈ m.spaces) (region : procRegion ≤ linaddr.toNat)
      (call : pageFaultHandler A m pd linaddr errorCode = .ok k) : Took A kpagedir m (.pageFault pd linaddr errorCode) k
  | fork {as dir k own : _} (live : as ∈ m.spaces) (forked : Forked A m as dir k own) :
    Took A kpagedir m (.fork as) { k with spaces := insert dir k.spaces }
  | remap {pd as virt phys ret k : _} (live : pd ∈ m.spaces) (given : as ∈ m.spaces)
      (call : remapPageUser A m pd as virt phys = .ok (ret, k)) : Took A kpagedir m (.remap pd as virt phys) k
  | free {as k : _} (live : as ∈ m.spaces) (call : freeProcAddrSpace A m as = .ok k) :
    Took A kpagedir m (.free as) { k with spaces := k.spaces.erase as }
  | write {f page : _} (free : ¬ m.IsTable f) : Took A kpagedir m (.write f page) (m.fill f page)
  | allocOther {f frames : _} (call : A.allocPage m.frames = some (f, frames)) :
    Took A kpagedir m .allocOther { m with frames := frames }
  | freeOther {f frames : _} (other : f ∉ m.held) (call : A.freePage m.frames f = some frames) :
    Took A kpagedir m (.freeOther f) { m with frames := frames }

theorem Formed.took (formed : Formed A m) (step : (paging A kpagedir).step m action m') : Took A kpagedir m action m'
    := by
  change next A kpagedir m action = .ok (some m') at step
  cases action with
  | create =>
    obtain ⟨⟨_, _⟩, call, equal⟩ := map_ok step
    cases equal
    exact .create call
  | write f page =>
    simp only [next] at step
    split_ifs at step with free
    · cases step
    · cases step
      exact .write free
  | allocOther =>
    simp only [next] at step
    split at step
    · cases step
      exact .allocOther ‹_›
    · cases step
  | freeOther f =>
    simp only [next] at step
    split_ifs at step with mine
    · cases step
    · split at step
      · cases step
        exact .freeOther mine ‹_›
      · cases step
  | _ =>
    simp only [next] at step
    split_ifs at step with live
    · obtain ⟨_, call, equal⟩ := map_ok step
      cases equal
      first
        | exact .pageFault live.1 live.2 call
        | exact .remap live.1 live.2 call
        | exact .free live call
        | exact .fork live (forkProcAddrSpace_forked formed live call).choose_spec
    · cases step

theorem formed_step (formed : Formed A m) (step : (paging A kpagedir).step m action m') : Formed A m' := by
  cases formed.took step with
  | create call => exact createProcAddrSpace_formed formed call
  | pageFault live region call => exact (pageFaultHandler_fills formed live region call).formed
  | fork live forked => exact forked.wellFormed formed live
  | remap live given call => exact (remapPageUser_fills formed live given call).formed
  | free live call =>
    obtain ⟨_, computed, draining⟩ := freeProcAddrSpace_drains formed live
    cases computed.symm.trans call
    exact draining.formed formed
  | write free => exact formed.write free
  | allocOther call => exact formed.reframe fun g held => (A.alloc_iff call g).mpr (.inr (formed.marked g held))
  | freeOther other call =>
    exact formed.reframe fun g held => (A.free_iff call g).mpr ⟨formed.marked g held, ne_of_mem_of_not_mem held other⟩

theorem formed_initial (start : (paging A kpagedir).initial m) : Formed A m := by
  obtain ⟨held, spaces, -⟩ := start
  constructor
  · rw [held, spaces]
    exact Exact.empty fun p => frameAt_of_dead (Finset.notMem_empty _)
  · simp [held]
  · simp [held]
  · simp [held]
  · simp [spaces]
  · intro d _ _ here
    rw [spaces] at here
    exact absurd (tableAt_some here).1 (Finset.notMem_empty d)

theorem reachable_formed (reachable : (paging A kpagedir).Reachable m) : Formed A m := by
  apply reachable.invariant
  · intro m start
    exact formed_initial start
  · intro _ _ _ formed step
    exact formed_step formed step

theorem alloc_error {halt : Halt} (call : alloc A m = .error halt) : halt = .outOfPages := by
  unfold alloc at call
  split at call
  · cases call
  · cases call
    rfl

theorem demandTable_error (call : demandTable A m pd i = .error .doubleFree) : False := by
  unfold demandTable at call
  split_ifs at call
  · cases call
  · rcases bind_error call with first | ⟨_, -, last⟩
    · cases alloc_error first
    · cases last

theorem demandPage_error {tab : Frame} (call : demandPage A m tab j = .error .doubleFree) : False := by
  unfold demandPage at call
  split_ifs at call
  · cases call
  · rcases bind_error call with first | ⟨_, -, last⟩
    · cases alloc_error first
    · cases last

theorem touch_error (call : touch A m pd addr = .error .doubleFree) : False := by
  unfold touch pageFaultHandler at call
  split_ifs at call
  · cases call
  · rcases bind_error call with first | ⟨_, -, last⟩
    · exact demandTable_error first
    · split_ifs at last
      · cases last
      · exact demandPage_error last

theorem remapPageUser_error {virt phys : BitVec 32} (formed : Formed A m) (current : pd ∈ m.spaces)
    (live : as ∈ m.spaces) : remapPageUser A m pd as virt phys ≠ .error .doubleFree := by
  intro call
  unfold remapPageUser at call
  split_ifs at call with outside
  have region : procRegion ≤ virt.toNat := Nat.le_of_not_lt fun below => outside (.inl below)
  rcases bind_error call with first | ⟨_, first, call⟩
  · exact touch_error first
  have fills := touch_fills formed current region first
  rcases bind_error call with second | ⟨_, -, last⟩
  · unfold remapInto remapEntry at second
    split_ifs at second with absent absent'
    · cases second
    · cases second
    · have here := fills.formed.table (fills.spaces ▸ live) (dirIdx_region region) (by simpa using absent)
      rcases bind_error second with third | ⟨_, -, last⟩
      · unfold disownPage at third
        split_ifs at third with owns
        obtain ⟨_, ok⟩ := free_held fills.formed.marked (fills.formed.page_held here owns)
        rw [ok] at third
        cases third
      · cases last
  · cases last

theorem Formed.page_owned (formed : Formed A m) (live : d ∈ m.spaces)
    (region : procRegion ≤ addr.toNat) (here : walk m.mem d addr = some (e, t)) (owned : t.tabAlloc = true) :
    frameAt m.spaces m.mem (.page d (dirIdx addr) (tabIdx addr)) = some t.high := by
  obtain ⟨rfl, table, rfl, page⟩ := walk_some here
  have there := formed.table live (dirIdx_region region) table
  refine (pageAt_of_table there).trans (if_pos ?_)
  rw [Word.ownsPage, page, owned]
  rfl

theorem Formed.page_not_table (formed : Formed A m) (here : frameAt m.spaces m.mem (.page d i j) = some f) :
    ¬ m.IsTable f := by
  rintro ⟨_, live, rfl | ⟨_, region, owns, rfl⟩⟩
  · cases formed.exact.once here (frameAt_dir live)
  · cases formed.exact.once here (frameAt_table (if_pos ⟨live, region, owns⟩))

theorem Formed.page_or_remapped (formed : Formed A m) (live : d ∈ m.spaces)
    (region : procRegion ≤ addr.toNat) (here : walk m.mem d addr = some (e, t)) :
    frameAt m.spaces m.mem (.page d (dirIdx addr) (tabIdx addr)) = some t.high ∨ t.high ∈ m.remapped := by
  have owned := formed.page_owned live region here
  obtain ⟨rfl, table, rfl, -⟩ := walk_some here
  rcases formed.tabs _ _ _ (formed.table live (dirIdx_region region) table) (tabIdx addr) with demand | ⟨-, remapped⟩
  · exact .inl (owned demand)
  · exact .inr remapped

theorem paging_frames_exact (reachable : (paging A kpagedir).Reachable m) :
    (∀ p q f, frameAt m.spaces m.mem p = some f → frameAt m.spaces m.mem q = some f → p = q) ∧
    (∀ p f, frameAt m.spaces m.mem p = some f → A.allocated m.frames f) ∧
    (∀ f, f ∈ m.held ↔ ∃ p, frameAt m.spaces m.mem p = some f) ∧
    (∀ d ∈ m.spaces, ∀ d' ∈ m.spaces, d ≠ d' → ∀ addr addr' e e' t t',
      procRegion ≤ addr.toNat → procRegion ≤ addr'.toNat →
      walk m.mem d addr = some (e, t) → walk m.mem d' addr' = some (e', t') → t.high = t'.high → t.high ∈ m.remapped) ∧
    (∀ as ∈ m.spaces, ∃ m', freeProcAddrSpace A m as = .ok m' ∧ ∀ f,
      (f ∈ m'.held ↔ f ∈ m.held ∧ ∀ p, p.space = as → frameAt m.spaces m.mem p ≠ some f) ∧ (A.allocated m'.frames f ↔
        A.allocated m.frames f ∧ ∀ p, p.space = as → frameAt m.spaces m.mem p ≠ some f)) ∧
    ∀ pd ∈ m.spaces, ∀ as ∈ m.spaces, ∀ virt phys, remapPageUser A m pd as virt phys ≠ .error .doubleFree := by
  have formed := reachable_formed reachable
  refine ⟨fun p q f => formed.exact.once, fun p f here => formed.marked f (formed.exact.mem here),
    fun f => formed.exact.held_iff, ?_, ?_, fun pd current as live virt phys => remapPageUser_error formed current live⟩
  · intro _ live _ live' different _ _ _ _ _ _ region region' here there same
    rcases formed.page_or_remapped live region here with owned | remapped
    · rcases formed.page_or_remapped live' region' there with owned' | remapped
      · rw [← same] at owned'
        exact absurd (congrArg Place.space (formed.exact.once owned owned')) different
      · rwa [same]
    · exact remapped
  · intro _ live
    obtain ⟨m', freed, draining⟩ := freeProcAddrSpace_drains formed live
    refine ⟨m', freed, fun f => ⟨draining.held_iff formed, ?_⟩⟩
    rw [draining.marks, draining.held_iff formed]
    refine and_congr_right fun _ => ⟨fun left p space here => ?_, fun left held => ⟨held, left⟩⟩
    exact (left (formed.exact.mem here)).2 p space here

theorem paging_frames_exact_forked : ∃ m, (paging (memAllocator 0x100000 0x40000) 0x10).Reachable m ∧
      m.spaces = {0x120, 0x123} ∧ m.held = {0x120, 0x121, 0x122, 0x123, 0x124} ∧ m.remapped = {0xb8} ∧
      (∀ p q f, frameAt m.spaces m.mem p = some f → frameAt m.spaces m.mem q = some f → p = q) ∧
      ∃ m', freeProcAddrSpace (memAllocator 0x100000 0x40000) m 0x123 = .ok m' := by
  -- a process touches a page and forks; the child maps a device over its copy of the page
  have run : ([.create, .pageFault 0x120 0xC0001000#32 0, .fork 0x120,
      .remap 0x123 0x123 0xC0001000#32 0xb8000#32].foldlM (advance (memAllocator 0x100000 0x40000) 0x10) booted).map
        (fun m => (m.spaces, m.held, m.remapped)) =
      some ({0x120, 0x123}, {0x120, 0x121, 0x122, 0x123, 0x124}, {0xb8}) := by
    decide +kernel
  obtain ⟨m, computed, equal⟩ := Option.map_eq_some_iff.mp run
  simp only [Prod.mk.injEq] at equal
  obtain ⟨spaces, held, remapped⟩ := equal
  have reachable : (paging (memAllocator 0x100000 0x40000) 0x10).Reachable m :=
    System.Reachable.run (advance_sound _ _) (.initial (initPaging_initial ⟨rfl, rfl, rfl⟩)) computed
  obtain ⟨once, -, -, -, freed, -⟩ := paging_frames_exact reachable
  obtain ⟨m', freed, -⟩ := freed 0x123 (by rw [spaces]; decide)
  exact ⟨m, reachable, spaces, held, remapped, once, m', freed⟩

end Petix.Proof.Paging
