import Petix.Proof.Paging.Faults

namespace Petix.Proof.Paging
open Function List Library Library.Result Library.Ownership Kernel.Paging Spec.Paging

variable {σ : Type} {A : Allocator σ} {m k k' k'' : Machine σ} {as dir f tab : Frame} {i j : Fin 1024}
variable {own own' : Place → Option Frame} {old new : Word} {written : Frame}
variable {frames : σ}

structure Grows (A : Allocator σ) (k k' : Machine σ) (written : Frame) : Prop where
  held : k.held ⊆ k'.held
  supplied : ∀ f ∈ k'.held, f ∉ k.held → ¬ Reserved A f
  fresh : ∀ f ∈ k'.held, f ∉ k.held → ¬ A.allocated k.frames f
  allocated : ∀ f, A.allocated k.frames f → A.allocated k'.frames f
  marked : (∀ f ∈ k.held, A.allocated k.frames f) → ∀ f ∈ k'.held, A.allocated k'.frames f
  nonzero : 0 ∉ k.held → 0 ∉ k'.held
  mem : ∀ f, f ≠ written → (f ∈ k'.held → f ∈ k.held) → k'.mem f = k.mem f
  spaces : k'.spaces = k.spaces
  remapped : k'.remapped = k.remapped

theorem Grows.refl (k : Machine σ) (written : Frame) : Grows A k k written :=
  ⟨Finset.Subset.refl _, fun _ here absent => absurd here absent, fun _ here absent => absurd here absent, fun _ => id, id, id, fun _ _ _ => rfl, rfl, rfl⟩

theorem Grows.kept (grows : Grows A k k' written) (here : f ∈ k.held) (other : f ≠ written) : k'.mem f = k.mem f :=
  grows.mem f other fun _ => here

theorem Grows.step {inner : Frame} (first : Grows A k k' written) (second : Grows A k' k'' inner)
    (scratch : inner = written ∨ inner ∈ k'.held ∧ inner ∉ k.held) : Grows A k k'' written := by
  constructor
  · exact first.held.trans second.held
  · intro f here absent
    by_cases middle : f ∈ k'.held
    · exact first.supplied f middle absent
    · exact second.supplied f here middle
  · intro f here absent
    by_cases middle : f ∈ k'.held
    · exact first.fresh f middle absent
    · exact fun allocated => second.fresh f here middle (first.allocated f allocated)
  · exact fun f allocated => second.allocated f (first.allocated f allocated)
  · exact fun marked => second.marked (first.marked marked)
  · exact fun nonzero => second.nonzero (first.nonzero nonzero)
  · intro f other old
    have outside : f ≠ inner := by
      rintro rfl
      rcases scratch with same | ⟨middle, absent⟩
      · exact other same
      · exact absent (old (second.held middle))
    rw [second.mem f outside fun here => first.held (old here), first.mem f other fun here => old (second.held here)]
  · exact second.spaces.trans first.spaces
  · exact second.remapped.trans first.remapped

theorem Grows.trans (first : Grows A k k' written) (second : Grows A k' k'' written) : Grows A k k'' written :=
  first.step second (.inl rfl)

theorem grows_alloc {mem : Frame → Page} (allocates : Allocates A k f frames) (unused : f ∉ k.held)
    (kept : ∀ g, g ≠ written → g ≠ f → mem g = k.mem g) :
    Grows A k { k with frames := frames, held := insert f k.held, mem := mem } written := by
  constructor
  · exact Finset.subset_insert f k.held
  · intro g here absent
    rw [(Finset.mem_insert.mp here).resolve_right absent]
    exact allocates.supplied
  · intro g here absent
    rw [(Finset.mem_insert.mp here).resolve_right absent]
    exact allocates.fresh
  · exact fun g allocated => (allocates.marks g).mpr (.inr allocated)
  · exact fun marked g here => (allocates.marks g).mpr ((Finset.mem_insert.mp here).imp_right (marked g))
  · intro nonzero here
    exact (Finset.mem_insert.mp here).elim (fun zero => allocates.nonzero zero.symm) nonzero
  · intro g other old
    by_cases new : g = f
    · subst new
      exact absurd (old (Finset.mem_insert_self g k.held)) unused
    · exact kept g other new
  · rfl
  · rfl

/-- The word `new` below the directory entry `i` of `dir` is a copy of the word `old`: of the page it owns there
is a copy with the contents that the page has in `m`. -/
def PageCopied (m k : Machine σ) (own : Place → Option Frame) (dir : Frame) (i j : Fin 1024) (old new : Word) : Prop :=
  if old.ownsPage then
    ∃ f, own (.page dir i j) = some f ∧ new = { old with high := f } ∧ k.mem f = m.mem old.high
  else own (.page dir i j) = none ∧ new = old

theorem PageCopied.carry {m' : Machine σ} (copied : PageCopied m k own dir i j old new)
    (same : own' (.page dir i j) = own (.page dir i j)) (source : old.ownsPage → m'.mem old.high = m.mem old.high)
    (kept : ∀ f, own (.page dir i j) = some f → k'.mem f = k.mem f) : PageCopied m' k' own' dir i j old new := by
  unfold PageCopied at copied ⊢
  rw [same]
  split_ifs at copied ⊢ with owns
  · obtain ⟨f, here, word, contents⟩ := copied
    refine ⟨f, here, word, ?_⟩
    rw [kept f here, contents, source owns]
  · exact copied

theorem copyPage_mem {page : Frame} (different : tab ≠ page) : copyPage k tab j page = { k with
      mem := stored (update k.mem page (k.mem (k.mem tab j).high)) tab j
        { k.mem tab j with high := page } } := by
  simp only [copyPage, Machine.fill, Machine.store, stored, update_of_ne different]

theorem forkEntry_copied (exact : Exact own k.held) (marked : ∀ f ∈ k.held, A.allocated k.frames f)
    (mine : own (.table dir i) = some tab) (vacant : own (.page dir i j) = none) (call : forkEntry A k tab j = .ok k') :
    ∃ own', Exact own' k'.held ∧ Grows A k k' tab ∧ (∀ p, p ≠ .page dir i j → own' p = own p) ∧
      PageCopied k k' own' dir i j (k.mem tab j) (k'.mem tab j) ∧ ∀ j', j' ≠ j → k'.mem tab j' = k.mem tab j' := by
  unfold forkEntry at call
  split_ifs at call with owns
  · obtain ⟨⟨page, _⟩, first, last⟩ := bind_ok call
    obtain ⟨_, allocates, rfl⟩ := alloc_ok first
    cases pure_ok last
    have unused : page ∉ k.held := fun here => allocates.fresh (marked page here)
    have different : tab ≠ page := ne_of_mem_of_not_mem (exact.mem mine) unused
    rw [copyPage_mem different]
    dsimp only
    refine ⟨update own (.page dir i j) (some page), exact.insert vacant unused, ?_, ?_, ?_, ?_⟩
    · apply grows_alloc allocates unused
      intro _ other new
      rw [stored_other other, update_of_ne new]
    · intro _ other
      rw [update_of_ne other]
    · rw [PageCopied, if_pos owns]
      refine ⟨page, update_self .., stored_self .., ?_⟩
      change stored _ tab j _ page = _
      rw [stored_other different.symm, update_self]
    · intro _ other
      rw [stored_index other, update_of_ne different]
  · cases call
    refine ⟨own, exact, Grows.refl k tab, fun _ _ => rfl, ?_, fun _ _ => rfl⟩
    rw [PageCopied, if_neg owns]
    exact ⟨vacant, rfl⟩

theorem forkEntries_copied (js : List (Fin 1024)) (distinct : js.Nodup) (exact : Exact own k.held)
    (marked : ∀ f ∈ k.held, A.allocated k.frames f) (mine : own (.table dir i) = some tab)
    (vacant : ∀ j ∈ js, own (.page dir i j) = none)
    (source : ∀ j ∈ js, (k.mem tab j).ownsPage → (k.mem tab j).high ∈ k.held ∧ (k.mem tab j).high ≠ tab)
    (call : js.foldlM (fun k j => forkEntry A k tab j) k = .ok k') :
    ∃ own', Exact own' k'.held ∧ Grows A k k' tab ∧ (∀ p, (∀ j ∈ js, p ≠ .page dir i j) → own' p = own p) ∧
      (∀ j ∈ js, PageCopied k k' own' dir i j (k.mem tab j) (k'.mem tab j)) ∧
      ∀ j, j ∉ js → k'.mem tab j = k.mem tab j := by
  induction js generalizing own k with
  | nil =>
    cases pure_ok call
    exact ⟨own, exact, Grows.refl _ tab, fun _ _ => rfl, by simp, fun _ _ => rfl⟩
  | cons j js ih =>
    obtain ⟨absent, distinct⟩ := nodup_cons.mp distinct
    obtain ⟨middle, first, rest⟩ := bind_ok call
    obtain ⟨own₁, exact, grows, others, copied, kept⟩ := forkEntry_copied exact marked mine
      (vacant j (.head _)) first
    have ne {j' : Fin 1024} (later : j' ∈ js) : j' ≠ j := ne_of_mem_of_not_mem later absent
    have source' (j' : Fin 1024) (later : j' ∈ js) (owns : (middle.mem tab j').ownsPage) :
        (middle.mem tab j').high ∈ middle.held ∧ (middle.mem tab j').high ≠ tab := by
      rw [kept j' (ne later)] at owns ⊢
      obtain ⟨here, other⟩ := source j' (.tail _ later) owns
      exact ⟨grows.held here, other⟩
    have vacant' (j' : Fin 1024) (later : j' ∈ js) : own₁ (.page dir i j') = none := by
      rw [others, vacant j' (.tail _ later)]
      intro same
      cases same
      exact absent later
    have mine' : own₁ (.table dir i) = some tab := (others _ (by simp)).trans mine
    obtain ⟨own', exact', grows', others', copied', kept'⟩ :=
      ih distinct exact (grows.marked marked) mine' vacant' source' rest
    have same : own' (.page dir i j) = own₁ (.page dir i j) := by
      apply others'
      intro j' later same
      cases same
      exact absent later
    refine ⟨own', exact', grows.trans grows', ?_, ?_, ?_⟩
    · intro p other
      rw [others' p fun j' later => other j' (.tail _ later), others p (other j (.head _))]
    · intro j' here
      rcases mem_cons.mp here with rfl | later
      · rw [kept' j' absent]
        apply copied.carry same (fun _ => rfl)
        intro _ here
        apply grows'.kept (exact.mem here)
        rintro rfl
        cases exact.once here mine'
      · have again := copied' j' later
        rw [kept j' (ne later)] at again
        apply again.carry rfl _ (fun _ _ => rfl)
        intro owns
        obtain ⟨here, other⟩ := source j' (.tail _ later) owns
        exact (grows.kept here other).symm
    · intro j' outside
      obtain ⟨other, outside⟩ := not_or.mp (mem_cons.not.mp outside)
      rw [kept' j' outside, kept j' other]

def TableCopied (m k : Machine σ) (own : Place → Option Frame) (as dir : Frame) (i : Fin 1024) : Prop :=
  if (m.mem as i).ownsTable then
    ∃ t, own (.table dir i) = some t ∧ k.mem dir i = { m.mem as i with high := t } ∧
      ∀ j, PageCopied m k own dir i j (m.mem (m.mem as i).high j) (k.mem t j)
  else own (.table dir i) = none ∧ (∀ j, own (.page dir i j) = none) ∧ k.mem dir i = m.mem as i

theorem TableCopied.carry (copied : TableCopied m k own as dir i) (exact : Exact own k.held)
    (mine : own (.dir dir) = some dir) (grows : Grows A k k' dir) (entry : k'.mem dir i = k.mem dir i)
    (table : own' (.table dir i) = own (.table dir i)) (pages : ∀ j, own' (.page dir i j) = own (.page dir i j)) :
    TableCopied m k' own' as dir i := by
  have kept {p : Place} {f : Frame} (here : own p = some f) (other : p ≠ .dir dir) : k'.mem f = k.mem f := by
    apply grows.kept (exact.mem here)
    rintro rfl
    exact other (exact.once here mine)
  unfold TableCopied at copied ⊢
  rw [table, entry]
  split_ifs at copied ⊢ with owns
  · obtain ⟨t, here, word, copies⟩ := copied
    refine ⟨t, here, word, fun j => ?_⟩
    rw [kept here (by simp)]
    exact (copies j).carry (pages j) (fun _ => rfl) fun f there => kept there (by simp)
  · obtain ⟨absent, vacant, same⟩ := copied
    exact ⟨absent, fun j => (pages j).trans (vacant j), same⟩

theorem copyTable_mem (dir_ne : dir ≠ tab) : copyTable k as dir i tab = { k with
      mem := stored (update k.mem tab (k.mem (k.mem as i).high)) dir i { k.mem dir i with high := tab } } := by
  simp only [copyTable, Machine.fill, Machine.store, stored, update_of_ne dir_ne]

theorem copyTable_spec (allocates : Allocates A k tab frames) (fresh : tab ∉ k.held) (dir_ne : dir ≠ tab)
    (equal : k' = copyTable { k with frames := frames, held := insert tab k.held } as dir i tab) :
    Grows A k k' dir ∧ k'.held = insert tab k.held ∧ k'.mem tab = k.mem (k.mem as i).high ∧
      k'.mem dir i = { k.mem dir i with high := tab } ∧ ∀ i', i' ≠ i → k'.mem dir i' = k.mem dir i' := by
  rw [copyTable_mem dir_ne] at equal
  subst equal
  refine ⟨?_, rfl, ?_, stored_self .., ?_⟩
  · apply grows_alloc allocates fresh
    intro _ other new
    rw [stored_other other, update_of_ne new]
  · change stored _ dir i _ tab = _
    rw [stored_other dir_ne.symm, update_self]
  · intro i' other
    change stored _ dir i _ dir i' = _
    rw [stored_index other, update_of_ne dir_ne]

section
variable (formed : Formed A m) (live : as ∈ m.spaces) (unused : dir ∉ m.held)
include formed live unused

theorem forkTable_copied (grown : Grows A m k dir) (exact : Exact own k.held)
    (mine : own (.dir dir) = some dir) (absent : own (.table dir i) = none) (vacant : ∀ j, own (.page dir i j) = none)
    (entry : k.mem dir i = m.mem as i) (region : identityLen ≤ i.val) (call : forkTable A k as dir i = .ok k') :
    ∃ own', Exact own' k'.held ∧ Grows A k k' dir ∧
      (∀ p, p ≠ .table dir i → (∀ j, p ≠ .page dir i j) → own' p = own p) ∧
      TableCopied m k' own' as dir i ∧ ∀ i', i' ≠ i → k'.mem dir i' = k.mem dir i' := by
  have source {f : Frame} (here : f ∈ m.held) : k.mem f = m.mem f := grown.kept here (ne_of_mem_of_not_mem here unused)
  have marked := grown.marked formed.marked
  unfold forkTable at call
  rw [source (formed.dir_held live)] at call
  split_ifs at call with owns
  · obtain ⟨⟨tab, _⟩, first, rest⟩ := bind_ok call
    obtain ⟨frames, allocates, rfl⟩ := alloc_ok first
    have here : tableAt m.spaces m.mem as i = some (m.mem as i).high := if_pos ⟨live, region, owns⟩
    have fresh : tab ∉ k.held := fun here => allocates.fresh (marked tab here)
    have dir_ne : dir ≠ tab := ne_of_mem_of_not_mem (exact.mem mine) fresh
    dsimp only at rest
    obtain ⟨k₁, equal⟩ : ∃ k₁, k₁ = copyTable { k with frames := frames, held := insert tab k.held } as dir i tab :=
      ⟨_, rfl⟩
    rw [← equal] at rest
    obtain ⟨grows, held, table, word, others⟩ := copyTable_spec allocates fresh dir_ne equal
    rw [source (formed.dir_held live), source (formed.table_held here)] at table
    rw [entry] at word
    have exact₁ : Exact (update own (.table dir i) (some tab)) k₁.held := held ▸ exact.insert absent fresh
    have old {j : Fin 1024} (owns : (m.mem (m.mem as i).high j).ownsPage) :
        (m.mem (m.mem as i).high j).high ∈ m.held := formed.page_held here owns
    have kept {f : Frame} (here : f ∈ m.held) : k₁.mem f = m.mem f :=
      (grows.kept (grown.held here) (ne_of_mem_of_not_mem here unused)).trans (source here)
    obtain ⟨own', exact', grows', others', copied, -⟩ := forkEntries_copied (finRange 1024)
      (nodup_finRange 1024) exact₁ (grows.marked marked) (update_self ..)
      (fun j _ => (update_of_ne (by simp) ..).trans (vacant j))
      (fun j _ owns => by
        rw [table] at owns ⊢
        exact ⟨grows.held (grown.held (old owns)), ne_of_mem_of_not_mem (grown.held (old owns)) fresh⟩) rest
    have tab_held : tab ∈ k₁.held := held ▸ Finset.mem_insert_self tab k.held
    have dir_kept : k'.mem dir = k₁.mem dir := grows'.kept (grows.held (exact.mem mine)) dir_ne
    refine ⟨own', exact', grows.step grows' (.inr ⟨tab_held, fresh⟩), ?_, ?_, ?_⟩
    · intro p table pages
      rw [others' p fun j _ => pages j, update_of_ne table]
    · rw [TableCopied, if_pos owns]
      refine ⟨tab, ?_, ?_, ?_⟩
      · rw [others' _ (by simp), update_self]
      · rw [dir_kept, word]
      · intro j
        have copy := copied j (mem_finRange j)
        rw [table] at copy
        exact copy.carry rfl (fun owns => (kept (old owns)).symm) fun _ _ => rfl
    · intro i' other
      rw [dir_kept, others i' other]
  · cases call
    refine ⟨own, exact, Grows.refl _ dir, fun _ _ _ => rfl, ?_, fun _ _ => rfl⟩
    rw [TableCopied, if_neg owns]
    exact ⟨absent, vacant, entry⟩

theorem forkTables_copied (is : List (Fin 1024)) (distinct : is.Nodup) (grown : Grows A m k dir)
    (exact : Exact own k.held) (mine : own (.dir dir) = some dir) (absent : ∀ i ∈ is, own (.table dir i) = none)
    (vacant : ∀ i ∈ is, ∀ j, own (.page dir i j) = none) (entries : ∀ i ∈ is, k.mem dir i = m.mem as i)
    (region : ∀ i ∈ is, identityLen ≤ i.val) (call : is.foldlM (fun k i => forkTable A k as dir i) k = .ok k') :
    ∃ own', Exact own' k'.held ∧ Grows A k k' dir ∧
      (∀ p, (∀ i ∈ is, p ≠ .table dir i ∧ ∀ j, p ≠ .page dir i j) → own' p = own p) ∧
      (∀ i ∈ is, TableCopied m k' own' as dir i) ∧ ∀ i, i ∉ is → k'.mem dir i = k.mem dir i := by
  induction is generalizing own k with
  | nil =>
    cases pure_ok call
    exact ⟨own, exact, Grows.refl _ dir, fun _ _ => rfl, by simp, fun _ _ => rfl⟩
  | cons i is ih =>
    obtain ⟨unseen, distinct⟩ := nodup_cons.mp distinct
    obtain ⟨middle, first, rest⟩ := bind_ok call
    obtain ⟨own₁, exact₁, grows, others, copied, kept⟩ := forkTable_copied formed live unused grown exact mine
      (absent i (.head _)) (vacant i (.head _)) (entries i (.head _))
      (region i (.head _)) first
    have mine₁ : own₁ (.dir dir) = some dir := (others _ (by simp) (by simp)).trans mine
    have absent₁ (i' : Fin 1024) (later : i' ∈ is) : own₁ (.table dir i') = none := by
      rw [others, absent i' (.tail _ later)]
      · intro same
        cases same
        exact unseen later
      · simp
    have vacant₁ (i' : Fin 1024) (later : i' ∈ is) (j : Fin 1024) : own₁ (.page dir i' j) = none := by
      rw [others, vacant i' (.tail _ later)]
      · simp
      · intro j' same
        cases same
        exact unseen later
    have entries₁ (i' : Fin 1024) (later : i' ∈ is) : middle.mem dir i' = m.mem as i' := by
      rw [kept i' (ne_of_mem_of_not_mem later unseen), entries i' (.tail _ later)]
    obtain ⟨own', exact', grows', others', copied', kept'⟩ := ih distinct (grown.trans grows) exact₁ mine₁ absent₁
      vacant₁ entries₁ (fun i' later => region i' (.tail _ later)) rest
    refine ⟨own', exact', grows.trans grows', ?_, ?_, ?_⟩
    · intro p outside
      obtain ⟨table, pages⟩ := outside i (.head _)
      rw [others' p fun i' later => outside i' (.tail _ later), others p table pages]
    · intro i' here
      rcases mem_cons.mp here with rfl | later
      · apply copied.carry exact₁ mine₁ grows' (kept' i' unseen)
        · apply others'
          intro i later
          refine ⟨?_, by simp⟩
          intro same
          cases same
          exact unseen later
        · intro _
          apply others'
          intro _ later
          refine ⟨by simp, ?_⟩
          intro _ same
          cases same
          exact unseen later
      · exact copied' i' later
    · intro i' outside
      obtain ⟨other, outside⟩ := not_or.mp (mem_cons.not.mp outside)
      rw [kept' i' outside, kept i' other]

structure Forked (A : Allocator σ) (m : Machine σ) (as dir : Frame) (k : Machine σ) (own : Place → Option Frame) :
    Prop where
  unused : dir ∉ m.held
  grows : Grows A m k dir
  exact : Exact own k.held
  mine : own (.dir dir) = some dir
  others : ∀ p, p.space ≠ dir → own p = frameAt m.spaces m.mem p
  lowTable : ∀ i, ¬ identityLen ≤ i.val → own (.table dir i) = none
  lowPage : ∀ i j, ¬ identityLen ≤ i.val → own (.page dir i j) = none
  low : ∀ i, ¬ identityLen ≤ i.val → k.mem dir i = m.mem as i
  high : ∀ i, identityLen ≤ i.val → TableCopied m k own as dir i

omit unused in
theorem forkProcAddrSpace_forked (call : forkProcAddrSpace A m as = .ok (dir, k)) : ∃ own, Forked A m as dir k own := by
  obtain ⟨⟨_, _⟩, first, rest⟩ := bind_ok call
  obtain ⟨frames, allocates, rfl⟩ := alloc_ok first
  obtain ⟨_, run, last⟩ := bind_ok rest
  cases pure_ok last
  have unused := allocates.unused formed
  have dead : dir ∉ m.spaces := not_live formed.exact unused
  have vacant (p : Place) (space : p.space = dir) : frameAt m.spaces m.mem p = none := frameAt_of_dead (space ▸ dead)
  have grows : Grows A m (Machine.fill { m with frames := frames, held := insert dir m.held } dir (m.mem as)) dir :=
    grows_alloc allocates unused fun g other _ => update_of_ne other ..
  have exact := formed.exact.insert (vacant (.dir dir) rfl) unused
  obtain ⟨own, exact, grows', others, copied, kept⟩ := forkTables_copied formed live unused dirIndices
    ((nodup_finRange 1024).filter _) grows exact (update_self ..)
    (fun i _ => (update_of_ne (by simp) ..).trans (vacant (.table dir i) rfl))
    (fun i _ j => (update_of_ne (by simp) ..).trans (vacant (.page dir i j) rfl))
    (fun i _ => congrFun (update_self ..) i) (fun i here => mem_dirIndices.mp here) run
  refine ⟨own, unused, grows.trans grows', exact, ?_, ?_, ?_, ?_, ?_, ?_⟩
  · rw [others _ (by simp), update_self]
  · intro p space
    rw [others p, update_of_ne]
    · rintro rfl
      exact space rfl
    · intro i _
      refine ⟨?_, ?_⟩
      · rintro rfl
        exact space rfl
      · rintro j rfl
        exact space rfl
  · intro i below
    rw [others, update_of_ne (by simp), vacant _ rfl]
    intro i' here
    refine ⟨?_, by simp⟩
    intro same
    cases same
    exact below (mem_dirIndices.mp here)
  · intro i _ below
    rw [others, update_of_ne (by simp), vacant _ rfl]
    intro _ here
    refine ⟨by simp, ?_⟩
    intro _ same
    cases same
    exact below (mem_dirIndices.mp here)
  · intro i below
    rw [kept i fun here => below (mem_dirIndices.mp here)]
    exact congrFun (update_self ..) i
  · exact fun i region => copied i (mem_dirIndices.mpr region)

end

end Petix.Proof.Paging
