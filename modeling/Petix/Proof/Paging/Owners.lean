import Petix.Library.Result
import Petix.Spec.Paging

namespace Petix.Proof.Paging
open Function Library Library.Result Library.Ownership Kernel.Paging Spec.Paging

variable {spaces held : Finset Frame} {mem mem' : Frame → Page}
variable {d f tab : Frame} {i j : Fin 1024} {w : Word}

theorem tableAt_some (here : tableAt spaces mem d i = some tab) :
    d ∈ spaces ∧ identityLen ≤ i.val ∧ (mem d i).ownsTable = true ∧ (mem d i).high = tab := by
  unfold tableAt at here
  split_ifs at here with owned
  exact ⟨owned.1, owned.2.1, owned.2.2, Option.some.inj here⟩

theorem frameAt_dir (live : d ∈ spaces) : frameAt spaces mem (.dir d) = some d := if_pos live

theorem frameAt_table (here : tableAt spaces mem d i = some tab) : frameAt spaces mem (.table d i) = some tab := here

theorem frameAt_page (here : pageAt spaces mem d i j = some f) : frameAt spaces mem (.page d i j) = some f := here

theorem pageAt_of_table (here : tableAt spaces mem d i = some tab) :
    pageAt spaces mem d i j = if (mem tab j).ownsPage then some (mem tab j).high else none := by
  rw [pageAt, here, Option.bind_some]

theorem pageAt_of_none (vacant : tableAt spaces mem d i = none) : pageAt spaces mem d i j = none := by
  rw [pageAt, vacant, Option.bind_none]

theorem mem_dirIndices : i ∈ dirIndices ↔ identityLen ≤ i.val := by simp [dirIndices]

theorem frameAt_of_dead {p : Place} (dead : p.space ∉ spaces) : frameAt spaces mem p = none := by
  have tables (i : Fin 1024) : tableAt spaces mem p.space i = none := if_neg fun owned => dead owned.1
  cases p with
  | dir d => exact if_neg dead
  | table d i => exact tables i
  | page d i j => exact pageAt_of_none (tables i)

theorem tableAt_congr (same : d ∈ spaces → mem' d i = mem d i) : tableAt spaces mem' d i = tableAt spaces mem d i := by
  unfold tableAt
  by_cases live : d ∈ spaces
  · rw [same live]
  · rw [if_neg (fun owned => live owned.1), if_neg (fun owned => live owned.1)]

theorem frameAt_congr (dirs : ∀ d ∈ spaces, mem' d = mem d)
    (tabs : ∀ d i tab, tableAt spaces mem d i = some tab → mem' tab = mem tab) :
    frameAt spaces mem' = frameAt spaces mem := by
  have tables (d : Frame) (i : Fin 1024) : tableAt spaces mem' d i = tableAt spaces mem d i :=
    tableAt_congr fun live => congrFun (dirs d live) i
  funext p
  cases p with
  | dir d => rfl
  | table d i => exact tables d i
  | page d i j =>
    change pageAt spaces mem' d i j = pageAt spaces mem d i j
    cases here : tableAt spaces mem d i with
    | none => rw [pageAt_of_none here, pageAt_of_none ((tables d i).trans here)]
    | some tab => rw [pageAt_of_table here, pageAt_of_table ((tables d i).trans here), tabs d i tab here]

section
variable (exact : Exact (frameAt spaces mem) held)
include exact

theorem frameAt_fill (unused : f ∉ held) (page : Page) :
    frameAt spaces (update mem f page) = frameAt spaces mem := by
  apply frameAt_congr
  · intro d live
    apply update_of_ne
    rintro rfl
    exact unused (exact.mem (frameAt_dir live))
  · intro _ _ _ here
    apply update_of_ne
    rintro rfl
    exact unused (exact.mem (frameAt_table here))

theorem table_ne_dir {d' : Frame} (live : d ∈ spaces)
    (here : tableAt spaces mem d' i = some tab) : tab ≠ d := by
  rintro rfl
  cases exact.once (frameAt_table here) (frameAt_dir live)

theorem table_unique {d' : Frame} {i' : Fin 1024}
    (here : tableAt spaces mem d i = some tab) (here' : tableAt spaces mem d' i' = some tab) : d = d' ∧ i = i' := by
  cases exact.once (frameAt_table here) (frameAt_table here')
  exact ⟨rfl, rfl⟩

end

section
variable {page : Page} (exact : Exact (frameAt spaces mem) held) (unused : d ∉ held)
include exact unused

theorem not_live : d ∉ spaces := fun live => unused (exact.mem (frameAt_dir live))

section
variable (blank : ∀ i : Fin 1024, identityLen ≤ i.val → (page i).ownsTable = false)
include blank

theorem tableAt_new (d' : Frame)
    (i : Fin 1024) : tableAt (insert d spaces) (update mem d page) d' i = tableAt spaces mem d' i := by
  have dead := not_live exact unused
  unfold tableAt
  by_cases same : d' = d
  · subst same
    rw [update_self, if_neg, if_neg (fun owned => dead owned.1)]
    rintro ⟨-, region, owns⟩
    rw [blank i region] at owns
    cases owns
  · simp only [update_of_ne same, Finset.mem_insert, or_iff_right same]

theorem frameAt_new :
    frameAt (insert d spaces) (update mem d page) = update (frameAt spaces mem) (.dir d) (some d) := by
  have tables := tableAt_new exact unused blank
  funext p
  cases p with
  | dir d' =>
    by_cases same : d' = d
    · subst same
      rw [update_self]
      exact frameAt_dir (Finset.mem_insert_self d' spaces)
    · rw [update_of_ne (by simpa using same)]
      simp only [frameAt, Finset.mem_insert, or_iff_right same]
  | table d' i => exact tables d' i
  | page d' i j =>
    change pageAt _ _ d' i j = pageAt spaces mem d' i j
    cases here : tableAt spaces mem d' i with
    | none => rw [pageAt_of_none here, pageAt_of_none ((tables d' i).trans here)]
    | some tab =>
      have different : tab ≠ d := fun equal => unused (equal ▸ exact.mem (frameAt_table here))
      rw [pageAt_of_table here, pageAt_of_table ((tables d' i).trans here), update_of_ne different]

end

end

def stored (mem : Frame → Page) (f : Frame) (i : Fin 1024) (w : Word) : Frame → Page :=
  update mem f (update (mem f) i w)

theorem stored_self (mem : Frame → Page) (f : Frame) (i : Fin 1024) (w : Word) : stored mem f i w f i = w := by
  rw [stored, update_self, update_self]

theorem stored_other {g : Frame} (different : g ≠ f) : stored mem f i w g = mem g := update_of_ne different ..

theorem stored_index (different : j ≠ i) : stored mem f i w f j = mem f j := by
  rw [stored, update_self, update_of_ne different]

theorem stored_elsewhere {g : Frame} (different : ¬ (g = f ∧ j = i)) : stored mem f i w g j = mem g j := by
  by_cases same : g = f
  · subst same
    exact stored_index fun index => different ⟨rfl, index⟩
  · rw [stored_other same]

section
variable (exact : Exact (frameAt spaces mem) held)
include exact

theorem frameAt_store_dir (live : d ∈ spaces) (region : identityLen ≤ i.val)
    (vacant : tableAt spaces mem d i = none) (owns : w.ownsTable = true) (outside : w.high ∉ held)
    (blank : ∀ j, (mem w.high j).ownsPage = false) :
    frameAt spaces (stored mem d i w) = update (frameAt spaces mem) (.table d i) (some w.high) := by
  have new : tableAt spaces (stored mem d i w) d i = some w.high := by
    unfold tableAt
    rw [stored_self, if_pos ⟨live, region, owns⟩]
  have other {d' : Frame} {i' : Fin 1024} (different : (d', i') ≠ (d, i)) :
      tableAt spaces (stored mem d i w) d' i' = tableAt spaces mem d' i' := by
    apply tableAt_congr
    intro _
    by_cases same : d' = d
    · subst same
      exact stored_index fun equal => different (by rw [equal])
    · rw [stored_other same]
  have fresh : w.high ≠ d := fun equal => outside (equal ▸ exact.mem (frameAt_dir live))
  funext p
  cases p with
  | dir d' => rfl
  | table d' i' =>
    by_cases same : (d', i') = (d, i)
    · cases same
      rw [update_self]
      exact new
    · rw [update_of_ne fun equal => same (by cases equal; rfl)]
      exact other same
  | page d' i' j =>
    change pageAt spaces (stored mem d i w) d' i' j = pageAt spaces mem d' i' j
    by_cases same : (d', i') = (d, i)
    · cases same
      rw [pageAt_of_table new, pageAt_of_none vacant, stored_other fresh, blank j]
      rfl
    · cases here : tableAt spaces mem d' i' with
      | none => rw [pageAt_of_none here, pageAt_of_none ((other same).trans here)]
      | some tab =>
        rw [pageAt_of_table here, pageAt_of_table ((other same).trans here),
          stored_other (table_ne_dir exact live here)]

section
variable (here : tableAt spaces mem d i = some tab)
include here

theorem frameAt_store_tab : frameAt spaces (stored mem tab j w) =
      update (frameAt spaces mem) (.page d i j) (if w.ownsPage then some w.high else none) := by
  have tables (d' : Frame) (i' : Fin 1024) : tableAt spaces (stored mem tab j w) d' i' = tableAt spaces mem d' i' := by
    apply tableAt_congr
    intro live
    rw [stored_other (table_ne_dir exact live here).symm]
  funext p
  cases p with
  | dir d' => rfl
  | table d' i' => exact tables d' i'
  | page d' i' j' =>
    by_cases same : Place.page d' i' j' = .page d i j
    · cases same
      rw [update_self]
      exact (pageAt_of_table ((tables d i).trans here)).trans (by rw [stored_self])
    · rw [update_of_ne same]
      change pageAt spaces (stored mem tab j w) d' i' j' = pageAt spaces mem d' i' j'
      cases there : tableAt spaces mem d' i' with
      | none => rw [pageAt_of_none there, pageAt_of_none ((tables d' i').trans there)]
      | some tab' =>
        rw [pageAt_of_table there, pageAt_of_table ((tables d' i').trans there)]
        by_cases equal : tab' = tab
        · subst equal
          obtain ⟨rfl, rfl⟩ := table_unique exact there here
          rw [stored_index]
          rintro rfl
          exact same rfl
        · rw [stored_other equal]

theorem frameAt_store_page (owns : w.ownsPage = true) :
    frameAt spaces (stored mem tab j w) = update (frameAt spaces mem) (.page d i j) (some w.high) := by
  rw [frameAt_store_tab exact here, if_pos owns]

theorem frameAt_store_other (owns : w.ownsPage = false) :
    frameAt spaces (stored mem tab j w) = update (frameAt spaces mem) (.page d i j) none := by
  rw [frameAt_store_tab exact here, owns]
  rfl

end

end

section
variable {addr : BitVec 32} {e t : Word} {d' : Frame}

theorem walk_some (here : walk mem d addr = some (e, t)) :
    e = mem d (dirIdx addr) ∧ e.present = true ∧ t = mem e.high (tabIdx addr) ∧ t.present = true := by
  unfold walk at here
  dsimp only at here
  split_ifs at here with table page
  cases here
  exact ⟨rfl, table, rfl, page⟩

theorem walk_of_present (table : (mem d (dirIdx addr)).present = true)
    (page : (mem (mem d (dirIdx addr)).high (tabIdx addr)).present = true) :
    walk mem d addr = some (mem d (dirIdx addr), mem (mem d (dirIdx addr)).high (tabIdx addr)) := by
  unfold walk
  rw [if_pos table, if_pos page]

theorem walk_congr (entry : mem' d' (dirIdx addr) = mem d (dirIdx addr)) (table : (mem d (dirIdx addr)).present = true →
      mem' (mem d (dirIdx addr)).high = mem (mem d (dirIdx addr)).high) :
    walk mem' d' addr = walk mem d addr ∧ flagsAt mem' d' addr = flagsAt mem d addr := by
  unfold walk flagsAt
  dsimp only
  rw [entry]
  by_cases present : (mem d (dirIdx addr)).present = true
  · rw [table present]
    exact ⟨rfl, rfl⟩
  · simp only [if_neg present, and_self]

theorem walk_isSome : (walk mem d addr).isSome = (flagsAt mem d addr).2.any (· 0) := by
  unfold walk flagsAt
  dsimp only
  by_cases table : (mem d (dirIdx addr)).present = true
  · rw [if_pos table, if_pos table]
    by_cases page : (mem (mem d (dirIdx addr)).high (tabIdx addr)).present = true
    · rw [if_pos page]
      exact page.symm
    · rw [if_neg page]
      exact (Bool.eq_false_iff.mpr page).symm
  · rw [if_neg table, if_neg table]
    rfl

theorem load_congr (same : walk mem' d' addr = walk mem d addr)
    (page : ∀ e t, walk mem d addr = some (e, t) → mem' t.high = mem t.high) : load mem' d' addr = load mem d addr := by
  unfold load
  rw [same]
  cases here : walk mem d addr with
  | none => rfl
  | some entries => rw [Option.map_some, Option.map_some, page entries.1 entries.2 here]

theorem load_of_walk {f : Frame} (here : (walk mem d addr).map (fun entries => entries.2.high) = some f) :
    load mem d addr = some (byte (mem f (wordIdx addr)) addr) := by
  obtain ⟨_, found, rfl⟩ := Option.map_eq_some_iff.mp here
  rw [load, found, Option.map_some]

theorem byte_present (aligned : addr.toNat % 4 = 0) (w : Word) : byte w addr 0 = w.present := by
  simp only [byte, aligned]
  rfl

theorem load_ne_of_present {mem' : Frame → Page} {d' f f' : Frame} (aligned : addr.toNat % 4 = 0)
    (here : (walk mem d addr).map (fun entries => entries.2.high) = some f)
    (there : (walk mem' d' addr).map (fun entries => entries.2.high) = some f')
    (differ : (mem f (wordIdx addr)).present ≠ (mem' f' (wordIdx addr)).present) :
    load mem d addr ≠ load mem' d' addr := by
  intro same
  rw [load_of_walk here, load_of_walk there] at same
  have bits := congrFun (Option.some.inj same) 0
  rw [byte_present aligned, byte_present aligned] at bits
  exact differ bits

end

end Petix.Proof.Paging
