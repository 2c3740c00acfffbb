import Mathlib.Data.Finset.Basic

/-! # Resources with one owner -/

namespace Petix.Library.Ownership
open List Function

structure Exact {P F : Type*} (own : P → Option F) (held : Finset F) : Prop where
  once : ∀ {p q f}, own p = some f → own q = some f → p = q
  held_iff : ∀ {f}, f ∈ held ↔ ∃ p, own p = some f

variable {P F : Type*} {own : P → Option F} {held : Finset F} {p : P} {f : F}
variable {gone : List P}

theorem Exact.mem (exact : Exact own held) (here : own p = some f) : f ∈ held := exact.held_iff.mpr ⟨p, here⟩

theorem Exact.empty (none : ∀ p, own p = none) : Exact own ∅ := by
  constructor
  · intro p q f here
    rw [none p] at here
    cases here
  · intro f
    constructor
    · intro here
      cases here
    · rintro ⟨p, here⟩
      rw [none p] at here
      cases here

variable [DecidableEq P] [DecidableEq F]

theorem Exact.insert (exact : Exact own held) (vacant : own p = none) (unused : f ∉ held) :
    Exact (update own p (some f)) (insert f held) := by
  have other {q g} (different : q ≠ p) (here : update own p (some f) q = some g) : own q = some g := by
    rwa [update_of_ne different] at here
  have new {g} (here : update own p (some f) p = some g) : f = g := by
    rw [update_self] at here
    exact Option.some.inj here
  constructor
  · intro q r g first second
    by_cases q_eq : q = p
    · by_cases r_eq : r = p
      · rw [q_eq, r_eq]
      · subst q_eq
        exact absurd (exact.mem (other r_eq second)) (new first ▸ unused)
    · by_cases r_eq : r = p
      · subst r_eq
        exact absurd (exact.mem (other q_eq first)) (new second ▸ unused)
      · exact exact.once (other q_eq first) (other r_eq second)
  · intro g
    rw [Finset.mem_insert, exact.held_iff]
    constructor
    · rintro (rfl | ⟨q, here⟩)
      · exact ⟨p, update_self ..⟩
      · refine ⟨q, ?_⟩
        rw [update_of_ne, here]
        rintro rfl
        rw [vacant] at here
        cases here
    · rintro ⟨q, here⟩
      by_cases q_eq : q = p
      · subst q_eq
        exact .inl (new here).symm
      · exact .inr ⟨q, other q_eq here⟩

theorem Exact.erase (exact : Exact own held) (here : own p = some f) :
    Exact (update own p none) (held.erase f) := by
  have other {q g} (there : update own p none q = some g) : q ≠ p ∧ own q = some g := by
    by_cases q_eq : q = p
    · subst q_eq
      rw [update_self] at there
      cases there
    · rw [update_of_ne q_eq] at there
      exact ⟨q_eq, there⟩
  constructor
  · intro q r g first second
    exact exact.once (other first).2 (other second).2
  · intro g
    rw [Finset.mem_erase, exact.held_iff]
    constructor
    · rintro ⟨different, q, there⟩
      refine ⟨q, ?_⟩
      rw [update_of_ne, there]
      rintro rfl
      exact different (Option.some.inj (there.symm.trans here))
    · rintro ⟨q, there⟩
      obtain ⟨q_ne, there⟩ := other there
      refine ⟨?_, q, there⟩
      rintro rfl
      exact q_ne (exact.once there here)

def without (own : P → Option F) (gone : List P) (p : P) : Option F := if p ∈ gone then none else own p

omit [DecidableEq F]

theorem without_nil : without own [] = own := by
  funext p
  exact if_neg not_mem_nil

theorem without_cons (p : P) (gone : List P) : without own (p :: gone) = without (update own p none) gone := by
  funext q
  unfold without
  by_cases later : q ∈ gone
  · rw [if_pos later, if_pos (.tail _ later)]
  · rw [if_neg later]
    by_cases same : q = p
    · subst same
      rw [if_pos (.head _), update_self]
    · rw [if_neg (by simp [same, later]), update_of_ne same]

theorem without_append (first second : List P) :
    without own (first ++ second) = without (without own first) second := by
  induction first generalizing own with
  | nil => rw [nil_append, without_nil]
  | cons p first ih => rw [cons_append, without_cons, without_cons, ih]

theorem without_of_none (vacant : ∀ p ∈ gone, own p = none) : without own gone = own := by
  funext p
  unfold without
  split_ifs with here
  · exact (vacant p here).symm
  · rfl

theorem without_of_not_mem (kept : p ∉ gone) : without own gone p = own p := if_neg kept

end Petix.Library.Ownership
