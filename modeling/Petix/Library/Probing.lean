import Mathlib.Data.Finset.Card
import Mathlib.Data.Nat.Find
import Mathlib.Logic.Function.Basic

/-! # Open addressing with linear probing -/

namespace Petix.Library.Probing
open Function

variable {α κ : Type} {key : α → κ} {hash : κ → Nat} {n i d : Nat} {t : Nat → Option α} {k : κ} {e : α}

def spot (n h d : Nat) : Nat := (h + d) % n

theorem spot_succ (n h d : Nat) : (spot n h d + 1) % n = spot n h (d + 1) := by
  rw [spot, Nat.mod_add_mod, spot, Nat.add_assoc]

theorem exists_spot (inside : i < n) (h : Nat) : ∃ d < n, spot n h d = i := by
  refine ⟨(i + (n - h % n)) % n, Nat.mod_lt _ (by omega), ?_⟩
  have small : h % n < n := Nat.mod_lt _ (by omega)
  have whole : h % n + (i + (n - h % n)) = i + n := by omega
  rw [spot, Nat.add_mod_mod, ← Nat.mod_add_mod, whole, Nat.add_mod_right, Nat.mod_eq_of_lt inside]

structure Found (key : α → κ) (hash : κ → Nat) (n : Nat) (t : Nat → Option α) (k : κ) (i : Nat) : Prop where
  walk : ∃ d < n, spot n (hash k) d = i ∧ ∀ d' < d, ∃ e, t (spot n (hash k) d') = some e ∧ key e ≠ k
  stop : ∀ e, t i = some e → key e = k

structure Represents (key : α → κ) (hash : κ → Nat) (n : Nat) (t : Nat → Option α) (f : κ → Option α) : Prop where
  chained : ∀ i e, i < n → t i = some e →
    ∃ d < n, spot n (hash (key e)) d = i ∧ ∀ d' < d, t (spot n (hash (key e)) d') ≠ none
  once : ∀ i j e e', i < n → j < n → t i = some e → t j = some e' → key e = key e' → i = j
  stores : ∀ k e, f k = some e ↔ ∃ i < n, t i = some e ∧ key e = k

variable {f : κ → Option α}

theorem Found.inside (found : Found key hash n t k i) : i < n := by
  obtain ⟨_, _, rfl, -⟩ := found.walk
  exact Nat.mod_lt _ (by omega)

theorem Represents.lookup (table : Represents key hash n t f) (found : Found key hash n t k i) : f k = t i := by
  cases here : t i with
  | some e => exact (table.stores k e).mpr ⟨i, found.inside, here, found.stop e here⟩
  | none =>
    obtain ⟨d, -, rfl, passed⟩ := found.walk
    rw [Option.eq_none_iff_forall_ne_some]
    intro e stored
    obtain ⟨j, inside, there, rfl⟩ := (table.stores k e).mp stored
    obtain ⟨d', -, rfl, before⟩ := table.chained j e inside there
    -- the entry lies neither before the free position nor behind it
    rcases Nat.lt_trichotomy d' d with less | rfl | more
    · obtain ⟨_, same, other⟩ := passed d' less
      cases there.symm.trans same
      exact other rfl
    · cases here.symm.trans there
    · exact before d more here

theorem represents_empty (key : α → κ) (hash : κ → Nat) (n : Nat) :
    Represents key hash n (fun _ => none) (fun _ => none) where
  chained := nofun
  once := nofun
  stores := by simp

theorem Represents.put [DecidableEq κ] (table : Represents key hash n t f) (found : Found key hash n t (key e) i) :
    Represents key hash n (update t i (some e)) (update f (key e) (some e)) := by
  have filled {j : Nat} (full : t j ≠ none) : update t i (some e) j ≠ none := by
    by_cases same : j = i
    · rw [same, update_self]
      exact Option.some_ne_none e
    · rwa [update_of_ne same]
  have other {j : Nat} {e' : α} (inside : j < n) (there : t j = some e') (same : key e' = key e) : j = i := by
    have stored : f (key e) = some e' := (table.stores _ _).mpr ⟨j, inside, there, same⟩
    rw [table.lookup found] at stored
    exact table.once j i e' e' inside found.inside there stored rfl
  refine ⟨?_, ?_, ?_⟩
  · intro j e' inside there
    by_cases same : j = i
    · subst same
      rw [update_self] at there
      cases there
      obtain ⟨d, less, equal, passed⟩ := found.walk
      refine ⟨d, less, equal, fun d' before => filled ?_⟩
      obtain ⟨e', full, -⟩ := passed d' before
      simp [full]
    · rw [update_of_ne same] at there
      obtain ⟨d, less, equal, before⟩ := table.chained j e' inside there
      exact ⟨d, less, equal, fun d' earlier => filled (before d' earlier)⟩
  · intro j j' e₁ e₂ inside inside' there there' same
    by_cases first : j = i
    · by_cases second : j' = i
      · rw [first, second]
      · rw [update_of_ne second] at there'
        rw [first, update_self] at there
        cases there
        exact absurd (other inside' there' same.symm) second
    · rw [update_of_ne first] at there
      by_cases second : j' = i
      · rw [second, update_self] at there'
        cases there'
        exact absurd (other inside there same) first
      · rw [update_of_ne second] at there'
        exact table.once j j' e₁ e₂ inside inside' there there' same
  · intro k e'
    by_cases same : k = key e
    · subst same
      rw [update_self]
      constructor
      · rintro ⟨⟩
        exact ⟨i, found.inside, update_self .., rfl⟩
      · rintro ⟨j, inside, there, named⟩
        by_cases here : j = i
        · rwa [here, update_self] at there
        · rw [update_of_ne here] at there
          exact absurd (other inside there named) here
    · rw [update_of_ne same, table.stores]
      apply exists_congr
      intro j
      by_cases here : j = i
      · subst here
        rw [update_self]
        constructor
        · rintro ⟨-, there, named⟩
          exact absurd (named.symm.trans (found.stop e' there)) same
        · rintro ⟨-, ⟨⟩, named⟩
          exact absurd named.symm same
      · rw [update_of_ne here]

def occupied (n : Nat) (t : Nat → Option α) : Finset Nat := (Finset.range n).filter fun i => (t i).isSome

theorem mem_occupied : i ∈ occupied n t ↔ i < n ∧ t i ≠ none := by simp [occupied, Option.isSome_iff_ne_none]

theorem occupied_put (inside : i < n) : occupied n (update t i (some e)) = insert i (occupied n t) := by
  ext j
  rw [Finset.mem_insert, mem_occupied, mem_occupied]
  by_cases same : j = i
  · subst same
    simp [inside]
  · simp [same]

theorem card_occupied_put (inside : i < n) : (occupied n (update t i (some e))).card =
    if t i = none then (occupied n t).card + 1 else (occupied n t).card := by
  rw [occupied_put inside, Finset.card_insert_eq_ite]
  simp only [mem_occupied, inside, true_and, ite_not]

theorem exists_free (space : (occupied n t).card < n) : ∃ i < n, t i = none := by
  by_contra full
  push Not at full
  have all : occupied n t = Finset.range n := by
    ext i
    rw [mem_occupied, Finset.mem_range]
    exact and_iff_left_of_imp (full i)
  rw [all, Finset.card_range] at space
  exact lt_irrefl n space

theorem exists_found (free : ∃ i < n, t i = none) (key : α → κ) (hash : κ → Nat) (k : κ) :
    ∃ d < n, (∀ d' < d, ∃ e, t (spot n (hash k) d') = some e ∧ key e ≠ k) ∧
      ∀ e, t (spot n (hash k) d) = some e → key e = k := by
  obtain ⟨_, inside, empty⟩ := free
  obtain ⟨last, less, rfl⟩ := exists_spot inside (hash k)
  have stops : ∃ d, ∀ e, t (spot n (hash k) d) = some e → key e = k := ⟨last, by simp [empty]⟩
  classical
  refine ⟨Nat.find stops, ?_, ?_, Nat.find_spec stops⟩
  · exact lt_of_le_of_lt (Nat.find_min' stops (by simp [empty])) less
  · intro _ before
    simpa using Nat.find_min stops before

end Petix.Library.Probing
