import Mathlib.Data.List.Infix
import Mathlib.Logic.Function.Basic

/-! # Trees as maps from paths -/

namespace Petix.Library.PathTree
open List Function

variable {κ α : Type} {inner : α → Bool} {tree : List κ → Option α} {path names : List κ} {a : α}

def Closed (inner : α → Bool) (tree : List κ → Option α) : Prop :=
  ∀ path name, tree (path ++ [name]) ≠ none → ∃ a, tree path = some a ∧ inner a = true

section
variable (closed : Closed inner tree)
include closed

theorem Closed.above (below : names ≠ []) (here : tree (path ++ names) ≠ none) :
    ∃ a, tree path = some a ∧ inner a = true := by
  induction names using reverseRecOn with
  | nil => exact absurd rfl below
  | append_singleton names name ih =>
    rw [← append_assoc] at here
    obtain ⟨a, parent, isInner⟩ := closed _ _ here
    cases names with
    | nil => exact ⟨a, by rwa [append_nil] at parent, isInner⟩
    | cons first more => exact ih (cons_ne_nil first more) (by rw [parent]; exact Option.some_ne_none a)

theorem Closed.below (missing : tree path = none) (names : List κ) : tree (path ++ names) = none := by
  by_contra here
  cases names with
  | nil => exact here (by rwa [append_nil])
  | cons first more =>
    obtain ⟨a, there, -⟩ := closed.above (cons_ne_nil first more) here
    cases missing.symm.trans there

theorem Closed.insert [DecidableEq κ] (parent : tree path = some a)
    (isInner : inner a = true) {name : κ} (new : tree (path ++ [name]) = none) (b : α) :
    Closed inner (update tree (path ++ [name]) (some b)) := by
  intro q last here
  have kept {q : List κ} {a : α} (there : tree q = some a) :
      update tree (path ++ [name]) (some b) q = some a := by
    rwa [update_of_ne]
    rintro rfl
    cases new.symm.trans there
  by_cases same : q ++ [last] = path ++ [name]
  · obtain ⟨rfl, -⟩ := append_inj' same rfl
    exact ⟨a, kept parent, isInner⟩
  · rw [update_of_ne same] at here
    obtain ⟨a, there, isInner⟩ := closed q last here
    exact ⟨a, kept there, isInner⟩

inductive End where
  | found
  | missing
  | blocked

def walk (inner : α → Bool) (tree : List κ → Option α) : (path names : List κ) → End
  | _, [] => .found
  | path, name :: names =>
    if (tree path).any inner then
      if (tree (path ++ [name])).isSome then walk inner tree (path ++ [name]) names else .missing
    else .blocked

theorem walk_found_iff (start : tree path ≠ none) :
    walk inner tree path names = .found ↔ tree (path ++ names) ≠ none := by
  induction names generalizing path with
  | nil => simpa [walk] using start
  | cons name names ih =>
    have whole : path ++ name :: names = path ++ [name] ++ names := by simp
    rw [walk, whole]
    split
    case isTrue isInner =>
      split
      case isTrue next => exact ih (Option.isSome_iff_ne_none.mp next)
      case isFalse missing =>
        exact iff_of_false nofun (not_not.mpr (closed.below (Option.not_isSome_iff_eq_none.mp missing) names))
    case isFalse leaf =>
      refine iff_of_false nofun fun here => leaf ?_
      rw [← whole] at here
      obtain ⟨a, there, isInner⟩ := closed.above (cons_ne_nil name names) here
      rw [there]
      exact isInner

def Blocked (inner : α → Bool) (tree : List κ → Option α) (path names : List κ) : Prop :=
  ∃ q, q <+: names ∧ q ≠ names ∧ ∃ a, tree (path ++ q) = some a ∧ inner a = false

theorem walk_blocked_iff (start : tree path ≠ none) :
    walk inner tree path names = .blocked ↔ Blocked inner tree path names := by
  induction names generalizing path with
  | nil => simp [walk, Blocked]
  | cons name names ih =>
    obtain ⟨a, here⟩ := Option.ne_none_iff_exists'.mp start
    rw [walk, here, Option.any_some]
    cases isInner : inner a with
    | false => exact iff_of_true rfl ⟨[], List.nil_prefix, nofun, a, by rwa [append_nil], isInner⟩
    | true =>
      -- what blocks the way is not the start, so it lies below the next name
      have later : Blocked inner tree path (name :: names) ↔ Blocked inner tree (path ++ [name]) names := by
        constructor
        · rintro ⟨q, leads, proper, b, there, leaf⟩
          cases q with
          | nil =>
            rw [append_nil] at there
            cases here.symm.trans there
            cases isInner.symm.trans leaf
          | cons first q =>
            obtain ⟨rfl, leads'⟩ := cons_prefix_cons.mp leads
            refine ⟨q, leads', fun same => proper (by rw [same]), b, ?_, leaf⟩
            rwa [append_assoc, singleton_append]
        · rintro ⟨q, leads, proper, b, there, leaf⟩
          refine ⟨name :: q, cons_prefix_cons.mpr ⟨rfl, leads⟩, ?_, b, ?_, leaf⟩
          · exact fun same => proper (cons.inj same).2
          · rwa [append_assoc, singleton_append] at there
      rw [if_pos rfl, later]
      split
      case isTrue next => exact ih (Option.isSome_iff_ne_none.mp next)
      case isFalse missing =>
        refine iff_of_false nofun ?_
        rintro ⟨q, -, -, b, there, -⟩
        rw [closed.below (Option.not_isSome_iff_eq_none.mp missing)] at there
        cases there

end

end Petix.Library.PathTree
