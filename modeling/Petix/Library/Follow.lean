import Mathlib.Data.Set.Finite.Basic

/-! # Following a partial function from value to value -/

namespace Petix.Library.Follow

variable {α : Type} {next : α → Option α} {a b : α}

def follow (next : α → Option α) (a : α) : Nat → Option α
  | 0 => some a
  | n + 1 => (follow next a n).bind next

theorem follow_add (m n : Nat) : follow next a (m + n) = (follow next a m).bind (follow next · n) := by
  induction n with
  | zero => cases reached : follow next a m <;> simp [follow, reached]
  | succ n ih =>
    rw [← Nat.add_assoc, follow, ih, Option.bind_assoc]
    rfl

theorem follow_succ (n : Nat) : follow next a (n + 1) = (next a).bind (follow next · n) := by
  rw [Nat.add_comm, follow_add]
  rfl

theorem follow_none_of_le {m n : Nat} (ended : follow next a m = none) (le : m ≤ n) : follow next a n = none := by
  obtain ⟨d, rfl⟩ := Nat.exists_eq_add_of_le le
  rw [follow_add, ended]
  rfl

theorem follow_around {d : Nat} (around : follow next b d = some b) (n : Nat) : follow next b (n * d) = some b := by
  induction n with
  | zero => rw [Nat.zero_mul, follow]
  | succ n ih => rw [Nat.succ_mul, follow_add, ih, Option.bind_some, around]

theorem follow_ne_none {i j : Nat} (less : i < j) (here : follow next a i = some b) (again : follow next a j = some b)
    (n : Nat) : follow next a n ≠ none := by
  intro ended
  have around : follow next b (j - i) = some b := by
    rw [← Nat.add_sub_of_le less.le, follow_add, here] at again
    exact again
  have long : n ≤ i + n * (j - i) := (Nat.le_mul_of_pos_right n (by omega)).trans (Nat.le_add_left _ _)
  have reached : follow next a (i + n * (j - i)) = some b := by
    rw [follow_add, here, Option.bind_some, follow_around around]
  rw [follow_none_of_le ended long] at reached
  cases reached

theorem ends_iff {values : Set α} (finite : values.Finite) (within : ∀ a b, next a = some b → b ∈ values) :
    (∃ n, follow next a n = none) ↔ ¬ ∃ i j b, i < j ∧ follow next a i = some b ∧ follow next a j = some b := by
  constructor
  · rintro ⟨n, ended⟩ ⟨i, j, b, less, here, again⟩
    exact follow_ne_none less here again n ended
  · intro once
    by_contra goes
    have value (n : Nat) : ∃ b, follow next a n = some b := Option.ne_none_iff_exists'.mp fun ended => goes ⟨n, ended⟩
    choose f reached using value
    have member (n : Nat) : f (n + 1) ∈ values := by
      have step := reached (n + 1)
      rw [follow, reached n] at step
      exact within _ _ step
    -- a sequence of distinct values does not fit into a finite set
    refine Set.infinite_of_injective_forall_mem (f := fun n => f (n + 1)) ?_ member finite
    intro i j same
    have apart {m n : Nat} (same : f (m + 1) = f (n + 1)) (less : m < n) : False :=
      once ⟨m + 1, n + 1, f (m + 1), by omega, reached _, same ▸ reached _⟩
    rcases Nat.lt_trichotomy i j with less | equal | more
    · exact (apart same less).elim
    · exact equal
    · exact (apart same.symm more).elim

end Petix.Library.Follow
