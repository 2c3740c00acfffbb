import Mathlib.Data.List.Basic

namespace Petix.Library.Result

variable {ε α β : Type} {x : Except ε α} {b : β}
variable {f : α → Except ε β} {e : ε} {ε' : Type} {a : α} {items : List α} {start : β} {inv : Nat → β → Prop} {n : Nat}

@[simp] theorem ok_bind (a : α) (f : α → Except ε β) : (Except.ok a >>= f) = f a := rfl

theorem bind_ok (equal : (x >>= f) = .ok b) : ∃ a, x = .ok a ∧ f a = .ok b := by
  cases x with
  | error e => cases equal
  | ok a => exact ⟨a, rfl, equal⟩

theorem exists_bind_ok : (∃ b, (x >>= f) = .ok b) ↔ ∃ a, x = .ok a ∧ ∃ b, f a = .ok b := by
  constructor
  · rintro ⟨b, equal⟩
    obtain ⟨a, first, rest⟩ := bind_ok equal
    exact ⟨a, first, b, rest⟩
  · rintro ⟨_, rfl, b, rest⟩
    exact ⟨b, rest⟩

theorem bind_error (equal : (x >>= f) = .error e) :
    x = .error e ∨ ∃ a, x = .ok a ∧ f a = .error e := by
  cases x with
  | error e' =>
    cases equal
    exact .inl rfl
  | ok a => exact .inr ⟨a, rfl, equal⟩

theorem bind_ne_error (first : x ≠ .error e) (rest : ∀ a, f a ≠ .error e) :
    (x >>= f) ≠ .error e := by
  intro run
  rcases bind_error run with failed | ⟨a, -, failed⟩
  · exact first failed
  · exact rest a failed

theorem ite_ne_error {p : Prop} [Decidable p] {y : Except ε α} (yes : x ≠ .error e) (no : y ≠ .error e) :
    (if p then x else y) ≠ .error e := by
  split_ifs
  · exact yes
  · exact no

theorem mapError_ok {f : ε → ε'} (run : x.mapError f = .ok a) : x = .ok a := by
  cases x with
  | error e => cases run
  | ok b => exact congrArg Except.ok (Except.ok.inj run)

theorem mapError_error {f : ε → ε'} {e' : ε'} (run : x.mapError f = .error e') :
    ∃ e, x = .error e ∧ f e = e' := by
  cases x with
  | error e => exact ⟨e, rfl, Except.error.inj run⟩
  | ok b => cases run

theorem map_ok {f : α → β} (equal : f <$> x = .ok b) : ∃ a, x = .ok a ∧ f a = b := by
  cases x with
  | error e => cases equal
  | ok a => exact ⟨a, rfl, Except.ok.inj equal⟩

theorem pure_ok {a' : α} (equal : (pure a : Except ε α) = .ok a') : a = a' := Except.ok.inj equal

theorem ok_of_toOption (result : x.toOption = some a) : x = .ok a := by
  cases x with
  | error e => cases result
  | ok a' => exact congrArg Except.ok (Option.some.inj result)

theorem foldlM_invariant {f : β → α → Except ε β} {inv : β → Prop}
    (preserved : ∀ b a b', a ∈ items → inv b → f b a = .ok b' → inv b') {final : β} (holds : inv start)
    (run : items.foldlM f start = .ok final) : inv final := by
  induction items generalizing start with
  | nil => exact pure_ok run ▸ holds
  | cons item items ih =>
    obtain ⟨middle, first, rest⟩ := bind_ok run
    have kept := preserved start item middle (.head _) holds first
    exact ih (fun b a b' later => preserved b a b' (.tail _ later)) kept rest

theorem foldlM_error {f : β → α → Except ε β} {only : ε → Prop} {items : List α}
    (fails : ∀ b a e, f b a = .error e → only e) {start : β} {e : ε}
    (run : items.foldlM f start = .error e) : only e := by
  induction items generalizing start with
  | nil => cases run
  | cons item items ih =>
    rcases bind_error run with first | ⟨_, -, rest⟩
    · exact fails start item e first
    · exact ih rest

theorem foldlM_range_pure {m : Type → Type} [Monad m] [LawfulMonad m] {f : β → Nat → m β}
    (step : ∀ i b, i < n → inv i b → ∃ b', f b i = pure b' ∧ inv (i + 1) b')
    (holds : inv 0 start) : ∃ final, (List.range n).foldlM f start = pure final ∧ inv n final := by
  induction n with
  | zero => exact ⟨start, rfl, holds⟩
  | succ n ih =>
    obtain ⟨middle, first, reached⟩ := ih (fun i b less => step i b (by omega))
    obtain ⟨final, last, done⟩ := step n middle n.lt_succ_self reached
    refine ⟨final, ?_, done⟩
    rw [List.range_succ, List.foldlM_append, first, pure_bind, List.foldlM_cons, last, pure_bind, List.foldlM_nil]

theorem foldlM_range {f : β → Nat → Except ε β}
    (step : ∀ i b, i < n → inv i b → ∃ b', f b i = .ok b' ∧ inv (i + 1) b') (holds : inv 0 start) :
    ∃ final, (List.range n).foldlM f start = .ok final ∧ inv n final :=
  foldlM_range_pure step holds

theorem foldlM_range_some {f : β → Nat → Option β}
    (step : ∀ i b, i < n → inv i b → ∃ b', f b i = some b' ∧ inv (i + 1) b') (holds : inv 0 start) :
    ∃ final, (List.range n).foldlM f start = some final ∧ inv n final :=
  foldlM_range_pure step holds

end Petix.Library.Result
