import Mathlib.Logic.Relation

namespace Petix.Library

structure System (State Label : Type*) where
  initial : State → Prop
  step : State → Label → State → Prop

namespace System

variable {State Label : Type*}
variable {sys : System State Label} {s s' : State} {next : State → Label → Option State} {labels : List Label}
variable {guard : State → Label → Prop}

inductive Reachable (sys : System State Label) : State → Prop
  | initial {s : State} : sys.initial s → Reachable sys s
  | next {s s' : State} {a : Label} : Reachable sys s → sys.step s a s' → Reachable sys s'

def LeadsTo (sys : System State Label) : State → State → Prop := Relation.ReflTransGen fun s s' => ∃ a, sys.step s a s'

theorem Reachable.leadsTo (reachable : sys.Reachable s) (run : sys.LeadsTo s s') : sys.Reachable s' := by
  induction run with
  | refl => exact reachable
  | tail _ last ih =>
    obtain ⟨a, step⟩ := last
    exact ih.next step

def restrict (sys : System State Label) (guard : State → Label → Prop) : System State Label where
  initial := sys.initial
  step s a s' := guard s a ∧ sys.step s a s'

theorem Reachable.invariant {inv : State → Prop}
    (base : ∀ s, sys.initial s → inv s)
    (preserved : ∀ s a s', inv s → sys.step s a s' → inv s') {s : State} (reachable : sys.Reachable s) : inv s := by
  induction reachable with
  | initial start => exact base _ start
  | next _ action ih => exact preserved _ _ _ ih action

theorem leadsTo_run (sound : ∀ a ∈ labels, ∀ s s', next s a = some s' → sys.step s a s')
    (computed : labels.foldlM next s = some s') : sys.LeadsTo s s' := by
  induction labels generalizing s with
  | nil =>
    cases computed
    exact .refl
  | cons a labels ih =>
    obtain ⟨middle, first, rest⟩ := Option.bind_eq_some_iff.mp computed
    have step := sound a (.head _) s middle first
    exact .head ⟨a, step⟩ (ih (fun b later => sound b (.tail _ later)) rest)

theorem Reachable.run (sound : ∀ s a s', next s a = some s' → sys.step s a s') (reachable : sys.Reachable s)
    (computed : labels.foldlM next s = some s') : sys.Reachable s' :=
  reachable.leadsTo (leadsTo_run (fun a _ s => sound s a) computed)

theorem LeadsTo.unrestrict (run : (sys.restrict guard).LeadsTo s s') : sys.LeadsTo s s' := by
  induction run with
  | refl => exact .refl
  | tail _ last ih =>
    obtain ⟨a, -, step⟩ := last
    exact ih.tail ⟨a, step⟩

theorem Reachable.unrestrict (reachable : (sys.restrict guard).Reachable s) : sys.Reachable s := by
  induction reachable with
  | initial start => exact .initial start
  | next _ action ih => exact .next ih action.2

theorem leadsTo_run_restrict (sound : ∀ s a s', next s a = some s' → sys.step s a s')
    (allowed : ∀ a ∈ labels, ∀ s, guard s a)
    (computed : labels.foldlM next s = some s') : (sys.restrict guard).LeadsTo s s' :=
  leadsTo_run (fun a here s s' step => ⟨allowed a here s, sound s a s' step⟩) computed

theorem leadsTo_run_guarded [∀ s a, Decidable (guard s a)] (sound : ∀ s a s', next s a = some s' → sys.step s a s')
    (computed : labels.foldlM (fun s a => if guard s a then next s a else none) s = some s') :
    (sys.restrict guard).LeadsTo s s' := by
  apply leadsTo_run _ computed
  intro a _ s s' step
  split at step
  · rename_i allowed
    exact ⟨allowed, sound s a s' step⟩
  · cases step

end System
end Petix.Library
