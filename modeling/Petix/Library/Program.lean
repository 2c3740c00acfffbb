import Petix.Library.Transition

/-! # Programs among others -/

namespace Petix.Library

inductive Program (Request : Type) (Reply : Request → Type) (α : Type) where
  | ret (a : α)
  | fail
  | call (request : Request) (next : Reply request → Program Request Reply α)

namespace Program

variable {Request : Type} {Reply : Request → Type} {α β S : Type}
variable {prog prog' : Program Request Reply α} {f : α → Program Request Reply β}

def bind : Program Request Reply α → (α → Program Request Reply β) → Program Request Reply β
  | .ret a, f => f a
  | .fail, _ => .fail
  | .call request next, f => .call request fun reply => (next reply).bind f

instance : Monad (Program Request Reply) where
  pure := .ret
  bind := bind

def Ended : Program Request Reply α → Prop
  | .call _ _ => False
  | _ => True

def Endless : Program Request Reply α → Prop
  | .ret _ => False
  | .fail => True
  | .call _ next => ∀ reply, (next reply).Endless

theorem endless_bind (rest : ∀ a, (f a).Endless) : (prog >>= f).Endless := by
  induction prog with
  | ret a => exact rest a
  | fail => trivial
  | call request next ih => exact ih

end Program

structure Setting (S Request : Type) (Reply : Request → Type) where
  rely : S → S → Prop
  performs : (request : Request) → S → Option (Reply request) → S → Prop

namespace Setting

variable {Request : Type} {Reply : Request → Type} {α β S : Type}

section
variable (setting : Setting S Request Reply)

def Stable (inv : S → Prop) : Prop := ∀ s s', inv s → setting.rely s s' → inv s'

def Waits (request : Request) (s s' : S) : Prop := setting.rely s s' ∨ setting.performs request s none s'

/-- Whenever the program returns from here on, `post` holds, and `crash` when it fails. -/
def Safe (post : α → S → Prop) (crash : S → Prop) : Program Request Reply α → S → Prop
  | .ret a, s => ∀ s', Relation.ReflTransGen setting.rely s s' → post a s'
  | .fail, s => ∀ s', Relation.ReflTransGen setting.rely s s' → crash s'
  | .call request next, s => ∀ s', Relation.ReflTransGen (setting.Waits request) s s' →
      ∀ reply s'', setting.performs request s' (some reply) s'' → Safe post crash (next reply) s''

end

variable {setting : Setting S Request Reply} {post : α → S → Prop} {crash : S → Prop} {inv : S → Prop} {s s' : S}

section
variable (stable : setting.Stable inv)
include stable

theorem Stable.run (holds : inv s) (run : Relation.ReflTransGen setting.rely s s') :
    inv s' := by
  induction run with
  | refl => exact holds
  | tail _ last ih => exact stable _ _ ih last

theorem safe_ret {a : α} (holds : inv s) (result : ∀ s, inv s → post a s) :
    setting.Safe post crash (.ret a) s :=
  fun s' run => result s' (stable.run holds run)

theorem safe_fail (holds : inv s) (result : ∀ s, inv s → crash s) :
    setting.Safe post crash (.fail : Program Request Reply α) s :=
  fun s' run => result s' (stable.run holds run)

theorem safe_call {request : Request} {next : Reply request → Program Request Reply α}
    (waits : ∀ s s', inv s → setting.performs request s none s' → inv s') (holds : inv s)
    (done : ∀ s s' reply, inv s → setting.performs request s (some reply) s' →
      setting.Safe post crash (next reply) s') : setting.Safe post crash (.call request next) s := by
  intro s' run reply s''
  apply done s' s'' reply
  induction run with
  | refl => exact holds
  | tail _ step ih => exact step.elim (stable _ _ ih) (waits _ _ ih)

end

theorem Safe.bind {post' : β → S → Prop}
    (safe : setting.Safe (fun a s => setting.Safe post' crash (f a) s) crash prog s) :
    setting.Safe post' crash (prog >>= f) s := by
  induction prog generalizing s with
  | ret a => exact safe s .refl
  | fail => exact safe
  | call request next ih =>
    intro s' run reply s'' last
    exact ih reply (safe s' run reply s'' last)

theorem Safe.rely (safe : setting.Safe post crash prog s) (step : setting.rely s s') :
    setting.Safe post crash prog s' := by
  cases prog with
  | ret a => exact fun s'' run => safe s'' (.head step run)
  | fail => exact fun s'' run => safe s'' (.head step run)
  | call request next => exact fun s'' run => safe s'' (.head (.inl step) run)

theorem safe_endless (endless : prog.Endless) : setting.Safe post (fun _ => True) prog s := by
  induction prog generalizing s with
  | ret a => exact endless.elim
  | fail => exact fun _ _ => trivial
  | call request next ih => exact fun _ _ reply _ _ => ih reply (endless reply)

inductive Follows (setting : Setting S Request Reply) (s s' : S) (prog : Program Request Reply α) :
    Program Request Reply α → Prop
  | other : setting.rely s s' → Follows setting s s' prog prog
  | waits {request : Request} {next : Reply request → Program Request Reply α} : prog = .call request next →
      setting.performs request s none s' → Follows setting s s' prog prog
  | done {request : Request} {next : Reply request → Program Request Reply α} {reply : Reply request} :
      prog = .call request next → setting.performs request s (some reply) s' → Follows setting s s' prog (next reply)

theorem Safe.follows (safe : setting.Safe post crash prog s)
    (step : setting.Follows s s' prog prog') : setting.Safe post crash prog' s' := by
  cases step with
  | other step => exact safe.rely step
  | waits shape step =>
    subst shape
    exact fun s'' run => safe s'' (.head (.inr step) run)
  | done shape step =>
    subst shape
    exact safe s .refl _ s' step

theorem Safe.run {C Label : Type*} {sys : System C Label} {view : C → S}
    {program : C → Option (Program Request Reply α)}
    (follows : ∀ c l c' prog', sys.step c l c' → program c' = some prog' →
      ∃ prog, program c = some prog ∧ setting.Follows (view c) (view c') prog prog')
    {c c' : C} (safe : setting.Safe post crash prog (view c))
    (start : program c = some prog) (run : sys.LeadsTo c c') (here : program c' = some prog') :
    setting.Safe post crash prog' (view c') := by
  induction run generalizing prog' with
  | refl =>
    cases start.symm.trans here
    exact safe
  | tail _ last ih =>
    obtain ⟨label, step⟩ := last
    obtain ⟨_, before, goes⟩ := follows _ label _ prog' step here
    exact (ih before).follows goes

end Setting
end Petix.Library
