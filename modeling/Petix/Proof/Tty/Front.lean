import Petix.Library.Result
import Petix.Spec.Tty

namespace Petix.Proof.Tty
open Library Kernel.Tty Spec.Tty

variable {t t' : PetixTty} {count : Nat}
variable {early : List Seq}

inductive Alike : Session → Session → Prop
  | same (s : Session) : Alike s s
  | loop (t : PetixTty) (count : Nat) {copied : List Byte} (some : copied ≠ []) (a b : Byte)
      (log : List (Int × List Byte)) : Alike ⟨t, .loop count copied a, log⟩ ⟨t, .loop count copied b, log⟩
  | waiting (t : PetixTty) (count : Nat) {copied : List Byte} (some : copied ≠ []) (a b : Byte)
      (log : List (Int × List Byte)) : Alike ⟨t, .waiting count copied a, log⟩ ⟨t, .waiting count copied b, log⟩

theorem Alike.observed {s r : Session} (alike : Alike s r) : (s.tty, s.log) = (r.tty, r.log) := by
  cases alike <;> rfl

theorem readPass_alike {copied : List Byte} (some : copied ++ (copySection t count).2 ≠ []) (a b : Byte)
    (log : List (Int × List Byte)) : Alike (readPass ⟨t, .loop count copied a, log⟩ count copied a)
      (readPass ⟨t, .loop count copied b, log⟩ count copied b) := by
  have last : (copied ++ (copySection t count).2).getLast?.getD a =
      (copied ++ (copySection t count).2).getLast?.getD b := by
    rw [List.getLast?_eq_some_getLast some]
    rfl
  unfold readPass
  dsimp only
  rw [last]
  split
  · exact .same _
  · split
    · exact .waiting _ _ some a b log
    · exact .same _

theorem Alike.next {s r : Session} (alike : Alike s r) (e : Event) : Option.Rel Alike (next s e) (next r e) := by
  have refl : ∀ o : Option Session, Option.Rel Alike o o := by
    intro o
    cases o with
    | none => exact .none
    | some s => exact .some (.same s)
  cases alike with
  | same s => exact refl _
  | loop t count copied a b log =>
    cases e with
    | input seq =>
      simp only [Kernel.Tty.next]
      split
      · exact .some (.loop _ _ copied a b log)
      · exact .none
    | pass => exact .some (readPass_alike (by simp [copied]) a b log)
    | _ => exact .none
  | waiting t count copied a b log =>
    cases e with
    | input seq =>
      simp only [Kernel.Tty.next]
      split
      · exact .some (.waiting _ _ copied a b log)
      · exact .none
    | wake => exact .some (.loop _ _ copied a b log)
    | _ => exact .none

theorem Alike.run {s r : Session} (alike : Alike s r) (events : List Event) :
    Option.Rel Alike (events.foldlM Kernel.Tty.next s) (events.foldlM Kernel.Tty.next r) := by
  induction events generalizing s r with
  | nil => exact .some alike
  | cons e events ih =>
    rw [List.foldlM_cons, List.foldlM_cons]
    have after := alike.next e
    generalize Kernel.Tty.next s e = s' at after ⊢
    generalize Kernel.Tty.next r e = r' at after ⊢
    cases after with
    | none => exact .none
    | some after => exact ih after

theorem copySection_some (within : t.fbase < ttyBuffLen) (unread : t.fbase ≠ t.lbase) (wanted : 0 < count) :
    (copySection t count).2 ≠ [] := by
  rw [← List.length_pos_iff]
  unfold copySection
  split
  · simp only [PetixTty.slice, List.length_map, List.length_range]
    omega
  · rw [if_pos (by omega)]
    simp only [PetixTty.slice, List.length_append, List.length_map, List.length_range]
    omega

theorem inputs_run (arrived : early.foldlM petixTtyInputSeq t = .ok t') (phase : Phase)
    (log : List (Int × List Byte)) : (early.map .input).foldlM next ⟨t, phase, log⟩ = some ⟨t', phase, log⟩ := by
  induction early generalizing t with
  | nil =>
    cases arrived
    rfl
  | cons seq early ih =>
    obtain ⟨_, run, arrived⟩ := Result.bind_ok arrived
    rw [List.map_cons, List.foldlM_cons]
    simp only [Kernel.Tty.next, run]
    exact ih arrived

theorem readOutcome_eq (wanted : 0 < count) (arrived : early.foldlM petixTtyInputSeq t = .ok t')
    (front : Byte) (events : List Event) : readOutcome t count front early events =
      (events.foldlM next (readPass ⟨t', .loop count [] front, []⟩ count [] front)).map fun s => (s.tty, s.log) := by
  rw [readOutcome, List.foldlM_cons]
  simp only [Kernel.Tty.next, if_pos wanted, Option.bind_eq_bind, Option.bind_some, List.foldlM_append,
    inputs_run arrived, List.foldlM_cons]

theorem read_independent_iff {early : List Seq} (wanted : 0 < count)
    (arrived : early.foldlM petixTtyInputSeq t = .ok t') (within : t'.fbase < ttyBuffLen) :
    (∀ a b events, readOutcome t count a early events = readOutcome t count b early events) ↔ t'.fbase ≠ t'.lbase := by
  simp only [readOutcome_eq wanted arrived]
  constructor
  · intro independent _
    have outcome : ∀ front, readPass ⟨t', .loop count [] front, []⟩ count [] front =
        if front = sendChar then ⟨t', .idle, [(-1, [])]⟩ else ⟨t', .waiting count [] front, []⟩ := by
      intro _
      have nothing : copySection t' count = (t', []) := by rw [copySection, if_neg (by omega), if_neg (by omega)]
      simp [readPass, nothing, wanted]
    have same := independent sendChar 0#8 []
    rw [outcome, outcome, if_pos rfl, if_neg (by decide)] at same
    simp at same
  · intro unread a b events
    have some : [] ++ (copySection t' count).2 ≠ [] := copySection_some within unread wanted
    have alike := (readPass_alike some a b []).run events
    generalize events.foldlM next _ = s at alike ⊢
    generalize events.foldlM next _ = r at alike ⊢
    cases alike with
    | none => rfl
    | some alike => exact congrArg Option.some alike.observed

theorem read_independent_line :
    (readOutcome petixTtyInit 2 sendChar [⟨10#8, []⟩] []).map Prod.snd = some [(1, [10#8, sendChar])] ∧
      readOutcome petixTtyInit 2 sendChar [⟨10#8, []⟩] [] = readOutcome petixTtyInit 2 0#8 [⟨10#8, []⟩] [] :=
  ⟨rfl, (read_independent_iff (by decide) rfl (by decide)).mpr (by decide) sendChar 0#8 []⟩

theorem read_before_input_ends : (readOutcome petixTtyInit 2 sendChar [] []).map Prod.snd = some [(-1, [])] ∧
    (readOutcome petixTtyInit 2 0#8 [] []).map Prod.snd = some [] :=
  ⟨rfl, rfl⟩

end Petix.Proof.Tty
