import Mathlib.Data.List.Basic

/-! # Doubly linked lists of blocks laid out in address order -/

namespace Petix.Library.BlockList

variable {α : Type*} (addr finish : α → Nat) (node node' : α → Nat → Nat → Prop)
variable {next prev limit : Nat} {l l' : List α} {b : α}

def first (tail : Nat) : List α → Nat
  | [] => tail
  | b :: _ => addr b

def last (head : Nat) : List α → Nat
  | [] => head
  | b :: rest => last (addr b) rest

def Linked (next : Nat) : List α → (prev : Nat) → Prop
  | [], _ => True
  | b :: rest, prev => node b next (first addr prev rest) ∧ Linked (addr b) rest prev

def Stacked (limit : Nat) : List α → Prop
  | [] => True
  | b :: rest => addr b < finish b ∧ finish b ≤ limit ∧ Stacked (addr b) rest

@[simp] theorem first_nil (tail : Nat) : first addr tail [] = tail := rfl

@[simp] theorem first_cons (tail : Nat) (b : α) (rest : List α) : first addr tail (b :: rest) = addr b := rfl

theorem first_append (tail : Nat) (l l' : List α) : first addr tail (l ++ l') = first addr (first addr tail l') l := by
  cases l <;> rfl

@[simp] theorem last_concat (head : Nat) (l : List α) (b : α) : last addr head (l ++ [b]) = addr b := by
  induction l generalizing head with
  | nil => rfl
  | cons c l ih => exact ih (addr c)

theorem linked_append : Linked addr node next (l ++ l') prev ↔
      Linked addr node next l (first addr prev l') ∧ Linked addr node (last addr next l) l' prev := by
  induction l generalizing next with
  | nil => simp [Linked, last]
  | cons b l ih => rw [List.cons_append, Linked, Linked, ih, first_append, last, and_assoc]

theorem last_cases (head : Nat) (l : List α) :
    l = [] ∧ last addr head l = head ∨ ∃ a ∈ l, last addr head l = addr a := by
  rcases List.eq_nil_or_concat' l with rfl | ⟨l, a, rfl⟩
  · exact .inl ⟨rfl, rfl⟩
  · exact .inr ⟨a, by simp, last_concat addr head l a⟩

variable {addr finish node node'}

theorem first_replace {x y : Nat} (other : ∀ c ∈ l, addr c ≠ x) :
    first addr y l = if x = first addr x l then y else first addr x l := by
  cases l with
  | nil => simp
  | cons b l => rw [first_cons, first_cons, if_neg (other b (.head _)).symm]

theorem last_of_getLast? (head : Nat) {a : α} (member : a ∈ l.getLast?) : last addr head l = addr a := by
  obtain ⟨l, rfl⟩ := List.getLast?_eq_some_iff.mp member
  exact last_concat addr head l a

theorem Linked.mono (linked : Linked addr node next l prev)
    (weaken : ∀ b ∈ l, ∀ n p, node b n p → node' b n p) : Linked addr node' next l prev := by
  induction l generalizing next with
  | nil => trivial
  | cons b l ih =>
    exact ⟨weaken b (.head _) _ _ linked.1,
      ih linked.2 fun c member => weaken c (.tail _ member)⟩

theorem Linked.relink {next prev prev' : Nat} (linked : Linked addr node next l prev)
    (keep : ∀ c ∈ l.dropLast, ∀ n p, node c n p → node' c n p)
    (change : ∀ c ∈ l.getLast?, ∀ n, node c n prev → node' c n prev') : Linked addr node' next l prev' := by
  rcases List.eq_nil_or_concat' l with rfl | ⟨_, a, rfl⟩
  · trivial
  · rw [List.dropLast_concat] at keep
    rw [linked_append] at linked ⊢
    exact ⟨linked.1.mono keep, change a (by simp) _ linked.2.1, trivial⟩

theorem stacked_append : Stacked addr finish limit (l ++ l') ↔
      Stacked addr finish limit l ∧ Stacked addr finish (last addr limit l) l' := by
  induction l generalizing limit with
  | nil => simp [Stacked, last]
  | cons b l ih => simp only [List.cons_append, Stacked, last, ih, and_assoc]

theorem Stacked.mono {limit limit' : Nat} (stacked : Stacked addr finish limit l)
    (le : limit ≤ limit') : Stacked addr finish limit' l := by
  cases l with
  | nil => trivial
  | cons b l => exact ⟨stacked.1, Nat.le_trans stacked.2.1 le, stacked.2.2⟩

theorem Stacked.mem (stacked : Stacked addr finish limit l) (member : b ∈ l) : addr b < finish b ∧ finish b ≤ limit :=
    by
  induction l generalizing limit with
  | nil => cases member
  | cons c l ih =>
    rcases List.mem_cons.mp member with rfl | member
    · exact ⟨stacked.1, stacked.2.1⟩
    · have below := ih stacked.2.2 member
      exact ⟨below.1, by have := stacked.1; have := stacked.2.1; omega⟩

theorem Stacked.length_le (stacked : Stacked addr finish limit l) : l.length ≤ limit := by
  induction l generalizing limit with
  | nil => exact Nat.zero_le _
  | cons b l ih =>
    obtain ⟨_, _, rest⟩ := stacked
    have := ih rest
    rw [List.length_cons]
    omega

theorem Stacked.pairwise (stacked : Stacked addr finish limit l) :
    l.Pairwise fun upper lower => finish lower ≤ addr upper := by
  induction l generalizing limit with
  | nil => exact .nil
  | cons b l ih => exact List.pairwise_cons.mpr ⟨fun c member => (stacked.2.2.mem member).2, ih stacked.2.2⟩

theorem Stacked.around {pre post : List α} (stacked : Stacked addr finish limit (pre ++ b :: post)) :
    (∀ c ∈ pre, finish b ≤ addr c) ∧ ∀ c ∈ post, finish c ≤ addr b := by
  have pairs := List.pairwise_append.mp stacked.pairwise
  exact ⟨fun c member => pairs.2.2 c member b (.head _), (List.pairwise_cons.mp pairs.2.1).1⟩

theorem Stacked.above_last (stacked : Stacked addr finish limit l) {c : α}
    (head : Nat) (member : c ∈ l.dropLast) : ∃ a ∈ l, last addr head l = addr a ∧ finish a ≤ addr c := by
  rcases List.eq_nil_or_concat' l with rfl | ⟨l, a, rfl⟩
  · cases member
  · rw [List.dropLast_concat] at member
    exact ⟨a, by simp, last_concat addr head l a,
      (List.pairwise_append.mp stacked.pairwise).2.2 c member a (.head _)⟩

theorem Stacked.eq_or_apart (stacked : Stacked addr finish limit l) {b c : α} (memberB : b ∈ l) (memberC : c ∈ l) :
    b = c ∨ finish b ≤ addr c ∨ finish c ≤ addr b := by
  induction l generalizing limit with
  | nil => cases memberB
  | cons d l ih =>
    rcases List.mem_cons.mp memberB with equalB | belowB <;>
      rcases List.mem_cons.mp memberC with equalC | belowC
    · exact .inl (equalB.trans equalC.symm)
    · exact .inr (.inr (equalB ▸ (stacked.2.2.mem belowC).2))
    · exact .inr (.inl (equalC ▸ (stacked.2.2.mem belowB).2))
    · exact ih stacked.2.2 belowB belowC

end Petix.Library.BlockList
