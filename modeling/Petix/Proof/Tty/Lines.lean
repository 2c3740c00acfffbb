import Petix.Proof.Tty.Editor
import Petix.Proof.Tty.Reading

namespace Petix.Proof.Tty
open Library Kernel.Tty Spec.Tty

variable {s : Session} {e : Editor} {lines more : List (List Byte)} {log : List (Int × List Byte)}
  {delivered copied bytes rest tail : List Byte} {count : Nat} {front : Byte}
variable {seq : Seq} {a : Event}

inductive Unread (lines : List (List Byte)) (delivered copied bytes : List Byte) : Prop
  | nothing (all : delivered = lines.flatten) (idle : copied = []) (empty : bytes = [])
  | within (before : List (List Byte)) (front rest : List Byte) (after : List (List Byte))
      (split : lines = before ++ (front ++ copied ++ rest) :: after) (upto : delivered = before.flatten ++ front)
      (unread : bytes = rest ++ sendChar :: marked after)

theorem unread_marked (done : List (List Byte)) {after : List (List Byte)} (split : lines = done ++ after)
    (all : delivered = done.flatten) : Unread lines delivered [] (marked after) := by
  cases after with
  | nil => exact .nothing (by simp [split, all]) rfl rfl
  | cons line after => exact .within done [] line after (by simp [split]) (by simp [all]) (by simp [marked])

theorem Unread.grow (unread : Unread lines delivered copied bytes) (more : List (List Byte)) :
    Unread (lines ++ more) delivered copied (bytes ++ marked more) := by
  cases unread with
  | nothing all idle empty =>
    rw [idle, empty]
    exact unread_marked lines rfl all
  | within before front rest after split upto unread =>
    exact .within before front rest (after ++ more) (by simp [split]) upto (by simp [unread])

theorem Unread.inOrder (unread : Unread lines delivered copied bytes) : delivered <+: lines.flatten := by
  cases unread with
  | nothing all => exact all ▸ List.prefix_rfl
  | within before front rest after split upto =>
    refine ⟨copied ++ rest ++ after.flatten, ?_⟩
    simp [split, upto]

def InLines (lines : List (List Byte)) (log : List (Int × List Byte)) : Prop :=
  ∀ earlier call later, log = earlier ++ call :: later → returned call ≠ [] →
    InOneLine lines (earlier.flatMap returned) (returned call)

theorem InLines.grow (inLines : InLines lines log) (more : List (List Byte)) : InLines (lines ++ more) log := by
  intro earlier call later split some
  obtain ⟨before, front, rest, after, here, upto⟩ := inLines earlier call later split some
  exact ⟨before, front, rest, after ++ more, by simp [here], upto⟩

theorem InLines.snoc (inLines : InLines lines log) {call : Int × List Byte}
    (last : returned call ≠ [] → InOneLine lines (log.flatMap returned) (returned call)) :
    InLines lines (log ++ [call]) := by
  intro earlier call' later split some
  rcases List.eq_nil_or_concat later with rfl | ⟨later', _, rfl⟩
  · obtain ⟨rfl, same⟩ := List.append_inj' split rfl
    obtain rfl := List.head_eq_of_cons_eq same
    exact last some
  · rw [List.concat_eq_append, ← List.cons_append, ← List.append_assoc] at split
    exact inLines earlier call' later' (List.append_inj' split rfl).1 some

structure Clean (e : Editor) : Prop where
  lines : sendChar ∉ e.lines.flatten
  line : sendChar ∉ e.line

def pending : Phase → List Byte
  | .idle => []
  | .loop _ copied _ | .waiting _ copied _ | .ending copied => copied

def Steady : Phase → Prop
  | .idle => True
  | .loop count copied _ | .waiting count copied _ => 0 < count ∧ copied = []
  | .ending copied => copied ≠ []

structure Follows (s : Session) (e : Editor) : Prop where
  ordered : Ordered s.tty
  canonical : s.tty.icanon = true
  line : current s.tty = e.line
  clean : Clean e
  steady : Steady s.phase
  unread : Unread e.lines (s.log.flatMap returned) (pending s.phase) (committed s.tty)
  inLines : InLines e.lines s.log

theorem Clean.input (clean : Clean e) (unmarked : sendChar ∉ seq.bytes) : Clean (e.input seq) := by
  obtain ⟨lines, line⟩ := clean
  unfold Editor.input
  split_ifs
  · exact ⟨lines, fun marked => line (List.mem_of_mem_dropLast marked)⟩
  · exact ⟨by simp [lines, line], by simp⟩
  · exact ⟨by simp [lines, line, unmarked], by simp⟩
  · exact ⟨lines, by simp [line, unmarked]⟩

theorem Follows.input {tty : PetixTty} (follows : Follows s e) (fits : Fits s.tty seq)
    (unmarked : sendChar ∉ seq.bytes) (run : petixTtyInputSeq s.tty seq = .ok tty) :
    Follows { s with tty } (e.input seq) := by
  have edits := input_edits follows.ordered fits run
  obtain ⟨more, added, after⟩ := edited_editor e seq
  have lines := edits.lines
  have line := edits.line
  rw [follows.canonical, follows.line, after] at lines line
  refine ⟨edits.toOrdered, edits.sameIcanon.trans follows.canonical, line, follows.clean.input unmarked,
    follows.steady, ?_, ?_⟩
  · rw [added, lines]
    exact follows.unread.grow more
  · rw [added]
    exact follows.inLines.grow more

theorem take_line (clean : sendChar ∉ rest) (unread : bytes = rest ++ sendChar :: tail)
    (oneLine : min count bytes.length ≤ (bytes.takeWhile (· ≠ sendChar)).length + 1) :
    (count ≤ rest.length ∧ bytes.take count = rest.take count ∧
      bytes.drop count = rest.drop count ++ sendChar :: tail) ∨
    (bytes.take count = rest ++ [sendChar] ∧ bytes.drop count = tail) := by
  subst unread
  have data : ∀ ch ∈ rest, decide (ch ≠ sendChar) = true := fun ch here =>
    decide_eq_true fun same => clean (same ▸ here)
  rw [List.takeWhile_append_of_pos data, List.takeWhile_cons_of_neg (by simp), List.append_nil, List.length_append,
    List.length_cons] at oneLine
  by_cases short : count ≤ rest.length
  · exact .inl ⟨short, List.take_append_of_le_length short, List.drop_append_of_le_length short⟩
  · right
    obtain ⟨n, rfl⟩ : ∃ n, count = rest.length + (n + 1) := ⟨count - (rest.length + 1), by omega⟩
    rw [List.take_length_add_append, List.drop_length_add_append, List.take_succ_cons, List.drop_succ_cons]
    have last : n = 0 ∨ tail = [] := by
      rw [← List.length_eq_zero_iff]
      omega
    rcases last with rfl | rfl
    · simp
    · simp

theorem Follows.pass (follows : Follows s e) (phase : s.phase = .loop count copied front)
    (oneLine : min count (committed s.tty).length ≤ ((committed s.tty).takeWhile (· ≠ sendChar)).length + 1) :
    Follows (readPass s count copied front) e := by
  obtain ⟨ordered, canonical, line, clean, steady, unread, inLines⟩ := follows
  rw [phase] at steady unread
  obtain ⟨wanted, rfl⟩ := steady
  obtain ⟨ordered', remaining, -⟩ := copied_ordered ordered count
  rw [readPass, copySection_eq ordered.fbase ordered.lbase]
  dsimp only
  rw [List.nil_append]
  cases unread with
  | nothing all idle empty =>
    have left : committed (advance s.tty (min count (committed s.tty).length)) = [] := by rw [remaining, empty]; simp
    rw [show (committed s.tty).take count = [] by rw [empty]; simp]
    split_ifs with marker more
    · refine ⟨ordered', canonical, line, clean, trivial, .nothing ?_ rfl left, inLines.snoc fun some => absurd rfl some⟩
      simpa [returned] using all
    · exact ⟨ordered', canonical, line, clean, ⟨more, rfl⟩, .nothing all rfl left, inLines⟩
    · exact absurd wanted more
  | within before front' rest after split upto here =>
    have unmarked : sendChar ∉ rest := fun marker => clean.lines (by simp [split, marker])
    -- the call goes on behind the loop if it ends inside the line, and returns at once at the marker
    rcases take_line unmarked here oneLine with ⟨short, taken, left⟩ | ⟨taken, left⟩
    · have some : rest.take count ≠ [] := by
        rw [Ne, List.take_eq_nil_iff, not_or]
        exact ⟨by omega, by rintro rfl; simp at short; omega⟩
      have last : (rest.take count).getLast?.getD front ≠ sendChar := by
        rw [List.getLast?_eq_some_getLast some]
        exact fun marker => unmarked (marker ▸ List.mem_of_mem_take (List.getLast_mem some))
      rw [taken, if_neg last, if_neg (by rw [List.length_take]; omega)]
      refine ⟨ordered', canonical, line, clean, some,
        .within before front' (rest.drop count) after ?_ upto (remaining.trans left), inLines⟩
      simp [split, pending]
    · rw [taken, if_pos (by simp)]
      have all : returned (((rest ++ [sendChar]).length : Int) - 1, rest ++ [sendChar]) = rest := by simp [returned]
      refine ⟨ordered', canonical, line, clean, trivial, ?_, inLines.snoc fun _ => ?_⟩
      · rw [remaining, left]
        refine unread_marked (before ++ [front' ++ rest]) (by simp [split, pending]) ?_
        rw [List.flatMap_append, List.flatMap_singleton, all, upto]
        simp
      · rw [all]
        exact ⟨before, front', [], after, by simp [split, pending], upto⟩

theorem Follows.finish (follows : Follows s e) (phase : s.phase = .ending copied) :
    Follows ⟨skipMarker s.tty, .idle, s.log ++ [((copied.length : Int), copied)]⟩ e := by
  obtain ⟨ordered, canonical, line, clean, steady, unread, inLines⟩ := follows
  rw [phase] at steady unread
  have all : returned ((copied.length : Int), copied) = copied := by simp [returned]
  cases unread with
  | nothing all idle => exact absurd idle steady
  | within before front rest after split upto here =>
    rw [pending] at split
    have logged : InLines e.lines (s.log ++ [((copied.length : Int), copied)]) := by
      refine inLines.snoc fun _ => ?_
      rw [all]
      exact ⟨before, front, rest, after, split, upto⟩
    cases rest with
    | nil =>
      have one : 1 ≤ (committed s.tty).length := by simp [here]
      obtain ⟨ordered', remaining, line'⟩ := advance_ordered ordered one
      rw [skipMarker_eq ordered here, if_pos rfl]
      refine ⟨ordered', canonical, line'.trans line, clean, trivial, ?_, logged⟩
      rw [remaining, here]
      exact unread_marked (before ++ [front ++ copied]) (by simp [split]) (by simp [all, upto])
    | cons ch rest =>
      have data : ch ≠ sendChar := fun marker => clean.lines (by simp [split, marker])
      rw [skipMarker_eq ordered here, if_neg data]
      refine ⟨ordered, canonical, line, clean, trivial, ?_, logged⟩
      exact .within before (front ++ copied) (ch :: rest) after (by simp [split, pending]) (by simp [all, upto])
        here

theorem Follows.step {s' : Session} {typed : List Seq} (follows : Follows s e)
    (lineByLine : LineByLine ⟨s, typed⟩ a) (step : next s a = some s') :
    Follows s' ((inputs a).foldl Editor.input e) := by
  obtain ⟨use, oneLine⟩ := lineByLine
  have steady := follows.steady
  have unread := follows.unread
  cases moves_of_next step with
  | input run => exact follows.input use.1 use.2 run
  | @read count front phase =>
    have wanted : 0 < count := use
    rw [phase] at unread
    rw [if_pos wanted]
    exact ⟨follows.ordered, follows.canonical, follows.line, follows.clean, ⟨wanted, rfl⟩, unread, follows.inLines⟩
  | pass phase =>
    rw [OneLine, phase] at oneLine
    exact follows.pass phase oneLine
  | wake phase =>
    rw [phase] at steady unread
    exact ⟨follows.ordered, follows.canonical, follows.line, follows.clean, steady, unread, follows.inLines⟩
  | finish phase => exact follows.finish phase
  | setFlags =>
    have ordered := follows.ordered
    exact ⟨⟨ordered.fbase, ordered.lbase, ordered.loff, ordered.cyclic⟩, use, follows.line, follows.clean, steady,
      unread, follows.inLines⟩
  | flush => exact use.elim

variable {r : Recorded}

theorem follows_init : Follows ⟨petixTtyInit, .idle, []⟩ ⟨[], []⟩ where
  ordered := represents_init.toOrdered
  canonical := rfl
  line := represents_init.line
  clean := ⟨by simp, by simp⟩
  steady := trivial
  unread := .nothing rfl rfl represents_init.lines
  inLines := by simp [InLines]

theorem follows_of_reachable (reachable : (recorded.restrict LineByLine).Reachable r) : Follows r.session r.editor := by
  induction reachable with
  | initial start =>
    rw [show _ = _ from start]
    exact follows_init
  | next _ step follows =>
    obtain ⟨lineByLine, move, typed⟩ := step
    rw [Recorded.editor, typed, List.foldl_append]
    exact follows.step lineByLine move

theorem reads_return_lines (reachable : (recorded.restrict LineByLine).Reachable r) : ReadsLines r := by
  have follows := follows_of_reachable reachable
  have inOrder := follows.unread.inOrder
  exact ⟨inOrder, fun marker => follows.clean.lines (inOrder.subset marker), follows.inLines⟩

section
variable (guard : Recorded → Event → Prop) [∀ r a, Decidable (guard r a)]

def play (r : Recorded) (a : Event) : Option Recorded :=
  if guard r a then (next r.session a).map fun session => ⟨session, r.typed ++ inputs a⟩ else none

theorem play_step {guard : Recorded → Event → Prop} [∀ r a, Decidable (guard r a)] {r r' : Recorded}
    (played : play guard r a = some r') : (recorded.restrict guard).step r a r' := by
  rw [play, Option.ite_none_right_eq_some, Option.map_eq_some_iff] at played
  obtain ⟨allowed, _, step, rfl⟩ := played
  exact ⟨allowed, step, rfl⟩

def twoLines (count : Nat) : List Event :=
  [.input ⟨97#8, []⟩, .input ⟨10#8, []⟩, .input ⟨98#8, []⟩, .input ⟨10#8, []⟩, .read count 0, .pass]

theorem twoLines_reachable (count : Nat) {log : List (Int × List Byte)}
    (played : ((twoLines count).foldlM (play guard) ⟨⟨petixTtyInit, .idle, []⟩, []⟩).map (·.session.log) = some log) :
    ∃ r, (recorded.restrict guard).Reachable r ∧ r.session.log = log := by
  obtain ⟨r, run, logged⟩ := Option.map_eq_some_iff.mp played
  exact ⟨r, System.Reachable.run (fun _ _ _ => play_step) (.initial rfl) run, logged⟩

end

theorem reads_return_lines_first : ∃ r, (recorded.restrict LineByLine).Reachable r ∧
    r.session.log = [(2, [97#8, 10#8, sendChar])] ∧ ReadsLines r := by
  obtain ⟨r, reachable, logged⟩ := twoLines_reachable LineByLine 3 rfl
  exact ⟨r, reachable, logged, reads_return_lines reachable⟩

theorem read_returns_two_lines : ∃ r, (recorded.restrict LineInput).Reachable r ∧
    r.session.log = [(5, [97#8, 10#8, sendChar, 98#8, 10#8, sendChar])] ∧ ¬ ReadsLines r := by
  obtain ⟨r, reachable, logged⟩ := twoLines_reachable LineInput 10 rfl
  refine ⟨r, reachable, logged, fun reads => reads.unmarked ?_⟩
  rw [logged]
  decide

end Petix.Proof.Tty
