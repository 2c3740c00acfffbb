import Petix.Kernel.Wc
import Petix.Library.Words
import Petix.Proof.Stdio.Reading

namespace Petix.Proof.Stdio
open List Library Library.Result Kernel.Stdio Kernel.Wc Spec.Stdio

variable {fd : Int} {before rest : List Byte} {f : File} {w : Sys Disk} {n : Counts}

theorem Returning.unread (holds : Returning fd (before ++ rest) before f w) : Spec.Stdio.unread f w = rest := by
  have all := holds.delivered.all
  rw [← holds.fetched, append_assoc, append_cancel_left_eq] at all
  rw [Spec.Stdio.unread, holds.descriptor, all]

theorem Returning.fgetc (sizes : Nat → Nat) (stack : Byte) (holds : Returning fd (before ++ rest) before f w) :
    ∃ f' w', Kernel.Stdio.fgetc (disk sizes) stack f w = .ok ((rest.head?.elim (-1) BitVec.toInt), f', w') ∧
      Returning fd (before ++ rest) (before ++ rest.take 1) f' w' := by
  obtain ⟨ret, bytes, f', w', run, returning, length, room, -, -, -, whole⟩ := holds.fread sizes charRoom (by decide)
  have one : charRoom.size * charRoom.nmemb = 1 := rfl
  rw [one] at room whole
  unfold Kernel.Stdio.fgetc
  rw [run, ok_bind]
  cases bytes with
  | nil =>
    have none : rest = [] := by simpa using whole (by simp [length]) (.inl length)
    exact ⟨f', w', by simp [length, none, pure, Except.pure], by simpa [none] using returning⟩
  | cons b bytes =>
    obtain rfl : bytes = [] := eq_nil_of_length_eq_zero (by simp only [length_cons] at length; omega)
    obtain ⟨more, split⟩ := returning.startsWith
    obtain rfl : rest = b :: more := by simpa using split.symm
    exact ⟨f', w', by simp [length, pure, Except.pure], returning⟩

theorem Returning.fgetsLoop (sizes : Nat → Nat) (stack : Byte) (rounds : Nat)
    (holds : Returning fd (before ++ rest) before f w) (plain : 255#8 ∉ rest) :
    ∃ f' w', Kernel.Stdio.fgetsLoop (disk sizes) stack rounds f w = .ok ((nextLine rest).take rounds ++
        (if 10#8 ∈ (nextLine rest).take rounds ∨ rest.length < rounds then [0] else []), f', w') ∧
      Returning fd (before ++ rest) (before ++ (nextLine rest).take rounds) f' w' := by
  induction rounds generalizing before rest f w with
  | zero => exact ⟨f, w, by simp [Kernel.Stdio.fgetsLoop], by simpa using holds⟩
  | succ rounds ih =>
    obtain ⟨f₁, w₁, run, holds₁⟩ := holds.fgetc sizes stack
    rw [Kernel.Stdio.fgetsLoop, run, ok_bind]
    cases rest with
    | nil => exact ⟨f₁, w₁, rfl, holds₁⟩
    | cons b rest =>
      obtain ⟨other, plain⟩ := ne_and_not_mem_of_not_mem_cons plain
      have data : b.toInt ≠ -1 := fun equal => other (BitVec.eq_of_toInt_eq equal.symm)
      dsimp only [head?_cons, Option.elim_some]
      rw [if_neg data]
      by_cases newline : b = 10#8
      · subst newline
        exact ⟨f₁, w₁, by simp [nextLine, pure, Except.pure], by simpa [nextLine] using holds₁⟩
      · have inner : b.toInt ≠ 10 := fun equal => newline (BitVec.eq_of_toInt_eq equal)
        rw [append_cons] at holds₁ ⊢
        obtain ⟨f', w', loop, last⟩ := ih holds₁ plain
        refine ⟨f', w', ?_, by simpa [nextLine, newline] using last⟩
        rw [if_neg inner, loop]
        simp [nextLine, newline, Ne.symm newline, pure, Except.pure]

theorem Returning.fresh (valid : f.valid = true) (start : f.start = 0) (stop : f.stop = 0) (w : Disk) (errno : Int) :
    Returning f.fd (w.rest f.fd) [] f ⟨w, errno, []⟩ :=
  ⟨rfl, valid, ⟨by omega, by omega, fun _ => stop, fun _ => stop⟩, ⟨rfl, by simp [NoneFailed], by simp⟩,
    by simp [start, stop]⟩

theorem fgets_terminated_iff (sizes : Nat → Nat) (stack : Byte) (f : File) (valid : f.valid = true)
    (start : f.start = 0) (stop : f.stop = 0) (w : Disk) (errno : Int) (reads : List Room)
    (some : ∀ ptr ∈ reads, 0 < ptr.size * ptr.nmemb) (size : Int) (least : 2 ≤ size) (most : size < 2 ^ 31)
    (plain : 255#8 ∉ w.rest f.fd) :
    ∃ results f' s', freadAll (disk sizes) reads f ⟨w, errno, []⟩ = .ok (results, f', s') ∧
      ∀ line, line = (nextLine (unread f' s')).take (size - 1).toNat →
        ((∃ f'' s'', fgets (disk sizes) stack size f' s' = .ok (line ++ [0], f'', s'') ∧ line.length < size ∧
            unread f' s' = line ++ unread f'' s'') ↔
          10#8 ∈ line ∨ (unread f' s').length < (size - 1).toNat) := by
  obtain ⟨results, f', s', run, holds, -⟩ := (Returning.fresh valid start stop w errno).freadAll sizes some
  obtain ⟨rest, split⟩ := holds.startsWith
  rw [nil_append] at holds split
  rw [← split] at holds
  have clean : 255#8 ∉ rest := fun here => plain (split ▸ mem_append_right _ here)
  have rounds : sizeT (size - 1) = (size - 1).toNat := by
    rw [sizeT, Int.emod_eq_of_lt (by omega) (by omega)]
  obtain ⟨f'', s'', loop, last⟩ := holds.fgetsLoop sizes stack (size - 1).toNat clean
  refine ⟨results, f', s', run, ?_⟩
  rintro line rfl
  rw [fgets, rounds, holds.unread, loop]
  constructor
  · rintro ⟨_, _, equal, -⟩
    by_contra open'
    rw [if_neg open'] at equal
    simpa using congrArg Prod.fst (Except.ok.inj equal)
  · intro closed
    obtain ⟨left, parts⟩ := last.startsWith
    rw [← parts] at last
    refine ⟨f'', s'', by rw [if_pos closed], ?_, ?_⟩
    · have := length_take_le (size - 1).toNat (nextLine rest)
      omega
    · rw [last.unread]
      simpa using parts.symm

def buffered : File := { initialFiles stdin with bf := .iofbf }

def holding (content : List Byte) : Sys Disk := ⟨⟨fun _ => [], fun _ => content, 0, 3⟩, 0, []⟩

theorem fgets_unterminated :
    (fgets (disk fun _ => 2) 0 3 buffered (holding [97#8, 98#8])).toOption.map Prod.fst = some [97#8, 98#8] := by
  decide +kernel

theorem fgets_terminated_line :
    ∃ f s, fgets (disk fun _ => 2) 0 3 buffered (holding [97#8, 10#8]) = .ok ([97#8, 10#8, 0], f, s) := by
  obtain ⟨_, _, _, run, terminated⟩ := fgets_terminated_iff (fun _ => 2) 0 buffered rfl rfl rfl
    (holding [97#8, 10#8]).world 0 [] (by simp) 3 (by decide) (by decide) (by decide)
  cases run
  obtain ⟨f, s, call, -⟩ := (terminated [97#8, 10#8] rfl).mpr (.inl (by decide))
  exact ⟨f, s, call⟩

theorem length_words_cons {b : Byte} (word : blank b = false) (rest : List Byte) :
    (words blank (b :: rest)).length = (words blank ((rest.dropWhile (!blank ·)).drop 1)).length + 1 := by
  rw [words_first word]
  simp [word]

theorem step_toInt (n : Counts) (b : Byte) : n.step b.toInt = ⟨if b = 10#8 then n.l + 1 else n.l,
    if blank b ∧ n.inw then n.w + 1 else n.w, n.c + 1, !blank b⟩ := by
  have newline : b.toInt = 10 ↔ b = 10#8 := @BitVec.toInt_inj 8 b 10#8
  have space : b.toInt = 32 ↔ b = 32#8 := @BitVec.toInt_inj 8 b 32#8
  have tab : b.toInt = 9 ↔ b = 9#8 := @BitVec.toInt_inj 8 b 9#8
  unfold Counts.step blank
  simp only [newline, space, tab]
  split_ifs <;> simp_all

-- a letter in front stands for the word that the loop is in
theorem foldl_step (n : Counts) (content : List Byte) : ∃ inw w, (content.map BitVec.toInt).foldl Counts.step n =
      ⟨n.l + BitVec.ofNat 32 (content.count 10#8), w, n.c + BitVec.ofNat 32 content.length, inw⟩ ∧
    (if inw then w + 1 else w) =
      n.w + BitVec.ofNat 32 (words blank (if n.inw then 120#8 :: content else content)).length := by
  have letter : blank 120#8 = false := by decide
  have succ : ∀ (x : BitVec 32) (k : Nat), x + 1#32 + BitVec.ofNat 32 k = x + BitVec.ofNat 32 (k + 1) := by
    intro x k
    rw [BitVec.add_assoc, Nat.add_comm k 1, BitVec.ofNat_add]
  induction content generalizing n with
  | nil =>
    have none : words blank [] = [] := rfl
    exact ⟨n.inw, n.w, by simp, by cases n.inw <;> simp [length_words_cons letter, none]⟩
  | cons b content ih =>
    obtain ⟨inw, w, out, count⟩ := ih (n.step b.toInt)
    refine ⟨inw, w, ?_, ?_⟩
    · rw [map_cons, foldl_cons, out, step_toInt]
      by_cases newline : b = 10#8
      · simp [newline, succ]
      · simp [newline, succ]
    · rw [count, step_toInt]
      cases here : blank b with
      | false => cases inside : n.inw <;> simp [here, length_words_cons, letter]
      | true => cases inside : n.inw <;> simp [here, length_words_cons, letter, words_sep, succ]

theorem Returning.wcLoop (sizes : Nat → Nat) (stack : Byte) {fuel : Nat}
    (holds : Returning fd (before ++ rest) before f w) (enough : rest.length < fuel) :
    ∃ f' w', Kernel.Wc.wcLoop (disk sizes) stack fuel n f w =
      .ok (((rest.takeWhile (· ≠ 255#8)).map BitVec.toInt).foldl Counts.step n, f', w') := by
  induction fuel generalizing before rest f w n with
  | zero => omega
  | succ fuel ih =>
    obtain ⟨f₁, w₁, run, holds₁⟩ := holds.fgetc sizes stack
    rw [Kernel.Wc.wcLoop, run, ok_bind]
    cases rest with
    | nil => exact ⟨f₁, w₁, rfl⟩
    | cons b rest =>
      dsimp only [head?_cons, Option.elim_some]
      by_cases last : b = 255#8
      · subst last
        exact ⟨f₁, w₁, by simp [pure, Except.pure]⟩
      · have data : b.toInt ≠ -1 := fun equal => last (BitVec.eq_of_toInt_eq equal)
        rw [append_cons] at holds₁
        obtain ⟨f', w', loop⟩ := ih holds₁ (Nat.lt_of_succ_lt_succ enough)
        exact ⟨f', w', by rw [if_neg data, loop]; simp [last]⟩

theorem wc_counts_iff (sizes : Nat → Nat) (stack : Byte) (f : File) (valid : f.valid = true) (start : f.start = 0)
    (stop : f.stop = 0) (w : Disk) (errno : Int) (content : List Byte) (file : w.rest f.fd = content)
    (small : content.length < 2 ^ 31) (fuel : Nat) (enough : content.length < fuel) :
    ∃ counts f' s', wcF (disk sizes) stack fuel f ⟨w, errno, []⟩ = .ok (counts, f', s') ∧
      (counts = (BitVec.ofNat 32 (content.count 10#8), BitVec.ofNat 32 (words blank content).length,
        BitVec.ofNat 32 content.length) ↔ 255#8 ∉ content) := by
  have holds : Returning f.fd ([] ++ content) [] f ⟨w, errno, []⟩ := file ▸ Returning.fresh valid start stop w errno
  obtain ⟨f', s', loop⟩ := holds.wcLoop (n := ⟨0, 0, 0, false⟩) sizes stack enough
  obtain ⟨inw, words, counts, total⟩ := foldl_step ⟨0, 0, 0, false⟩ (content.takeWhile (· ≠ 255#8))
  rw [counts] at loop
  rw [wcF, loop, ok_bind]
  refine ⟨_, f', s', rfl, ?_⟩
  dsimp only
  rw [total]
  constructor
  · intro equal here
    have start := takeWhile_prefix (l := content) (· ≠ 255#8)
    have lengths := congrArg (fun counts => counts.2.2.toNat) equal
    simp only [BitVec.ofNat_eq_ofNat, BitVec.zero_add, BitVec.toNat_ofNat] at lengths
    have whole := start.eq_of_length (by have := start.length_le; omega)
    rw [← whole] at here
    simpa using mem_takeWhile_imp here
  · intro plain
    have whole : content.takeWhile (· ≠ 255#8) = content :=
      takeWhile_eq_self_iff.mpr fun b here => by simpa using ne_of_mem_of_not_mem here plain
    rw [whole]
    simp

theorem wc_stops_at_data :
    (wcF (disk fun _ => 2) 0 4 buffered (holding [97#8, 255#8, 10#8])).toOption.map Prod.fst = some (0, 1, 1) := by
  decide +kernel

theorem wc_counts_line :
    ∃ f s, wcF (disk fun _ => 2) 0 3 buffered (holding [97#8, 10#8]) = .ok ((1, 1, 2), f, s) := by
  obtain ⟨_, f, s, run, right⟩ := wc_counts_iff (fun _ => 2) 0 buffered rfl rfl rfl (holding [97#8, 10#8]).world 0 _ rfl
    (by decide) 3 (by decide)
  rw [right.mpr (by decide)] at run
  exact ⟨f, s, run⟩

end Petix.Proof.Stdio
