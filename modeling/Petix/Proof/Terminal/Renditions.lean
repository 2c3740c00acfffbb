import Petix.Proof.Terminal.Parameters

namespace Petix.Proof.Terminal
open List Library Kernel Kernel.Ansi Spec.Terminal

variable {b : Backend} {t t' memory : Term} {r : Rendition} {c tens : Int} {params : List Nat} {σ : Scan} {value : Nat}
variable {before text : List Byte} {ch : Byte} {nump : Bool}

theorem coloured_index (coloured : Coloured c) (default : Int) (low : 0 ≤ default) (high : default ≤ 7) :
    0 ≤ (if c = ansiDefault then default else c) ∧ (if c = ansiDefault then default else c) ≤ 7 := by
  rcases coloured with inside | rfl
  · split_ifs <;> omega
  · rw [if_pos rfl]
    exact ⟨low, high⟩

theorem shown_iff : Shown r ↔ Coloured r.fg ∧ Coloured r.bg := by
  refine ⟨fun shown => ⟨shown.fg, shown.bg⟩, fun ⟨fg, bg⟩ => ⟨fg, bg, ?_, ?_⟩⟩
  · have vga {c : Int} (coloured : Coloured c) (default : Nat) : ∃ vga, Vga.colour default c = .ok vga := by
      rcases coloured with inside | rfl
      · have less : c.toNat < Vga.ansiToVga.length := by
          simp only [Vga.ansiToVga, length_cons, length_nil]
          omega
        rw [Vga.colour, if_neg (by unfold ansiDefault; omega), getElem?_eq_getElem less]
        exact ⟨_, rfl⟩
      · exact ⟨_, rfl⟩
    obtain ⟨_, first⟩ := vga fg Vga.lightGrey
    obtain ⟨_, second⟩ := vga bg 0
    exact ⟨_, _, first, second⟩
  · have rgb {table : List Nat} {c : Int} (eight : table.length = 8) (inside : 0 ≤ c ∧ c ≤ 7) :
        ∃ rgb, Fbtty.entry table c = .ok rgb := by
      rw [Fbtty.entry, if_pos inside.1, getElem?_eq_getElem (by omega)]
      exact ⟨_, rfl⟩
    obtain ⟨_, first⟩ := @rgb (if r.bits.getLsbD 1 then Fbtty.ansiToRgbBold else Fbtty.ansiToRgb) _
      (by split_ifs <;> rfl) (coloured_index fg 7 (by decide) (by decide))
    obtain ⟨_, second⟩ := @rgb Fbtty.ansiToRgb _ rfl (coloured_index bg 0 (by decide) (by decide))
    rw [Fbtty.colours, first, Result.ok_bind, second]
    exact ⟨_, rfl⟩

theorem coloured_foldl (field : Rendition → Int) (positive : 0 < tens) (start : Coloured (field r))
    (step : ∀ r c, field (renditionStep r c) =
      if c.tdiv 10 = tens then c.tmod 10 else if c = 0 then ansiDefault else field r) :
    Coloured (field ((ints params).foldl renditionStep r)) ↔ lastColour tens params ≠ some (tens * 10 + 8) := by
  induction params using reverseRecOn with
  | nil => simpa [ints, lastColour] using start
  | append_singleton params p ih =>
    have numbers : ints (params ++ [p]) = ints params ++ [signed32 p] := map_append
    rw [lastColour] at ih ⊢
    rw [numbers, foldl_append, foldl_cons, foldl_nil, step, filter_append]
    generalize signed32 p = c
    split_ifs with sets reset
    · have parts := Int.mul_tdiv_add_tmod c 10
      have low : -10 < c.tmod 10 := Int.lt_tmod_of_pos c (by decide)
      have high := Int.tmod_lt_of_pos c (b := 10) (by decide)
      have least : 0 ≤ c.tmod 10 := Int.tmod_nonneg 10 (by omega)
      have last : (([c].filter fun cmd => cmd.tdiv 10 = tens ∨ cmd = 0)) = [c] := by simp [sets]
      rw [last, getLast?_concat, Coloured, ansiDefault, Ne, Option.some.injEq]
      generalize c.tmod 10 = digit at *
      omega
    · simp [reset, Coloured]
      omega
    · simpa [sets, reset] using ih

theorem coloured_rendition_iff (shown : Shown r) : Shown ((ints params).foldl renditionStep r) ↔
    lastColour 3 params ≠ some 38 ∧ lastColour 4 params ≠ some 48 := by
  rw [shown_iff]
  refine and_congr (coloured_foldl (·.fg) (by decide) shown.fg ?_)
    (coloured_foldl (·.bg) (by decide) shown.bg ?_)
  all_goals
    intro r c
    unfold renditionStep
    dsimp only
    split_ifs <;> simp_all

theorem feed_concat {out more : List Output} {ch : Byte} (run : feed b memory before = .ok (t, out))
    (step : ansiPutch b t ch = .ok (t', more)) : feed b memory (before ++ [ch]) = .ok (t', out ++ more) := by
  unfold feed at run ⊢
  rw [foldlM_append, run, Result.ok_bind, foldlM_cons]
  dsimp only
  rw [step]
  rfl

theorem colours_in_tables_iff (b : Backend) (memory : Term) (bytes : List Byte) :
    (∀ before t out, before <+: bytes → feed b memory before = .ok (t, out) → Shown t.rendition) ↔
    ∀ before params value, before ++ [109#8] <+: bytes → (∃ r, feed b memory before = .ok r) →
      scan before = .sequence true params value true →
      lastColour 3 (params ++ [value]) ≠ some 38 ∧ lastColour 4 (params ++ [value]) ≠ some 48 := by
  constructor
  · rintro shown before params value within ⟨⟨t, out⟩, run⟩ ending
    have holds := feed_holds run
    rw [ending] at holds
    obtain ⟨t', more, step⟩ : ∃ t' more, ansiPutch b t 109#8 = .ok (t', more) := by
      cases holds with
      | sequence state => exact ⟨_, _, (ansiPutch_sequence state).trans rfl⟩
    have after := shown _ _ _ within (feed_concat run step)
    rw [(holds.took step).rendition] at after
    exact (coloured_rendition_iff (shown before t out ((prefix_append ..).trans within) run)).mp after
  · intro sets before
    induction before using reverseRecOn with
    | nil =>
      intro t out _ run
      cases run
      exact shown_iff.mpr ⟨.inr rfl, .inr rfl⟩
    | append_singleton before ch ih =>
      intro t' out within run
      obtain ⟨t, _, _, earlier, step⟩ := feed_snoc run
      have shown := ih t _ ((prefix_append ..).trans within) earlier
      rw [((feed_holds earlier).took step).rendition]
      unfold rendered
      split
      · rename_i params value ending
        split_ifs with last
        · subst last
          exact (coloured_rendition_iff shown).mpr (sets before params value within ⟨_, earlier⟩ ending)
        · exact shown
      · exact shown

theorem colour_behind_table : ∃ t out, feed Vga.ansiBackend zeroTerm [27#8, 91#8, 51#8, 56#8, 109#8] = .ok (t, out) ∧
    t.rendition.fg = 8 ∧ Vga.colour Vga.lightGrey t.rendition.fg = .error .colour :=
  ⟨_, _, rfl, rfl, rfl⟩

theorem foldl_sgr (standard : ∀ p ∈ params, p ∈ sgrParams) :
    (ints params).foldl renditionStep r = params.foldl sgr r := by
  have small : ∀ p ∈ sgrParams, p < 2147483648 := by decide
  have step (r : Rendition) : ∀ p ∈ sgrParams, renditionStep r p = sgr r p := by
    simp only [sgrParams, forall_mem_cons]
    repeat refine ⟨rfl, ?_⟩
    simp
  induction params generalizing r with
  | nil => rfl
  | cons p params ih =>
    obtain ⟨first, standard⟩ := forall_mem_cons.mp standard
    unfold ints at ih ⊢
    rw [map_cons, foldl_cons, signed32_eq (small p first), step r p first, ih standard, foldl_cons]

def face (t : Term) : Int × Int × Rendition := (t.row, t.col, t.rendition)

theorem putchAll_cons (step : ansiPutch b t ch = .ok (t', [])) (rest : List Byte) :
    putchAll b t (ch :: rest) = putchAll b t' rest := by
  rw [putchAll, foldlM_cons]
  dsimp only
  rw [step]
  rfl

theorem putchAll_step (b : Backend) (ch : Byte) (holds : Holds t σ) (other : ch ≠ 109#8) (goes : σ.next ch ≠ .text)
    (runs : ∃ result, ansiPutch b t ch = .ok result) : ∃ t', (∀ rest, putchAll b t (ch :: rest) = putchAll b t' rest) ∧
      Holds t' (σ.next ch) ∧ face t' = face t := by
  obtain ⟨⟨t', out⟩, run⟩ := runs
  have took := holds.took run
  obtain ⟨rfl, row, col⟩ := took.quiet (.inl goes)
  refine ⟨t', putchAll_cons run, took.holds, ?_⟩
  rw [face, row, col, took.rendition, rendered_of_ne other]
  rfl

theorem putchAll_digits (b : Backend) (holds : Holds t (.sequence true params value nump))
    (digits : ∀ ch ∈ text, isDigit ch) : ∃ t', (∀ rest, putchAll b t (text ++ rest) = putchAll b t' rest) ∧
      face t' = face t ∧ Holds t' (.sequence true params (text.foldl (fun value ch => value * 10 + (ch.toNat - 48))
        value) (nump || !text.isEmpty)) := by
  induction text generalizing t value nump with
  | nil => exact ⟨t, fun _ => rfl, rfl, by simpa using holds⟩
  | cons ch text ih =>
    obtain ⟨digit, digits⟩ := forall_mem_cons.mp digits
    have next : (Scan.sequence true params value nump).next ch =
        .sequence true params (value * 10 + (ch.toNat - 48)) true := by
      simp [Scan.next, digit]
    obtain ⟨t', first, holds', still⟩ := putchAll_step b ch holds (by rintro rfl; exact absurd digit (by decide))
      (by simp [next]) (by
        cases holds with
        | sequence state =>
          rw [ansiPutch_sequence state, if_neg (by simp), if_pos digit]
          exact ⟨_, rfl⟩)
    obtain ⟨t'', rest, still', holds''⟩ := ih (next ▸ holds') digits
    exact ⟨t'', fun more => (first _).trans (rest more), still'.trans still, by simpa using holds''⟩

theorem putchAll_texts (b : Backend) {texts : List (List Byte)} (some : texts ≠ [])
    (digits : ∀ text ∈ texts, text ≠ [] ∧ ∀ ch ∈ text, isDigit ch)
    (holds : Holds t (.sequence true params 0 nump)) (few : params.length + texts.length ≤ 16) :
    ∃ t' params' value, (∀ rest, putchAll b t ([59#8].intercalate texts ++ rest) = putchAll b t' rest) ∧
      face t' = face t ∧ Holds t' (.sequence true params' value true) ∧
      params' ++ [value] = params ++ texts.map decimal := by
  induction texts generalizing t params nump with
  | nil => exact absurd rfl some
  | cons text texts ih =>
    obtain ⟨⟨whole, here⟩, digits⟩ := forall_mem_cons.mp digits
    obtain ⟨t₁, first, still, holds⟩ := putchAll_digits b holds here
    have given : (nump || !text.isEmpty) = true := by simp [whole]
    rw [given] at holds
    cases texts with
    | nil => exact ⟨t₁, params, decimal text, by simpa using first, still, holds, rfl⟩
    | cons next texts =>
      obtain ⟨t₂, second, holds', still'⟩ := putchAll_step b 59#8 holds (by decide) (by simp [Scan.next, isDigit]) (by
        cases holds with
        | sequence state noff =>
          have room : t₁.noff + 1 < 16 := by
            rw [noff]
            simp only [length_cons] at few
            omega
          rw [ansiPutch_sequence state, if_neg (by simp), if_neg (show ¬ isDigit 59#8 by decide), if_pos rfl,
            if_pos room]
          exact ⟨_, rfl⟩)
      obtain ⟨t₃, params', value, third, still'', last, equal⟩ := ih (by simp) digits holds' (by simp at few ⊢; omega)
      refine ⟨t₃, params', value, fun rest => ?_, (still''.trans still').trans still, last,
        by simpa [decimal] using equal⟩
      rw [← third, ← second, ← first]
      simp [intercalate]

theorem sgr_sequence_standard (b : Backend) (t : Term) (texts : List (List Byte)) (outside : t.state = .none)
    (some : texts ≠ []) (few : texts.length ≤ 16)
    (standard : ∀ text ∈ texts, (text ≠ [] ∧ ∀ ch ∈ text, isDigit ch) ∧ decimal text ∈ sgrParams) :
    ∃ t', putchAll b t (sgrSequence texts) = .ok (t', []) ∧ t'.state = .none ∧ t'.row = t.row ∧ t'.col = t.col ∧
      t'.rendition = (texts.map decimal).foldl sgr t.rendition := by
  obtain ⟨t₁, first, holds₁, still₁⟩ := putchAll_step b 27#8 (.text outside) (by decide) (by decide)
    (by simp [ansiPutch, outside])
  obtain ⟨t₂, second, holds₂, still₂⟩ := putchAll_step b 91#8 holds₁ (by decide) (by decide) (by
    cases holds₁ with
    | sequence state => exact ⟨_, (ansiPutch_sequence state).trans rfl⟩)
  obtain ⟨t₃, params, value, third, still₃, holds₃, equal⟩ :=
    putchAll_texts b some (fun text here => (standard text here).1) holds₂ (by simpa using few)
  obtain ⟨⟨t₄, out⟩, last⟩ : ∃ result, ansiPutch b t₃ 109#8 = .ok result := by
    cases holds₃ with
    | sequence state => exact ⟨_, (ansiPutch_sequence state).trans rfl⟩
  have took := holds₃.took last
  obtain ⟨rfl, row, col⟩ := took.quiet (.inr ⟨by simp, rfl⟩)
  have still := (still₃.trans still₂).trans still₁
  simp only [face, Prod.mk.injEq] at still
  refine ⟨t₄, ?_, ?_, row.trans still.1, col.trans still.2.1, ?_⟩
  · change putchAll b t (27#8 :: 91#8 :: ([59#8].intercalate texts ++ [109#8])) = _
    rw [first, second, third, putchAll_cons last]
    rfl
  · cases took.holds with
    | text state => exact state
  · rw [took.rendition, ← still.2.2, ← foldl_sgr (forall_mem_map.mpr fun text here => (standard text here).2),
      ← nil_append (texts.map decimal), ← equal]
    rfl

theorem sgr_sequence_standard_bold : ∃ t', putchAll Vga.ansiBackend zeroTerm (sgrSequence [[49#8], [51#8, 52#8]]) =
    .ok (t', []) ∧ t'.state = .none ∧ t'.row = 0 ∧ t'.col = 0 ∧ t'.rendition = ⟨4, 0, 2#8⟩ :=
  sgr_sequence_standard _ _ _ rfl (by decide) (by decide) (by decide)

end Petix.Proof.Terminal
