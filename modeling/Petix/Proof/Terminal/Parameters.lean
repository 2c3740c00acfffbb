import Petix.Proof.Terminal.Bounds

namespace Petix.Proof.Terminal
open Function Library Kernel Kernel.Ansi Spec.Terminal

variable {b : Backend} {t t' memory : Term} {ch : Byte} {out : List Output} {σ : Scan} {bytes before : List Byte}
variable {lbrak nump : Bool} {params : List Nat} {value : Nat}

inductive Holds (t : Term) : Scan → Prop
  | text (state : t.state = .none) : Holds t .text
  | sequence {lbrak nump : Bool} {params : List Nat} {value : Nat} (state : t.state = if lbrak then .escLbrak else .esc)
      (noff : t.noff = params.length) (some : t.nump = nump)
      (earlier : (List.range params.length).map t.numerics = ints params)
      (last : t.numerics params.length = signed32 value) : Holds t (.sequence lbrak params value nump)

theorem map_update (f : Nat → Int) (n : Nat) (x : Int) : (List.range n).map (update f n x) = (List.range n).map f :=
  List.map_congr_left fun _ less => update_of_ne (Nat.ne_of_lt (List.mem_range.mp less)) ..

theorem Holds.numerics (holds : Holds t (.sequence lbrak params value nump)) :
    (List.range (t.noff + 1)).map t.numerics = ints (params ++ [value]) := by
  cases holds with
  | sequence state noff some earlier last =>
    rw [noff, List.range_succ, List.map_append, ints, List.map_append, earlier, List.map_singleton, last]
    rfl

def rendered (σ : Scan) (ch : Byte) (r : Rendition) : Rendition :=
  match σ with
  | .sequence true params value true => if ch = 109#8 then (ints (params ++ [value])).foldl renditionStep r else r
  | _ => r

theorem rendered_of_ne (other : ch ≠ 109#8) (r : Rendition) : rendered σ ch r = r := by
  unfold rendered
  split
  · rw [if_neg other]
  · rfl

structure Took (t : Term) (σ : Scan) (ch : Byte) (t' : Term) (out : List Output) : Prop where
  holds : Holds t' (σ.next ch)
  noff : t.noff < 16 → t'.noff < 16
  rendition : t'.rendition = rendered σ ch t.rendition
  quiet : σ.next ch ≠ .text ∨ σ ≠ .text ∧ ch = 109#8 → out = [] ∧ t'.row = t.row ∧ t'.col = t.col

theorem putchUnesc_moves : ∃ row col, (putchUnesc b t ch).1 = { t with row := row, col := col } := by
  unfold putchUnesc moveCursor settle
  dsimp only
  split_ifs <;> exact ⟨_, _, rfl⟩

theorem ansiPutch_sequence (state : t.state = if lbrak then .escLbrak else .esc) : ansiPutch b t ch =
    if lbrak = false ∧ ch = 91#8 then .ok ({ t with state := .escLbrak }, [])
    else if isDigit ch then
      let value := signed32 (signed32 (t.numerics t.noff * 10) + (ch.toNat - 48))
      .ok ({ t with nump := true, numerics := update t.numerics t.noff value }, [])
    else if ch = 59#8 then
      if t.noff + 1 < 16 then
        .ok ({ t with noff := t.noff + 1, numerics := update t.numerics (t.noff + 1) 0 }, [])
      else .error .numerics
    else if lbrak then finishCommand t ch else .ok ({ t with state := .none }, []) := by
  cases lbrak <;> simp [ansiPutch, state]

theorem finishCommand_took (holds : Holds t (.sequence true params value nump)) (next : (Scan.sequence true params value
    nump).next ch = .text) (run : finishCommand t ch = .ok (t', out)) :
    Took t (.sequence true params value nump) ch t' out := by
  have numerics := holds.numerics
  cases holds with
  | sequence state noff some earlier last =>
    unfold finishCommand at run
    generalize number : (if t.nump then t.noff + 1 else 0) = nargs at run
    dsimp only at run
    split_ifs at run with rendition asked short
    · cases run
      refine ⟨next ▸ .text rfl, id, ?_, fun _ => ⟨rfl, rfl, rfl⟩⟩
      rw [some] at number
      subst number
      cases nump with
      | false => rfl
      | true =>
        rw [rendered, if_pos rendition, ← numerics, List.foldl_map]
        rfl
    all_goals
      cases run
      exact ⟨next ▸ .text rfl, id, (rendered_of_ne rendition _).symm,
        fun quiet => absurd quiet (by simp [next, rendition])⟩

theorem isDigit_least (digit : isDigit ch) : 48 ≤ ch.toNat := by
  simp only [isDigit, Bool.and_eq_true, decide_eq_true_eq] at digit
  exact digit.1

theorem Holds.took (holds : Holds t σ) (run : ansiPutch b t ch = .ok (t', out)) : Took t σ ch t' out := by
  have held := holds
  cases holds with
  | text state =>
    simp only [ansiPutch, state] at run
    split_ifs at run with escape
    · cases run
      refine ⟨?_, fun _ => Nat.zero_lt_succ _, rfl, fun _ => ⟨rfl, rfl, rfl⟩⟩
      rw [Scan.next, if_pos escape]
      exact .sequence rfl rfl rfl (by simp [ints]) (by simp [signed32])
    · obtain ⟨_, _, moved⟩ := @putchUnesc_moves b t ch
      have next : Scan.text.next ch = .text := if_neg escape
      rw [Except.ok.inj run] at moved
      subst moved
      exact ⟨next.symm ▸ .text state, id, rfl, by simp [next]⟩
  | @sequence lbrak nump params value state noff some earlier last =>
    rw [ansiPutch_sequence state] at run
    by_cases bracket : lbrak = false ∧ ch = 91#8
    · rw [if_pos bracket] at run
      cases run
      obtain ⟨rfl, rfl⟩ := bracket
      exact ⟨.sequence rfl noff some earlier last, id, rfl, fun _ => ⟨rfl, rfl, rfl⟩⟩
    rw [if_neg bracket] at run
    by_cases digit : isDigit ch
    · rw [if_pos digit] at run
      cases run
      have least := isDigit_least digit
      refine ⟨?_, id, (rendered_of_ne (by rintro rfl; exact absurd digit (by decide)) _).symm, fun _ => ⟨rfl, rfl, rfl⟩⟩
      rw [Scan.next, if_neg bracket, if_pos digit]
      refine .sequence state noff rfl ?_ ?_
      · rw [noff, map_update, earlier]
      · dsimp only
        rw [noff, update_self, last]
        unfold signed32
        push_cast [least]
        omega
    rw [if_neg digit] at run
    by_cases semicolon : ch = 59#8
    · rw [if_pos semicolon] at run
      split_ifs at run with room
      cases run
      refine ⟨?_, fun _ => room, (rendered_of_ne (by rw [semicolon]; decide) _).symm, fun _ => ⟨rfl, rfl, rfl⟩⟩
      rw [Scan.next, if_neg bracket, if_neg digit, if_pos semicolon]
      have length : (params ++ [value]).length = t.noff + 1 := by simp [noff]
      refine .sequence state length.symm some ?_ ?_
      · rw [length, map_update, held.numerics]
      · rw [length]
        simp [signed32]
    rw [if_neg semicolon] at run
    have next : (Scan.sequence lbrak params value nump).next ch = .text := by
      rw [Scan.next, if_neg bracket, if_neg digit, if_neg semicolon]
    cases lbrak with
    | true => exact finishCommand_took held next run
    | false =>
      cases run
      exact ⟨next ▸ .text rfl, id, rfl, fun _ => ⟨rfl, rfl, rfl⟩⟩

theorem ansiPutch_numerics_iff : ansiPutch b t ch = .error .numerics ↔
    t.state ≠ .none ∧ ch = 59#8 ∧ 16 ≤ t.noff + 1 := by
  have finish : finishCommand t ch ≠ .error .numerics := by
    unfold finishCommand
    dsimp only
    split_ifs <;> simp
  unfold ansiPutch
  cases t.state with
  | none => grind
  | esc | escLbrak => grind [isDigit]

theorem putch_moderate_iff (holds : Holds t σ) (moderate : σ.Moderate) :
    ansiPutch b t ch ≠ .error .numerics ∧ Accumulates t ch ↔ (σ.next ch).Moderate := by
  rw [Ne, ansiPutch_numerics_iff, Accumulates]
  cases holds with
  | text state =>
    rw [Scan.next]
    split_ifs <;> simp [state, Scan.Moderate]
  | @sequence lbrak nump params value state noff some earlier last =>
    obtain ⟨few, small⟩ := moderate
    have inside : t.state ≠ .none := by
      rw [state]
      split_ifs <;> simp
    rw [noff, last, signed32_eq small]
    rw [Scan.next]
    split_ifs with bracket digit semicolon
    · obtain ⟨-, rfl⟩ := bracket
      simp [Scan.Moderate, few, isDigit]
      omega
    · have other : ch ≠ 59#8 := by
        rintro rfl
        exact absurd digit (by decide)
      have least := isDigit_least digit
      simp only [inside, digit, other, Scan.Moderate, few, ne_eq, not_false_eq_true, true_and, false_and, and_false,
        true_imp_iff]
      omega
    · simp only [ne_eq, inside, not_false_eq_true, semicolon, Scan.Moderate, List.length_append, isDigit]
      simp
      omega
    · simp [semicolon, digit, Scan.Moderate]

theorem scan_snoc : scan (before ++ [ch]) = (scan before).next ch := by
  rw [scan, List.foldl_append]
  rfl

theorem feed_snoc (run : feed b memory (before ++ [ch]) = .ok (t', out)) : ∃ t earlier more,
    feed b memory before = .ok (t, earlier) ∧ ansiPutch b t ch = .ok (t', more) := by
  unfold feed at run ⊢
  rw [List.foldlM_append] at run
  obtain ⟨⟨t, earlier⟩, first, run⟩ := Result.bind_ok run
  rw [List.foldlM_cons] at run
  obtain ⟨_, run, last⟩ := Result.bind_ok run
  obtain ⟨⟨_, more⟩, step, rest⟩ := Result.bind_ok run
  cases rest
  cases last
  exact ⟨t, earlier, more, first, step⟩

theorem feed_holds (run : feed b memory before = .ok (t, out)) : Holds t (scan before) := by
  induction before using List.reverseRecOn generalizing t out with
  | nil =>
    cases run
    exact .text rfl
  | append_singleton before ch ih =>
    obtain ⟨_, _, _, run, step⟩ := feed_snoc run
    rw [scan_snoc]
    exact ((ih run).took step).holds

theorem feed_noff (small : memory.noff < 16) (run : feed b memory before = .ok (t, out)) : t.noff < 16 := by
  induction before using List.reverseRecOn generalizing t out with
  | nil =>
    cases run
    exact small
  | append_singleton before ch ih =>
    obtain ⟨_, _, _, run, step⟩ := feed_snoc run
    exact ((feed_holds run).took step).noff (ih run)

theorem parameters_fit_iff (b : Backend) (memory : Term) (bytes : List Byte) :
    (∀ before t out, before <+: bytes → feed b memory before = .ok (t, out) → t.noff < 16 ∧
      ∀ ch, before ++ [ch] <+: bytes → ansiPutch b t ch ≠ .error .numerics ∧ Accumulates t ch) ↔
    memory.noff < 16 ∧ ∀ before ch t out, before ++ [ch] <+: bytes → feed b memory before = .ok (t, out) →
      (scan (before ++ [ch])).Moderate := by
  constructor
  · intro fits
    refine ⟨(fits [] _ _ List.nil_prefix rfl).1, fun before => ?_⟩
    induction before using List.reverseRecOn with
    | nil =>
      intro ch t out within run
      rw [scan_snoc]
      exact (putch_moderate_iff (feed_holds run) trivial).mp ((fits [] t out List.nil_prefix run).2 ch within)
    | append_singleton before last ih =>
      intro ch t out within run
      have shorter := (List.prefix_append ..).trans within
      obtain ⟨t₀, earlier, more, run₀, -⟩ := feed_snoc run
      rw [scan_snoc]
      exact (putch_moderate_iff (feed_holds run) (ih last t₀ earlier shorter run₀)).mp
        ((fits _ t out shorter run).2 ch within)
  · rintro ⟨small, moderate⟩ before t out within run
    refine ⟨feed_noff small run, fun ch longer => ?_⟩
    have next := moderate before ch t out longer run
    rw [scan_snoc] at next
    refine (putch_moderate_iff (feed_holds run) ?_).mpr next
    rcases List.eq_nil_or_concat before with rfl | ⟨before, last, rfl⟩
    · trivial
    · rw [List.concat_eq_append] at *
      obtain ⟨t₀, earlier, -, run₀, -⟩ := feed_snoc run
      exact moderate before last t₀ earlier within run₀

theorem parameters_overflow : feed Vga.ansiBackend zeroTerm (27#8 :: List.replicate 16 59#8) = .error .numerics ∧
    ∃ t out, feed Vga.ansiBackend zeroTerm [27#8, 91#8, 50#8, 49#8, 52#8, 55#8, 52#8, 56#8, 51#8, 54#8, 52#8] =
      .ok (t, out) ∧ ¬Accumulates t 56#8 := by
  refine ⟨rfl, _, _, rfl, fun fits => ?_⟩
  exact absurd (fits (by decide) rfl).2 (by decide +kernel)

end Petix.Proof.Terminal
