import Mathlib.Data.List.Induction
import Mathlib.Data.List.ProdSigma
import Mathlib.Tactic.SplitIfs
import Petix.Library.Result
import Petix.Spec.Terminal

namespace Petix.Proof.Terminal
open Function Library Library.Result Kernel Kernel.Vga Spec.Terminal
open Kernel.Ansi hiding Fault

variable {α : Type} {buff : Nat → α} {target source n : Nat}
variable {r : Rendition} {row col : Nat}

theorem foldl_copy (front : target ≤ source) :
    (List.range n).foldl (fun buff x => update buff (target + x) (buff (source + x))) buff =
      fun i => if target ≤ i ∧ i < target + n then buff (source + (i - target)) else buff i := by
  induction n with
  | zero =>
    funext i
    simp only [List.range_zero, List.foldl_nil, Nat.add_zero]
    rw [if_neg (by omega)]
  | succ n ih =>
    rw [List.range_succ, List.foldl_append, ih, List.foldl_cons, List.foldl_nil]
    funext i
    by_cases last : i = target + n
    · subst last
      rw [update_self]
      dsimp only
      rw [if_neg (by omega), if_pos (by omega), Nat.add_sub_cancel_left]
    · grind

theorem foldl_rows (width : Nat) : (List.range n).foldl (fun buff y => (List.range width).foldl (fun buff x =>
      update buff (y * width + x) (buff ((y + 1) * width + x))) buff) buff =
      fun i => if i < n * width then buff (i + width) else buff i := by
  induction n with
  | zero => simp
  | succ n ih =>
    rw [List.range_succ, List.foldl_append, ih, List.foldl_cons, List.foldl_nil,
      foldl_copy (Nat.mul_le_mul_right width n.le_succ)]
    funext i
    grind

theorem foldl_update (change : α → α) :
    (List.range n).foldl (fun buff x => update buff (target + x) (change (buff (target + x)))) buff =
      fun i => if target ≤ i ∧ i < target + n then change (buff i) else buff i := by
  induction n with
  | zero =>
    funext i
    simp only [List.range_zero, List.foldl_nil, Nat.add_zero]
    rw [if_neg (by omega)]
  | succ n ih =>
    rw [List.range_succ, List.foldl_append, ih, List.foldl_cons, List.foldl_nil]
    funext i
    by_cases last : i = target + n
    · subst last
      rw [update_self]
      dsimp only
      rw [if_neg (by omega), if_pos (by omega)]
    · grind

variable {v : Screen} {t : Term} {u : Scroll} {ch : Byte}

theorem tScrollUp_ch {r c : Nat} (row : r < vgaHeight) (col : c < vgaWidth) :
    ((tScrollUp v).termBuff (r * vgaWidth + c)).ch =
      if r + 1 < vgaHeight then (v.termBuff ((r + 1) * vgaWidth + c)).ch else 32#8 := by
  unfold tScrollUp
  dsimp only
  rw [foldl_rows, foldl_update]
  unfold vgaHeight vgaWidth at *
  dsimp only
  by_cases above : r + 1 < 25
  · rw [if_neg (by omega), if_pos (by omega), if_pos above, Nat.add_right_comm, ← Nat.succ_mul]
  · rw [if_pos (by omega), if_neg above]
    rfl

theorem tPutch_default (v : Screen) (ch : Byte) (fg : r.fg = ansiDefault)
    (bg : r.bg = ansiDefault) (inRows : row < vgaHeight) (inCols : col < vgaWidth) :
    ∃ v', tPutch v r ch row col = .ok v' ∧ v'.cursor = v.cursor ∧
      ∀ i, (v'.termBuff i).ch = if i = row * vgaWidth + col then ch else (v.termBuff i).ch := by
  have index : (((row : Int) * (vgaWidth : Nat) + col) % 2 ^ 32).toNat = row * vgaWidth + col := by
    unfold vgaHeight vgaWidth at *
    omega
  have within : row * vgaWidth + col < vgaHeight * vgaWidth := by
    unfold vgaHeight vgaWidth at *
    omega
  unfold tPutch colour
  rw [index, if_pos within, fg, bg, if_pos rfl, if_pos rfl]
  refine ⟨_, rfl, rfl, fun i => ?_⟩
  dsimp only
  by_cases here : i = row * vgaWidth + col
  · rw [here, update_self, if_pos rfl]
    split_ifs <;> rfl
  · rw [update_of_ne here, if_neg here]

structure Shows (t : Term) (v : Screen) (u : Scroll) : Prop where
  state : t.state = .none
  fg : t.rendition.fg = ansiDefault
  bg : t.rendition.bg = ansiDefault
  row : t.row = (u.row - u.top vgaHeight : Nat)
  col : t.col = u.col
  width : u.col < vgaWidth
  rest : ∀ r c, u.row < r → u.text r c = 32#8
  text : ∀ r c, r < vgaHeight → c < vgaWidth → (v.termBuff (r * vgaWidth + c)).ch = u.text (u.top vgaHeight + r) c

theorem tCurto_cursor (inRows : row < vgaHeight) (inCols : col < vgaWidth) :
    (tCurto v row col).cursor = row * vgaWidth + col := by
  unfold tCurto vgaHeight vgaWidth at *
  dsimp only
  omega

theorem Shows.settle (shows' : Shows t v u) :
    ∃ v', (Ansi.settle ansiBackend t).2.foldlM display v = .ok v' ∧ Shows (Ansi.settle ansiBackend t).1 v' u ∧
      v'.cursor = u.place vgaHeight vgaWidth := by
  have inRows : u.row - u.top vgaHeight < vgaHeight := by
    unfold Scroll.top vgaHeight
    omega
  have settled : Ansi.settle ansiBackend t = (t, [.curto t.row t.col]) := by
    apply if_neg
    rw [shows'.row]
    change ((u.row - u.top vgaHeight : Nat) : Int) ≠ (vgaHeight : Nat)
    omega
  rw [settled, shows'.row, shows'.col]
  refine ⟨_, rfl, ?_, tCurto_cursor inRows shows'.width⟩
  exact ⟨shows'.state, shows'.fg, shows'.bg, shows'.row, shows'.col, shows'.width, shows'.rest, shows'.text⟩

theorem Shows.nextRow (shows' : Shows t v u) :
    ∃ v', (Ansi.settle ansiBackend { t with row := t.row + 1, col := 0 }).2.foldlM display v = .ok v' ∧
      Shows (Ansi.settle ansiBackend { t with row := t.row + 1, col := 0 }).1 v' { u with row := u.row + 1, col := 0 } ∧
      v'.cursor = Scroll.place vgaHeight vgaWidth { u with row := u.row + 1, col := 0 } := by
  have row := shows'.row
  have rest := shows'.rest
  by_cases above : u.row + 1 < vgaHeight
  · have below : Shows { t with row := t.row + 1, col := 0 } v { u with row := u.row + 1, col := 0 } := by
      have tops : Scroll.top vgaHeight { u with row := u.row + 1, col := 0 } = u.top vgaHeight := by
        unfold Scroll.top vgaHeight at *
        dsimp only
        omega
      refine ⟨shows'.state, shows'.fg, shows'.bg, ?_, rfl, Nat.succ_pos _, fun r c less => ?_, ?_⟩
      · dsimp only
        unfold Scroll.top vgaHeight at *
        omega
      · exact rest r c (Nat.lt_of_succ_lt less)
      · rw [tops]
        exact shows'.text
    exact below.settle
  · have last : t.row = (vgaHeight - 1 : Nat) := by
      unfold Scroll.top vgaHeight at *
      omega
    have settled : Ansi.settle ansiBackend { t with row := t.row + 1, col := 0 } =
        ({ t with row := (vgaHeight - 1 : Nat), col := 0 }, [.scrollUp, .curto (vgaHeight - 1 : Nat) 0]) := by
      rw [last]
      rfl
    have tops : Scroll.top vgaHeight { u with row := u.row + 1, col := 0 } = u.top vgaHeight + 1 := by
      unfold Scroll.top vgaHeight at *
      dsimp only
      omega
    have bottom : u.row + 1 = u.top vgaHeight + 1 + (vgaHeight - 1) := by
      unfold Scroll.top vgaHeight at *
      omega
    rw [settled]
    refine ⟨_, rfl, ⟨shows'.state, shows'.fg, shows'.bg, ?_, rfl, Nat.succ_pos _, fun r c less => ?_,
      fun r c row col => ?_⟩, ?_⟩
    · dsimp only
      omega
    · exact rest r c (Nat.lt_of_succ_lt less)
    · rw [tops]
      refine (tScrollUp_ch row col).trans ?_
      split_ifs with above
      · rw [shows'.text (r + 1) c above col, Nat.add_right_comm]
        rfl
      · exact (rest _ c (by omega)).symm
    · rw [Scroll.place, tops, bottom, Nat.add_sub_cancel_left]
      exact tCurto_cursor (by decide) (Nat.succ_pos _)

theorem Shows.write (shows' : Shows t v u) (ch : Byte) : ∃ v', tPutch v t.rendition ch t.row t.col = .ok v' ∧
      Shows t v' { u with text := update u.text u.row (update (u.text u.row) u.col ch) } := by
  have inRows : u.row - u.top vgaHeight < vgaHeight := by
    unfold Scroll.top vgaHeight
    omega
  rw [shows'.row, shows'.col]
  obtain ⟨v', run, -, chars⟩ := tPutch_default v ch shows'.fg shows'.bg inRows shows'.width
  refine ⟨v', run, shows'.state, shows'.fg, shows'.bg, shows'.row, shows'.col, shows'.width, fun r c less => ?_,
    fun r c row col => ?_⟩
  · dsimp only
    rw [update_of_ne (by dsimp only at less; omega)]
    exact shows'.rest r c less
  · have place : r * vgaWidth + c = (u.row - u.top vgaHeight) * vgaWidth + u.col ↔
        u.top vgaHeight + r = u.row ∧ c = u.col := by
      have width := shows'.width
      unfold Scroll.top vgaHeight vgaWidth at *
      omega
    change _ = update u.text u.row (update (u.text u.row) u.col ch) (u.top vgaHeight + r) c
    rw [chars, shows'.text r c row col]
    by_cases here : u.top vgaHeight + r = u.row
    · rw [here, update_self]
      by_cases there : c = u.col
      · rw [if_pos (place.mpr ⟨here, there⟩), there, update_self]
      · rw [if_neg fun equal => there (place.mp equal).2, update_of_ne there]
    · rw [if_neg fun equal => here (place.mp equal).1, update_of_ne here]

theorem putch_eq {out : List Output} {t' : Term} (state : t.state = .none) (other : ch ≠ 27#8)
    (moved : moveCursor ansiBackend t ch = (t', out)) : putch (t, v) ch = (do
      let v ← out.foldlM display v
      let v ← (Ansi.settle ansiBackend t').2.foldlM display v
      return ((Ansi.settle ansiBackend t').1, v)) := by
  have result : ansiPutch ansiBackend t ch =
      .ok ((Ansi.settle ansiBackend t').1, out ++ (Ansi.settle ansiBackend t').2) := by
    unfold ansiPutch
    rw [state]
    rw [if_neg other, putchUnesc, moved]
  unfold putch
  rw [result]
  change ((out ++ (Ansi.settle ansiBackend t').2).foldlM display v >>= fun v => _) = _
  rw [List.foldlM_append, bind_assoc]

theorem Shows.put (shows' : Shows t v u) (plain : Plain ch) :
    ∃ t' v', putch (t, v) ch = .ok (t', v') ∧ Shows t' v' (u.put vgaWidth ch) ∧
      v'.cursor = (u.put vgaWidth ch).place vgaHeight vgaWidth := by
  have other : ch ≠ 27#8 ∧ ch ≠ 9#8 ∧ ch ≠ 8#8 := by
    refine ⟨?_, ?_, ?_⟩ <;>
      · rintro rfl
        simp [Plain] at plain
  unfold Scroll.put
  by_cases newline : ch = 10#8
  · subst newline
    obtain ⟨v', run, after, cursor⟩ := shows'.nextRow
    rw [putch_eq shows'.state other.1 rfl, if_pos rfl]
    refine ⟨_, v', ?_, after, cursor⟩
    rw [List.foldlM_nil, pure_bind, run]
    rfl
  rw [if_neg newline]
  by_cases carriage : ch = 13#8
  · subst carriage
    have back : Shows { t with col := 0 } v { u with col := 0 } :=
      ⟨shows'.state, shows'.fg, shows'.bg, shows'.row, rfl, Nat.succ_pos _, shows'.rest, shows'.text⟩
    obtain ⟨v', run, after, cursor⟩ := back.settle
    rw [putch_eq shows'.state other.1 rfl, if_pos rfl]
    refine ⟨_, v', ?_, after, cursor⟩
    rw [List.foldlM_nil, pure_bind, run]
    rfl
  rw [if_neg carriage]
  obtain ⟨v₁, write, written⟩ := shows'.write ch
  by_cases wrap : u.col + 1 = vgaWidth
  · have moved : moveCursor ansiBackend t ch = ({ t with row := t.row + 1, col := 0 },
        [.putch t.rendition ch t.row t.col]) := by
      have last : t.col + 1 = ansiBackend.colN := by
        rw [shows'.col]
        exact congrArg Int.ofNat wrap
      simp [moveCursor, newline, carriage, other, last]
    obtain ⟨v', run, after, cursor⟩ := written.nextRow
    rw [putch_eq shows'.state other.1 moved, if_pos wrap]
    refine ⟨_, v', ?_, after, cursor⟩
    rw [List.foldlM_cons, display, write, ok_bind, List.foldlM_nil, pure_bind, run]
    rfl
  · have moved : moveCursor ansiBackend t ch = ({ t with col := t.col + 1 }, [.putch t.rendition ch t.row t.col]) := by
      have last : t.col + 1 ≠ ansiBackend.colN := by
        rw [shows'.col]
        change (u.col : Int) + 1 ≠ (vgaWidth : Nat)
        omega
      simp [moveCursor, newline, carriage, other, last]
    have width := written.width
    have col := written.col
    have next : Shows { t with col := t.col + 1 } v₁ { u with
        text := update u.text u.row (update (u.text u.row) u.col ch)
        col := u.col + 1 } :=
      ⟨written.state, written.fg, written.bg, written.row, by dsimp only at col ⊢; omega,
        by dsimp only at width ⊢; omega, written.rest, written.text⟩
    obtain ⟨v', run, after, cursor⟩ := next.settle
    rw [putch_eq shows'.state other.1 moved, if_neg wrap]
    refine ⟨_, v', ?_, after, cursor⟩
    rw [List.foldlM_cons, display, write, ok_bind, List.foldlM_nil, pure_bind, run]
    rfl

theorem foldlM_spaces (fg : r.fg = ansiDefault) (bg : r.bg = ansiDefault) (places : List (Nat × Nat))
    (inside : ∀ p ∈ places, p.1 < vgaHeight ∧ p.2 < vgaWidth) :
    ∃ v', (places.map fun p => Output.putch r 32#8 p.1 p.2).foldlM display v = .ok v' ∧
      ∀ i, (∃ p ∈ places, p.1 * vgaWidth + p.2 = i) ∨ (v.termBuff i).ch = 32#8 → (v'.termBuff i).ch = 32#8 := by
  induction places generalizing v with
  | nil => exact ⟨v, rfl, by simp⟩
  | cons p places ih =>
    obtain ⟨here, later⟩ := List.forall_mem_cons.mp inside
    obtain ⟨v₁, write, -, _⟩ := tPutch_default v 32#8 fg bg here.1 here.2
    obtain ⟨v', run, blank⟩ := ih (v := v₁) later
    refine ⟨v', ?_, fun i covered => blank i ?_⟩
    · rw [List.map_cons, List.foldlM_cons, display, write, ok_bind, run]
    · grind

theorem init_shows (v : Screen) : ∃ t v', Vga.init (zeroTerm, v) = .ok (t, v') ∧ Shows t v' .empty := by
  have places : clear ansiBackend (ansiInit ansiBackend zeroTerm).1 =
      (List.range vgaHeight ×ˢ List.range vgaWidth).map fun p =>
        Output.putch ⟨ansiDefault, ansiDefault, 0⟩ 32#8 p.1 p.2 := by
    change _ = List.map _ ((List.range vgaHeight).flatMap fun r => (List.range vgaWidth).map (Prod.mk r))
    rw [List.map_flatMap]
    rfl
  obtain ⟨v', run, blank⟩ := foldlM_spaces (r := ⟨ansiDefault, ansiDefault, 0⟩) (v := v) rfl rfl
    (List.range vgaHeight ×ˢ List.range vgaWidth) fun p here => by simpa using List.mem_product.mp here
  refine ⟨(ansiInit ansiBackend zeroTerm).1, v', ?_, rfl, rfl, rfl, rfl, rfl, Nat.succ_pos _, fun _ _ _ => rfl, ?_⟩
  · change ((clear ansiBackend (ansiInit ansiBackend zeroTerm).1).foldlM display v >>= fun v => _) = _
    rw [places, run]
    rfl
  · intro r c row col
    refine blank _ (.inl ⟨(r, c), List.mem_product.mpr ?_, rfl⟩)
    exact ⟨List.mem_range.mpr row, List.mem_range.mpr col⟩

theorem Shows.run (shows' : Shows t v .empty) {bytes : List Byte} (plain : ∀ ch ∈ bytes, Plain ch) :
    ∃ t' v', bytes.foldlM putch (t, v) = .ok (t', v') ∧ Shows t' v' (Scroll.run vgaWidth bytes) ∧
      (bytes ≠ [] → (v'.cursor : Int) = t'.row * vgaWidth + t'.col) := by
  induction bytes using List.reverseRecOn with
  | nil => exact ⟨t, v, rfl, shows', by simp⟩
  | append_singleton bytes ch ih =>
    obtain ⟨before, last⟩ := List.forall_mem_append.mp plain
    obtain ⟨_, _, run, shown, -⟩ := ih before
    obtain ⟨t', v', step, after, cursor⟩ := shown.put (last ch (List.mem_singleton_self ch))
    have next : Scroll.run vgaWidth (bytes ++ [ch]) = (Scroll.run vgaWidth bytes).put vgaWidth ch := by
      simp [Scroll.run]
    refine ⟨t', v', ?_, next ▸ after, fun _ => ?_⟩
    · rw [List.foldlM_append, run, ok_bind, List.foldlM_cons, step, ok_bind]
      rfl
    · rw [cursor, after.row, after.col, Scroll.place]
      rfl

theorem vga_shows_last_rows (v : Screen) (bytes : List Byte) (plain : ∀ ch ∈ bytes, Plain ch) :
    ∃ t v', vgaFeed v bytes = .ok (t, v') ∧ (∀ r c, r < vgaHeight → c < vgaWidth → (v'.termBuff (r * vgaWidth + c)).ch =
        (Scroll.run vgaWidth bytes).text ((Scroll.run vgaWidth bytes).top vgaHeight + r) c) ∧
      t.row = ((Scroll.run vgaWidth bytes).row - (Scroll.run vgaWidth bytes).top vgaHeight : Nat) ∧
      t.col = (Scroll.run vgaWidth bytes).col ∧ (bytes ≠ [] → (v'.cursor : Int) = t.row * vgaWidth + t.col) := by
  obtain ⟨_, _, init, start⟩ := init_shows v
  obtain ⟨t', v', run, after, cursor⟩ := start.run plain
  refine ⟨t', v', ?_, after.text, after.row, after.col, cursor⟩
  unfold vgaFeed
  rw [init, ok_bind, run]

theorem vga_shows_last_rows_scrolled :
    ∃ t v', vgaFeed ⟨fun _ => ⟨0#8, 0, false, 0, false⟩, 0⟩ (97#8 :: List.replicate 25 10#8 ++ [98#8]) = .ok (t, v') ∧
      (v'.termBuff (24 * vgaWidth)).ch = 98#8 ∧ t.row = 24 ∧ t.col = 1 := by
  obtain ⟨t, v', run, text, row, col, -⟩ := vga_shows_last_rows ⟨fun _ => ⟨0#8, 0, false, 0, false⟩, 0⟩
    (97#8 :: List.replicate 25 10#8 ++ [98#8]) (by simp [Plain])
  exact ⟨t, v', run, text 24 0 (by decide) (by decide), row, col⟩

end Petix.Proof.Terminal
