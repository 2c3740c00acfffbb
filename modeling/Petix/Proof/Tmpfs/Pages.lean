import Petix.Library.Result
import Petix.Spec.Tmpfs

namespace Petix.Proof.Tmpfs
open Library Kernel.Vfs Kernel.Tmpfs Spec.Tmpfs Paged
open Kernel.Container (ItemList listAppend listAt)
open Kernel.Paging (Allocator Frame)

variable {σ : Type} {A : Allocator σ} {pages : ItemList Frame} {frames : σ} {mem : PageMemory} {buf : Buffer}
  {stop fuel off pos : Nat}
variable {count : Nat} {page : Frame}

structure Grown (A : Allocator σ) (count : Nat) (pages : ItemList Frame) (frames : σ) (pages' : ItemList Frame)
    (frames' : σ) : Prop where
  longer : ∃ new : List Frame, pages'.items = pages.items ++ new ∧ new.length = count ∧ new.Nodup ∧
    (∀ page ∈ new, ¬A.allocated frames page ∧ page.val < 0xC0000) ∧
    ∀ page, A.allocated frames' page ↔ page ∈ new ∨ A.allocated frames page
  left : ∀ k, Supplies A (count + k) frames ↔ Supplies A k frames'

theorem growPages_grown (supplies : Supplies A count frames) (pages : ItemList Frame) :
    ∃ pages' frames', growPages A count pages frames = .ok (pages', frames') ∧
      Grown A count pages frames pages' frames' := by
  induction count generalizing pages frames with
  | zero => exact ⟨pages, frames, rfl, ⟨[], by simp⟩, fun k => by rw [Nat.zero_add]⟩
  | succ count ih =>
    obtain ⟨page, frames₁, alloc, more⟩ := supplies
    obtain ⟨pages', frames', run, ⟨new, items, length, distinct, unused, allocated⟩, left⟩ :=
      ih more (listAppend pages page)
    have first := A.alloc_iff alloc
    refine ⟨pages', frames', ?_, ⟨page :: new, ?_, ?_, ?_, ?_, ?_⟩, fun k => ?_⟩
    · rw [growPages, alloc]
      exact run
    · rw [items, listAppend, List.append_assoc, List.singleton_append]
    · rw [List.length_cons, length]
    · refine List.nodup_cons.mpr ⟨fun again => ?_, distinct⟩
      exact (unused page again).1 ((first page).mpr (.inl rfl))
    · intro other among
      rcases List.mem_cons.mp among with rfl | later
      · exact ⟨A.fresh alloc, A.mapped alloc⟩
      · exact ⟨fun already => (unused other later).1 ((first other).mpr (.inr already)), (unused other later).2⟩
    · intro _
      rw [allocated, first, List.mem_cons, or_left_comm, or_assoc]
    · rw [Nat.succ_add, ← left]
      constructor
      · rintro ⟨_, _, again, rest⟩
        cases alloc.symm.trans again
        exact rest
      · exact fun rest => ⟨page, frames₁, alloc, rest⟩

theorem Grown.own {pages' : ItemList Frame} {frames' : σ}
    (grown : Grown A count pages frames pages' frames')
    (distinct : pages.items.Nodup) (held : ∀ page ∈ pages.items, A.allocated frames page ∧ page.val < 0xC0000) :
    pages'.items.Nodup ∧ (∀ page ∈ pages'.items, A.allocated frames' page ∧ page.val < 0xC0000) ∧
      pages'.items.length = pages.items.length + count := by
  obtain ⟨_, items, length, distinct', unused, allocated⟩ := grown.longer
  rw [items]
  refine ⟨distinct.append distinct' fun page old added => ?_, fun page member => ?_, ?_⟩
  · exact (unused page added).1 (held page old).1
  · rcases List.mem_append.mp member with old | added
    · exact ⟨(allocated page).mpr (.inr (held page old).1), (held page old).2⟩
    · exact ⟨(allocated page).mpr (.inl added), (unused page added).2⟩
  · rw [List.length_append, length]

theorem growPages_error (short : ¬Supplies A count frames) :
    growPages A count pages frames = .error .outOfPages := by
  induction count generalizing pages frames with
  | zero => exact absurd trivial short
  | succ count ih =>
    rw [growPages]
    cases alloc : A.allocPage frames with
    | none => rfl
    | some given => exact ih fun more => short ⟨given.1, given.2, alloc, more⟩

theorem supplies_mono {few many : Nat} (less : few ≤ many) (supplies : Supplies A many frames) :
    Supplies A few frames := by
  induction few generalizing many frames with
  | zero => trivial
  | succ few ih =>
    obtain ⟨_, rfl⟩ := Nat.exists_eq_add_of_le' (Nat.one_le_of_lt less)
    obtain ⟨page, frames', alloc, more⟩ := supplies
    exact ⟨page, frames', alloc, ih (by omega) more⟩

theorem listAt_inside (inside : off < pageSize * pages.items.length) :
    ∃ page, listAt pages (off / pageSize) = some page :=
  ⟨_, List.getElem?_eq_getElem (Nat.div_lt_of_lt_mul inside)⟩

def pageRest (off : Nat) : Nat := pageSize - off % pageSize

theorem off_add_pageRest (off : Nat) : off + pageRest off = pageSize * (off / pageSize + 1) := by
  rw [pageRest, pageSize]
  omega

theorem div_off_add_pageRest (off : Nat) : (off + pageRest off) / pageSize = off / pageSize + 1 := by
  rw [off_add_pageRest, Nat.mul_div_cancel_left _ (by decide)]

theorem place_of_lt {k : Nat} (within : k < pageRest off) :
    (off + k) / pageSize = off / pageSize ∧ (off + k) % pageSize = off % pageSize + k := by
  rw [pageRest, pageSize] at within
  rw [pageSize]
  omega

def pageEnd (stop : Nat) : Nat := pageSize * ((stop + 4095) / 4096)

theorem le_pageEnd (stop : Nat) : stop ≤ pageEnd stop := by
  rw [pageEnd, pageSize]
  omega

theorem pageEnd_eq : pageEnd stop = stop ↔ pageSize ∣ stop := by
  rw [pageEnd, pageSize]
  omega

theorem off_add_pageRest_le (more : off < stop) : off + pageRest off ≤ pageEnd stop := by
  rw [pageRest, pageEnd, pageSize]
  omega

theorem pageEnd_le_off_add_pageRest (done : stop ≤ off + pageRest off) : pageEnd stop ≤ off + pageRest off := by
  rw [pageRest, pageSize] at done
  rw [pageRest, pageEnd, pageSize]
  omega

theorem pageRest_le (off : Nat) : pageRest off ≤ pageSize := Nat.sub_le ..

theorem readLoop_done (done : stop ≤ off) : readLoop pages mem stop (fuel + 1) off pos buf = .ok buf := by
  rw [readLoop, if_neg (by omega)]

theorem readLoop_step (more : off < stop) (word : off + pageRest off < 2 ^ 32)
    (here : listAt pages (off / pageSize) = some page) : readLoop pages mem stop (fuel + 1) off pos buf =
      readLoop pages mem stop fuel (off + pageRest off) (pos + pageRest off)
        (memcpy buf pos (mem page) (off % pageSize) (pageRest off)) := by
  have word := Nat.mod_eq_of_lt word
  rw [pageRest] at word ⊢
  rw [readLoop, if_pos (by omega)]
  simp only [here, word]

theorem readLoop_eq (off pos fuel : Nat) (mem : PageMemory) (buf : Buffer)
    (inside : stop ≤ pageSize * pages.items.length) (small : stop < 2 ^ 32 - pageSize)
    (enough : stop ≤ pageSize * (off / pageSize + fuel)) :
    ∃ buf', readLoop pages mem stop (fuel + 1) off pos buf = .ok buf' ∧
      ∀ i, if pos ≤ i ∧ off < stop ∧ off + (i - pos) < pageEnd stop
        then cell pageSize pages.items mem (off + (i - pos)) = some (buf' i) else buf' i = buf i := by
  induction fuel generalizing off pos buf with
  | zero =>
    have done : stop ≤ off := enough.trans (Nat.mul_div_le off pageSize)
    exact ⟨buf, readLoop_done done, fun i => by rw [if_neg (by omega)]⟩
  | succ fuel ih =>
    by_cases more : off < stop
    · obtain ⟨_, here⟩ := listAt_inside (show off < pageSize * pages.items.length by omega)
      have bound := pageRest_le off
      rw [readLoop_step more (by omega) here]
      have enough' : stop ≤ pageSize * ((off + pageRest off) / pageSize + fuel) := by
        rwa [div_off_add_pageRest, Nat.add_assoc, Nat.add_comm 1]
      obtain ⟨buf', run, cells⟩ := ih _ _ _ enough'
      refine ⟨buf', run, fun i => ?_⟩
      have reach := off_add_pageRest_le more
      have last := @pageEnd_le_off_add_pageRest stop off
      specialize cells i
      by_cases within : pos ≤ i ∧ i - pos < pageRest off
      · obtain ⟨index, place⟩ := place_of_lt within.2
        rw [if_neg (by omega), memcpy, if_pos (by omega), ← place] at cells
        rw [if_pos (by omega), cells, cell_of_page (index ▸ here)]
      · split at cells
        · have place : pageRest off + (i - (pos + pageRest off)) = i - pos := by omega
          rw [if_pos (by omega), ← cells, Nat.add_assoc, place]
        · rw [if_neg (by omega), cells, memcpy, if_neg (by omega)]
    · exact ⟨buf, readLoop_done (by omega), fun i => by rw [if_neg (by omega)]⟩

theorem readLoop_past (off pos fuel : Nat) (buf : Buffer) (past : 2 ^ 32 ≤ stop) (word : off < 2 ^ 32)
    (few : pages.items.length < pageCount) (enough : pages.items.length ≤ off / pageSize + fuel) :
    readLoop pages mem stop (fuel + 1) off pos buf = .error .pastList := by
  induction fuel generalizing off pos buf with
  | zero =>
    have none : listAt pages (off / pageSize) = none := List.getElem?_eq_none enough
    rw [readLoop, if_pos (by omega)]
    simp only [none]
  | succ fuel ih =>
    cases here : listAt pages (off / pageSize) with
    | none =>
      rw [readLoop, if_pos (by omega)]
      simp only [here]
    | some page =>
      have inside := (List.getElem?_eq_some_iff.mp here).1
      have low : off + pageRest off < 2 ^ 32 := by
        rw [pageCount] at few
        rw [off_add_pageRest]
        rw [pageSize] at inside ⊢
        omega
      rw [readLoop_step (by omega) low here]
      apply ih _ _ _ low
      rwa [div_off_add_pageRest, Nat.add_assoc, Nat.add_comm 1]

theorem writeLoop_done (done : stop ≤ off) : writeLoop pages buf stop (fuel + 1) off pos mem = .ok mem := by
  rw [writeLoop, if_neg (by omega)]

def stored (mem : PageMemory) (page : Frame) (off : Nat) (buf : Buffer) (pos : Nat) : PageMemory :=
  Function.update mem page (memcpy (mem page) (off % pageSize) buf pos (pageRest off))

theorem writeLoop_step (more : off < stop) (small : stop < 2 ^ 32 - pageSize)
    (here : listAt pages (off / pageSize) = some page) : writeLoop pages buf stop (fuel + 1) off pos mem =
      if stop < pageSize then writeLoop pages buf stop fuel stop (pos + (stop - off)) (stored mem page off buf pos)
      else writeLoop pages buf stop fuel (off + pageRest off) (pos + pageRest off) (stored mem page off buf pos) := by
  have bound := pageRest_le off
  have below := Nat.mod_le off pageSize
  have left : (stop : Int) - (off % pageSize : Nat) = (stop - off % pageSize : Nat) := by omega
  have delta : clamp ((stop : Int) - (off % pageSize : Nat)) (pageSize - off % pageSize) =
      if stop < pageSize then stop - off else pageRest off := by
    rw [left, clamp_eq (by omega), pageRest]
    split
    · rename_i single
      rw [Nat.mod_eq_of_lt (more.trans single)]
      omega
    · omega
  rw [writeLoop, if_pos (by omega)]
  simp only [here, delta]
  split
  · rw [Nat.add_sub_cancel' more.le, Nat.mod_eq_of_lt (by omega)]
    rfl
  · rw [Nat.mod_eq_of_lt (show off + pageRest off < 2 ^ 32 by omega)]
    rfl

theorem cell_stored (distinct : pages.items.Nodup) (here : listAt pages (off / pageSize) = some page)
    (i : Nat) : cell pageSize pages.items (stored mem page off buf pos) i =
      if off ≤ i ∧ i < off + pageRest off then some (buf (pos + (i - off))) else cell pageSize pages.items mem i := by
  rw [stored, cell_update distinct here, memcpy, pageRest]
  by_cases same : i / pageSize = off / pageSize
  · rw [if_pos same, cell_of_page (same ▸ here)]
    rw [pageSize] at same ⊢
    by_cases within : off ≤ i
    · rw [if_pos (by omega), if_pos (by omega)]
      congr 3
      omega
    · rw [if_neg (by omega), if_neg (by omega)]
  · rw [if_neg same, if_neg]
    rw [pageSize] at same ⊢
    omega

theorem writeLoop_eq (off pos fuel : Nat) (mem : PageMemory) (buf : Buffer) (distinct : pages.items.Nodup)
    (inside : stop ≤ pageSize * pages.items.length) (small : stop < 2 ^ 32 - pageSize)
    (enough : stop ≤ pageSize * (off / pageSize + fuel)) :
    ∃ mem', writeLoop pages buf stop (fuel + 1) off pos mem = .ok mem' ∧
      ∀ i, cell pageSize pages.items mem' i = if off ≤ i ∧ off < stop ∧ i < pageEnd stop
        then some (buf (pos + (i - off))) else cell pageSize pages.items mem i := by
  induction fuel generalizing off pos mem with
  | zero =>
    have done : stop ≤ off := enough.trans (Nat.mul_div_le off pageSize)
    exact ⟨mem, writeLoop_done done, fun i => by rw [if_neg (by omega)]⟩
  | succ fuel ih =>
    by_cases more : off < stop
    · obtain ⟨_, here⟩ := listAt_inside (show off < pageSize * pages.items.length by omega)
      have reach := off_add_pageRest_le more
      have last := @pageEnd_le_off_add_pageRest stop off
      rw [writeLoop_step more small here]
      split
      · rename_i single
        have only : stop ≤ off + pageRest off := by
          rw [pageRest, Nat.mod_eq_of_lt (more.trans single)]
          omega
        refine ⟨_, writeLoop_done le_rfl, fun i => ?_⟩
        rw [cell_stored distinct here]
        exact if_congr (by omega) rfl rfl
      · have enough' : stop ≤ pageSize * ((off + pageRest off) / pageSize + fuel) := by
          rwa [div_off_add_pageRest, Nat.add_assoc, Nat.add_comm 1]
        obtain ⟨mem', run, cells⟩ := ih _ _ _ enough'
        refine ⟨mem', run, fun i => ?_⟩
        rw [cells, cell_stored distinct here]
        by_cases within : i < off + pageRest off
        · rw [if_neg (by omega)]
          exact if_congr (by omega) rfl rfl
        · rw [if_neg (show ¬(off ≤ i ∧ i < off + pageRest off) by omega)]
          split
          · rw [if_pos (by omega)]
            congr 2
            omega
          · rw [if_neg (by omega)]
    · exact ⟨mem, writeLoop_done (by omega), fun i => by rw [if_neg (by omega)]⟩

theorem writeLoop_congr {buf' : Buffer} (off pos fuel : Nat) (mem : PageMemory) (small : stop < 2 ^ 32 - pageSize)
    (whole : off < stop → pageSize ∣ stop) (same : ∀ i < pos + (stop - off), buf' i = buf i) :
    writeLoop pages buf' stop fuel off pos mem = writeLoop pages buf stop fuel off pos mem := by
  induction fuel generalizing off pos mem with
  | zero => rfl
  | succ fuel ih =>
    by_cases more : off < stop
    · cases here : listAt pages (off / pageSize) with
      | none => simp only [writeLoop, here]
      | some page =>
        have reach := off_add_pageRest_le more
        have stops := pageEnd_eq.mpr (whole more)
        have copied : stored mem page off buf' pos = stored mem page off buf pos := by
          rw [stored, stored]
          congr 1
          funext k
          rw [memcpy, memcpy]
          split
          · exact same _ (by omega)
          · rfl
        have multiple : ¬stop < pageSize := Nat.not_lt.mpr (Nat.le_of_dvd (by omega) (whole more))
        rw [writeLoop_step more small here, writeLoop_step more small here, if_neg multiple, if_neg multiple, copied]
        exact ih _ _ _ (fun _ => whole more) fun i less => same i (by omega)
    · rw [writeLoop_done (by omega), writeLoop_done (by omega)]

end Petix.Proof.Tmpfs
