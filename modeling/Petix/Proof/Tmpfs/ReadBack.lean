import Petix.Proof.Paging.Boot
import Petix.Proof.Tmpfs.Files
import Petix.Proof.Tmpfs.Nodes

namespace Petix.Proof.Tmpfs
open Library Kernel.Vfs Kernel.Tmpfs Spec.Tmpfs
open Kernel.Container (ItemList Str)
open Kernel.Paging (Allocator Frame)

variable {σ φ : Type} {A : Allocator σ} {heap : Heap} {s : Tmpfs σ φ} {addr : Nat} {data : List Byte}
  {inode : Inode φ} {pages : ItemList Frame} {f : File φ} {off : Nat}

theorem extraPages_add {size middle stop : Nat} (first : size ≤ middle) (second : middle ≤ stop) :
    extraPages size stop = extraPages size middle + extraPages middle stop := by
  simp only [extraPages]
  omega

theorem tmpWrite_append (stored : Stored A s addr data inode pages) (on : OnFile addr data data.length f)
    (r : Request) (supplies : Supplies A (extraPages data.length (data.length + r.n)) s.frames) :
    ∃ inode' pages' f' s', tmpWrite A f r.buf r.n s = .ok (signed32 r.n, f', s') ∧
      Stored A s' addr (data ++ r.bytes) inode' pages' ∧ OnFile addr (data ++ r.bytes) (data ++ r.bytes).length f' ∧
      ∀ k, Supplies A (extraPages data.length (data.length + r.n) + k) s.frames ↔ Supplies A k s'.frames := by
  obtain ⟨inode', pages', s', run, stored', left⟩ := tmpWrite_stored stored on (Nat.le_add_right _ _) supplies
  rw [List.take_length] at stored'
  have total : (data ++ r.bytes).length = data.length + r.n := by rw [List.length_append, length_bytes]
  exact ⟨inode', pages', _, s', run, stored', ⟨on.id, on.regular, by rw [total], by rw [total], le_rfl⟩, left⟩

theorem writeAll_cases (writes : List Request) (stored : Stored A s addr data inode pages)
    (on : OnFile addr data data.length f) : let total := (writes.flatMap Request.bytes).length
    (¬Supplies A (extraPages data.length (data.length + total)) s.frames ∧ writeAll A writes f s = .error .outOfPages) ∨
      Supplies A (extraPages data.length (data.length + total)) s.frames ∧
        ∃ inode' pages' f' s', writeAll A writes f s = .ok (f', s') ∧
          Stored A s' addr (data ++ writes.flatMap Request.bytes) inode' pages' := by
  induction writes generalizing s data inode pages f with
  | nil =>
    refine .inr ⟨?_, inode, pages, f, s, rfl, ?_⟩
    · rw [List.flatMap_nil, List.length_nil, Nat.add_zero, extraPages, Nat.sub_self]
      trivial
    · rwa [List.flatMap_nil, List.append_nil]
  | cons r writes ih =>
    have both : (List.flatMap Request.bytes (r :: writes)).length = r.n + (writes.flatMap Request.bytes).length := by
      rw [List.flatMap_cons, List.length_append, length_bytes]
    have split := extraPages_add (Nat.le_add_right data.length r.n)
      (Nat.le_add_right (data.length + r.n) (writes.flatMap Request.bytes).length)
    simp only [both]
    rw [← Nat.add_assoc, split, writeAll]
    by_cases first : Supplies A (extraPages data.length (data.length + r.n)) s.frames
    · obtain ⟨_, _, _, _, run, stored', on', left⟩ := tmpWrite_append stored on r first
      have later := ih stored' on'
      rw [List.length_append, length_bytes] at later
      rw [run, Result.ok_bind, left, List.flatMap_cons, ← List.append_assoc]
      exact later
    · refine .inl ⟨fun all => first (supplies_mono (Nat.le_add_right _ _) all), ?_⟩
      rw [tmpWrite_short (stored.backed on) on.size on.offset le_rfl r.word
        (mt (available_of_reaches (Nat.le_add_right _ _)).mp first)]
      rfl

theorem signed32_word {n : Nat} (word : n < 2 ^ 32) : (signed32 n % 2 ^ 32).toNat = n := by
  rw [signed32]
  omega

theorem tmpRead_next (stored : Stored A s addr data inode pages) (on : OnFile addr data off f) (r : Request) :
    ∃ f' buf', tmpRead f r.buf r.n s = .ok (signed32 (min (data.drop off).length r.n : Nat), f', buf') ∧
      received (signed32 (min (data.drop off).length r.n : Nat), buf') = (data.drop off).take r.n ∧
      OnFile addr data (off + min (data.length - off) r.n) f' := by
  have inside := on.inside
  have word := r.word
  obtain ⟨buf', run, bytes⟩ := tmpRead_stored stored on r
  rw [List.length_drop]
  refine ⟨_, buf', run, ?_, on.id, on.regular, on.size, rfl, by omega⟩
  rw [received, signed32_word (by omega)]
  apply List.ext_getElem?
  intro i
  rw [List.getElem?_map, List.getElem?_take, List.getElem?_drop]
  by_cases less : i < min (data.length - off) r.n
  · rw [List.getElem?_range less, Option.map_some, if_pos (by omega), bytes i less]
  · rw [List.getElem?_eq_none (by rw [List.length_range]; omega), Option.map_none]
    split
    · rw [List.getElem?_eq_none (by omega)]
    · rfl

theorem drop_min (data : List Byte) (off n : Nat) :
    data.drop (off + min (data.length - off) n) = (data.drop off).drop n := by
  rw [List.drop_drop]
  rcases Nat.le_total n (data.length - off) with inside | past
  · rw [Nat.min_eq_right inside]
  · rw [Nat.min_eq_left past, List.drop_eq_nil_of_le (by omega), List.drop_eq_nil_of_le (by omega)]

theorem readAll_stored (reads : List Request) (stored : Stored A s addr data inode pages)
    (on : OnFile addr data off f) :
    ∃ results f' off', readAll s reads f = .ok (results, f') ∧ Delivers (data.drop off) reads results ∧
      results.flatMap received = (data.drop off).take (reads.map Request.n).sum ∧
      OnFile addr data off' f' ∧ data.drop off' = (data.drop off).drop (reads.map Request.n).sum := by
  induction reads generalizing f off with
  | nil =>
    refine ⟨[], f, off, rfl, rfl, ?_, on, rfl⟩
    rw [List.map_nil, List.sum_nil, List.take_zero, List.flatMap_nil]
  | cons r reads ih =>
    obtain ⟨_, buf', run, bytes, on₁⟩ := tmpRead_next stored on r
    obtain ⟨results, f', off', more, delivers, all, on', behind⟩ := ih on₁
    rw [drop_min] at delivers all behind
    refine ⟨(signed32 (min (data.drop off).length r.n : Nat), buf') :: results, f', off', ?_, ?_, ?_, on', ?_⟩
    · rw [readAll, run, Result.ok_bind]
      dsimp only
      rw [more]
      rfl
    · exact ⟨rfl, bytes, delivers⟩
    · rw [List.flatMap_cons, bytes, all, List.map_cons, List.sum_cons, List.take_add]
    · rw [behind, List.map_cons, List.sum_cons, List.drop_drop]

section Machines

open Proof.Paging Proof.Mem
open Kernel (Mem.Client Mem.ceilDiv Mem.pageSize)

variable {base length count : Nat} {c : { c : Mem.Client // Invariant base length c }}

theorem exists_clear_word (room : c.1.allocated.card < c.1.mem.frames.length * 32) :
    ∃ w ∈ c.1.mem.frames, w ≠ BitVec.allOnes 32 := by
  by_contra full
  push Not at full
  have among : (Finset.range (c.1.mem.frames.length * 32)).image (· + base / Mem.pageSize) ⊆ c.1.allocated := by
    intro _ member
    obtain ⟨_, inside, rfl⟩ := Finset.mem_image.mp member
    rw [Finset.mem_range] at inside
    have word := Bitmap.index_lt inside
    refine (c.2.marked _).mpr ⟨Nat.le_add_left _ _, ?_⟩
    rw [Nat.add_sub_cancel, test_eq word, full _ (List.get_mem _ _), BitVec.getLsbD_allOnes]
    exact decide_eq_true (Nat.mod_lt _ (by decide))
  have := Finset.card_le_card among
  rw [Finset.card_image_of_injective _ (fun _ _ => Nat.add_right_cancel), Finset.card_range] at this
  omega

section
variable (lengthBound : length < 2 ^ 32)
variable (low : Mem.pageSize ≤ base)
variable (high : base / Mem.pageSize + Mem.ceilDiv (length / Mem.pageSize) 32 * 32 ≤ 0xC0000)
include lengthBound low high

theorem allocFrame_found
    (room : c.1.allocated.card < Mem.ceilDiv (length / Mem.pageSize) 32 * 32) :
    ∃ page c', allocFrame c = some (page, c') := by
  have words := c.2.words
  obtain ⟨page, mem, call⟩ : ∃ page mem, Petix.Kernel.Mem.allocPage c.1.mem = .ok (page, mem) := by
    refine (c.2.allocPage_found lengthBound (.inr (exists_clear_word (words ▸ room)))).resolve_right ?_
    exact fun refused => absurd refused.2 (Nat.not_lt.mpr low)
  have marks := (allocPage_cases c.2.consistent call).2.1
  have below : page < 0xC0000 := by
    have inside := marks.high
    rw [c.2.memBase, words] at inside
    omega
  rw [allocFrame]
  split
  · rename_i page' mem' again
    cases call.symm.trans again
    rw [dif_pos below]
    exact ⟨_, _, rfl⟩
  · rename_i failed
    cases call.symm.trans failed

theorem memAllocator_supplies
    (room : c.1.allocated.card + count ≤ Mem.ceilDiv (length / Mem.pageSize) 32 * 32) :
    Supplies (memAllocator base length) count c := by
  induction count generalizing c with
  | zero => trivial
  | succ count ih =>
    obtain ⟨page, c', call⟩ := allocFrame_found (c := c) lengthBound low high (by omega)
    refine ⟨page, c', call, ih ?_⟩
    obtain ⟨_, -, -, equal⟩ := allocFrame_some call
    have more := Finset.card_insert_le page.val c.1.allocated
    rw [equal]
    dsimp only
    omega

end

abbrev Large : Type := { c : Mem.Client // Invariant 0x100000 0x80000000 c }

def largeFrames : Large :=
  ⟨⟨Petix.Kernel.Mem.memInit 0x100000 0x80000000, ∅⟩, invariant_initial (by decide) (by decide)⟩

theorem largeFrames_supplies (few : count ≤ 0x80000) :
    Supplies (memAllocator 0x100000 0x80000000) count largeFrames := by
  apply memAllocator_supplies (by decide) (by decide) (by decide)
  rw [show largeFrames.1.allocated.card = 0 from Finset.card_empty, Nat.zero_add]
  exact few

end Machines

def blankFile : File Unit := ⟨0, 0, ⟨false, .dir, 0, 0, 0, ()⟩, 0⟩

def counted (first : Byte) (n : Nat) (word : n < 2 ^ 32) : Request := ⟨fun i => first + BitVec.ofNat 8 i, n, word⟩

end Petix.Proof.Tmpfs
