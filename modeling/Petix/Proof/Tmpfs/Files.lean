import Petix.Proof.Tmpfs.Pages

namespace Petix.Proof.Tmpfs
open Function (update_of_ne update_self)
open Library Library.Result Kernel.Vfs Kernel.Tmpfs Spec.Tmpfs Paged
open Kernel.Container (ItemList Str listInit)
open Kernel.Paging (Allocator Frame)

variable {σ φ : Type} {A : Allocator σ} {heap : Heap} {s s' : Tmpfs σ φ} {addr : Nat} {data : List Byte}
  {f : File φ} {r : Request} {off : Nat}
variable {frames : σ}

structure Stored (A : Allocator σ) (s : Tmpfs σ φ) (addr : Nat) (data : List Byte) (inode : Inode φ)
    (pages : ItemList Frame) : Prop where
  node : s.nodes addr = some ⟨inode, .pages pages⟩
  regular : inode.ftype = .regular
  id : inode.inodeId = addr
  size : inode.size = data.length
  count : pages.items.length = (data.length + 4095) / 4096
  distinct : pages.items.Nodup
  held : ∀ page ∈ pages.items, A.allocated s.frames page ∧ page.val < 0xC0000
  bytes : ∀ i < data.length, cell pageSize pages.items s.mem i = data[i]?

structure OnFile (addr : Nat) (data : List Byte) (off : Nat) (f : File φ) : Prop where
  id : f.inode.inodeId = addr
  regular : f.inode.ftype = .regular
  size : f.size = data.length
  offset : f.offset = off
  inside : off ≤ data.length

structure Backed (A : Allocator σ) (s : Tmpfs σ φ) (f : File φ) (inode : Inode φ) (pages : ItemList Frame) : Prop where
  node : s.nodes f.inode.inodeId = some ⟨inode, .pages pages⟩
  regular : f.inode.ftype = .regular
  distinct : pages.items.Nodup
  held : ∀ page ∈ pages.items, A.allocated s.frames page ∧ page.val < 0xC0000
  size : 0 ≤ f.size ∧ f.size ≤ (pageSize * pages.items.length : Nat)

theorem length_le_frames {items : List Frame} (distinct : items.Nodup) (mapped : ∀ page ∈ items, page.val < 0xC0000) :
    items.length ≤ 0xC0000 := by
  have values := distinct.map fun _ _ => Fin.eq_of_val_eq
  have among : items.map Fin.val ⊆ List.range 0xC0000 := by
    intro _ member
    obtain ⟨page, here, rfl⟩ := List.mem_map.mp member
    exact List.mem_range.mpr (mapped page here)
  have := (values.subperm among).length_le
  rwa [List.length_map, List.length_range] at this

theorem ceilPages_eq {x : Nat} (small : x < 2 ^ 34) : ceilPages x = (x + 4095) / 4096 := by
  have sum : (x : Int) + pageSize - 1 = (x + 4095 : Nat) := by
    rw [pageSize]
    omega
  rw [ceilPages, sum, pageSize, ← Int.ofNat_tdiv]
  omega

variable {inode : Inode φ} {pages : ItemList Frame}

theorem Stored.backed (stored : Stored A s addr data inode pages) (on : OnFile addr data off f) :
    Backed A s f inode pages := by
  refine ⟨on.id ▸ stored.node, on.regular, stored.distinct, stored.held, ?_⟩
  have count := stored.count
  rw [on.size, pageSize]
  omega

theorem Stored.small (stored : Stored A s addr data inode pages) : data.length ≤ 4096 * 0xC0000 := by
  have := length_le_frames stored.distinct fun page here => (stored.held page here).2
  have := stored.count
  omega

theorem Backed.few (backed : Backed A s f inode pages) : pages.items.length ≤ 0xC0000 :=
  length_le_frames backed.distinct fun page here => (backed.held page here).2

theorem tmpRead_eq {buf : Buffer} {n : Nat} (regular : f.inode.ftype = .regular)
    (node : s.nodes f.inode.inodeId = some ⟨inode, .pages pages⟩) : tmpRead f buf n s = do
      let buf ← readLoop pages s.mem (f.offset + clamp (f.size - f.offset) n) (pageCount + 2)
        (f.offset % 2 ^ 32).toNat 0 buf
      return (signed32 (clamp (f.size - f.offset) n), { f with offset := f.offset + clamp (f.size - f.offset) n },
        buf) := by
  rw [tmpRead, if_neg (not_not.mpr regular), node_some node, ok_bind, pages_mk, ok_bind]

theorem tmpRead_backed (backed : Backed A s f inode pages) {size : Nat} (known : f.size = size)
    (offset : f.offset = off) (inside : off ≤ size) {n : Nat} (word : n < 2 ^ 32) (buf : Buffer) :
    ∃ buf', tmpRead f buf n s = .ok (signed32 (min (size - off) n : Nat),
        { f with offset := (off + min (size - off) n : Nat) }, buf') ∧
      ∀ i, if 0 < min (size - off) n ∧ off + i < pageEnd (off + min (size - off) n)
        then cell pageSize pages.items s.mem (off + i) = some (buf' i) else buf' i = buf i := by
  have few := backed.few
  have paged := backed.size.2
  generalize bound : min (size - off) n = len
  have left : f.size - f.offset = (size - off : Nat) := by omega
  have start : (f.offset % 2 ^ 32).toNat = off := by
    rw [pageSize] at paged
    omega
  have wordInside : off + len < 2 ^ 32 - pageSize := by
    rw [pageSize] at paged ⊢
    omega
  have enough : off + len ≤ pageSize * (off / pageSize + (pageCount + 1)) := by
    rw [pageSize, pageCount]
    omega
  have pageInside : off + len ≤ pageSize * pages.items.length := by omega
  obtain ⟨buf', run, cells⟩ := readLoop_eq off 0 _ s.mem buf pageInside wordInside enough
  refine ⟨buf', ?_, fun i => ?_⟩
  · rw [tmpRead_eq backed.regular backed.node, left, clamp_eq word, bound, start, offset, ← Int.natCast_add, run]
    rfl
  · simpa using cells i

theorem tmpRead_stored (stored : Stored A s addr data inode pages) (on : OnFile addr data off f) (r : Request) :
    ∃ buf', tmpRead f r.buf r.n s = .ok (signed32 (min (data.length - off) r.n : Nat),
        { f with offset := (off + min (data.length - off) r.n : Nat) }, buf') ∧
      ∀ i < min (data.length - off) r.n, data[off + i]? = some (buf' i) := by
  obtain ⟨buf', run, cells⟩ := tmpRead_backed (stored.backed on) on.size on.offset on.inside r.word r.buf
  refine ⟨buf', run, fun i less => ?_⟩
  have last := le_pageEnd (off + min (data.length - off) r.n)
  have here := cells i
  rwa [if_pos (by omega), stored.bytes _ (by omega)] at here

def extraPages (size stop : Nat) : Nat := (stop + 4095) / 4096 - (size + 4095) / 4096

theorem length_bytes (r : Request) : r.bytes.length = r.n := by rw [Request.bytes, List.length_map, List.length_range]

theorem bytes_get (r : Request) {i : Nat} (inside : i < r.n) : r.bytes[i]? = some (r.buf i) := by
  rw [Request.bytes, List.getElem?_map, List.getElem?_range inside, Option.map_some]

theorem tmpWrite_eq {buf : Buffer} {n : Nat} (regular : f.inode.ftype = .regular)
    (node : s.nodes f.inode.inodeId = some ⟨inode, .pages pages⟩) : tmpWrite A f buf n s = do
      let (pages, frames) ← growPages A (sub32 (ceilPages (f.offset + n)) (ceilPages f.size)) pages s.frames
      let mem ← writeLoop pages buf (f.offset + n) (pageCount + 2) (f.offset % 2 ^ 32).toNat 0 s.mem
      return (signed32 n, { f with size := max f.size (f.offset + n), offset := f.offset + n },
        { s.setNode f.inode.inodeId
            ⟨{ inode with size := (max f.size (f.offset + n) % 2 ^ 32).toNat }, .pages pages⟩ with
          frames := frames, mem := mem }) := by
  rw [tmpWrite, if_neg (not_not.mpr regular), node_some node, ok_bind, pages_mk, ok_bind]

theorem supplies_le {count : Nat} (supplies : Supplies A count frames) : count ≤ 0xC0000 := by
  obtain ⟨_, _, -, ⟨_, -, rfl, distinct, unused, -⟩, -⟩ := growPages_grown supplies listInit
  exact length_le_frames distinct fun page here => (unused page here).2

def Available (A : Allocator σ) (frames : σ) (size stop : Nat) : Prop :=
  (size + 4095) / 4096 ≤ (stop + 4095) / 4096 ∧ Supplies A (extraPages size stop) frames

section
variable (backed : Backed A s f inode pages) {size : Nat} (known : f.size = size) (offset : f.offset = off)
  (inside : off ≤ size) {n : Nat} (word : n < 2 ^ 32) {buf : Buffer}
include backed known offset inside word

theorem tmpWrite_short (short : ¬Available A s.frames size (off + n)) : tmpWrite A f buf n s = .error .outOfPages := by
  have few := backed.few
  have paged := backed.size.2
  rw [known, pageSize] at paged
  rw [tmpWrite_eq backed.regular backed.node, known, offset, ← Int.natCast_add]
  generalize counted : sub32 (ceilPages (off + n : Nat)) (ceilPages size) = count
  have lacking : ¬Supplies A count s.frames := by
    intro supplies
    have most := supplies_le supplies
    rw [ceilPages_eq (by omega), ceilPages_eq (by omega)] at counted
    by_cases wraps : (size + 4095) / 4096 ≤ (off + n + 4095) / 4096
    · rw [sub32_eq wraps (by omega)] at counted
      subst counted
      exact short ⟨wraps, supplies⟩
    · rw [sub32] at counted
      omega
  rw [growPages_error lacking]
  rfl

theorem tmpWrite_backed (available : Available A s.frames size (off + n)) :
    ∃ pages' frames' mem', Grown A (extraPages size (off + n)) pages s.frames pages' frames' ∧
      pages'.items.length ≤ 0xC0000 ∧ off + n ≤ pageSize * pages'.items.length ∧ tmpWrite A f buf n s =
        .ok (signed32 n, { f with size := (max size (off + n) : Nat), offset := (off + n : Nat) },
          { s.setNode f.inode.inodeId ⟨{ inode with size := max size (off + n) }, .pages pages'⟩ with
            frames := frames', mem := mem' }) ∧
      ∀ i, cell pageSize pages'.items mem' i = if off ≤ i ∧ 0 < n ∧ i < pageEnd (off + n)
        then some (buf (i - off)) else cell pageSize pages'.items s.mem i := by
  obtain ⟨grows, supplies⟩ := available
  have paged := backed.size.2
  obtain ⟨pages', frames', grow, grown⟩ := growPages_grown supplies pages
  obtain ⟨distinct', held', longer⟩ := grown.own backed.distinct backed.held
  have few' := length_le_frames distinct' fun page here => (held' page here).2
  rw [known, pageSize] at paged
  have count : off + n ≤ pageSize * pages'.items.length := by
    rw [longer, extraPages, pageSize]
    omega
  have wordInside : off + n < 2 ^ 32 - pageSize := by
    rw [pageSize] at count ⊢
    omega
  have enough : off + n ≤ pageSize * (off / pageSize + (pageCount + 1)) := by
    rw [pageSize, pageCount]
    omega
  obtain ⟨mem', copy, cells⟩ := writeLoop_eq off 0 _ s.mem buf distinct' count wordInside enough
  refine ⟨pages', frames', mem', grown, few', count, ?_, fun i => ?_⟩
  · have largest : max (size : Int) (off + n : Nat) = (max size (off + n) : Nat) := by omega
    have start : ((off : Int) % 2 ^ 32).toNat = off := by omega
    have whole : (((max size (off + n) : Nat) : Int) % 2 ^ 32).toNat = max size (off + n) := by omega
    have extra : sub32 (ceilPages (off + n : Nat)) (ceilPages size) = extraPages size (off + n) := by
      rw [ceilPages_eq (by omega), ceilPages_eq (by omega), extraPages, sub32_eq grows (by omega)]
    rw [tmpWrite_eq backed.regular backed.node, known, offset, ← Int.natCast_add, extra, largest, start, whole, grow,
      ok_bind]
    dsimp only
    rw [copy]
    rfl
  · rw [cells, Nat.zero_add]
    exact if_congr (by omega) rfl rfl

end

theorem available_of_reaches {size stop : Nat} (reaches : size ≤ stop) :
    Available A frames size stop ↔ Supplies A (extraPages size stop) frames := by
  rw [Available, and_iff_right (Nat.div_le_div_right (by omega))]

theorem tmpWrite_stored (stored : Stored A s addr data inode pages) (on : OnFile addr data off f)
    (reaches : data.length ≤ off + r.n) (supplies : Supplies A (extraPages data.length (off + r.n)) s.frames) :
    ∃ inode' pages' s', tmpWrite A f r.buf r.n s =
        .ok (signed32 r.n, { f with size := (off + r.n : Nat), offset := (off + r.n : Nat) }, s') ∧
      Stored A s' addr (data.take off ++ r.bytes) inode' pages' ∧
      ∀ k, Supplies A (extraPages data.length (off + r.n) + k) s.frames ↔ Supplies A k s'.frames := by
  have inside := on.inside
  have count := stored.count
  obtain ⟨pages', _, _, grown, -, -, run, cells⟩ :=
    tmpWrite_backed (stored.backed on) on.size on.offset inside r.word ((available_of_reaches reaches).mpr supplies)
  obtain ⟨distinct', held', longer⟩ := grown.own stored.distinct stored.held
  obtain ⟨_, items, -⟩ := grown.longer
  have total : (data.take off ++ r.bytes).length = off + r.n := by
    rw [List.length_append, List.length_take, length_bytes, Nat.min_eq_left inside]
  rw [Nat.max_eq_right reaches, on.id] at run
  refine ⟨_, pages', _, run, ⟨update_self .., stored.regular, stored.id, total.symm, ?_, distinct', held',
    fun i less => ?_⟩, grown.left⟩
  · rw [longer, count, extraPages, total]
    omega
  · have last := le_pageEnd (off + r.n)
    rw [cells]
    by_cases old : i < off
    · rw [if_neg (by omega), items, cell_append (by rw [pageSize]; omega), stored.bytes i (by omega),
        List.getElem?_append_left (by rw [List.length_take]; omega), List.getElem?_take_of_lt old]
    · rw [if_pos (by omega), List.getElem?_append_right (by rw [List.length_take]; omega), List.length_take,
        Nat.min_eq_left inside, bytes_get r (by omega)]

theorem addChild_made {ftype : FileType} {size : Option Nat} {contents : Contents} {dir : Inode φ} {name : Str}
    (run : addChild heap ftype size contents s dir name = .ok (0, s')) :
    ∃ parent map k, s.nodes dir.inodeId = some parent ∧
      s' = { (newNode heap ftype size parent.inode.fs contents s).2.setNode dir.inodeId
        { parent with contents := .children map } with allocations := k } := by
  rw [addChild] at run
  split at run
  · cases run
  · obtain ⟨parent, found, run⟩ := bind_ok run
    obtain ⟨_, -, run⟩ := bind_ok run
    obtain ⟨_, -, run⟩ := bind_ok run
    split at run
    · cases run
    · obtain ⟨map', -, run⟩ := bind_ok run
      refine ⟨parent, map', _, ?_, (Prod.mk.inj (Except.ok.inj run)).2.symm⟩
      rw [Tmpfs.node] at found
      split at found
      · rename_i here
        rw [here, Except.ok.inj found]
      · cases found

theorem created_stored (A : Allocator σ) (created : Created heap addr s) :
    ∃ inode pages, Stored A s addr [] inode pages := by
  obtain ⟨before, dir, _, fresh, rfl, run⟩ := created
  obtain ⟨_, -, -, found, rfl⟩ := addChild_made run
  have other : heap.address before.allocations ≠ dir.inodeId := by
    intro same
    rw [← same, fresh _ le_rfl] at found
    cases found
  refine ⟨_, listInit, (update_of_ne other ..).trans (update_self ..), rfl, rfl, rfl, rfl, List.nodup_nil, nofun, nofun⟩

theorem opened_onFile {inode : Inode φ} {pages : ItemList Frame} (stored : Stored A s addr data inode pages)
    (f : File φ) : ∃ h, opened s addr f = some h ∧ OnFile addr data 0 h := by
  refine ⟨tmpOpen inode { f with inode := inode, offset := 0 }, ?_, stored.id, stored.regular, ?_, rfl, ?_⟩
  · rw [opened, stored.node, Option.map_some, fsOpen, stored.regular]
    rfl
  · exact congrArg Int.ofNat stored.size
  · exact Nat.zero_le _

end Petix.Proof.Tmpfs
