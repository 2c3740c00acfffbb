import Petix.Proof.Tmpfs.Shared

namespace Petix.Proof.Tmpfs
open Library Kernel.Vfs Kernel.Tmpfs Spec.Tmpfs Paged
open Kernel.Container (ItemList)
open Kernel.Paging (Allocator Frame)

variable {σ φ : Type} {A : Allocator σ} {heap : Heap} {s : Tmpfs σ φ} {f : File φ} {inode : Inode φ}
  {pages : ItemList Frame} {n : Nat}

theorem fileByte_eq {addr : Nat} (here : s.nodes addr = some ⟨inode, .pages pages⟩) (i : Nat) :
    fileByte s addr i = cell pageSize pages.items s.mem i := by
  rw [fileByte, if_neg (by omega), filePages, here, Int.toNat_natCast]

section
variable (backed : Backed A s f inode pages)
include backed

theorem tmpRead_past (past : f.size < f.offset) (buf : Buffer) : tmpRead f buf n s = .error .pastList := by
  have few := backed.few
  have size := backed.size.1
  obtain ⟨stop, value⟩ := Int.eq_ofNat_of_zero_le (show 0 ≤ f.offset + clamp (f.size - f.offset) n by omega)
  have far : 2 ^ 32 ≤ stop := by
    rw [clamp] at value
    split at value <;> omega
  have bound : pages.items.length < pageCount := few.trans_lt (by decide)
  rw [tmpRead_eq backed.regular backed.node, value,
    readLoop_past _ 0 _ buf far (by omega) bound (Nat.le_add_left_of_le (bound.le.trans (Nat.le_succ _)))]
  rfl

theorem tmpRead_before (word : n < 2 ^ 32) (before : f.offset < 0) (buf : Buffer) :
    ∃ ret f', tmpRead f buf n s = .ok (ret, f', buf) := by
  have bound : clamp (f.size - f.offset) n ≤ n := by
    rw [clamp]
    have := backed.size.1
    split <;> omega
  rw [tmpRead_eq backed.regular backed.node, readLoop, if_neg (by omega)]
  exact ⟨_, _, rfl⟩

theorem read_inside_iff {off size : Nat} (known : f.size = size)
    (offset : f.offset = off) (inside : off ≤ size) (word : n < 2 ^ 32) :
    ReadsExactly f n s ↔ min (size - off) n = 0 ∨ pageSize ∣ off + min (size - off) n := by
  have length : min ((size : Int) - off) n = (min (size - off) n : Nat) := by omega
  have bytes (i : Nat) : fileByte s f.inode.inodeId (off + i) = cell pageSize pages.items s.mem (off + i) :=
    fileByte_eq backed.node (off + i)
  have reads := fun buf => tmpRead_backed backed known offset inside word buf
  simp only [ReadsExactly, offset, known, length, bytes]
  generalize min (size - off) n = len at reads
  have last := le_pageEnd (off + len)
  rw [← pageEnd_eq]
  constructor
  · intro exactly
    by_contra neither
    -- a buffer that differs from the file everywhere
    let other : Buffer := fun i => (cell pageSize pages.items s.mem (off + i)).getD 0 + 1
    obtain ⟨_, _, buf', run, stays⟩ := exactly other
    obtain ⟨_, again, copied⟩ := reads other
    obtain ⟨-, same⟩ := Prod.mk.inj (Except.ok.inj (run.symm.trans again))
    obtain ⟨-, rfl⟩ := Prod.mk.inj same
    have kept := stays len
    have moved := copied len
    rw [if_neg (by omega)] at kept
    rw [if_pos (by omega), kept] at moved
    have differs : other len = (cell pageSize pages.items s.mem (off + len)).getD 0 + 1 := rfl
    rw [moved, Option.getD_some] at differs
    exact absurd differs (by simp)
  · intro _ buf
    obtain ⟨buf', run, copied⟩ := reads buf
    refine ⟨_, _, buf', run, fun i => ?_⟩
    have here := copied i
    split
    · rwa [if_pos (by omega)] at here
    · rwa [if_neg (by omega)] at here

theorem tmp_read_confined_iff (word : n < 2 ^ 32) : ReadsExactly f n s ↔ f.offset ≤ f.size ∧
      (min (f.size - f.offset) n = 0 ∨ 0 ≤ f.offset ∧ (pageSize : Int) ∣ f.offset + min (f.size - f.offset) n) := by
  have positive := backed.size.1
  rcases lt_or_ge f.size f.offset with past | _
  · refine iff_of_false (fun reads => ?_) fun holds => by omega
    obtain ⟨_, _, _, run, -⟩ := reads fun _ => 0
    cases run.symm.trans (tmpRead_past backed past _)
  rcases lt_or_ge f.offset 0 with before | after
  · have nothing : ReadsExactly f n s ↔ n = 0 := by
      constructor
      · intro reads
        obtain ⟨ret, f', _, -, bytes⟩ := reads fun _ => 0
        by_contra some
        have first := bytes 0
        rw [if_pos (by omega), fileByte, if_pos (by omega)] at first
        cases first
      · rintro rfl buf
        obtain ⟨ret, f', run⟩ := tmpRead_before backed word before buf
        exact ⟨ret, f', buf, run, fun i => by rw [if_neg (by omega)]⟩
    rw [nothing]
    omega
  · obtain ⟨_, offset⟩ := Int.eq_ofNat_of_zero_le after
    obtain ⟨_, known⟩ := Int.eq_ofNat_of_zero_le positive
    rw [read_inside_iff backed known offset (by omega) word, offset, known, pageSize]
    omega

end

section
variable (backed : Backed A s f inode pages) {off size : Nat} (known : f.size = size) (offset : f.offset = off)
  (inside : off ≤ size) (word : n < 2 ^ 32)
include backed known offset inside word

theorem tmpWrite_bytes {buf : Buffer} {ret : Int} {f' : File φ} {s' : Tmpfs σ φ}
    (run : tmpWrite A f buf n s = .ok (ret, f', s')) : Available A s.frames size (off + n) ∧ ∀ i : Nat,
      if off ≤ i ∧ 0 < n ∧ i < pageEnd (off + n) then fileByte s' f.inode.inodeId i = some (buf (i - off))
      else i < size → fileByte s' f.inode.inodeId i = fileByte s f.inode.inodeId i := by
  by_cases available : Available A s.frames size (off + n)
  · obtain ⟨_, _, _, grown, -, -, returns, cells⟩ := tmpWrite_backed backed known offset inside word available
    obtain ⟨_, items, -⟩ := grown.longer
    have paged := backed.size.2
    obtain ⟨-, same⟩ := Prod.mk.inj (Except.ok.inj (run.symm.trans returns))
    obtain ⟨-, rfl⟩ := Prod.mk.inj same
    refine ⟨available, fun i => ?_⟩
    rw [fileByte_eq (Function.update_self ..), cells, fileByte_eq backed.node]
    split
    · rfl
    · intro _
      rw [items]
      exact cell_append (Nat.div_lt_of_lt_mul (by omega))
  · cases run.symm.trans (tmpWrite_short backed known offset inside word available)

theorem tmp_write_confined_iff :
    WritesOnly A f n s ↔ Available A s.frames size (off + n) ∧ (n = 0 ∨ pageSize ∣ off + n) := by
  rw [← pageEnd_eq]
  have last := le_pageEnd (off + n)
  constructor
  · intro writes
    -- two buffers that differ behind their `n` bytes only
    obtain ⟨_, _, _, run, -, same⟩ := writes fun _ => 0
    have again := same (fun i => if i < n then 0 else 1) fun i less => if_pos less
    obtain ⟨available, first⟩ := tmpWrite_bytes backed known offset inside word run
    obtain ⟨-, second⟩ := tmpWrite_bytes backed known offset inside word again
    refine ⟨available, ?_⟩
    by_contra neither
    specialize first (off + n)
    specialize second (off + n)
    rw [if_pos (by omega)] at first second
    rw [first, Nat.add_sub_cancel_left, if_neg (lt_irrefl n)] at second
    cases second
  · rintro ⟨available, ends⟩ buf
    obtain ⟨_, _, _, -, _, count, run, -⟩ := tmpWrite_backed backed known offset inside word available
    refine ⟨_, _, _, run, fun i less outside => ?_, fun buf' same => ?_⟩
    · have kept := (tmpWrite_bytes backed known offset inside word run).2 i
      rw [if_neg (by omega)] at kept
      exact kept (by omega)
    · have start : ((off : Int) % 2 ^ 32).toNat = off := by
        rw [pageSize] at count
        omega
      have copies (pages : ItemList Frame) : writeLoop pages buf' (off + n : Nat) (pageCount + 2) off 0 s.mem =
          writeLoop pages buf (off + n : Nat) (pageCount + 2) off 0 s.mem := by
        apply writeLoop_congr
        · rw [pageSize] at count ⊢
          omega
        · exact fun more => pageEnd_eq.mp (ends.resolve_left (by omega))
        · exact fun i less => same i (by omega)
      rw [← run, tmpWrite_eq backed.regular backed.node, tmpWrite_eq backed.regular backed.node, offset, start,
        ← Int.natCast_add]
      simp only [copies]

theorem appends_backed_iff : AppendsPages A f n s ↔ ceilPages f.size ≤ ceilPages (f.offset + n) := by
  have few := backed.few
  have paged := backed.size.2
  rw [known, pageSize] at paged
  have needed : ceilPages (f.offset + n) = (off + n + 4095) / 4096 := by
    rw [offset, ← Int.natCast_add, ceilPages_eq (by omega)]
  have present : ceilPages f.size = (size + 4095) / 4096 := by rw [known, ceilPages_eq (by omega)]
  rw [AppendsPages, needed, present]
  constructor
  · intro appends
    by_contra wraps
    rw [Nat.sub_eq_zero_of_le (Nat.le_of_not_le wraps)] at appends
    obtain ⟨_, _, _, _, run, -⟩ := appends trivial fun _ => 0
    exact wraps (tmpWrite_bytes backed known offset inside word run).1.1
  · intro grows supplies _
    obtain ⟨_, _, _, grown, -, -, run, -⟩ := tmpWrite_backed backed known offset inside word ⟨grows, supplies⟩
    obtain ⟨new, items, length, -⟩ := grown.longer
    refine ⟨_, _, _, new, run, ?_, length⟩
    rw [filePages, filePages, backed.node]
    simpa [Tmpfs.setNode] using items

end

structure Usable (A : Allocator σ) (addr : Nat) (s : Shared σ φ) (inode : Inode φ) (pages : ItemList Frame) : Prop where
  node : s.fs.nodes addr = some ⟨inode, .pages pages⟩
  regular : inode.ftype = .regular
  id : inode.inodeId = addr
  distinct : pages.items.Nodup
  held : ∀ page ∈ pages.items, A.allocated s.fs.frames page ∧ page.val < 0xC0000
  size : inode.size ≤ pageSize * pages.items.length
  handles : ∀ h f, s.handle h = some f → f.inode.inodeId = addr ∧ f.inode.ftype = .regular ∧
    ∃ off size : Nat, f.offset = off ∧ f.size = size ∧ off ≤ size ∧ size ≤ pageSize * pages.items.length

section
variable {addr h : Nat} {s s' : Shared σ φ} {call : ShareCall φ}

theorem Usable.backed (usable : Usable A addr s inode pages) (here : s.handle h = some f) :
    Backed A s.fs f inode pages ∧ ∃ off size : Nat, f.offset = off ∧ f.size = size ∧ off ≤ size := by
  obtain ⟨id, regular, off, size, offset, known, inside, _⟩ := usable.handles h f here
  exact ⟨⟨id ▸ usable.node, regular, usable.distinct, usable.held, by omega⟩, off, size, offset, known, inside⟩

theorem Usable.step (usable : Usable A addr s inode pages) (step : ShareStep A addr s call s') :
    ∃ inode' pages', Usable A addr s' inode' pages' := by
  cases step with
  | @opens h file f free run =>
    rw [opened, usable.node, Option.map_some, fsOpen, usable.regular] at run
    cases run
    refine ⟨inode, pages, { usable with handles := handles_update ?_ usable.handles }⟩
    exact ⟨usable.id, usable.regular, 0, inode.size, rfl, rfl, Nat.zero_le _, usable.size⟩
  | @writes h f ret f' fs' r here run =>
    obtain ⟨backed, off, size, offset, known, inside⟩ := usable.backed here
    have available := (tmpWrite_bytes backed known offset inside r.word run).1
    obtain ⟨pages', _, _, grown, -, _, returns, -⟩ := tmpWrite_backed backed known offset inside r.word available
    obtain ⟨distinct', held', longer⟩ := grown.own usable.distinct usable.held
    obtain ⟨-, same⟩ := Prod.mk.inj (Except.ok.inj (run.symm.trans returns))
    obtain ⟨rfl, rfl⟩ := Prod.mk.inj same
    obtain ⟨id, regular, -⟩ := usable.handles h f here
    have grows : pageSize * pages.items.length ≤ pageSize * pages'.items.length :=
      Nat.mul_le_mul_left _ (longer ▸ Nat.le_add_right _ _)
    have paged := backed.size.2
    have most : max size (off + r.n) ≤ pageSize * pages'.items.length := by omega
    refine ⟨{ inode with size := max size (off + r.n) }, pages', ?_, usable.regular, usable.id, distinct', held', most,
      ?_⟩
    · rw [← id]
      exact Function.update_self ..
    refine handles_update ⟨id, regular, _, _, rfl, rfl, Nat.le_max_right _ _, most⟩ fun h' f' there => ?_
    obtain ⟨id', regular', off', size', offset', known', inside', paged'⟩ := usable.handles h' f' there
    exact ⟨id', regular', off', size', offset', known', inside', paged'.trans grows⟩
  | @reads h f ret f' buf' r here run =>
    obtain ⟨backed, _, size, offset, known, inside⟩ := usable.backed here
    obtain ⟨_, returns, -⟩ := tmpRead_backed backed known offset inside r.word r.buf
    obtain ⟨-, same⟩ := Prod.mk.inj (Except.ok.inj (run.symm.trans returns))
    obtain ⟨rfl, -⟩ := Prod.mk.inj same
    obtain ⟨id, regular, -⟩ := usable.handles h f here
    have paged := backed.size.2
    refine ⟨inode, pages, { usable with handles := handles_update ?_ usable.handles }⟩
    exact ⟨id, regular, _, size, rfl, known, by omega, by omega⟩

theorem reachable_usable (reachable : (shared A heap addr).Reachable s) :
    ∃ inode pages, Usable A addr s inode pages := by
  induction reachable with
  | initial start =>
    obtain ⟨created, handle, -⟩ := start
    obtain ⟨inode, pages, stored⟩ := created_stored A created
    refine ⟨inode, pages, stored.node, stored.regular, stored.id, stored.distinct, stored.held, ?_, ?_⟩
    · rw [stored.size]
      exact Nat.zero_le _
    · rw [handle]
      exact nofun
  | next _ action ih =>
    obtain ⟨_, _, usable⟩ := ih
    exact usable.step action

theorem appended_pages_iff (reachable : (shared A heap addr).Reachable s) (here : s.handle h = some f)
    (word : n < 2 ^ 32) : AppendsPages A f n s.fs ↔ ceilPages f.size ≤ ceilPages (f.offset + n) := by
  obtain ⟨_, _, usable⟩ := reachable_usable reachable
  obtain ⟨backed, _, _, offset, known, inside⟩ := usable.backed here
  exact appends_backed_iff backed known offset inside word

end

theorem exists_reopened {n : Nat} (few : n ≤ 0x1000000) :
    ∃ (s : Shared Large Unit) (f : File Unit), (shared large counting 2).Reachable s ∧ s.handle 1 = some f ∧
      f.size = n ∧ f.offset = 0 ∧ ∃ inode pages, Backed large s.fs f inode pages := by
  obtain ⟨fs, created, frames⟩ : ∃ fs : Tmpfs Large Unit, Created counting 2 fs ∧ fs.frames = largeFrames :=
    exists_created (unused_unusedFs largeFrames) counting () ⟨[102], by decide⟩
  obtain ⟨_, _, stored⟩ := created_stored large created
  obtain ⟨_, opens, on⟩ := opened_onFile stored blankFile
  have supplies : Supplies large (extraPages 0 (0 + n)) fs.frames := by
    rw [frames]
    apply largeFrames_supplies
    rw [extraPages]
    omega
  obtain ⟨inode', pages', _, _, write, stored', -⟩ := tmpWrite_append stored on (counted 1 n (by omega)) supplies
  obtain ⟨g, opens', on'⟩ := opened_onFile stored' blankFile
  have start : (shared large counting 2).Reachable ⟨fs, fun _ => none, []⟩ := .initial ⟨created, rfl, rfl⟩
  have first := start.next (a := ShareCall.opens 0 blankFile) (.opens rfl opens)
  have second := first.next (a := ShareCall.writes 0 (counted 1 n (by omega))) (.writes rfl write)
  have third := second.next (a := ShareCall.opens 1 blankFile) (.opens rfl opens')
  refine ⟨_, g, third, rfl, ?_, on'.offset, inode', pages', stored'.backed on'⟩
  rw [on'.size, List.nil_append, length_bytes]
  rfl

theorem read_confined_page : ∃ (s : Tmpfs Large Unit) (f : File Unit), f.size = 4096 ∧ f.offset = 0 ∧
    ReadsExactly f 4096 s := by
  obtain ⟨s, f, -, -, size, offset, _, _, backed⟩ := exists_reopened (n := 4096) (by decide)
  refine ⟨s.fs, f, size, offset, (tmp_read_confined_iff backed (by decide)).mpr ?_⟩
  rw [size, offset]
  decide

theorem read_overruns_buffer : ∃ (s : Tmpfs Large Unit) (f : File Unit), f.size = 5 ∧ f.offset = 0 ∧
    ¬ReadsExactly f 5 s := by
  obtain ⟨s, f, -, -, size, offset, _, _, backed⟩ := exists_reopened (n := 5) (by decide)
  refine ⟨s.fs, f, size, offset, fun reads => ?_⟩
  exact absurd ((read_inside_iff backed size offset (by decide) (by decide)).mp reads) (by decide)

theorem write_confined_page : ∃ (s : Tmpfs Large Unit) (f : File Unit), f.size = 4096 ∧ f.offset = 0 ∧
    WritesOnly large f 4096 s := by
  obtain ⟨s, f, -, -, size, offset, _, _, backed⟩ := exists_reopened (n := 4096) (by decide)
  refine ⟨s.fs, f, size, offset, (tmp_write_confined_iff backed size offset (by decide) (by decide)).mpr ?_⟩
  exact ⟨⟨by decide, trivial⟩, by decide⟩

theorem write_overruns_file : ∃ (s : Tmpfs Large Unit) (f : File Unit), f.size = 2 ∧ f.offset = 0 ∧
    (∃ ret f' s', tmpWrite large f (fun i => if i < 1 then 1 else 7) 1 s = .ok (ret, f', s') ∧
      fileByte s' f.inode.inodeId 1 = some 7) ∧
    ∃ ret f' s', tmpWrite large f (fun i => if i < 1 then 1 else 8) 1 s = .ok (ret, f', s') ∧
      fileByte s' f.inode.inodeId 1 = some 8 := by
  obtain ⟨s, f, -, -, size, offset, inode, _, backed⟩ := exists_reopened (n := 2) (by decide)
  have writes (buf : Buffer) : ∃ ret f' s', tmpWrite large f buf 1 s.fs = .ok (ret, f', s') ∧
      fileByte s' f.inode.inodeId 1 = some (buf 1) := by
    have available : Available large s.fs.frames 2 (0 + 1) := ⟨by decide, trivial⟩
    obtain ⟨_, _, _, -, -, -, run, -⟩ := tmpWrite_backed backed size offset (by decide) (by decide) available
    have byte := (tmpWrite_bytes backed size offset (by decide) (by decide) run).2 1
    exact ⟨_, _, _, run, byte⟩
  exact ⟨s.fs, f, size, offset, writes _, writes _⟩

theorem appended_pages_first : ∃ (s : Shared Large Unit) (f : File Unit), (shared large counting 2).Reachable s ∧
    s.handle 1 = some f ∧ f.size = 4097 ∧ AppendsPages large f 8193 s.fs := by
  obtain ⟨s, f, reachable, here, size, offset, -⟩ := exists_reopened (n := 4097) (by decide)
  refine ⟨s, f, reachable, here, size, (appended_pages_iff reachable here (by decide)).mpr ?_⟩
  rw [size, offset]
  decide

theorem overwriting_exhausts_pages : ∃ (s : Shared Large Unit) (f : File Unit),
    (shared large counting 2).Reachable s ∧ s.handle 1 = some f ∧ f.size = 4097 ∧ f.offset = 0 ∧
      tmpWrite large f (fun _ => 1) 1 s.fs = .error .outOfPages ∧ ¬AppendsPages large f 1 s.fs := by
  obtain ⟨s, f, reachable, here, size, offset, _, _, backed⟩ := exists_reopened (n := 4097) (by decide)
  refine ⟨s, f, reachable, here, size, offset, ?_, fun appends => ?_⟩
  · exact tmpWrite_short backed size offset (by decide) (by decide) fun available => absurd available.1 (by decide)
  · have grows := (appends_backed_iff backed size offset (by decide) (by decide)).mp appends
    rw [size, offset] at grows
    exact absurd grows (by decide)

end Petix.Proof.Tmpfs
