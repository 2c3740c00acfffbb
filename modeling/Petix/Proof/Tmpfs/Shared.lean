import Petix.Proof.Tmpfs.ReadBack

namespace Petix.Proof.Tmpfs
open Function (update update_of_ne update_self)
open Library Kernel.Vfs Kernel.Tmpfs Spec.Tmpfs
open Kernel.Container (ItemList)
open Kernel.Paging (Allocator Frame)

variable {σ φ : Type} {A : Allocator σ} {heap : Heap} {addr : Nat} {s s' : Shared σ φ} {data : List Byte}
  {inode : Inode φ} {pages : ItemList Frame} {f : File φ} {log : List Written} {call : ShareCall φ}
variable {fs : Tmpfs σ φ} {off : Nat} {bytes : List Byte}

structure Within (addr : Nat) (data : List Byte) (f : File φ) : Prop where
  id : f.inode.inodeId = addr
  regular : f.inode.ftype = .regular
  offset : ∃ off : Nat, f.offset = off ∧ off ≤ data.length

structure Agrees (A : Allocator σ) (addr : Nat) (s : Shared σ φ) (data : List Byte) (inode : Inode φ)
    (pages : ItemList Frame) : Prop where
  stored : Stored A s.fs addr data inode pages
  latest : ∀ i, latest s.log i = data[i]?
  largest : largest s.log = data.length
  handles : ∀ h f, s.handle h = some f → Within addr data f

theorem Stored.fileSize (stored : Stored A fs addr data inode pages) :
    fileSize fs addr = data.length := by
  rw [Petix.Spec.Tmpfs.fileSize, stored.node]
  exact stored.size

theorem Stored.filePages (stored : Stored A fs addr data inode pages) :
    filePages fs addr = pages.items := by
  rw [Petix.Spec.Tmpfs.filePages, stored.node]

theorem OnFile.within (on : OnFile addr data off f) : Within addr data f :=
  ⟨on.id, on.regular, off, on.offset, on.inside⟩

theorem Within.onFile (within : Within addr data f) (current : f.size = data.length) :
    ∃ off, OnFile addr data off f := by
  obtain ⟨off, offset, inside⟩ := within.offset
  exact ⟨off, within.id, within.regular, current, offset, inside⟩

theorem Within.mono {longer : List Byte} (within : Within addr data f) (more : data.length ≤ longer.length) :
    Within addr longer f := by
  obtain ⟨off, offset, inside⟩ := within.offset
  exact ⟨within.id, within.regular, off, offset, inside.trans more⟩

theorem handles_update {handle : Nat → Option (File φ)} {h : Nat} {P : File φ → Prop} (new : P f)
    (old : ∀ h f, handle h = some f → P f) : ∀ h' f', update handle h (some f) h' = some f' → P f' := by
  intro h' f' here
  by_cases same : h' = h
  · rw [same, update_self] at here
    cases here
    exact new
  · rw [update_of_ne same] at here
    exact old h' f' here

theorem latest_write (inside : off ≤ data.length)
    (reaches : data.length ≤ off + bytes.length) (before : ∀ i, latest log i = data[i]?) (i : Nat) :
    latest (⟨off, bytes⟩ :: log) i = (data.take off ++ bytes)[i]? := by
  have length : (data.take off).length = off := by rw [List.length_take, Nat.min_eq_left inside]
  rw [latest]
  dsimp only
  split
  · rw [List.getElem?_append_right (by omega), length]
  · rw [before]
    by_cases old : i < off
    · rw [List.getElem?_append_left (by omega), List.getElem?_take_of_lt old]
    · rw [List.getElem?_eq_none (by omega), List.getElem?_eq_none (by rw [List.length_append]; omega)]

theorem largest_write (before : largest log ≤ off + bytes.length) :
    largest (⟨off, bytes⟩ :: log) = off + bytes.length := Nat.max_eq_left before

section
variable (agrees : Agrees A addr s data inode pages)
include agrees

theorem Agrees.read {h : Nat} (here : s.handle h = some f)
    (current : f.size = fileSize s.fs addr) (r : Request) : SeesWrites s f r := by
  obtain ⟨off, on⟩ := (agrees.handles h f here).onFile (agrees.stored.fileSize ▸ current)
  obtain ⟨buf', run, bytes⟩ := tmpRead_stored agrees.stored on r
  have start : f.offset.toNat = off := by rw [on.offset, Int.toNat_natCast]
  rw [SeesWrites, start, agrees.largest]
  refine ⟨_, buf', run, fun i less => ?_⟩
  rw [agrees.latest, bytes i less]

theorem Agrees.write {h : Nat} (here : s.handle h = some f) {r : Request}
    (current : UpToDate addr s (.writes h r)) : tmpWrite A f r.buf r.n s.fs = .error .outOfPages ∨
      ∃ f' fs' data' inode' pages', tmpWrite A f r.buf r.n s.fs = .ok (signed32 r.n, f', fs') ∧
        data.length ≤ data'.length ∧
        Agrees A addr ⟨fs', update s.handle h (some f'), ⟨f.offset.toNat, r.bytes⟩ :: s.log⟩
          data' inode' pages' := by
  obtain ⟨size, reaches⟩ := current f here
  rw [agrees.stored.fileSize] at size reaches
  obtain ⟨off, on⟩ := (agrees.handles h f here).onFile size
  have inside := on.inside
  rw [on.offset] at reaches ⊢
  by_cases supplies : Supplies A (extraPages data.length (off + r.n)) s.fs.frames
  · obtain ⟨inode', pages', fs', run, stored', -⟩ := tmpWrite_stored agrees.stored on (by omega) supplies
    have total : (data.take off ++ r.bytes).length = off + r.n := by
      rw [List.length_append, List.length_take, length_bytes, Nat.min_eq_left inside]
    have longer : data.length ≤ (data.take off ++ r.bytes).length := by omega
    refine .inr ⟨_, fs', _, inode', pages', run, longer, stored', ?_, ?_, ?_⟩
    · exact latest_write inside (by rw [length_bytes]; omega) agrees.latest
    · rw [total, Int.toNat_natCast, largest_write (by rw [agrees.largest, length_bytes]; omega), length_bytes]
    · refine handles_update ⟨on.id, on.regular, off + r.n, rfl, total.ge⟩ fun h' f' there => ?_
      exact (agrees.handles h' f' there).mono longer
  · refine .inl (tmpWrite_short (agrees.stored.backed on) on.size on.offset inside r.word ?_)
    exact mt (available_of_reaches (by omega)).mp supplies

theorem Agrees.step (current : UpToDate addr s call)
    (step : ShareStep A addr s call s') :
    ∃ data' inode' pages', data.length ≤ data'.length ∧ Agrees A addr s' data' inode' pages' := by
  cases step with
  | @opens h file f free run =>
    obtain ⟨f', opens, on⟩ := opened_onFile agrees.stored file
    cases run.symm.trans opens
    exact ⟨data, inode, pages, le_rfl, agrees.stored, agrees.latest, agrees.largest,
      handles_update on.within agrees.handles⟩
  | @writes h f ret f' fs' r here run =>
    rcases agrees.write here current with stops | ⟨_, _, data', inode', pages', returns, longer, agrees'⟩
    · cases run.symm.trans stops
    · obtain ⟨-, same⟩ := Prod.mk.inj (Except.ok.inj (run.symm.trans returns))
      obtain ⟨rfl, rfl⟩ := Prod.mk.inj same
      exact ⟨data', inode', pages', longer, agrees'⟩
  | @reads h f ret f' buf' r here run =>
    obtain ⟨_, on⟩ := (agrees.handles h f here).onFile (agrees.stored.fileSize ▸ current f here)
    obtain ⟨_, _, returns, -, on'⟩ := tmpRead_next agrees.stored on r
    obtain ⟨-, same⟩ := Prod.mk.inj (Except.ok.inj (run.symm.trans returns))
    obtain ⟨rfl, -⟩ := Prod.mk.inj same
    exact ⟨data, inode, pages, le_rfl, agrees.stored, agrees.latest, agrees.largest,
      handles_update on'.within agrees.handles⟩

end

theorem reachable_agrees (reachable : ((shared A heap addr).restrict (UpToDate addr)).Reachable s) :
    ∃ data inode pages, Agrees A addr s data inode pages := by
  induction reachable with
  | initial start =>
    obtain ⟨created, handle, log⟩ := start
    obtain ⟨inode, pages, stored⟩ := created_stored A created
    refine ⟨[], inode, pages, stored, ?_, ?_, ?_⟩
    · rw [log]
      exact fun _ => rfl
    · rw [log]
      rfl
    · rw [handle]
      exact nofun
  | next _ action ih =>
    obtain ⟨_, _, _, agrees⟩ := ih
    obtain ⟨data', inode', pages', -, agrees'⟩ := agrees.step action.1 action.2
    exact ⟨data', inode', pages', agrees'⟩

theorem tmpfs_handles_agree (reachable : ((shared A heap addr).restrict (UpToDate addr)).Reachable s) :
    fileSize s.fs addr = largest s.log ∧ (filePages s.fs addr).length = ceilPages (fileSize s.fs addr) ∧
      (∀ h f r, s.handle h = some f → UpToDate addr s (.reads h r) → SeesWrites s f r) ∧
      (∀ h f r, s.handle h = some f → UpToDate addr s (.writes h r) → tmpWrite A f r.buf r.n s.fs = .error .outOfPages ∨
          ∃ f' fs', tmpWrite A f r.buf r.n s.fs = .ok (signed32 r.n, f', fs')) ∧
      ∀ call s', ((shared A heap addr).restrict (UpToDate addr)).step s call s' →
        fileSize s.fs addr ≤ fileSize s'.fs addr := by
  obtain ⟨_, _, _, agrees⟩ := reachable_agrees reachable
  have size := agrees.stored.fileSize
  have small := agrees.stored.small
  refine ⟨size.trans agrees.largest.symm, ?_, fun h f r here current => ?_, fun h f r here current => ?_, ?_⟩
  · rw [agrees.stored.filePages, size, ceilPages_eq (by omega), agrees.stored.count]
  · exact agrees.read here (current f here) r
  · rcases agrees.write here current with stops | ⟨f', fs', _, _, _, returns, -⟩
    · exact .inl stops
    · exact .inr ⟨f', fs', returns⟩
  · rintro _ _ ⟨current, step⟩
    obtain ⟨_, _, _, longer, agrees'⟩ := agrees.step current step
    rw [size, agrees'.stored.fileSize]
    exact longer

abbrev large : Allocator Large := Paging.memAllocator 0x100000 0x80000000

theorem exists_stale :
    ∃ (s : Shared Large Unit) (f : File Unit), ((shared large counting 2).restrict (UpToDate 2)).Reachable s ∧
      s.handle 1 = some f ∧ OnFile 2 [] 0 f ∧ largest s.log = 2 ∧ Supplies large 1 s.fs.frames := by
  obtain ⟨fs, created, frames⟩ : ∃ fs : Tmpfs Large Unit, Created counting 2 fs ∧ fs.frames = largeFrames :=
    exists_created (unused_unusedFs largeFrames) counting () ⟨[102], by decide⟩
  obtain ⟨_, _, stored⟩ := created_stored large created
  obtain ⟨f, opens, on⟩ := opened_onFile stored blankFile
  have supplies (count : Nat) (few : count ≤ 0x80000) : Supplies large count fs.frames := by
    rw [frames]
    exact largeFrames_supplies few
  obtain ⟨_, _, _, _, write, -, -, left⟩ :=
    tmpWrite_append stored on (counted 1 2 (by decide)) (supplies (extraPages 0 (0 + 2)) (by decide))
  have start : ((shared large counting 2).restrict (UpToDate 2)).Reachable ⟨fs, fun _ => none, []⟩ :=
    .initial ⟨created, rfl, rfl⟩
  have first := start.next (a := ShareCall.opens 0 blankFile) ⟨trivial, .opens rfl opens⟩
  have second := first.next (a := ShareCall.opens 1 blankFile) ⟨trivial, .opens rfl opens⟩
  have current : UpToDate 2 ⟨fs, update (update (fun _ => none) 0 (some f)) 1 (some f), []⟩
      (.writes 0 (counted 1 2 (by decide))) := by
    rintro _ ⟨⟩
    rw [stored.fileSize, on.size, on.offset]
    decide
  have third := second.next ⟨current, .writes rfl write⟩
  refine ⟨_, f, third, rfl, on, ?_, (left 1).mp (supplies _ (by decide))⟩
  rw [on.offset]
  rfl

theorem tmpfs_handles_agree_two :
    ∃ s : Shared Large Unit, ((shared large counting 2).restrict (UpToDate 2)).Reachable s ∧
      fileSize s.fs 2 = 2 ∧ (filePages s.fs 2).length = 1 := by
  obtain ⟨s, -, reachable, -, -, two, -⟩ := exists_stale
  obtain ⟨size, count, -⟩ := tmpfs_handles_agree reachable
  refine ⟨s, reachable, size.trans two, ?_⟩
  rw [count, size, two]
  decide

theorem stale_handle_shrinks_file : ∃ s s' : Shared Large Unit, (shared large counting 2).Reachable s ∧
      (shared large counting 2).step s (.writes 1 (counted 7 1 (by decide))) s' ∧ fileSize s.fs 2 = 2 ∧
      fileSize s'.fs 2 = 1 ∧ largest s'.log = 2 ∧ (filePages s'.fs 2).length = 2 := by
  obtain ⟨s, f, reachable, here, on, two, supplies⟩ := exists_stale
  obtain ⟨data, inode, pages, agrees⟩ := reachable_agrees reachable
  have stored := agrees.stored
  have length : data.length = 2 := agrees.largest.symm.trans two
  have count : pages.items.length = 1 := by rw [stored.count, length]
  obtain ⟨pages', frames', grow, grown⟩ := growPages_grown supplies pages
  obtain ⟨distinct', -, longer⟩ := grown.own stored.distinct stored.held
  have count' : pages'.items.length = 2 := by rw [longer, count]
  have pageInside : 1 ≤ pageSize * pages'.items.length := by
    rw [count']
    decide
  obtain ⟨mem', copy, -⟩ := writeLoop_eq 0 0 (pageCount + 1) s.fs.mem (fun i => (7 : Byte) + BitVec.ofNat 8 i)
    distinct' pageInside (by decide) (by decide)
  have write : tmpWrite large f (counted 7 1 (by decide)).buf 1 s.fs = .ok (1, { f with size := 1, offset := 1 },
        { s.fs.setNode 2 ⟨{ inode with size := 1 }, .pages pages'⟩ with frames := frames', mem := mem' }) := by
    have extra : sub32 (ceilPages ((0 : Nat) + (1 : Nat))) (ceilPages ([] : List Byte).length) = 1 := by decide
    rw [tmpWrite_eq on.regular (on.id ▸ stored.node), on.size, on.offset, extra, grow, Result.ok_bind, on.id]
    exact congrArg (· >>= _) copy
  refine ⟨s, _, reachable.unrestrict, .writes here write, agrees.stored.fileSize.trans length, ?_, ?_, ?_⟩
  · rfl
  · rw [largest, two, on.offset]
    rfl
  · exact count'

end Petix.Proof.Tmpfs
