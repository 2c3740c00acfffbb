import Petix.Proof.Paging.KernelHalf

namespace Petix.Proof.Paging
open Function Library Library.Result Library.Ownership Kernel Kernel.Paging Spec.Paging

variable {σ : Type} {A : Allocator σ} {m k : Machine σ} {as dir d d' kpagedir f : Frame} {i j : Fin 1024}
variable {own : Place → Option Frame} {addr : BitVec 32} {e t : Word}
variable {halt : Halt}

theorem forkEntry_error {tab : Frame} (call : forkEntry A m tab j = .error halt) :
    halt = .outOfPages := by
  unfold forkEntry at call
  split_ifs at call
  · rcases bind_error call with first | ⟨_, -, last⟩
    · exact alloc_error first
    · cases last

theorem forkTable_error (call : forkTable A m as dir i = .error halt) : halt = .outOfPages := by
  unfold forkTable at call
  split_ifs at call
  · rcases bind_error call with first | ⟨_, -, rest⟩
    · exact alloc_error first
    · exact foldlM_error (fun _ _ _ => forkEntry_error) rest

theorem forkProcAddrSpace_error (call : forkProcAddrSpace A m as = .error halt) : halt = .outOfPages := by
  rcases bind_error call with first | ⟨_, -, rest⟩
  · exact alloc_error first
  · rcases bind_error rest with run | ⟨_, -, last⟩
    · exact foldlM_error (fun _ _ _ => forkTable_error) run
    · cases last

theorem PageCopied.flags {old new : Word} (copied : PageCopied m k own dir i j old new) : new.flags = old.flags := by
  unfold PageCopied at copied
  split_ifs at copied with owns
  · obtain ⟨_, -, word, -⟩ := copied
    rw [word]
  · rw [copied.2]

section
variable (formed : Formed A m) (live : as ∈ m.spaces) (forked : Forked A m as dir k own)
include formed forked

theorem Forked.owned_taken {p : Place} (space : p.space = dir) (here : own p = some f) : f ∈ taken m k := by
  refine Finset.mem_sdiff.mpr ⟨forked.exact.mem here, ?_⟩
  intro before
  obtain ⟨q, there⟩ := formed.exact.held_iff.mp before
  have other : q.space ≠ dir := by
    intro same
    have dead : q.space ∉ m.spaces := same ▸ not_live formed.exact forked.unused
    rw [frameAt_of_dead dead] at there
    cases there
  have equal := forked.exact.once here ((forked.others q other).trans there)
  exact other (equal ▸ space)

theorem Forked.untaken (old : f ∉ taken m k) : k.mem f = m.mem f := by
  have new : dir ∈ taken m k := forked.owned_taken formed rfl forked.mine
  apply forked.grows.mem f (ne_of_mem_of_not_mem new old).symm
  intro here
  by_contra absent
  exact old (Finset.mem_sdiff.mpr ⟨here, absent⟩)

include live

theorem Forked.entry (region : identityLen ≤ i.val) :
    (k.mem dir i).flags = (m.mem as i).flags ∧ ((m.mem as i).present = true → (k.mem dir i).high ∈ taken m k ∧
      ∀ j, PageCopied m k own dir i j (m.mem (m.mem as i).high j) (k.mem (k.mem dir i).high j)) := by
  have copied := forked.high i region
  unfold TableCopied at copied
  split_ifs at copied with owns
  · obtain ⟨_, here, word, copies⟩ := copied
    rw [word]
    exact ⟨rfl, fun _ => ⟨forked.owned_taken formed rfl here, copies⟩⟩
  · rw [copied.2.2]
    refine ⟨rfl, fun present => absurd ?_ owns⟩
    rw [Word.ownsTable, present, formed.dirs as live i region]
    rfl

theorem Forked.flagsAt_eq (region : identityLen ≤ (dirIdx addr).val) :
    flagsAt k.mem dir addr = flagsAt m.mem as addr := by
  obtain ⟨flags, copies⟩ := forked.entry formed live region
  have present : (k.mem dir (dirIdx addr)).present = (m.mem as (dirIdx addr)).present := congrFun flags 0
  unfold flagsAt
  dsimp only
  rw [flags, present]
  split_ifs with table
  · rw [((copies table).2 (tabIdx addr)).flags]
  · rfl

theorem Forked.walk_copied (region : identityLen ≤ (dirIdx addr).val) (here : walk m.mem as addr = some (e, t)) :
    ∃ e' t', walk k.mem dir addr = some (e', t') ∧
      (t.tabAlloc = true → t'.high ∈ taken m k ∧ k.mem t'.high = m.mem t.high) ∧
      (t.tabAlloc = false → t'.high = t.high) := by
  obtain ⟨rfl, table, rfl, page⟩ := walk_some here
  obtain ⟨flags, copies⟩ := forked.entry formed live region
  have copy := (copies table).2 (tabIdx addr)
  have table' : (k.mem dir (dirIdx addr)).present = true := (congrFun flags 0).trans table
  have page' : (k.mem (k.mem dir (dirIdx addr)).high (tabIdx addr)).present = true := (congrFun copy.flags 0).trans page
  refine ⟨_, _, walk_of_present table' page', ?_, ?_⟩
  · intro owned
    rw [PageCopied, if_pos (by rw [Word.ownsPage, page, owned]; rfl)] at copy
    obtain ⟨_, place, word, contents⟩ := copy
    rw [word]
    exact ⟨forked.owned_taken formed rfl place, contents⟩
  · intro device
    rw [PageCopied, if_neg (by simp [Word.ownsPage, device])] at copy
    rw [copy.2]

end

theorem Formed.isolated {addr' : BitVec 32} {w : Word} (formed : Formed A m) (live : d ∈ m.spaces)
    (live' : d' ∈ m.spaces) (different : d ≠ d') (region : procRegion ≤ addr.toNat)
    (region' : procRegion ≤ addr'.toNat) (here : walk m.mem d addr = some (e, t)) (owned : t.tabAlloc = true)
    (apart : ∀ e' t', walk m.mem d' addr' = some (e', t') → t'.tabAlloc = true ∨ t'.high ≠ t.high) :
    load (m.store t.high i w).mem d' addr' = load m.mem d' addr' := by
  have place := formed.page_owned live region here owned
  have kept {q : Place} {g : Frame} (there : frameAt m.spaces m.mem q = some g) (space : q.space = d') :
      g ≠ t.high := by
    rintro rfl
    exact different (space ▸ congrArg Place.space (formed.exact.once place there))
  have unwritten {g : Frame} (other : g ≠ t.high) : (m.store t.high i w).mem g = m.mem g :=
    update_of_ne other ..
  apply load_congr
  · refine (walk_congr (congrFun (unwritten (kept (frameAt_dir live') rfl)) _) ?_).1
    intro present
    exact unwritten (kept (frameAt_table (formed.table live' (dirIdx_region region') present)) rfl)
  · intro e' t' there
    apply unwritten
    rcases apart e' t' there with owned' | other
    · exact kept (formed.page_owned live' region' there owned') rfl
    · exact other

theorem fork_copies_address_space (reachable : (paging A kpagedir).Reachable m) (live : as ∈ m.spaces) :
    (∀ halt, forkProcAddrSpace A m as = .error halt → halt = .outOfPages) ∧
    ∀ dir m', forkProcAddrSpace A m as = .ok (dir, m') →
      -- the frames that the call takes were not allocated, and no other frame changes
      (∀ f ∈ taken m m', ¬ A.allocated m.frames f ∧ ∀ p, frameAt m.spaces m.mem p ≠ some f) ∧
      (∀ f, f ∉ taken m m' → m'.mem f = m.mem f) ∧
      -- the kernel's part
      (∀ i, i.val < identityLen → m'.mem dir i = m.mem as i) ∧
      (∀ addr, addr.toNat < procRegion → (m.mem as (dirIdx addr)).high ∉ taken m m' →
        flagsAt m'.mem dir addr = flagsAt m.mem as addr ∧ walk m'.mem dir addr = walk m.mem as addr ∧
        ∀ e t, walk m.mem as addr = some (e, t) → t.high ∉ taken m m' → load m'.mem dir addr = load m.mem as addr) ∧
      -- the process's part
      (∀ i, identityLen ≤ i.val → (m.mem as i).present = true → (m'.mem dir i).high ∈ taken m m') ∧
      (∀ addr, procRegion ≤ addr.toNat → flagsAt m'.mem dir addr = flagsAt m.mem as addr ∧
        (walk m'.mem dir addr).isSome = (walk m.mem as addr).isSome ∧
        ∀ e t, walk m.mem as addr = some (e, t) → ∃ e' t', walk m'.mem dir addr = some (e', t') ∧
          (t.tabAlloc = true → t'.high ∈ taken m m') ∧ (t.tabAlloc = false → t'.high = t.high) ∧
          (t.tabAlloc = true ∨ t.high ∉ taken m m' → load m'.mem dir addr = load m.mem as addr)) ∧
      -- a later write by either of the two
      ∀ later, (paging A kpagedir).LeadsTo { m' with spaces := insert dir m'.spaces } later →
        ∀ d ∈ later.spaces, ∀ d' ∈ later.spaces, (d = as ∧ d' = dir ∨ d = dir ∧ d' = as) →
        ∀ addr e t w addr', procRegion ≤ addr.toNat → procRegion ≤ addr'.toNat →
          walk later.mem d addr = some (e, t) → t.tabAlloc = true →
          (∀ e' t', walk later.mem d' addr' = some (e', t') → t'.tabAlloc = true ∨ t'.high ≠ t.high) →
          load (later.store t.high (wordIdx addr) w).mem d' addr' = load later.mem d' addr' := by
  have formed := reachable_formed reachable
  refine ⟨fun halt => forkProcAddrSpace_error, fun dir m' call => ?_⟩
  obtain ⟨_, forked⟩ := forkProcAddrSpace_forked formed live call
  refine ⟨?_, fun f => forked.untaken formed, ?_, ?_, ?_, ?_, ?_⟩
  · intro f new
    obtain ⟨here, absent⟩ := Finset.mem_sdiff.mp new
    exact ⟨forked.grows.fresh f here absent, fun p place => absent (formed.exact.mem place)⟩
  · intro i low
    exact forked.low i (Nat.not_le.mpr low)
  · intro addr low table
    have index : ¬ identityLen ≤ (dirIdx addr).val := by
      change ¬ 768 ≤ addr.toNat / 2 ^ 22
      unfold procRegion at low
      omega
    obtain ⟨same, flags⟩ := walk_congr (forked.low _ index) fun _ => forked.untaken formed table
    refine ⟨flags, same, fun e t here page => load_congr same fun e' t' there => ?_⟩
    cases here.symm.trans there
    exact forked.untaken formed page
  · intro _ region table
    exact ((forked.entry formed live region).2 table).1
  · intro addr high
    have region := dirIdx_region high
    have flags := forked.flagsAt_eq formed live region
    refine ⟨flags, by rw [walk_isSome, walk_isSome, flags], fun e t here => ?_⟩
    obtain ⟨e', t', there, owned, device⟩ := forked.walk_copied formed live region here
    refine ⟨e', t', there, fun alloc => (owned alloc).1, device, fun either => ?_⟩
    have contents : m'.mem t'.high = m.mem t.high := by
      cases alloc : t.tabAlloc with
      | true => exact (owned alloc).2
      | false =>
        rw [device alloc]
        exact forked.untaken formed (either.resolve_left (by simp [alloc]))
    rw [load, load, here, there, Option.map_some, Option.map_some, contents]
  · intro _ run _ here _ there pair _ _ _ _ _ region region' found owned apart
    have after : (paging A kpagedir).Reachable { m' with spaces := insert dir m'.spaces } := by
      apply reachable.next
      change next A kpagedir m (.fork as) = _
      rw [next, if_pos live, call]
      rfl
    have different : as ≠ dir := ne_of_mem_of_not_mem live (not_live formed.exact forked.unused)
    apply (reachable_formed (after.leadsTo run)).isolated here there _ region region' found owned apart
    rcases pair with ⟨rfl, rfl⟩ | ⟨rfl, rfl⟩
    · exact different
    · exact different.symm

def small : System (Machine { c : Mem.Client // Mem.Invariant 0x100000 0x40000 c }) Action :=
  (paging (memAllocator 0x100000 0x40000) 0x10).restrict (spares (insert 0x10 (Set.range pageTabs)))

abbrev Family {σ : Type} (m m' : Machine σ) : Prop :=
  0x120 ∈ m.spaces ∧ (m.mem 0x123 0).present = false ∧ (m'.mem 0x125 0).present = false ∧
  (walk m.mem 0x120 0xC0001000#32).map (fun entries => (entries.2.tabAlloc, entries.2.high)) = some (true, 0x122) ∧
  (walk m.mem 0x120 0xC0002000#32).map (fun entries => (entries.2.tabAlloc, entries.2.high)) = some (false, 0xb8) ∧
  (walk m'.mem 0x123 0xC0001000#32).map (fun entries => (entries.2.tabAlloc, entries.2.high)) = some (true, 0x125) ∧
  (load m.mem 0x120 0xC0003000#32).map (· 0) = some true ∧ (load m'.mem 0x123 0xC0003000#32).map (· 0) = some false ∧
  (load m'.mem 0x120 0xC0003000#32).map (· 0) = some false ∧
  (load (m'.store 0x125 0 ⟨fun _ => true, 0⟩).mem 0x120 0xC0003000#32).map (· 0) = some true

theorem forked_family : ∃ m m', small.LeadsTo booted m ∧
      forkProcAddrSpace (memAllocator 0x100000 0x40000) m 0x120 = .ok (0x123, m') ∧ Family m m' := by
  have run : (([.create, .pageFault 0x120 0xC0001000#32 0, .remap 0x120 0x120 0xC0002000#32 0xb8000#32,
      .remap 0x120 0x120 0xC0003000#32 0x125000#32].foldlM (advance (memAllocator 0x100000 0x40000) 0x10) booted).bind
      fun m => (forkProcAddrSpace (memAllocator 0x100000 0x40000) m 0x120).toOption.map
        fun copy => (copy.1, decide (Family m copy.2))) = some (0x123, true) := by
    decide +kernel
  obtain ⟨m, computed, rest⟩ := Option.bind_eq_some_iff.mp run
  cases call : forkProcAddrSpace (memAllocator 0x100000 0x40000) m 0x120 with
  | error halt =>
    rw [call] at rest
    cases rest
  | ok copy =>
    rw [call] at rest
    obtain ⟨dir, family⟩ := Prod.mk.inj (Option.some.inj rest)
    refine ⟨m, copy.2, System.leadsTo_run_restrict (advance_sound _ _) ?_ computed, ?_, of_decide_eq_true family⟩
    · simp [spares]
    · rw [call, ← dir]

theorem small_reachable {m : Machine { c : Mem.Client // Mem.Invariant 0x100000 0x40000 c }}
    (run : small.LeadsTo booted m) : (paging (memAllocator 0x100000 0x40000) 0x10).Reachable m :=
  System.Reachable.leadsTo (.initial (initPaging_initial ⟨rfl, rfl, rfl⟩)) run.unrestrict

theorem pageTabs_above (i : Fin identityLen) : 0x400 ≤ (pageTabs i).val := Nat.le_add_right 0x400 i.val

theorem small_write {m : Machine { c : Mem.Client // Mem.Invariant 0x100000 0x40000 c }} (run : small.LeadsTo booted m)
    (free : ¬ m.IsTable f) (low : f.val < 0x400) (other : f ≠ 0x10) (i : Fin 1024) (w : Word) :
    small.LeadsTo booted (m.store f i w) := by
  refine .tail run ⟨.write f (update (m.mem f) i w), ?_, ?_⟩
  · rintro (same | ⟨i, rfl⟩)
    · exact other same
    · exact absurd (pageTabs_above i) (Nat.not_le.mpr low)
  · change next _ _ _ (.write _ _) = _
    rw [next, if_neg free]
    rfl

theorem small_apart (i : Fin identityLen) : pageTabs i ≠ 0x10 :=
  fun same => absurd (pageTabs_above i) (by rw [same]; decide)

theorem small_distinct : Injective pageTabs := by
  intro _ _ same
  exact Fin.ext (Nat.add_left_cancel (congrArg Fin.val same))

theorem small_static (f : Frame) (here : f ∈ insert 0x10 (Set.range pageTabs)) :
    Reserved (memAllocator 0x100000 0x40000) f := by
  apply memAllocator_reserved
  rcases here with rfl | ⟨i, rfl⟩
  · exact .inl (by decide)
  · exact .inr (Nat.le_trans (by decide) (pageTabs_above i))

theorem small_identity {m : Machine { c : Mem.Client // Mem.Invariant 0x100000 0x40000 c }}
    (run : small.LeadsTo booted m) (live : d ∈ m.spaces) (addr : BitVec 32) (low : addr.toNat < procRegion)
    (page : ¬ addr.toNat < 4096) : (walk m.mem d addr).map (fun entries => entries.2.high) = some (frameOf addr) := by
  rw [kernel_identity small_apart small_distinct small_static ⟨rfl, rfl, rfl⟩ run live low, if_neg page]

theorem fork_copies_address_space_device :
    ∃ m m', (paging (memAllocator 0x100000 0x40000) 0x10).Reachable m ∧ 0x120 ∈ m.spaces ∧
      forkProcAddrSpace (memAllocator 0x100000 0x40000) m 0x120 = .ok (0x123, m') ∧
      load m'.mem 0x123 0xC0001000#32 = load m.mem 0x120 0xC0001000#32 ∧
      (walk m'.mem 0x123 0xC0002000#32).map (fun entries => entries.2.high) = some 0xb8 := by
  obtain ⟨m, m', run, call, live, -, -, page, device, -⟩ := forked_family
  obtain ⟨-, copies⟩ := fork_copies_address_space (small_reachable run) live
  obtain ⟨-, -, -, -, -, process, -⟩ := copies 0x123 m' call
  refine ⟨m, m', small_reachable run, live, call, ?_, ?_⟩
  · obtain ⟨⟨e, t⟩, here, equal⟩ := Option.map_eq_some_iff.mp page
    obtain ⟨e', t', -, -, -, same⟩ := (process 0xC0001000#32 (by decide)).2.2 e t here
    exact same (.inl (congrArg Prod.fst equal))
  · obtain ⟨⟨e, t⟩, here, equal⟩ := Option.map_eq_some_iff.mp device
    obtain ⟨owned, frame⟩ := Prod.mk.inj equal
    obtain ⟨_, _, there, -, same, -⟩ := (process 0xC0002000#32 (by decide)).2.2 e t here
    rw [there, Option.map_some, same owned, frame]

theorem fork_visible_below_region :
    ∃ m m', (paging (memAllocator 0x100000 0x40000) 0x10).Reachable m ∧ 0x120 ∈ m.spaces ∧
      forkProcAddrSpace (memAllocator 0x100000 0x40000) m 0x120 = .ok (0x123, m') ∧
      load m.mem 0x120 0x123000#32 ≠ none ∧ load m'.mem 0x123 0x123000#32 ≠ load m.mem 0x120 0x123000#32 ∧
      load m'.mem 0x123 0xC0003000#32 ≠ load m.mem 0x120 0xC0003000#32 ∧
      ∃ e t w, walk m'.mem 0x123 0xC0001000#32 = some (e, t) ∧ t.tabAlloc = true ∧
        load (m'.store t.high (wordIdx 0xC0001000#32) w).mem 0x120 0x125000#32 ≠ load m'.mem 0x120 0x125000#32 ∧
        load (m'.store t.high (wordIdx 0xC0001000#32) w).mem 0x120 0xC0003000#32 ≠
          load m'.mem 0x120 0xC0003000#32 := by
  obtain ⟨m, m', run, call, live, blank, unwritten, -, -, page, ones, copied, shown, written⟩ := forked_family
  have forked : small.LeadsTo booted { m' with spaces := insert 0x123 m'.spaces } := by
    refine .tail run ⟨.fork 0x120, trivial, ?_⟩
    change next _ _ m (.fork 0x120) = _
    rw [next, if_pos live, call]
    rfl
  have spaces : m'.spaces = m.spaces := by
    obtain ⟨_, copy⟩ := forkProcAddrSpace_forked (reachable_formed (small_reachable run)) live call
    exact copy.grows.spaces
  have child : 0x123 ∈ insert 0x123 m'.spaces := Finset.mem_insert_self ..
  have parent : 0x120 ∈ insert 0x123 m'.spaces := Finset.mem_insert_of_mem (spaces.symm ▸ live)
  refine ⟨m, m', small_reachable run, live, call, ?_⟩
  -- the directory of the child, before and after
  have before : (walk m.mem 0x120 0x123000#32).map (fun entries => entries.2.high) = some 0x123 :=
    small_identity run live 0x123000#32 (by decide) (by decide)
  have after : (walk m'.mem 0x123 0x123000#32).map (fun entries => entries.2.high) = some 0x123 :=
    (small_identity forked child 0x123000#32 (by decide) (by decide) :)
  have entry : (m'.mem 0x123 0).present = true := by
    obtain ⟨⟨e, t⟩, here, -⟩ := Option.map_eq_some_iff.mp after
    obtain ⟨rfl, present, -⟩ := walk_some here
    exact present
  have loaded : load m.mem 0x120 0x123000#32 ≠ none := by
    rw [load_of_walk before]
    exact Option.some_ne_none _
  refine ⟨loaded, load_ne_of_present (by decide) after before ?_, ?_, ?_⟩
  · intro same
    exact absurd (entry.symm.trans (same.trans blank)) (by decide)
  · intro same
    rw [same, ones] at copied
    cases copied
  -- the page of the child, before and after a write
  · obtain ⟨⟨e, t⟩, here, equal⟩ := Option.map_eq_some_iff.mp page
    obtain ⟨owned, frame⟩ : t.tabAlloc = true ∧ t.high = 0x125 := Prod.mk.inj equal
    have device : load (m'.store 0x125 0 ⟨fun _ => true, 0⟩).mem 0x120 0xC0003000#32 ≠
        load m'.mem 0x120 0xC0003000#32 := by
      intro same
      rw [same, shown] at written
      cases written
    refine ⟨e, t, ⟨fun _ => true, 0⟩, here, owned, ?_, frame ▸ device⟩
    have formed := reachable_formed (small_reachable forked)
    have free := formed.page_not_table (formed.page_owned child (by decide) here owned)
    rw [frame] at free ⊢
    have later := small_write forked free (by decide) (by decide) 0 ⟨fun _ => true, 0⟩
    have old : (walk m'.mem 0x120 0x125000#32).map (fun entries => entries.2.high) = some 0x125 :=
      (small_identity forked parent 0x125000#32 (by decide) (by decide) :)
    have new : (walk (m'.store 0x125 0 ⟨fun _ => true, 0⟩).mem 0x120 0x125000#32).map
        (fun entries => entries.2.high) = some 0x125 :=
      (small_identity later parent 0x125000#32 (by decide) (by decide) :)
    refine load_ne_of_present (by decide) new old ?_
    have stored : ((m'.store 0x125 0 ⟨fun _ => true, 0⟩).mem 0x125 (wordIdx 0x125000#32)).present = true := by
      change (Petix.Proof.Paging.stored m'.mem 0x125 0 _ 0x125 0).present = true
      rfl
    intro same
    exact absurd (stored.symm.trans (same.trans unwritten)) (by decide)

end Petix.Proof.Paging
