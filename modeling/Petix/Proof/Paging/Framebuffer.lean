import Petix.Kernel.Fb
import Petix.Proof.Paging.Demand

namespace Petix.Proof.Paging
open Function Library Library.Result Kernel Kernel.Paging Kernel.Fb Spec.Paging

variable {σ : Type} {A : Allocator σ} {m m' k : Machine σ} {mem : Frame → Page} {as d f g tab kpagedir : Frame}
variable {i j : Fin 1024} {e t w : Word} {addr virt phys other : BitVec 32} {ret : Int} {pages : Nat}

section
variable (formed : Formed A m) (live : as ∈ m.spaces) (region : procRegion ≤ other.toNat)
variable (here : walk m.mem as other = some (e, t))
include formed live region here

theorem Formed.walk_stored (kept : ∀ g ∈ m.held, mem g = m.mem g) (entry : ¬ (as = f ∧ dirIdx other = i))
    (word : ¬ (e.high = f ∧ tabIdx other = i)) : walk (stored mem f i w) as other = some (e, t) := by
  obtain ⟨rfl, table, rfl, page⟩ := walk_some here
  have held := formed.table_held (formed.table live (dirIdx_region region) table)
  have dir : stored mem f i w as (dirIdx other) = m.mem as (dirIdx other) := by
    rw [stored_elsewhere entry, kept as (formed.dir_held live)]
  unfold walk
  dsimp only
  rw [dir, if_pos table, stored_elsewhere word, kept _ held, if_pos page]

theorem Formed.walk_demand (unused : g ∉ m.held) (absent : (m.mem f i).present = false) (page : Page) :
    walk (stored (update m.mem g page) f i w) as other = some (e, t) := by
  obtain ⟨rfl, table, rfl, word⟩ := walk_some here
  apply formed.walk_stored live region here
  · exact fun g held => update_of_ne (ne_of_mem_of_not_mem held unused) ..
  · rintro ⟨rfl, rfl⟩
    cases absent.symm.trans table
  · rintro ⟨rfl, rfl⟩
    cases absent.symm.trans word

theorem demandTable_walk (call : demandTable A m as i = .ok m') : walk m'.mem as other = some (e, t) := by
  unfold demandTable at call
  split_ifs at call with neither absent
  · obtain ⟨⟨tab, _⟩, first, last⟩ := bind_ok call
    obtain ⟨_, allocates, rfl⟩ := alloc_ok first
    cases pure_ok last
    have unused := allocates.unused formed
    rw [addTable_mem (ne_of_mem_of_not_mem (formed.dir_held live) unused)]
    simp only [Bool.and_eq_true, Bool.not_eq_true'] at absent
    exact formed.walk_demand live region here unused absent.1 _
  · cases call
    exact here

theorem demandPage_walk (table : tableAt m.spaces m.mem d i = some tab) (call : demandPage A m tab j = .ok m') :
    walk m'.mem as other = some (e, t) := by
  unfold demandPage at call
  split_ifs at call with neither absent
  · obtain ⟨⟨fresh, _⟩, first, last⟩ := bind_ok call
    obtain ⟨_, allocates, rfl⟩ := alloc_ok first
    cases pure_ok last
    have unused := allocates.unused formed
    rw [addPage_mem (ne_of_mem_of_not_mem (formed.table_held table) unused)]
    simp only [Bool.and_eq_true, Bool.not_eq_true'] at absent
    exact formed.walk_demand live region here unused absent.1 _
  · cases call
    exact here

theorem touch_walk (inside : procRegion ≤ virt.toNat) (call : touch A m as virt = .ok m') :
    walk m'.mem as other = some (e, t) := by
  unfold touch at call
  split_ifs at call
  · cases call
    exact here
  · obtain ⟨k, first, last⟩ := bind_ok call
    have fills := demandTable_fills formed live (dirIdx_region inside) first
    have live' : as ∈ k.spaces := fills.spaces ▸ live
    split_ifs at last with absent
    have table := fills.formed.table live' (dirIdx_region inside) (by simpa using absent)
    exact demandPage_walk fills.formed live' region (demandTable_walk formed live region here first) table last

end

theorem remapEntry_mem {phys : Frame} (call : remapEntry A m tab j phys = .ok m') : (m.mem tab j).present = true ∧
    m'.spaces = m.spaces ∧ m'.mem = stored m.mem tab j { (m.mem tab j).set 9 false with high := phys } := by
  unfold remapEntry at call
  split_ifs at call with absent
  have present : (m.mem tab j).present = true := by simpa using absent
  obtain ⟨_, first, last⟩ := bind_ok call
  cases pure_ok last
  unfold disownPage at first
  split_ifs at first with owns
  · obtain ⟨_, erased, last⟩ := bind_ok first
    obtain ⟨_, -, rfl⟩ := free_ok erased
    cases pure_ok last
    rw [installPage_store]
    exact ⟨present, rfl, rfl⟩
  · cases first
    have disowned : (m.mem tab j).flags 9 = false := by simpa [Word.ownsPage, Word.tabAlloc, present] using owns
    refine ⟨present, rfl, ?_⟩
    rw [Word.set, ← disowned, update_eq_self]
    rfl

section
variable (call : remapPageUser A m as as virt phys = .ok (ret, m'))
variable (inside : ¬ (virt.toNat < procRegion ∨ virt.toNat > userStackTop))
include call inside

theorem remapPageUser_ok : ret = 0 ∧ ∃ k, touch A m as virt = .ok k ∧ (k.mem as (dirIdx virt)).present = true ∧
    remapEntry A k (k.mem as (dirIdx virt)).high (tabIdx virt) (frameOf phys) = .ok m' := by
  rw [remapPageUser, if_neg inside] at call
  obtain ⟨k, first, call⟩ := bind_ok call
  obtain ⟨_, second, last⟩ := bind_ok call
  cases pure_ok last
  unfold remapInto at second
  split_ifs at second with absent
  exact ⟨rfl, k, first, by simpa using absent, second⟩

theorem remap_shown (shows : Shows m.mem as virt phys) : m'.mem = m.mem ∧ m'.spaces = m.spaces := by
  obtain ⟨-, k, first, -, second⟩ := remapPageUser_ok call inside
  obtain ⟨_, _, here, disowned, high⟩ := shows
  obtain ⟨rfl, table, rfl, page⟩ := walk_some here
  rw [touch, table, page] at first
  cases first
  obtain ⟨-, spaces, mem⟩ := remapEntry_mem second
  refine ⟨?_, spaces⟩
  rw [mem, Word.set, ← disowned, ← high, Word.tabAlloc, update_eq_self]
  unfold stored
  rw [update_eq_self, update_eq_self]

variable (formed : Formed A m) (live : as ∈ m.spaces)
include formed live

theorem remap_shows : Shows m'.mem as virt phys := by
  obtain ⟨-, k, first, table, second⟩ := remapPageUser_ok call inside
  have region : procRegion ≤ virt.toNat := by omega
  have fills := touch_fills formed live region first
  have here := fills.formed.table (fills.spaces ▸ live) (dirIdx_region region) table
  obtain ⟨present, -, mem⟩ := remapEntry_mem second
  have dir : m'.mem as (dirIdx virt) = k.mem as (dirIdx virt) := by
    rw [mem, stored_other (table_ne_dir fills.formed.exact (fills.spaces ▸ live) here).symm]
  have word : m'.mem (k.mem as (dirIdx virt)).high (tabIdx virt) =
      { (k.mem (k.mem as (dirIdx virt)).high (tabIdx virt)).set 9 false with high := frameOf phys } := by
    rw [mem, stored_self]
  refine ⟨_, _, walk_of_present (dir ▸ table) ?_, ?_⟩
  · rw [dir, word]
    exact present
  · rw [dir, word]
    exact ⟨rfl, rfl⟩

theorem remap_walk (region : procRegion ≤ other.toNat) (here : walk m.mem as other = some (e, t))
    (elsewhere : frameOf other ≠ frameOf virt) : walk m'.mem as other = some (e, t) := by
  obtain ⟨-, k, first, table, second⟩ := remapPageUser_ok call inside
  have inner : procRegion ≤ virt.toNat := by omega
  have fills := touch_fills formed live inner first
  have live' : as ∈ k.spaces := fills.spaces ▸ live
  have own := fills.formed.table live' (dirIdx_region inner) table
  have still := touch_walk formed live region here inner first
  obtain ⟨rfl, table', -⟩ := walk_some still
  rw [(remapEntry_mem second).2.2]
  apply fills.formed.walk_stored live' region still (fun _ _ => rfl)
  · exact fun same => table_ne_dir fills.formed.exact live' own same.1.symm
  · intro ⟨same, index⟩
    have there := fills.formed.table live' (dirIdx_region region) table'
    rw [same] at there
    exact elsewhere (frameOf_eq.mpr ⟨(table_unique fills.formed.exact there own).2, index⟩)

end

section
variable {result : Option Errno} (call : mapPages A as pages virt phys m = .ok (result, m'))
include call

theorem mapPages_shown (shown : Shown m.mem as pages virt phys) : m'.mem = m.mem ∧ m'.spaces = m.spaces := by
  induction pages generalizing m virt phys with
  | zero =>
    cases call
    exact ⟨rfl, rfl⟩
  | succ pages ih =>
    obtain ⟨⟨ret, k⟩, first, call⟩ := bind_ok call
    by_cases outside : virt.toNat < procRegion ∨ virt.toNat > userStackTop
    · rw [remapPageUser, if_pos outside] at first
      cases first
      cases call
      exact ⟨rfl, rfl⟩
    · obtain ⟨shows, rest⟩ := shown outside
      obtain ⟨mem, spaces⟩ := remap_shown first outside shows
      obtain ⟨rfl, -⟩ := remapPageUser_ok first outside
      obtain ⟨mem', spaces'⟩ := ih call (mem.symm ▸ rest)
      exact ⟨mem'.trans mem, spaces'.trans spaces⟩

variable (formed : Formed A m) (live : as ∈ m.spaces)
include formed live

theorem mapPages_walk (region : procRegion ≤ other.toNat) (here : walk m.mem as other = some (e, t))
    (before : other.toNat / 2 ^ 12 < virt.toNat / 2 ^ 12) : walk m'.mem as other = some (e, t) := by
  induction pages generalizing m virt phys with
  | zero =>
    cases call
    exact here
  | succ pages ih =>
    obtain ⟨⟨ret, k⟩, first, call⟩ := bind_ok call
    by_cases outside : virt.toNat < procRegion ∨ virt.toNat > userStackTop
    · rw [remapPageUser, if_pos outside] at first
      cases first
      cases call
      exact here
    · have fills := remapPageUser_fills formed live live first
      have there := remap_walk first outside formed live region here fun same =>
        before.ne (congrArg Fin.val same)
      obtain ⟨rfl, -⟩ := remapPageUser_ok first outside
      have next : (virt + 4096).toNat = virt.toNat + 4096 := by
        unfold userStackTop at outside
        bv_omega
      exact ih call fills.formed (fills.spaces ▸ live) there (by omega)

omit call in
theorem Undisturbed.disowned (kept : Undisturbed m m' as) (region : procRegion ≤ virt.toNat)
    (before : walk m.mem as virt = some (e, t))
    (after : (m'.mem (m'.mem as (dirIdx virt)).high (tabIdx virt)).tabAlloc = false) : t.tabAlloc = false := by
  obtain ⟨rfl, table, rfl, page⟩ := walk_some before
  by_contra owned
  have owns : (m.mem (m.mem as (dirIdx virt)).high (tabIdx virt)).ownsPage = true := by
    simp_all [Word.ownsPage]
  have here := formed.table live (dirIdx_region region) table
  have there := kept.owned (.page as _ _) _ rfl (frameAt_page ((pageAt_of_table here).trans (if_pos owns)))
  obtain ⟨tab, found, word⟩ := Option.bind_eq_some_iff.mp (show pageAt _ _ _ _ _ = _ from there)
  obtain ⟨-, -, -, rfl⟩ := tableAt_some found
  split_ifs at word with still
  simp [Word.ownsPage, after] at still

theorem Undisturbed.shown (kept : Undisturbed m m' as) : Shown m.mem as pages virt phys := by
  induction pages generalizing m virt phys with
  | zero => trivial
  | succ pages ih =>
    intro inside
    obtain ⟨⟨ret, k⟩, first, call⟩ := bind_ok call
    have region : procRegion ≤ virt.toNat := by omega
    have fills := remapPageUser_fills formed live live first
    have live' : as ∈ k.spaces := fills.spaces ▸ live
    obtain ⟨e, t, there, disowned, high⟩ := remap_shows first inside formed live
    obtain ⟨rfl, -⟩ := remapPageUser_ok first inside
    have next : (virt + 4096).toNat = virt.toNat + 4096 := by
      unfold userStackTop at inside
      bv_omega
    have last := mapPages_walk call fills.formed live' region there (by omega)
    have shows : Shows m.mem as virt phys := by
      cases before : walk m.mem as virt with
      | none => exact absurd (kept.demanded virt e t before last) (by simp [disowned])
      | some entries =>
        obtain ⟨_, _, after, same⟩ := kept.mapped virt _ _ before
        cases last.symm.trans after
        refine ⟨_, _, before, ?_, same.symm.trans high⟩
        obtain ⟨rfl, -, rfl, -⟩ := walk_some last
        exact Undisturbed.disowned formed live kept region before disowned
    obtain ⟨mem, spaces⟩ := remap_shown first inside shows
    have same : Undisturbed k m' as := by
      constructor
      · rw [mem]
        exact kept.mapped
      · rw [mem]
        exact kept.demanded
      · rw [mem, spaces]
        exact kept.owned
    exact ⟨shows, mem ▸ ih call fills.formed live' same⟩

end

theorem fb_mmap_failed_iff {fb : Fb} {len flags : BitVec 32} {errno : Errno}
    (reachable : (paging A kpagedir).Reachable m) (live : as ∈ m.spaces)
    (failed : fbMmap A fb m as addr len flags = .ok (some errno, m')) : Undisturbed m m' as ↔
      flags &&& 3 ≠ 0 ∨ len ≠ fb.width * fb.height * 4 ∨ Shown m.mem as ((len.toNat + 4095) / 4096) addr fb.addr := by
  have kept (mem : m'.mem = m.mem) (spaces : m'.spaces = m.spaces) : Undisturbed m m' as := by
    constructor
    · rw [mem]
      exact fun _ e t here => ⟨e, t, here, rfl⟩
    · rw [mem]
      intro _ _ _ absent here
      cases absent.symm.trans here
    · rw [mem, spaces]
      exact fun _ _ _ here => here
  unfold fbMmap at failed
  split_ifs at failed with refused length
  · cases failed
    exact iff_of_true (kept rfl rfl) (.inl refused)
  · cases failed
    exact iff_of_true (kept rfl rfl) (.inr (.inl length))
  · have formed := reachable_formed reachable
    constructor
    · exact fun same => .inr (.inr (Undisturbed.shown failed formed live same))
    · rintro (flags | wrong | shown)
      · exact absurd flags refused
      · exact absurd wrong length
      · obtain ⟨mem, spaces⟩ := mapPages_shown failed shown
        exact kept mem spaces

section
variable (m m' : Machine { c : Mem.Client // Mem.Invariant 0x100000 0x40000 c })

abbrev mapTwo (addr : BitVec 32) := fbMmap (memAllocator 0x100000 0x40000) ⟨0xFD000000, 2048, 1⟩ m 0x120 addr 8192 0

abbrev FreesPage : Prop := 0x120 ∈ m.spaces ∧
  (walk m.mem 0x120 0xFFFFE000).map (fun entries => (entries.2.tabAlloc, entries.2.high)) = some (true, 0x122) ∧
  (walk m'.mem 0x120 0xFFFFE000).map (fun entries => (entries.2.tabAlloc, entries.2.high)) = some (false, 0xFD000) ∧
  0x122 ∈ m.held ∧ 0x122 ∉ m'.held

end

theorem fb_mmap_failed_first : ∃ m m', (paging (memAllocator 0x100000 0x40000) 0x10).Reachable m ∧ 0x120 ∈ m.spaces ∧
    mapTwo m 0xFFFFF000 = .ok (some .EFAULT, m') ∧ Undisturbed m m' 0x120 := by
  have run : ([.create].foldlM (advance (memAllocator 0x100000 0x40000) 0x10) booted).map
      (fun m => decide (0x120 ∈ m.spaces)) = some true := by
    decide +kernel
  obtain ⟨m, computed, live⟩ := Option.map_eq_some_iff.mp run
  have reachable := System.Reachable.run (advance_sound _ _) (.initial (initPaging_initial ⟨rfl, rfl, rfl⟩)) computed
  have live := of_decide_eq_true live
  have failed : mapTwo m 0xFFFFF000 = .ok (some .EFAULT, m) := rfl
  refine ⟨m, m, reachable, live, failed, (fb_mmap_failed_iff reachable live failed).mpr (.inr (.inr fun inside => ?_))⟩
  exact absurd (.inr (by decide)) inside

theorem fb_mmap_failed_frees : ∃ m m', (paging (memAllocator 0x100000 0x40000) 0x10).Reachable m ∧
    mapTwo m 0xFFFFE000 = .ok (some .EFAULT, m') ∧ FreesPage m m' := by
  have run : (([.create, .pageFault 0x120 0xFFFFE000 0].foldlM (advance (memAllocator 0x100000 0x40000) 0x10)
      booted).bind fun m => (mapTwo m 0xFFFFE000).toOption.map fun r => (r.1, decide (FreesPage m r.2))) =
      some (some .EFAULT, true) := by
    decide +kernel
  obtain ⟨m, computed, rest⟩ := Option.bind_eq_some_iff.mp run
  obtain ⟨⟨_, m'⟩, call, equal⟩ := Option.map_eq_some_iff.mp rest
  obtain ⟨rfl, frees⟩ := Prod.mk.inj equal
  have reachable := System.Reachable.run (advance_sound _ _) (.initial (initPaging_initial ⟨rfl, rfl, rfl⟩)) computed
  exact ⟨m, m', reachable, ok_of_toOption call, of_decide_eq_true frees⟩

end Petix.Proof.Paging
