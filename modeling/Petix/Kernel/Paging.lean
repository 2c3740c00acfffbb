import Mathlib.Data.Finset.Basic
import Petix.Library.Transition
import Petix.Library.Word

/-!
# Address spaces (`kernel/arch/i686/paging.c`)

Physical memory is a function from frames to pages of 1024 words. The kernel reaches it through its identity
mapping, so a pointer and the frame it points into are the same here. Frames come from an allocator of which
only the interface is fixed.
-/

namespace Petix.Kernel.Paging
open Function List Library

abbrev Frame := Fin (2 ^ 20)

instance neZeroFrames : NeZero (2 ^ 20) := ⟨by decide⟩

/-- A word as the entries of a page directory and a page table divide it: the bits 0 to 11 and the field
`page_table` or `addr` above them. -/
structure Word where
  flags : Fin 12 → Bool
  high : Frame

abbrev Page := Fin 1024 → Word

def zeroPage : Page := fun _ => ⟨fun _ => false, 0⟩

namespace Word

def present (w : Word) : Bool := w.flags 0
def rw (w : Word) : Bool := w.flags 1
def user (w : Word) : Bool := w.flags 2

def dirAlloc (w : Word) : Bool := w.flags 8

def tabAlloc (w : Word) : Bool := w.flags 9

def set (w : Word) (bit : Fin 12) (value : Bool) : Word := { w with flags := update w.flags bit value }

def ownsTable (w : Word) : Bool := w.present && w.dirAlloc
def ownsPage (w : Word) : Bool := w.present && w.tabAlloc

end Word

structure Allocator (σ : Type) where
  allocPage : σ → Option (Frame × σ)
  freePage : σ → Frame → Option σ
  allocated : σ → Frame → Prop
  nonzero : ∀ {s f s'}, allocPage s = some (f, s') → f ≠ 0
  mapped : ∀ {s f s'}, allocPage s = some (f, s') → f.val < 0xC0000
  fresh : ∀ {s f s'}, allocPage s = some (f, s') → ¬ allocated s f
  alloc_iff : ∀ {s f s'}, allocPage s = some (f, s') → ∀ g, allocated s' g ↔ g = f ∨ allocated s g
  free_some : ∀ {s f}, allocated s f → ∃ s', freePage s f = some s'
  free_iff : ∀ {s f s'}, freePage s f = some s' → ∀ g, allocated s' g ↔ allocated s g ∧ g ≠ f

structure Machine (σ : Type) where
  frames : σ
  mem : Frame → Page
  held : Finset Frame
  spaces : Finset Frame
  remapped : Finset Frame

inductive Halt where
  | outOfPages
  | doubleFree
  | unrecoverable
  | segfault
  | notPresent
  deriving DecidableEq

def identityLen : Nat := 768
def procRegion : Nat := 0xC0000000
def userStackTop : Nat := 0xffffffff - 4096

def dirIdx (addr : BitVec 32) : Fin 1024 := ⟨addr.toNat / 2 ^ 22, by omega⟩
def tabIdx (addr : BitVec 32) : Fin 1024 := ⟨addr.toNat / 2 ^ 12 % 1024, by omega⟩
def frameOf (addr : BitVec 32) : Frame := ⟨addr.toNat / 2 ^ 12, by omega⟩

variable {σ : Type} (A : Allocator σ)

def alloc (m : Machine σ) : Except Halt (Frame × Machine σ) :=
  match A.allocPage m.frames with
  | some (f, frames) => .ok (f, { m with frames := frames, held := insert f m.held })
  | none => .error .outOfPages

def free (m : Machine σ) (f : Frame) : Except Halt (Machine σ) :=
  match A.freePage m.frames f with
  | some frames => .ok { m with frames := frames, held := m.held.erase f }
  | none => .error .doubleFree

def Machine.fill (m : Machine σ) (f : Frame) (page : Page) : Machine σ :=
  { m with mem := update m.mem f page }

def Machine.store (m : Machine σ) (f : Frame) (i : Fin 1024) (w : Word) : Machine σ :=
  m.fill f (update (m.mem f) i w)

def identityEntry (i : Fin identityLen) (j : Fin 1024) (w : Word) : Word :=
  { ((w.set 0 true).set 1 true).set 8 true with
    high := ⟨i.val * 1024 + j.val, by have := i.isLt; unfold identityLen at this; omega⟩ }

def mapTable (kpagedir : Frame) (pageTabs : Fin identityLen → Frame) (m : Machine σ) (i : Fin identityLen) :
    Machine σ :=
  let m := m.store kpagedir (i.castLE (by decide))
    { ((m.mem kpagedir (i.castLE (by decide))).set 0 true).set 1 true with high := pageTabs i }
  m.fill (pageTabs i) fun j => identityEntry i j (m.mem (pageTabs i) j)

def unmapZeroPage (kpagedir : Frame) (m : Machine σ) : Machine σ :=
  m.store (m.mem kpagedir 0).high 0 ((m.mem (m.mem kpagedir 0).high 0).set 0 false)

def initPaging (kpagedir : Frame) (pageTabs : Fin identityLen → Frame) (m : Machine σ) : Machine σ :=
  let m := m.fill kpagedir zeroPage
  let m := (finRange identityLen).foldl (fun m i => m.fill (pageTabs i) zeroPage) m
  let m := (finRange identityLen).foldl (mapTable kpagedir pageTabs) m
  unmapZeroPage kpagedir m

def demandEntry (e w : Word) : Word := (((w.set 9 true).set 0 false).set 1 e.rw).set 2 e.user

def addTable (m : Machine σ) (pd : Frame) (i : Fin 1024) (tab : Frame) : Machine σ :=
  let m := m.fill tab zeroPage
  let m := m.fill tab fun j => demandEntry (m.mem pd i) (m.mem tab j)
  m.store pd i { (m.mem pd i).set 0 true with high := tab }

def demandTable (m : Machine σ) (pd : Frame) (i : Fin 1024) : Except Halt (Machine σ) :=
  if !(m.mem pd i).present && !(m.mem pd i).dirAlloc then .error .segfault
  else if !(m.mem pd i).present && (m.mem pd i).dirAlloc then do
    let (tab, m) ← alloc A m
    return addTable m pd i tab
  else .ok m

def addPage (m : Machine σ) (tab : Frame) (j : Fin 1024) (page : Frame) : Machine σ :=
  let m := m.fill page zeroPage
  m.store tab j { ((m.mem tab j).set 0 true).set 8 false with high := page }

def demandPage (m : Machine σ) (tab : Frame) (j : Fin 1024) : Except Halt (Machine σ) :=
  if !(m.mem tab j).present && !(m.mem tab j).tabAlloc then .error .segfault
  else if !(m.mem tab j).present && (m.mem tab j).tabAlloc then do
    let (page, m) ← alloc A m
    return addPage m tab j page
  else .ok m

def pageFaultHandler (m : Machine σ) (pd : Frame) (linaddr errorCode : BitVec 32) : Except Halt (Machine σ) :=
  if errorCode &&& 0x9 ≠ 0 then .error .unrecoverable
  else do
    let m ← demandTable A m pd (dirIdx linaddr)
    if !(m.mem pd (dirIdx linaddr)).present then .error .notPresent
    else demandPage A m (m.mem pd (dirIdx linaddr)).high (tabIdx linaddr)

def blankEntry (e : Word) : Word := (((e.set 0 false).set 1 true).set 2 true).set 8 true

def createProcAddrSpace (kpagedir : Frame) (m : Machine σ) : Except Halt (Frame × Machine σ) := do
  let (pd, m) ← alloc A m
  let m := m.fill pd (m.mem kpagedir)
  return (pd, m.fill pd fun i => if identityLen ≤ i.val then blankEntry (m.mem pd i) else m.mem pd i)

def dirIndices : List (Fin 1024) := (finRange 1024).filter (identityLen ≤ ·.val)

def freeEntry (m : Machine σ) (tab : Frame) (j : Fin 1024) : Except Halt (Machine σ) :=
  if (m.mem tab j).ownsPage then free A m (m.mem tab j).high else .ok m

def freeEntries (m : Machine σ) (tab : Frame) : Except Halt (Machine σ) :=
  (finRange 1024).foldlM (fun k j => freeEntry A k tab j) m

def freeTable (m : Machine σ) (as : Frame) (i : Fin 1024) : Except Halt (Machine σ) :=
  if (m.mem as i).ownsTable then do
    let m ← freeEntries A m (m.mem as i).high
    free A m (m.mem as i).high
  else .ok m

def freeProcAddrSpace (m : Machine σ) (as : Frame) : Except Halt (Machine σ) :=
  if as = 0 then .ok m
  else do
    let m ← dirIndices.foldlM (fun k i => freeTable A k as i) m
    free A m as

def copyPage (m : Machine σ) (tab : Frame) (j : Fin 1024) (page : Frame) : Machine σ :=
  let m := m.fill page (m.mem (m.mem tab j).high)
  m.store tab j { m.mem tab j with high := page }

def forkEntry (m : Machine σ) (tab : Frame) (j : Fin 1024) : Except Halt (Machine σ) :=
  if (m.mem tab j).ownsPage then do
    let (page, m) ← alloc A m
    return copyPage m tab j page
  else .ok m

def copyTable (m : Machine σ) (as dir : Frame) (i : Fin 1024) (tab : Frame) : Machine σ :=
  let m := m.fill tab (m.mem (m.mem as i).high)
  m.store dir i { m.mem dir i with high := tab }

def forkTable (m : Machine σ) (as dir : Frame) (i : Fin 1024) : Except Halt (Machine σ) :=
  if (m.mem as i).ownsTable then do
    let (tab, m) ← alloc A m
    (finRange 1024).foldlM (fun k j => forkEntry A k tab j) (copyTable m as dir i tab)
  else .ok m

def forkProcAddrSpace (m : Machine σ) (as : Frame) : Except Halt (Frame × Machine σ) := do
  let (dir, m) ← alloc A m
  let m ← dirIndices.foldlM (fun k i => forkTable A k as dir i) (m.fill dir (m.mem as))
  return (dir, m)

def touch (m : Machine σ) (pd : Frame) (addr : BitVec 32) : Except Halt (Machine σ) :=
  if (m.mem pd (dirIdx addr)).present && (m.mem (m.mem pd (dirIdx addr)).high (tabIdx addr)).present then .ok m
  else pageFaultHandler A m pd addr 0

def disownPage (m : Machine σ) (tab : Frame) (j : Fin 1024) : Except Halt (Machine σ) :=
  if (m.mem tab j).ownsPage then do
    let m ← free A m (m.mem tab j).high
    return m.store tab j ((m.mem tab j).set 9 false)
  else .ok m

def installPage (m : Machine σ) (tab : Frame) (j : Fin 1024) (phys : Frame) : Machine σ :=
  { m.store tab j { m.mem tab j with high := phys } with remapped := insert phys m.remapped }

def remapEntry (m : Machine σ) (tab : Frame) (j : Fin 1024) (phys : Frame) : Except Halt (Machine σ) :=
  if !(m.mem tab j).present then .error .notPresent
  else do
    let m ← disownPage A m tab j
    return installPage m tab j phys

def remapInto (m : Machine σ) (as : Frame) (i j : Fin 1024) (phys : Frame) : Except Halt (Machine σ) :=
  if !(m.mem as i).present then .error .notPresent
  else remapEntry A m (m.mem as i).high j phys

def remapPageUser (m : Machine σ) (pd as : Frame) (virt phys : BitVec 32) : Except Halt (Int × Machine σ) :=
  if virt.toNat < procRegion ∨ virt.toNat > userStackTop then .ok (-1, m)
  else do
    let m ← touch A m pd virt
    let m ← remapInto A m as (dirIdx virt) (tabIdx virt) (frameOf phys)
    return (0, m)

def Machine.IsTable (m : Machine σ) (f : Frame) : Prop :=
  ∃ d ∈ m.spaces, f = d ∨ ∃ i : Fin 1024, identityLen ≤ i.val ∧ (m.mem d i).ownsTable ∧ (m.mem d i).high = f

instance (m : Machine σ) (f : Frame) : Decidable (m.IsTable f) :=
  inferInstanceAs (Decidable (∃ d ∈ m.spaces, _))

inductive Action where
  | create
  | pageFault (pd : Frame) (linaddr errorCode : BitVec 32)
  | fork (as : Frame)
  | remap (pd as : Frame) (virt phys : BitVec 32)
  | free (as : Frame)
  | write (f : Frame) (page : Page)
  | allocOther
  | freeOther (f : Frame)

def next (kpagedir : Frame) (m : Machine σ) : Action → Except Halt (Option (Machine σ))
  | .create => (fun r => some { r.2 with spaces := insert r.1 r.2.spaces }) <$> createProcAddrSpace A kpagedir m
  | .pageFault pd linaddr errorCode =>
    if pd ∈ m.spaces ∧ procRegion ≤ linaddr.toNat then some <$> pageFaultHandler A m pd linaddr errorCode
    else .ok none
  | .fork as =>
    if as ∈ m.spaces then (fun r => some { r.2 with spaces := insert r.1 r.2.spaces }) <$> forkProcAddrSpace A m as
    else .ok none
  | .remap pd as virt phys =>
    if pd ∈ m.spaces ∧ as ∈ m.spaces then (fun r => some r.2) <$> remapPageUser A m pd as virt phys
    else .ok none
  | .free as =>
    if as ∈ m.spaces then (fun k => some { k with spaces := k.spaces.erase as }) <$> freeProcAddrSpace A m as
    else .ok none
  | .write f page => if m.IsTable f then .ok none else .ok (some (m.fill f page))
  | .allocOther => match A.allocPage m.frames with
      | some (_, frames) => .ok (some { m with frames := frames })
      | none => .error .outOfPages
  | .freeOther f =>
    if f ∈ m.held then .ok none
    else match A.freePage m.frames f with
      | some frames => .ok (some { m with frames := frames })
      | none => .error .doubleFree

def paging (kpagedir : Frame) : System (Machine σ) Action where
  initial m := m.held = ∅ ∧ m.spaces = ∅ ∧ m.remapped = ∅
  step m action m' := next A kpagedir m action = .ok (some m')

def advance (kpagedir : Frame) (m : Machine σ) (action : Action) : Option (Machine σ) :=
  match next A kpagedir m action with
  | .ok m => m
  | .error _ => none

theorem advance_sound (kpagedir : Frame) (m : Machine σ) (action : Action) (m' : Machine σ)
    (step : advance A kpagedir m action = some m') : (paging A kpagedir).step m action m' := by
  unfold advance at step
  split at step
  · rename_i equal
    exact equal.trans (congrArg Except.ok step)
  · cases step

end Petix.Kernel.Paging
