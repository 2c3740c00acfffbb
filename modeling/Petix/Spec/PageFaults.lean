import Petix.Spec.Paging

namespace Petix.Spec.Paging
open Kernel.Paging

variable {σ : Type}

structure Faultable (mem : Frame → Page) (d : Frame) (addr : BitVec 32) : Prop where
  absent : walk mem d addr = none
  table : (mem d (dirIdx addr)).dirAlloc = true
  page : (mem d (dirIdx addr)).present = true → (mem (mem d (dirIdx addr)).high (tabIdx addr)).tabAlloc = true

structure MapsOnly (A : Allocator σ) (m m' : Machine σ) (pd : Frame) (addr : BitVec 32) : Prop where
  page : ∃ e t, walk m'.mem pd addr = some (e, t) ∧ ¬ A.allocated m.frames t.high ∧ m'.mem t.high = zeroPage ∧
    t.rw = (m.mem pd (dirIdx addr)).rw ∧ t.user = (m.mem pd (dirIdx addr)).user
  others : ∀ other, frameOf other ≠ frameOf addr → walk m'.mem pd other = walk m.mem pd other
  faultable : ∀ other, procRegion ≤ other.toNat → walk m'.mem pd other = none → Faultable m'.mem pd other

structure KernelMapped (pageTabs : Fin identityLen → Frame) (m : Machine σ) (d : Frame) : Prop where
  own : ∀ i, pageTabs i ∉ m.held
  table : ∀ i : Fin identityLen, (m.mem d (i.castLE (by decide))).high = pageTabs i
  mapped : ∀ addr, 4096 ≤ addr.toNat → addr.toNat < procRegion → walk m.mem d addr ≠ none

def Supplies (A : Allocator σ) (kernel : Set Frame) : Nat → σ → Prop
  | 0, _ => True
  | n + 1, s => ∃ f s', A.allocPage s = some (f, s') ∧ f ∉ kernel ∧ Supplies A kernel n s'

structure Undisturbed (m m' : Machine σ) (as : Frame) : Prop where
  mapped : ∀ addr e t, walk m.mem as addr = some (e, t) →
    ∃ e' t', walk m'.mem as addr = some (e', t') ∧ t'.high = t.high
  demanded : ∀ addr e t, walk m.mem as addr = none → walk m'.mem as addr = some (e, t) → t.tabAlloc = true
  owned : ∀ p f, p.space = as → frameAt m.spaces m.mem p = some f → frameAt m'.spaces m'.mem p = some f

def Shows (mem : Frame → Page) (as : Frame) (virt phys : BitVec 32) : Prop :=
  ∃ e t, walk mem as virt = some (e, t) ∧ t.tabAlloc = false ∧ t.high = frameOf phys

def Shown (mem : Frame → Page) (as : Frame) : (pages : Nat) → (virt phys : BitVec 32) → Prop
  | 0, _, _ => True
  | pages + 1, virt, phys => ¬ (virt.toNat < procRegion ∨ virt.toNat > userStackTop) →
      Shows mem as virt phys ∧ Shown mem as pages (virt + 4096) (phys + 4096)

end Petix.Spec.Paging
