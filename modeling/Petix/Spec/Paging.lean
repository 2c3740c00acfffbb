import Petix.Kernel.Paging
import Petix.Library.Ownership

namespace Petix.Spec.Paging
open Kernel.Paging

inductive Place where
  | dir (d : Frame)
  | table (d : Frame) (i : Fin 1024)
  | page (d : Frame) (i j : Fin 1024)
  deriving DecidableEq

def Place.space : Place → Frame
  | .dir d => d
  | .table d _ => d
  | .page d _ _ => d

section
variable (spaces : Finset Frame) (mem : Frame → Page)

def tableAt (d : Frame) (i : Fin 1024) : Option Frame :=
  if d ∈ spaces ∧ identityLen ≤ i.val ∧ (mem d i).ownsTable then some (mem d i).high else none

def pageAt (d : Frame) (i j : Fin 1024) : Option Frame :=
  (tableAt spaces mem d i).bind fun tab => if (mem tab j).ownsPage then some (mem tab j).high else none

def frameAt : Place → Option Frame
  | .dir d => if d ∈ spaces then some d else none
  | .table d i => tableAt spaces mem d i
  | .page d i j => pageAt spaces mem d i j

end

def walk (mem : Frame → Page) (d : Frame) (addr : BitVec 32) : Option (Word × Word) :=
  let e := mem d (dirIdx addr)
  if e.present then
    let t := mem e.high (tabIdx addr)
    if t.present then some (e, t) else none
  else none

def flagsAt (mem : Frame → Page) (d : Frame) (addr : BitVec 32) : (Fin 12 → Bool) × Option (Fin 12 → Bool) :=
  let e := mem d (dirIdx addr)
  (e.flags, if e.present then some (mem e.high (tabIdx addr)).flags else none)

def wordIdx (addr : BitVec 32) : Fin 1024 := ⟨addr.toNat % 2 ^ 12 / 4, by omega⟩

def bit (w : Word) (n : Nat) : Bool := if low : n < 12 then w.flags ⟨n, low⟩ else w.high.val.testBit (n - 12)

def byte (w : Word) (addr : BitVec 32) : Fin 8 → Bool := fun b => bit w (8 * (addr.toNat % 4) + b.val)

def load (mem : Frame → Page) (d : Frame) (addr : BitVec 32) : Option (Fin 8 → Bool) :=
  (walk mem d addr).map fun entries => byte (mem entries.2.high (wordIdx addr)) addr

def Reserved {σ : Type} (A : Allocator σ) (f : Frame) : Prop := ∀ s s', A.allocPage s ≠ some (f, s')

def taken {σ : Type} (m m' : Machine σ) : Finset Frame := m'.held \ m.held

end Petix.Spec.Paging
