import Petix.Kernel.Mem

namespace Petix.Spec.Mem
open Library Kernel.Mem

inductive ScanEnd where
  | found (i : Nat) (w : BitVec 32)
  | panic
  | outside (i : Nat)
  | endless
  deriving DecidableEq

def scanWords (array : List (BitVec 32)) : (fuel : Nat) → (i : Nat) → List Nat × ScanEnd
  | 0, _ => ([], .endless)
  | fuel + 1, i =>
    if 0 ≤ i then
      match array[i]? with
      | none => ([i], .outside i)
      | some w =>
        if w ≠ BitVec.allOnes 32 then ([i], .found i w)
        else
          let (seen, ending) := scanWords array fuel (sub32 i 1)
          (i :: seen, ending)
    else ([], .panic)

def Full (s : Frames) : Prop := s.freeStack = [] ∧ ∀ w ∈ s.frames, w = BitVec.allOnes 32

def Panics (s : Frames) : Prop :=
  scanWords s.frames (2 ^ 32) (sub32 s.nframes 1 / 32) = ((List.range (sub32 s.nframes 1 / 32 + 1)).reverse, .panic)

end Petix.Spec.Mem
