import Petix.Spec.Exec

namespace Petix.Spec.Loading
open Library Kernel.Exec Spec.Exec

def phdrAt (m : Memory) (file i : Nat) : Nat := file + ePhoff m file + 32 * i

def pMemsz (m : Memory) (phdr : Nat) : Nat := m.read 4 (phdr + 20)

def Loads (m : Memory) (file i : Nat) : Prop := i < ePhnum m file ∧ pType m (phdrAt m file i) = 1

instance (m : Memory) (file i : Nat) : Decidable (Loads m file i) := inferInstanceAs (Decidable (_ ∧ _))

def InSegment (m : Memory) (file i x : Nat) : Prop :=
  pVaddr m (phdrAt m file i) ≤ x ∧ x < pVaddr m (phdrAt m file i) + pMemsz m (phdrAt m file i)

structure Image (m : Memory) (file size bottom : Nat) : Prop extends Program m file size bottom where
  word : bottom ≤ 2 ^ 32
  inside : ∀ i, Loads m file i → pOffset m (phdrAt m file i) + pFilesz m (phdrAt m file i) ≤ size
  tail : ∀ i, Loads m file i → pFilesz m (phdrAt m file i) ≤ pMemsz m (phdrAt m file i) ∧
    pVaddr m (phdrAt m file i) + pMemsz m (phdrAt m file i) ≤ bottom
  apart : ∀ i j x, Loads m file i → Loads m file j → i ≠ j → InSegment m file i x → ¬ InSegment m file j x

def Copied (m m' : Memory) (file i : Nat) : Prop :=
  ∀ t < pFilesz m (phdrAt m file i), m' (pVaddr m (phdrAt m file i) + t) = m (file + pOffset m (phdrAt m file i) + t)

def ZeroTail (m m' : Memory) (file i : Nat) : Prop :=
  ∀ t, pFilesz m (phdrAt m file i) ≤ t → t < pMemsz m (phdrAt m file i) → m' (pVaddr m (phdrAt m file i) + t) = 0

end Petix.Spec.Loading
