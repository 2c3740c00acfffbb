import Petix.Kernel.Loader
import Petix.Spec.Loading

namespace Petix.Spec.Loader
open Library Kernel.Exec Kernel.Loader Spec.Loading

/-- Reads stay inside the file, and writes between `PROC_REGION` and `USER_STACK_TOP`. The addresses of an access are
those of 32 bits. -/
def Confined (file size : Nat) : Access → Prop
  | .read address count => ∀ t < count, file ≤ add32 address t ∧ add32 address t < file + size
  | .write address count => ∀ t < count, userBase ≤ add32 address t ∧ add32 address t ≤ userStackTop

def Halts (m : Memory) (file i : Nat) : Prop :=
  pType m (phdrAt m file i) = 1 ∧ pVaddr m (phdrAt m file i) < userBase

def EntryInside (m : Memory) (file size i : Nat) : Prop :=
  ePhoff m file + 32 * i + 4 ≤ size ∧ (pType m (phdrAt m file i) = 1 → ePhoff m file + 32 * i + 12 ≤ size ∧
        (userBase ≤ pVaddr m (phdrAt m file i) → ePhoff m file + 32 * i + 20 ≤ size ∧ (pFilesz m (phdrAt m file i) ≠ 0 →
              pOffset m (phdrAt m file i) + pFilesz m (phdrAt m file i) ≤ size ∧
                pVaddr m (phdrAt m file i) + pFilesz m (phdrAt m file i) ≤ userStackTop + 1)))

/-- The headers that are read and the segments before the first assertion that fails lie inside the file. -/
structure Inside (m : Memory) (file size : Nat) : Prop where
  header : 18 ≤ size
  table : eType m file = 2 → 46 ≤ size ∧ ∀ i < ePhnum m file, (∀ j < i, ¬ Halts m file j) → EntryInside m file size i

end Petix.Spec.Loader
