import Mathlib.Data.List.Infix
import Mathlib.Data.Set.Insert
import Petix.Kernel.Mounts
import Petix.Library.Words

namespace Petix.Spec.Mounts
open Library Kernel.Mounts

abbrev Name := List Byte

structure CString where
  bytes : List Byte
  terminated : 0 ∉ bytes

def components (p : List Byte) : List Name := words (· == slash) p

def behind (p : List Byte) : List Byte := ((p.dropWhile (· == slash)).dropWhile (· != slash)).drop 1

variable {φ : Type}

inductive Reaches : MountTree φ → List Name → MountNode φ → Prop
  | here {name mountpoint fs freed child sibling} :
      Reaches (.node name mountpoint fs freed child sibling) [name] ⟨mountpoint, fs, child⟩
  | within {name mountpoint fs freed child sibling path node} (rest : Reaches child path node) :
      Reaches (.node name mountpoint fs freed child sibling) (name :: path) node
  | beside {name mountpoint fs freed child sibling path node} (rest : Reaches sibling path node) :
      Reaches (.node name mountpoint fs freed child sibling) path node

def NodeAt (root : MountNode φ) (path : List Name) (node : MountNode φ) : Prop :=
  path = [] ∧ node = root ∨ Reaches root.child path node

def Mounted (root : MountNode φ) (path : List Name) (fs : φ) : Prop :=
  ∃ node, NodeAt root path node ∧ node.mountpoint = true ∧ node.fs = fs

def mountpoints (root : MountNode φ) : Set (List Name) := { path | ∃ fs, Mounted root path fs }

def Live : MountTree φ → Prop
  | .null => True
  | .node _ _ _ freed child sibling => freed = false ∧ Live child ∧ Live sibling

def siblings : MountTree φ → List Name
  | .null => []
  | .node name _ _ _ _ sibling => name :: siblings sibling

def IsName (name : Name) : Prop := 0 ∉ name ∧ name.length ≤ fileNameLen

def Distinct : MountTree φ → Prop
  | .null => True
  | .node name _ _ _ child sibling => IsName name ∧ name ∉ siblings sibling ∧ Distinct child ∧ Distinct sibling

structure Longest (root : MountNode φ) (path target : List Name) (fs : φ) : Prop where
  leads : target <+: path
  mounted : Mounted root target fs
  longest : ∀ target' fs', target' <+: path → Mounted root target' fs' → target'.length ≤ target.length

structure MountCall (φ : Type) where
  targ : CString
  fs : φ
  junk : φ

def MountCall.path (call : MountCall φ) : List Name := components call.targ.bytes

def MountCall.run (root : MountNode φ) (call : MountCall φ) : Except Fault (MountNode φ) :=
  fsMount call.junk call.fs root call.targ.bytes

def unmounted (zero : φ) : MountNode φ := ⟨false, zero, .null⟩

def StrictlyBelow (path target : List Name) : Prop := target <+: path ∧ path ≠ target

structure Replaces (before : MountNode φ) (call : MountCall φ) (after : MountNode φ) : Prop where
  mountpoints : mountpoints after = insert call.path (mountpoints before \ { path | StrictlyBelow path call.path })
  live : Live after.child

def AllReplace (root : MountNode φ) (calls : List (MountCall φ)) : Prop :=
  ∀ earlier call later, calls = earlier ++ call :: later →
    ∃ before after, earlier.foldlM MountCall.run root = .ok before ∧ call.run before = .ok after ∧
      Replaces before call after

def MountCall.Fits (call : MountCall φ) : Prop :=
  call.targ.bytes.length < pathMax ∧ ∀ name ∈ call.path, name.length ≤ fileNameLen

end Petix.Spec.Mounts
