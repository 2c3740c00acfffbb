import Petix.Kernel.ExecFile
import Petix.Library.Follow

namespace Petix.Spec.ExecFile
open Library Library.Follow Kernel Kernel.ExecFile

def FirstWord (text name : List Byte) : Prop :=
  ∃ gap stop rest, text = gap ++ name ++ stop :: rest ∧ (∀ c ∈ gap, isDelim c = true) ∧ name ≠ [] ∧
    (∀ c ∈ name, c ≠ 0 ∧ isDelim c = false) ∧ (stop = 0 ∨ isDelim stop = true)

def Holds (argv : Option Argv) (args : List (List Byte)) : Prop :=
  argv = none ∧ args = [] ∨ ∃ rest, argv = some (args.map some ++ none :: rest)

/-- The script branch stays inside its buffers. The name is a string in `scbuff`, and `newargv` holds the interpreter
and the arguments in front of a `NULL`. -/
def Stays (cdata : List Byte) (argv : Option Argv) (args : List (List Byte)) : Prop :=
  ∃ scbuff newargv name rest, scriptBranch cdata argv = .ok (scbuff, newargv) ∧
    scbuff.length = 128 ∧ FirstWord (cdata.drop 2) name ∧ cString scbuff = .ok name ∧
    newargv.length = 128 ∧ newargv = some scbuff :: args.map some ++ none :: rest

def Reads (f : File) : Prop := 0 ≤ f.lookup ∧ f.exec = true ∧ 0 ≤ f.opened ∧ f.readable = true

instance (f : File) : Decidable (Reads f) := inferInstanceAs (Decidable (_ ∧ _))

def Script (f : File) : Prop := Reads f ∧ 0 ≤ f.read ∧ isScript f.data = .ok true

instance (f : File) : Decidable (Script f) := inferInstanceAs (Decidable (_ ∧ _))

def interpreter (fs : Files) (path : List Byte) : Option (List Byte) := do
  let name ← (cString path).toOption
  if Script (fs name) then (scriptBuffer (fs name).data).toOption else none

def chain (fs : Files) (path : List Byte) : Nat → Option (List Byte) := follow (interpreter fs) path

def Cyclic (fs : Files) (path : List Byte) : Prop :=
  ∃ i j visited, i < j ∧ chain fs path i = some visited ∧ chain fs path j = some visited

def Closes (fd : Proc.Fd) : Prop := fd.file ≠ none ∧ fd.cloexec = true

instance (fd : Proc.Fd) : Decidable (Closes fd) := inferInstanceAs (Decidable (_ ∧ _))

/-- Nothing is left in the heap by a failed call that looks at the file: `fs_lookup` keeps nothing, and if the file is
read it is a script or empty. -/
def Spotless (f : File) : Prop := (∀ size ∈ f.kept, size = 0) ∧ (Reads f → Script f ∨ f.data = [])

def ChainSpotless (fs : Files) (path : List Byte) : Prop :=
  ∀ n visited name, chain fs path n = some visited → cString visited = .ok name → Spotless (fs name)

end Petix.Spec.ExecFile
