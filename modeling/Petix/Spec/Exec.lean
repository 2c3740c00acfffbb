import Petix.Kernel.Exec
import Petix.Spec.Kmalloc

namespace Petix.Spec.Exec
open Library Kernel.Exec

def HoldsString (m : Memory) (p : Nat) (s : List Byte) : Prop := ∀ i ≤ s.length, m (p + i) = s.getD i 0

structure ArgvAt (m : Memory) (argv : Nat) (args : List (List Byte)) : Prop where
  pointers : ∀ i < args.length, m.read 4 (argv + 4 * i) ≠ 0
  strings : ∀ i < args.length, HoldsString m (m.read 4 (argv + 4 * i)) (args.getD i [])
  null : m.read 4 (argv + 4 * args.length) = 0

def Passes (m : Memory) (argv : Nat) (args : List (List Byte)) : Prop :=
  argv = 0 ∧ args = [] ∨ argv ≠ 0 ∧ ArgvAt m argv args

def Source (m : Memory) (argv : Nat) (args : List (List Byte)) (x : Nat) : Prop :=
  argv ≠ 0 ∧ (argv ≤ x ∧ x < argv + 4 * (args.length + 1) ∨
    ∃ i < args.length, m.read 4 (argv + 4 * i) ≤ x ∧ x ≤ m.read 4 (argv + 4 * i) + (args.getD i []).length)

def stringBytes (args : List (List Byte)) (i : Nat) : Nat := ((args.take i).map fun s => s.length + 1).sum

def imageSize (args : List (List Byte)) : Nat := stringBytes args args.length + 4 * (args.length + 1) + 4

def heapNeed (args : List (List Byte)) : Nat := 31 + 4 * args.length + 31 * args.length + stringBytes args args.length

structure Program (m : Memory) (file size bottom : Nat) : Prop where
  base : userBase ≤ bottom
  header : checkElfHeader m file = true
  executable : eType m file = 2
  complete : 52 ≤ size
  table : ePhoff m file + 32 * ePhnum m file ≤ size
  segments : ∀ i < ePhnum m file, pType m (file + ePhoff m file + 32 * i) = 1 →
    userBase ≤ pVaddr m (file + ePhoff m file + 32 * i) ∧
      pVaddr m (file + ePhoff m file + 32 * i) + pFilesz m (file + ePhoff m file + 32 * i) ≤ bottom

structure Decodes (m : Memory) (sp : Nat) (args : List (List Byte)) : Prop where
  argc : (startArgs m sp).1 = args.length
  argv : ArgvAt m (startArgs m sp).2 args
  between : ∀ i < args.length, (startArgs m sp).2 + 4 * (args.length + 1) ≤ m.read 4 ((startArgs m sp).2 + 4 * i) ∧
      m.read 4 ((startArgs m sp).2 + 4 * i) + (args.getD i []).length + 1 ≤ userStackTop
  apart : ∀ i < args.length, ∀ j < i,
    m.read 4 ((startArgs m sp).2 + 4 * i) + (args.getD i []).length + 1 ≤ m.read 4 ((startArgs m sp).2 + 4 * j)

end Petix.Spec.Exec
