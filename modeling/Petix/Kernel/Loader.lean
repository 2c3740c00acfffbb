import Petix.Kernel.Exec

/-!
# The memory accesses of `load_elf_file` (`kernel/elf.c`, `libc/string/memcmp.c`)

`load_elf_file` on the contents of a file that nothing is known about, with every access to the memory. Pointers have
32 bits. The result is `none` where an assertion halts the kernel.
-/

namespace Petix.Kernel.Loader
open Library Kernel.Exec

def add32 (a b : Nat) : Nat := (a + b) % 2 ^ 32

inductive Access where
  | read (address count : Nat)
  | write (address count : Nat)
  deriving DecidableEq

def copy32 (m : Memory) (target source : Nat) : (count : Nat) → Memory
  | 0 => m
  | count + 1 =>
    let done := copy32 m target source count
    Function.update done (add32 target count) (done (add32 source count))

def identReads (m : Memory) (hdr : Nat) : Nat :=
  ((List.range 16).takeWhile fun i => m (hdr + i) = correctEIdent.getD i 0).length + 1

def loadSegment (file phdr : Nat) (m : Memory) : List Access × Option Memory :=
  -- PT_LOAD
  if pType m phdr = 1 then
    if userBase ≤ pVaddr m phdr then
      ([.read phdr 4, .read (phdr + 8) 4, .read (phdr + 4) 4, .read (phdr + 16) 4,
          .read (add32 file (pOffset m phdr)) (pFilesz m phdr), .write (pVaddr m phdr) (pFilesz m phdr)],
        some (copy32 m (pVaddr m phdr) (add32 file (pOffset m phdr)) (pFilesz m phdr)))
    else ([.read phdr 4, .read (phdr + 8) 4], none)
  else ([.read phdr 4], some m)

def loadSegments (file phdrs : Nat) : (fuel : Nat) → (i : Nat) → Memory → List Access × Option Memory
  | 0, _, _ => ([], none)
  | fuel + 1, i, m =>
    if i < ePhnum m file then
      match loadSegment file (add32 phdrs (32 * i)) m with
      | (accesses, none) => (.read (file + 44) 2 :: accesses, none)
      | (accesses, some m) =>
        let (later, last) := loadSegments file phdrs fuel (i + 1) m
        (.read (file + 44) 2 :: accesses ++ later, last)
    else ([.read (file + 44) 2], some m)

def loadElfFile (file : Nat) (m : Memory) : List Access × Option (Nat × Memory) :=
  let check := Access.read file (identReads m file)
  if checkElfHeader m file = false then ([check], none)
  -- ET_EXEC
  else if eType m file ≠ 2 then ([check, .read (file + 16) 2], none)
  else
    let (accesses, last) := loadSegments file (add32 file (ePhoff m file)) (2 ^ 16) 0 m
    let before := [check, .read (file + 16) 2, .read (file + 28) 4]
    match last with
    | none => (before ++ accesses, none)
    | some m => (before ++ accesses ++ [.read (file + 24) 4], some (eEntry m file, m))

end Petix.Kernel.Loader
