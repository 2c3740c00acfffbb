import Petix.Kernel.Kmalloc

/-!
# Starting a program (`sys_exec` in `kernel/syscall.c`, `kernel/elf.c`, `libc/sys/crt0.s`)

`sys_exec` from the point where the file has been read into the heap. One memory holds the heap and the pages of the
process.
-/

namespace Petix.Kernel.Exec
open List Library Kernel.Kmalloc

def userStackTop : Nat := 0xffffffff - 4096

def userBase : Nat := 0xc0000000

def correctEIdent : List Byte := [0x7f, 69, 76, 70, 1, 1, 1, 0, 0, 0, 0, 0, 0, 0, 0, 0]

def checkElfHeader (m : Memory) (hdr : Nat) : Bool := (range 16).map (fun i => m (hdr + i)) = correctEIdent

def eType (m : Memory) (hdr : Nat) : Nat := m.read 2 (hdr + 16)
def eEntry (m : Memory) (hdr : Nat) : Nat := m.read 4 (hdr + 24)
def ePhoff (m : Memory) (hdr : Nat) : Nat := m.read 4 (hdr + 28)
def ePhnum (m : Memory) (hdr : Nat) : Nat := m.read 2 (hdr + 44)

def pType (m : Memory) (phdr : Nat) : Nat := m.read 4 phdr
def pOffset (m : Memory) (phdr : Nat) : Nat := m.read 4 (phdr + 4)
def pVaddr (m : Memory) (phdr : Nat) : Nat := m.read 4 (phdr + 8)
def pFilesz (m : Memory) (phdr : Nat) : Nat := m.read 4 (phdr + 16)

def loadSegment (file phdr : Nat) (m : Memory) : Option Memory :=
  -- PT_LOAD
  if pType m phdr = 1 then
    if userBase ≤ pVaddr m phdr then some (m.copy (pVaddr m phdr) (file + pOffset m phdr) (pFilesz m phdr)) else none
  else some m

def loadSegments (file phdrs : Nat) : (fuel : Nat) → (i : Nat) → Memory → Option Memory
  | 0, _, _ => none
  | fuel + 1, i, m =>
    if i < ePhnum m file then do
      let m ← loadSegment file (phdrs + 32 * i) m
      loadSegments file phdrs fuel (i + 1) m
    else some m

def loadElfFile (file : Nat) (m : Memory) : Option (Nat × Memory) :=
  -- ET_EXEC
  if checkElfHeader m file ∧ eType m file = 2 then do
    let m ← loadSegments file (file + ePhoff m file) (2 ^ 16) 0 m
    some (eEntry m file, m)
  else none

def countArgs (m : Memory) (argv : Nat) : (fuel : Nat) → (argc : Nat) → Option Nat
  | 0, _ => none
  | fuel + 1, argc => if m.read 4 (argv + 4 * argc) = 0 then some argc else countArgs m argv fuel (argc + 1)

def argCount (m : Memory) (argv : Nat) : Option Nat := if argv = 0 then some 0 else countArgs m argv (2 ^ 30) 0

def saveArg (argv tmpArgv : Nat) (h : Heap) (i : Nat) : Option Heap := do
  let n ← strlen h.mem (h.mem.read 4 (argv + 4 * i))
  let len := n + 1
  let (copy, h) ← h.kmalloc len
  let m := h.mem.write 4 (tmpArgv + 4 * i) copy
  some { h with mem := m.copy (m.read 4 (tmpArgv + 4 * i)) (m.read 4 (argv + 4 * i)) len }

def pushArg (tmpArgv : Nat) (state : Nat × Heap) (i : Nat) : Option (Nat × Heap) := do
  let (sp, h) := state
  let n ← strlen h.mem (h.mem.read 4 (tmpArgv + 4 * i))
  let len := n + 1
  let sp := sub32 sp len
  let h := { h with mem := h.mem.copy sp (h.mem.read 4 (tmpArgv + 4 * i)) len }
  let h := h.kfree (h.mem.read 4 (tmpArgv + 4 * i))
  some (sp, { h with mem := h.mem.write 4 (tmpArgv + 4 * i) sp })

def pushArray (tmpArgv argc sp : Nat) (h : Heap) : Nat × Heap :=
  let sp := sub32 sp 4
  let m := h.mem.write 4 sp 0
  let sp := sub32 sp (4 * argc)
  let m := m.copy sp tmpArgv (4 * argc)
  let sp := sub32 sp 4
  (sp, { h with mem := m.write 4 sp argc }.kfree tmpArgv)

def pushArgs (argv : Nat) (h : Heap) : Option (Nat × Heap) := do
  let argc ← argCount h.mem argv
  let (tmpArgv, h) ← h.kmalloc (4 * argc)
  let h ← (range argc).foldlM (saveArg argv tmpArgv) h
  let (sp, h) ← (range argc).foldlM (pushArg tmpArgv) (userStackTop, h)
  some (pushArray tmpArgv argc sp h)

/-- `sys_exec` from its comment "push args" on: the entry point and the stack pointer with which the process goes to
user space. -/
def sysExecPush (argv data : Nat) (h : Heap) : Option (Nat × Nat × Heap) := do
  let (sp, h) ← pushArgs argv h
  let (entry, m) ← loadElfFile data h.mem
  some (entry, sp, { h with mem := m }.kfree data)

def startArgs (m : Memory) (esp : Nat) : Nat × Nat := (m.read 4 esp, esp + 4)

end Petix.Kernel.Exec
