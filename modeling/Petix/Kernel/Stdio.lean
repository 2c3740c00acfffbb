import Petix.Library.ByteMemory
import Petix.Library.Word

/-!
# Streams (`libc/stdio`)

The kernel behind the system calls of a process is a parameter; the calls that move bytes are logged.
-/

namespace Petix.Kernel.Stdio
open List Library

inductive Fault where
  | outside
  | emptyMode
  | endless
  deriving DecidableEq

def bufsiz : Nat := 4096

def fopenMax : Nat := 16

def ebadf : Int := 9

def eagain : Int := 11

def oCreat : Nat := 4

inductive Buffering where
  | iofbf
  | iolbf
  | ionbf
  deriving DecidableEq

/-- `struct _stdio_file`; `stop` is the source's `end`. -/
structure File where
  fd : Int
  err : Int
  bf : Buffering
  valid : Bool
  eof : Bool
  start : Nat
  stop : Nat
  buffer : Nat → Byte

def sizeofFile : Nat := 24 + bufsiz

def File.slice (f : File) (offset count : Nat) : Except Fault (List Byte) :=
  if offset + count ≤ bufsiz then .ok ((range count).map fun i => f.buffer (offset + i)) else .error .outside

def File.store (f : File) (offset : Nat) (bytes : List Byte) : Except Fault File :=
  if offset + bytes.length ≤ bufsiz then
    .ok { f with buffer := fun i => if offset ≤ i then bytes.getD (i - offset) (f.buffer i) else f.buffer i }
  else .error .outside

/-- How the kernel answers. What `read` returns is the length of what it stores, as a `ssize_t`. -/
structure Os (σ : Type) where
  write : Int → List Byte → σ → Int × σ
  read : Int → Nat → σ → Except Int (List Byte) × σ
  openFile : List Byte → Nat → σ → Int × σ
  close : Int → σ → Int × σ
  read_le : ∀ {fd count world bytes}, (read fd count world).1 = .ok bytes → bytes.length ≤ count ∧ bytes.length < 2 ^ 31

inductive Call where
  | write (fd : Int) (bytes : List Byte)
  | read (fd : Int) (bytes : Option (List Byte))
  deriving DecidableEq

structure Sys (σ : Type) where
  world : σ
  errno : Int
  calls : List Call

variable {σ : Type}

def rawSyscallErrno (res : Int) (s : Sys σ) : Int × Sys σ :=
  if res < 0 then (-1, { s with errno := -res }) else (res, s)

def Os.sysWrite (os : Os σ) (fd : Int) (buf : List Byte) (s : Sys σ) : Int × Sys σ :=
  let (res, world) := os.write fd buf s.world
  rawSyscallErrno res { s with world, calls := s.calls ++ [.write fd buf] }

def Os.sysRead (os : Os σ) (fd : Int) (count : Nat) (s : Sys σ) : Int × List Byte × Sys σ :=
  match os.read fd count s.world with
  | (.error errno, world) => (-1, [], ⟨world, errno, s.calls ++ [.read fd none]⟩)
  | (.ok bytes, world) => (bytes.length, bytes, { s with world, calls := s.calls ++ [.read fd (some bytes)] })

def Os.sysOpen (os : Os σ) (path : List Byte) (flags : Nat) (s : Sys σ) : Int × Sys σ :=
  let (res, world) := os.openFile path flags s.world
  rawSyscallErrno res { s with world }

def Os.sysClose (os : Os σ) (fd : Int) (s : Sys σ) : Int × Sys σ :=
  let (res, world) := os.close fd s.world
  rawSyscallErrno res { s with world }

def sizeT (x : Int) : Nat := (x % 2 ^ 32).toNat

structure Room where
  size : Nat
  nmemb : Nat
  fits : size * nmemb + sizeofFile ≤ 2 ^ 32

structure Objects extends Room where
  bytes : List Byte
  length : bytes.length = size * nmemb

def fwrite (os : Os σ) (ptr : Objects) (stream : File) (s : Sys σ) : Except Fault (Nat × File × Sys σ) :=
  if stream.valid = false then .ok (sizeT (-1), { stream with err := ebadf }, s)
  else
    let total := ptr.size * ptr.nmemb % 2 ^ 32
    let bytes := ptr.bytes.take total
    if stream.bf = .ionbf then
      let (ret, s) := os.sysWrite stream.fd bytes s
      if ret = -1 then .ok (0, { stream with err := s.errno }, s) else .ok (sizeT ret, stream, s)
    else
      let flushnl := stream.bf = .iolbf ∧ 10#8 ∈ bytes
      if (total + stream.stop) % 2 ^ 32 ≤ bufsiz ∧ ¬flushnl then do
        let stream ← stream.store stream.stop bytes
        return (total, { stream with stop := stream.stop + total }, s)
      else do
        let (r1, s) := os.sysWrite stream.fd (← stream.slice 0 stream.stop) s
        if r1 = -1 then return (0, { stream with err := r1 }, s)
        let stream := { stream with stop := 0 }
        let (r2, s) := os.sysWrite stream.fd bytes s
        if r2 = -1 then return (sizeT r1, { stream with err := r2 }, s)
        return (sizeT (r1 + r2), stream, s)

def fflush (os : Os σ) (stream : File) (s : Sys σ) : Except Fault (Int × File × Sys σ) :=
  if stream.valid = false then .ok (-1, { stream with err := ebadf }, s)
  else do
    let (_, s) := os.sysWrite stream.fd (← stream.slice 0 stream.stop) s
    return (0, { stream with stop := 0 }, s)

def charObject (c : Int) : Objects := ⟨⟨1, 1, by decide⟩, [BitVec.ofInt 8 c], rfl⟩

def fputc (os : Os σ) (c : Int) (stream : File) (s : Sys σ) : Except Fault (Int × File × Sys σ) := do
  let (ret, stream, s) ← fwrite os (charObject c) stream s
  return (signed32 ret, stream, s)

structure CString where
  chars : List Byte
  terminated : 0 ∉ chars
  fits : chars.length + sizeofFile ≤ 2 ^ 32

def CString.objects (s : CString) : Objects where
  size := 1
  nmemb := s.chars.length
  fits := by simpa using s.fits
  bytes := s.chars
  length := by simp

def fputs (os : Os σ) (str : CString) (stream : File) (s : Sys σ) : Except Fault (Int × File × Sys σ) := do
  let (ret, stream, s) ← fwrite os str.objects stream s
  return (signed32 ret, stream, s)

structure Reading (σ : Type) where
  failed : Bool
  total : Nat
  stored : List Byte
  stream : File
  sys : Sys σ

def Reading.drain (r : Reading σ) : Except Fault (Reading σ) := do
  let bufread := min (sub32 r.stream.stop r.stream.start) r.total
  let bytes ← r.stream.slice r.stream.start bufread
  return { r with
    total := r.total - bufread
    stored := r.stored ++ bytes
    stream := { r.stream with start := r.stream.start + bufread } }

def Reading.bypass (os : Os σ) (r : Reading σ) : Reading σ :=
  let (n, bytes, s) := os.sysRead r.stream.fd r.total r.sys
  if n = -1 then { r with failed := true, sys := s }
  else { r with total := sizeT (r.total - n), stored := r.stored ++ bytes, sys := s }

def Reading.refill (os : Os σ) (r : Reading σ) : Except Fault (Int × Reading σ) := do
  let stream := { r.stream with start := 0 }
  let (n, bytes, s) := os.sysRead stream.fd bufsiz r.sys
  if n = -1 then return (n, { r with failed := true, stream, sys := s })
  let stream ← stream.store 0 bytes
  return (n, { r with stream := { stream with stop := sizeT n }, sys := s })

def freadLoop (os : Os σ) : (fuel : Nat) → Reading σ → Except Fault (Reading σ)
  | 0, _ => .error .endless
  | fuel + 1, r =>
    if r.total = 0 then .ok r
    else do
      let r ← r.drain
      if bufsiz < r.total then return r.bypass os
      else if 0 < r.total then
        let (n, r) ← r.refill os
        if n = -1 ∨ n = 0 then return r else freadLoop os fuel r
      else freadLoop os fuel r

def freadResult (ret : Int) (stored : List Byte) (stream : File) (s : Sys σ) : Nat × List Byte × File × Sys σ :=
  if ret = 0 then (sizeT ret, stored, { stream with eof := true, err := 0 }, s)
  else if ret = -1 then (0, stored, { stream with eof := true, err := s.errno }, s)
  else (sizeT ret, stored, stream, s)

def fread (os : Os σ) (ptr : Room) (stream : File) (s : Sys σ) : Except Fault (Nat × List Byte × File × Sys σ) :=
  if stream.valid = false then .ok (sizeT (-1), [], { stream with err := ebadf }, s)
  else
    let total := ptr.size * ptr.nmemb % 2 ^ 32
    if stream.bf = .ionbf then
      let (ret, bytes, s) := os.sysRead stream.fd total s
      .ok (freadResult ret bytes stream s)
    else do
      let r ← freadLoop os (total + 2) ⟨false, total, [], stream, s⟩
      return freadResult (if r.failed then -1 else signed32 (total - r.total)) r.stored r.stream r.sys

def charRoom : Room := ⟨1, 1, by decide⟩

def fgetc (os : Os σ) (stack : Byte) (stream : File) (s : Sys σ) : Except Fault (Int × File × Sys σ) := do
  let (ret, bytes, stream, s) ← fread os charRoom stream s
  -- the result of `fread` is unsigned: `<= 0` is `== 0`
  if ret = 0 then return (-1, stream, s)
  return ((bytes.headD stack).toInt, stream, s)

def fgetsLoop (os : Os σ) (stack : Byte) : (rounds : Nat) → File → Sys σ → Except Fault (List Byte × File × Sys σ)
  | 0, stream, s => .ok ([], stream, s)
  | rounds + 1, stream, s => do
      let (ret, stream, s) ← fgetc os stack stream s
      if ret = -1 then return ([0], stream, s)
      else if ret = 10 then return ([10, 0], stream, s)
      else
        let (rest, stream, s) ← fgetsLoop os stack rounds stream s
        return (BitVec.ofInt 8 ret :: rest, stream, s)

/-- `i < size-1` compares unsigned numbers. -/
def fgets (os : Os σ) (stack : Byte) (size : Int) (stream : File) (s : Sys σ) :
    Except Fault (List Byte × File × Sys σ) :=
  fgetsLoop os stack (sizeT (size - 1)) stream s

def feof (stream : File) : Bool := stream.eof

structure Streams (σ : Type) where
  stdioFiles : Fin fopenMax → File
  sys : Sys σ

def initialFiles (i : Fin fopenMax) : File :=
  match i.val with
  | 0 => ⟨0, 0, .ionbf, true, false, 0, 0, fun _ => 0⟩
  | 1 => ⟨1, 0, .iolbf, true, false, 0, 0, fun _ => 0⟩
  | 2 => ⟨2, 0, .ionbf, true, false, 0, 0, fun _ => 0⟩
  | _ => ⟨0, 0, .iofbf, false, false, 0, 0, fun _ => 0⟩

def stdin : Fin fopenMax := ⟨0, by decide⟩

def stdout : Fin fopenMax := ⟨1, by decide⟩

def stderr : Fin fopenMax := ⟨2, by decide⟩

def fopen (os : Os σ) (path mode : CString) (t : Streams σ) : Except Fault (Option (Fin fopenMax) × Streams σ) :=
  match (finRange fopenMax).find? fun i => (t.stdioFiles i).valid = false with
  | none => .ok (none, { t with sys.errno := eagain })
  | some i => match mode.chars.getLast? with
      | none => .error .emptyMode
      | some last =>
        -- 43 is '+'
        let oflags := if last = 43#8 then oCreat else 0
        let (fd, s) := os.sysOpen path.chars oflags t.sys
        let f := { t.stdioFiles i with fd }
        if fd = -1 then .ok (none, ⟨Function.update t.stdioFiles i f, s⟩)
        else
          let f := { f with err := 0, valid := true, eof := false, bf := .iofbf }
          .ok (some i, ⟨Function.update t.stdioFiles i f, s⟩)

def fclose (os : Os σ) (stream : File) (s : Sys σ) : Except Fault (Int × File × Sys σ) :=
  if stream.valid = false then .ok (-1, { stream with err := ebadf }, s)
  else do
    let (_, stream, s) ← fflush os stream s
    let (ret, s) := os.sysClose stream.fd s
    let stream := { stream with valid := false }
    return (ret, if ret = -1 then { stream with err := s.errno } else stream, s)

end Petix.Kernel.Stdio
