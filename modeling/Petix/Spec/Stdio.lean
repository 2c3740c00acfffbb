import Petix.Kernel.Stdio
import Petix.Library.Transition

namespace Petix.Spec.Stdio
open Function Kernel.Stdio Library

variable {σ : Type}

def contents (buffer : Nat → Byte) (lo hi : Nat) : List Byte :=
  (List.range (hi - lo)).map fun i => buffer (lo + i)

def pieces (calls : List Call) : List (List Byte) :=
  calls.filterMap fun
    | .write _ bytes => some bytes
    | .read .. => none

def handed (calls : List Call) : List Byte := (pieces calls).flatten

def fetched (calls : List Call) : List Byte :=
  calls.flatMap fun
    | .read _ (some bytes) => bytes
    | .read _ none | .write .. => []

inductive WriteCall where
  | fwrite (ptr : Objects)
  | fputc (c : Int)
  | fputs (str : CString)
  | fflush

def WriteCall.data : WriteCall → List Byte
  | .fwrite ptr => ptr.bytes
  | .fputc c => [BitVec.ofInt 8 c]
  | .fputs str => str.chars
  | .fflush => []

def WriteCall.perform (os : Os σ) : WriteCall → File × Sys σ → Except Fault (File × Sys σ)
  | .fwrite ptr, (f, s) => Prod.snd <$> Kernel.Stdio.fwrite os ptr f s
  | .fputc c, (f, s) => Prod.snd <$> Kernel.Stdio.fputc os c f s
  | .fputs str, (f, s) => Prod.snd <$> Kernel.Stdio.fputs os str f s
  | .fflush, (f, s) => Prod.snd <$> Kernel.Stdio.fflush os f s

def performAll (os : Os σ) (calls : List WriteCall) (start : File × Sys σ) : Except Fault (File × Sys σ) :=
  calls.foldlM (fun fs call => call.perform os fs) start

def AcceptsAll (os : Os σ) : Prop := ∀ fd bytes w, (os.write fd bytes w).1 = signed32 bytes.length

def WriteCall.Flushes (f : File) (call : WriteCall) : Prop :=
  call = .fflush ∨ f.bf = .iolbf ∧ 10#8 ∈ call.data

structure Disk where
  file : List Byte → List Byte
  rest : Int → List Byte
  reads : Nat
  next : Int

def disk (sizes : Nat → Nat) : Os Disk where
  write _ bytes w := (signed32 bytes.length, w)
  read fd count w :=
    let n := min (max 1 (sizes w.reads)) (min count (2 ^ 31 - 1))
    (.ok ((w.rest fd).take n), { w with rest := update w.rest fd ((w.rest fd).drop n), reads := w.reads + 1 })
  openFile path _ w :=
    (w.next, { w with rest := update w.rest w.next (w.file path), next := w.next + 1 })
  close _ w := (0, w)
  read_le := by
    intro fd count w bytes run
    obtain rfl := Except.ok.inj run
    rw [List.length_take]
    omega

def freadAll (os : Os σ) : List Room → File → Sys σ → Except Fault (List (Nat × List Byte) × File × Sys σ)
  | [], f, s => .ok ([], f, s)
  | ptr :: reads, f, s => do
      let (ret, bytes, f, s) ← fread os ptr f s
      let (results, f, s) ← freadAll os reads f s
      return ((ret, bytes) :: results, f, s)

def returned (results : List (Nat × List Byte)) : List Byte := results.flatMap fun result => result.2.take result.1

inductive Request where
  | fopen (path mode : CString)
  | fread (i : Fin fopenMax) (ptr : Room)
  | fwrite (i : Fin fopenMax) (ptr : Objects)
  | fflush (i : Fin fopenMax)
  | fclose (i : Fin fopenMax)

structure Session where
  given : List Byte
  written : List (List Byte)
  fetched : List Byte
  returned : List Byte

structure Machine (σ : Type) where
  streams : Streams σ
  session : Fin fopenMax → Session

def Machine.record (m : Machine σ) (i : Fin fopenMax) (f : File) (s : Sys σ) (given returned : List Byte) : Machine σ :=
  let calls := s.calls.drop m.streams.sys.calls.length
  let session := m.session i
  { streams := ⟨update m.streams.stdioFiles i f, s⟩
    session := update m.session i
      { given := session.given ++ given
        written := session.written ++ pieces calls
        fetched := session.fetched ++ Spec.Stdio.fetched calls
        returned := session.returned ++ returned } }

def Request.perform (os : Os σ) (m : Machine σ) : Request → Except Fault (Machine σ)
  | .fopen path mode => do
      match ← Kernel.Stdio.fopen os path mode m.streams with
      | (none, streams) => return { m with streams }
      | (some i, streams) => return ⟨streams, update m.session i ⟨[], [], [], []⟩⟩
  | .fread i ptr => do
      let (ret, bytes, f, s) ← Kernel.Stdio.fread os ptr (m.streams.stdioFiles i) m.streams.sys
      return m.record i f s [] (bytes.take ret)
  | .fwrite i ptr => do
      let (_, f, s) ← Kernel.Stdio.fwrite os ptr (m.streams.stdioFiles i) m.streams.sys
      return m.record i f s (if (m.streams.stdioFiles i).valid then ptr.bytes else []) []
  | .fflush i => do
      let (_, f, s) ← Kernel.Stdio.fflush os (m.streams.stdioFiles i) m.streams.sys
      return m.record i f s [] []
  | .fclose i => do
      let (_, f, s) ← Kernel.Stdio.fclose os (m.streams.stdioFiles i) m.streams.sys
      return m.record i f s [] []

def streamRuns (os : Os σ) : System (Machine σ) Request where
  initial m := m.streams.stdioFiles = initialFiles ∧ m.session = fun _ => ⟨[], [], [], []⟩
  step m request m' := request.perform os m = .ok m'

structure Session.Own (session : Session) : Prop where
  returned : session.returned <+: session.fetched
  first : ∀ piece ∈ session.written.head?, piece <+: session.given
  pieces : ∀ piece ∈ session.written, piece.Sublist session.given

/-- A stream is not written, flushed or closed while its buffer holds data it has read, and it is not read while its
buffer holds data to be written or when a `read` fails. -/
def Separate (os : Os σ) (m : Machine σ) : Request → Prop
  | .fopen .. => True
  | .fread i ptr =>
    (0 < (m.streams.stdioFiles i).start ∨ (m.streams.stdioFiles i).stop = 0) ∧
    ∀ ret bytes f s, Kernel.Stdio.fread os ptr (m.streams.stdioFiles i) m.streams.sys = .ok (ret, bytes, f, s) →
      ∀ fd, .read fd none ∉ s.calls.drop m.streams.sys.calls.length
  | .fwrite i _ | .fflush i | .fclose i => (m.streams.stdioFiles i).start = 0

structure Asked (σ : Type) where
  world : σ
  reads : List (Nat × Option Nat)

def recording (os : Os σ) : Os (Asked σ) where
  write fd bytes w :=
    let (res, world) := os.write fd bytes w.world
    (res, { w with world })
  read fd count w :=
    let (result, world) := os.read fd count w.world
    (result, ⟨world, w.reads ++ [(count, result.toOption.map List.length)]⟩)
  openFile path flags w :=
    let (res, world) := os.openFile path flags w.world
    (res, { w with world })
  close fd w :=
    let (res, world) := os.close fd w.world
    (res, { w with world })
  read_le := os.read_le

def lastFill (before : Nat) (reads : List (Nat × Option Nat)) : Nat :=
  reads.foldl (fun held read => if read.1 = bufsiz then read.2.getD held else held) before

inductive ReadCall where
  | fread (ptr : Room)
  | fgetc
  | fgets (size : Int)

def ReadCall.perform (os : Os σ) (stack : Byte) (f : File) (s : Sys σ) : ReadCall → Except Fault (File × Sys σ)
  | .fread ptr => (·.2.2) <$> Kernel.Stdio.fread os ptr f s
  | .fgetc => Prod.snd <$> Kernel.Stdio.fgetc os stack f s
  | .fgets size => Prod.snd <$> Kernel.Stdio.fgets os stack size f s

/-- A stream on which only `fread`, `fgetc` and `fgets` have been called since `fopen`, with the reads they made.
Before each call the rest of the program may have done anything else. -/
inductive OnlyRead (os : Os σ) : File → List (Nat × Option Nat) → Prop
  | opened {m : Machine (Asked σ)} {path mode : CString} {i : Fin fopenMax} {t : Streams (Asked σ)} :
      (streamRuns (recording os)).Reachable m → fopen (recording os) path mode m.streams = .ok (some i, t) →
      OnlyRead os (t.stdioFiles i) []
  | called {f f' : File} {reads new : List (Nat × Option Nat)} {call : ReadCall} {stack : Byte}
      {s s' : Sys (Asked σ)} : OnlyRead os f reads → call.perform (recording os) stack f s = .ok (f', s') →
      s'.world.reads = s.world.reads ++ new → OnlyRead os f' (reads ++ new)

def ClosesClean (os : Os σ) (f : File) : Prop :=
  ∀ s, (∃ ret f' s', fflush os f s = .ok (ret, f', s') ∧ ∀ piece ∈ pieces (s'.calls.drop s.calls.length), piece = []) ∧
    ∃ ret f' s', fclose os f s = .ok (ret, f', s') ∧ ∀ piece ∈ pieces (s'.calls.drop s.calls.length), piece = []

def deliveredTo (fd : Int) (calls : List Call) : List Byte :=
  calls.flatMap fun
    | .write fd' bytes => if fd' = fd then bytes else []
    | .read .. => []

def chunk (content : List Byte) (i : Nat) : List Byte := (content.drop (1024 * i)).take 1024

def chunks (content : List Byte) : List (List Byte) :=
  (List.range ((content.length + 1023) / 1024)).map (chunk content)

def unended (pieces : List (List Byte)) : List (List Byte) :=
  pieces.reverse.takeWhile fun piece => 10#8 ∉ piece

def unread (f : File) (s : Sys Disk) : List Byte := contents f.buffer f.start f.stop ++ s.world.rest f.fd

def nextLine : List Byte → List Byte
  | [] => []
  | b :: rest => if b = 10#8 then [b] else b :: nextLine rest

def blank (b : Byte) : Bool := b ∈ [32#8, 9#8, 10#8]

end Petix.Spec.Stdio
