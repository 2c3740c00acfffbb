import Mathlib.Data.Nat.Digits.Defs
import Petix.Kernel.Tar
import Petix.Library.Transition

/-! # What an archive is -/

namespace Petix.Spec.Tar
open Library Kernel.Mounts Kernel.Vfs Kernel.Tar

inductive Kind where
  | regular
  | directory
  | character
  | block
  deriving DecidableEq

def Kind.flag : Kind → Byte
  | .regular => 0x30
  | .directory => 0x35
  | .character => 0x33
  | .block => 0x34

def Kind.ftype : Kind → FileType
  | .regular => .regular
  | .directory => .dir
  | .character | .block => .special

structure Entry where
  name : List Byte
  mode : Nat
  kind : Kind
  major : Nat
  minor : Nat
  content : List Byte
  named : name ≠ [] ∧ 0 ∉ name ∧ name.length < 100

def Text (byte : Nat → Byte) (pos : Nat) (s : List Byte) : Prop := ∀ i ≤ s.length, byte (pos + i) = s.getD i 0

def octal (digits : List Byte) : Nat := digits.foldl (fun n c => 8 * n + (c.toNat - 48)) 0

def Field (byte : Nat → Byte) (pos width value : Nat) : Prop :=
  ∃ digits, digits.length < width ∧ (∀ c ∈ digits, 48 ≤ c.toNat ∧ c.toNat < 56) ∧ Text byte pos digits ∧
    octal digits = value

structure Header (byte : Nat → Byte) (pos : Nat) (e : Entry) : Prop where
  name : Text byte pos e.name
  mode : Field byte (pos + 100) 8 e.mode
  size : Field byte (pos + 124) 12 e.content.length
  kind : byte (pos + 156) = e.kind.flag
  major : Field byte (pos + 329) 8 e.major
  minor : Field byte (pos + 337) 8 e.minor

def Entry.blocks (e : Entry) : Nat := (e.content.length + 511) / 512 + 1

def Laid (image : Initrd) : (blk : Nat) → List Entry → Prop
  | blk, [] => 512 * (blk + 1) ≤ image.size ∧ image.byte (512 * blk) = 0
  | blk, e :: entries =>
    Header image.byte (512 * blk) e ∧ (∀ i < e.content.length, image.byte (512 * (blk + 1) + i) = e.content.getD i 0) ∧
      Laid image (blk + e.blocks) entries

structure Opened (image : Initrd) (fs : TarFs) : Prop where
  initrd : fs.initrd = image
  size : fs.size = signed32 image.size

def place : (blk : Nat) → List Entry → List (Nat × Entry)
  | _, [] => []
  | blk, e :: entries => (blk, e) :: place (blk + e.blocks) entries

def Named (path : List Byte) (e : Entry) : Prop := e.name = path ∨ e.name = path ++ [slash]

instance (path : List Byte) (e : Entry) : Decidable (Named path e) := inferInstanceAs (Decidable (_ ∨ _))

def firstNamed (path : List Byte) (placed : List (Nat × Entry)) : Option (Nat × Entry) :=
  placed.find? fun at_block => Named path at_block.2

variable {φ : Type}

structure Describes (owner : φ) (blk : Nat) (e : Entry) (inode : Inode φ) : Prop where
  fs : inode.fs = owner
  ftype : inode.ftype = e.kind.ftype
  size : inode.size = e.content.length
  exec : inode.exec = (e.mode &&& 0o111 != 0)
  inodeId : inode.inodeId = blk
  dev : e.kind.ftype = .special → inode.dev = mkdev e.major e.minor ∧
    (e.major < 2 ^ 16 → e.minor < 2 ^ 16 → major inode.dev = e.major ∧ minor inode.dev = e.minor)

def LookedUp (owner : φ) (path : List Byte) (placed : List (Nat × Entry)) (before : Inode φ) (ret : Int)
    (inode : Inode φ) : Prop :=
  match firstNamed path placed with
  | some (blk, e) => ret = 0 ∧ Describes owner blk e inode
  | none => ret = -ENOENT ∧ inode = before

def overlay (image : Initrd) (off len : Nat) (buf : Buffer) : Buffer :=
  fun i => if i < len then image.byte (off + i) else buf i

def headerOver (image : Initrd) (blk : Nat) (buf : Buffer) : Buffer :=
  overlay image (512 * blk) (min (image.size - 512 * blk) 512) buf

def GoesOn (path : List Byte) (header : Buffer) : Prop := header 0 ≠ 0 ∧ ¬Matches header path

def Terminated (header : Buffer) (pos : Nat) : Prop := ∃ i, pos ≤ i ∧ i < 512 ∧ header i = 0

def Usable (header : Buffer) : Prop :=
  (header typeflagAt = regtype ∨ header typeflagAt = dirtype) ∧ Terminated header sizeAt ∨
    (header typeflagAt = chrtype ∨ header typeflagAt = blktype) ∧ Terminated header devminorAt

def Stops (path : List Byte) (header : Buffer) : Prop := header 0 = 0 ∨ Matches header path ∧ Usable header

inductive Searchable (image : Initrd) (path : List Byte) : (blk : Nat) → (buf : Buffer) → Prop
  | stop {blk buf} (inside : 512 * blk ≤ image.size) (stops : Stops path (headerOver image blk buf)) :
      Searchable image path blk buf
  | next {blk buf size} (inside : 512 * blk ≤ image.size) (on : GoesOn path (headerOver image blk buf))
      (field : tarField (headerOver image blk buf) sizeAt = .ok size)
      (rest : Searchable image path (blk + (size + 511) / 512 + 1) (headerOver image blk buf)) :
      Searchable image path blk buf

inductive ReadsAt (fs : TarFs) (path : List Byte) (stack : Buffer) : (blk : Nat) → (buf : Buffer) → Prop
  | first : ReadsAt fs path stack 0 stack
  | next {blk blk' buf buf' fs'} (before : ReadsAt fs path stack blk buf)
      (read : readHeader fs blk buf = .ok (fs', buf')) (on : GoesOn path buf')
      (next : tarNextBlk buf' blk = .ok blk') : ReadsAt fs path stack blk' buf'

/-- `lookup_all` returns, so that no read has copied bytes from outside the image, and the number of no block wraps
around. -/
def Bounded (image : Initrd) (path : List Byte) (stack : Buffer) (inode : Inode Unit) : Prop :=
  (∃ fuel result, lookupAll fuel () (initrdOpen image) path stack inode = .ok result) ∧
    ∀ blk buf fs' buf' size, ReadsAt (initrdOpen image) path stack blk buf →
      readHeader (initrdOpen image) blk buf = .ok (fs', buf') → GoesOn path buf' → tarField buf' sizeAt = .ok size →
      512 * (blk + (size + 511) / 512 + 1) < 2 ^ 32

structure Handle where
  file : File Unit
  entry : Entry
  got : List Byte

structure Readers where
  fs : TarFs
  handle : Nat → Option Handle

inductive ReaderCall where
  | opens (h blk : Nat) (e : Entry) (inode : Inode Unit) (file : File Unit)
  | reads (h n : Nat) (buf : Buffer)
  | moves (off : Int)

inductive ReaderStep (placed : List (Nat × Entry)) : Readers → ReaderCall → Readers → Prop
  | opens {s h blk e inode file} (among : (blk, e) ∈ placed) (regular : e.kind = .regular)
      (describes : Describes () blk e inode) (free : s.handle h = none) :
      ReaderStep placed s (.opens h blk e inode file)
        { s with handle := Function.update s.handle h (some ⟨(fsOpen topen inode file 0).2, e, []⟩) }
  | reads {s h n buf handle ret fs' file' buf'} (here : s.handle h = some handle) (word : n < 2 ^ 32)
      (run : tread s.fs handle.file buf n = .ok (ret, fs', file', buf')) : ReaderStep placed s (.reads h n buf)
        ⟨fs', Function.update s.handle h
          (some { handle with file := file', got := handle.got ++ (List.range ret.toNat).map buf' })⟩
  | moves {s off} : ReaderStep placed s (.moves off) { s with fs := lseek s.fs off }

def readers (image : Initrd) (entries : List Entry) : System Readers ReaderCall where
  initial s := s = ⟨initrdOpen image, fun _ => none⟩
  step := ReaderStep (place 0 entries)

def childName (dir name : List Byte) : Option (List Byte) :=
  let rest := name.drop dir.length
  let last := rest.takeWhile (· ≠ slash)
  if dir <+: name ∧ last ≠ [] ∧ (rest = last ∨ rest = last ++ [slash]) then some last else none

def children (dir : List Byte) (placed : List (Nat × Entry)) : List (Nat × FileType × List Byte) :=
  placed.filterMap fun at_block => (childName dir at_block.2.name).map fun last =>
    (at_block.1, at_block.2.kind.ftype, last)

structure Orderly (entries : List Entry) : Prop where
  distinct : (entries.map Entry.name).Nodup
  components : ∀ e ∈ entries, e.name.head? ≠ some slash ∧ ¬[slash, slash] <:+: e.name
  slashes : ∀ e ∈ entries, e.kind = .directory ↔ [slash] <:+ e.name
  bare : ∀ e ∈ entries, e.kind = .directory → e.content = []
  follow : ∀ before d behind, entries = before ++ d :: behind → d.kind = .directory →
    (∀ e ∈ before, ¬d.name <+: e.name) ∧ ∃ below rest, behind = below ++ rest ∧ (∀ e ∈ below, d.name <+: e.name) ∧
      ∀ e ∈ rest, ¬d.name <+: e.name

inductive DirectoryInode (entries : List Entry) : (dir : List Byte) → Inode Unit → Prop
  | root (before : Inode Unit) : DirectoryInode entries [] (getroot () before)
  | entry {blk d inode} (among : (blk, d) ∈ place 0 entries) (directory : d.kind = .directory)
      (describes : Describes () blk d inode) : DirectoryInode entries d.name inode

def Reports (fuel : Nat) : List (Nat × FileType × List Byte) → TarFs → File Unit → Prop
  | [], fs, f => ∀ d nameStack stack, ∃ fs' f' d',
      getdent fuel fs f d nameStack stack = .ok (0, fs', f', d') ∧ d'.present = false
  | child :: rest, fs, f => ∀ d nameStack stack, ∃ fs' f' d',
      getdent fuel fs f d nameStack stack = .ok (0, fs', f', d') ∧ d'.present = true ∧
        (d'.inodeId, d'.type, cstr d'.name fileNameLen 0) = child ∧ Reports fuel rest fs' f'

def StaysEnded (fuel : Nat) : (ended : Bool) → List (Dirent × Buffer × Buffer) → TarFs → File Unit → Prop
  | _, [], _, _ => True
  | ended, (d, nameStack, stack) :: calls, fs, f => ∃ fs' f' d',
    getdent fuel fs f d nameStack stack = .ok (0, fs', f', d') ∧ (ended = true → d'.present = false) ∧
      StaysEnded fuel (ended || !d'.present) calls fs' f'

def octalDigits (n : Nat) : List Byte := (Nat.digits 8 n).reverse.map fun d => BitVec.ofNat 8 (d + 48)

def headerByte (e : Entry) (i : Nat) : Byte :=
  if i < 100 then e.name.getD i 0
  else if i < 108 then (octalDigits e.mode).getD (i - 100) 0
  else if i < 124 then 0
  else if i < 136 then (octalDigits e.content.length).getD (i - 124) 0
  else if i < 156 then 0
  else if i = 156 then e.kind.flag
  else if i < 329 then 0
  else if i < 337 then (octalDigits e.major).getD (i - 329) 0
  else if i < 345 then (octalDigits e.minor).getD (i - 337) 0
  else 0

def archiveByte : List Entry → Nat → Byte
  | [], _ => 0
  | e :: entries, i =>
    if i < 512 then headerByte e i
    else if i < 512 * e.blocks then e.content.getD (i - 512) 0
    else archiveByte entries (i - 512 * e.blocks)

def totalBlocks (entries : List Entry) : Nat := (entries.map Entry.blocks).sum

def imageOf (entries : List Entry) (below : 512 * (totalBlocks entries + 1) < 2 ^ 32) : Initrd :=
  ⟨512 * (totalBlocks entries + 1), archiveByte entries, below⟩

end Petix.Spec.Tar
