import Petix.Kernel.Mounts
import Petix.Kernel.Vfs

/-!
# Archives (`kernel/tar.c`, `kernel/fs/tarfs.c`, `kernel/device/initrd.c`)

A header is read into a buffer of 512 bytes on the stack. What a short read does not fill keeps its bytes from before,
so functions with such a buffer get its first contents as `stack`. The functions run under the lock of the file
system.
-/

namespace Petix.Kernel.Tar
open Library Kernel.Mounts Kernel.Vfs

inductive Fault where
  | pastImage
  | pastBuffer
  | unsupported
  | endless
  deriving DecidableEq

structure Initrd where
  size : Nat
  byte : Nat → Byte
  below : size < 2 ^ 32

structure TarFs where
  initrd : Initrd
  size : Int
  offset : Int

def initrdOpen (initrd : Initrd) : TarFs := ⟨initrd, signed32 initrd.size, 0⟩

def lseek (fs : TarFs) (off : Int) : TarFs := { fs with offset := off }

def initrdRead (fs : TarFs) (buf : Buffer) (room n : Nat) : Except Fault (Int × TarFs × Buffer) :=
  let len := clamp (fs.size - fs.offset) n
  if room < len then .error .pastBuffer
  else if 0 < len ∧ (fs.offset < 0 ∨ fs.initrd.size < fs.offset + len) then .error .pastImage
  else
    .ok (signed32 len, { fs with offset := fs.offset + len },
      fun i => if i < len then fs.initrd.byte (fs.offset.toNat + i) else buf i)

def blockSize : Nat := 512

def modeAt : Nat := 100

def sizeAt : Nat := 124

def typeflagAt : Nat := 156

def devmajorAt : Nat := 329

def devminorAt : Nat := 337

def regtype : Byte := 0x30

def chrtype : Byte := 0x33

def blktype : Byte := 0x34

def dirtype : Byte := 0x35

def tarFieldLoop (buf : Buffer) : (left pos n : Nat) → Except Fault Nat
  | 0, _, _ => .error .pastBuffer
  | left + 1, pos, n =>
    if buf pos = 0 then .ok n
    else tarFieldLoop buf left (pos + 1) ((8 * n + (buf pos).toInt - 48) % 2 ^ 32).toNat

def tarField (buf : Buffer) (pos : Nat) : Except Fault Nat := tarFieldLoop buf (blockSize - pos) pos 0

def tarNextBlk (header : Buffer) (fblock : Nat) : Except Fault Nat := do
  let size ← tarField header sizeAt
  let nblocks := (size + blockSize - 1) % 2 ^ 32 / blockSize
  return (fblock + nblocks + 1) % 2 ^ 32

def blockOffset (blk : Nat) : Nat := blk * blockSize % 2 ^ 32

def readHeader (fs : TarFs) (blk : Nat) (buf : Buffer) : Except Fault (TarFs × Buffer) := do
  let (_, fs, buf) ← initrdRead (lseek fs (blockOffset blk)) buf blockSize blockSize
  return (fs, buf)

def headerName (header : Buffer) : List Byte := cstr header blockSize 0

variable {φ : Type}

def strnlen (s : List Byte) (maxlen : Nat) : Nat := min s.length (maxlen + 1)

def Matches (header : Buffer) (path : List Byte) : Prop :=
  let pathlen := strnlen path 100
  strncmp (headerName header) path 100 = 0 ∨
    strncmp (headerName header) path pathlen = 0 ∧ header pathlen = slash ∧ header (pathlen + 1) = 0

instance (header : Buffer) (path : List Byte) : Decidable (Matches header path) := inferInstanceAs (Decidable (_ ∨ _))

def fillType (header : Buffer) (inode : Inode φ) : Except Fault (Inode φ) :=
  if header typeflagAt = regtype then .ok { inode with ftype := .regular }
  else if header typeflagAt = dirtype then .ok { inode with ftype := .dir }
  else if header typeflagAt = chrtype ∨ header typeflagAt = blktype then do
    let ma ← tarField header devmajorAt
    let mi ← tarField header devminorAt
    return { inode with ftype := .special, dev := mkdev ma mi }
  else .error .unsupported

def fillInode (self : φ) (header : Buffer) (blk : Nat) (inode : Inode φ) : Except Fault (Inode φ) := do
  let mode ← tarField header modeAt
  let inode ← fillType header { inode with exec := mode &&& 0o111 != 0 }
  let size ← tarField header sizeAt
  return { inode with size := size, inodeId := blk, fs := self }

def lookupAllLoop (self : φ) (path : List Byte) (inode : Inode φ) :
    (fuel : Nat) → TarFs → (blk : Nat) → Buffer → Except Fault (Int × Inode φ × TarFs)
  | 0, _, _, _ => .error .endless
  | fuel + 1, fs, blk, buf => do
      let (fs, buf) ← readHeader fs blk buf
      if buf 0 = 0 then return (-ENOENT, inode, fs)
      else if Matches buf path then
        let inode ← fillInode self buf blk inode
        return (0, inode, fs)
      else
        let blk ← tarNextBlk buf blk
        lookupAllLoop self path inode fuel fs blk buf

def lookupAll (fuel : Nat) (self : φ) (fs : TarFs) (path : List Byte) (stack : Buffer) (inode : Inode φ) :
    Except Fault (Int × Inode φ × TarFs) :=
  lookupAllLoop self path inode fuel fs 0 stack

def idRoot : Nat := 0xffffffff

def getroot (self : φ) (inode : Inode φ) : Inode φ :=
  { inode with fs := self, exec := false, ftype := .dir, inodeId := idRoot }

def topen (inode : Inode φ) (f : File φ) : File φ :=
  { f with
    size := inode.size
    privateData := if inode.inodeId = idRoot then 0 else ((inode.inodeId + 1) * blockSize % 2 ^ 32 : Nat) }

def tread (fs : TarFs) (f : File φ) (buf : Buffer) (n : Nat) : Except Fault (Int × TarFs × File φ × Buffer) := do
  let len := clamp (f.size - f.offset) n
  let off := f.privateData + f.offset
  let (ret, fs, buf) ← initrdRead (lseek fs off) buf n len
  return (ret, fs, if 0 < ret then { f with offset := f.offset + ret } else f, buf)

def strchr (buf : Buffer) (c : Byte) : (left i : Nat) → Except Fault (Option Nat)
  | 0, _ => .error .pastBuffer
  | left + 1, i => if buf i = 0 then .ok none else if buf i = c then .ok (some i) else strchr buf c left (i + 1)

def cutToken (str : Buffer) (size : Nat) : Except Mounts.Fault Buffer := do
  let ret ← skipDelim str size 0
  if str ret = 0 then return str
  else
    let last ← skipToken str (size - ret) ret
    return if str last = 0 then str else Function.update str last 0

def nameLen : Nat := 100

def dirName (fs : TarFs) (f : File φ) (stack : Buffer) : Except Fault (TarFs × Buffer) :=
  if f.inode.inodeId = idRoot then .ok (fs, Function.update stack 0 0)
  else do
    let (_, fs, name) ← initrdRead (lseek fs (f.privateData - blockSize)) stack nameLen nameLen
    return (fs, name)

def isChild (header : Buffer) (start : Nat) : Except Fault Bool := do
  match ← strchr header slash (blockSize - start) start with
  | none => return true
  | some s => if blockSize ≤ s + 1 then throw .pastBuffer else return header (s + 1) = 0

def fillDirent (header : Buffer) (start blk : Nat) (d : Dirent) : Except Fault Dirent := do
  let type :=
    if header typeflagAt = regtype then .regular
    else if header typeflagAt = dirtype then .dir
    else if header typeflagAt = chrtype ∨ header typeflagAt = blktype then .special
    else d.type
  let copied : Buffer := fun i =>
    if i < nameLen then strncpy (cstr header (blockSize - start) start) nameLen i else d.name i
  match cutToken copied fileNameLen with
  | .error _ => throw .pastBuffer
  | .ok name => return ⟨blk, true, type, name⟩

def getdentLoop (name : Buffer) (f : File φ) (d : Dirent) :
    (fuel : Nat) → TarFs → (blk : Nat) → Buffer → Except Fault (TarFs × File φ × Dirent)
  | 0, _, _, _ => .error .endless
  | fuel + 1, fs, blk, buf => do
      let (fs, buf) ← readHeader fs blk buf
      let f := { f with offset := blockOffset blk }
      let dirname := cstr name nameLen 0
      -- `strnlen` looks for the terminator up to the byte behind the buffer
      if dirname.length = nameLen then throw .pastBuffer
      else if buf 0 = 0 ∨ strncmp (headerName buf) dirname dirname.length ≠ 0 then
        return (fs, f, { d with present := false })
      else if ← isChild buf dirname.length then
        let d ← fillDirent buf dirname.length blk d
        let blk ← tarNextBlk buf blk
        return (fs, { f with offset := blockOffset blk - f.privateData }, d)
      else
        let blk ← tarNextBlk buf blk
        getdentLoop name f d fuel fs blk buf

def getdent (fuel : Nat) (fs : TarFs) (f : File φ) (d : Dirent) (nameStack stack : Buffer) :
    Except Fault (Int × TarFs × File φ × Dirent) :=
  if f.inode.ftype ≠ .dir then .ok (-ENOTDIR, fs, f, d)
  else do
    let (fs, name) ← dirName fs f nameStack
    let initblk := ((f.privateData + f.offset).tdiv blockSize % 2 ^ 32).toNat
    let (fs, f, d) ← getdentLoop name f d fuel fs initblk stack
    return (0, fs, f, d)

end Petix.Kernel.Tar
