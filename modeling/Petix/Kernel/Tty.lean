import Mathlib.Data.List.Basic
import Petix.Library.ByteMemory
import Petix.Library.Word

/-!
# Terminals and their input (`kernel/device/tty/ttylib.c`)

`petix_tty_read` is cut where an interrupt can add input: it copies with interrupts disabled, waits, and tests for a
last marker.
-/

namespace Petix.Kernel.Tty
open List Library

inductive Fault where
  | echoMap
  deriving DecidableEq

def ttyBuffLen : Nat := 2048

def sendChar : Byte := 255#8

structure PetixTty where
  icanon : Bool
  echo : Bool
  buffer : Nat → Byte
  fbase : Nat
  lbase : Nat
  loff : Nat
  output : List Byte

def petixTtyInit : PetixTty := ⟨true, true, fun _ => 0, 0, 0, 0, []⟩

def petixTtyWrite (t : PetixTty) (buf : List Byte) : PetixTty := { t with output := t.output ++ buf }

def echoMap (ch : Byte) : Except Fault (List Byte) :=
  if 128 ≤ ch.toNat then .error .echoMap
  else if ch = 8#8 ∨ ch = 10#8 then .ok [ch]
  else if ch = 9#8 then .ok (replicate 8 32#8)
  else if ch = 127#8 then .ok [94#8, 63#8]
  else if ch.toNat < 32 then .ok [94#8, ch + 64#8]
  else .ok [ch]

structure Seq where
  first : Byte
  rest : List Byte
  deriving DecidableEq

def Seq.bytes (seq : Seq) : List Byte := seq.first :: seq.rest

def Seq.Erases (seq : Seq) : Prop := (seq.first = 8#8 ∨ seq.first = 127#8) ∧ seq.bytes.length = 1

instance (seq : Seq) : Decidable seq.Erases := inferInstanceAs (Decidable (_ ∧ _))

def store (t : PetixTty) (ch : Byte) : PetixTty :=
  { t with buffer := Function.update t.buffer t.loff ch, loff := (t.loff + 1) % ttyBuffLen }

def erase (t : PetixTty) : Except Fault PetixTty := do
  let t := { t with loff := (sub32 t.loff 1 % ttyBuffLen + ttyBuffLen) % ttyBuffLen }
  let bslen := (← echoMap (t.buffer t.loff)).length
  return petixTtyWrite (petixTtyWrite (petixTtyWrite t (replicate bslen 8#8)) (replicate bslen 32#8))
    (replicate bslen 8#8)

def echoSeq (t : PetixTty) (bytes : List Byte) : Except Fault PetixTty :=
  bytes.foldlM (fun t ch => return petixTtyWrite t (← echoMap ch)) t

def addSeq (t : PetixTty) (seq : Seq) : Except Fault PetixTty :=
  if seq.first ≠ 4#8 ∨ t.icanon = false then
    let t := seq.bytes.foldl store t
    if t.echo then echoSeq t seq.bytes else .ok t
  else .ok t

def completeLine (t : PetixTty) : PetixTty :=
  let t := store t sendChar
  { t with lbase := t.loff }

def petixTtyInputSeq (t : PetixTty) (seq : Seq) : Except Fault PetixTty :=
  if seq.Erases then
    if t.loff ≠ t.lbase then erase t else .ok t
  else do
    let t ← addSeq t seq
    if seq.first = 10#8 ∨ seq.first = 4#8 ∨ t.icanon = false then return completeLine t
    else return t

def PetixTty.slice (t : PetixTty) (start len : Nat) : List Byte := (range len).map fun i => t.buffer (start + i)

def copySection (t : PetixTty) (count : Nat) : PetixTty × List Byte :=
  if t.fbase < t.lbase then
    let start := t.fbase
    let len := min (t.lbase - t.fbase) count
    ({ t with fbase := t.fbase + len }, t.slice start len)
  else if t.lbase < t.fbase then
    let start1 := t.fbase
    let len1 := min (ttyBuffLen - t.fbase) count
    let fbase := (t.fbase + len1) % ttyBuffLen
    let count := count - len1
    let len2 := min t.lbase count
    ({ t with fbase := (fbase + len2) % ttyBuffLen }, t.slice start1 len1 ++ t.slice 0 len2)
  else (t, [])

def skipMarker (t : PetixTty) : PetixTty :=
  if t.buffer t.fbase = sendChar then { t with fbase := (t.fbase + 1) % ttyBuffLen } else t

/-- Where a reader is: not in a call, at the head of the loop, in `cond_wait`, or behind the loop. In a call, `count`
bytes are still to be read, `copied` are in `buf`, and `front` lies in front of it. -/
inductive Phase where
  | idle
  | loop (count : Nat) (copied : List Byte) (front : Byte)
  | waiting (count : Nat) (copied : List Byte) (front : Byte)
  | ending (copied : List Byte)
  deriving DecidableEq

structure Session where
  tty : PetixTty
  phase : Phase
  log : List (Int × List Byte)

def readPass (s : Session) (count : Nat) (copied : List Byte) (front : Byte) : Session :=
  let (tty, bytes) := copySection s.tty count
  let count := count - bytes.length
  let copied := copied ++ bytes
  if copied.getLast?.getD front = sendChar then
    { tty, phase := .idle, log := s.log ++ [((copied.length : Int) - 1, copied)] }
  else if 0 < count then { s with tty, phase := .waiting count copied front }
  else { s with tty, phase := .ending copied }

inductive Event where
  | input (seq : Seq)
  | read (count : Nat) (front : Byte)
  | pass
  | wake
  | finish
  | setFlags (icanon echo : Bool)
  | flush (icanon echo : Bool)
  deriving DecidableEq

def next (s : Session) : Event → Option Session
  | .input seq => match petixTtyInputSeq s.tty seq with
      | .ok tty => some { s with tty }
      | .error _ => none
  | .read count front => match s.phase with
      | .idle => some { s with phase := if 0 < count then .loop count [] front else .ending [] }
      | _ => none
  | .pass => match s.phase with
      | .loop count copied front => some (readPass s count copied front)
      | _ => none
  | .wake => match s.phase with
      | .waiting count copied front => some { s with phase := .loop count copied front }
      | _ => none
  | .finish => match s.phase with
      | .ending copied => some ⟨skipMarker s.tty, .idle, s.log ++ [((copied.length : Int), copied)]⟩
      | _ => none
  | .setFlags icanon echo => match s.phase with
      | .idle => some { s with tty := { s.tty with icanon, echo } }
      | _ => none
  | .flush icanon echo => match s.phase with
      | .idle => some { s with tty := { s.tty with fbase := s.tty.loff, lbase := s.tty.loff, icanon, echo } }
      | _ => none

end Petix.Kernel.Tty
