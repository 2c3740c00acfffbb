import Petix.Library.ByteMemory
import Petix.Library.Word

/-!
# Terminals with escape sequences (`kernel/device/tty/ansiseq.c`)

What a terminal asks of its backend and of its tty is returned as a list.
-/

namespace Petix.Kernel.Ansi
open Function List Library

inductive Fault where
  | numerics
  | seq
  deriving DecidableEq

def ansiDefault : Int := 9

structure Rendition where
  fg : Int
  bg : Int
  bits : BitVec 8
  deriving DecidableEq

inductive State where
  | none
  | esc
  | escLbrak
  deriving DecidableEq

structure Backend where
  rowN : Int
  colN : Int
  rows : 1 ≤ rowN
  cols : 1 ≤ colN
  intRows : rowN < 2 ^ 31
  intCols : colN < 2 ^ 31

structure Term where
  row : Int
  col : Int
  numerics : Nat → Int
  noff : Nat
  nump : Bool
  state : State
  rendition : Rendition

inductive Output where
  | putch (r : Rendition) (ch : Byte) (row col : Int)
  | curto (row col : Int)
  | scrollUp
  | input (seq : List Byte)
  deriving DecidableEq

def clear (b : Backend) (t : Term) : List Output :=
  (range b.rowN.toNat).flatMap fun r : Nat =>
    (range b.colN.toNat).map fun c : Nat => .putch t.rendition 32#8 r c

/-- `memset(term, 0, sizeof(term))` clears as many bytes as a pointer has, that is `row`. -/
def ansiInit (b : Backend) (t : Term) : Term × List Output :=
  let t := { t with
    row := 0
    state := .none
    rendition := { t.rendition with fg := ansiDefault, bg := ansiDefault } }
  (t, clear b t)

def moveCursor (b : Backend) (t : Term) (ch : Byte) : Term × List Output :=
  if ch = 10#8 then ({ t with row := t.row + 1, col := 0 }, [])
  else if ch = 13#8 then ({ t with col := 0 }, [])
  else if ch = 9#8 then ({ t with col := t.col + 8 }, [])
  else if ch = 8#8 then
    let t := if t.col - 1 = -1 then { t with col := b.colN - 1, row := t.row - 1 } else { t with col := t.col - 1 }
    (t, [.putch t.rendition 32#8 t.row t.col])
  else
    let out := [Output.putch t.rendition ch t.row t.col]
    if t.col + 1 = b.colN then ({ t with col := 0, row := t.row + 1 }, out) else ({ t with col := t.col + 1 }, out)

def settle (b : Backend) (t : Term) : Term × List Output :=
  if t.row = b.rowN then ({ t with row := t.row - 1 }, [.scrollUp, .curto (t.row - 1) t.col])
  else (t, [.curto t.row t.col])

def putchUnesc (b : Backend) (t : Term) (ch : Byte) : Term × List Output :=
  let (t, out) := moveCursor b t ch
  let (t, more) := settle b t
  (t, out ++ more)

/-- One step of the loop in `process_rendition_command`. Division and remainder round towards zero, and of a shift only
the low bits reach the flags. -/
def renditionStep (r : Rendition) (cmd : Int) : Rendition :=
  let bit := if 0 ≤ cmd.tmod 10 then 1#8 <<< (cmd.tmod 10).toNat else 0#8
  if cmd.tdiv 10 = 3 then { r with fg := cmd.tmod 10 }
  else if cmd.tdiv 10 = 4 then { r with bg := cmd.tmod 10 }
  else if cmd = 0 then ⟨ansiDefault, ansiDefault, 0⟩
  else if cmd.tdiv 10 = 0 then { r with bits := r.bits ||| bit }
  else if cmd.tdiv 10 = 2 then
    if cmd.tmod 10 = 2 then { r with bits := r.bits &&& ~~~6#8 } else { r with bits := r.bits &&& ~~~bit }
  else r

def processRenditionCommand (t : Term) (nargs : Nat) : Term :=
  { t with rendition := (range nargs).foldl (fun r i => renditionStep r (t.numerics i)) t.rendition }

def putuintnz : (fuel num : Nat) → List Byte
  | 0, _ => []
  | fuel + 1, num => if num = 0 then [] else putuintnz fuel (num / 10) ++ [BitVec.ofNat 8 (num % 10 + 48)]

def putuint (num : Nat) : List Byte := if num = 0 then [48#8] else putuintnz 10 num

def putint (num : Int) : List Byte := if num < 0 then 45#8 :: putuint (-num).toNat else putuint num.toNat

def report (t : Term) : List Byte := [27#8, 91#8] ++ putint t.row ++ [59#8] ++ putint t.col ++ [82#8]

def finishCommand (t : Term) (ch : Byte) : Except Fault (Term × List Output) :=
  let nargs := if t.nump then t.noff + 1 else 0
  let t := { t with state := .none }
  if ch = 109#8 then .ok (processRenditionCommand t nargs, [])
  else if ch = 110#8 ∧ nargs = 1 ∧ t.numerics 0 = 6 then
    if (report t).length + 1 ≤ 11 then .ok (t, [.input (report t)]) else .error .seq
  else .ok (t, [])

def isDigit (ch : Byte) : Bool := 48 ≤ ch.toNat && ch.toNat ≤ 57

def ansiPutch (b : Backend) (t : Term) (ch : Byte) : Except Fault (Term × List Output) :=
  match t.state with
  | .none =>
    if ch = 27#8 then
      .ok ({ t with noff := 0, nump := false, numerics := update t.numerics 0 0, state := .esc }, [])
    else .ok (putchUnesc b t ch)
  | .esc | .escLbrak =>
    if t.state = .esc ∧ ch = 91#8 then .ok ({ t with state := .escLbrak }, [])
    else if isDigit ch then
      let value := signed32 (signed32 (t.numerics t.noff * 10) + (ch.toNat - 48))
      .ok ({ t with nump := true, numerics := update t.numerics t.noff value }, [])
    else if ch = 59#8 then
      if t.noff + 1 < 16 then
        .ok ({ t with noff := t.noff + 1, numerics := update t.numerics (t.noff + 1) 0 }, [])
      else .error .numerics
    else if t.state = .esc then .ok ({ t with state := .none }, [])
    else finishCommand t ch

end Petix.Kernel.Ansi
