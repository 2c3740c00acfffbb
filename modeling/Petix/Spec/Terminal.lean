import Petix.Kernel.Fbtty

namespace Petix.Spec.Terminal
open Library Kernel Kernel.Ansi

def Inside (b : Backend) (row col : Int) : Prop := (0 ≤ row ∧ row < b.rowN) ∧ 0 ≤ col ∧ col < b.colN

def Inside.Output (b : Backend) : Output → Prop
  | .putch _ _ row col | .curto row col => Inside b row col
  | .scrollUp | .input _ => True

/-- A terminal that is initialised, whatever its memory held, and then given `bytes`: where it is, and what it has asked
of its backend. -/
def feed (b : Backend) (memory : Term) (bytes : List Byte) : Except Fault (Term × List Output) :=
  bytes.foldlM (fun (t, out) ch => do
    let (t, more) ← ansiPutch b t ch
    return (t, out ++ more)) (ansiInit b memory)

/-- A byte that the terminal in state `t` can take: a tab that ends on the same line, a backspace that is not at the
first place of the screen, no more than 16 numbers in a command, and a position whose digits are at most six. -/
def Harmless (b : Backend) (t : Term) (ch : Byte) : Prop :=
  match t.state with
  | .none => (ch = 9#8 → t.col + 8 < b.colN) ∧ (ch = 8#8 → ¬(t.row = 0 ∧ t.col = 0))
  | .esc => ch = 59#8 → t.noff < 15
  | .escLbrak => (ch = 59#8 → t.noff < 15) ∧ (ch = 110#8 → t.nump = true → t.noff = 0 → t.numerics 0 = 6 →
        (putint t.row).length + (putint t.col).length ≤ 6)

inductive Scan where
  | text
  | sequence (lbrak : Bool) (params : List Nat) (value : Nat) (nump : Bool)
  deriving DecidableEq

def Scan.next : Scan → Byte → Scan
  | .text, ch => if ch = 27#8 then .sequence false [] 0 false else .text
  | .sequence lbrak params value nump, ch =>
    if lbrak = false ∧ ch = 91#8 then .sequence true params value nump
    else if isDigit ch then .sequence lbrak params (value * 10 + (ch.toNat - 48)) true
    else if ch = 59#8 then .sequence lbrak (params ++ [value]) 0 nump
    else .text

def scan (bytes : List Byte) : Scan := bytes.foldl Scan.next .text

def Scan.Moderate : Scan → Prop
  | .text => True
  | .sequence _ params value _ => params.length < 16 ∧ value < 2 ^ 31

def Accumulates (t : Term) (ch : Byte) : Prop := t.state ≠ .none → isDigit ch = true →
  -2 ^ 31 ≤ t.numerics t.noff * 10 ∧ t.numerics t.noff * 10 + (ch.toNat - 48) < 2 ^ 31

def decimal (text : List Byte) : Nat := text.foldl (fun value ch => value * 10 + (ch.toNat - 48)) 0

def sgrParams : List Nat :=
  [0, 1, 2, 3, 4, 5, 6, 7, 22, 23, 24, 25, 26, 27, 30, 31, 32, 33, 34, 35, 36, 37, 39, 40, 41, 42, 43, 44, 45, 46, 47, 49]

def sgr (r : Rendition) (p : Nat) : Rendition :=
  if p = 0 then ⟨ansiDefault, ansiDefault, 0#8⟩
  else if p ≤ 7 then { r with bits := r.bits ||| BitVec.twoPow 8 p }
  else if p = 22 then { r with bits := r.bits &&& ~~~(BitVec.twoPow 8 1 ||| BitVec.twoPow 8 2) }
  else if p ≤ 27 then { r with bits := r.bits &&& ~~~BitVec.twoPow 8 (p - 20) }
  else if p ≤ 37 then { r with fg := (p - 30 : Nat) }
  else if p = 39 then { r with fg := ansiDefault }
  else if p ≤ 47 then { r with bg := (p - 40 : Nat) }
  else { r with bg := ansiDefault }

def sgrSequence (texts : List (List Byte)) : List Byte := [27#8, 91#8] ++ [59#8].intercalate texts ++ [109#8]

def putchAll (b : Backend) (t : Term) (bytes : List Byte) : Except Fault (Term × List Output) :=
  bytes.foldlM (fun (t, out) ch => do
    let (t, more) ← ansiPutch b t ch
    return (t, out ++ more)) (t, [])

def Coloured (c : Int) : Prop := (0 ≤ c ∧ c ≤ 7) ∨ c = ansiDefault

structure Shown (r : Rendition) : Prop where
  fg : Coloured r.fg
  bg : Coloured r.bg
  vga : ∃ fg bg, Vga.colour Vga.lightGrey r.fg = .ok fg ∧ Vga.colour 0 r.bg = .ok bg
  fb : ∃ colours, Fbtty.colours r = .ok colours

def ints (params : List Nat) : List Int := params.map fun p : Nat => signed32 p

def lastColour (tens : Int) (params : List Nat) : Option Int :=
  ((ints params).filter fun cmd => cmd.tdiv 10 = tens ∨ cmd = 0).getLast?

structure Scroll where
  text : Nat → Nat → Byte
  row : Nat
  col : Nat

def Scroll.empty : Scroll := ⟨fun _ _ => 32#8, 0, 0⟩

def Scroll.put (width : Nat) (u : Scroll) (ch : Byte) : Scroll :=
  if ch = 10#8 then { u with row := u.row + 1, col := 0 }
  else if ch = 13#8 then { u with col := 0 }
  else
    let text := Function.update u.text u.row (Function.update (u.text u.row) u.col ch)
    if u.col + 1 = width then ⟨text, u.row + 1, 0⟩ else ⟨text, u.row, u.col + 1⟩

def Scroll.run (width : Nat) (bytes : List Byte) : Scroll := bytes.foldl (Scroll.put width) .empty

def Scroll.top (height : Nat) (u : Scroll) : Nat := u.row + 1 - height

def Scroll.place (height width : Nat) (u : Scroll) : Nat := (u.row - u.top height) * width + u.col

def Plain (ch : Byte) : Prop := (32 ≤ ch.toNat ∧ ch.toNat ≤ 126) ∨ ch = 10#8 ∨ ch = 13#8

instance : DecidablePred Plain := fun _ => inferInstanceAs (Decidable (_ ∨ _))

def zeroTerm : Term := ⟨0, 0, fun _ => 0, 0, false, .none, ⟨0, 0, 0⟩⟩

def vgaFeed (v : Vga.Screen) (bytes : List Byte) : Except Vga.Fault (Term × Vga.Screen) := do
  bytes.foldlM Vga.putch (← Vga.init (zeroTerm, v))

end Petix.Spec.Terminal
