import Petix.Kernel.Ansi

/-! # The VGA text terminal (`kernel/device/tty/ttys/vgatty.c`) -/

namespace Petix.Kernel.Vga
open Function List Library Kernel.Ansi

inductive Fault where
  | outside
  | colour
  | ansi (fault : Ansi.Fault)
  deriving DecidableEq

def vgaWidth : Nat := 80

def vgaHeight : Nat := 25

structure Entry where
  ch : Byte
  fg : Nat
  bold : Bool
  bg : Nat
  blink : Bool
  deriving DecidableEq

def lightGrey : Nat := 7

def ansiToVga : List Nat := [0, 4, 2, 6, 1, 5, 3, 7]

structure Screen where
  termBuff : Nat → Entry
  cursor : Nat

def colour (default : Nat) (c : Int) : Except Fault Nat :=
  if c = ansiDefault then .ok default
  else match ansiToVga[c.toNat]? with
    | some vga => .ok vga
    | none => .error .colour

def tPutch (v : Screen) (r : Rendition) (ch : Byte) (row col : Int) : Except Fault Screen := do
  let index := ((row * vgaWidth + col) % 2 ^ 32).toNat
  if index < vgaHeight * vgaWidth then
    let fg ← colour lightGrey r.fg
    let bg ← colour 0 r.bg
    let entry := { v.termBuff index with ch, bold := r.bits.getLsbD 1 }
    let entry := if r.bits.getLsbD 7 then { entry with fg := bg, bg := fg } else { entry with fg, bg }
    return { v with termBuff := update v.termBuff index entry }
  else .error .outside

def tCurto (v : Screen) (row col : Int) : Screen :=
  { v with cursor := ((row * vgaWidth + col) % 2 ^ 16).toNat }

def blank (entry : Entry) : Entry := { entry with ch := 32#8, bg := 0, fg := lightGrey }

def tScrollUp (v : Screen) : Screen :=
  let moved := (range (vgaHeight - 1)).foldl (fun buff y =>
    (range vgaWidth).foldl (fun buff x =>
      update buff (y * vgaWidth + x) (buff ((y + 1) * vgaWidth + x))) buff) v.termBuff
  { v with termBuff := (range vgaWidth).foldl (fun buff x =>
      let index := (vgaHeight - 1) * vgaWidth + x
      update buff index (blank (buff index))) moved }

def ansiBackend : Backend := ⟨vgaHeight, vgaWidth, by decide, by decide, by decide, by decide⟩

def display (v : Screen) : Output → Except Fault Screen
  | .putch r ch row col => tPutch v r ch row col
  | .curto row col => .ok (tCurto v row col)
  | .scrollUp => .ok (tScrollUp v)
  | .input _ => .ok v

def putch (tv : Term × Screen) (ch : Byte) : Except Fault (Term × Screen) := do
  let (t, out) ← (ansiPutch ansiBackend tv.1 ch).mapError .ansi
  return (t, ← out.foldlM display tv.2)

def init (tv : Term × Screen) : Except Fault (Term × Screen) := do
  let (t, out) := ansiInit ansiBackend tv.1
  return (t, ← out.foldlM display tv.2)

end Petix.Kernel.Vga
