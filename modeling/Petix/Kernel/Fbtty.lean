import Petix.Kernel.Vga

/-! # The colours of the framebuffer terminal (`kernel/device/tty/ttys/fbtty.c`) -/

namespace Petix.Kernel.Fbtty
open Kernel.Ansi

inductive Fault where
  | colour
  deriving DecidableEq

def ansiToRgb : List Nat := [0x000000, 0xaa0000, 0x00aa00, 0xaa5500, 0x0000aa, 0xaa00aa, 0x00aaaa, 0xaaaaaa]

def ansiToRgbBold : List Nat := [0x555555, 0xff5555, 0x55ff55, 0xffff55, 0x5555ff, 0xff55ff, 0x55ffff, 0xffffff]

def entry (table : List Nat) (c : Int) : Except Fault Nat :=
  if 0 ≤ c then
    match table[c.toNat]? with
    | some rgb => .ok rgb
    | none => .error .colour
  else .error .colour

def colours (r : Rendition) : Except Fault (Nat × Nat) := do
  let bold := r.bits.getLsbD 1
  let fg ← entry (if bold then ansiToRgbBold else ansiToRgb) (if r.fg = ansiDefault then 7 else r.fg)
  let bg ← entry ansiToRgb (if r.bg = ansiDefault then 0 else r.bg)
  return if r.bits.getLsbD 7 then (bg, fg) else (fg, bg)

end Petix.Kernel.Fbtty
