import Petix.Kernel.Stdio

/-! # Counting lines, words and characters (`bin/coreutils/wc.c`) -/

namespace Petix.Kernel.Wc
open Library Kernel.Stdio

variable {σ : Type}

structure Counts where
  l : BitVec 32
  w : BitVec 32
  c : BitVec 32
  inw : Bool

def Counts.step (n : Counts) (ch : Int) : Counts :=
  let n := { n with c := n.c + 1 }
  let n := if ch = 10 then { n with l := n.l + 1 } else n
  -- a space, a tab or a newline
  if ch = 32 ∨ ch = 9 ∨ ch = 10 then { n with w := if n.inw then n.w + 1 else n.w, inw := false }
  else { n with inw := true }

def wcLoop (os : Os σ) (stack : Byte) : (fuel : Nat) → Counts → File → Sys σ → Except Fault (Counts × File × Sys σ)
  | 0, _, _, _ => .error .endless
  | fuel + 1, n, f, s => do
      let (ch, f, s) ← fgetc os stack f s
      if ch = -1 then return (n, f, s) else wcLoop os stack fuel (n.step ch) f s

/-- `wc_f` up to its output: `l`, `w` and `c`. -/
def wcF (os : Os σ) (stack : Byte) (fuel : Nat) (f : File) (s : Sys σ) :
    Except Fault ((BitVec 32 × BitVec 32 × BitVec 32) × File × Sys σ) := do
  let (n, f, s) ← wcLoop os stack fuel ⟨0, 0, 0, false⟩ f s
  return ((n.l, if n.inw then n.w + 1 else n.w, n.c), f, s)

end Petix.Kernel.Wc
