import Petix.Kernel.Paging

/-! # The framebuffer device (`kernel/device/fb.c`) -/

namespace Petix.Kernel.Fb
open Paging

inductive Errno where
  | ENOTSUP
  | EINVAL
  | EFAULT
  deriving DecidableEq

structure Fb where
  addr : BitVec 32
  width : BitVec 32
  height : BitVec 32

variable {σ : Type} (A : Allocator σ)

def mapPages (as : Frame) : (pages : Nat) → (caddr cfbAddr : BitVec 32) → Machine σ →
    Except Halt (Option Errno × Machine σ)
  | 0, _, _, m => .ok (none, m)
  | pages + 1, caddr, cfbAddr, m => do
    let (ret, m) ← remapPageUser A m as as caddr cfbAddr
    if ret = -1 then .ok (some .EFAULT, m) else mapPages as pages (caddr + 4096) (cfbAddr + 4096) m

def fbMmap (fb : Fb) (m : Machine σ) (as : Frame) (addr len flags : BitVec 32) :
    Except Halt (Option Errno × Machine σ) :=
  if flags &&& (2 ||| 1) ≠ 0 then .ok (some .ENOTSUP, m)
  else if len ≠ fb.width * fb.height * 4 then .ok (some .EINVAL, m)
  else mapPages A as ((len.toNat + 4095) / 4096) addr fb.addr m

end Petix.Kernel.Fb
