import Petix.Kernel.Ansi

/-! # Formatted output and its inverse (`libc/bits/baseprintf.c`, `libc/stdlib/atoi.c`) -/

namespace Petix.Kernel.Printf
open Library Ansi

inductive Fault where
  | pastFormat
  deriving DecidableEq

abbrev VaList := Nat → BitVec 32

def hexDigit (dig : Nat) : Byte := if dig < 10 then BitVec.ofNat 8 (dig + 48) else BitVec.ofNat 8 (dig - 10 + 65)

def puthex (n : BitVec 32) : List Byte :=
  [48#8, 120#8] ++ (List.range 8).reverse.map fun i => hexDigit (n >>> (i * 4) &&& 0xf#32).toNat

def putNumber (ch : Byte) (n : BitVec 32) : Option (List Byte) :=
  if ch = 100#8 ∨ ch = 105#8 then some (putint n.toInt)
  else if ch = 117#8 then some (putuint n.toNat)
  else if ch = 120#8 ∨ ch = 88#8 then some (puthex n)
  else none

def convert (cstr : BitVec 32 → List Byte) (ap : VaList) (ch : Byte) : List Byte × Nat :=
  if ch = 37#8 then ([ch], 0)
  else if ch = 115#8 then (cstr (ap 0), 1)
  else if ch = 99#8 then ([(ap 0).setWidth 8], 1)
  else if ch = 112#8 then (puthex (ap 0), 1)
  else ((putNumber ch (ap 0)).map (·, 1)).getD ([], 0)

def convertLong (ap : VaList) (ch : Byte) : List Byte × Nat := ((putNumber ch (ap 0)).map (·, 1)).getD ([], 0)

def convertLongLong (ap : VaList) (ch : Byte) : List Byte × Nat :=
  ((putNumber ch ((ap 1 ++ ap 0).setWidth 32)).map (·, 2)).getD ([], 0)

def baseVprintf (cstr : BitVec 32 → List Byte) : (ch : List Byte) → (ap : VaList) → Except Fault (List Byte)
  | [], _ => .error .pastFormat
  | c :: ch, ap =>
    if c = 0#8 then .ok []
    else if c ≠ 37#8 then (c :: ·) <$> baseVprintf cstr ch ap
    else match ch with
      | [] => .error .pastFormat
      | c :: ch =>
        if c ≠ 108#8 then
          let out := convert cstr ap c
          (out.1 ++ ·) <$> baseVprintf cstr ch fun i => ap (out.2 + i)
        else match ch with
          | [] => .error .pastFormat
          | c :: ch =>
            if c ≠ 108#8 then
              let out := convertLong ap c
              (out.1 ++ ·) <$> baseVprintf cstr ch fun i => ap (out.2 + i)
            else match ch with
              | [] => .error .pastFormat
              | c :: ch =>
                let out := convertLongLong ap c
                (out.1 ++ ·) <$> baseVprintf cstr ch fun i => ap (out.2 + i)

def atou (nptr : List Byte) : Int :=
  (nptr.takeWhile (· ≠ 0#8)).foldl (fun n ch => signed32 (signed32 (n * 10) + (ch.toInt - 48))) 0

def atoi (nptr : List Byte) : Int :=
  if nptr.head? = some 45#8 then signed32 (-atou nptr.tail) else atou nptr

end Petix.Kernel.Printf
