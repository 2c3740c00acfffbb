import Mathlib.Data.Nat.Digits.Defs
import Petix.Kernel.Printf

namespace Petix.Spec.Printf
open Library

inductive Complete : List Byte → Prop
  | nil : Complete []
  | plain {c rest} : c ≠ 37#8 → Complete rest → Complete (c :: rest)
  | short {c rest} : c ≠ 108#8 → Complete rest → Complete (37#8 :: c :: rest)
  | long {c rest} : c ≠ 108#8 → Complete rest → Complete (37#8 :: 108#8 :: c :: rest)
  | longLong {c rest} : Complete rest → Complete (37#8 :: 108#8 :: 108#8 :: c :: rest)

def numeral (n : Nat) : List Byte :=
  if n = 0 then [48#8] else (Nat.digits 10 n).reverse.map fun d => BitVec.ofNat 8 (d + 48)

def decimal (n : Int) : List Byte := if n < 0 then 45#8 :: numeral (-n).toNat else numeral n.toNat

def hexValue (text : List Byte) : Nat :=
  text.foldl (fun value ch => value * 16 + if ch.toNat < 65 then ch.toNat - 48 else ch.toNat - 55) 0

end Petix.Spec.Printf
