import Mathlib.Algebra.Order.Ring.Int
import Mathlib.Logic.Function.Basic
import Mathlib.Tactic.Common

namespace Petix.Library
open Function

variable {m m' : Memory} {width address count : Nat}

abbrev Byte := BitVec 8

instance : LawfulBEq Byte := inferInstance

theorem toNat_ne_zero {a : Byte} (nonzero : 0 ≠ a) : a.toNat ≠ 0 := by
  intro zero
  exact nonzero (BitVec.eq_of_toNat_eq zero.symm)

abbrev Memory := Nat → Byte

namespace Memory

def read (m : Memory) : (width : Nat) → (address : Nat) → Nat
  | 0, _ => 0
  | width + 1, address => (m address).toNat + 256 * read m width (address + 1)

def write (m : Memory) : (width : Nat) → (address value : Nat) → Memory
  | 0, _, _ => m
  | width + 1, address, value =>
    update (write m width (address + 1) (value / 256)) address (BitVec.ofNat 8 value)

def copy (m : Memory) (target source : Nat) : (count : Nat) → Memory
  | 0 => m
  | count + 1 =>
    let done := copy m target source count
    update done (target + count) (done (source + count))

theorem read_lt (m : Memory) (width address : Nat) : m.read width address < 256 ^ width := by
  induction width generalizing address with
  | zero => simp [read]
  | succ width ih =>
    have tail := ih (address + 1)
    rw [read, Nat.pow_succ]
    omega

theorem read_shift {address' : Nat}
    (agree : ∀ k < width, m (address + k) = m' (address' + k)) : m.read width address = m'.read width address' := by
  induction width generalizing address address' with
  | zero => rfl
  | succ width ih =>
    have first : m address = m' address' := agree 0 (by omega)
    have rest : m.read width (address + 1) = m'.read width (address' + 1) := by
      apply ih
      intro k _
      rw [Nat.add_assoc, Nat.add_assoc, Nat.add_comm 1]
      exact agree (k + 1) (by omega)
    rw [read, read, first, rest]

theorem read_congr
    (agree : ∀ x, address ≤ x → x < address + width → m x = m' x) : m.read width address = m'.read width address :=
  read_shift fun k inside => agree (address + k) (by omega) (by omega)

theorem write_outside (m : Memory) (width address value x : Nat)
    (outside : x < address ∨ address + width ≤ x) : m.write width address value x = m x := by
  induction width generalizing address value with
  | zero => rfl
  | succ width ih => rw [write, update_of_ne (by omega), ih _ _ (by omega)]

theorem read_write_same (m : Memory) (width address value : Nat) :
    (m.write width address value).read width address = value % 256 ^ width := by
  induction width generalizing address value with
  | zero => simp [read, Nat.mod_one]
  | succ width ih =>
    have tail : (m.write (width + 1) address value).read width (address + 1) =
        (m.write width (address + 1) (value / 256)).read width (address + 1) := by
      refine read_congr fun x low _ => ?_
      rw [write, update_of_ne (by omega)]
    have bytes : 256 ^ (width + 1) = 256 * 256 ^ width := Nat.pow_succ'
    rw [read, tail, ih, write, update_self, BitVec.toNat_ofNat, bytes, Nat.mod_mul]

theorem read_write_disjoint (m : Memory) {other : Nat} (value : Nat)
    (disjoint : address + width ≤ other ∨ other + count ≤ address) :
    (m.write width address value).read count other = m.read count other :=
  read_congr fun x _ _ => write_outside m width address value x (by omega)

theorem copy_outside (m : Memory) (target source count x : Nat)
    (outside : x < target ∨ target + count ≤ x) : m.copy target source count x = m x := by
  induction count with
  | zero => rfl
  | succ count ih => rw [copy, update_of_ne (by omega), ih (by omega)]

theorem copy_inside (m : Memory) {target source i : Nat}
    (disjoint : target + count ≤ source ∨ source + count ≤ target) (inside : i < count) :
    m.copy target source count (target + i) = m (source + i) := by
  induction count with
  | zero => omega
  | succ count ih =>
    rw [copy]
    by_cases last : i = count
    · rw [last, update_self, copy_outside m target source count _ (by omega)]
    · rw [update_of_ne (by omega), ih (by omega) (by omega)]

theorem write_read (m : Memory) (width address : Nat) : m.write width address (m.read width address) = m := by
  induction width generalizing address with
  | zero => rfl
  | succ width ih =>
    have low : BitVec.ofNat 8 (m.read (width + 1) address) = m address := by
      refine BitVec.eq_of_toNat_eq ?_
      rw [BitVec.toNat_ofNat, read]
      omega
    have high : m.read (width + 1) address / 256 = m.read width (address + 1) := by
      rw [read]
      omega
    rw [write, low, high, ih, update_eq_self]

end Memory
end Petix.Library
