import Petix.Kernel.Mounts

/-! # `strtok_r` (`libc/string/strtok.c`, `libc/string/strchr.c`) -/

namespace Petix.Kernel.Strtok
open Function Library Mounts

def strchr : (s : List Byte) → (c : Byte) → Option (List Byte)
  | [], _ => none
  | b :: s, c => if b = c then some (b :: s) else strchr s c

def strtokR (delim : List Byte) (size : Nat) (buf : Buffer) (str : Option Nat) (save : Nat) :
    Except Fault (Option Nat × Nat × Buffer) := do
  let str := str.getD save
  let ret ← skipWhile (fun c => c != 0 && (strchr delim c).isSome) buf (size - str) str
  if buf ret = 0 then return (none, save, buf)
  else
    let str ← skipWhile (fun c => c != 0 && !(strchr delim c).isSome) buf (size - ret) ret
    if buf str = 0 then return (some ret, str, buf)
    else return (some ret, str + 1, update buf str 0)

def strtokAll (delim : List Byte) (size : Nat) : (fuel : Nat) → (buf : Buffer) → (str : Option Nat) → (save : Nat) →
    Except Fault (List (Nat × Nat) × Buffer)
  | 0, _, _, _ => .error .endless
  | fuel + 1, buf, str, save => do
      match ← strtokR delim size buf str save with
      | (none, _, buf) => return ([], buf)
      | (some ret, save, buf) =>
        let (calls, buf) ← strtokAll delim size fuel buf none save
        return ((ret, save) :: calls, buf)

end Petix.Kernel.Strtok
