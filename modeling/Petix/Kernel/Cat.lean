import Petix.Kernel.Stdio

/-! # A program on streams (`bin/coreutils/cat.c`, `libc/sys/crt0.s`) -/

namespace Petix.Kernel.Cat
open Library Kernel.Stdio

variable {σ : Type}

def put (t : Streams σ) (i : Fin fopenMax) (f : File) (s : Sys σ) : Streams σ :=
  ⟨Function.update t.stdioFiles i f, s⟩

def characters (text : String) : List Byte := text.toList.map fun c => BitVec.ofNat 8 c.toNat

def errtab : List (Int × String) :=
  [(1, "Operation not permitted"), (2, "No such file or directory"), (3, "No such process"),
    (4, "Interrupted system call"), (5, "Input/output error"), (6, "No such device or address"),
    (8, "Exec format error"), (9, "Bad file descriptor"), (10, "No child processes"),
    (11, "Resource temporarily unavailable"), (13, "Permission denied"), (14, "Bad address"), (17, "File exists"),
    (19, "No such device"), (20, "Not a directory"), (21, "Is a directory"), (22, "Invalid argument"),
    (24, "Too many open files"), (25, "Inappropriate ioctl for device"), (38, "Function not Implemented"),
    (95, "Operation not supported")]

def strerror (errnum : Int) : Option (List Byte) := (errtab.lookup errnum).map characters

def perror (os : Os σ) (text : List Byte) (t : Streams σ) : Except Fault (Streams σ) :=
  match strerror t.sys.errno with
  | none => .error .outside
  | some reason =>
    let line := if text = [] then reason ++ [10] else text ++ characters ": " ++ reason ++ [10]
    line.foldlM (fun t c => do
      let (_, f, s) ← fputc os c.toInt (t.stdioFiles stderr) t.sys
      return put t stderr f s) t

def sizeofBuff : Nat := 1024

def buffRoom : Room := ⟨1, sizeofBuff, by decide⟩

def buffObjects (buff : Nat → Byte) (n : Nat) (inside : n ≤ sizeofBuff) : Objects where
  size := 1
  nmemb := n
  fits := by
    unfold sizeofBuff at inside
    unfold sizeofFile bufsiz
    omega
  bytes := (List.range n).map buff
  length := by simp

def catF (os : Os σ) : (fuel : Nat) → (buff : Nat → Byte) → Fin fopenMax → Streams σ → Except Fault (Streams σ)
  | 0, _, _, _ => .error .endless
  | fuel + 1, buff, f, t =>
    if feof (t.stdioFiles f) then .ok t
    else do
      let (n, bytes, file, s) ← fread os buffRoom (t.stdioFiles f) t.sys
      let t := put t f file s
      let buff := fun i => bytes.getD i (buff i)
      if inside : n ≤ sizeofBuff then
        let (_, file, s) ← fwrite os (buffObjects buff n inside) (t.stdioFiles stdout) t.sys
        catF os fuel buff f (put t stdout file s)
      else .error .outside

def cat (os : Os σ) (fuel : Nat) (buff : Nat → Byte) (file : CString) (t : Streams σ) : Except Fault (Streams σ) :=
  -- 45 is '-'
  if file.chars = [45#8] then catF os fuel buff stdin t
  else do
    -- "r"
    let (f, t) ← fopen os file ⟨[114#8], by decide, by decide⟩ t
    match f with
    | none => perror os (characters "fopen(3)") t
    | some f =>
      let t ← catF os fuel buff f t
      let (_, file, s) ← fclose os (t.stdioFiles f) t.sys
      return put t f file s

def main (os : Os σ) (fuel : Nat) (buff : Nat → Byte) (argv : List CString) (t : Streams σ) :
    Except Fault (Int × Streams σ) := do
  if argv.length = 1 then
    let t ← catF os fuel buff stdin t
    return (0, t)
  else
    let t ← (argv.drop 1).foldlM (fun t file => cat os fuel buff file t) t
    return (0, t)

def start (os : Os σ) (fuel : Nat) (buff : Nat → Byte) (argv : List CString) (s : Sys σ) :
    Except Fault (Int × Sys σ) := do
  let (status, t) ← main os fuel buff argv ⟨initialFiles, s⟩
  return (status, t.sys)

end Petix.Kernel.Cat
