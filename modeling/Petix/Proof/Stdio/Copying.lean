import Petix.Kernel.Cat
import Petix.Proof.Stdio.Reopening

namespace Petix.Proof.Stdio
open Function Library Library.Result Kernel.Stdio Kernel.Cat Spec.Stdio

variable {content : List Byte} {calls : List Call} {fd : Int} {f : File} {w : Sys Disk} {sizes : Nat → Nat}
variable {bytes : List Byte} {o : File} {fuel : Nat}

theorem chunk_append (content : List Byte) (k : Nat) :
    content.take (1024 * k) ++ chunk content k = content.take (1024 * (k + 1)) := by
  rw [chunk, Nat.mul_succ, List.take_add]

theorem chunk_eq {k : Nat} (within : content.take (1024 * k) ++ bytes <+: content)
    (room : bytes.length ≤ 1024)
    (whole : bytes.length < 1024 → content.take (1024 * k) ++ bytes = content) : bytes = chunk content k := by
  obtain ⟨rest, equal⟩ := within
  have drop : content.drop (1024 * k) = bytes ++ rest := by
    have pieces : content.take (1024 * k) ++ content.drop (1024 * k) = content.take (1024 * k) ++ (bytes ++ rest) := by
      rw [List.take_append_drop, ← List.append_assoc, equal]
    exact List.append_cancel_left pieces
  rw [chunk, drop]
  rcases Nat.lt_or_ge bytes.length 1024 with short | full
  · have none : rest = [] := by
      have all := whole short
      rw [all] at equal
      simpa using equal
    rw [none, List.append_nil, List.take_of_length_le room]
  · rw [List.take_append_of_le_length full, List.take_of_length_le room]

theorem unended_append (pieces : List (List Byte)) (piece : List Byte) :
    (unended (pieces ++ [piece])).length = if 10#8 ∈ piece then 0 else (unended pieces).length + 1 := by
  unfold unended
  by_cases line : 10#8 ∈ piece
  · simp [line]
  · simp [line]

@[simp] theorem deliveredTo_append (fd : Int) (calls more : List Call) :
    deliveredTo fd (calls ++ more) = deliveredTo fd calls ++ deliveredTo fd more :=
  List.flatMap_append

theorem deliveredTo_reads (reads : pieces calls = []) : deliveredTo fd calls = [] := by
  apply List.flatMap_eq_nil_iff.mpr
  intro call here
  cases call with
  | read => rfl
  | write fd' bytes =>
    have none := List.filterMap_eq_nil_iff.mp reads _ here
    cases none

def Writes (calls : List Call) : Prop := ∀ call ∈ calls, ∃ fd bytes, call = .write fd bytes

theorem Wrote.writes {σ : Type} {os : Os σ} {data : List Byte} {s : Sys σ} {f' : File}
    (wrote : Wrote os f data s f' calls) : Writes calls := by
  cases wrote <;> simp [Writes]

theorem fetched_writes (writes : Writes calls) : fetched calls = [] := by
  apply List.flatMap_eq_nil_iff.mpr
  intro call here
  obtain ⟨-, -, rfl⟩ := writes call here
  rfl

theorem Delivered.wrote {w' : Sys Disk} (holds : Delivered fd content w) (world : w'.world = w.world)
    (log : w'.calls = w.calls ++ calls) (writes : Writes calls) : Delivered fd content w' := by
  have nothing := fetched_writes writes
  constructor
  · rw [log, fetched_append, nothing, List.append_nil, world]
    exact holds.all
  · intro fd' here
    rcases List.mem_append.mp (log ▸ here) with old | new
    · exact holds.none fd' old
    · obtain ⟨_, _, equal⟩ := writes _ new
      cases equal
  · intro last
    rw [world]
    rw [log, List.getLast?_append] at last
    cases final : calls.getLast? with
    | none => exact holds.ended (by simpa [final] using last)
    | some call =>
      obtain ⟨_, _, rfl⟩ := writes call (List.mem_of_getLast? final)
      simp [final] at last

theorem disk_accepts (sizes : Nat → Nat) : AcceptsAll (disk sizes) := fun _ _ _ => rfl

section
variable {σ : Type} {os : Os σ} {s s' : Sys σ} (quiet : ∀ fd bytes world, (os.write fd bytes world).2 = world)

include quiet in
theorem sysWrite_world (fd : Int) (bytes : List Byte) : (os.sysWrite fd bytes s).2.world = s.world := by
  unfold Os.sysWrite rawSyscallErrno
  dsimp only
  split_ifs <;> exact quiet ..

include quiet in
theorem fwrite_world {ptr : Objects} {ret : Nat} {f' : File} (run : fwrite os ptr f s = .ok (ret, f', s')) :
    s'.world = s.world := by
  unfold fwrite at run
  dsimp only at run
  split_ifs at run
  · obtain ⟨-, -, rfl⟩ := by simpa using run
    rfl
  · obtain ⟨-, -, rfl⟩ := by simpa using run
    exact sysWrite_world quiet ..
  · obtain ⟨-, -, rfl⟩ := by simpa using run
    exact sysWrite_world quiet ..
  · obtain ⟨stream, -, rest⟩ := bind_ok run
    obtain ⟨-, -, rfl⟩ := by simpa using pure_ok rest
    rfl
  · obtain ⟨bytes, -, rest⟩ := bind_ok run
    split_ifs at rest
    · obtain ⟨-, -, rfl⟩ := by simpa using pure_ok rest
      exact sysWrite_world quiet ..
    · obtain ⟨-, -, rfl⟩ := by simpa using pure_ok rest
      rw [sysWrite_world quiet, sysWrite_world quiet]
    · obtain ⟨-, -, rfl⟩ := by simpa using pure_ok rest
      rw [sysWrite_world quiet, sysWrite_world quiet]

end

structure LineBuffered (o : File) : Prop where
  fd : o.fd = 1
  valid : o.valid = true
  bf : o.bf = .iolbf
  inside : o.stop ≤ bufsiz

structure Outputs (o : File) (data : List Byte) (w : Sys Disk) (o' : File) (w' : Sys Disk) : Prop where
  stream : LineBuffered o'
  world : w'.world = w.world
  log : ∃ calls, w'.calls = w.calls ++ calls ∧ Writes calls ∧
    deliveredTo 1 calls ++ contents o'.buffer 0 o'.stop = contents o.buffer 0 o.stop ++ data
  stop : o'.stop = if 10#8 ∈ data ∨ bufsiz < o.stop + data.length then 0 else o.stop + data.length

theorem fwrite_outputs (sizes : Nat → Nat) (w : Sys Disk) (ptr : Objects) (stream : LineBuffered o) :
    ∃ ret o' w', fwrite (disk sizes) ptr o w = .ok (ret, o', w') ∧ Outputs o ptr.bytes w o' w' := by
  obtain ⟨ret, o', w', _, run, log, wrote⟩ := fwrite_wrote (disk sizes) w ptr stream.inside
  have world := fwrite_world (fun _ _ _ => rfl) run
  have writes := Wrote.writes wrote
  refine ⟨ret, o', w', run, ?_⟩
  cases wrote with
  | refused err closed => simp [stream.valid] at closed
  | unbuffered err valid none => simp [stream.bf] at none
  | buffered valid buffering noLine room stored =>
    refine ⟨⟨stream.fd, valid, stream.bf, room⟩, world, ⟨_, log, writes, ?_⟩, ?_⟩
    · exact stored.contents_eq (Nat.zero_le _)
    · rw [if_neg]
      rintro (line | _)
      · exact noLine ⟨stream.bf, line⟩
      · omega
  | failed err valid buffering refused =>
    have length : (contents o.buffer 0 o.stop).length = o.stop := length_contents
    have inside := stream.inside
    unfold bufsiz at inside
    exact absurd refused (sysWrite_accepted (disk_accepts sizes) (by omega))
  | flushed err valid buffering due =>
    refine ⟨⟨stream.fd, valid, stream.bf, Nat.zero_le _⟩, world, ⟨_, log, writes, ?_⟩, ?_⟩
    · simp [deliveredTo, stream.fd]
    · rw [if_pos (due.imp_left And.right)]

structure Pending (content : List Byte) (k stop : Nat) : Prop where
  empty : stop = 0 ↔ (unended ((List.range k).map (chunk content))).length % 5 = 0
  full : 1024 * k ≤ content.length → stop = 1024 * ((unended ((List.range k).map (chunk content))).length % 5)

theorem Pending.next {k stop : Nat} (pending : Pending content k stop) (more : 1024 * k < content.length) :
    Pending content (k + 1)
      (if 10#8 ∈ chunk content k ∨ bufsiz < stop + (chunk content k).length then 0
        else stop + (chunk content k).length) := by
  have length : (chunk content k).length = min 1024 (content.length - 1024 * k) := by simp [chunk]
  have stop_eq := pending.full (by omega)
  have next := unended_append ((List.range k).map (chunk content)) (chunk content k)
  rw [← List.map_singleton, ← List.map_append, ← List.range_succ] at next
  constructor
  · rw [next]
    by_cases line : 10#8 ∈ chunk content k
    · simp [line]
    · unfold bufsiz
      simp only [line, false_or, if_false]
      split_ifs <;> omega
  · intro _
    rw [next]
    by_cases line : 10#8 ∈ chunk content k
    · simp [line]
    · unfold bufsiz
      simp only [line, false_or, if_false]
      split_ifs <;> omega

structure Copying (fd : Int) (content : List Byte) (k : Nat) (i : Fin fopenMax) (t : Streams Disk) : Prop where
  returning : Returning fd content (content.take (1024 * k)) (t.stdioFiles i) t.sys
  buffered : (t.stdioFiles i).bf ≠ .ionbf
  most : k ≤ (content.length + 1023) / 1024
  ended : (t.stdioFiles i).eof = true → content.length ≤ 1024 * k
  stream : LineBuffered (t.stdioFiles stdout)
  delivered : deliveredTo 1 t.sys.calls ++ contents (t.stdioFiles stdout).buffer 0 (t.stdioFiles stdout).stop =
    content.take (1024 * k)
  pending : Pending content k (t.stdioFiles stdout).stop

variable {k : Nat} {i : Fin fopenMax} {t : Streams Disk}

theorem buffObjects_bytes (buff : Nat → Byte) (inside : bytes.length ≤ sizeofBuff) :
    (buffObjects (fun j => bytes.getD j (buff j)) bytes.length inside).bytes = bytes := by
  apply List.ext_getElem
  · simp [buffObjects]
  · intro _ _ within
    simp [buffObjects, within]

theorem Copying.copied {file : File} {s s' : Sys Disk} (copying : Copying fd content k i t)
    (apart : i ≠ stdout) (going : (t.stdioFiles i).eof = false)
    (read : Returned fd content (content.take (1024 * k)) buffRoom (t.stdioFiles i) t.sys bytes.length bytes file s)
    (write : Outputs (t.stdioFiles stdout) bytes s o s') :
    bytes = [] ∧ Copying fd content k i (put (put t i file s) stdout o s') ∧ file.eof = true ∨
      Copying fd content (k + 1) i (put (put t i file s) stdout o s') ∧ file.eof = false := by
  have file_eq : (put (put t i file s) stdout o s').stdioFiles i = file := by simp [put, update_of_ne apart]
  have out_eq : (put (put t i file s) stdout o s').stdioFiles stdout = o := by simp [put]
  obtain ⟨_, readLog, onlyReads⟩ := read.log
  obtain ⟨_, writeLog, onlyWrites, moved⟩ := write.log
  have room : bytes.length ≤ 1024 := read.room
  have eof : file.eof = (bytes.length == 0) := by rw [read.eof, going, Bool.false_or]
  have returning : Returning fd content (content.take (1024 * k) ++ bytes) file s' := by
    have before := read.returning
    refine ⟨before.descriptor, before.valid, before.readable, before.delivered.wrote write.world writeLog onlyWrites, ?_⟩
    rw [before.fetched, writeLog, fetched_append, fetched_writes onlyWrites, List.append_nil]
  have delivered : deliveredTo 1 s'.calls ++ contents o.buffer 0 o.stop = content.take (1024 * k) ++ bytes := by
    rw [writeLog, readLog, deliveredTo_append, deliveredTo_append, deliveredTo_reads onlyReads, List.append_nil,
      List.append_assoc, moved, ← List.append_assoc, copying.delivered]
  have buffered : file.bf ≠ .ionbf := read.bf ▸ copying.buffered
  have startsWith := returning.startsWith
  by_cases nothing : bytes = []
  · subst nothing
    have all := read.whole (by decide) (.inl rfl)
    rw [List.append_nil] at returning delivered all
    have stop : o.stop = (t.stdioFiles stdout).stop := by
      have inside := copying.stream.inside
      rw [write.stop, if_neg (by simpa using inside)]
      rfl
    left
    refine ⟨rfl, ⟨?_, ?_, copying.most, fun _ => ?_, ?_, ?_, ?_⟩, eof⟩
    · rw [file_eq]
      exact returning
    · rwa [file_eq]
    · have length := congrArg List.length all
      rw [List.length_take] at length
      omega
    · exact write.stream
    · exact delivered
    · rw [out_eq, stop]
      exact copying.pending
  · have some : 0 < bytes.length := List.length_pos_iff.mpr nothing
    have more : 1024 * k < content.length := by
      by_contra all
      rw [List.take_of_length_le (by omega)] at startsWith
      have := startsWith.length_le
      rw [List.length_append] at this
      omega
    have piece : bytes = chunk content k := by
      apply chunk_eq startsWith room
      exact fun short => read.whole short (.inr ⟨copying.buffered, by decide⟩)
    have eof : file.eof = false := by
      rw [eof]
      exact beq_false_of_ne (by omega)
    have stop := write.stop
    rw [piece] at stop
    rw [piece, chunk_append] at returning delivered
    right
    refine ⟨⟨?_, ?_, by omega, ?_, ?_, ?_, ?_⟩, eof⟩
    · rw [file_eq]
      exact returning
    · rwa [file_eq]
    · rw [file_eq, eof]
      exact fun ended => nomatch ended
    · exact write.stream
    · exact delivered
    · rw [out_eq, stop]
      exact copying.pending.next more

theorem Copying.catF (copying : Copying fd content k i t) (apart : i ≠ stdout) (sizes : Nat → Nat)
    (buff : Nat → Byte)
    (enough : (content.length + 1023) / 1024 + (if (t.stdioFiles i).eof then 1 else 2) ≤ k + fuel) :
    ∃ t', Kernel.Cat.catF (disk sizes) fuel buff i t = .ok t' ∧
      Copying fd content ((content.length + 1023) / 1024) i t' := by
  induction fuel generalizing k t buff with
  | zero =>
    have := copying.most
    split_ifs at enough <;> omega
  | succ fuel ih =>
    have most := copying.most
    rw [Kernel.Cat.catF]
    by_cases eof : (t.stdioFiles i).eof = true
    · have last : (content.length + 1023) / 1024 = k := by
        have := copying.ended eof
        omega
      rw [feof, if_pos eof, last]
      exact ⟨t, rfl, copying⟩
    · obtain ⟨ret, bytes, file, s, run, read⟩ := copying.returning.fread sizes buffRoom (by decide)
      obtain rfl := read.length
      have inside : bytes.length ≤ sizeofBuff := by simpa [buffRoom] using read.room
      obtain ⟨_, o, s', run', write⟩ := fwrite_outputs sizes s
        (buffObjects (fun j => bytes.getD j (buff j)) bytes.length inside) copying.stream
      rw [buffObjects_bytes] at write
      have out : (put t i file s).stdioFiles stdout = t.stdioFiles stdout := update_of_ne apart.symm ..
      rw [if_neg eof] at enough
      rw [feof, if_neg eof, run, ok_bind]
      dsimp only
      rw [dif_pos inside, out, show (put t i file s).sys = s from rfl, run', ok_bind]
      have after : (put (put t i file s) stdout o s').stdioFiles i = file := by simp [put, update_of_ne apart]
      rcases copying.copied apart (by simpa using eof) read write with ⟨-, next, eof'⟩ | ⟨next, eof'⟩
      · exact ih next _ (by rw [after, if_pos eof']; omega)
      · exact ih next _ (by rw [after, eof', if_neg (by decide)]; omega)

def openedFile (fd : Int) : File := { initialFiles firstFree with fd, valid := true }

def openedFirst (w : Disk) (errno : Int) (path : List Byte) : Streams Disk :=
  ⟨update initialFiles firstFree (openedFile w.next),
    ⟨{ w with rest := update w.rest w.next (w.file path), next := w.next + 1 }, errno, []⟩⟩

theorem fopen_first (sizes : Nat → Nat) {w : Disk} (errno : Int) (path : CString) (free : 0 ≤ w.next) :
    fopen (disk sizes) path ⟨[114#8], by decide, by decide⟩ ⟨initialFiles, ⟨w, errno, []⟩⟩ =
      .ok (some firstFree, openedFirst w errno path.chars) := by
  have found : (List.finRange fopenMax).find? (fun i => (initialFiles i).valid = false) = some firstFree := by decide
  have opened : (disk sizes).sysOpen path.chars 0 ⟨w, errno, []⟩ =
      (w.next, (openedFirst w errno path.chars).sys) := if_neg (by dsimp only [disk]; omega)
  unfold fopen
  rw [found]
  dsimp only [List.getLast?_singleton]
  rw [if_neg (show 114#8 ≠ 43#8 by decide), opened]
  rw [if_neg (by omega)]
  rfl

theorem openedFirst_copying (w : Disk) (errno : Int) (path : List Byte) :
    Copying w.next (w.file path) 0 firstFree (openedFirst w errno path) := by
  have out : (openedFirst w errno path).stdioFiles stdout = initialFiles stdout := by
    simp [openedFirst, update_of_ne (show stdout ≠ firstFree by decide)]
  constructor
  · refine ⟨rfl, rfl, ⟨Nat.le_refl _, Nat.zero_le _, fun _ => rfl, fun _ => rfl⟩, ⟨?_, ?_, ?_⟩, rfl⟩
    · simp [openedFirst]
    · simp [openedFirst, NoneFailed]
    · simp [openedFirst]
  · intro none
    cases none
  · exact Nat.zero_le _
  · intro ended
    cases ended
  · exact ⟨rfl, rfl, rfl, Nat.zero_le _⟩
  · rfl
  · rw [out]
    exact ⟨by simp [unended, initialFiles, stdout], fun _ => rfl⟩

theorem cat_delivers_iff (sizes : Nat → Nat) (buff : Nat → Byte) (w : Disk) (errno : Int) (name path : CString)
    (notStdin : path.chars ≠ [45#8]) (free : 0 ≤ w.next) (other : w.next ≠ 1) {fuel : Nat}
    (enough : (chunks (w.file path.chars)).length + 2 ≤ fuel) :
    ∃ s, start (disk sizes) fuel buff [name, path] ⟨w, errno, []⟩ = .ok (0, s) ∧
      (deliveredTo 1 s.calls = w.file path.chars ↔ (unended (chunks (w.file path.chars))).length % 5 = 0) := by
  have length : (chunks (w.file path.chars)).length = ((w.file path.chars).length + 1023) / 1024 := by simp [chunks]
  have rounds : ((w.file path.chars).length + 1023) / 1024 +
      (if ((openedFirst w errno path.chars).stdioFiles firstFree).eof then 1 else 2) ≤ 0 + fuel := by
    split_ifs <;> omega
  obtain ⟨t, loop, copied⟩ := (openedFirst_copying w errno path.chars).catF (by decide) sizes buff rounds
  have valid := copied.returning.valid
  obtain ⟨_, _, s, close, log⟩ := fclose_eq (disk sizes) t.sys valid copied.returning.readable.inside
  have copy : ∃ f, cat (disk sizes) fuel buff path ⟨initialFiles, ⟨w, errno, []⟩⟩ = .ok (put t firstFree f s) := by
    rw [cat, if_neg notStdin, fopen_first sizes errno path free, ok_bind]
    dsimp only
    rw [loop, ok_bind, close]
    exact ⟨_, rfl⟩
  obtain ⟨_, copy⟩ := copy
  have run : start (disk sizes) fuel buff [name, path] ⟨w, errno, []⟩ = .ok (0, s) := by
    unfold start main
    rw [if_neg (by simp), List.drop_succ_cons, List.drop_zero, List.foldlM_cons, copy]
    rfl
  have all : (w.file path.chars).take (1024 * (((w.file path.chars).length + 1023) / 1024)) = w.file path.chars :=
    List.take_of_length_le (by omega)
  have written : deliveredTo 1 s.calls = deliveredTo 1 t.sys.calls := by
    rw [log, deliveredTo_append, copied.returning.descriptor]
    simp [deliveredTo, other]
  have delivered := copied.delivered
  rw [all] at delivered
  refine ⟨s, run, ?_⟩
  rw [written, chunks, ← copied.pending.empty]
  have held : (contents (t.stdioFiles stdout).buffer 0 (t.stdioFiles stdout).stop).length =
      (t.stdioFiles stdout).stop := length_contents
  rw [← held, List.length_eq_zero_iff]
  constructor
  · intro equal
    rw [equal] at delivered
    simpa using delivered
  · intro nothing
    rw [nothing, List.append_nil] at delivered
    exact delivered

def oneFile (content : List Byte) : Sys Disk := ⟨⟨fun _ => content, fun _ => [], 0, 3⟩, 0, []⟩

def catCommand : List CString := [⟨[99#8, 97#8, 116#8], by decide, by decide⟩, ⟨[97#8], by decide, by decide⟩]

theorem cat_delivers_line :
    ∃ s, start (disk fun _ => 4096) 3 (fun _ => 0) catCommand (oneFile [97#8, 98#8, 10#8]) = .ok (0, s) ∧
      (deliveredTo 1 s.calls = [97#8, 98#8, 10#8] ↔ (unended (chunks [97#8, 98#8, 10#8])).length % 5 = 0) ∧
      (unended (chunks [97#8, 98#8, 10#8])).length % 5 = 0 := by
  obtain ⟨s, run, delivered⟩ := cat_delivers_iff (fun _ => 4096) (fun _ => 0) (oneFile [97#8, 98#8, 10#8]).world 0
    ⟨[99#8, 97#8, 116#8], by decide, by decide⟩ ⟨[97#8], by decide, by decide⟩ (by decide) (by decide) (by decide)
    (show _ ≤ 3 by decide)
  exact ⟨s, run, delivered, by decide⟩

theorem cat_loses_last_line :
    (start (disk fun _ => 4096) 3 (fun _ => 0) catCommand (oneFile [97#8, 98#8, 99#8])).toOption.map
      (fun result => (result.1, deliveredTo 1 result.2.calls)) = some (0, []) := rfl

end Petix.Proof.Stdio
