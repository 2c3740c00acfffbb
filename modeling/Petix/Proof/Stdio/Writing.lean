import Mathlib.Data.List.Induction
import Petix.Library.Result
import Petix.Spec.Stdio

namespace Petix.Proof.Stdio
open Library Kernel.Stdio Spec.Stdio

variable {σ : Type} {os : Os σ} {f : File} {s : Sys σ} {lo mid hi : Nat}
  {buffer buffer' : Nat → Byte}
variable {offset : Nat} {bytes : List Byte} {fd : Int}

@[simp] theorem length_contents : (contents buffer lo hi).length = hi - lo := by simp [contents]

@[simp] theorem contents_self : contents buffer lo lo = [] := by simp [contents]

theorem contents_congr (agree : ∀ i, lo ≤ i → i < hi → buffer' i = buffer i) :
    contents buffer' lo hi = contents buffer lo hi := by
  apply List.map_congr_left
  intro _ within
  have := List.mem_range.mp within
  exact agree _ (by omega) (by omega)

theorem contents_append (low : lo ≤ mid) (high : mid ≤ hi) :
    contents buffer lo mid ++ contents buffer mid hi = contents buffer lo hi := by
  unfold contents
  rw [show hi - lo = mid - lo + (hi - mid) by omega, List.range_add, List.map_append, List.map_map]
  congr 1
  apply List.map_congr_left
  intro _ _
  rw [Function.comp_apply, ← Nat.add_assoc, Nat.add_sub_cancel' low]

theorem slice_eq {count : Nat} (inside : offset + count ≤ bufsiz) :
    f.slice offset count = .ok (contents f.buffer offset (offset + count)) := by
  rw [File.slice, if_pos inside, contents, Nat.add_sub_cancel_left]

structure Stored (buffer : Nat → Byte) (offset : Nat) (bytes : List Byte) (buffer' : Nat → Byte) : Prop where
  new : contents buffer' offset (offset + bytes.length) = bytes
  old : ∀ lo, contents buffer' lo offset = contents buffer lo offset

theorem Stored.contents_eq (stored : Stored buffer offset bytes buffer')
    (low : lo ≤ offset) : contents buffer' lo (offset + bytes.length) = contents buffer lo offset ++ bytes := by
  rw [← contents_append low (Nat.le_add_right ..), stored.old, stored.new]

theorem store_eq (inside : offset + bytes.length ≤ bufsiz) :
    ∃ buffer, f.store offset bytes = .ok { f with buffer } ∧ Stored f.buffer offset bytes buffer := by
  refine ⟨_, if_pos inside, ?_, ?_⟩
  · apply List.ext_getElem
    · simp
    · intro i _ within
      simp [contents, within]
  · intro _
    apply contents_congr
    intro _ _ _
    exact if_neg (by omega)

@[simp] theorem sysWrite_calls (fd : Int) (bytes : List Byte) :
    (os.sysWrite fd bytes s).2.calls = s.calls ++ [.write fd bytes] := by
  unfold Os.sysWrite rawSyscallErrno
  dsimp only
  split_ifs <;> rfl

theorem sysWrite_result (accepts : AcceptsAll os) (fits : bytes.length < 2 ^ 32) :
    (os.sysWrite fd bytes s).1 = if bytes.length < 2 ^ 31 then (bytes.length : Int) else -1 := by
  unfold Os.sysWrite rawSyscallErrno
  dsimp only
  rw [accepts]
  unfold signed32
  split_ifs <;> omega

theorem sysWrite_accepted (accepts : AcceptsAll os) (short : bytes.length < 2 ^ 31) :
    (os.sysWrite fd bytes s).1 ≠ -1 := by
  rw [sysWrite_result accepts (by omega), if_pos short]
  omega

theorem objects_total (ptr : Objects) : ptr.size * ptr.nmemb % 2 ^ 32 = ptr.bytes.length := by
  have fits := ptr.fits
  rw [ptr.length, Nat.mod_eq_of_lt]
  unfold sizeofFile at fits
  omega

inductive Wrote (os : Os σ) (f : File) (data : List Byte) (s : Sys σ) : File → List Call → Prop
  | refused (err : Int) : f.valid = false → Wrote os f data s { f with err } []
  | unbuffered (err : Int) : f.valid = true → f.bf = .ionbf → Wrote os f data s { f with err } [.write f.fd data]
  | buffered {buffer : Nat → Byte} : f.valid = true → f.bf ≠ .ionbf → ¬(f.bf = .iolbf ∧ 10#8 ∈ data) →
      f.stop + data.length ≤ bufsiz → Stored f.buffer f.stop data buffer →
      Wrote os f data s { f with stop := f.stop + data.length, buffer } []
  | failed (err : Int) : f.valid = true → f.bf ≠ .ionbf → (os.sysWrite f.fd (contents f.buffer 0 f.stop) s).1 = -1 →
      Wrote os f data s { f with err } [.write f.fd (contents f.buffer 0 f.stop)]
  | flushed (err : Int) : f.valid = true → f.bf ≠ .ionbf →
      (f.bf = .iolbf ∧ 10#8 ∈ data ∨ bufsiz < f.stop + data.length) →
      Wrote os f data s { f with err, stop := 0 } [.write f.fd (contents f.buffer 0 f.stop), .write f.fd data]

theorem fwrite_wrote (os : Os σ) (s : Sys σ) (ptr : Objects) (inside : f.stop ≤ bufsiz) :
    ∃ ret f' s' calls, fwrite os ptr f s = .ok (ret, f', s') ∧ s'.calls = s.calls ++ calls ∧
      Wrote os f ptr.bytes s f' calls := by
  unfold fwrite
  dsimp only
  rw [objects_total, List.take_length]
  by_cases closed : f.valid = false
  · exact ⟨_, _, _, [], if_pos closed, (List.append_nil _).symm, .refused _ closed⟩
  have valid : f.valid = true := by simpa using closed
  by_cases none : f.bf = .ionbf
  · split_ifs
    · exact ⟨_, _, _, _, rfl, sysWrite_calls .., .unbuffered _ valid none⟩
    · exact ⟨_, _, _, _, rfl, sysWrite_calls .., .unbuffered f.err valid none⟩
  · have fits := ptr.fits
    have length := ptr.length
    have small : (ptr.bytes.length + f.stop) % 2 ^ 32 = ptr.bytes.length + f.stop := by
      unfold sizeofFile at fits
      exact Nat.mod_eq_of_lt (by omega)
    split_ifs with keep
    · have room : f.stop + ptr.bytes.length ≤ bufsiz := by omega
      obtain ⟨_, run, stored⟩ := store_eq room
      rw [run]
      exact ⟨_, _, _, [], rfl, (List.append_nil _).symm, .buffered valid none keep.2 room stored⟩
    · have due : f.bf = .iolbf ∧ 10#8 ∈ ptr.bytes ∨ bufsiz < f.stop + ptr.bytes.length := by
        by_cases line : f.bf = .iolbf ∧ 10#8 ∈ ptr.bytes
        · exact .inl line
        · exact .inr (by_contra fun room => keep ⟨by omega, line⟩)
      rw [slice_eq (by omega), Nat.zero_add, Result.ok_bind]
      split_ifs with first second
      · exact ⟨_, _, _, _, rfl, sysWrite_calls .., .failed _ valid none first⟩
      · exact ⟨_, _, _, _, rfl, by simp, .flushed _ valid none due⟩
      · exact ⟨_, _, _, _, rfl, by simp, .flushed f.err valid none due⟩

theorem fflush_eq (valid : f.valid = true) (inside : f.stop ≤ bufsiz) : fflush os f s =
      .ok (0, { f with stop := 0 }, (os.sysWrite f.fd (contents f.buffer 0 f.stop) s).2) := by
  rw [fflush, if_neg (by simp [valid]), slice_eq (by omega), Nat.zero_add]
  rfl

@[simp] theorem pieces_append (calls more : List Call) : pieces (calls ++ more) = pieces calls ++ pieces more :=
  List.filterMap_append

@[simp] theorem handed_append (calls more : List Call) : handed (calls ++ more) = handed calls ++ handed more := by
  simp [handed]

@[simp] theorem handed_nil : handed [] = [] := rfl

@[simp] theorem handed_cons_write (fd : Int) (bytes : List Byte) (calls : List Call) :
    handed (.write fd bytes :: calls) = bytes ++ handed calls := rfl

structure Accounted (f₀ : File) (given : List Byte) (f : File) (s : Sys σ) : Prop where
  valid : f.valid = f₀.valid
  bf : f.bf = f₀.bf
  inside : f.stop ≤ bufsiz
  unbuffered : f.bf = .ionbf → f.stop = 0
  all : handed s.calls ++ contents f.buffer 0 f.stop = if f₀.valid then given else []

variable {f₀ f' : File} {given : List Byte} {s' : Sys σ}

theorem Accounted.empty (holds : Accounted f₀ given f s) (closed : f.valid = false) : f.stop = 0 := by
  have all := holds.all
  rw [← holds.valid, closed] at all
  simpa using congrArg List.length (List.append_eq_nil_iff.mp all).2

theorem Accounted.wrote (accepts : AcceptsAll os) (holds : Accounted f₀ given f s) {data : List Byte}
    {calls : List Call} (log : s'.calls = s.calls ++ calls) (wrote : Wrote os f data s f' calls) :
    Accounted f₀ (given ++ data) f' s' ∧ (f₀.bf = .iolbf ∧ 10#8 ∈ data → f'.stop = 0) := by
  have all := holds.all
  cases wrote with
  | refused err closed =>
    refine ⟨⟨holds.valid, holds.bf, holds.inside, holds.unbuffered, ?_⟩, fun _ => holds.empty closed⟩
    rw [← holds.valid, closed] at all ⊢
    simpa [log] using all
  | unbuffered err valid none =>
    have stop := holds.unbuffered none
    refine ⟨⟨holds.valid, holds.bf, holds.inside, holds.unbuffered, ?_⟩, fun _ => stop⟩
    rw [← holds.valid, valid, stop] at all ⊢
    simpa [log, stop] using congrArg (· ++ data) all
  | buffered valid buffering noLine room stored =>
    refine ⟨⟨holds.valid, holds.bf, room, fun none => absurd none buffering, ?_⟩, fun line => ?_⟩
    · rw [← holds.valid, valid] at all ⊢
      rw [log, List.append_nil, stored.contents_eq f.stop.zero_le, ← List.append_assoc, all]
      rfl
    · exact absurd (holds.bf ▸ line) noLine
  | failed err valid _ refused =>
    have inside := holds.inside
    refine absurd refused (sysWrite_accepted accepts ?_)
    rw [length_contents]
    unfold bufsiz at inside
    omega
  | flushed err valid buffering =>
    refine ⟨⟨holds.valid, holds.bf, Nat.zero_le _, fun _ => rfl, ?_⟩, fun _ => rfl⟩
    rw [← holds.valid, valid] at all ⊢
    simpa [log] using congrArg (· ++ data) all

theorem Accounted.fwrite (accepts : AcceptsAll os) (holds : Accounted f₀ given f s) (ptr : Objects) :
    ∃ ret f' s', Kernel.Stdio.fwrite os ptr f s = .ok (ret, f', s') ∧ Accounted f₀ (given ++ ptr.bytes) f' s' ∧
      (f₀.bf = .iolbf ∧ 10#8 ∈ ptr.bytes → f'.stop = 0) := by
  obtain ⟨ret, f', s', _, run, log, wrote⟩ := fwrite_wrote os s ptr holds.inside
  exact ⟨ret, f', s', run, holds.wrote accepts log wrote⟩

theorem Accounted.fflush (os : Os σ) (holds : Accounted f₀ given f s) :
    ∃ ret f' s', Kernel.Stdio.fflush os f s = .ok (ret, f', s') ∧ Accounted f₀ given f' s' ∧ f'.stop = 0 := by
  have all := holds.all
  by_cases closed : f.valid = false
  · refine ⟨_, _, _, if_pos closed, ?_, holds.empty closed⟩
    exact ⟨holds.valid, holds.bf, holds.inside, holds.unbuffered, all⟩
  · have valid : f.valid = true := by simpa using closed
    refine ⟨_, _, _, fflush_eq valid holds.inside, ?_, rfl⟩
    exact ⟨holds.valid, holds.bf, Nat.zero_le _, fun _ => rfl, by simpa using all⟩

theorem Accounted.perform (accepts : AcceptsAll os) (holds : Accounted f₀ given f s) (call : WriteCall) :
    ∃ f' s', call.perform os (f, s) = .ok (f', s') ∧ Accounted f₀ (given ++ call.data) f' s' ∧
      (call.Flushes f₀ → f'.stop = 0) := by
  cases call with
  | fwrite ptr =>
    obtain ⟨ret, f', s', run, after, line⟩ := holds.fwrite accepts ptr
    refine ⟨f', s', ?_, after, ?_⟩
    · simp [WriteCall.perform, run]
    · simpa [WriteCall.Flushes, WriteCall.data] using line
  | fputc c =>
    obtain ⟨ret, f', s', run, after, line⟩ := holds.fwrite accepts (charObject c)
    refine ⟨f', s', ?_, after, ?_⟩
    · simp [WriteCall.perform, Kernel.Stdio.fputc, run]
    · simpa [WriteCall.Flushes, WriteCall.data, charObject] using line
  | fputs str =>
    obtain ⟨ret, f', s', run, after, line⟩ := holds.fwrite accepts str.objects
    refine ⟨f', s', ?_, after, ?_⟩
    · simp [WriteCall.perform, Kernel.Stdio.fputs, run]
    · simpa [WriteCall.Flushes, WriteCall.data, CString.objects] using line
  | fflush =>
    obtain ⟨_, f', s', run, after, empty⟩ := holds.fflush os
    refine ⟨f', s', ?_, ?_, fun _ => empty⟩
    · simp [WriteCall.perform, run]
    · simpa [WriteCall.data] using after

theorem Accounted.performAll (accepts : AcceptsAll os) (holds : Accounted f₀ given f s) (calls : List WriteCall) :
    ∃ f' s', Spec.Stdio.performAll os calls (f, s) = .ok (f', s') ∧
      Accounted f₀ (given ++ calls.flatMap WriteCall.data) f' s' ∧
      ∀ call, calls.getLast? = some call → call.Flushes f₀ → f'.stop = 0 := by
  -- the last call decides what is left in the buffer
  induction calls using List.reverseRecOn with
  | nil => exact ⟨f, s, rfl, by simpa using holds, by simp⟩
  | append_singleton calls call ih =>
    obtain ⟨_, _, run, middle, -⟩ := ih
    obtain ⟨f'', s'', last, after, flushed⟩ := middle.perform accepts call
    refine ⟨f'', s'', ?_, by simpa using after, by simpa using flushed⟩
    unfold Spec.Stdio.performAll at run ⊢
    rw [List.foldlM_append, run]
    simpa using last

theorem written_then_buffered (os : Os σ) (accepts : AcceptsAll os) (f : File) (stop : f.stop = 0)
    (calls : List WriteCall) (w : σ) (errno : Int) :
    ∃ f' s', Spec.Stdio.performAll os calls (f, ⟨w, errno, []⟩) = .ok (f', s') ∧
      handed s'.calls ++ contents f'.buffer 0 f'.stop = (if f.valid then calls.flatMap WriteCall.data else []) ∧
      f'.stop ≤ bufsiz ∧ ∀ call, calls.getLast? = some call → call.Flushes f → f'.stop = 0 := by
  have fresh : Accounted f [] f (⟨w, errno, []⟩ : Sys σ) := by
    constructor
    · rfl
    · rfl
    · simp [stop]
    · simp [stop]
    · simp [stop]
  obtain ⟨f', s', run, after, last⟩ := fresh.performAll accepts calls
  exact ⟨f', s', run, after.all, after.inside, last⟩

theorem written_then_buffered_line : ∃ f' s', Spec.Stdio.performAll (disk fun _ => 1)
        [.fputc 104, .fflush, .fputs ⟨[105#8, 10#8], by decide, by decide⟩, .fputc 33]
        (initialFiles stdout, ⟨⟨fun _ => [], fun _ => [], 0, 3⟩, 0, []⟩) = .ok (f', s') ∧
      handed s'.calls ++ contents f'.buffer 0 f'.stop = [104#8, 105#8, 10#8, 33#8] ∧ f'.stop ≤ bufsiz ∧
      ∀ call, some (WriteCall.fputc 33) = some call → call.Flushes (initialFiles stdout) → f'.stop = 0 :=
  written_then_buffered (disk fun _ => 1) (fun _ _ _ => rfl) (initialFiles stdout) rfl _ _ _

theorem fwrite_returns_length_iff (os : Os σ) (accepts : AcceptsAll os) (ptr : Objects) (f : File)
    (valid : f.valid = true) (inside : f.stop ≤ bufsiz) (s : Sys σ) :
    (∃ f' s', fwrite os ptr f s = .ok (ptr.size * ptr.nmemb, f', s')) ↔
      f.bf ≠ .ionbf ∧ ptr.size * ptr.nmemb + f.stop ≤ bufsiz ∧ ¬(f.bf = .iolbf ∧ 10#8 ∈ ptr.bytes) ∨
      ptr.size * ptr.nmemb < 2 ^ 31 ∧ (f.bf = .ionbf ∨ f.stop = 0) := by
  have fits := ptr.fits
  have length := ptr.length
  unfold bufsiz at inside
  unfold sizeofFile bufsiz at fits
  have small : (ptr.bytes.length + f.stop) % 2 ^ 32 = ptr.bytes.length + f.stop := Nat.mod_eq_of_lt (by omega)
  have second : ∀ s, (os.sysWrite f.fd ptr.bytes s).1 = _ := fun s => sysWrite_result accepts (by omega)
  rw [fwrite, if_neg (by simp [valid])]
  dsimp only
  rw [objects_total, List.take_length, small, ← length]
  by_cases none : f.bf = .ionbf
  · rw [if_pos none, second]
    by_cases short : ptr.bytes.length < 2147483648
    · simp [none, short, Nat.not_le.mpr short, sizeT]
      omega
    · simp [none, short, Nat.not_lt.mp short]
      omega
  rw [if_neg none]
  by_cases keep : ptr.bytes.length + f.stop ≤ bufsiz ∧ ¬(f.bf = .iolbf ∧ 10#8 ∈ ptr.bytes)
  · obtain ⟨buffer, run, -⟩ := store_eq (Nat.add_comm .. ▸ keep.1)
    rw [if_pos keep, run]
    simp [none, keep]
  · have first : (os.sysWrite f.fd (contents f.buffer 0 f.stop) s).1 = f.stop := by
      rw [sysWrite_result accepts, length_contents, Nat.sub_zero, if_pos (by omega)]
      rw [length_contents]
      omega
    rw [if_neg keep, slice_eq (by simpa [bufsiz] using inside), Nat.zero_add, Result.ok_bind, if_neg (by omega)]
    rw [first, second, or_iff_right fun kept => keep kept.2]
    by_cases short : ptr.bytes.length < 2147483648
    · simp [none, short, Nat.not_le.mpr short, sizeT, pure, Except.pure]
      omega
    · simp [short, Nat.not_lt.mp short, sizeT, pure, Except.pure]
      omega

theorem fwrite_counts_the_buffer : (fwrite (disk fun _ => 1) ⟨⟨1, 2, by decide⟩, [97#8, 10#8], rfl⟩
      { initialFiles stdout with stop := 3 } ⟨⟨fun _ => [], fun _ => [], 0, 3⟩, 0, []⟩).toOption.map Prod.fst =
    some 5 := by
  decide

theorem fwrite_returns_length_line : ∃ f' s', fwrite (disk fun _ => 1) (charObject 10) (initialFiles stdout)
    ⟨⟨fun _ => [], fun _ => [], 0, 3⟩, 0, []⟩ = .ok (1 * 1, f', s') := by
  have empty := fwrite_returns_length_iff (disk fun _ => 1) (fun _ _ _ => rfl) (charObject 10) (initialFiles stdout)
    rfl (Nat.zero_le _)
  exact (empty _).mpr (.inr ⟨by simp [charObject], .inr rfl⟩)

end Petix.Proof.Stdio
