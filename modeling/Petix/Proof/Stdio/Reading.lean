import Petix.Proof.Stdio.Writing

namespace Petix.Proof.Stdio
open Library Library.Result Kernel.Stdio Spec.Stdio

variable {σ : Type} {os : Os σ} {f : File} {s : Sys σ} {r out : Reading σ} {calls : List Call}
variable {f' : File} {bytes : List Byte} {inv : Sys σ → Prop} {s' : Sys σ}

@[simp] theorem fetched_append (calls more : List Call) : fetched (calls ++ more) = fetched calls ++ fetched more :=
  List.flatMap_append

@[simp] theorem fetched_nil : fetched [] = [] := rfl

@[simp] theorem fetched_read (fd : Int) (bytes : List Byte) : fetched [.read fd (some bytes)] = bytes :=
  List.append_nil bytes

structure Fetched (s : Sys σ) (fd : Int) (count : Nat) (bytes : List Byte) (s' : Sys σ) : Prop where
  log : s'.calls = s.calls ++ [.read fd (some bytes)]
  count : bytes.length ≤ count
  ssize : bytes.length < 2 ^ 31

theorem sysRead_cases (os : Os σ) (fd : Int) (count : Nat) (s : Sys σ) :
    (∃ s', os.sysRead fd count s = (-1, [], s') ∧ s'.calls = s.calls ++ [.read fd none]) ∨
      ∃ bytes s', os.sysRead fd count s = (bytes.length, bytes, s') ∧ Fetched s fd count bytes s' := by
  unfold Os.sysRead
  rcases answer : os.read fd count s.world with ⟨result, _⟩
  cases result with
  | error errno => exact .inl ⟨_, rfl, rfl⟩
  | ok bytes =>
    have le := os.read_le (congrArg Prod.fst answer)
    exact .inr ⟨_, _, rfl, rfl, le.1, le.2⟩

def NoneFailed (calls : List Call) : Prop := ∀ fd, .read fd none ∉ calls

structure Carried (r out : Reading σ) (calls : List Call) : Prop where
  log : out.sys.calls = r.sys.calls ++ calls
  reads : pieces calls = []
  same : ∃ start stop buffer, out.stream = { r.stream with start, stop, buffer }
  ordered : out.stream.start ≤ out.stream.stop
  inside : out.stream.stop ≤ bufsiz
  le : out.total ≤ r.total
  failed : NoneFailed calls → out.failed = r.failed
  total : NoneFailed calls → out.total + out.stored.length = r.total + r.stored.length
  bytes : NoneFailed calls → out.stored ++ contents out.stream.buffer out.stream.start out.stream.stop =
    r.stored ++ contents r.stream.buffer r.stream.start r.stream.stop ++ fetched calls

theorem Carried.trans {middle : Reading σ} {more : List Call} (first : Carried r middle calls)
    (second : Carried middle out more) : Carried r out (calls ++ more) := by
  have split : NoneFailed (calls ++ more) → NoneFailed calls ∧ NoneFailed more := by
    intro none
    exact ⟨fun fd here => none fd (List.mem_append_left more here),
      fun fd here => none fd (List.mem_append_right calls here)⟩
  constructor
  · rw [second.log, first.log, List.append_assoc]
  · rw [pieces_append, first.reads, second.reads, List.append_nil]
  · obtain ⟨_, _, _, same⟩ := first.same
    obtain ⟨start, stop, buffer, same'⟩ := second.same
    exact ⟨start, stop, buffer, by rw [same', same]⟩
  · exact second.ordered
  · exact second.inside
  · exact Nat.le_trans second.le first.le
  · intro none
    rw [second.failed (split none).2, first.failed (split none).1]
  · intro none
    rw [second.total (split none).2, first.total (split none).1]
  · intro none
    rw [second.bytes (split none).2, first.bytes (split none).1, fetched_append, List.append_assoc]

theorem drain_carried (ordered : r.stream.start ≤ r.stream.stop) (inside : r.stream.stop ≤ bufsiz) :
    ∃ out, r.drain = .ok out ∧ Carried r out [] ∧
      out.total = r.total - (r.stream.stop - r.stream.start) ∧ (0 < out.total → out.stream.start = out.stream.stop) ∧
      (out.total = 0 → 0 < r.total → 0 < out.stream.start) := by
  have small : r.stream.stop < 2 ^ 32 := by
    unfold bufsiz at inside
    omega
  unfold Reading.drain
  rw [sub32_eq ordered small]
  generalize count : min (r.stream.stop - r.stream.start) r.total = n
  dsimp only
  rw [slice_eq (by omega)]
  refine ⟨_, rfl, ⟨by simp, rfl, ⟨_, _, _, rfl⟩, ?_, inside, Nat.sub_le .., fun _ => rfl, ?_, ?_⟩, ?_, ?_, ?_⟩
  · dsimp only
    omega
  · intro _
    simp only [List.length_append, length_contents]
    omega
  · intro _
    simp only [fetched_nil, List.append_nil, List.append_assoc]
    rw [contents_append (by omega) (by omega)]
  · dsimp only
    omega
  · dsimp only
    omega
  · dsimp only
    omega

theorem bypass_carried (os : Os σ) (empty : r.stream.start = r.stream.stop) (inside : r.stream.stop ≤ bufsiz)
    (some : 0 < r.total) (word : r.total < 2 ^ 32) :
    ∃ call, Carried r (r.bypass os) [call] ∧ (r.bypass os).stream = r.stream ∧
      (NoneFailed [call] → (r.bypass os).total = r.total → call = .read r.stream.fd (.some [])) := by
  unfold Reading.bypass
  rcases sysRead_cases os r.stream.fd r.total r.sys with ⟨s', run, log⟩ | ⟨bytes, _, run, got⟩
  · rw [run]
    refine ⟨.read r.stream.fd none, ⟨log, rfl, ⟨_, _, _, rfl⟩, Nat.le_of_eq empty, inside, Nat.le_refl _, ?_, ?_, ?_⟩,
      rfl, ?_⟩
    all_goals exact fun none => absurd (.head _) (none r.stream.fd)
  · have count := got.count
    have left : sizeT (r.total - bytes.length) = r.total - bytes.length := by
      unfold sizeT
      omega
    rw [run]
    dsimp only
    rw [if_neg (by omega), left]
    refine ⟨.read r.stream.fd (.some bytes), ⟨got.log, rfl, ⟨_, _, _, rfl⟩, Nat.le_of_eq empty, inside, Nat.sub_le ..,
      fun _ => rfl, ?_, ?_⟩, rfl, ?_⟩
    · intro _
      simp only [List.length_append]
      omega
    · intro _
      simp [empty]
    · intro _ same
      obtain rfl : bytes = [] := List.eq_nil_of_length_eq_zero (by dsimp only at same; omega)
      rfl

inductive Refilled (r : Reading σ) : Int → Reading σ → List Call → Prop
  | failed {out : Reading σ} : Refilled r (-1) out [.read r.stream.fd none]
  | ended {out : Reading σ} : out.stream.start = 0 → out.stream.stop = 0 →
      Refilled r 0 out [.read r.stream.fd (some [])]
  | filled {out : Reading σ} {bytes : List Byte} {n : Nat} : out.stream.start = 0 → out.stream.stop = n → 0 < n →
      Refilled r n out [.read r.stream.fd (some bytes)]

theorem refill_carried (os : Os σ) (empty : r.stream.start = r.stream.stop) (inside : r.stream.stop ≤ bufsiz) :
    ∃ n out calls, r.refill os = .ok (n, out) ∧ Carried r out calls ∧ out.total = r.total ∧ Refilled r n out calls := by
  unfold Reading.refill
  dsimp only
  rcases sysRead_cases os r.stream.fd bufsiz r.sys with ⟨s', run, log⟩ | ⟨bytes, _, run, got⟩
  · rw [run]
    refine ⟨_, _, _, rfl, ⟨log, rfl, ⟨_, _, _, rfl⟩, Nat.zero_le _, inside, Nat.le_refl _, ?_, ?_, ?_⟩, rfl, .failed⟩
    all_goals exact fun none => absurd (.head _) (none r.stream.fd)
  · have length := got.ssize
    have word : sizeT bytes.length = bytes.length := by
      unfold sizeT
      omega
    have room : 0 + bytes.length ≤ bufsiz := (Nat.zero_add _).symm ▸ got.count
    obtain ⟨_, store, stored⟩ := store_eq (f := { r.stream with start := 0 }) room
    have new := stored.new
    rw [Nat.zero_add] at new
    rw [run]
    rw [if_neg (by omega), store, word]
    refine ⟨_, _, _, rfl, ⟨got.log, rfl, ⟨_, _, _, rfl⟩, Nat.zero_le _, got.count, Nat.le_refl _, fun _ => rfl,
      fun _ => rfl, ?_⟩, rfl, ?_⟩
    · intro _
      simp [empty, new]
    · by_cases nothing : bytes = []
      · subst nothing
        exact .ended rfl rfl
      · exact .filled rfl rfl (List.length_pos_iff.mpr nothing)

structure Ended (r out : Reading σ) (calls : List Call) : Prop where
  clear : out.stream.start = 0 → out.stream.stop = 0
  drained : 0 < out.total → out.stream.start = out.stream.stop
  atEnd : 0 < out.total → (out.total = r.total ∨ r.total ≤ bufsiz) → calls.getLast? = some (.read r.stream.fd (some []))

theorem freadLoop_carried (os : Os σ) (fuel : Nat) (ordered : r.stream.start ≤ r.stream.stop)
    (inside : r.stream.stop ≤ bufsiz) (word : r.total < 2 ^ 32)
    (clear : r.total = 0 → r.stream.start = 0 → r.stream.stop = 0) (positive : 0 < fuel)
    (enough : 0 < r.total → r.total + (if r.stream.start = r.stream.stop then 1 else 0) < fuel) :
    ∃ out calls, freadLoop os fuel r = .ok out ∧ Carried r out calls ∧ (NoneFailed calls → Ended r out calls) := by
  induction fuel generalizing r with
  | zero => omega
  | succ fuel ih =>
    rw [freadLoop]
    by_cases done : r.total = 0
    · refine ⟨r, [], if_pos done, ?_, fun _ => ⟨clear done, by omega, by omega⟩⟩
      exact ⟨by simp, rfl, ⟨_, _, _, rfl⟩, ordered, inside, Nat.le_refl _, fun _ => rfl, fun _ => rfl, by simp⟩
    obtain ⟨r₁, drain, carried₁, _, empty₁, _⟩ := drain_carried ordered inside
    rw [if_neg done, drain, ok_bind]
    obtain ⟨_, _, _, same₁⟩ := carried₁.same
    have fd₁ : r₁.stream.fd = r.stream.fd := by rw [same₁]
    by_cases large : bufsiz < r₁.total
    · have empty := empty₁ (by omega)
      obtain ⟨call, carried, stream, last⟩ := bypass_carried os empty carried₁.inside (by omega) (by omega)
      refine ⟨_, _, if_pos large, carried₁.trans carried, fun none => ⟨fun zero => ?_, fun _ => ?_, fun _ equal => ?_⟩⟩
      · rw [stream] at zero ⊢
        omega
      · rw [stream, empty]
      · have := carried.le
        rw [List.nil_append, List.getLast?_singleton, last none (by omega), fd₁]
    rw [if_neg large]
    by_cases more : 0 < r₁.total
    · rw [if_pos more]
      obtain ⟨_, r₂, _, refill, carried₂, _, refilled⟩ := refill_carried os (empty₁ more) carried₁.inside
      rw [refill, ok_bind]
      cases refilled with
      | failed =>
        refine ⟨_, _, if_pos (.inl rfl), carried₁.trans carried₂, fun none => ?_⟩
        exact absurd (.head _) (none r₁.stream.fd)
      | ended start stop =>
        refine ⟨_, _, if_pos (.inr rfl), carried₁.trans carried₂, fun _ => ⟨fun _ => stop, ?_, ?_⟩⟩
        · rw [start, stop]
          exact fun _ => rfl
        · rw [fd₁]
          exact fun _ _ => rfl
      | filled start stop pos =>
        -- the buffer is not empty, so the next step moves a byte
        have shorter : 0 < r₂.total → r₂.total + (if r₂.stream.start = r₂.stream.stop then 1 else 0) < fuel := by
          rw [if_neg (by omega)]
          split_ifs at enough <;> omega
        obtain ⟨out, calls, run, carried, ended⟩ :=
          ih carried₂.ordered carried₂.inside (by omega) (by omega) (by omega) shorter
        refine ⟨out, _, (if_neg (by omega)).trans run, (carried₁.trans carried₂).trans carried, fun none => ?_⟩
        have ended := ended fun fd here => none fd (List.mem_append_right _ here)
        refine ⟨ended.clear, ended.drained, fun left equal => ?_⟩
        have last := ended.atEnd left (by omega)
        obtain ⟨_, _, _, same₂⟩ := carried₂.same
        rw [List.getLast?_append, last, same₂, ← fd₁]
        rfl
    · obtain ⟨out, _, run, carried, ended⟩ :=
        ih carried₁.ordered carried₁.inside (by omega) (by omega) (by split_ifs at enough <;> omega) (by omega)
      refine ⟨out, _, (if_neg more).trans run, carried₁.trans carried, fun none => ?_⟩
      have ended := ended none
      refine ⟨ended.clear, ended.drained, fun left _ => ?_⟩
      have le := carried.le
      omega

structure Readable (f : File) : Prop where
  ordered : f.start ≤ f.stop
  inside : f.stop ≤ bufsiz
  clear : f.start = 0 → f.stop = 0
  unbuffered : f.bf = .ionbf → f.stop = 0

structure Freads (f : File) (ptr : Room) (ret : Nat) (bytes : List Byte) (f' : File) (calls : List Call) : Prop where
  length : ret = bytes.length
  room : ret ≤ ptr.size * ptr.nmemb
  moved : bytes ++ contents f'.buffer f'.start f'.stop = contents f.buffer f.start f.stop ++ fetched calls
  readable : Readable f'
  eof : f'.eof = (f.eof || ret == 0)
  atEnd : ret < ptr.size * ptr.nmemb → (ret = 0 ∨ f.bf ≠ .ionbf ∧ ptr.size * ptr.nmemb ≤ bufsiz) →
    f'.start = f'.stop ∧ calls.getLast? = some (.read f.fd (some []))

theorem room_total (ptr : Room) : ptr.size * ptr.nmemb % 2 ^ 32 = ptr.size * ptr.nmemb := by
  have fits := ptr.fits
  unfold sizeofFile at fits
  exact Nat.mod_eq_of_lt (by omega)

theorem freadResult_same (ret : Int) (bytes : List Byte) (f : File) (s : Sys σ) :
    ∃ n eof err, freadResult ret bytes f s = (n, bytes, { f with eof, err }, s) := by
  unfold freadResult
  split_ifs
  · exact ⟨_, _, _, rfl⟩
  · exact ⟨_, _, _, rfl⟩
  · exact ⟨_, f.eof, f.err, rfl⟩

theorem freadResult_length (bytes : List Byte) (f : File) (s : Sys σ) (short : bytes.length + sizeofFile ≤ 2 ^ 32) :
    freadResult (signed32 bytes.length) bytes f s = (bytes.length, bytes, { f with
        eof := f.eof || bytes.length == 0
        err := if bytes.length = 0 then 0 else f.err }, s) := by
  have word : sizeT (signed32 bytes.length) = bytes.length := by
    unfold sizeT signed32
    unfold sizeofFile at short
    omega
  have positive : signed32 bytes.length ≠ -1 := by
    unfold signed32
    unfold sizeofFile at short
    omega
  have zero : signed32 bytes.length = 0 ↔ bytes.length = 0 := by
    unfold signed32
    unfold sizeofFile at short
    omega
  unfold freadResult
  rw [word]
  by_cases none : bytes.length = 0
  · rw [if_pos (zero.mpr none)]
    simp [none]
  · have some : (bytes.length == 0) = false := by simpa using none
    rw [if_neg (mt zero.mp none), if_neg positive, if_neg none, some, Bool.or_false]

theorem fread_refused (closed : f.valid = false) (ptr : Room) :
    fread os ptr f s = .ok (sizeT (-1), [], { f with err := ebadf }, s) := if_pos closed

theorem fread_freads (os : Os σ) (s : Sys σ) (ptr : Room) (valid : f.valid = true) (readable : Readable f) :
    ∃ ret bytes f' s' calls, fread os ptr f s = .ok (ret, bytes, f', s') ∧ s'.calls = s.calls ++ calls ∧
      pieces calls = [] ∧ f'.valid = true ∧ f'.bf = f.bf ∧ f'.fd = f.fd ∧
      (NoneFailed calls → Freads f ptr ret bytes f' calls) := by
  have fits := ptr.fits
  unfold fread
  dsimp only
  rw [if_neg (by simp [valid]), room_total]
  by_cases none : f.bf = .ionbf
  · rw [if_pos none]
    have empty : f.start = f.stop := by
      have := readable.ordered
      have := readable.unbuffered none
      omega
    rcases sysRead_cases os f.fd (ptr.size * ptr.nmemb) s with ⟨s', run, log⟩ | ⟨bytes, _, run, got⟩
    · rw [run]
      refine ⟨_, _, _, _, _, rfl, log, rfl, valid, rfl, rfl, fun none => ?_⟩
      exact absurd (.head _) (none f.fd)
    · have count := got.count
      rw [run, ← signed32_eq got.ssize, freadResult_length _ _ _ (by omega)]
      refine ⟨_, _, _, _, _, rfl, got.log, rfl, valid, rfl, rfl, fun _ =>
        ⟨rfl, count, ?_, ?_, rfl, fun _ nothing => ?_⟩⟩
      · simp [empty]
      · exact ⟨readable.ordered, readable.inside, readable.clear, readable.unbuffered⟩
      · rw [List.eq_nil_of_length_eq_zero (nothing.resolve_right fun other => other.1 none)]
        exact ⟨empty, rfl⟩
  · rw [if_neg none]
    obtain ⟨out, calls, run, carried, ended⟩ := freadLoop_carried os (ptr.size * ptr.nmemb + 2)
      (r := ⟨false, ptr.size * ptr.nmemb, [], f, s⟩) readable.ordered readable.inside
      (by unfold sizeofFile at fits; dsimp only; omega) (fun _ => readable.clear) (by omega)
      (by intro _; dsimp only; split_ifs <;> omega)
    obtain ⟨_, _, _, same⟩ := carried.same
    rw [run, ok_bind]
    by_cases failures : NoneFailed calls
    · have ended := ended failures
      have total := carried.total failures
      have bytes := carried.bytes failures
      simp only [List.length_nil, Nat.add_zero, List.nil_append] at total bytes
      have length : (ptr.size * ptr.nmemb : Nat) - (out.total : Int) = out.stored.length := by omega
      have kept : out.failed = false := carried.failed failures
      rw [kept, if_neg (by decide), length, freadResult_length _ _ _ (by omega)]
      refine ⟨_, _, _, _, _, rfl, carried.log, carried.reads, ?_, ?_, ?_, fun _ => ⟨rfl, by omega, bytes, ?_, ?_, ?_⟩⟩
      · rw [same]
        exact valid
      · rw [same]
      · rw [same]
      · refine ⟨carried.ordered, carried.inside, ended.clear, ?_⟩
        rw [same]
        exact fun unbuffered => absurd unbuffered none
      · rw [same]
      · intro _ _
        exact ⟨ended.drained (by omega), ended.atEnd (by omega) (by dsimp only; omega)⟩
    · generalize (if out.failed then -1 else _ : Int) = ret
      obtain ⟨_, _, _, result⟩ := freadResult_same ret out.stored out.stream out.sys
      rw [result]
      refine ⟨_, _, _, _, _, rfl, carried.log, carried.reads, ?_, ?_, ?_, fun none => absurd none failures⟩
      · rw [same]
        exact valid
      · rw [same]
      · rw [same]

theorem drain_sys (run : r.drain = .ok out) : out.sys = r.sys ∧ out.stream.fd = r.stream.fd := by
  obtain ⟨_, -, rest⟩ := bind_ok run
  simp [← pure_ok rest]

theorem bypass_sys : (r.bypass os).sys = (os.sysRead r.stream.fd r.total r.sys).2.2 := by
  unfold Reading.bypass
  dsimp only
  split_ifs <;> rfl

theorem store_fd {offset : Nat} (run : f.store offset bytes = .ok f') :
    f'.fd = f.fd := by
  unfold File.store at run
  split_ifs at run
  rw [← Except.ok.inj run]

theorem refill_sys {n : Int} (run : r.refill os = .ok (n, out)) :
    out.sys = (os.sysRead r.stream.fd bufsiz r.sys).2.2 ∧ out.stream.fd = r.stream.fd := by
  unfold Reading.refill at run
  dsimp only at run
  split_ifs at run
  · obtain rfl := (Prod.mk.inj (pure_ok run)).2
    exact ⟨rfl, rfl⟩
  · obtain ⟨_, store, rest⟩ := bind_ok run
    have same := store_fd store
    obtain rfl := (Prod.mk.inj (pure_ok rest)).2
    exact ⟨rfl, same⟩

theorem freadLoop_invariant {fd : Int} {fuel : Nat}
    (preserved : ∀ count s, 0 < count → inv s → inv (os.sysRead fd count s).2.2) (here : r.stream.fd = fd)
    (holds : inv r.sys) (run : freadLoop os fuel r = .ok out) : inv out.sys := by
  induction fuel generalizing r with
  | zero => cases run
  | succ fuel ih =>
    rw [freadLoop] at run
    split_ifs at run with done
    · exact Except.ok.inj run ▸ holds
    obtain ⟨_, drain, rest⟩ := bind_ok run
    obtain ⟨sys₁, fd₁⟩ := drain_sys drain
    rw [← sys₁] at holds
    rw [← fd₁] at here
    split_ifs at rest with large more
    · obtain rfl := pure_ok rest
      rw [bypass_sys, here]
      exact preserved _ _ (by omega) holds
    · obtain ⟨⟨_, r₂⟩, refill, rest⟩ := bind_ok rest
      obtain ⟨sys₂, fd₂⟩ := refill_sys refill
      have holds₂ : inv r₂.sys := by
        rw [sys₂, here]
        exact preserved _ _ (by unfold bufsiz; omega) holds
      dsimp only at rest
      split_ifs at rest
      · exact pure_ok rest ▸ holds₂
      · exact ih (fd₂.trans here) holds₂ rest
    · exact ih here holds rest

theorem freadResult_sys {ret : Int} {n : Nat} {bytes' : List Byte}
    (run : freadResult ret bytes f s = (n, bytes', f', s')) : s' = s := by
  obtain ⟨_, _, _, result⟩ := freadResult_same ret bytes f s
  rw [result] at run
  simpa using (congrArg (·.2.2.2) run).symm

theorem fread_invariant {ptr : Room} {ret : Nat}
    (preserved : ∀ count s, 0 < count → inv s → inv (os.sysRead f.fd count s).2.2) (holds : inv s)
    (some : 0 < ptr.size * ptr.nmemb) (run : fread os ptr f s = .ok (ret, bytes, f', s')) : inv s' := by
  unfold fread at run
  rw [room_total] at run
  split_ifs at run with closed none
  · obtain ⟨-, -, -, rfl⟩ := by simpa using run
    exact holds
  · rw [freadResult_sys (Except.ok.inj run)]
    exact preserved _ _ some holds
  · obtain ⟨_, loop, rest⟩ := bind_ok run
    rw [freadResult_sys (pure_ok rest)]
    exact freadLoop_invariant preserved rfl holds loop

structure Delivered (fd : Int) (content : List Byte) (s : Sys Disk) : Prop where
  all : fetched s.calls ++ s.world.rest fd = content
  none : NoneFailed s.calls
  ended : s.calls.getLast? = some (.read fd (some [])) → s.world.rest fd = []

theorem Delivered.sysRead {sizes : Nat → Nat} {fd : Int} {content : List Byte} {count : Nat} {s : Sys Disk}
    (some : 0 < count) (holds : Delivered fd content s) :
    Delivered fd content ((disk sizes).sysRead fd count s).2.2 := by
  generalize size : min (max 1 (sizes s.world.reads)) (min count (2 ^ 31 - 1)) = n
  have after : ((disk sizes).sysRead fd count s).2.2 = { s with
      world := { s.world with
        rest := Function.update s.world.rest fd ((s.world.rest fd).drop n)
        reads := s.world.reads + 1 }
      calls := s.calls ++ [.read fd (.some ((s.world.rest fd).take n))] } := by
    rw [← size]
    rfl
  rw [after]
  constructor
  · simpa using holds.all
  · intro fd' here
    rcases List.mem_append.mp here with before | last
    · exact holds.none fd' before
    · simp at last
  · intro last
    simp only [List.getLast?_append, List.getLast?_singleton, Option.some_or, Option.some.injEq, Call.read.injEq,
      List.take_eq_nil_iff, true_and] at last
    simp [last.resolve_left (by omega)]

structure Returning (fd : Int) (content before : List Byte) (f : File) (s : Sys Disk) : Prop where
  descriptor : f.fd = fd
  valid : f.valid = true
  readable : Readable f
  delivered : Delivered fd content s
  fetched : before ++ contents f.buffer f.start f.stop = Spec.Stdio.fetched s.calls

variable {fd : Int} {content before : List Byte} {w : Sys Disk}

structure Returned (fd : Int) (content before : List Byte) (ptr : Room) (f : File) (w : Sys Disk) (ret : Nat)
    (bytes : List Byte) (f' : File) (w' : Sys Disk) : Prop where
  returning : Returning fd content (before ++ bytes) f' w'
  length : ret = bytes.length
  room : ret ≤ ptr.size * ptr.nmemb
  eof : f'.eof = (f.eof || ret == 0)
  bf : f'.bf = f.bf
  log : ∃ calls, w'.calls = w.calls ++ calls ∧ pieces calls = []
  whole : ret < ptr.size * ptr.nmemb → (ret = 0 ∨ f.bf ≠ .ionbf ∧ ptr.size * ptr.nmemb ≤ bufsiz) →
    before ++ bytes = content

theorem Returning.fread (sizes : Nat → Nat) (holds : Returning fd content before f w) (ptr : Room)
    (some : 0 < ptr.size * ptr.nmemb) :
    ∃ ret bytes f' w', Kernel.Stdio.fread (disk sizes) ptr f w = .ok (ret, bytes, f', w') ∧
      Returned fd content before ptr f w ret bytes f' w' := by
  obtain ⟨ret, bytes, f', w', calls, run, log, reads, valid, bf, same, freads⟩ :=
    fread_freads (disk sizes) w ptr holds.valid holds.readable
  have delivered : Delivered fd content w' := by
    refine fread_invariant (fun count s some before => ?_) holds.delivered some run
    rw [holds.descriptor]
    exact before.sysRead some
  have none : NoneFailed calls := by
    intro fd' here
    apply delivered.none fd'
    rw [log]
    exact List.mem_append_right _ here
  have freads := freads none
  have moved : before ++ bytes ++ contents f'.buffer f'.start f'.stop = Spec.Stdio.fetched w'.calls := by
    rw [log, fetched_append, ← holds.fetched, List.append_assoc, freads.moved, List.append_assoc]
  refine ⟨ret, bytes, f', w', run, ⟨same.trans holds.descriptor, valid, freads.readable, delivered, moved⟩,
    freads.length, freads.room, freads.eof, bf, ⟨calls, log, reads⟩, fun short ending => ?_⟩
  obtain ⟨empty, last⟩ := freads.atEnd short ending
  have ended : w'.world.rest fd = [] := by
    apply delivered.ended
    rw [log, List.getLast?_append, last, holds.descriptor]
    rfl
  have all := delivered.all
  rw [← moved, ended, empty] at all
  simpa using all

theorem Returning.startsWith (holds : Returning fd content before f w) : before <+: content := by
  rw [← holds.delivered.all, ← holds.fetched, List.append_assoc]
  exact List.prefix_append ..

theorem returned_cons (result : Nat × List Byte) (results : List (Nat × List Byte)) :
    returned (result :: results) = result.2.take result.1 ++ returned results := rfl

theorem Returning.freadAll (sizes : Nat → Nat) (holds : Returning fd content before f w) {reads : List Room}
    (some : ∀ ptr ∈ reads, 0 < ptr.size * ptr.nmemb) :
    ∃ results f' w', Spec.Stdio.freadAll (disk sizes) reads f w = .ok (results, f', w') ∧
      Returning fd content (before ++ returned results) f' w' ∧ (∀ result ∈ results, result.1 = result.2.length) ∧
      (∀ result ∈ results, result.1 = 0 → before ++ returned results = content) ∧
      f'.eof = (f.eof || results.any (·.1 == 0)) := by
  induction reads generalizing before f w with
  | nil => exact ⟨[], f, w, rfl, by simpa [returned] using holds, by simp, by simp, by simp⟩
  | cons ptr reads ih =>
    have room := some ptr (.head _)
    obtain ⟨ret, bytes, _, _, run, first, length, -, eof, -, -, whole⟩ := holds.fread sizes ptr room
    obtain ⟨results, f', w', rest, last, lengths, wholes, eofs⟩ :=
      ih first fun ptr later => some ptr (.tail _ later)
    have joined : before ++ returned ((ret, bytes) :: results) = before ++ bytes ++ returned results := by
      rw [returned_cons, length, List.take_length, List.append_assoc]
    refine ⟨(ret, bytes) :: results, f', w', ?_, joined ▸ last, ?_, ?_, ?_⟩
    · rw [Spec.Stdio.freadAll, run, ok_bind]
      dsimp only
      rw [rest]
      rfl
    · simpa using ⟨length, by simpa using lengths⟩
    · intro result here zero
      rw [joined]
      rcases List.mem_cons.mp here with rfl | later
      · -- nothing can follow the whole file
        have within := last.startsWith
        have short : ret < ptr.size * ptr.nmemb := Nat.lt_of_le_of_lt (Nat.le_of_eq zero) room
        rw [← whole short (.inl zero)] at within ⊢
        simpa using within.eq_of_length_le (by simp)
      · exact wholes result later zero
    · simp [eofs, eof, Bool.or_assoc]

theorem freadAll_refused (os : Os σ) (s : Sys σ) (closed : f.valid = false) (reads : List Room) :
    ∃ results err, Spec.Stdio.freadAll os reads f s = .ok (results, { f with err }, s) ∧
      ∀ result ∈ results, result = (sizeT (-1), []) := by
  induction reads generalizing f with
  | nil => exact ⟨[], f.err, rfl, by simp⟩
  | cons ptr reads ih =>
    obtain ⟨results, err, run, refused⟩ := @ih { f with err := ebadf } closed
    refine ⟨_ :: results, err, ?_, List.forall_mem_cons.mpr ⟨rfl, refused⟩⟩
    rw [Spec.Stdio.freadAll, fread_refused closed, ok_bind]
    dsimp only
    rw [run]
    rfl

theorem fread_returns_file (sizes : Nat → Nat) (f : File) (start : f.start = 0) (stop : f.stop = 0) (w : Disk)
    (errno : Int) (reads : List Room) (some : ∀ ptr ∈ reads, 0 < ptr.size * ptr.nmemb) :
    ∃ results f' s', Spec.Stdio.freadAll (disk sizes) reads f ⟨w, errno, []⟩ = .ok (results, f', s') ∧
      f'.start ≤ f'.stop ∧ f'.stop ≤ bufsiz ∧ returned results <+: w.rest f.fd ∧
      (∀ result ∈ results, result.1 = 0 → returned results = w.rest f.fd) ∧
      (f.valid = true → ∀ result ∈ results, result.1 = result.2.length) ∧
      f'.eof = (f.eof || results.any (·.1 == 0)) := by
  by_cases valid : f.valid = true
  · have fresh : Returning f.fd (w.rest f.fd) [] f ⟨w, errno, []⟩ := by
      constructor
      · rfl
      · exact valid
      · exact ⟨by omega, by omega, fun _ => stop, fun _ => stop⟩
      · exact ⟨rfl, by simp [NoneFailed], by simp⟩
      · simp [start, stop]
    obtain ⟨results, f', s', run, last, lengths, wholes, eof⟩ := fresh.freadAll sizes some
    exact ⟨results, f', s', run, last.readable.ordered, last.readable.inside, last.startsWith, wholes,
      fun _ => lengths, eof⟩
  · obtain ⟨results, _, run, refused⟩ := freadAll_refused (disk sizes) ⟨w, errno, []⟩ (by simpa using valid) reads
    have nothing : returned results = [] := by
      rw [returned, List.flatMap_eq_nil_iff]
      intro result here
      simp [refused result here]
    have code : ∀ result ∈ results, result.1 ≠ 0 := by
      intro result here
      rw [refused result here]
      decide
    refine ⟨results, _, _, run, by simp [start], by simp [stop], by simp [nothing], ?_, ?_, ?_⟩
    · exact fun result here zero => absurd zero (code result here)
    · exact fun open' => absurd open' valid
    · rw [List.any_eq_false.mpr fun result here => by simpa using code result here, Bool.or_false]

theorem fread_returns_file_abc : ∃ results f' s', Spec.Stdio.freadAll (disk fun _ => 1)
        [⟨1, 2, by decide⟩, ⟨1, 5000, by decide⟩] { initialFiles stdin with bf := .iofbf }
        ⟨⟨fun _ => [], fun _ => [97#8, 98#8, 99#8], 0, 3⟩, 0, []⟩ = .ok (results, f', s') ∧
      f'.start ≤ f'.stop ∧ f'.stop ≤ bufsiz ∧ returned results <+: [97#8, 98#8, 99#8] ∧
      (∀ result ∈ results, result.1 = 0 → returned results = [97#8, 98#8, 99#8]) ∧
      (true = true → ∀ result ∈ results, result.1 = result.2.length) ∧ f'.eof = (false || results.any (·.1 == 0)) :=
  fread_returns_file (fun _ => 1) _ rfl rfl _ _ _ (by decide)

end Petix.Proof.Stdio
