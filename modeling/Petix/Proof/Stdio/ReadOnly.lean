import Petix.Proof.Stdio.Reopening

namespace Petix.Proof.Stdio
open Function Library Library.Result Kernel.Stdio Spec.Stdio

variable {σ : Type} {os : Os σ} {f f' : File} {s s' : Sys (Asked σ)} {r out : Reading (Asked σ)}
variable {ptr : Room} {ret : Int} {bytes : List Byte} {stack : Byte} {m : Machine (Asked σ)} {count : Nat}

structure Fills (f : File) (s : Sys (Asked σ)) (f' : File) (s' : Sys (Asked σ)) : Prop where
  valid : f'.valid = f.valid
  bf : f'.bf = f.bf
  inside : f.stop ≤ bufsiz → f'.stop ≤ bufsiz
  reads : ∃ new, s'.world.reads = s.world.reads ++ new ∧ f'.stop = lastFill f.stop new

theorem Fills.same (valid : f'.valid = f.valid) (bf : f'.bf = f.bf) (stop : f'.stop = f.stop)
    (sys : s'.world.reads = s.world.reads) : Fills f s f' s' :=
  ⟨valid, bf, fun inside => stop ▸ inside, [], by simpa using sys, stop⟩

theorem Fills.trans {f₁ : File} {s₁ : Sys (Asked σ)} (first : Fills f s f₁ s₁) (second : Fills f₁ s₁ f' s') :
    Fills f s f' s' := by
  obtain ⟨new₁, log₁, stop₁⟩ := first.reads
  obtain ⟨new₂, log₂, stop₂⟩ := second.reads
  refine ⟨second.valid.trans first.valid, second.bf.trans first.bf, fun inside => second.inside (first.inside inside),
    new₁ ++ new₂, ?_, ?_⟩
  · rw [log₂, log₁, List.append_assoc]
  · rw [stop₂, stop₁, lastFill, lastFill, lastFill, List.foldl_append]

theorem recording_sysRead (os : Os σ) (fd : Int) (count : Nat) (s : Sys (Asked σ)) :
    (∃ s', (recording os).sysRead fd count s = (-1, [], s') ∧ s'.world.reads = s.world.reads ++ [(count, none)]) ∨
      ∃ bytes s', (recording os).sysRead fd count s = (bytes.length, bytes, s') ∧ bytes.length ≤ count ∧
        bytes.length < 2 ^ 31 ∧ s'.world.reads = s.world.reads ++ [(count, some bytes.length)] := by
  rcases answer : os.read fd count s.world.world with ⟨result, world⟩
  have recorded : (recording os).read fd count s.world =
      (result, ⟨world, s.world.reads ++ [(count, result.toOption.map List.length)]⟩) := by
    simp [recording, answer]
  unfold Os.sysRead
  rw [recorded]
  cases result with
  | error errno => exact .inl ⟨_, rfl, rfl⟩
  | ok bytes =>
    have le := os.read_le (congrArg Prod.fst answer)
    exact .inr ⟨_, _, rfl, le.1, le.2, rfl⟩

theorem drain_fills (run : r.drain = .ok out) : Fills r.stream r.sys out.stream out.sys := by
  obtain ⟨_, -, rest⟩ := bind_ok run
  apply Fills.same <;> simp [← pure_ok rest]

theorem bypass_fills (large : bufsiz < r.total) :
    Fills r.stream r.sys (r.bypass (recording os)).stream (r.bypass (recording os)).sys := by
  have other (got : Option Nat) : lastFill r.stream.stop [(r.total, got)] = r.stream.stop := if_neg (Nat.ne_of_gt large)
  unfold Reading.bypass
  rcases recording_sysRead os r.stream.fd r.total r.sys with ⟨s', run, log⟩ | ⟨_, _, run, -, -, log⟩
  · rw [run]
    exact ⟨rfl, rfl, id, _, log, (other none).symm⟩
  · rw [run]
    dsimp only
    exact ⟨rfl, rfl, id, _, log, (other _).symm⟩

theorem refill_fills {n : Int} (run : r.refill (recording os) = .ok (n, out)) :
    Fills r.stream r.sys out.stream out.sys := by
  unfold Reading.refill at run
  dsimp only at run
  rcases recording_sysRead os r.stream.fd bufsiz r.sys with ⟨s', read, log⟩ | ⟨bytes, _, read, count, _, log⟩
  · rw [read] at run
    obtain rfl := (Prod.mk.inj (pure_ok run)).2
    exact ⟨rfl, rfl, id, _, log, rfl⟩
  · have word : sizeT bytes.length = bytes.length := by
      unfold sizeT
      omega
    rw [read] at run
    obtain ⟨stream, store, rest⟩ := bind_ok run
    obtain ⟨_, stored, -⟩ := store_eq (f := { r.stream with start := 0 }) (show 0 + bytes.length ≤ bufsiz by omega)
    obtain rfl := Except.ok.inj (stored.symm.trans store)
    obtain rfl := (Prod.mk.inj (pure_ok rest)).2
    refine ⟨rfl, rfl, fun _ => ?_, _, log, ?_⟩
    · rw [word]
      exact count
    · rw [word]
      rfl

theorem freadLoop_fills {fuel : Nat} (run : freadLoop (recording os) fuel r = .ok out) :
    Fills r.stream r.sys out.stream out.sys := by
  induction fuel generalizing r with
  | zero => cases run
  | succ fuel ih =>
    rw [freadLoop] at run
    split_ifs at run with done
    · rw [← Except.ok.inj run]
      exact .same rfl rfl rfl rfl
    obtain ⟨_, drain, rest⟩ := bind_ok run
    have drained := drain_fills drain
    split_ifs at rest with large more
    · obtain rfl := pure_ok rest
      exact drained.trans (bypass_fills large)
    · obtain ⟨⟨_, _⟩, refill, rest⟩ := bind_ok rest
      have filled := drained.trans (refill_fills refill)
      dsimp only at rest
      split_ifs at rest
      · exact pure_ok rest ▸ filled
      · exact filled.trans (ih rest)
    · exact drained.trans (ih rest)

section
variable (buffered : f.bf ≠ .ionbf)
include buffered

theorem fread_fills {ret : Nat}
    (run : fread (recording os) ptr f s = .ok (ret, bytes, f', s')) : Fills f s f' s' := by
  unfold fread at run
  split_ifs at run with closed
  · obtain ⟨-, -, rfl, rfl⟩ := by simpa using run
    exact .same rfl rfl rfl rfl
  · obtain ⟨out, loop, rest⟩ := bind_ok run
    have filled := freadLoop_fills loop
    obtain ⟨_, _, _, result⟩ := freadResult_same
      (if out.failed then -1 else signed32 (ptr.size * ptr.nmemb % 2 ^ 32 - out.total)) out.stored out.stream out.sys
    have equal := result.symm.trans (pure_ok rest)
    obtain ⟨-, -, rfl, rfl⟩ := equal
    exact filled.trans (.same rfl rfl rfl rfl)

theorem fgetc_fills
    (run : fgetc (recording os) stack f s = .ok (ret, f', s')) : Fills f s f' s' := by
  obtain ⟨⟨_, _, _, _⟩, read, rest⟩ := bind_ok run
  have filled := fread_fills buffered read
  dsimp only at rest
  split_ifs at rest
  all_goals
    obtain ⟨-, rfl, rfl⟩ := by simpa using pure_ok rest
    exact filled

theorem fgetsLoop_fills {rounds : Nat} {stored : List Byte}
    (run : fgetsLoop (recording os) stack rounds f s = .ok (stored, f', s')) : Fills f s f' s' := by
  induction rounds generalizing f s stored with
  | zero =>
    obtain ⟨-, rfl, rfl⟩ := by simpa [fgetsLoop] using run
    exact .same rfl rfl rfl rfl
  | succ rounds ih =>
    obtain ⟨⟨_, _, _⟩, read, rest⟩ := bind_ok run
    have filled := fgetc_fills buffered read
    dsimp only at rest
    split_ifs at rest
    · obtain ⟨-, rfl, rfl⟩ := by simpa using pure_ok rest
      exact filled
    · obtain ⟨-, rfl, rfl⟩ := by simpa using pure_ok rest
      exact filled
    · obtain ⟨⟨_, _, _⟩, loop, rest⟩ := bind_ok rest
      obtain ⟨-, rfl, rfl⟩ := by simpa using pure_ok rest
      exact filled.trans (ih (filled.bf ▸ buffered) loop)

theorem ReadCall.fills {call : ReadCall}
    (run : call.perform (recording os) stack f s = .ok (f', s')) : Fills f s f' s' := by
  cases call with
  | fread ptr =>
    obtain ⟨⟨ret, _, f₁, s₁⟩, read, equal⟩ := map_ok run
    obtain ⟨rfl, rfl⟩ := Prod.mk.inj equal
    exact fread_fills buffered read
  | fgetc =>
    obtain ⟨⟨_, f₁, s₁⟩, read, equal⟩ := map_ok run
    obtain ⟨rfl, rfl⟩ := Prod.mk.inj equal
    exact fgetc_fills buffered read
  | fgets size =>
    obtain ⟨⟨_, _, _⟩, read, equal⟩ := map_ok run
    obtain ⟨rfl, rfl⟩ := Prod.mk.inj equal
    exact fgetsLoop_fills buffered read

end

structure Rests (f : File) : Prop where
  inside : f.stop ≤ bufsiz
  closed : f.valid = false → f.stop = 0

theorem Rests.same (rests : Rests f) (stop : f'.stop = f.stop) (valid : f'.valid = f.valid) : Rests f' :=
  ⟨stop ▸ rests.inside, fun shut => stop.trans (rests.closed (valid.symm.trans shut))⟩

theorem Rests.fread {ret : Nat} (rests : Rests f)
    (run : fread (recording os) ptr f s = .ok (ret, bytes, f', s')) : Rests f' := by
  by_cases closed : f.valid = false
  · rw [fread_refused closed] at run
    obtain ⟨-, -, rfl, -⟩ := by simpa using run
    exact rests.same rfl rfl
  by_cases buffered : f.bf = .ionbf
  · unfold Kernel.Stdio.fread at run
    dsimp only at run
    rw [if_neg closed, if_pos buffered] at run
    obtain ⟨n, eof, err, result⟩ := freadResult_same _ _ f _
    obtain ⟨-, -, rfl, -⟩ := by simpa using result.symm.trans (Except.ok.inj run)
    exact rests.same rfl rfl
  · have filled := fread_fills buffered run
    exact ⟨filled.inside rests.inside, fun shut => absurd (filled.valid.symm.trans shut) closed⟩

theorem Rests.wrote {σ : Type} {os : Os σ} {s : Sys σ} {data : List Byte} {calls : List Call} (rests : Rests f)
    (wrote : Wrote os f data s f' calls) : Rests f' := by
  cases wrote with
  | refused err closed => exact rests.same rfl rfl
  | unbuffered err valid none => exact rests.same rfl rfl
  | buffered valid buffering noLine room stored => exact ⟨room, fun shut => by simp [valid] at shut⟩
  | failed err valid buffering refused => exact rests.same rfl rfl
  | flushed err valid buffering => exact ⟨Nat.zero_le _, fun _ => rfl⟩

theorem Rests.fflush {σ : Type} {os : Os σ} {s s' : Sys σ} (rests : Rests f)
    (run : fflush os f s = .ok (ret, f', s')) : Rests f' := by
  by_cases closed : f.valid = false
  · obtain ⟨-, rfl, -⟩ := by simpa using (show Kernel.Stdio.fflush os f s = _ from if_pos closed).symm.trans run
    exact rests.same rfl rfl
  · rw [fflush_eq (by simpa using closed) rests.inside] at run
    obtain ⟨-, rfl, -⟩ := by simpa using run
    exact ⟨Nat.zero_le _, fun _ => rfl⟩

theorem Rests.fclose {σ : Type} {os : Os σ} {s s' : Sys σ} (rests : Rests f)
    (run : fclose os f s = .ok (ret, f', s')) : Rests f' := by
  by_cases closed : f.valid = false
  · obtain ⟨-, rfl, -⟩ := by simpa using (show Kernel.Stdio.fclose os f s = _ from if_pos closed).symm.trans run
    exact rests.same rfl rfl
  · obtain ⟨ret, err, s', run', -⟩ := fclose_eq os s (by simpa using closed) rests.inside
    obtain ⟨-, rfl, -⟩ := by simpa using run'.symm.trans run
    exact ⟨Nat.zero_le _, fun _ => rfl⟩

theorem perform_rests {m' : Machine (Asked σ)} {request : Request} (all : ∀ j, Rests (m.streams.stdioFiles j))
    (run : request.perform (recording os) m = .ok m') (j : Fin fopenMax) : Rests (m'.streams.stdioFiles j) := by
  have updated {i : Fin fopenMax} {f : File} (here : Rests f) : Rests (update m.streams.stdioFiles i f j) := by
    by_cases same : j = i
    · subst same
      rwa [update_self]
    · rw [update_of_ne same]
      exact all j
  cases request with
  | fopen path mode =>
    obtain ⟨⟨opened, t⟩, fopen, rest⟩ := bind_ok run
    have fopened := fopen_fopened fopen
    have table : m'.streams.stdioFiles = t.stdioFiles := by
      cases opened <;> rw [← pure_ok rest]
    rw [table]
    generalize t.stdioFiles = files at fopened
    cases fopened with
    | refused => exact all j
    | failed i fd closed => exact updated ((all i).same rfl rfl)
    | opened i fd closed => exact updated ⟨(all i).inside, fun shut => nomatch shut⟩
  | fread i ptr =>
    obtain ⟨⟨ret, _, f, s⟩, read, rest⟩ := bind_ok run
    rw [← pure_ok rest]
    exact updated ((all i).fread read)
  | fwrite i ptr =>
    obtain ⟨⟨ret, f, s⟩, write, rest⟩ := bind_ok run
    obtain ⟨_, _, _, _, write', -, wrote⟩ := fwrite_wrote (recording os) m.streams.sys ptr (all i).inside
    obtain ⟨-, rfl, -⟩ := by simpa using write'.symm.trans write
    rw [← pure_ok rest]
    exact updated ((all i).wrote wrote)
  | fflush i =>
    obtain ⟨⟨ret, f, s⟩, flush, rest⟩ := bind_ok run
    rw [← pure_ok rest]
    exact updated ((all i).fflush flush)
  | fclose i =>
    obtain ⟨⟨_, _, _⟩, close, rest⟩ := bind_ok run
    rw [← pure_ok rest]
    exact updated ((all i).fclose close)

theorem reachable_rests (reachable : (streamRuns (recording os)).Reachable m) :
    ∀ i, Rests (m.streams.stdioFiles i) := by
  induction reachable with
  | initial start =>
    intro i
    have stop := (initialFiles_empty i).2
    rw [start.1]
    exact ⟨by omega, fun _ => stop⟩
  | next _ step ih => exact perform_rests ih step

variable {reads : List (Nat × Option Nat)}

structure Held (f : File) (reads : List (Nat × Option Nat)) : Prop where
  valid : f.valid = true
  bf : f.bf = .iofbf
  inside : f.stop ≤ bufsiz
  stop : f.stop = lastFill 0 reads

theorem OnlyRead.held (only : OnlyRead os f reads) : Held f reads := by
  induction only with
  | @opened m path mode i t reachable run =>
    have all := reachable_rests reachable
    have fopened := fopen_fopened run
    generalize t.stdioFiles = files at fopened
    cases fopened with
    | opened i fd closed =>
      rw [update_self]
      exact ⟨rfl, rfl, (all i).inside, (all i).closed closed⟩
  | @called f f' reads new call stack s s' _ run log ih =>
    have filled := ReadCall.fills (by simp [ih.bf]) run
    obtain ⟨new', log', stop⟩ := filled.reads
    obtain rfl : new' = new := List.append_cancel_left (log'.symm.trans log)
    refine ⟨filled.valid.trans ih.valid, filled.bf.trans ih.bf, filled.inside ih.inside, ?_⟩
    rw [stop, ih.stop, lastFill, lastFill, lastFill, List.foldl_append]

theorem OnlyRead.sys (only : OnlyRead os f reads) : Nonempty (Sys σ) := by
  cases only with
  | @opened m => exact ⟨m.streams.sys.world.world, 0, []⟩
  | @called _ _ _ _ _ _ s => exact ⟨s.world.world, 0, []⟩

theorem closesClean_iff {σ : Type} (os : Os σ) (start : Sys σ) (valid : f.valid = true) (inside : f.stop ≤ bufsiz) :
    ClosesClean os f ↔ f.stop = 0 := by
  have write (calls : List Call) :
      (∀ piece ∈ pieces ((calls ++ [Call.write f.fd (contents f.buffer 0 f.stop)]).drop calls.length), piece = []) ↔
        f.stop = 0 := by
    have length : (contents f.buffer 0 f.stop).length = f.stop := length_contents
    rw [← length, List.length_eq_zero_iff]
    simp [pieces]
  constructor
  · intro clean
    obtain ⟨⟨ret, _, s', run, none⟩, -⟩ := clean start
    rw [fflush_eq valid inside] at run
    obtain ⟨-, -, rfl⟩ := by simpa using run
    rwa [sysWrite_calls, write] at none
  · intro stop s
    obtain ⟨_, _, _, run, log⟩ := fclose_eq os s valid inside
    refine ⟨⟨_, _, _, fflush_eq valid inside, ?_⟩, _, _, _, run, ?_⟩
    · rw [sysWrite_calls]
      exact (write s.calls).mpr stop
    · rw [log]
      exact (write s.calls).mpr stop

theorem readOnly_closes_clean_iff (os : Os σ) (only : OnlyRead os f reads) :
    ClosesClean os f ↔ lastFill 0 reads = 0 := by
  have held := OnlyRead.held only
  obtain ⟨s⟩ := OnlyRead.sys only
  rw [← held.stop]
  exact closesClean_iff os s held.valid held.inside

def fgetcs (os : Os σ) : Nat → File → Sys σ → Except Fault (File × Sys σ)
  | 0, f, s => .ok (f, s)
  | count + 1, f, s => do
      let (f, s) ← ReadCall.fgetc.perform os 0 f s
      fgetcs os count f s

theorem fgetcs_onlyRead (only : OnlyRead os f reads) (log : s.world.reads = reads)
    (run : fgetcs (recording os) count f s = .ok (f', s')) : OnlyRead os f' s'.world.reads := by
  induction count generalizing f s reads with
  | zero =>
    obtain ⟨rfl, rfl⟩ := Prod.mk.inj (Except.ok.inj run)
    rwa [log]
  | succ count ih =>
    obtain ⟨⟨_, _⟩, call, rest⟩ := bind_ok run
    have filled := ReadCall.fills (by simp [(OnlyRead.held only).bf]) call
    obtain ⟨_, log', -⟩ := filled.reads
    exact ih (.called only call log') (by rw [log', log]) rest

def recordedFiles : Machine (Asked Disk) :=
  ⟨⟨initialFiles, ⟨⟨twoFiles.streams.sys.world, []⟩, 0, []⟩⟩, fun _ => ⟨[], [], [], []⟩⟩

theorem name_terminated : (0 : Byte) ∉ [97#8] := by decide

theorem name_fits : [97#8].length + sizeofFile ≤ 2 ^ 32 := by decide

def readA (count : Nat) : Except Fault (File × Sys (Asked Disk)) := do
  let (_, t) ← fopen (recording (disk fun _ => 2)) ⟨[97#8], name_terminated, name_fits⟩ ⟨[114#8], mode_terminated, mode_fits⟩
    recordedFiles.streams
  fgetcs (recording (disk fun _ => 2)) count (t.stdioFiles firstFree) t.sys

theorem readA_onlyRead {s : Sys (Asked Disk)} (run : readA count = .ok (f, s)) :
    OnlyRead (disk fun _ => 2) f s.world.reads := by
  have opened : fopen (recording (disk fun _ => 2)) ⟨[97#8], by decide, by decide⟩ ⟨[114#8], by decide, by decide⟩
      recordedFiles.streams = .ok (some firstFree, _) := rfl
  obtain ⟨_, fopen, rest⟩ := bind_ok run
  obtain rfl := Except.ok.inj (opened.symm.trans fopen)
  exact fgetcs_onlyRead (.opened (.initial ⟨rfl, rfl⟩) opened) rfl rest

theorem fclose_writes_back : ∃ f reads, OnlyRead (disk fun _ => 2) f reads ∧ ¬ClosesClean (disk fun _ => 2) f ∧
      ∀ s, ∃ ret f' s', fclose (disk fun _ => 2) f s = .ok (ret, f', s') ∧
        s'.calls = s.calls ++ [.write 3 [120#8, 121#8]] := by
  have run : (readA 1).toOption.map (fun fs => (fs.1.fd, contents fs.1.buffer 0 fs.1.stop)) =
      some (3, [120#8, 121#8]) := rfl
  obtain ⟨⟨f, _⟩, read, seen⟩ := Option.map_eq_some_iff.mp run
  obtain ⟨fd, buffer⟩ := Prod.mk.inj seen
  have only := readA_onlyRead (ok_of_toOption read)
  have held := OnlyRead.held only
  refine ⟨f, _, only, ?_, ?_⟩
  · rw [closesClean_iff _ twoFiles.streams.sys held.valid held.inside]
    intro stop
    rw [stop] at buffer
    cases buffer
  · intro s'
    obtain ⟨_, _, _, close, log⟩ := fclose_eq (disk fun _ => 2) s' held.valid held.inside
    rw [fd, buffer] at log
    exact ⟨_, _, _, close, log⟩

theorem readOnly_closes_clean_read : ∃ f, OnlyRead (disk fun _ => 2) f [(4096, some 2), (4096, some 0)] ∧
    (ClosesClean (disk fun _ => 2) f ↔ lastFill 0 [(4096, some 2), (4096, some 0)] = 0) ∧
    ClosesClean (disk fun _ => 2) f := by
  have run : (readA 3).toOption.map (fun fs => fs.2.world.reads) = some [(4096, some 2), (4096, some 0)] := rfl
  obtain ⟨⟨f, _⟩, read, seen⟩ := Option.map_eq_some_iff.mp run
  have only : OnlyRead (disk fun _ => 2) f [(4096, some 2), (4096, some 0)] :=
    seen ▸ readA_onlyRead (ok_of_toOption read)
  have clean := readOnly_closes_clean_iff (disk fun _ => 2) only
  exact ⟨f, only, clean, clean.mpr (by decide)⟩

end Petix.Proof.Stdio
