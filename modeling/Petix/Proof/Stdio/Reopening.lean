import Petix.Proof.Stdio.Reading

namespace Petix.Proof.Stdio
open Function Library Kernel.Stdio Spec.Stdio

variable {σ : Type} {os : Os σ} {f f' : File} {s : Sys σ} {session : Session} {calls : List Call} {m : Machine σ}
  {i : Fin fopenMax}
variable {data bytes : List Byte} {ptr : Room} {ret : Nat} {path mode : CString} {t t' : Streams σ}
variable {request : Request} {sizes : Nat → Nat}
variable {opened : Option (Fin fopenMax)}

structure Kept (f : File) (session : Session) : Prop where
  ordered : f.start ≤ f.stop
  inside : f.stop ≤ bufsiz
  closed : f.valid = false → f.start = 0 ∧ f.stop = 0
  unbuffered : f.bf = .ionbf → f.stop = 0
  reading : 0 < f.start → session.returned ++ contents f.buffer f.start f.stop = session.fetched ∧
    (session.written = [] → session.given = [])
  writing : f.start = 0 → session.returned = session.fetched ∧ (contents f.buffer 0 f.stop).Sublist session.given ∧
    (session.written = [] → contents f.buffer 0 f.stop = session.given)
  own : session.Own

theorem Kept.same (kept : Kept f session) (fd err : Int) (eof : Bool) : Kept { f with fd, err, eof } session :=
  ⟨kept.ordered, kept.inside, kept.closed, kept.unbuffered, kept.reading, kept.writing, kept.own⟩

theorem Kept.of_writing (start : f.start = 0) (inside : f.stop ≤ bufsiz) (closed : f.valid = false → f.stop = 0)
    (unbuffered : f.bf = .ionbf → f.stop = 0) (returned : session.returned = session.fetched)
    (sublist : (contents f.buffer 0 f.stop).Sublist session.given)
    (whole : session.written = [] → contents f.buffer 0 f.stop = session.given) (own : session.Own) :
    Kept f session := by
  refine ⟨by omega, inside, fun shut => ⟨start, closed shut⟩, unbuffered, fun positive => ?_, ?_, own⟩
  · omega
  · exact fun _ => ⟨returned, sublist, whole⟩

theorem Kept.empty (start : f.start = 0) (stop : f.stop = 0) : Kept f ⟨[], [], [], []⟩ := by
  apply Kept.of_writing start
  · omega
  · exact fun _ => stop
  · exact fun _ => stop
  · rfl
  · simp [stop]
  · simp [stop]
  · exact ⟨List.prefix_rfl, by simp, by simp⟩

theorem own_write (own : session.Own) {new : List (List Byte)}
    (pieces : ∀ piece ∈ new, piece.Sublist (session.given ++ data))
    (first : session.written = [] → ∀ piece ∈ new.head?, piece <+: session.given ++ data) :
    Session.Own { session with given := session.given ++ data, written := session.written ++ new } := by
  refine ⟨own.returned, ?_, ?_⟩
  · intro piece here
    cases written : session.written with
    | nil =>
      rw [written, List.nil_append] at here
      exact first written piece here
    | cons head rest => exact (own.first piece (written ▸ here)).trans (List.prefix_append ..)
  · intro piece here
    rcases List.mem_append.mp here with old | new
    · exact (own.pieces piece old).trans (List.sublist_append_left ..)
    · exact pieces piece new

theorem Kept.wrote (kept : Kept f session) (start : f.start = 0) (wrote : Wrote os f data s f' calls) :
    Kept f' { session with
      given := session.given ++ (if f.valid then data else [])
      written := session.written ++ pieces calls } := by
  obtain ⟨returned, sublist, whole⟩ := kept.writing start
  cases wrote with
  | refused err closed =>
    rw [if_neg (by simp [closed])]
    simpa [pieces] using kept.same f.fd err f.eof
  | unbuffered err valid none =>
    have stop := kept.unbuffered none
    rw [stop] at whole
    rw [if_pos valid]
    refine .of_writing start kept.inside (by simp [valid]) kept.unbuffered returned ?_ ?_ (own_write kept.own ?_ ?_)
    · simp [stop]
    · simp [pieces]
    · simp [pieces]
    · intro unwritten
      simp [pieces, ← whole unwritten]
  | buffered valid buffering noLine room stored =>
    have joined := stored.contents_eq f.stop.zero_le
    rw [if_pos valid]
    refine .of_writing start room (by simp [valid]) (fun none => absurd none buffering) returned ?_ ?_
      (own_write kept.own (by simp [pieces]) (by simp [pieces]))
    · rw [joined]
      exact sublist.append_right data
    · intro unwritten
      rw [joined, whole (by simpa [pieces] using unwritten)]
  | failed err valid buffering refused =>
    rw [if_pos valid]
    have more := sublist.trans (List.sublist_append_left session.given data)
    refine .of_writing start kept.inside (by simp [valid]) kept.unbuffered returned more ?_ (own_write kept.own ?_ ?_)
    · simp [pieces]
    · simpa [pieces] using more
    · intro unwritten
      simp [pieces, whole unwritten]
  | flushed err valid buffering =>
    rw [if_pos valid]
    have more := sublist.trans (List.sublist_append_left session.given data)
    refine .of_writing start (Nat.zero_le _) (fun _ => rfl) (fun _ => rfl) returned ?_ ?_ (own_write kept.own ?_ ?_)
    · simp
    · simp [pieces]
    · simpa [pieces] using more
    · intro unwritten
      simp [pieces, whole unwritten]

theorem Kept.flushed (kept : Kept f session) (start : f.start = 0) (valid : Bool) (err : Int) :
    Kept { f with stop := 0, valid, err } { session with
      written := session.written ++ [contents f.buffer 0 f.stop] } := by
  obtain ⟨returned, sublist, whole⟩ := kept.writing start
  have own : Session.Own { session with
      given := session.given ++ []
      written := session.written ++ [contents f.buffer 0 f.stop] } :=
    own_write kept.own (by simpa using sublist) fun unwritten => by simp [whole unwritten]
  rw [List.append_nil] at own
  refine .of_writing start (Nat.zero_le _) (fun _ => rfl) (fun _ => rfl) returned ?_ ?_ own
  · simp
  · simp

theorem Kept.freads (kept : Kept f session)
    (unwritten : 0 < f.start ∨ f.stop = 0) (freads : Freads f ptr ret bytes f' calls) (valid : f'.valid = true) :
    Kept f' { session with
      fetched := session.fetched ++ fetched calls
      returned := session.returned ++ bytes } := by
  have before : session.returned ++ contents f.buffer f.start f.stop = session.fetched ∧
      (session.written = [] → session.given = []) := by
    rcases Nat.eq_zero_or_pos f.start with start | start
    · obtain ⟨returned, -, whole⟩ := kept.writing start
      have stop := unwritten.resolve_left (by omega)
      refine ⟨by simpa [start, stop] using returned, fun none => ?_⟩
      simpa [stop] using (whole none).symm
    · exact kept.reading start
  have after : session.returned ++ bytes ++ contents f'.buffer f'.start f'.stop = session.fetched ++ fetched calls := by
    rw [List.append_assoc, freads.moved, ← List.append_assoc, before.1]
  refine ⟨freads.readable.ordered, freads.readable.inside, by simp [valid], freads.readable.unbuffered,
    fun _ => ⟨after, before.2⟩, fun start => ?_, ⟨?_, kept.own.first, kept.own.pieces⟩⟩
  · have stop := freads.readable.clear start
    rw [start, stop] at after
    refine ⟨by simpa using after, by simp [stop], fun none => ?_⟩
    rw [before.2 none, stop]
    simp
  · rw [← after]
    exact List.prefix_append ..

theorem record_kept {given returned : List Byte} {s' : Sys σ}
    (all : ∀ j, Kept (m.streams.stdioFiles j) (m.session j)) (log : s'.calls = m.streams.sys.calls ++ calls)
    (here : Kept f' ⟨(m.session i).given ++ given, (m.session i).written ++ pieces calls,
      (m.session i).fetched ++ fetched calls, (m.session i).returned ++ returned⟩) (j : Fin fopenMax) :
    Kept ((m.record i f' s' given returned).streams.stdioFiles j) ((m.record i f' s' given returned).session j) := by
  unfold Machine.record
  dsimp only
  rw [log, List.drop_left]
  by_cases same : j = i
  · subst same
    rw [update_self, update_self]
    exact here
  · rw [update_of_ne same, update_of_ne same]
    exact all j

inductive Fopened (files : Fin fopenMax → File) : Option (Fin fopenMax) → (Fin fopenMax → File) → Prop
  | refused : Fopened files none files
  | failed (i : Fin fopenMax) (fd : Int) : (files i).valid = false →
      Fopened files none (update files i { files i with fd })
  | opened (i : Fin fopenMax) (fd : Int) : (files i).valid = false →
      Fopened files (some i) (update files i { files i with
        fd, err := 0, valid := true, eof := false, bf := .iofbf })

theorem fopen_fopened
    (run : fopen os path mode t = .ok (opened, t')) : Fopened t.stdioFiles opened t'.stdioFiles := by
  unfold fopen at run
  split at run
  · obtain ⟨rfl, rfl⟩ := Prod.mk.inj (Except.ok.inj run)
    exact .refused
  · rename_i i found
    have closed : (t.stdioFiles i).valid = false := by simpa using List.find?_some found
    split at run
    · cases run
    · rename_i last _
      generalize (if last = 43#8 then oCreat else 0) = oflags at run
      dsimp only at run
      split_ifs at run with failed
      · obtain ⟨rfl, rfl⟩ := Prod.mk.inj (Except.ok.inj run)
        exact .failed i _ closed
      · obtain ⟨rfl, rfl⟩ := Prod.mk.inj (Except.ok.inj run)
        exact .opened i _ closed

theorem fopen_kept {session : Fin fopenMax → Session}
    (all : ∀ j, Kept (t.stdioFiles j) (session j))
    (run : fopen os path mode t = .ok (opened, t')) : match opened with
    | none => ∀ j, Kept (t'.stdioFiles j) (session j)
    | some i => (t'.stdioFiles i).start = 0 ∧ (t'.stdioFiles i).stop = 0 ∧
        ∀ j, j ≠ i → t'.stdioFiles j = t.stdioFiles j := by
  have fopened := fopen_fopened run
  generalize t'.stdioFiles = files at fopened
  cases fopened with
  | refused => exact all
  | failed i fd closed =>
    intro j
    by_cases same : j = i
    · subst same
      rw [update_self]
      exact (all j).same _ _ _
    · rw [update_of_ne same]
      exact all j
  | opened i fd closed =>
    obtain ⟨start, stop⟩ := (all i).closed closed
    dsimp only
    rw [update_self]
    exact ⟨start, stop, fun j other => update_of_ne other ..⟩

theorem fopen_error {t : Streams σ} {e : Fault} (run : fopen os path mode t = .error e) : e = .emptyMode := by
  unfold fopen at run
  split at run
  · cases run
  · split at run
    · exact (Except.error.inj run).symm
    · rename_i last _
      generalize (if last = 43#8 then oCreat else 0) = oflags at run
      dsimp only at run
      split_ifs at run

theorem Wrote.fetched (wrote : Wrote os f data s f' calls) : fetched calls = [] := by
  cases wrote <;> rfl

@[simp] theorem sysClose_calls (fd : Int) : (os.sysClose fd s).2.calls = s.calls := by
  unfold Os.sysClose rawSyscallErrno
  dsimp only
  split_ifs <;> rfl

theorem fclose_eq (os : Os σ) (s : Sys σ) (valid : f.valid = true) (inside : f.stop ≤ bufsiz) :
    ∃ ret err s', fclose os f s = .ok (ret, { f with stop := 0, valid := false, err }, s') ∧
      s'.calls = s.calls ++ [.write f.fd (contents f.buffer 0 f.stop)] := by
  rw [fclose, if_neg (by simp [valid]), fflush_eq valid inside, Result.ok_bind]
  dsimp only
  split_ifs
  · exact ⟨_, _, _, rfl, by simp⟩
  · exact ⟨_, f.err, _, rfl, by simp⟩

theorem perform_kept (all : ∀ j, Kept (m.streams.stdioFiles j) (m.session j)) (separate : Separate os m request) :
    request.perform os m = .error .emptyMode ∨
      ∃ m', request.perform os m = .ok m' ∧ ∀ j, Kept (m'.streams.stdioFiles j) (m'.session j) := by
  cases request with
  | fopen path mode =>
    dsimp only [Request.perform]
    cases run : fopen os path mode m.streams with
    | error e =>
      rw [fopen_error run]
      exact .inl rfl
    | ok result =>
      obtain ⟨opened, _⟩ := result
      have kept := fopen_kept all run
      cases opened with
      | none => exact .inr ⟨_, rfl, kept⟩
      | some i =>
        obtain ⟨start, stop, others⟩ := kept
        refine .inr ⟨_, rfl, fun j => ?_⟩
        dsimp only
        by_cases same : j = i
        · subst same
          rw [update_self]
          exact .empty start stop
        · rw [update_of_ne same, others j same]
          exact all j
  | fread i ptr =>
    right
    obtain ⟨unwritten, answered⟩ := separate
    dsimp only [Request.perform]
    by_cases closed : (m.streams.stdioFiles i).valid = false
    · rw [fread_refused closed]
      refine ⟨_, rfl, record_kept all (List.append_nil _).symm ?_⟩
      simpa [pieces] using (all i).same _ _ _
    · have kept := all i
      have valid : (m.streams.stdioFiles i).valid = true := by simpa using closed
      have readable : Readable (m.streams.stdioFiles i) :=
        ⟨kept.ordered, kept.inside, fun start => unwritten.resolve_left (by omega), kept.unbuffered⟩
      obtain ⟨ret, bytes, f', s', calls, run, log, reads, valid', -, -, freads⟩ :=
        fread_freads os m.streams.sys ptr valid readable
      have none : NoneFailed calls := by
        have := answered ret bytes f' s' run
        rwa [log, List.drop_left] at this
      have after := kept.freads unwritten (freads none) valid'
      rw [run]
      refine ⟨_, rfl, record_kept all log ?_⟩
      simpa [reads, (freads none).length] using after
  | fwrite i ptr =>
    right
    dsimp only [Request.perform]
    obtain ⟨ret, _, s', _, run, log, wrote⟩ := fwrite_wrote os m.streams.sys ptr (all i).inside
    rw [run]
    refine ⟨_, rfl, record_kept all log ?_⟩
    have after := (all i).wrote separate wrote
    simpa [wrote.fetched] using after
  | fflush i =>
    right
    dsimp only [Request.perform]
    by_cases closed : (m.streams.stdioFiles i).valid = false
    · rw [show fflush os _ _ = _ from if_pos closed]
      refine ⟨_, rfl, record_kept all (List.append_nil _).symm ?_⟩
      simpa [pieces] using (all i).same _ _ _
    · rw [fflush_eq (by simpa using closed) (all i).inside]
      refine ⟨_, rfl, record_kept all (sysWrite_calls ..) ?_⟩
      simpa [pieces, fetched] using (all i).flushed separate _ _
  | fclose i =>
    right
    dsimp only [Request.perform]
    by_cases closed : (m.streams.stdioFiles i).valid = false
    · rw [show fclose os _ _ = _ from if_pos closed]
      refine ⟨_, rfl, record_kept all (List.append_nil _).symm ?_⟩
      simpa [pieces] using (all i).same _ _ _
    · obtain ⟨_, _, _, run, log⟩ := fclose_eq os m.streams.sys (by simpa using closed) (all i).inside
      rw [run]
      refine ⟨_, rfl, record_kept all log ?_⟩
      simpa [pieces, fetched] using (all i).flushed separate _ _

theorem initialFiles_empty (i : Fin fopenMax) : (initialFiles i).start = 0 ∧ (initialFiles i).stop = 0 := by
  unfold initialFiles
  split <;> exact ⟨rfl, rfl⟩

theorem reachable_kept (reachable : ((streamRuns os).restrict (Separate os)).Reachable m) :
    ∀ i, Kept (m.streams.stdioFiles i) (m.session i) := by
  induction reachable with
  | initial start =>
    intro i
    obtain ⟨files, session⟩ := start
    rw [files, session]
    exact .empty (initialFiles_empty i).1 (initialFiles_empty i).2
  | next _ step ih =>
    obtain ⟨separate, run⟩ := step
    rcases perform_kept ih separate with fault | ⟨_, run', kept⟩
    · cases run.symm.trans fault
    · obtain rfl := Except.ok.inj (run'.symm.trans run)
      exact kept

theorem fopen_starts_empty (os : Os σ) {m : Machine σ}
    (reachable : ((streamRuns os).restrict (Separate os)).Reachable m) :
    (∀ path mode i t, fopen os path mode m.streams = .ok (some i, t) →
      (t.stdioFiles i).start = 0 ∧ (t.stdioFiles i).stop = 0) ∧ (∀ i, (m.session i).Own) ∧
    ∀ request e, Separate os m request → request.perform os m = .error e → e = .emptyMode := by
  have all := reachable_kept reachable
  refine ⟨fun path mode i t run => ?_, fun i => (all i).own, fun request e separate run => ?_⟩
  · obtain ⟨start, stop, -⟩ := fopen_kept all run
    exact ⟨start, stop⟩
  · rcases perform_kept all separate with fault | ⟨_, run', -⟩
    · exact Except.error.inj (run.symm.trans fault)
    · cases run.symm.trans run'

def twoFiles : Machine Disk :=
  ⟨⟨initialFiles, ⟨fun path => if path = [97#8] then [120#8, 121#8] else [122#8], fun _ => [], 0, 3⟩, 0, []⟩,
    fun _ => ⟨[], [], [], []⟩⟩

def firstFree : Fin fopenMax := ⟨3, by decide⟩

theorem mode_terminated : (0 : Byte) ∉ [114#8] := by decide

theorem mode_fits : [114#8].length + sizeofFile ≤ 2 ^ 32 := by decide

theorem byte_fits : 1 * 1 + sizeofFile ≤ 2 ^ 32 := by decide

def openFile (name : Byte) (named : name ≠ 0) : Request :=
  .fopen ⟨[name], by simpa using named.symm, by simp [sizeofFile, bufsiz]⟩ ⟨[114#8], mode_terminated, mode_fits⟩

def readByte : Request := .fread firstFree ⟨1, 1, byte_fits⟩

def twoFilesRun (labels : List Request) : Option (Machine Disk) :=
  labels.foldlM (fun m request => (request.perform (disk fun _ => 2) m).toOption) twoFiles

theorem twoFilesRun_reachable {labels : List Request} {m : Machine Disk} (computed : twoFilesRun labels = some m) :
    (streamRuns (disk fun _ => 2)).Reachable m :=
  System.Reachable.run (fun _ _ _ => Result.ok_of_toOption) (.initial ⟨rfl, rfl⟩) computed

def observe (m : Machine Disk) : Bool × Nat × Nat × List Byte × List Byte :=
  ((m.streams.stdioFiles firstFree).valid, (m.streams.stdioFiles firstFree).start,
    (m.streams.stdioFiles firstFree).stop, (m.session firstFree).returned, (m.session firstFree).fetched)

theorem fopen_after_partial_read :
    (∃ m, (streamRuns (disk fun _ => 2)).Reachable m ∧ observe m = (true, 1, 0, [], [])) ∧
    ∃ m, (streamRuns (disk fun _ => 2)).Reachable m ∧ observe m = (true, 2, 0, [121#8], []) := by
  have opened : (twoFilesRun [openFile 97#8 (by decide), readByte, .fclose firstFree, openFile 98#8 (by decide)]).map
      observe = some (true, 1, 0, [], []) := rfl
  have read : (twoFilesRun [openFile 97#8 (by decide), readByte, .fclose firstFree, openFile 98#8 (by decide),
      readByte]).map observe = some (true, 2, 0, [121#8], []) := rfl
  obtain ⟨m, run, seen⟩ := Option.map_eq_some_iff.mp opened
  obtain ⟨m', run', seen'⟩ := Option.map_eq_some_iff.mp read
  exact ⟨⟨m, twoFilesRun_reachable run, seen⟩, m', twoFilesRun_reachable run', seen'⟩

theorem disk_answers {s s' : Sys Disk}
    (some : 0 < ptr.size * ptr.nmemb) (run : fread (disk sizes) ptr f s = .ok (ret, bytes, f', s')) :
    ∀ fd, .read fd none ∉ s'.calls.drop s.calls.length := by
  have extended : ∃ new, s'.calls = s.calls ++ new ∧ NoneFailed new := by
    apply fread_invariant _ _ some run
    · rintro - _ - ⟨new, log, none⟩
      refine ⟨new ++ [_], by rw [← List.append_assoc, ← log]; rfl, fun fd here => ?_⟩
      rcases List.mem_append.mp here with old | last
      · exact none fd old
      · simp at last
    · exact ⟨[], by simp, by simp [NoneFailed]⟩
  obtain ⟨_, log, none⟩ := extended
  rw [log, List.drop_left]
  exact none

def apart (m : Machine Disk) : Request → Bool
  | .fopen .. => true
  | .fread i ptr => 0 < ptr.size * ptr.nmemb ∧ (0 < (m.streams.stdioFiles i).start ∨ (m.streams.stdioFiles i).stop = 0)
  | .fwrite i _ | .fflush i | .fclose i => (m.streams.stdioFiles i).start = 0

theorem apart_separate {m : Machine Disk} (holds : apart m request = true) : Separate (disk sizes) m request := by
  cases request with
  | fopen path mode => trivial
  | fread i ptr =>
    obtain ⟨some, order⟩ := of_decide_eq_true holds
    exact ⟨order, fun ret bytes f s run => disk_answers some run⟩
  | fwrite i ptr => exact of_decide_eq_true (p := (m.streams.stdioFiles i).start = 0) holds
  | fflush i => exact of_decide_eq_true (p := (m.streams.stdioFiles i).start = 0) holds
  | fclose i => exact of_decide_eq_true (p := (m.streams.stdioFiles i).start = 0) holds

theorem fopen_starts_empty_ab : ∃ m, ((streamRuns (disk fun _ => 2)).restrict (Separate (disk fun _ => 2))).Reachable
    m ∧ observe m = (true, 1, 1, [122#8], [122#8]) ∧
    (∀ path mode i t, fopen (disk fun _ => 2) path mode m.streams = .ok (some i, t) →
      (t.stdioFiles i).start = 0 ∧ (t.stdioFiles i).stop = 0) ∧ (∀ i, (m.session i).Own) ∧
    ∀ request e, Separate (disk fun _ => 2) m request → request.perform (disk fun _ => 2) m = .error e →
      e = .emptyMode := by
  have computed : ([openFile 97#8 (by decide), .fread firstFree ⟨1, 5, by decide⟩, .fclose firstFree,
      openFile 98#8 (by decide), readByte].foldlM
      (fun m request => if apart m request then (request.perform (disk fun _ => 2) m).toOption else none)
      twoFiles).map observe = some (true, 1, 1, [122#8], [122#8]) := rfl
  obtain ⟨m, run, seen⟩ := Option.map_eq_some_iff.mp computed
  have reachable : ((streamRuns (disk fun _ => 2)).restrict (Separate (disk fun _ => 2))).Reachable m := by
    refine System.Reachable.run ?_ (.initial ⟨rfl, rfl⟩) run
    intro m _ _ step
    split_ifs at step with holds
    exact ⟨apart_separate holds, Result.ok_of_toOption step⟩
  exact ⟨m, reachable, seen, fopen_starts_empty (disk fun _ => 2) reachable⟩

end Petix.Proof.Stdio
