import Petix.Proof.Proc.FailedPipes
import Petix.Spec.Shell

namespace Petix.Proof.Shell
open Library Library.Result Kernel.Proc Kernel.Syscall Kernel.Shell
open Spec.Files Spec.Processes Spec.Shell Proof.Proc

variable {k k' : State} {p q : Slot} {r : Request} {c c' : Config} {line : List Byte}
variable {outside : Outside} {context : Context} {allowed : State → Request → Prop} {prog' : Shell Int}
variable {reply : Option Int}

def callOf : Request → Context → Call
  | .pipe2 flags, _ => .sysPipe flags
  | .fork, _ => .sysFork
  | .dup2 fd fd2, _ => .sysDup2 fd fd2
  | .execve _ _, _ => .sysExec
  | .close fd, _ => .sysClose fd
  | .exit status, _ => .sysExit status
  | .waitpid pid, .user => .sysWaitpid pid
  | .waitpid _, .scanned _ => .waitpidBlock
  | .waitpid _, .reaping => .waitpidReap

theorem process_callOf : process k q context (callOf r context) = Option.map (·.2) <$> serve k q outside r context := by
  cases r <;> cases context <;> simp only [callOf, process, serve, Functor.map_map, Option.map_some] <;> rfl

theorem serve_step {reply : Option (Reply r)} (running : (k.ptable (pidOff k.curpid)).rs = .running)
    (call : serve k (pidOff k.curpid) outside r (k.ptable (pidOff k.curpid)).context = .ok (some (reply, k'))) :
    ∃ call, kernel.step k call k' ∧ ∀ code, call = .sysExit code → r = .exit code := by
  generalize here : (k.ptable (pidOff k.curpid)).context = context at call
  refine ⟨callOf r context, ?_, ?_⟩
  · have taken := process_callOf.trans (congrArg (Option.map (·.2) <$> ·) call)
    have active : next k (callOf r context) =
        process k (pidOff k.curpid) (k.ptable (pidOff k.curpid)).context (callOf r context) := by
      cases r <;> cases context <;> exact if_pos running
    rw [here] at active
    exact active.trans taken
  · cases r <;> cases context <;> simp [callOf, eq_comm]

theorem serve_pipe2 {flags : Nat} {reply : Option (Reply (.pipe2 flags))}
    (call : serve k q outside (.pipe2 flags) context = .ok (some (reply, k'))) :
    ∃ ret fds filedes, sysPipe k flags = .ok ((ret, fds), k') ∧ reply = some (ret, filedes) ∧
      ∀ fd1 fd2, fds = some (fd1, fd2) → filedes = ((fd1.val : Int), (fd2.val : Int)) := by
  cases context with
  | user =>
    obtain ⟨⟨⟨ret, fds⟩, _⟩, run, equal⟩ := map_ok call
    cases equal
    refine ⟨ret, fds, _, run, rfl, ?_⟩
    rintro - - rfl
    rfl
  | _ => cases call

theorem serve_fork
    (call : serve k q outside .fork context = .ok (some (reply, k'))) :
    ∃ ret, sysFork k = .ok (ret, k') ∧ reply = some ret := by
  cases context with
  | user =>
    obtain ⟨⟨ret, _⟩, run, equal⟩ := map_ok call
    cases equal
    exact ⟨ret, run, rfl⟩
  | _ => cases call

theorem serve_close {fd : Int}
    (call : serve k q outside (.close fd) context = .ok (some (reply, k'))) :
    ∃ ret, sysClose k fd = .ok (ret, k') ∧ reply = some ret := by
  cases context with
  | user =>
    obtain ⟨⟨ret, _⟩, run, equal⟩ := map_ok call
    cases equal
    exact ⟨ret, run, rfl⟩
  | _ => cases call

def AtOnce : Request → Prop
  | .pipe2 _ | .fork | .close _ => True
  | _ => False

theorem serve_atOnce (once : AtOnce r) (call : serve k q outside r context = .ok (some (none, k'))) : False := by
  cases r with
  | pipe2 flags =>
    obtain ⟨_, _, _, -, replied, -⟩ := serve_pipe2 call
    cases replied
  | fork =>
    obtain ⟨_, -, replied⟩ := serve_fork call
    cases replied
  | close fd =>
    obtain ⟨_, -, replied⟩ := serve_close call
    cases replied
  | _ => exact once

theorem serve_waitpid {pid : Int} {reply : Option (Int × Int)}
    (call : serve k q outside (.waitpid pid) context = .ok (some (reply, k'))) :
    (context = .user ∧ ∃ ret, sysWaitpid k pid = .ok (ret, k') ∧ reply = ret.map fun ret => (ret, outside.wstatus)) ∨
    (∃ w, context = .scanned w ∧ k' = waitpidBlock k q w ∧ reply = none) ∨
    context = .reaping ∧ ∃ ret, waitpidReap k q = .ok (ret, k') ∧ reply = some (ret.1, (ret.2.toNat : Int)) := by
  cases context with
  | user =>
    obtain ⟨⟨ret, _⟩, run, equal⟩ := map_ok call
    cases equal
    exact .inl ⟨rfl, ret, run, rfl⟩
  | scanned w =>
    cases call
    exact .inr (.inl ⟨w, rfl, rfl, rfl⟩)
  | reaping =>
    obtain ⟨⟨ret, _⟩, run, equal⟩ := map_ok call
    cases equal
    exact .inr (.inr ⟨rfl, ret, run, rfl⟩)

structure World where
  kernel : State
  children : List Int

def view (c : Config) : World := ⟨c.kernel, c.children⟩

def setting (p : Slot) (allowed : State → Request → Prop) : Setting World Request Reply where
  rely w w' := (∃ call, kernel.step w.kernel call w'.kernel ∧ (call = .tick ∨ pidOff w.kernel.curpid ≠ p)) ∧
    w'.children = w.children
  performs r w reply w' := (pidOff w.kernel.curpid = p ∧ (w.kernel.ptable p).rs = .running ∧ allowed w.kernel r ∧
    ∃ outside, serve w.kernel p outside r (w.kernel.ptable p).context = .ok (some (reply, w'.kernel))) ∧
    w'.children = w.children ++ forked w.kernel r reply

theorem safe_atOnce {α : Type} {inv : World → Prop} {next : Reply r → Shell α}
    {post : α → World → Prop} {crash : World → Prop} {w : World} (once : AtOnce r)
    (stable : (setting p allowed).Stable inv) (holds : inv w)
    (done : ∀ w w' reply, inv w → (setting p allowed).performs r w (some reply) w' →
      (setting p allowed).Safe post crash (next reply) w') : (setting p allowed).Safe post crash (.call r next) w := by
  refine Setting.safe_call stable ?_ holds done
  rintro _ _ - ⟨⟨-, -, -, _, call⟩, -⟩
  exact (serve_atOnce once call).elim

theorem follows_program (granted : ∀ r next, c.current = p → c.shell = some (.call r next) → allowed c.kernel r)
    (step : c.next p (.program outside) = .ok (some c')) (after : c'.shell = some prog') :
    ∃ prog, c.shell = some prog ∧ (setting p allowed).Follows (view c) (view c') prog prog' := by
  simp only [Config.next] at step
  split_ifs at step with running
  · split at step
    · rename_i r next rest
      obtain ⟨_, call, equal⟩ := map_ok step
      obtain ⟨⟨reply, k⟩, rfl, rfl⟩ := Option.map_eq_some_iff.mp equal
      by_cases own : c.current = p
      · rw [Config.rest, if_pos own] at rest
        have served : (setting p allowed).performs r (view c) reply (view (c.served p r next reply k)) := by
          rw [Config.served, if_pos own]
          subst own
          exact ⟨⟨rfl, running, granted r next rfl rest, outside, call⟩, rfl⟩
        refine ⟨_, rest, ?_⟩
        rw [Config.served, if_pos own] at after
        cases reply with
        | some reply =>
          cases after
          exact .done rfl served
        | none =>
          simp only [goOn] at after
          split_ifs at after
          cases after
          exact .waits rfl served
      · obtain ⟨label, taken, -⟩ := serve_step running call
        rw [Config.served, if_neg own] at after ⊢
        exact ⟨prog', after, .other ⟨⟨label, taken, .inr own⟩, rfl⟩⟩
    · cases step
  · cases step

theorem follows {move : Move} (granted : ∀ outside, move = .program outside →
      ∀ r next, c.current = p → c.shell = some (.call r next) → allowed c.kernel r)
    (step : (shellOn p line).step c move c') (after : c'.shell = some prog') :
    ∃ prog, c.shell = some prog ∧ (setting p allowed).Follows (view c) (view c') prog prog' := by
  cases move with
  | tick =>
    obtain ⟨k, dispatched, rfl⟩ := Option.map_eq_some_iff.mp (Except.ok.inj step)
    exact ⟨prog', after, .other ⟨⟨.tick, congrArg Except.ok dispatched, .inl rfl⟩, rfl⟩⟩
  | program outside => exact follows_program (granted outside rfl) step after
  | other call =>
    change c.next p (.other call) = _ at step
    simp only [Config.next] at step
    split_ifs at step with loose
    · have taken : (Option.map fun k => { c with kernel := k, image := c.inherit k none }) <$>
          Petix.Kernel.Syscall.next c.kernel call = .ok (some c') ∧ call ≠ .tick := by
        cases call with
        | tick => cases step
        | _ => exact ⟨step, by simp⟩
      obtain ⟨_, called, equal⟩ := map_ok taken.1
      obtain ⟨_, rfl, rfl⟩ := Option.map_eq_some_iff.mp equal
      have other : c.current ≠ p := by
        intro own
        rw [Config.rest, if_pos own, Option.isNone_iff_eq_none] at loose
        cases after.symm.trans loose
      exact ⟨prog', after, .other ⟨⟨call, called, .inr other⟩, rfl⟩⟩
    · cases step

def standard : Option State :=
  (List.replicate 3 (Call.sysOpen 0 ⟨0, 0, 0, true, 0⟩)).foldlM Petix.Kernel.Syscall.advance initProc

def calls (line : List Byte) (k : State) : Config := ⟨k, some (doLine line), fun _ => none, []⟩

def ran (line : List Byte) (moves : List Move) : Option (Config × Config) :=
  standard.bind fun k =>
    (moves.foldlM (fun c move => if Succeeds 0 c move then advance 0 c move else none) (calls line k)).map fun c =>
      (calls line k, c)

def returned : Option (Shell Int) → Option Int
  | some (.ret status) => some status
  | _ => none

theorem returned_some {shell : Option (Shell Int)} {status : Int} (ended : returned shell = some status) :
    shell = some (.ret status) := by
  unfold returned at ended
  split at ended
  · cases ended
    rfl
  · cases ended

theorem ran_sound {moves : List Move} (computed : ran line moves = some (c, c')) :
    (shellOn 0 line).initial c ∧ ((shellOn 0 line).restrict (Succeeds 0)).LeadsTo c c' := by
  obtain ⟨k, opened, computed⟩ := Option.bind_eq_some_iff.mp computed
  obtain ⟨_, computed, equal⟩ := Option.map_eq_some_iff.mp computed
  cases equal
  have here : standard.map (fun k => (pidOff k.curpid, (k.ptable 0).rs, (k.ptable 0).context)) =
      some (0, .running, .user) := by
    decide +kernel
  rw [opened] at here
  simp only [Option.map_some, Option.some.injEq, Prod.mk.injEq] at here
  obtain ⟨current, running, user⟩ := here
  have reachable : kernel.Reachable k := System.Reachable.run Petix.Kernel.Syscall.advance_sound (.initial rfl) opened
  exact ⟨⟨reachable, current, running, user, rfl, rfl⟩, System.leadsTo_run_guarded (advance_sound 0 line) computed⟩

def runs : List Move :=
  let outside : Outside := ⟨(0, 0), 0, none⟩
  [.program outside, .program outside, .program outside, .other (.sysExit 0), .tick]

def single : List Move :=
  let outside : Outside := ⟨(0, 0), 0, none⟩
  [.program outside, .program outside, .program outside, .tick] ++ runs ++ [.program outside]

def pipeline : List Move :=
  let outside : Outside := ⟨(0, 0), 0, none⟩
  List.replicate 6 (.program outside) ++ [.tick] ++ runs ++ runs ++ [.program outside]

theorem pipeline_ran : ∃ start c, ran [0x61, 0x7c, 0x62] pipeline = some (start, c) ∧ c.shell = some (.ret 0) ∧
      slot start.kernel 0 3 = none ∧ slot c.kernel 0 3 ≠ none ∧
      c.children = [1025, 1026] ∧ (c.kernel.ptable 1).rs = .terminated ∧
      (c.kernel.ptable 1).ppid = (c.kernel.ptable 0).pid ∧ (c.kernel.ptable 1).pid = 1025 := by
  have run : (ran [0x61, 0x7c, 0x62] pipeline).map (fun r => (returned r.2.shell, decide (
      slot r.1.kernel 0 3 = none ∧ slot r.2.kernel 0 3 ≠ none ∧
      r.2.children = [1025, 1026] ∧ (r.2.kernel.ptable 1).rs = .terminated ∧
      (r.2.kernel.ptable 1).ppid = (r.2.kernel.ptable 0).pid ∧ (r.2.kernel.ptable 1).pid = 1025))) =
      some (some 0, true) := by
    decide +kernel
  obtain ⟨⟨start, c⟩, computed, equal⟩ := Option.map_eq_some_iff.mp run
  obtain ⟨ended, observed⟩ := Prod.mk.inj equal
  exact ⟨start, c, computed, returned_some ended, of_decide_eq_true observed⟩

theorem single_ran : ∃ start c, ran [0x61] single = some (start, c) ∧ c.shell = some (.ret 0) := by
  have run : (ran [0x61] single).map (fun r => returned r.2.shell) = some (some 0) := by decide +kernel
  obtain ⟨⟨start, c⟩, computed, ended⟩ := Option.map_eq_some_iff.mp run
  exact ⟨start, c, computed, returned_some ended⟩

end Petix.Proof.Shell
