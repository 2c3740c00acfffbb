import Petix.Proof.Sync.Waking
import Petix.Spec.Pipes

namespace Petix.Proof.Pipe
open Function List Library Kernel.Sync Kernel.Pipes Kernel.Proc Kernel.PipeClose Kernel.SyncCalls
open Kernel.Syscall Spec.Pipes Proof.Sync

variable {k k' : State} {file : End → Nat} {p f : Nat} {side : End} {oread owrite : Bool} {schedule : List End}

theorem wake_files {pids : List Int} (call : wake k pids = .ok k') : k'.files = k.files ∧ k'.pipes = k.pipes := by
  induction pids generalizing k with
  | nil =>
    cases call
    exact ⟨rfl, rfl⟩
  | cons pid pids ih =>
    obtain ⟨_, -, rest⟩ := Result.bind_ok call
    obtain ⟨-, -, rest⟩ := Result.bind_ok rest
    obtain ⟨files, pipes⟩ := ih rest
    exact ⟨files, pipes⟩

def freeClosed (k : State) (f p : Nat) (file : File) (pipe : Pipe) : Except Fault State :=
  if !pipe.oread && !pipe.owrite then
    .ok (((k.setPipe p none).emit (.kfreePipe p)).setFile f (some { file with privateData := none }))
  else .ok k

section
variable {held : File} (opened : k.files f = some held)
include opened

section
variable (data : held.privateData = some (side, p))
include data

theorem closeSection_eq : closeSection k f = deref .freedPipe (k.pipes p) >>= fun pipe =>
      wake (k.setPipe p (some (pcloseSection pipe side).1)) (pcloseSection pipe side).2 := by
  unfold closeSection
  rw [opened]
  change Except.ok held >>= _ = _
  rw [Result.ok_bind, data]

theorem closeTest_eq : closeTest k f = deref .freedPipe (k.pipes p) >>= freeClosed k f p held := by
  unfold closeTest
  rw [opened]
  change Except.ok held >>= _ = _
  rw [Result.ok_bind, data]
  rfl

theorem pclose_eq : pclose k f = deref .freedPipe (k.pipes p) >>= fun pipe =>
      wake (k.setPipe p (some (pcloseSection pipe side).1)) (pcloseSection pipe side).2 >>= fun k =>
        freeClosed k f p held (pcloseSection pipe side).1 := by
  unfold pclose
  rw [opened]
  change Except.ok held >>= _ = _
  rw [Result.ok_bind, data]
  rfl

end

end

def unserved (sem : Sem) : List Waiter := (sem.lst.filter (!Served 1 ·)).reverse

def served (sem : Sem) : List Int := (sem.lst.filter (Served 1)).map Waiter.pid

theorem pcloseSection_eq (pipe : Pipe) (side : End) : pcloseSection pipe side =
    ({ closeEnd pipe side with wcond := ⟨1, unserved pipe.wcond⟩, rcond := ⟨1, unserved pipe.rcond⟩ },
      served pipe.wcond ++ served pipe.rcond) := by
  cases side with
  | read => simp [pcloseSection, wakeCond, condWake, semSignal_eq, closeEnd, unserved, served]
  | write => simp [pcloseSection, wakeCond, condWake, semSignal_eq, closeEnd, unserved, served]

theorem served_perm (sem : Sem) : (served sem ++ (unserved sem).map Waiter.pid).Perm (sem.lst.map Waiter.pid) := by
  unfold served unserved
  rw [map_reverse]
  refine ((reverse_perm _).append_left _).trans ?_
  rw [← map_append]
  exact (filter_append_perm (Served 1) sem.lst).map _

theorem perm_shuffle {α : Type} (a b c d : List α) : ((a ++ b) ++ (c ++ d)).Perm ((a ++ c) ++ (b ++ d)) := by
  rw [append_assoc, append_assoc]
  apply List.Perm.append_left
  rw [← append_assoc, ← append_assoc]
  exact perm_append_comm.append_right d

theorem section_perm (pipe : Pipe) (side : End) :
    ((pcloseSection pipe side).2 ++ waiters (pcloseSection pipe side).1).Perm (waiters pipe) := by
  rw [pcloseSection_eq]
  unfold waiters
  rw [map_append, map_append]
  refine (perm_shuffle _ _ _ _).trans ?_
  exact (served_perm pipe.wcond).append (served_perm pipe.rcond)

theorem section_flags (pipe : Pipe) (side : End) : (pcloseSection pipe side).1.oread = (pipe.oread && side ≠ .read) ∧
    (pcloseSection pipe side).1.owrite = (pipe.owrite && side ≠ .write) := by
  rw [pcloseSection_eq]
  cases side with
  | read => simp [closeEnd]
  | write => simp [closeEnd]

theorem closeSection_shared (shared : Shared k file p oread owrite) (side : End) :
    ∃ k', closeSection k (file side) = .ok k' ∧
      Shared k' file p (oread && side ≠ .read) (owrite && side ≠ .write) ∧ k'.log = k.log := by
  obtain ⟨pipe, here, rfl, rfl, distinct, asleep⟩ := shared.pipe
  obtain ⟨_, held, data⟩ := shared.ends side
  set pipe' := (pcloseSection pipe side).1 with after
  set woken := (pcloseSection pipe side).2
  have perm : (woken ++ waiters pipe').Perm (waiters pipe) := section_perm pipe side
  obtain ⟨once, once', apart⟩ := nodup_append.mp (perm.nodup_iff.mpr distinct)
  have wakes : wake (k.setPipe p (some pipe')) woken = .ok (readied (k.setPipe p (some pipe')) woken) := by
    have housed : Housed (k.setPipe p (some pipe')) := shared.housed
    apply wake_eq housed once
    intro pid here
    exact asleep pid (perm.subset (mem_append_left _ here))
  refine ⟨readied (k.setPipe p (some pipe')) woken, ?_, ?_, rfl⟩
  · rw [closeSection_eq held data, here]
    exact wakes
  · obtain ⟨reads, writes⟩ := section_flags pipe side
    refine ⟨housed_readied shared.housed, shared.ends, pipe', ?_, reads, writes, once', ?_⟩
    · simp [readied, State.setPipe]
    · intro pid waits
      have sleeps : Sleeps k pid := asleep pid (perm.subset (mem_append_right _ waits))
      exact sleeps.readied fun named => apart pid named pid waits rfl

theorem closeTest_open (shared : Shared k file p oread owrite) (either : (oread || owrite) = true) (side : End) :
    closeTest k (file side) = .ok k := by
  obtain ⟨pipe, here, rfl, rfl, -⟩ := shared.pipe
  obtain ⟨_, held, data⟩ := shared.ends side
  rw [closeTest_eq held data, here]
  apply if_neg
  cases reads : pipe.oread with
  | true => simp
  | false => simpa [reads] using either

theorem closeTest_free (shared : Shared k file p false false) (side : End) :
    ∃ k', closeTest k (file side) = .ok k' ∧ k'.log = k.log ++ [.kfreePipe p] ∧ k'.pipes p = none ∧
      ∀ f, f ≠ file side → k'.files f = k.files f := by
  obtain ⟨pipe, here, reads, writes, -⟩ := shared.pipe
  obtain ⟨f, held, data⟩ := shared.ends side
  refine ⟨((k.setPipe p none).emit (.kfreePipe p)).setFile (file side) (some { f with privateData := none }),
    ?_, rfl, ?_, ?_⟩
  · rw [closeTest_eq held data, here]
    apply if_pos
    simp [reads, writes]
  · simp [State.setFile, State.emit, State.setPipe]
  · intro _ other
    simp [State.setFile, State.emit, State.setPipe, other]

theorem closeTest_freed {held : File} (gone : k.pipes p = none) (opened : k.files f = some held)
    (data : held.privateData = some (side, p)) : closeTest k f = .error .freedPipe := by
  rw [closeTest_eq opened data, gone]
  rfl

def opposite : End → End
  | .read => .write
  | .write => .read

theorem interleavings (order : Interleaving schedule) : ∃ first,
    schedule = [first, first, opposite first, opposite first] ∨
    schedule = [first, opposite first, first, opposite first] ∨
    schedule = [first, opposite first, opposite first, first] := by
  have four := order.length_eq
  match schedule, four with
  | [a, b, c, d], _ =>
    unfold Interleaving at order
    refine ⟨a, ?_⟩
    revert order
    cases a <;> cases b <;> cases c <;> cases d <;> decide

section
variable {c c' : Closers} {fault : Fault} {later : List End}

theorem closeStep_section (before : c.left side = false) (call : closeSection c.k (file side) = .ok k') :
    closeStep file c side = .ok ⟨k', update c.left side true⟩ := by
  rw [closeStep, if_neg (by simp [before]), call]
  rfl

theorem closeStep_test (after : c.left side = true) (call : closeTest c.k (file side) = .ok k') :
    closeStep file c side = .ok ⟨k', c.left⟩ := by
  rw [closeStep, if_pos after, call]
  rfl

theorem closeStep_fault (after : c.left side = true) (call : closeTest c.k (file side) = .error fault) :
    closeStep file c side = .error fault := by
  rw [closeStep, if_pos after, call]
  rfl

theorem steps_ok (step : closeStep file c side = .ok c') :
    (side :: later).foldlM (closeStep file) c = later.foldlM (closeStep file) c' := by
  rw [foldlM_cons, step]
  rfl

theorem steps_error (step : closeStep file c side = .error fault) :
    (side :: later).foldlM (closeStep file) c = .error fault := by
  rw [foldlM_cons, step]
  rfl

end

section
variable (shared : Shared k file p true true) (first : End)
include shared

theorem ends_apart : file first ≠ file (opposite first) := by
  intro same
  obtain ⟨_, held, data⟩ := shared.ends first
  obtain ⟨_, held', data'⟩ := shared.ends (opposite first)
  rw [same, held'] at held
  cases held
  rw [data'] at data
  cases first <;> cases data

theorem both_sections : ∃ k₁ k₂ oread owrite, closeSection k (file first) = .ok k₁ ∧
    Shared k₁ file p oread owrite ∧ (oread || owrite) = true ∧
    closeSection k₁ (file (opposite first)) = .ok k₂ ∧ Shared k₂ file p false false ∧ k₂.log = k.log := by
  obtain ⟨k₁, call, shared₁, log⟩ := closeSection_shared shared first
  obtain ⟨k₂, call₂, shared₂, log₂⟩ := closeSection_shared shared₁ (opposite first)
  refine ⟨k₁, k₂, _, _, call, shared₁, ?_, call₂, ?_, log₂.trans log⟩
  · cases first <;> rfl
  · cases first <;> exact shared₂

theorem serial_closes : ∃ c, [first, first, opposite first, opposite first].foldlM (closeStep file)
    ⟨k, fun _ => false⟩ = .ok c ∧ c.k.log = k.log ++ [.kfreePipe p] := by
  obtain ⟨_, _, _, _, call, shared₁, either, call₂, shared₂, log⟩ := both_sections shared first
  obtain ⟨k₃, call₃, log₃, -⟩ := closeTest_free shared₂ (opposite first)
  refine ⟨⟨k₃, update (update (fun _ => false) first true) (opposite first) true⟩, ?_, ?_⟩
  · rw [steps_ok (closeStep_section rfl call),
      steps_ok (closeStep_test (by simp) (closeTest_open shared₁ either first)),
      steps_ok (closeStep_section (by cases first <;> rfl) call₂), steps_ok (closeStep_test (by simp) call₃)]
    rfl
  · rw [log₃, log]

theorem crossed_closes {third fourth : End} (tests : [third, fourth].Perm [first, opposite first]) :
    [first, opposite first, third, fourth].foldlM (closeStep file) ⟨k, fun _ => false⟩ = .error .freedPipe := by
  obtain ⟨_, _, -, -, call, -, -, call₂, shared₂, -⟩ := both_sections shared first
  obtain ⟨_, call₃, -, gone, files⟩ := closeTest_free shared₂ third
  have last : fourth = opposite third := by
    revert tests
    cases first <;> cases third <;> cases fourth <;> decide
  obtain ⟨_, held, data⟩ := shared₂.ends fourth
  have apart : file fourth ≠ file third := by
    rw [last]
    exact (ends_apart shared third).symm
  have inside : ∀ side, update (update (fun _ => false) first true) (opposite first) true side = true := by
    intro side
    cases first <;> cases side <;> rfl
  rw [steps_ok (closeStep_section rfl call), steps_ok (closeStep_section (by cases first <;> rfl) call₂),
    steps_ok (closeStep_test (inside third) call₃)]
  exact steps_error (closeStep_fault (inside fourth)
    (closeTest_freed gone ((files _ apart).trans held) data))

end

theorem pipe_freed_once_iff (shared : Shared k file p true true) (order : Interleaving schedule) :
    (∃ c, schedule.foldlM (closeStep file) ⟨k, fun _ => false⟩ = .ok c ∧ c.k.log = k.log ++ [.kfreePipe p]) ↔
      Serial schedule := by
  constructor
  · rintro ⟨_, run, -⟩
    obtain ⟨first, rfl | rfl | rfl⟩ := interleavings order
    · exact ⟨first, rfl⟩
    · rw [crossed_closes shared first (.refl _)] at run
      cases run
    · rw [crossed_closes shared first (.swap _ _ _)] at run
      cases run
  · rintro ⟨_, serial⟩
    obtain ⟨first, rfl | rfl | rfl⟩ := interleavings order
    · exact serial_closes shared first
    · cases first <;> cases serial
    · cases first <;> cases serial

def endFile : End → Nat
  | .read => 0
  | .write => 1

def lastOpen : State :=
  ((zeroed.setPipe 0 (some newPipe)).setFile 0 (some ⟨some .pipe, some (.read, 0), 0⟩)).setFile 1
    (some ⟨some .pipe, some (.write, 0), 0⟩)

theorem lastOpen_shared : Shared lastOpen endFile 0 true true where
  housed p live := absurd rfl live
  ends side := by
    cases side with
    | read => exact ⟨_, rfl, rfl⟩
    | write => exact ⟨_, rfl, rfl⟩
  pipe := ⟨newPipe, rfl, rfl, rfl, nodup_nil, nofun⟩

theorem pipe_freed_once_serial : ∃ c, [.read, .read, .write, .write].foldlM (closeStep endFile)
    ⟨lastOpen, fun _ => false⟩ = .ok c ∧ c.k.log = [.kfreePipe 0] :=
  (pipe_freed_once_iff lastOpen_shared (.refl _)).mpr ⟨.read, rfl⟩

theorem pipe_used_after_free : Shared lastOpen endFile 0 true true ∧ Interleaving [.read, .write, .read, .write] ∧
    [.read, .write, .read, .write].foldlM (closeStep endFile) ⟨lastOpen, fun _ => false⟩ = .error .freedPipe := by
  refine ⟨lastOpen_shared, ?_, ?_⟩
  · unfold Interleaving
    decide
  · exact crossed_closes lastOpen_shared .read (.refl _)

end Petix.Proof.Pipe
