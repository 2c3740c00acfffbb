import Petix.Proof.Proc.Files

namespace Petix.Proof.Proc
open Library Kernel.Sync Kernel.Pipes Kernel.Proc Kernel.Syscall
open Spec.Files Spec.Processes Result

variable {k k' : State} {p : Slot} {f n : Nat} {call : Call}
variable {q : Slot} {i : Fin 16}

/-- The books stay right, and an entry that is free afterwards has kept its descriptors, unless it belongs
to the process that exits, which has none left. -/
structure Settled (k : State) (call : Call) (k' : State) : Prop where
  balanced : Balanced k'
  vacated : ∀ q, (k'.ptable q).rs = .noproc ∨ (k'.ptable q).rs = .terminated →
    slot k' q = slot k q ∧ (∀ code, call ≠ .sysExit code) ∨ q ≠ pidOff k.curpid ∧ slot k' q = slot k q ∨
      ∀ i, slot k' q i = none

theorem SameFiles.settled (same : SameFiles k k') (balanced : Balanced k) (alive : ∀ code, call ≠ .sysExit code) :
    Settled k call k' :=
  ⟨same.balanced balanced, fun q _ => .inl ⟨by rw [same.slots], alive⟩⟩

theorem Kept.settled (kept : Kept (pidOff k.curpid) k k') (framed : Framed k k') (idle : Idle k)
    (running : (k.ptable (pidOff k.curpid)).rs = .running) : Settled k call k' := by
  refine ⟨kept.balanced, ?_⟩
  intro q free
  have other : q ≠ pidOff k.curpid := ?_
  · exact .inr (.inl ⟨other, kept.others q other⟩)
  rintro rfl
  have entry : (k'.ptable (pidOff k.curpid)).rs = (k.ptable (pidOff k.curpid)).rs :=
    congrArg (fun t => (t.entry (pidOff k.curpid)).rs) (framed idle).1
  rw [entry, running] at free
  simp at free

theorem of_total {α : Type} {result : Except Fault (α × State)} {P : State → Prop} {ret : α}
    (total : ∃ ret k', result = .ok (ret, k') ∧ P k') (run : result = .ok (ret, k')) : P k' := by
  obtain ⟨_, _, run', holds⟩ := total
  cases run'.symm.trans run
  exact holds

theorem Active.current {context : Context} (active : Active k context) (sound : Sound k) :
    getPcb k k.curpid = some (pidOff k.curpid) :=
  getPcb_iff.mpr ⟨rfl, live_of_running (t := tableOf k) active.running, sound.numbered.current⟩

theorem next_settled (sound : Sound k) (balanced : Balanced k) (vacant : Vacant k)
    (step : next k call = .ok (some k')) : Settled k call k' := by
  have idle := sound.idle
  cases next_took step with
  | tick call => exact (sched_same call).settled balanced nofun
  | sysOpen active call =>
    exact (of_total (sysOpen_kept balanced idle (active.current sound)) call).settled (sysOpen_framed call) idle
      active.running
  | sysClose active call =>
    exact (of_total (sysClose_kept balanced idle (active.current sound)) call).settled (sysClose_recounts call).framed idle
      active.running
  | sysDup2 active call =>
    exact (of_total (sysDup2_kept balanced idle (active.current sound)) call).settled (sysDup2_recounts call).framed idle
      active.running
  | sysPipe active call =>
    exact (of_total (sysPipe_kept balanced (active.current sound)) call).settled (sysPipe_framed call) idle active.running
  | sysFork active call =>
    obtain ⟨_, _, run, balanced, others⟩ := sysFork_balanced balanced vacant (active.current sound)
    cases run.symm.trans call
    refine ⟨balanced, ?_⟩
    intro q free
    refine .inl ⟨others q ?_, by simp⟩
    intro ready
    rcases free with free | free
    · cases ready.symm.trans free
    · cases ready.symm.trans free
  | sysExec active call =>
    obtain ⟨_, run, kept⟩ := sysExec_kept balanced idle (active.current sound)
    cases run.symm.trans call
    exact kept.settled (sysExec_recounts call).framed idle active.running
  | sysExit active call =>
    obtain ⟨balanced, others, empty⟩ := sysExit_balanced balanced idle call
    refine ⟨balanced, ?_⟩
    intro q _
    by_cases same : q = pidOff k.curpid
    · exact .inr (.inr (same ▸ empty))
    · exact .inr (.inl ⟨same, others q same⟩)
  | sysWaitpid _ call => exact (sysWaitpid_same call).settled balanced nofun
  | waitpidBlock => exact waitpidBlock_same.settled balanced nofun
  | waitpidReap _ call => exact (waitpidReap_same call).settled balanced nofun

theorem dupOpenFd_ptable (call : dupOpenFd k q i = .ok k') : k'.ptable = k.ptable := by
  unfold dupOpenFd at call
  split_ifs at call
  · rw [Except.ok.inj call]
  · obtain ⟨_, -, call⟩ := bind_ok call
    obtain ⟨_, -, call⟩ := bind_ok call
    rw [← pure_ok call]
    rfl

theorem dupAll_ptable {fds : List (Fin 16)} (run : fds.foldlM (fun k i => dupOpenFd k q i) k = .ok k') :
    k'.ptable = k.ptable := by
  induction fds generalizing k with
  | nil => rw [pure_ok run]
  | cons i fds ih =>
    obtain ⟨_, first, rest⟩ := bind_ok run
    rw [ih rest, dupOpenFd_ptable first]

inductive Forked (k : State) : Int × State → Prop
  | full : allocProc k = none → Forked k (-EAGAIN, k)
  | made {new : Slot} {k' : State} : (allocProc k).isSome → (k.ptable new).rs = .noproc →
      (k'.ptable new).rs ≠ .noproc → (k'.ptable new).ppid = (k.ptable (pidOff k.curpid)).pid →
      (k'.ptable new).fds = (k.ptable (pidOff k.curpid)).fds → (∀ q, q ≠ new → k'.ptable q = k.ptable q) →
      Forked k ((k'.ptable new).pid, k')

theorem sysFork_forked {ret : Int} (running : (k.ptable (pidOff k.curpid)).rs = .running)
    (call : sysFork k = .ok (ret, k')) : Forked k (ret, k') := by
  obtain ⟨_, here, call⟩ := bind_ok call
  obtain ⟨rfl, -⟩ := current_found here
  cases alloc : allocProc k with
  | none =>
    rw [alloc] at call
    cases pure_ok call
    exact .full alloc
  | some made =>
    obtain ⟨new, _⟩ := made
    rw [alloc] at call
    obtain ⟨free, rfl⟩ := allocProc_some alloc
    obtain ⟨_, copy, call⟩ := bind_ok call
    cases pure_ok call
    have ptable : k'.ptable = (forkPcb (claimProc k new) (pidOff k.curpid) new).ptable := dupAll_ptable copy
    have other : pidOff k.curpid ≠ new := by
      rintro rfl
      rw [running] at free
      cases free
    refine .made (by rw [alloc]; rfl) free ?_ ?_ ?_ ?_
    · rw [ptable, forkPcb, setPcb_same]
      simp
    · rw [ptable, forkPcb, setPcb_same, claimProc, setPcb_other other]
    · rw [ptable, forkPcb, setPcb_same, claimProc, setPcb_other other]
    · intro _ apart
      rw [ptable, forkPcb, setPcb_other apart, claimProc, setPcb_other apart]

theorem step_free {t t' : Table} (step : Step t call t') (reapable : Reapable t)
    (free : (t'.entry q).rs = .noproc ∨ (t'.entry q).rs = .terminated) :
    (t.entry q).rs = .noproc ∨ (t.entry q).rs = .terminated ∨ (∃ code, call = .sysExit code) ∧ q = t.current := by
  rcases free with gone | dead
  · rcases step_steady_or step with steady | ⟨new, _, -, -, free, -, rfl⟩ | ⟨c, -, context, running, found, rfl⟩
    · exact .inl (not_not.mp fun live => (steady q).2.2.mpr live gone)
    · by_cases same : q = new
      · exact .inl (same ▸ free)
      · rw [set_entry_other same] at gone
        exact .inl gone
    · by_cases same : q = c
      · obtain ⟨d, found', dead, -⟩ := reapable t.current (live_of_running running) context (by simp [running])
        obtain rfl : d = c := found'.1.symm.trans found.1
        exact .inr (.inl (same ▸ dead))
      · rw [reap_other same] at gone
        exact .inl (not_not.mp fun live => (steady_unwait t t.current q).2.2.mpr live gone)
  · exact .inr (step_terminated step dead)

structure Accounted (k : State) : Prop where
  sound : Sound k
  balanced : Balanced k
  vacant : Vacant k

theorem accounted_step (accounted : Accounted k) (step : kernel.step k call k') : Accounted k' := by
  obtain ⟨sound, balanced, vacant⟩ := accounted
  have settled := next_settled sound balanced vacant step
  obtain ⟨refined, -⟩ := next_refines step sound.idle
  refine ⟨sound_step sound step, settled.balanced, ?_⟩
  intro q free i
  have earlier := step_free refined sound.reapable free
  rcases settled.vacated q free with ⟨same, alive⟩ | ⟨other, same⟩ | empty
  · rw [same]
    rcases earlier with gone | dead | ⟨⟨code, exit⟩, -⟩
    · exact vacant q (.inl gone) i
    · exact vacant q (.inr dead) i
    · exact absurd exit (alive code)
  · rw [same]
    rcases earlier with gone | dead | ⟨-, current⟩
    · exact vacant q (.inl gone) i
    · exact vacant q (.inr dead) i
    · exact absurd current other
  · exact empty i

theorem accounted_initial : Accounted initProc := by
  have slots (p : Slot) (i : Fin 16) : slot initProc p i = none := by
    rw [initProc_eq]
    by_cases same : p = 0
    · subst same
      rfl
    · simp only [slot, Function.update_of_ne same]
      rfl
  have unreferred (f : Nat) : refs initProc f = 0 := by
    by_contra referred
    obtain ⟨p, i, here⟩ := RefCount.total_pos_iff.mp (Nat.pos_of_ne_zero referred)
    rw [slots] at here
    cases here
  refine ⟨sound_initial, ⟨?_, ?_⟩, fun p _ i => slots p i⟩
  · rw [initProc_eq]
    constructor
    · intro f file here
      cases here
    · intro f _
      rw [← initProc_eq]
      exact unreferred f
    · intro f _
      exact ⟨rfl, rfl⟩
    · intro f _ here
      cases here
    · intro f below
      cases below
  · constructor
    · intro n _
      rfl
    · intro f fops held here
      cases here
    · intro f fops side n here
      cases here
    · intro _ _ _ here
      cases here
    · intro _ _ _ _ _ here
      cases here

theorem reachable_accounted (reachable : kernel.Reachable k) : Accounted k :=
  reachable.invariant (fun _ start => start ▸ accounted_initial) fun _ _ _ => accounted_step

theorem slots_eq_refs (vacant : Vacant k) (f : Nat) : slots k f = refs k f := by
  unfold slots refs
  congr 1
  funext p i
  split_ifs with free
  · exact (vacant p (.inl free) i).symm
  · rfl

theorem live_of_slot (vacant : Vacant k) (here : slot k p i = some f) : (k.ptable p).rs ≠ .noproc := by
  intro free
  rw [vacant p (.inl free) i] at here
  cases here

theorem endOpen_iff {pipe : Pipe} (side : End) (accounted : Accounted k) (here : k.pipes n = some pipe) :
    isOpen pipe side = true ↔ EndOpen k side n := by
  obtain ⟨-, balanced, vacant⟩ := accounted
  constructor
  · intro isOpen
    obtain ⟨f, fops, data⟩ := balanced.ends.held_of_open n pipe side here isOpen
    obtain ⟨file, opened, equal⟩ := Option.map_eq_some_iff.mp data
    obtain ⟨-, positive⟩ := balanced.counts.counted f file opened
    obtain ⟨p, i, slot⟩ := RefCount.total_pos_iff.mp positive
    have ends := balanced.ends.piped f fops (some (side, n)) data
    obtain ⟨rfl, stored⟩ := Prod.mk.inj equal
    exact ⟨p, i, f, file, live_of_slot vacant slot, slot, opened, ends.mpr (by simp), stored⟩
  · rintro ⟨-, -, f, file, -, -, opened, -, data⟩
    obtain ⟨_, here', isOpen⟩ := balanced.ends.open_of_held f file.fops side n (by simp [dataOf, opened, data])
    obtain rfl := Option.some.inj (here.symm.trans here')
    exact isOpen

theorem file_counts_exact (reachable : kernel.Reachable k) :
    (∀ f file, k.files f = some file → file.refcnt = slots k f ∧ 0 < slots k f ∧ history k.log f = []) ∧
    (∀ f, f < k.nfiles → k.files f = none → slots k f = 0 ∧ ∃ fops, history k.log f = released f fops) ∧
    (∀ p i f, slot k p i = some f → ∃ file, k.files f = some file) ∧ ∀ n pipe, k.pipes n = some pipe →
      (pipe.owrite = true ↔ EndOpen k .write n) ∧ (pipe.oread = true ↔ EndOpen k .read n) := by
  have accounted := reachable_accounted reachable
  have balanced := accounted.balanced
  have vacant := accounted.vacant
  refine ⟨?_, ?_, ?_, ?_⟩
  · intro f file here
    rw [slots_eq_refs vacant]
    obtain ⟨count, positive⟩ := balanced.counts.counted f file here
    exact ⟨count, positive, balanced.counts.present f file here⟩
  · intro f below here
    rw [slots_eq_refs vacant]
    exact ⟨balanced.counts.absent f here, balanced.counts.closed f below here⟩
  · intro _ _ _ here
    exact balanced.counts.some_file (refs_pos here)
  · intro _ _ here
    exact ⟨endOpen_iff .write accounted here, endOpen_iff .read accounted here⟩

theorem file_counts_exact_forked :
    ∃ k pipe file, kernel.Reachable k ∧ k.pipes 0 = some pipe ∧ k.files 0 = some file ∧ file.refcnt = 2 ∧
      slots k 0 = 2 ∧ slots k 1 = 0 ∧ (∃ fops, history k.log 1 = released 1 fops) ∧
      EndOpen k .read 0 ∧ ¬ EndOpen k .write 0 := by
  have run : ([.sysPipe 0, .sysFork, .sysClose 1, .tick, .sysClose 1].foldlM advance initProc).map
      (fun k => ((k.pipes 0).map fun pipe => (pipe.owrite, pipe.oread),
        (k.files 0).map fun file => file.refcnt, (k.files 1).isNone, k.nfiles)) =
      some (some (false, true), some 2, true, 2) := by
    decide +kernel
  obtain ⟨k, computed, equal⟩ := Option.map_eq_some_iff.mp run
  simp only [Prod.mk.injEq, Option.map_eq_some_iff] at equal
  obtain ⟨⟨pipe, piped, writing, reading⟩, ⟨file, opened, count⟩, closed, _⟩ := equal
  have reachable : kernel.Reachable k := System.Reachable.run advance_sound (.initial rfl) computed
  obtain ⟨counted, freed, -, ends⟩ := file_counts_exact reachable
  obtain ⟨unused, history⟩ := freed 1 (by omega) (Option.isNone_iff_eq_none.mp closed)
  obtain ⟨write, read⟩ := ends 0 pipe piped
  refine ⟨k, pipe, file, reachable, piped, opened, count, ?_, unused, history, read.mp reading, ?_⟩
  · rw [← (counted 0 file opened).1, count]
  · intro opened
    rw [write.mpr opened] at writing
    cases writing

end Petix.Proof.Proc
