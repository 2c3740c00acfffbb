import Petix.Proof.Proc.Frame

namespace Petix.Proof.Proc
open Library Kernel.Sync Kernel.Pipes Kernel.Proc Kernel.Syscall
open Spec.Processes Result

variable {k k' : State} {p q : Slot} {t : Table}
variable {ptable : Slot → Pcb} {ppid pid w : Int} {slots : List Slot} {child : Bool} {call : Call}
variable {new : Slot} {ret : Int × BitVec 8}

@[simp] theorem set_entry_same (t : Table) (p : Slot) (e : Entry) : (t.set p e).entry p = e := by simp [Table.set]

theorem set_entry_other {e : Entry} (other : q ≠ p) : (t.set p e).entry q = t.entry q := by simp [Table.set, other]

@[simp] theorem set_set (t : Table) (p : Slot) (e e' : Entry) : (t.set p e).set p e' = t.set p e' := by simp [Table.set]

theorem pidOff_makePid (gen : Int) (off : Slot) : pidOff (makePid gen off) = off := by
  apply Fin.ext
  simp only [pidOff, makePid, signed32]
  omega

theorem search_some {rs : ReadyState} {start off : Slot} {fuel : Nat}
    (found : search ptable rs start fuel off = some p) : (ptable p).rs = rs := by
  induction fuel generalizing off with
  | zero => cases found
  | succ fuel ih =>
    rw [search] at found
    split_ifs at found with here
    · exact Option.some.inj found ▸ here
    · exact ih found

theorem scan_terminated {c : Slot}
    (found : scanChildren ptable ppid pid slots child = .terminated c) :
    (ptable c).rs = .terminated ∧ (ptable c).ppid = ppid ∧ Matches pid (ptable c).pid := by
  induction slots generalizing child with
  | nil =>
    rw [scanChildren] at found
    split_ifs at found
  | cons d rest ih =>
    rw [scanChildren] at found
    split_ifs at found with empty here dead
    · exact ih found
    · cases found
      exact ⟨dead, here⟩
    · exact ih found
    · exact ih found

theorem scan_running (found : scanChildren ptable ppid pid slots child = .running) :
    (child = true ∨ ∃ c, (ptable c).rs ≠ .noproc ∧ (ptable c).ppid = ppid ∧ Matches pid (ptable c).pid) ∧
    ∀ c ∈ slots, (ptable c).ppid = ppid → Matches pid (ptable c).pid → (ptable c).rs ≠ .terminated := by
  induction slots generalizing child with
  | nil =>
    rw [scanChildren] at found
    split_ifs at found with some_child
    exact ⟨.inl some_child, by simp⟩
  | cons d rest ih =>
    rw [scanChildren] at found
    split_ifs at found with empty here dead
    · obtain ⟨some_child, alive⟩ := ih found
      refine ⟨some_child, ?_⟩
      rintro c (_ | ⟨_, member⟩) parent matching
      · simp [empty]
      · exact alive c member parent matching
    · obtain ⟨-, alive⟩ := ih found
      refine ⟨.inr ⟨d, empty, here⟩, ?_⟩
      rintro c (_ | ⟨_, member⟩) parent matching
      · exact dead
      · exact alive c member parent matching
    · obtain ⟨some_child, alive⟩ := ih found
      refine ⟨some_child, ?_⟩
      rintro c (_ | ⟨_, member⟩) parent matching
      · exact absurd ⟨parent, matching⟩ here
      · exact alive c member parent matching

theorem tableOf_preempt (k : State) : tableOf (preempt k) = (tableOf k).preempt := by
  unfold preempt Table.preempt
  by_cases running : (k.ptable (pidOff k.curpid)).rs = .running
  · rw [if_pos running, if_pos (by exact running), tableOf_setPcb]
    rfl
  · rw [if_neg running, if_neg (by exact running)]

theorem preempt_pipes (k : State) : (preempt k).pipes = k.pipes := by
  simp only [preempt]
  split_ifs
  · rfl
  · rfl

theorem tableOf_dispatch (k : State) (p : Slot) : tableOf (dispatch k p) = (tableOf k).dispatch p := by
  have set := congrArg Table.entry (tableOf_setPcb k p { k.ptable p with rs := .running })
  exact congrArg (fun entry => Table.mk entry (if p = pidOff k.curpid then k.curpid else (k.ptable p).pid)) set

def Refines (k : State) (call : Call) (k' : State) : Prop := Idle k → Step (tableOf k) call (tableOf k') ∧ Idle k'

theorem Framed.refines (framed : Framed k k') (quiet : Quiet call) : Refines k call k' := by
  intro idle
  obtain ⟨table, idle⟩ := framed idle
  rw [table]
  exact ⟨.quiet quiet, idle⟩

theorem sched_refines (call : sched k = some k') : Refines k .tick k' := by
  intro idle
  obtain ⟨_, found, rfl⟩ := Option.map_eq_some_iff.mp call
  have ready := search_some found
  rw [tableOf_dispatch, tableOf_preempt]
  refine ⟨.tick ?_, ?_⟩
  · rw [← tableOf_preempt]
    exact ready
  · intro n pipe here
    exact idle n pipe (preempt_pipes k ▸ here)

theorem current_found (call : deref .nullPcb (getPcb k k.curpid) = .ok p) :
    p = pidOff k.curpid ∧ (k.ptable p).pid = k.curpid := by
  obtain ⟨rfl, -, pid⟩ := getPcb_iff.mp (deref_ok call)
  exact ⟨rfl, pid⟩

structure Active (k : State) (context : Context) : Prop where
  running : (k.ptable (pidOff k.curpid)).rs = .running
  context : (k.ptable (pidOff k.curpid)).context = context

theorem allocProc_some (call : allocProc k = some (new, k')) :
    (k.ptable new).rs = .noproc ∧ k' = claimProc k new := by
  obtain ⟨_, found, equal⟩ := Option.map_eq_some_iff.mp call
  cases equal
  exact ⟨search_some found, rfl⟩

def freshPid (k : State) (p : Slot) : Int := makePid (pidGen (k.ptable p).pid + 1) p

theorem tableOf_forked {old : Slot} (other : old ≠ new) :
    tableOf (forkPcb (claimProc k new) old new) = (tableOf k).set new { (tableOf k).entry new with
      pid := freshPid k new, ppid := (k.ptable old).pid, rs := .ready, context := .user } := by
  rw [forkPcb, tableOf_setPcb, claimProc, tableOf_setPcb, set_set]
  simp only [setPcb_same, setPcb_other other]
  rfl

theorem sysFork_refines {ret : Int} (active : Active k .user) (call : sysFork k = .ok (ret, k')) :
    Refines k .sysFork k' := by
  obtain ⟨_, here, call⟩ := bind_ok call
  obtain ⟨rfl, pid⟩ := current_found here
  split at call
  · cases pure_ok call
    exact (Framed.refl k).refines trivial
  · rename_i new made alloc
    obtain ⟨free, rfl⟩ := allocProc_some alloc
    obtain ⟨_, copy, call⟩ := bind_ok call
    cases pure_ok call
    intro idle
    have other : pidOff k.curpid ≠ new := by
      rintro rfl
      rw [active.running] at free
      cases free
    obtain ⟨table, idle⟩ := (foldlM_recounts (fun _ i _ step => dupOpenFd_recounts step) copy).framed idle
    refine ⟨?_, idle⟩
    rw [table, tableOf_forked other, pid]
    exact .fork ⟨active.running, pid, active.context⟩ free (pidOff_makePid _ _)

theorem wakeParent_notify (child : 0 < (k.ptable p).ppid) (call : wakeParent k p = .ok k') :
    k'.pipes = k.pipes ∧ ∃ q, (tableOf k).Finds (k.ptable p).ppid q ∧ tableOf k' = (tableOf k).notify p q := by
  unfold wakeParent at call
  rw [if_pos child] at call
  obtain ⟨q, found, call⟩ := bind_ok call
  by_cases waiting : (k.ptable q).rs = .blocked ∧ ((k.ptable q).waitPid = (k.ptable p).pid ∨ (k.ptable q).waitPid = -1)
  · rw [if_pos waiting] at call
    rw [← pure_ok call]
    refine ⟨rfl, q, getPcb_iff.mp (deref_ok found), ?_⟩
    rw [tableOf_setPcb, Table.notify, if_pos (by exact waiting)]
    rfl
  · rw [if_neg waiting] at call
    rw [← pure_ok call]
    refine ⟨rfl, q, getPcb_iff.mp (deref_ok found), ?_⟩
    rw [Table.notify, if_neg (by exact waiting)]

theorem tableOf_hidden {pcb : Pcb} (equal : entryOf pcb = entryOf (k.ptable p)) :
    tableOf (k.setPcb p pcb) = tableOf k := by
  rw [tableOf_setPcb, equal]
  exact congrArg (fun entry => Table.mk entry k.curpid) (Function.update_eq_self p _)

theorem sysExit_refines {code : BitVec 32} (active : Active k .user) (call : sysExit k code = .ok k') :
    Refines k (.sysExit code) k' := by
  intro idle
  obtain ⟨_, here, call⟩ := bind_ok call
  obtain ⟨rfl, pid⟩ := current_found here
  obtain ⟨woken, wake, call⟩ := bind_ok call
  obtain ⟨closed, close, ended⟩ := bind_ok call
  have coded : tableOf (k.setPcb (pidOff k.curpid)
      { k.ptable (pidOff k.curpid) with returnCode := code.truncate 8 }) = tableOf k := tableOf_hidden rfl
  have running : Running (tableOf k) .user := ⟨active.running, pid, active.context⟩
  obtain rfl := pure_ok ended
  have table' : tableOf (closed.setPcb (pidOff k.curpid) { closed.ptable (pidOff k.curpid) with
      rs := .terminated, fds := fun _ => ⟨none, false⟩ }) = (tableOf closed).terminate (pidOff k.curpid) :=
    tableOf_setPcb _ _ _
  have framed := (foldlM_recounts (fun _ i _ step => releaseOpenFd_recounts step) close).framed
  by_cases child : 0 < (k.ptable (pidOff k.curpid)).ppid
  · obtain ⟨pipes, _, found, notified⟩ := wakeParent_notify (by rwa [setPcb_same]) wake
    rw [setPcb_same, coded] at found
    rw [coded] at notified
    obtain ⟨table, idle⟩ := framed fun n pipe => by rw [pipes]; exact idle n pipe
    rw [table', table, notified]
    exact ⟨.exit running child found, idle⟩
  · have kept : woken = k.setPcb (pidOff k.curpid)
        { k.ptable (pidOff k.curpid) with returnCode := code.truncate 8 } := by
      unfold wakeParent at wake
      rw [if_neg (by rwa [setPcb_same])] at wake
      exact (pure_ok wake).symm
    subst kept
    obtain ⟨table, idle⟩ := framed fun n pipe => idle n pipe
    rw [table', table, coded]
    exact ⟨.orphanExit running (Int.not_lt.mp child), idle⟩

theorem sysWaitpid_refines {ret : Option Int} (active : Active k .user)
    (call : sysWaitpid k w = .ok (ret, k')) : Refines k (.sysWaitpid w) k' := by
  intro idle
  obtain ⟨_, here, call⟩ := bind_ok call
  obtain ⟨rfl, pid⟩ := current_found here
  have running : Running (tableOf k) .user := ⟨active.running, pid, active.context⟩
  unfold procGetTerminatedChild at call
  cases scan : scanChildren k.ptable (k.ptable (pidOff k.curpid)).pid w (List.finRange 1024) false with
  | terminated c =>
    rw [scan] at call
    obtain ⟨dead, child⟩ := scan_terminated scan
    cases pure_ok call
    refine ⟨?_, idle⟩
    rw [tableOf_setPcb, tableOf_setPcb, set_set, setPcb_same]
    exact .found running ⟨by simp [Table.Live, tableOf, entryOf, dead], child⟩ dead
  | running =>
    rw [scan] at call
    obtain ⟨some_child, alive⟩ := scan_running scan
    cases pure_ok call
    refine ⟨?_, idle⟩
    rw [tableOf_setPcb]
    refine .scanned running (some_child.resolve_left Bool.false_ne_true) ?_
    rintro c ⟨-, parent, matching⟩
    exact alive c (List.mem_finRange c) parent matching
  | childless =>
    rw [scan] at call
    cases pure_ok call
    exact ⟨.quiet trivial, idle⟩

theorem waitpidBlock_refines (active : Active k (.scanned w)) :
    Refines k .waitpidBlock (waitpidBlock k (pidOff k.curpid) w) := by
  intro idle
  refine ⟨?_, idle⟩
  rw [waitpidBlock, tableOf_setPcb]
  exact .block active.context active.running

theorem tableOf_releaseProc (k : State) (c : Slot) : tableOf (releaseProc k c) = (tableOf k).release c :=
  tableOf_setPcb _ _ _

theorem waitpidReap_releases (call : waitpidReap k p = .ok (ret, k')) :
    ∃ c, (tableOf k).Finds (k.ptable p).waitPid c ∧ tableOf k' = ((tableOf k).unwait p).release c ∧
      k'.pipes = k.pipes := by
  obtain ⟨c, found, call⟩ := bind_ok call
  cases pure_ok call
  refine ⟨c, getPcb_iff.mp (deref_ok found), ?_, rfl⟩
  have table : tableOf (k.setPcb p { k.ptable p with waitPid := notWaiting, context := .user }) =
      (tableOf k).unwait p := tableOf_setPcb _ _ _
  rw [tableOf_releaseProc, table]

theorem waitpidReap_refines (active : Active k .reaping)
    (call : waitpidReap k (pidOff k.curpid) = .ok (ret, k')) : Refines k .waitpidReap k' := by
  intro idle
  obtain ⟨_, found, table, pipes⟩ := waitpidReap_releases call
  rw [table]
  exact ⟨.reap active.context active.running found, fun n pipe here => idle n pipe (pipes ▸ here)⟩

inductive Took (k : State) : Call → State → Prop
  | tick {k' : _} (call : sched k = some k') : Took k .tick k'
  | sysOpen {flags reply ret k' : _} (active : Active k .user) (call : sysOpen k flags reply = .ok (ret, k')) :
    Took k (.sysOpen flags reply) k'
  | sysClose {fd ret k' : _} (active : Active k .user) (call : sysClose k fd = .ok (ret, k')) : Took k (.sysClose fd) k'
  | sysDup2 {fd fd2 ret k' : _} (active : Active k .user) (call : sysDup2 k fd fd2 = .ok (ret, k')) :
    Took k (.sysDup2 fd fd2) k'
  | sysPipe {flags ret k' : _} (active : Active k .user) (call : sysPipe k flags = .ok (ret, k')) :
    Took k (.sysPipe flags) k'
  | sysFork {ret k' : _} (active : Active k .user) (call : sysFork k = .ok (ret, k')) : Took k .sysFork k'
  | sysExec {k' : _} (active : Active k .user) (call : sysExec k = .ok k') : Took k .sysExec k'
  | sysExit {code k' : _} (active : Active k .user) (call : sysExit k code = .ok k') : Took k (.sysExit code) k'
  | sysWaitpid {w ret k' : _} (active : Active k .user) (call : sysWaitpid k w = .ok (ret, k')) :
    Took k (.sysWaitpid w) k'
  | waitpidBlock {w : _} (active : Active k (.scanned w)) : Took k .waitpidBlock (waitpidBlock k (pidOff k.curpid) w)
  | waitpidReap {ret k' : _} (active : Active k .reaping) (call : waitpidReap k (pidOff k.curpid) = .ok (ret, k')) :
    Took k .waitpidReap k'

theorem next_took (step : next k call = .ok (some k')) : Took k call k' := by
  by_cases tick : call = .tick
  · subst tick
    exact .tick (Except.ok.inj step)
  · have equal : next k call = if (k.ptable (pidOff k.curpid)).rs = .running then
        process k (pidOff k.curpid) (k.ptable (pidOff k.curpid)).context call else .ok none := by
      cases call with
      | tick => exact absurd rfl tick
      | _ => rfl
    rw [equal] at step
    split_ifs at step with running
    · have active : Active k (k.ptable (pidOff k.curpid)).context := ⟨running, rfl⟩
      generalize (k.ptable (pidOff k.curpid)).context = context at step active
      unfold process at step
      split at step
      case h_9 =>
        cases step
        exact .waitpidBlock active
      case h_11 => cases step
      -- the call decides which constructor applies
      all_goals
        obtain ⟨_, call, equal⟩ := map_ok step
        cases equal
        constructor
        · exact active
        · exact call
    · cases step

theorem next_refines (step : next k call = .ok (some k')) : Refines k call k' := by
  cases next_took step with
  | tick call => exact sched_refines call
  | sysOpen _ call => exact (sysOpen_framed call).refines trivial
  | sysClose _ call => exact (sysClose_recounts call).framed.refines trivial
  | sysDup2 _ call => exact (sysDup2_recounts call).framed.refines trivial
  | sysPipe _ call => exact (sysPipe_framed call).refines trivial
  | sysFork active call => exact sysFork_refines active call
  | sysExec _ call => exact (sysExec_recounts call).framed.refines trivial
  | sysExit active call => exact sysExit_refines active call
  | sysWaitpid active call => exact sysWaitpid_refines active call
  | waitpidBlock active => exact waitpidBlock_refines active
  | waitpidReap active call => exact waitpidReap_refines active call

end Petix.Proof.Proc
