import Petix.Proof.Exec.Interpreters
import Petix.Proof.Kmalloc.Runs
import Petix.Proof.Proc.Refinement

namespace Petix.Proof.Exec
open Function List Library Library.Result Library.Follow Kernel Kernel.ExecFile Spec.ExecFile

variable {fs : Files} {path : List Byte} {argv : Option Argv} {k k' : Proc.State} {c c' : Kmalloc.Client}
variable {f size ptr fuel : Nat} {p : Proc.Slot} {i : Fin 16} {name : List Byte} {err : Int}

def SameFds (k k' : Proc.State) : Prop := k'.curpid = k.curpid ∧ ∀ q, (k'.ptable q).fds = (k.ptable q).fds

theorem SameFds.trans {middle : Proc.State} (first : SameFds k middle) (second : SameFds middle k') : SameFds k k' :=
  ⟨second.1.trans first.1, fun q => (second.2 q).trans (first.2 q)⟩

theorem wake_sameFds {pids : List Int} (call : Proc.wake k pids = .ok k') : SameFds k k' := by
  induction pids generalizing k with
  | nil =>
    cases call
    exact ⟨rfl, fun _ => rfl⟩
  | cons pid pids ih =>
    obtain ⟨p, -, call⟩ := bind_ok call
    obtain ⟨_, -, call⟩ := bind_ok call
    have first : SameFds k (k.setPcb p { k.ptable p with rs := .ready }) := by
      refine ⟨rfl, fun q => ?_⟩
      by_cases same : q = p
      · rw [same, Proof.Proc.setPcb_same]
      · rw [Proof.Proc.setPcb_other same]
    exact first.trans (ih call)

theorem pclose_sameFds (call : Proc.pclose k f = .ok k') : SameFds k k' := by
  obtain ⟨file, -, call⟩ := bind_ok call
  cases held : file.privateData with
  | none =>
    rw [held] at call
    cases call
    exact ⟨rfl, fun _ => rfl⟩
  | some ends =>
    rw [held] at call
    obtain ⟨_, -, call⟩ := bind_ok call
    obtain ⟨_, woken, call⟩ := bind_ok call
    have same := wake_sameFds woken
    split_ifs at call <;> cases call <;> exact same

theorem dropFile_sameFds {file : Proc.File} (call : Proc.dropFile k f file = .ok k') : SameFds k k' := by
  unfold Proc.dropFile at call
  split_ifs at call with last close
  · obtain ⟨middle, closing, call⟩ := bind_ok call
    cases call
    have same : SameFds (k.emit (.close f)) middle := pclose_sameFds closing
    exact same
  · cases call
    exact ⟨rfl, fun _ => rfl⟩
  · cases call
    exact ⟨rfl, fun _ => rfl⟩

def shut (fd : Proc.Fd) : Proc.Fd := if Closes fd then ⟨none, false⟩ else fd

theorem shut_shut (fd : Proc.Fd) : shut (shut fd) = shut fd := by
  by_cases closes : Closes fd
  · simp [shut, closes]
  · simp [shut, closes]

def closed (seen : List (Fin 16)) (fds : Fin 16 → Proc.Fd) : Fin 16 → Proc.Fd := fun i =>
  if i ∈ seen then shut (fds i) else fds i

theorem closed_cons (i : Fin 16) (seen : List (Fin 16)) (fds : Fin 16 → Proc.Fd) :
    closed (i :: seen) fds = closed seen (closed [i] fds) := by
  funext j
  by_cases same : j = i
  · by_cases later : i ∈ seen <;> simp [closed, same, later, shut_shut]
  · simp [closed, same]

theorem closed_idem (seen : List (Fin 16)) (fds : Fin 16 → Proc.Fd) : closed seen (closed seen fds) = closed seen fds
    := by
  funext j
  by_cases member : j ∈ seen <;> simp [closed, member, shut_shut]

theorem closed_eq_self_iff (fds : Fin 16 → Proc.Fd) : closed (finRange 16) fds = fds ↔ ∀ i, ¬ Closes (fds i) := by
  constructor
  · intro same i closes
    have here := congrFun same i
    rw [closed, if_pos (mem_finRange i), shut, if_pos closes] at here
    exact closes.1 (congrArg Proc.Fd.file here).symm
  · intro stay
    funext i
    rw [closed, if_pos (mem_finRange i), shut, if_neg (stay i)]

theorem releaseFd_fds (call : Proc.releaseFd k p i = .ok k') :
    k'.curpid = k.curpid ∧ (k'.ptable p).fds = update (k.ptable p).fds i ⟨none, false⟩ := by
  obtain ⟨_, -, call⟩ := bind_ok call
  obtain ⟨_, -, call⟩ := bind_ok call
  obtain ⟨_, -, call⟩ := bind_ok call
  obtain ⟨_, drop, call⟩ := bind_ok call
  cases call
  obtain ⟨running, fds⟩ := dropFile_sameFds drop
  refine ⟨running, ?_⟩
  simp only [Proc.State.setFd, Proof.Proc.setPcb_same, fds p]
  rfl

theorem cloexecRound_fds
    (call : (if ((k.ptable p).fds i).cloexec then Proc.releaseOpenFd k p i else .ok k) = .ok k') :
    k'.curpid = k.curpid ∧ (k'.ptable p).fds = closed [i] (k.ptable p).fds := by
  have round {fds : Fin 16 → Proc.Fd} (here : fds i = shut ((k.ptable p).fds i))
      (other : ∀ j, j ≠ i → fds j = (k.ptable p).fds j) : fds = closed [i] (k.ptable p).fds := by
    funext j
    by_cases same : j = i
    · rw [same, here, closed, if_pos (.head _)]
    · rw [other j same, closed, if_neg (by simpa using same)]
  unfold Proc.releaseOpenFd at call
  split_ifs at call with flag empty
  · cases call
    exact ⟨rfl, round (if_neg fun closes => closes.1 empty).symm fun _ _ => rfl⟩
  · obtain ⟨running, fds⟩ := releaseFd_fds call
    refine ⟨running, fds.trans (round ?_ fun j other => update_of_ne other _ _)⟩
    rw [update_self, shut, if_pos ⟨empty, flag⟩]
  · cases call
    exact ⟨rfl, round (if_neg fun closes => flag closes.2).symm fun _ _ => rfl⟩

theorem closeCloexec_fds (call : closeCloexec k = .ok k') : k'.curpid = k.curpid ∧
    (k'.ptable (Proc.pidOff k.curpid)).fds = closed (finRange 16) (k.ptable (Proc.pidOff k.curpid)).fds := by
  have loop {p : Proc.Slot} (seen : List (Fin 16)) {k k' : Proc.State}
      (run : seen.foldlM (fun k i => if ((k.ptable p).fds i).cloexec then Proc.releaseOpenFd k p i else .ok k) k =
        .ok k') : k'.curpid = k.curpid ∧ (k'.ptable p).fds = closed seen (k.ptable p).fds := by
    induction seen generalizing k with
    | nil =>
      cases run
      exact ⟨rfl, rfl⟩
    | cons i seen ih =>
      obtain ⟨_, round, rest⟩ := bind_ok run
      obtain ⟨running, fds⟩ := cloexecRound_fds round
      obtain ⟨running', fds'⟩ := ih rest
      exact ⟨running'.trans running, by rw [fds', fds, ← closed_cons]⟩
  unfold closeCloexec at call
  cases run : Syscall.sysExec k with
  | error fault =>
    rw [run] at call
    cases call
  | ok last =>
    rw [run] at call
    cases call
    obtain ⟨_, found, run⟩ := bind_ok run
    obtain ⟨rfl, -⟩ := Proof.Proc.current_found found
    exact loop _ run

theorem kmalloc_ok (call : ExecFile.kmalloc c size = .ok (ptr, c')) :
    (∃ heap, c.heap.kmalloc size = some (ptr, heap)) ∧ c.next (.kmalloc size) = some c' := by
  unfold ExecFile.kmalloc at call
  split at call
  · rename_i taken after
    cases call
    exact ⟨⟨_, taken⟩, after⟩
  · cases call

theorem kmalloc_live (heap : Kmalloc.clients.Reachable c)
    (call : ExecFile.kmalloc c size = .ok (ptr, c')) : Kmalloc.clients.Reachable c' ∧
      (size = 0 ∧ c'.live = c.live ∨ size ≠ 0 ∧ c'.live = (ptr, size) :: c.live) := by
  obtain ⟨⟨_, taken⟩, after⟩ := kmalloc_ok call
  have step := c.next_sound _ _ after
  obtain ⟨_, repr, held⟩ := Proof.Kmalloc.reachable_invariant heap
  obtain ⟨_, -, effect⟩ := Proof.Kmalloc.step_effect repr held step
  have live : c'.live = Kmalloc.addLive c.live ptr size := by
    have called := step.2.1
    simp only [Kmalloc.Client.call, taken, Option.bind_eq_bind, Option.bind_some, Option.some.injEq] at called
    rw [← called]
  refine ⟨heap.next step, ?_⟩
  by_cases zero : size = 0
  · rw [Kmalloc.Heap.kmalloc, if_pos zero, Option.some.injEq, Prod.mk.injEq] at taken
    exact .inl ⟨zero, by rw [live, Kmalloc.addLive, if_pos taken.1.symm]⟩
  · refine .inr ⟨zero, ?_⟩
    rw [live, Kmalloc.addLive, if_neg]
    -- a null pointer would not be held, but the step hands out a cell
    intro null
    rw [Kmalloc.addLive, if_pos null] at live
    rw [live] at effect
    generalize c.live = held' at effect
    cases effect with
    | kmallocZero => exact zero rfl

theorem kfree_live (heap : Kmalloc.clients.Reachable c) {live : List (Nat × Nat)}
    (top : c.live = (ptr, size) :: live) (call : ExecFile.kfree c ptr = .ok c') :
    Kmalloc.clients.Reachable c' ∧ c'.live = live := by
  have after : c.next (.kfree ptr) = some c' := by
    unfold ExecFile.kfree at call
    split at call
    · rename_i freed
      cases call
      exact freed
    · cases call
  have step := c.next_sound _ _ after
  refine ⟨heap.next step, ?_⟩
  obtain ⟨_, -, held⟩ := Proof.Kmalloc.reachable_invariant heap
  have distinct := held.nodup
  rw [top, map_cons, nodup_cons] at distinct
  have dropped : c'.live = Kmalloc.dropLive c.live ptr := by rw [← Option.some.inj step.2.1]
  rw [dropped, top, Kmalloc.dropLive, filter_cons_of_neg (by simp), filter_eq_self]
  intro e member
  have other : e.1 ≠ ptr := by
    rintro rfl
    exact distinct.1 (mem_map.mpr ⟨e, member, rfl⟩)
  simpa using other

theorem keep_live {sizes : List Nat} (heap : Kmalloc.clients.Reachable c) (call : keep c sizes = .ok c') :
    Kmalloc.clients.Reachable c' ∧ ∃ added, c'.live = added ++ c.live ∧ (added = [] ↔ ∀ size ∈ sizes, size = 0) := by
  induction sizes generalizing c with
  | nil =>
    cases call
    exact ⟨heap, [], rfl, by simp⟩
  | cons size sizes ih =>
    obtain ⟨middle, first, rest⟩ := bind_ok call
    obtain ⟨⟨ptr, middle'⟩, taken, equal⟩ := map_ok first
    obtain rfl : middle' = middle := equal
    obtain ⟨heap', live⟩ := kmalloc_live heap taken
    obtain ⟨heap'', added, grown, none⟩ := ih heap' rest
    refine ⟨heap'', ?_⟩
    rcases live with ⟨zero, same⟩ | ⟨nonzero, more⟩
    · exact ⟨added, by rw [grown, same], by simp [none, zero]⟩
    · exact ⟨added ++ [(ptr, size)], by simp [grown, more], by simp [nonzero]⟩

theorem chainSpotless_last (string : cString path = .ok name) (last : interpreter fs path = none) :
    ChainSpotless fs path ↔ Spotless (fs name) := by
  constructor
  · exact fun all => all 0 path name rfl string
  · intro spotless n _ _ reached string'
    cases n with
    | zero =>
      obtain rfl := Option.some.inj reached
      obtain rfl := Except.ok.inj (string.symm.trans string')
      exact spotless
    | succ n =>
      rw [chain, follow_succ, last] at reached
      cases reached

theorem chainSpotless_next {scbuff : List Byte} (string : cString path = .ok name)
    (next : interpreter fs path = some scbuff) :
    ChainSpotless fs path ↔ Spotless (fs name) ∧ ChainSpotless fs scbuff := by
  have shift (n : Nat) : chain fs path (n + 1) = chain fs scbuff n := by
    rw [chain, follow_succ, next]
    rfl
  constructor
  · intro all
    refine ⟨all 0 path name rfl string, fun n visited name' reached => all (n + 1) visited name' ?_⟩
    rw [shift, reached]
  · rintro ⟨spotless, rest⟩ n visited name' reached string'
    cases n with
    | zero =>
      obtain rfl := Option.some.inj reached
      obtain rfl := Except.ok.inj (string.symm.trans string')
      exact spotless
    | succ n => exact rest n visited name' ((shift n).symm.trans reached) string'

theorem script_nonempty {f : File} (script : Script f) : f.data.length ≠ 0 := by
  intro empty
  have looked := script.2.2
  rw [length_eq_zero_iff.mp empty] at looked
  cases looked

theorem sysExec_failed (heap : Kmalloc.clients.Reachable c)
    (run : sysExec fs fuel (some path) argv k c = .ok (.error err, k', c')) : err < 0 ∧ k'.curpid = k.curpid ∧
      (k'.ptable (Proc.pidOff k.curpid)).fds = closed (finRange 16) (k.ptable (Proc.pidOff k.curpid)).fds ∧
      Kmalloc.clients.Reachable c' ∧ ∃ added, c'.live = added ++ c.live ∧ (added = [] ↔ ChainSpotless fs path) := by
  induction fuel generalizing path argv k c with
  | zero => cases run
  | succ fuel ih =>
    obtain ⟨⟨_, _, _⟩, once, run⟩ := bind_ok run
    obtain ⟨closing, _, string, _, keeping, runs⟩ := execOnce_runs once
    obtain ⟨running, fds⟩ := closeCloexec_fds closing
    obtain ⟨heap', kept, grown, keptNone⟩ := keep_live heap keeping
    cases runs with
    | early negative unread =>
      cases run
      refine ⟨negative, running, fds, heap', kept, grown, ?_⟩
      rw [chainSpotless_last string (interpreter_returns once), keptNone]
      exact ⟨fun zero => ⟨zero, fun reads => absurd reads unread⟩, fun spotless => spotless.1⟩
    | late negative reads other taken =>
      cases run
      obtain ⟨heap'', live⟩ := kmalloc_live heap' taken
      refine ⟨negative, running, fds, heap'', ?_⟩
      rw [chainSpotless_last string (interpreter_returns once)]
      rcases live with ⟨zero, same⟩ | ⟨nonzero, more⟩
      · have empty := length_eq_zero_iff.mp zero
        refine ⟨kept, by rw [same, grown], keptNone.trans ?_⟩
        exact ⟨fun zero => ⟨zero, fun _ => .inr empty⟩, fun spotless => spotless.1⟩
      · refine ⟨_ :: kept, by rw [more, grown]; rfl, iff_of_false (cons_ne_nil _ _) fun spotless => ?_⟩
        rcases spotless.2 reads with script | empty
        · exact other script
        · exact nonzero (by rw [empty]; rfl)
    | loads other taken => cases run
    | script script branch taken freed =>
      obtain ⟨heap'', live⟩ := kmalloc_live heap' taken
      obtain ⟨-, more⟩ := live.resolve_left fun zero => script_nonempty script zero.1
      obtain ⟨heap₁, same⟩ := kfree_live heap'' more freed
      obtain ⟨negative, running', fds', heap₂, added, grown', addedNone⟩ := ih heap₁ run
      refine ⟨negative, running'.trans running, ?_, heap₂, added ++ kept, ?_, ?_⟩
      · rw [← running, fds', running, fds, closed_idem]
      · rw [grown', same, grown, append_assoc]
      · rw [chainSpotless_next string (interpreter_again once), append_eq_nil_iff, addedNone, keptNone]
        exact ⟨fun both => ⟨⟨both.2, fun _ => .inl script⟩, both.1⟩, fun both => ⟨both.2, both.1.1⟩⟩

theorem failed_exec_unchanged_iff {fs : Files} {fuel : Nat} {path : Option (List Byte)} {argv : Option Argv}
    {k k' : Proc.State} {c c' : Kmalloc.Client} {err : Int} (heap : Kmalloc.clients.Reachable c)
    (run : sysExec fs fuel path argv k c = .ok (.error err, k', c')) : err < 0 ∧
      ((k'.ptable (Proc.pidOff k.curpid)).fds = (k.ptable (Proc.pidOff k.curpid)).fds ∧
          (∀ e, e ∈ c'.live ↔ e ∈ c.live) ↔
        (∀ i, ¬ Closes ((k.ptable (Proc.pidOff k.curpid)).fds i)) ∧ ∀ start, path = some start → ChainSpotless fs start) := by
  cases path with
  | none =>
    cases fuel with
    | zero => cases run
    | succ fuel =>
      obtain ⟨⟨_, _, _⟩, once, run⟩ := bind_ok run
      obtain ⟨_, closing, once⟩ := bind_ok once
      cases once
      cases run
      rw [(closeCloexec_fds closing).2, closed_eq_self_iff]
      exact ⟨by decide, and_congr_right fun _ => iff_of_true (fun _ => .rfl) nofun⟩
  | some path =>
    obtain ⟨negative, -, fds, heap', added, grown, none⟩ := sysExec_failed heap run
    refine ⟨negative, ?_⟩
    rw [fds, closed_eq_self_iff]
    refine and_congr_right fun _ => ?_
    have same : (∀ e, e ∈ c'.live ↔ e ∈ c.live) ↔ added = [] := by
      obtain ⟨_, -, held⟩ := Proof.Kmalloc.reachable_invariant heap'
      have distinct := held.nodup
      rw [grown, map_append, nodup_append] at distinct
      constructor
      · intro all
        by_contra some
        obtain ⟨e, _, rfl⟩ := exists_cons_of_ne_nil some
        have old : e ∈ c.live := (all e).mp (by rw [grown]; exact .head _)
        exact distinct.2.2 e.1 (by simp) e.1 (mem_map_of_mem old) rfl
      · rintro rfl -
        rw [grown, nil_append]
    rw [same, none]
    exact ⟨fun spotless start equal => Option.some.inj equal ▸ spotless, fun all => all path rfl⟩

def emptyHeap : Kmalloc.Client := ⟨⟨fun _ => 0, 0, 8⟩, []⟩

theorem emptyHeap_reachable : Kmalloc.clients.Reachable emptyHeap := .initial ⟨rfl, rfl, by decide, by decide⟩

def missing : File := ⟨-2, [], false, 0, false, 0, []⟩

theorem failed_exec_unchanged_missing :
    ∃ k' c', sysExec (fun _ => missing) 1 (some [0x61, 0]) none Syscall.initProc emptyHeap = .ok (.error (-2), k', c') ∧
      (k'.ptable (Proc.pidOff Syscall.initProc.curpid)).fds =
        (Syscall.initProc.ptable (Proc.pidOff Syscall.initProc.curpid)).fds ∧
      ∀ e, e ∈ c'.live ↔ e ∈ emptyHeap.live := by
  have computed : (sysExec (fun _ => missing) 1 (some [0x61, 0]) none Syscall.initProc emptyHeap).toOption.map Prod.fst =
      some (.error (-2)) := by
    decide +kernel
  obtain ⟨⟨reply, k', c'⟩, run, equal⟩ := Option.map_eq_some_iff.mp computed
  obtain rfl : reply = .error (-2) := equal
  refine ⟨k', c', ok_of_toOption run, ?_⟩
  refine (failed_exec_unchanged_iff emptyHeap_reachable (ok_of_toOption run)).2.mpr ⟨by decide, fun start equal => ?_⟩
  exact fun n visited name reached string => ⟨by simp [missing], fun reads => absurd reads.1 (by simp [missing])⟩

theorem failed_exec_leaves_traces : (∃ k k' c', Syscall.kernel.Reachable k ∧
      sysExec (fun _ => missing) 1 (some [0x61, 0]) none k emptyHeap = .ok (.error (-2), k', c') ∧
      ((k.ptable (Proc.pidOff k.curpid)).fds 0).file ≠ none ∧ ((k'.ptable (Proc.pidOff k.curpid)).fds 0).file = none) ∧
    ∃ k' c', sysExec (fun _ => ⟨0, [], true, 0, true, 1, [0x78]⟩) 1 (some [0x61, 0]) none Syscall.initProc emptyHeap =
      .ok (.error (-ENOEXEC), k', c') ∧ emptyHeap.live = [] ∧ c'.live ≠ [] := by
  constructor
  · have computed : (Syscall.advance Syscall.initProc (.sysOpen Syscall.oCloexec ⟨0, 0, 0, true, 0⟩)).bind (fun k =>
        (sysExec (fun _ => missing) 1 (some [0x61, 0]) none k emptyHeap).toOption.map fun r =>
          (r.1, decide (((k.ptable (Proc.pidOff k.curpid)).fds 0).file = none),
            decide (((r.2.1.ptable (Proc.pidOff k.curpid)).fds 0).file = none))) = some (.error (-2), false, true) := by
      decide +kernel
    obtain ⟨k, opened, rest⟩ := Option.bind_eq_some_iff.mp computed
    obtain ⟨⟨reply, k', c'⟩, run, equal⟩ := Option.map_eq_some_iff.mp rest
    simp only [Prod.mk.injEq, decide_eq_true_eq, decide_eq_false_iff_not] at equal
    obtain ⟨rfl, held, closed⟩ := equal
    have reachable : Syscall.kernel.Reachable k := .next (.initial rfl) (Syscall.advance_sound _ _ _ opened)
    exact ⟨k, k', c', reachable, ok_of_toOption run, held, closed⟩
  · have computed : (sysExec (fun _ => ⟨0, [], true, 0, true, 1, [0x78]⟩) 1 (some [0x61, 0]) none Syscall.initProc
        emptyHeap).toOption.map (fun r => (r.1, r.2.2.live.isEmpty)) = some (.error (-ENOEXEC), false) := by
      decide +kernel
    obtain ⟨⟨_, k', c'⟩, run, equal⟩ := Option.map_eq_some_iff.mp computed
    obtain ⟨rfl, left⟩ := Prod.mk.inj equal
    exact ⟨k', c', ok_of_toOption run, rfl, by simpa using left⟩

end Petix.Proof.Exec
