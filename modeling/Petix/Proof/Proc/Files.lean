import Petix.Proof.Proc.Descriptors
import Petix.Proof.Proc.Tree

namespace Petix.Proof.Proc
open Function Library Kernel.Sync Kernel.Pipes Kernel.Proc Kernel.Syscall
open Spec.Files Result

variable {k k' : State} {f : Nat} {p : Slot} {i : Fin 16}
variable {k'' : State} {flags r w : Nat} {fd : Int} {s : Nat → Nat} {pcb : Pcb}

structure Kept (p : Slot) (k k' : State) : Prop where
  balanced : Balanced k'
  others : ∀ q, q ≠ p → slot k' q = slot k q

theorem Kept.refl (balanced : Balanced k) : Kept p k k := ⟨balanced, fun _ _ => rfl⟩

theorem Kept.trans (first : Kept p k k') (second : Kept p k' k'') : Kept p k k'' :=
  ⟨second.balanced, fun q other => (second.others q other).trans (first.others q other)⟩

theorem kept_of_slot {row : Fin 16 → Option Nat} (balanced : Balanced k')
    (slots : slot k' = update (slot k) p row) : Kept p k k' := by
  refine ⟨balanced, ?_⟩
  intro _ other
  rw [slots, update_of_ne other]

theorem releaseOpenFd_kept (balanced : Balanced k) (idle : Idle k) (p : Slot) (i : Fin 16) :
    ∃ k', releaseOpenFd k p i = .ok k' ∧ Kept p k k' := by
  obtain ⟨k', run, balanced, slots⟩ := releaseOpenFd_balanced balanced idle p i
  exact ⟨k', run, kept_of_slot balanced slots⟩

theorem kept_setFd (fd : Fd) (balanced : Balanced k) (same : fd.file = slot k p i) : Kept p k (k.setFd p i fd) := by
  refine kept_of_slot ?_ (slot_setFd k p i fd)
  rw [Balanced, refs_keep same]
  exact Books.carry balanced rfl rfl rfl rfl rfl

theorem openInto_kept (flags : Nat) (reply : FsReply) (balanced : Balanced k) (idle : Idle k)
    (here : slot k p i = some f) (opened : k.files f = some ⟨none, none, 1⟩) :
    ∃ ret k', openInto k p i flags reply = .ok (ret, k') ∧ Kept p k k' := by
  set flagged := if flags &&& oCloexec ≠ 0 then setCloexec k p i else k with equal
  have flag : Kept p k flagged ∧ flagged.files = k.files ∧ slot flagged p i = some f ∧ Idle flagged := by
    rw [equal]
    split_ifs
    · refine ⟨kept_setFd _ balanced rfl, rfl, ?_, idle⟩
      rw [setCloexec, slot_setFd, update_self, update_self]
      exact here
    · exact ⟨.refl balanced, rfl, here, idle⟩
  obtain ⟨flag, files, here, idle⟩ := flag
  rw [← files] at opened
  obtain ⟨stored, store, kept, here, idle⟩ : ∃ stored, fsOpen flagged p i reply = .ok stored ∧
      Kept p flagged stored ∧ slot stored p i = some f ∧ Idle stored := by
    have named : ((flagged.ptable p).fds i).file = some f := here
    simp only [fsOpen, named, opened, deref, bind, Except.bind]
    cases reply.stored with
    | true =>
      refine ⟨_, rfl, ⟨?_, fun _ _ => rfl⟩, here, idle⟩
      exact Books.driver flag.balanced opened
    | false => exact ⟨_, rfl, .refl flag.balanced, here, idle⟩
  have whole := flag.trans kept
  simp only [openInto, ← equal, store, bind, Except.bind]
  split_ifs
  · obtain ⟨_, run, balanced, slots⟩ := releaseFd_balanced whole.balanced idle here
    simp only [run]
    exact ⟨_, _, rfl, whole.trans (kept_of_slot balanced slots)⟩
  · exact ⟨_, _, rfl, whole⟩

theorem sysOpen_kept {reply : FsReply} (balanced : Balanced k) (idle : Idle k)
    (current : getPcb k k.curpid = some p) : ∃ ret k', sysOpen k flags reply = .ok (ret, k') ∧ Kept p k k' := by
  simp only [sysOpen, current, deref, bind, Except.bind]
  split_ifs
  · exact ⟨_, _, rfl, .refl balanced⟩
  · cases alloc : allocFd k p with
    | mk fd allocated =>
      have made := allocFd_balanced balanced alloc
      have idle := (allocFd_framed alloc idle).2
      cases fd with
      | none =>
        have same : allocated = k := made.2
        rw [same]
        exact ⟨_, _, rfl, .refl balanced⟩
      | some i =>
        obtain ⟨balanced, -, slots, files, -⟩ := made
        have here : slot allocated p i = some k.nfiles := by rw [slots, update_self, update_self]
        have opened : allocated.files k.nfiles = some ⟨none, none, 1⟩ := by rw [files, update_self]
        obtain ⟨ret, k', run, kept⟩ := openInto_kept flags reply balanced idle here opened
        exact ⟨ret, k', run, (kept_of_slot balanced slots).trans kept⟩

theorem openFd_some (found : openFd k p fd = some i) : (∃ f, slot k p i = some f) ∧ fd = i.val := by
  unfold openFd at found
  split_ifs at found with range
  simp only at found
  split_ifs at found with closed
  obtain rfl := Option.some.inj found
  refine ⟨Option.ne_none_iff_exists'.mp closed, ?_⟩
  simp only
  omega

theorem sysClose_kept (balanced : Balanced k) (idle : Idle k) (current : getPcb k k.curpid = some p) :
    ∃ ret k', sysClose k fd = .ok (ret, k') ∧ Kept p k k' := by
  simp only [sysClose, current, deref, bind, Except.bind]
  cases found : openFd k p fd with
  | none => exact ⟨_, _, rfl, .refl balanced⟩
  | some i =>
    obtain ⟨⟨_, here⟩, -⟩ := openFd_some found
    obtain ⟨_, run, balanced, slots⟩ := releaseFd_balanced balanced idle here
    simp only [run]
    exact ⟨_, _, rfl, kept_of_slot balanced slots⟩

theorem dup_kept {j : Fin 16} (balanced : Balanced k) (here : slot k p i = some f) (free : slot k p j = none) :
    ∃ k', dupFd k p i = .ok k' ∧
      Kept p k (k'.setFd p j { (k'.ptable p).fds j with file := ((k'.ptable p).fds i).file }) := by
  obtain ⟨k', run, books, ptable⟩ := dupFd_books balanced here (refs_pos here)
  have slots : slot k' = slot k := by
    unfold slot
    rw [ptable]
  have named : ((k'.ptable p).fds i).file = some f := by
    rw [ptable]
    exact here
  refine ⟨k', run, ?_, ?_⟩
  · rw [Balanced, named, refs_point (by rw [slots, free]), refs_congr ptable]
    exact books.carry rfl rfl rfl rfl rfl
  · intro _ other
    rw [slot_setFd, update_of_ne other, slots]

theorem sysDup2_kept {fd2 : Int} (balanced : Balanced k) (idle : Idle k) (current : getPcb k k.curpid = some p) :
    ∃ ret k', sysDup2 k fd fd2 = .ok (ret, k') ∧ Kept p k k' := by
  simp only [sysDup2, current, deref, bind, Except.bind]
  cases found : openFd k p fd with
  | none => exact ⟨_, _, rfl, .refl balanced⟩
  | some i =>
    obtain ⟨⟨_, here⟩, number⟩ := openFd_some found
    split_ifs with range same
    · exact ⟨_, _, rfl, .refl balanced⟩
    · obtain ⟨_, release, balanced, slots⟩ := releaseOpenFd_balanced balanced idle p ⟨fd2.toNat, by omega⟩
      have other : i ≠ ⟨fd2.toNat, by omega⟩ := by
        intro equal
        rw [equal] at number
        exact same (by simp only at number; omega)
      obtain ⟨_, copy, kept⟩ := dup_kept (i := i) (j := ⟨fd2.toNat, by omega⟩) balanced
        (by rw [slots, update_self, update_of_ne other, here])
        (by rw [slots, update_self, update_self])
      simp only [release, copy]
      exact ⟨_, _, rfl, (kept_of_slot balanced slots).trans kept⟩
    · exact ⟨_, _, rfl, .refl balanced⟩

theorem openPipe_books (books : Books k s) (apart : r ≠ w)
    (reader : k.files r = some ⟨none, none, 1⟩) (writer : k.files w = some ⟨none, none, 1⟩) :
    ∃ k', openPipe k r w = .ok k' ∧ Books k' s ∧ k'.ptable = k.ptable := by
  have writer' : (({ k with npipes := k.npipes + 1 }.setPipe k.npipes (some newPipe)).setFile r
      (some ⟨some .pipe, some (.read, k.npipes), 1⟩)).files w = some ⟨none, none, 1⟩ :=
    (update_of_ne apart.symm _ _).trans writer
  have first : ({ k with npipes := k.npipes + 1 }.setPipe k.npipes (some newPipe)).files r = some ⟨none, none, 1⟩ :=
    reader
  have run : openPipe k r w = .ok ((({ k with npipes := k.npipes + 1 }.setPipe k.npipes (some newPipe)).setFile r
      (some ⟨some .pipe, some (.read, k.npipes), 1⟩)).setFile w (some ⟨some .pipe, some (.write, k.npipes), 1⟩)) := by
    simp only [openPipe, first, writer', deref, bind, Except.bind, pure, Except.pure]
  refine ⟨_, run, ⟨?_, ?_⟩, rfl⟩
  · have one {g : Nat} (here : k.files g = some ⟨none, none, 1⟩) : update s g 1 = s := by
      rw [show 1 = s g from (books.counts.counted g _ here).1, update_eq_self]
    have made : Counts ({ k with npipes := k.npipes + 1 }.setPipe k.npipes (some newPipe)) s :=
      books.counts.carry rfl rfl rfl
    have reading := made.rewrite first ⟨some .pipe, some (.read, k.npipes), 1⟩ Nat.one_pos
    rw [one reader] at reading
    have writing := reading.rewrite writer' ⟨some .pipe, some (.write, k.npipes), 1⟩ Nat.one_pos
    rwa [one writer] at writing
  · rw [dataOf_setFile, dataOf_setFile]
    refine books.ends.make apart ?_ ?_
    · intro fops held there
      simp [dataOf, reader] at there
    · intro _ _ there
      simp [dataOf, writer] at there

theorem foldlM_kept (body : State → Fin 16 → Except Fault State) (fds : List (Fin 16))
    (step : ∀ k i, Balanced k → Idle k → ∃ k', body k i = .ok k' ∧ Kept p k k' ∧ Idle k')
    (balanced : Balanced k) (idle : Idle k) : ∃ k', fds.foldlM body k = .ok k' ∧ Kept p k k' ∧ Idle k' := by
  induction fds generalizing k with
  | nil => exact ⟨k, rfl, .refl balanced, idle⟩
  | cons i fds ih =>
    obtain ⟨_, first, kept, idle⟩ := step k i balanced idle
    obtain ⟨k', rest, kept', idle⟩ := ih kept.balanced idle
    refine ⟨k', ?_, kept.trans kept', idle⟩
    rw [List.foldlM_cons, first]
    exact rest

theorem sysExec_kept (balanced : Balanced k) (idle : Idle k) (current : getPcb k k.curpid = some p) :
    ∃ k', sysExec k = .ok k' ∧ Kept p k k' := by
  simp only [sysExec, current, deref, bind, Except.bind]
  have step (k : State) (i : Fin 16) (balanced : Balanced k) (idle : Idle k) :
      ∃ k', (if ((k.ptable p).fds i).cloexec then releaseOpenFd k p i else .ok k) = .ok k' ∧ Kept p k k' ∧ Idle k' := by
    split_ifs
    · obtain ⟨k', run, kept⟩ := releaseOpenFd_kept balanced idle p i
      exact ⟨k', run, kept, ((releaseOpenFd_recounts run).framed idle).2⟩
    · exact ⟨k, rfl, .refl balanced, idle⟩
  obtain ⟨k', run, kept, -⟩ := foldlM_kept _ (List.finRange 16) step balanced idle
  exact ⟨k', run, kept⟩

theorem releaseAll (fds : List (Fin 16)) (balanced : Balanced k) (idle : Idle k) :
    ∃ k', fds.foldlM (fun k i => releaseOpenFd k p i) k = .ok k' ∧ Kept p k k' ∧
      ∀ j, j ∈ fds ∨ slot k p j = none → slot k' p j = none := by
  induction fds generalizing k with
  | nil => exact ⟨k, rfl, .refl balanced, by simp⟩
  | cons i fds ih =>
    obtain ⟨_, first, balanced', slots⟩ := releaseOpenFd_balanced balanced idle p i
    obtain ⟨k', rest, kept, closed⟩ := ih balanced' ((releaseOpenFd_recounts first).framed idle).2
    refine ⟨k', ?_, (kept_of_slot balanced' slots).trans kept, ?_⟩
    · rw [List.foldlM_cons, first]
      exact rest
    · intro j this
      apply closed
      by_cases same : j = i
      · subst same
        exact .inr (by rw [slots, update_self, update_self])
      · rw [slots, update_self, update_of_ne same]
        exact this.imp_left fun member => (List.mem_cons.mp member).resolve_left same

theorem dupAll (fds : List (Fin 16)) (books : Books k s)
    (referred : ∀ i ∈ fds, ∀ f, slot k p i = some f → 0 < s f) :
    ∃ k', fds.foldlM (fun k i => dupOpenFd k p i) k = .ok k' ∧ k'.ptable = k.ptable ∧
      Books k' fun f => s f + fds.countP fun i => slot k p i = some f := by
  induction fds generalizing k s with
  | nil => exact ⟨k, rfl, rfl, books⟩
  | cons i fds ih =>
    cases here : slot k p i with
    | none =>
      obtain ⟨k', rest, ptable, books⟩ := ih books fun j member => referred j (.tail _ member)
      refine ⟨k', ?_, ptable, ?_⟩
      · have skip : dupOpenFd k p i = .ok k := if_pos here
        rw [List.foldlM_cons, skip]
        exact rest
      · simpa [here] using books
    | some f =>
      obtain ⟨copied, copy, books, ptable⟩ := dupFd_books books here (referred i (.head _) f here)
      have slots : slot copied = slot k := by
        unfold slot
        rw [ptable]
      obtain ⟨k', rest, ptable', books⟩ := ih books (by
        intro j member g there
        rw [slots] at there
        have positive := referred j (.tail _ member) g there
        by_cases same : g = f
        · subst same
          simp
        · rwa [update_of_ne same])
      refine ⟨k', ?_, ptable'.trans ptable, ?_⟩
      · have first : dupOpenFd k p i = .ok copied := by
          rw [dupOpenFd, if_neg (by rw [show ((k.ptable p).fds i).file = some f from here]; simp), copy]
        rw [List.foldlM_cons, first]
        exact rest
      · rw [slots] at books
        convert books using 2
        rename_i g
        by_cases same : g = f
        · subst same
          simp only [List.countP_cons, here, decide_true, if_true, update_self]
          omega
        · simp [here, same, Ne.symm same]

theorem pipeInto_kept {fd1 fd2 : Fin 16} (flags : Nat) (balanced : Balanced k) (apart : r ≠ w)
    (reading : slot k p fd1 = some r) (writing : slot k p fd2 = some w)
    (reader : k.files r = some ⟨none, none, 1⟩) (writer : k.files w = some ⟨none, none, 1⟩) :
    ∃ k', pipeInto k p fd1 fd2 flags = .ok k' ∧ Kept p k k' := by
  obtain ⟨made, make, books, ptable⟩ := openPipe_books balanced apart reader writer
  have first : ((k.ptable p).fds fd1).file = some r := reading
  have second : ((k.ptable p).fds fd2).file = some w := writing
  have kept : Kept p k made := by
    constructor
    · rw [Balanced, refs_congr ptable]
      exact books
    · intro _ _
      unfold slot
      rw [ptable]
  simp only [pipeInto, first, second, make, deref, bind, Except.bind]
  refine ⟨_, rfl, kept.trans ?_⟩
  split_ifs
  · have flagged := kept_setFd (i := fd1) { (made.ptable p).fds fd1 with cloexec := true } kept.balanced rfl
    exact flagged.trans (kept_setFd _ flagged.balanced rfl)
  · exact .refl kept.balanced

theorem sysPipe_kept (balanced : Balanced k) (current : getPcb k k.curpid = some p) :
    ∃ ret k', sysPipe k flags = .ok (ret, k') ∧ Kept p k k' := by
  simp only [sysPipe, current, deref, bind, Except.bind]
  cases alloc : allocFd k p with
  | mk fd first =>
    have made := allocFd_balanced balanced alloc
    cases fd with
    | none =>
      have same : first = k := made.2
      rw [same]
      exact ⟨_, _, rfl, .refl balanced⟩
    | some fd1 =>
      obtain ⟨balanced₁, -, slots₁, files₁, nfiles₁⟩ := made
      have kept₁ := kept_of_slot balanced₁ slots₁
      simp only
      cases alloc' : allocFd first p with
      | mk fd second =>
        have made := allocFd_balanced balanced₁ alloc'
        cases fd with
        | none =>
          have same : second = first := made.2
          rw [same]
          exact ⟨_, _, rfl, kept₁⟩
        | some fd2 =>
          obtain ⟨balanced₂, free, slots₂, files₂, -⟩ := made
          have apart : fd1 ≠ fd2 := by
            rintro rfl
            rw [slots₁, update_self, update_self] at free
            cases free
          have fresh : k.nfiles ≠ first.nfiles := by
            rw [nfiles₁]
            exact Nat.ne_of_lt (Nat.lt_succ_self _)
          have reading : slot second p fd1 = some k.nfiles := by
            rw [slots₂, update_self, update_of_ne apart, slots₁, update_self, update_self]
          have writing : slot second p fd2 = some first.nfiles := by rw [slots₂, update_self, update_self]
          obtain ⟨_, run, kept⟩ := pipeInto_kept flags balanced₂ fresh reading writing
            (by rw [files₂, update_of_ne fresh, files₁, update_self])
            (by rw [files₂, update_self])
          simp only [run]
          exact ⟨_, _, rfl, (kept₁.trans (kept_of_slot balanced₂ slots₂)).trans kept⟩

def Vacant (k : State) : Prop := ∀ p, (k.ptable p).rs = .noproc ∨ (k.ptable p).rs = .terminated → ∀ i, slot k p i = none

theorem slot_setPcb (p : Slot) : slot (k.setPcb p pcb) = update (slot k) p fun i => (pcb.fds i).file := by
  funext q
  by_cases same : q = p
  · subst same
    funext i
    simp [slot]
  · funext i
    simp [slot, setPcb_other same, same]

theorem refs_forked {new : Slot} (empty : ∀ i, slot k new i = none) (old : Slot) (f : Nat) :
    slot (forkPcb (claimProc k new) old new) = update (slot k) new (slot k old) ∧
      refs (forkPcb (claimProc k new) old new) f =
        refs k f + (List.finRange 16).countP fun i => slot k old i = some f := by
  have claimed : slot (claimProc k new) = slot k := by
    rw [claimProc, slot_setPcb]
    exact update_eq_self new (slot k)
  have row : (fun i => (((claimProc k new).ptable old).fds i).file) = slot k old := congrFun claimed old
  have slots : slot (forkPcb (claimProc k new) old new) = update (slot k) new (slot k old) := by
    rw [forkPcb, slot_setPcb, claimed]
    exact congrArg _ row
  refine ⟨slots, ?_⟩
  have total := RefCount.total_update (slot k) new (slot k old) f
  rw [RefCount.count_empty empty, ← slots, RefCount.count_finRange (slot k old), Nat.add_zero] at total
  rw [refs, refs, total]

theorem sysFork_balanced (balanced : Balanced k) (vacant : Vacant k) (current : getPcb k k.curpid = some p) :
    ∃ ret k', sysFork k = .ok (ret, k') ∧ Balanced k' ∧ ∀ q, (k'.ptable q).rs ≠ .ready → slot k' q = slot k q := by
  simp only [sysFork, current, deref, bind, Except.bind]
  cases alloc : allocProc k with
  | none => exact ⟨_, _, rfl, balanced, fun _ _ => rfl⟩
  | some made =>
    obtain ⟨new, _⟩ := made
    obtain ⟨free, rfl⟩ := allocProc_some alloc
    obtain ⟨rfl, -⟩ := getPcb_iff.mp current
    have forked := refs_forked (vacant new (.inl free)) (pidOff k.curpid)
    have row : slot (forkPcb (claimProc k new) (pidOff k.curpid) new) new = slot k (pidOff k.curpid) := by
      rw [(forked 0).1, update_self]
    have books : Books (forkPcb (claimProc k new) (pidOff k.curpid) new) (refs k) :=
      Books.carry balanced rfl rfl rfl rfl rfl
    obtain ⟨k', run, ptable, books⟩ := dupAll (p := new) (List.finRange 16) books (by
      intro _ _ f here
      rw [row] at here
      exact refs_pos here)
    simp only [run]
    refine ⟨_, _, rfl, ?_, ?_⟩
    · rw [Balanced, refs_congr ptable]
      convert books using 1
      funext f
      rw [(forked f).2, row]
    · intro q old
      have same : q ≠ new := by
        rintro rfl
        rw [ptable, forkPcb, setPcb_same] at old
        exact old rfl
      have slots : slot k' = slot (forkPcb (claimProc k new) (pidOff k.curpid) new) := by
        unfold slot
        rw [ptable]
      rw [slots, (forked 0).1, update_of_ne same]

theorem Balanced.carry (balanced : Balanced k) (slots : slot k' = slot k) (files : k'.files = k.files)
    (nfiles : k'.nfiles = k.nfiles) (pipes : k'.pipes = k.pipes) (npipes : k'.npipes = k.npipes)
    (log : k'.log = k.log) : Balanced k' := by
  have same : refs k' = refs k := by
    unfold refs
    rw [slots]
  rw [Balanced, same]
  exact Books.carry balanced files nfiles pipes npipes log

theorem balanced_setPcb (pcb : Pcb) (balanced : Balanced k) (same : (fun i => (pcb.fds i).file) = slot k p) :
    Balanced (k.setPcb p pcb) ∧ slot (k.setPcb p pcb) = slot k := by
  have slots : slot (k.setPcb p pcb) = slot k := by rw [slot_setPcb, same, update_eq_self]
  exact ⟨balanced.carry slots rfl rfl rfl rfl rfl, slots⟩

structure SameFiles (k k' : State) : Prop where
  fds : ∀ q, (k'.ptable q).fds = (k.ptable q).fds
  rest : k' = { k with ptable := k'.ptable, ptFree := k'.ptFree, curpid := k'.curpid }

theorem SameFiles.refl (k : State) : SameFiles k k := ⟨fun _ => rfl, rfl⟩

theorem SameFiles.trans (first : SameFiles k k') (second : SameFiles k' k'') : SameFiles k k'' :=
  ⟨fun q => (second.fds q).trans (first.fds q), second.rest.trans (congrArg (fun s : State =>
    { s with ptable := k''.ptable, ptFree := k''.ptFree, curpid := k''.curpid }) first.rest)⟩

theorem same_setPcb (same : pcb.fds = (k.ptable p).fds) : SameFiles k (k.setPcb p pcb) := by
  refine ⟨fun q => ?_, rfl⟩
  by_cases here : q = p
  · rw [here, setPcb_same, same]
  · rw [setPcb_other here]

theorem SameFiles.slots (same : SameFiles k k') : slot k' = slot k := by
  funext q
  unfold slot
  rw [same.fds]

theorem SameFiles.files (same : SameFiles k k') : k'.files = k.files := by rw [same.rest]

theorem SameFiles.pipes (same : SameFiles k k') : k'.pipes = k.pipes := by rw [same.rest]

theorem SameFiles.balanced (same : SameFiles k k') (balanced : Balanced k) : Balanced k' :=
  balanced.carry same.slots same.files (by rw [same.rest]) same.pipes (by rw [same.rest]) (by rw [same.rest])

theorem wake_same {pids : List Int} (call : wake k pids = .ok k') : SameFiles k k' := by
  induction pids generalizing k with
  | nil => exact Except.ok.inj call ▸ .refl k
  | cons pid pids ih =>
    obtain ⟨q, -, call⟩ := bind_ok call
    obtain ⟨_, -, call⟩ := bind_ok call
    have woken : SameFiles k (k.setPcb q { k.ptable q with rs := .ready }) := same_setPcb rfl
    exact woken.trans (ih call)

theorem sched_same (call : sched k = some k') : SameFiles k k' := by
  obtain ⟨q, -, rfl⟩ := Option.map_eq_some_iff.mp call
  have preempted : SameFiles k (preempt k) := by
    simp only [preempt]
    split_ifs
    · exact same_setPcb rfl
    · exact .refl k
  have dispatched : SameFiles (preempt k) ((preempt k).setPcb q { (preempt k).ptable q with rs := .running }) :=
    same_setPcb rfl
  exact preempted.trans (dispatched.trans ⟨fun _ => rfl, rfl⟩)

theorem wakeParent_same (call : wakeParent k p = .ok k') : SameFiles k k' := by
  unfold wakeParent at call
  split_ifs at call
  · obtain ⟨_, -, call⟩ := bind_ok call
    simp only at call
    split_ifs at call
    · rw [← pure_ok call]
      exact same_setPcb rfl
    · exact pure_ok call ▸ .refl k
  · exact pure_ok call ▸ .refl k

theorem sysWaitpid_same {w : Int} {ret : Option Int} (call : sysWaitpid k w = .ok (ret, k')) : SameFiles k k' := by
  obtain ⟨p, -, call⟩ := bind_ok call
  unfold procGetTerminatedChild at call
  cases scan : scanChildren k.ptable (k.ptable p).pid w (List.finRange 1024) false with
  | terminated c =>
    rw [scan] at call
    cases pure_ok call
    have found : SameFiles k (k.setPcb p { k.ptable p with waitPid := (k.ptable c).pid }) := same_setPcb rfl
    exact found.trans (same_setPcb rfl)
  | running =>
    rw [scan] at call
    cases pure_ok call
    exact same_setPcb rfl
  | childless =>
    rw [scan] at call
    cases pure_ok call
    exact .refl k

theorem waitpidBlock_same {w : Int} : SameFiles k (waitpidBlock k p w) := same_setPcb rfl

theorem waitpidReap_same {ret : Int × BitVec 8} (call : waitpidReap k p = .ok (ret, k')) : SameFiles k k' := by
  obtain ⟨_, -, call⟩ := bind_ok call
  cases pure_ok call
  have woken : SameFiles k (k.setPcb p { k.ptable p with waitPid := notWaiting, context := .user }) := same_setPcb rfl
  exact woken.trans (same_setPcb rfl)

theorem sysExit_balanced {code : BitVec 32} (balanced : Balanced k) (idle : Idle k) (call : sysExit k code = .ok k') :
    Balanced k' ∧ (∀ q, q ≠ pidOff k.curpid → slot k' q = slot k q) ∧ ∀ i, slot k' (pidOff k.curpid) i = none := by
  obtain ⟨p, here, call⟩ := bind_ok call
  obtain ⟨rfl, -⟩ := current_found here
  obtain ⟨_, wake, call⟩ := bind_ok call
  obtain ⟨closed, close, ended⟩ := bind_ok call
  have coded : SameFiles k (k.setPcb (pidOff k.curpid)
      { k.ptable (pidOff k.curpid) with returnCode := code.truncate 8 }) := same_setPcb rfl
  have same := coded.trans (wakeParent_same wake)
  obtain ⟨closed', close', kept, empty⟩ := releaseAll (p := pidOff k.curpid) (List.finRange 16)
    (same.balanced balanced) (fun n pipe => by rw [same.pipes]; exact idle n pipe)
  obtain rfl : closed' = closed := Except.ok.inj (close'.symm.trans close)
  have vacated (i : Fin 16) : slot closed' (pidOff k.curpid) i = none := empty i (.inl (List.mem_finRange i))
  obtain ⟨balanced, slots⟩ := balanced_setPcb (p := pidOff k.curpid)
    { closed'.ptable (pidOff k.curpid) with rs := .terminated, fds := fun _ => ⟨none, false⟩ }
    kept.balanced (by funext i; exact (vacated i).symm)
  obtain rfl := pure_ok ended
  refine ⟨balanced, ?_, ?_⟩
  · intro q other
    rw [slots, kept.others q other, same.slots]
  · intro i
    rw [slots]
    exact vacated i

end Petix.Proof.Proc
