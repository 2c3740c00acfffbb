import Petix.Spec.Processes
import Petix.Library.Result

namespace Petix.Proof.Proc
open Library Kernel.Sync Kernel.Pipes Kernel.Proc Kernel.Syscall
open Spec.Processes Result

variable {k k' : State} {p q : Slot} {pid : Int}
variable {f flags : Nat} {i : Fin 16} {reply : FsReply}
variable {ret fd : Int}

def entryOf (pcb : Pcb) : Entry := ⟨pcb.pid, pcb.ppid, pcb.rs, pcb.waitPid, pcb.context⟩

def tableOf (k : State) : Table := ⟨fun p => entryOf (k.ptable p), k.curpid⟩

@[simp] theorem setPcb_same (k : State) (p : Slot) (pcb : Pcb) : (k.setPcb p pcb).ptable p = pcb := by
  simp [State.setPcb]

theorem setPcb_other {pcb : Pcb} (other : q ≠ p) : (k.setPcb p pcb).ptable q = k.ptable q := by
  simp [State.setPcb, other]

theorem tableOf_setPcb (k : State) (p : Slot) (pcb : Pcb) :
    tableOf (k.setPcb p pcb) = (tableOf k).set p (entryOf pcb) := by
  unfold tableOf Table.set State.setPcb
  congr 1
  funext q
  by_cases same : q = p
  · subst same
    simp
  · simp [same]

@[simp] theorem tableOf_setFd (k : State) (p : Slot) (i : Fin 16) (fd : Fd) : tableOf (k.setFd p i fd) = tableOf k := by
  rw [State.setFd, tableOf_setPcb]
  unfold Table.set
  congr 1
  exact Function.update_eq_self p _

theorem getPcb_iff : getPcb k pid = some p ↔ (tableOf k).Finds pid p := by
  unfold getPcb
  simp only
  constructor
  · intro found
    split_ifs at found with absent
    simp only [not_or, not_not] at absent
    obtain rfl := Option.some.inj found
    exact ⟨rfl, absent.1, absent.2⟩
  · rintro ⟨rfl, live, same⟩
    rw [if_neg]
    rintro (absent | different)
    · exact live absent
    · exact different same

theorem deref_ok {α : Type} {fault : Fault} {a : α} {value : Option α} (equal : deref fault value = .ok a) :
    value = some a := by
  cases value with
  | none => cases equal
  | some b => rw [Except.ok.inj equal]

def Idle (k : State) : Prop := ∀ n pipe, k.pipes n = some pipe → pipe.rcond.lst = [] ∧ pipe.wcond.lst = []

def Framed (k k' : State) : Prop := Idle k → tableOf k' = tableOf k ∧ Idle k'

theorem Framed.refl (k : State) : Framed k k := fun idle => ⟨rfl, idle⟩

theorem Framed.trans {k'' : State} (first : Framed k k') (second : Framed k' k'') : Framed k k'' := by
  intro idle
  obtain ⟨table, idle⟩ := first idle
  obtain ⟨table', idle⟩ := second idle
  exact ⟨table'.trans table, idle⟩

theorem framed_setFd (k : State) (p : Slot) (i : Fin 16) (fd : Fd) : Framed k (k.setFd p i fd) :=
  fun idle => ⟨tableOf_setFd k p i fd, idle⟩

theorem framed_setFile (k : State) (f : Nat) (file : Option File) : Framed k (k.setFile f file) :=
  fun idle => ⟨rfl, idle⟩

theorem framed_emit (k : State) (event : Event) : Framed k (k.emit event) := fun idle => ⟨rfl, idle⟩

theorem framed_setPipe {n : Nat} {pipe : Option Pipe}
    (quiet : ∀ value, pipe = some value → value.rcond.lst = [] ∧ value.wcond.lst = []) :
    Framed k (k.setPipe n pipe) := by
  intro idle
  refine ⟨rfl, ?_⟩
  intro m value here
  by_cases same : m = n
  · subst same
    exact quiet value (by simpa [State.setPipe] using here)
  · exact idle m value (by simpa [State.setPipe, same] using here)

theorem semSignal_empty {sem : Sem} (empty : sem.lst = []) (n : Nat) :
    (semSignal sem n).1.lst = [] ∧ (semSignal sem n).2 = [] := by
  simp [semSignal, empty, signalLoop]

theorem pcloseSection_idle {pipe : Pipe} (side : End) (quiet : pipe.rcond.lst = [] ∧ pipe.wcond.lst = []) :
    (pcloseSection pipe side).2 = [] ∧
      (pcloseSection pipe side).1.rcond.lst = [] ∧ (pcloseSection pipe side).1.wcond.lst = [] := by
  obtain ⟨readers, readersWoken⟩ := semSignal_empty quiet.1 0
  obtain ⟨writers, writersWoken⟩ := semSignal_empty quiet.2 0
  cases side <;> simp [pcloseSection, wakeCond, closeEnd, condWake, readers, readersWoken, writers, writersWoken]

theorem pclose_framed (call : pclose k f = .ok k') : Framed k k' := by
  intro idle
  obtain ⟨file, -, call⟩ := bind_ok call
  cases data : file.privateData with
  | none =>
    simp only [data] at call
    exact pure_ok call ▸ ⟨rfl, idle⟩
  | some ends =>
    obtain ⟨side, n⟩ := ends
    simp only [data] at call
    obtain ⟨pipe, here, call⟩ := bind_ok call
    obtain ⟨woken, quiet⟩ := pcloseSection_idle side (idle n pipe (deref_ok here))
    obtain ⟨_, woke, call⟩ := bind_ok call
    rw [woken] at woke
    obtain rfl := Except.ok.inj woke
    have kept : Framed k (k.setPipe n (some (pcloseSection pipe side).1)) :=
      framed_setPipe (by rintro value ⟨⟩; exact quiet)
    split_ifs at call
    · rw [← pure_ok call]
      refine (kept.trans (.trans (.trans (framed_setPipe ?_) (framed_emit _ _)) (framed_setFile _ _ _))) idle
      rintro - ⟨⟩
    · exact pure_ok call ▸ kept idle

inductive Recounts : State → State → Prop
  | refl (k : State) : Recounts k k
  | trans {k k' k'' : State} : Recounts k k' → Recounts k' k'' → Recounts k k''
  | setFd (k : State) (p : Slot) (i : Fin 16) (fd : Fd) : Recounts k (k.setFd p i fd)
  | count {k : State} {f n : Nat} {file : File} : k.files f = some file →
      Recounts k (k.setFile f (some { file with refcnt := n }))
  | close {k k' : State} {f : Nat} : pclose k f = .ok k' → Recounts k k'
  | free (k : State) (f : Nat) : Recounts k (k.setFile f none)
  | emit (k : State) (event : Event) : Recounts k (k.emit event)

theorem Recounts.framed (recounts : Recounts k k') : Framed k k' := by
  induction recounts with
  | refl k => exact .refl k
  | trans _ _ first second => exact first.trans second
  | setFd k p i fd => exact framed_setFd k p i fd
  | count _ => exact framed_setFile _ _ _
  | close call => exact pclose_framed call
  | free k f => exact framed_setFile k f none
  | emit k event => exact framed_emit k event

theorem dropFile_recounts {file : File} (call : dropFile k f file = .ok k') : Recounts k k' := by
  unfold dropFile at call
  split_ifs at call with last close
  · obtain ⟨closed, close, call⟩ := bind_ok call
    rw [← pure_ok call]
    exact .trans (.trans (.emit k _) (.close close)) (.trans (.free closed f) (.emit _ _))
  · rw [← pure_ok call]
    exact .trans (.free k f) (.emit _ _)
  · exact Except.ok.inj call ▸ .refl k

theorem releaseFd_recounts (call : releaseFd k p i = .ok k') : Recounts k k' := by
  obtain ⟨_, -, call⟩ := bind_ok call
  obtain ⟨_, here, call⟩ := bind_ok call
  obtain ⟨_, -, call⟩ := bind_ok call
  obtain ⟨dropped, drop, call⟩ := bind_ok call
  rw [← pure_ok call]
  exact .trans (.trans (.count (deref_ok here)) (dropFile_recounts drop)) (.setFd dropped p i _)

theorem releaseOpenFd_recounts (call : releaseOpenFd k p i = .ok k') : Recounts k k' := by
  unfold releaseOpenFd at call
  split_ifs at call
  · exact Except.ok.inj call ▸ .refl k
  · exact releaseFd_recounts call

theorem dupFd_recounts (call : dupFd k p i = .ok k') : Recounts k k' := by
  obtain ⟨_, -, call⟩ := bind_ok call
  obtain ⟨_, here, call⟩ := bind_ok call
  exact pure_ok call ▸ .count (deref_ok here)

theorem dupOpenFd_recounts (call : dupOpenFd k p i = .ok k') : Recounts k k' := by
  unfold dupOpenFd at call
  split_ifs at call
  · exact Except.ok.inj call ▸ .refl k
  · exact dupFd_recounts call

theorem foldlM_recounts {body : State → Fin 16 → Except Fault State} {fds : List (Fin 16)}
    (recounts : ∀ k i k', body k i = .ok k' → Recounts k k') (run : fds.foldlM body k = .ok k') : Recounts k k' :=
  foldlM_invariant (fun _ i _ _ before step => before.trans (recounts _ i _ step)) (.refl k) run

theorem allocFd_framed {fd : Option (Fin 16)} (call : allocFd k p = (fd, k')) : Framed k k' := by
  unfold allocFd at call
  split at call
  · cases call
    exact .refl k
  · cases call
    exact .trans (fun idle => ⟨rfl, idle⟩) (framed_setFd _ p _ _)

theorem openInto_framed
    (call : openInto k p i flags reply = .ok (ret, k')) : Framed k k' := by
  obtain ⟨opened, fs, call⟩ := bind_ok call
  have stored : Framed k opened := by
    obtain ⟨f, -, fs⟩ := bind_ok fs
    obtain ⟨_, -, fs⟩ := bind_ok fs
    rw [← pure_ok fs]
    have flagged : Framed k (if flags &&& oCloexec ≠ 0 then setCloexec k p i else k) := by
      split_ifs
      · exact framed_setFd k p i _
      · exact .refl k
    cases reply.stored with
    | true => exact flagged.trans (framed_setFile _ f _)
    | false => exact flagged
  split_ifs at call
  · obtain ⟨_, release, call⟩ := bind_ok call
    cases pure_ok call
    exact stored.trans (releaseFd_recounts release).framed
  · cases pure_ok call
    exact stored

theorem sysOpen_framed
    (call : sysOpen k flags reply = .ok (ret, k')) : Framed k k' := by
  obtain ⟨_, -, call⟩ := bind_ok call
  split_ifs at call with failed
  · cases pure_ok call
    exact .refl k
  · split at call
    · rename_i alloc
      cases pure_ok call
      exact allocFd_framed alloc
    · rename_i alloc
      exact (allocFd_framed alloc).trans (openInto_framed call)

theorem sysClose_recounts (call : sysClose k fd = .ok (ret, k')) : Recounts k k' := by
  obtain ⟨_, -, call⟩ := bind_ok call
  split at call
  · cases pure_ok call
    exact .refl k
  · obtain ⟨_, release, call⟩ := bind_ok call
    cases pure_ok call
    exact releaseFd_recounts release

theorem sysDup2_recounts {fd2 : Int} (call : sysDup2 k fd fd2 = .ok (ret, k')) : Recounts k k' := by
  obtain ⟨p, -, call⟩ := bind_ok call
  split at call
  · cases pure_ok call
    exact .refl k
  · split_ifs at call
    · cases pure_ok call
      exact .refl k
    · obtain ⟨_, release, call⟩ := bind_ok call
      obtain ⟨copied, copy, call⟩ := bind_ok call
      cases pure_ok call
      exact .trans (.trans (releaseOpenFd_recounts release) (dupFd_recounts copy)) (.setFd copied p _ _)
    · cases pure_ok call
      exact .refl k

theorem openPipe_framed {rfile wfile : Nat} (call : openPipe k rfile wfile = .ok k') : Framed k k' := by
  obtain ⟨_, -, call⟩ := bind_ok call
  obtain ⟨_, -, call⟩ := bind_ok call
  rw [← pure_ok call]
  have made : Framed k ({ k with npipes := k.npipes + 1 }.setPipe k.npipes (some newPipe)) :=
    .trans (fun idle => ⟨rfl, idle⟩) (framed_setPipe (by rintro - ⟨⟩; exact ⟨rfl, rfl⟩))
  exact (made.trans (framed_setFile _ rfile _)).trans (framed_setFile _ wfile _)

theorem sysPipe_framed {ret : Int × Option (Fin 16 × Fin 16)}
    (call : sysPipe k flags = .ok (ret, k')) : Framed k k' := by
  obtain ⟨p, -, call⟩ := bind_ok call
  split at call
  · rename_i alloc
    cases pure_ok call
    exact allocFd_framed alloc
  · rename_i first
    split at call
    · rename_i second
      cases pure_ok call
      exact (allocFd_framed first).trans (allocFd_framed second)
    · rename_i fd1 _ _ fd2 _ second
      obtain ⟨_, into, call⟩ := bind_ok call
      cases pure_ok call
      refine ((allocFd_framed first).trans (allocFd_framed second)).trans ?_
      obtain ⟨_, -, into⟩ := bind_ok into
      obtain ⟨_, -, into⟩ := bind_ok into
      obtain ⟨made, make, into⟩ := bind_ok into
      rw [← pure_ok into]
      refine (openPipe_framed make).trans ?_
      split_ifs
      · exact (framed_setFd made p fd1 _).trans (framed_setFd _ p fd2 _)
      · exact .refl made

theorem sysExec_recounts (call : sysExec k = .ok k') : Recounts k k' := by
  obtain ⟨_, -, call⟩ := bind_ok call
  refine foldlM_recounts ?_ call
  intro k _ _ step
  split_ifs at step
  · exact releaseOpenFd_recounts step
  · exact Except.ok.inj step ▸ .refl k

end Petix.Proof.Proc
