import Petix.Proof.Proc.Books

namespace Petix.Proof.Proc
open Function Library Kernel.Sync Kernel.Pipes Kernel.Proc Kernel.Syscall
open Spec.Files Result

variable {k k' : State} {s : Nat → Nat} {f g n : Nat} {file : File} {pipe : Pipe} {side : End} {p : Slot} {i : Fin 16}
variable {side' : End} {cloexec : Bool}

theorem isOpen_closed (pipe : Pipe) (side side' : End) :
    isOpen (pcloseSection pipe side).1 side' = (isOpen pipe side' && side' != side) := by
  cases side <;> cases side' <;> simp [pcloseSection, wakeCond, closeEnd, isOpen]

def afterClose (pipe : Pipe) (side : End) : Option Pipe :=
  if !(pcloseSection pipe side).1.oread && !(pcloseSection pipe side).1.owrite then none
  else some (pcloseSection pipe side).1

theorem afterClose_isOpen {pipe' : Pipe} (after : afterClose pipe side = some pipe')
    (still : isOpen pipe' side' = true) : side' ≠ side ∧ isOpen pipe side' = true := by
  unfold afterClose at after
  split_ifs at after
  obtain rfl := Option.some.inj after
  rw [isOpen_closed, Bool.and_eq_true, bne_iff_ne] at still
  exact still.symm

theorem afterClose_some (other : side' ≠ side) (still : isOpen pipe side' = true) :
    ∃ pipe', afterClose pipe side = some pipe' ∧ isOpen pipe' side' = true := by
  have kept : isOpen (pcloseSection pipe side).1 side' = true := by
    rw [isOpen_closed, still, Bool.true_and, bne_iff_ne]
    exact other
  refine ⟨(pcloseSection pipe side).1, ?_, kept⟩
  unfold afterClose
  cases side' with
  | read => simp [show (pcloseSection pipe side).1.oread = true from kept]
  | write => simp [show (pcloseSection pipe side).1.owrite = true from kept]

theorem pclose_ok (here : k.files f = some file) (data : file.privateData = some (side, n))
    (found : k.pipes n = some pipe) (quiet : pipe.rcond.lst = [] ∧ pipe.wcond.lst = []) :
    ∃ k', pclose k f = .ok k' ∧ k'.ptable = k.ptable ∧ k'.nfiles = k.nfiles ∧ k'.npipes = k.npipes ∧
      (∀ g, g ≠ f → k'.files g = k.files g) ∧ k'.pipes = update k.pipes n (afterClose pipe side) ∧
      ∀ g, history k'.log g = history k.log g := by
  have woken := (pcloseSection_idle side quiet).1
  simp only [pclose, here, data, found, deref, woken, wake, bind, Except.bind, afterClose]
  split_ifs with last
  · refine ⟨_, rfl, rfl, rfl, rfl, fun g other => update_of_ne other _ _, ?_, ?_⟩
    · exact update_idem _ _ _
    · intro g
      rw [State.setFile, State.emit, history_append]
      exact List.append_nil _
  · exact ⟨_, rfl, rfl, rfl, rfl, fun g _ => rfl, rfl, fun g => rfl⟩

theorem history_other {event : Event} (other : g ≠ f) (mine : event = .close f ∨ ∃ fops, event = .kfree f fops)
    (log : List Event) : history (log ++ [event]) g = history log g := by
  rcases mine with rfl | ⟨-, rfl⟩
  · simp [history, Ne.symm other]
  · simp [history, Ne.symm other]

theorem Books.free (books : Books k s) (here : k.files f = some file) {closed : State}
    (files : ∀ g, g ≠ f → closed.files g = k.files g) (nfiles : closed.nfiles = k.nfiles)
    (mine : history closed.log f = history k.log f ++ if file.fops = some .pipe then [.close f] else [])
    (theirs : ∀ g, g ≠ f → history closed.log g = history k.log g)
    (ends : Ends (update (dataOf k) f none) closed.pipes closed.npipes) :
    Books ((closed.setFile f none).emit (.kfree f file.fops)) (update s f 0) := by
  constructor
  · refine books.counts.remove here file.fops ?_ nfiles ?_ ?_
    · funext g
      by_cases same : g = f
      · subst same
        simp [State.setFile, State.emit]
      · simp [State.setFile, State.emit, same, files]
    · rw [State.emit, history_append]
      simp only [State.setFile, mine, released, List.append_assoc]
      simp [history]
    · intro g other
      rw [State.emit, history_other other (.inr ⟨_, rfl⟩)]
      exact theirs g other
  · have data : dataOf ((closed.setFile f none).emit (.kfree f file.fops)) = update (dataOf k) f none := by
      funext g
      by_cases same : g = f
      · subst same
        simp [dataOf, State.setFile, State.emit]
      · simp [dataOf, State.setFile, State.emit, same, files]
    rw [data]
    exact ends

theorem history_close (log : List Event) (f : Nat) : history (log ++ [.close f]) f = history log f ++ [.close f] := by
  simp [history]

theorem dropFile_last (books : Books k s) (idle : Idle k) (here : k.files f = some file) :
    ∃ k', dropFile (k.setFile f (some { file with refcnt := 0 })) f { file with refcnt := 0 } = .ok k' ∧
      Books k' (update s f 0) ∧ k'.ptable = k.ptable := by
  have data : dataOf k f = some (file.fops, file.privateData) := by simp [dataOf, here]
  have piped := books.ends.piped f file.fops file.privateData data
  have others (g : Nat) (other : g ≠ f) :
      (k.setFile f (some { file with refcnt := 0 })).files g = k.files g := update_of_ne other _ _
  rw [dropFile, if_pos rfl]
  by_cases close : file.fops = some .pipe
  · obtain ⟨⟨side, n⟩, held⟩ := Option.ne_none_iff_exists'.mp (piped.mp close)
    obtain ⟨pipe, found, -⟩ := books.ends.open_of_held f file.fops side n (by rw [data, held])
    obtain ⟨_, call, ptable, nfiles, npipes, files, pipes, log⟩ :=
      pclose_ok (k := (k.setFile f (some { file with refcnt := 0 })).emit (.close f)) (f := f)
        (update_self _ _ _) held found (idle n pipe found)
    rw [if_pos (by simp [File.hasClose, close]), call]
    refine ⟨_, rfl, ?_, ptable⟩
    refine books.free here (fun g other => (files g other).trans (others g other)) nfiles ?_ ?_ ?_
    · rw [log, if_pos close]
      exact history_close k.log f
    · intro g other
      rw [log]
      exact history_other other (.inl rfl) k.log
    · rw [pipes, npipes]
      refine books.ends.close (by rw [data, held]) ?_ ?_
      · intro pipe' side' after still
        obtain ⟨other, before⟩ := afterClose_isOpen after still
        exact ⟨other, pipe, found, before⟩
      · intro _ _ found' other still
        obtain rfl := Option.some.inj (found.symm.trans found')
        exact afterClose_some other still
  · have free : file.privateData = none := by
      by_contra held
      exact close (piped.mpr held)
    rw [if_neg (by simp [File.hasClose, close])]
    refine ⟨_, rfl, ?_, rfl⟩
    refine books.free here others rfl ?_ (fun g _ => rfl) ?_
    · rw [if_neg close]
      exact (List.append_nil _).symm
    · refine books.ends.plain ?_ (by simp)
      intro _ _ there
      rw [data, free] at there
      cases there

theorem dropFile_books (books : Books k s) (idle : Idle k) (here : k.files f = some file) :
    ∃ k', dropFile (k.setFile f (some { file with refcnt := file.refcnt - 1 })) f
        { file with refcnt := file.refcnt - 1 } = .ok k' ∧ Books k' (update s f (s f - 1)) ∧ k'.ptable = k.ptable := by
  obtain ⟨count, -⟩ := books.counts.counted f file here
  rw [← count]
  by_cases last : file.refcnt - 1 = 0
  · rw [last]
    exact dropFile_last books idle here
  · rw [dropFile, if_neg last]
    exact ⟨_, rfl, books.recount here (Nat.pos_of_ne_zero last), rfl⟩

theorem Books.driver (books : Books k s) {count : Nat} (here : k.files f = some ⟨none, none, count⟩) :
    Books (k.setFile f (some ⟨some .driver, none, count⟩)) s := by
  obtain ⟨equal, positive⟩ := books.counts.counted f _ here
  have rewritten := books.counts.rewrite here ⟨some .driver, none, count⟩ (equal ▸ positive)
  rw [show update s f count = s by rw [show count = s f from equal, update_eq_self]] at rewritten
  refine ⟨rewritten, ?_⟩
  rw [dataOf_setFile]
  refine books.ends.plain ?_ (by simp)
  intro _ _ there
  simp [dataOf, here] at there

def refs (k : State) (f : Nat) : Nat := RefCount.total (slot k) f

theorem slot_setFd (k : State) (p : Slot) (i : Fin 16) (fd : Fd) :
    slot (k.setFd p i fd) = update (slot k) p (update (slot k p) i fd.file) := by
  funext q j
  by_cases process : q = p
  · subst process
    by_cases descriptor : j = i
    · subst descriptor
      simp [slot, State.setFd]
    · simp [slot, State.setFd, descriptor]
  · simp [slot, State.setFd, setPcb_other process, process]

def cells (k : State) (c : Slot × Fin 16) : Fd := (k.ptable c.1).fds c.2

theorem cells_setFd (k : State) (p : Slot) (i : Fin 16) (fd : Fd) :
    cells (k.setFd p i fd) = update (cells k) (p, i) fd := by
  funext ⟨q, j⟩
  by_cases process : q = p
  · subst process
    by_cases descriptor : j = i
    · simp [cells, State.setFd, descriptor]
    · simp [cells, State.setFd, descriptor]
  · simp [cells, State.setFd, setPcb_other process, process]

theorem refs_setFd (k : State) (p : Slot) (i : Fin 16) (fd : Fd) (f : Nat) :
    refs (k.setFd p i fd) f + (if slot k p i = some f then 1 else 0) =
      refs k f + if fd.file = some f then 1 else 0 := by
  have row := RefCount.count_update (slot k p) i fd.file f
  have rows := RefCount.total_update (slot k) p (update (slot k p) i fd.file) f
  rw [← slot_setFd] at rows
  unfold refs
  omega

theorem refs_clear (here : slot k p i = some f) :
    refs (k.setFd p i ⟨none, cloexec⟩) = update (refs k) f (refs k f - 1) := by
  funext g
  have change := refs_setFd k p i ⟨none, cloexec⟩ g
  by_cases same : g = f
  · subst same
    simp only [here, if_true, reduceCtorEq, if_false] at change
    rw [update_self]
    omega
  · simpa [here, same, Ne.symm same] using change

theorem refs_point (here : slot k p i = none) :
    refs (k.setFd p i ⟨some f, cloexec⟩) = update (refs k) f (refs k f + 1) := by
  funext g
  have change := refs_setFd k p i ⟨some f, cloexec⟩ g
  by_cases same : g = f
  · subst same
    simpa [here] using change
  · simpa [here, same, Ne.symm same] using change

theorem refs_keep {fd : Fd} (same : fd.file = slot k p i) : refs (k.setFd p i fd) = refs k := by
  funext g
  have change := refs_setFd k p i fd g
  rw [same] at change
  exact Nat.add_right_cancel change

theorem refs_pos (here : slot k p i = some f) : 0 < refs k f := RefCount.total_pos_iff.mpr ⟨p, i, here⟩

def Balanced (k : State) : Prop := Books k (refs k)

theorem refs_congr (same : k'.ptable = k.ptable) : refs k' = refs k := by
  unfold refs slot
  rw [same]

theorem Books.carry (books : Books k s) (files : k'.files = k.files) (nfiles : k'.nfiles = k.nfiles)
    (pipes : k'.pipes = k.pipes) (npipes : k'.npipes = k.npipes) (log : k'.log = k.log) : Books k' s := by
  refine ⟨books.counts.carry files nfiles log, ?_⟩
  have data : dataOf k' = dataOf k := by
    unfold dataOf
    rw [files]
  rw [data, pipes, npipes]
  exact books.ends

theorem releaseFd_balanced (balanced : Balanced k) (idle : Idle k) (here : slot k p i = some f) :
    ∃ k', releaseFd k p i = .ok k' ∧ Balanced k' ∧ slot k' = update (slot k) p (update (slot k p) i none) := by
  obtain ⟨file, opened⟩ := balanced.counts.some_file (refs_pos here)
  obtain ⟨count, positive⟩ := balanced.counts.counted f file opened
  obtain ⟨dropped, drop, books, ptable⟩ := dropFile_books balanced idle opened
  have slots : slot dropped = slot k := by
    unfold slot
    rw [ptable]
  have run : releaseFd k p i = .ok (dropped.setFd p i ⟨none, false⟩) := by
    have asserted : (file.refcnt != 0) = true := by
      rw [bne_iff_ne, count]
      exact Nat.ne_of_gt positive
    have named : ((k.ptable p).fds i).file = some f := here
    simp only [releaseFd, named, opened, deref, asserted, kassert, if_true, drop, bind, Except.bind, pure, Except.pure]
  refine ⟨_, run, ?_, ?_⟩
  · rw [Balanced, refs_clear (slots ▸ here), refs_congr ptable]
    exact books.carry rfl rfl rfl rfl rfl
  · rw [slot_setFd, slots]

theorem releaseOpenFd_balanced (balanced : Balanced k) (idle : Idle k) (p : Slot) (i : Fin 16) :
    ∃ k', releaseOpenFd k p i = .ok k' ∧ Balanced k' ∧ slot k' = update (slot k) p (update (slot k p) i none) := by
  cases here : slot k p i with
  | none =>
    refine ⟨k, if_pos here, balanced, ?_⟩
    rw [← here, update_eq_self, update_eq_self]
  | some f =>
    obtain ⟨k', run, balanced, slots⟩ := releaseFd_balanced balanced idle here
    refine ⟨k', ?_, balanced, slots⟩
    rw [releaseOpenFd, if_neg (by rw [show ((k.ptable p).fds i).file = some f from here]; simp), run]

theorem dupFd_books (books : Books k s) (here : slot k p i = some f) (referred : 0 < s f) :
    ∃ k', dupFd k p i = .ok k' ∧ Books k' (update s f (s f + 1)) ∧ k'.ptable = k.ptable := by
  obtain ⟨file, opened⟩ := books.counts.some_file referred
  obtain ⟨count, -⟩ := books.counts.counted f file opened
  have named : ((k.ptable p).fds i).file = some f := here
  have run : dupFd k p i = .ok (k.setFile f (some { file with refcnt := file.refcnt + 1 })) := by
    simp only [dupFd, named, opened, deref, bind, Except.bind, pure, Except.pure]
  refine ⟨_, run, ?_, rfl⟩
  rw [← count]
  exact books.recount opened (Nat.succ_pos _)

theorem allocFd_balanced {fd : Option (Fin 16)} (balanced : Balanced k) (call : allocFd k p = (fd, k')) : Balanced k' ∧
      match fd with
      | none => k' = k
      | some i => slot k p i = none ∧ slot k' = update (slot k) p (update (slot k p) i (some k.nfiles)) ∧
          k'.files = update k.files k.nfiles (some ⟨none, none, 1⟩) ∧ k'.nfiles = k.nfiles + 1 := by
  unfold allocFd at call
  split at call
  · cases call
    exact ⟨balanced, rfl⟩
  · rename_i i found
    cases call
    have free : slot k p i = none := by
      have here := List.find?_some found
      rwa [decide_eq_true_eq] at here
    have alloc := balanced.counts.alloc
    have made : refs ({ k with nfiles := k.nfiles + 1 }.setFile k.nfiles (some ⟨none, none, 1⟩)) = refs k :=
      refs_congr rfl
    have unused : refs k k.nfiles = 0 := balanced.counts.absent _ (balanced.counts.fresh _ (Nat.le_refl _)).1
    refine ⟨?_, free, slot_setFd _ p i _, rfl, rfl⟩
    rw [Balanced, refs_point (by exact free), made, unused]
    refine Books.carry (k := { k with nfiles := k.nfiles + 1 }.setFile k.nfiles (some ⟨none, none, 1⟩))
      ⟨alloc, ?_⟩ rfl rfl rfl rfl rfl
    rw [dataOf_setFile]
    refine balanced.ends.plain ?_ (by simp)
    intro _ _ there
    have absent := (balanced.counts.fresh k.nfiles (Nat.le_refl _)).1
    simp [dataOf, absent] at there

end Petix.Proof.Proc
