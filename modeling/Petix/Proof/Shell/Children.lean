import Petix.Proof.Proc.Parents
import Petix.Proof.Shell.Frames
import Petix.Proof.Shell.Lines

namespace Petix.Proof.Shell
open Library Library.Result Library.Setting
open Kernel.Proc Kernel.Syscall Kernel.Shell
open Spec.Files Spec.Processes Spec.Shell Proof.Proc

variable {k k' : State} {t : Table} {p c : Slot} {w w' : World} {α : Type} {pid : Int}

theorem unreaped_steady (steady : Steady (tableOf k) (tableOf k')) : Unreaped k' p = Unreaped k p := by
  funext pid
  exact propext (exists_congr fun q => Steady.child steady)

theorem scan_childless {ptable : Slot → Pcb} {ppid pid : Int} {slots : List Slot} {child : Bool}
    (absent : scanChildren ptable ppid pid slots child = .childless) :
    child = false ∧ ∀ c ∈ slots, (ptable c).rs ≠ .noproc → (ptable c).ppid = ppid → ¬ Matches pid (ptable c).pid := by
  induction slots generalizing child with
  | nil =>
    rw [scanChildren] at absent
    split_ifs at absent with no_child
    exact ⟨Bool.eq_false_iff.mpr no_child, by simp⟩
  | cons d rest ih =>
    rw [scanChildren] at absent
    split_ifs at absent with empty here dead
    · obtain ⟨no_child, others⟩ := ih absent
      refine ⟨no_child, ?_⟩
      rintro c (_ | ⟨_, member⟩) live
      · exact absurd empty live
      · exact others c member live
    · cases (ih absent).1
    · obtain ⟨no_child, others⟩ := ih absent
      refine ⟨no_child, ?_⟩
      rintro c (_ | ⟨_, member⟩) live parent matching
      · exact here ⟨parent, matching⟩
      · exact others c member live parent matching

theorem sysWaitpid_scanned {w : Int} {ret : Option Int} (current : getPcb k k.curpid = some p)
    (call : sysWaitpid k w = .ok (ret, k')) :
    (ret = none ∧ Steady (tableOf k) (tableOf k') ∧ ((k'.ptable p).context = .scanned w ∨
      (k'.ptable p).context = .reaping ∧ Matches w (k'.ptable p).waitPid)) ∨
    ret = some (-ECHILD) ∧ k' = k ∧ ∀ c, ¬ (tableOf k).Child p w c := by
  have live : (k.ptable p).rs ≠ .noproc := (getPcb_iff.mp current).2.1
  obtain ⟨_, here, call⟩ := bind_ok call
  cases current.symm.trans (deref_ok here)
  unfold procGetTerminatedChild at call
  cases scan : scanChildren k.ptable (k.ptable p).pid w (List.finRange 1024) false with
  | terminated c =>
    rw [scan] at call
    cases pure_ok call
    refine .inl ⟨rfl, ?_, .inr ?_⟩
    · rw [tableOf_setPcb, tableOf_setPcb, set_set, setPcb_same]
      exact steady_set rfl rfl live live
    · rw [setPcb_same, setPcb_same]
      exact ⟨rfl, (scan_terminated scan).2.2⟩
  | running =>
    rw [scan] at call
    cases pure_ok call
    refine .inl ⟨rfl, ?_, .inl ?_⟩
    · rw [tableOf_setPcb]
      exact steady_set rfl rfl live live
    · rw [setPcb_same]
  | childless =>
    rw [scan] at call
    cases pure_ok call
    refine .inr ⟨rfl, rfl, ?_⟩
    rintro c ⟨alive, parent, matching⟩
    exact (scan_childless scan).2 c (List.mem_finRange c) alive parent matching

theorem reap_child {q : Slot} (numbered : Numbered t) (found : t.Finds pid c) (other : p ≠ c) {x : Int} :
    Child ((t.unwait p).release c) p x q ↔ Child t p x q ∧ x ≠ pid := by
  obtain ⟨-, live, named⟩ := found
  have pid_p : (((t.unwait p).release c).entry p).pid = (t.entry p).pid := (reap_steady other).1
  by_cases same : q = c
  · subst same
    constructor
    · rintro ⟨alive, -⟩
      exact absurd alive (reap_gone t p q)
    · rintro ⟨⟨-, -, equal⟩, apart⟩
      exact absurd (equal.symm.trans named) apart
  · obtain ⟨pid_q, ppid_q, live_q⟩ := reap_steady (t := t) (p := p) same
    simp only [Child, live_q, pid_q, ppid_q, pid_p]
    constructor
    · rintro ⟨alive, parent, rfl⟩
      refine ⟨⟨alive, parent, rfl⟩, fun equal => same (numbered.unique alive live (equal.trans named.symm))⟩
    · exact And.left

theorem sysFork_children (before : Numbered (tableOf k)) (after : Numbered (tableOf k'))
    (running : (k.ptable (pidOff k.curpid)).rs = .running) (call : sysFork k = .ok (pid, k')) :
    (allocProc k = none ∧ pid = -EAGAIN ∧ k' = k) ∨
    (allocProc k).isSome ∧ (k'.ptable (pidOff k.curpid)).context = (k.ptable (pidOff k.curpid)).context ∧
      ¬ Unreaped k (pidOff k.curpid) pid ∧
      ∀ x, Unreaped k' (pidOff k.curpid) x ↔ Unreaped k (pidOff k.curpid) x ∨ x = pid := by
  cases sysFork_forked running call with
  | full none => exact .inl ⟨none, rfl, rfl⟩
  | @made new _ some free live parent _ others =>
    have old : pidOff k.curpid ≠ new := by
      intro same
      rw [same, free] at running
      cases running
    have entry {q : Slot} (other : q ≠ new) : (tableOf k').entry q = (tableOf k).entry q :=
      congrArg entryOf (others q other)
    have same {q : Slot} {x : Int} (other : q ≠ new) :
        Child (tableOf k') (pidOff k.curpid) x q ↔ Child (tableOf k) (pidOff k.curpid) x q := by
      simp only [Child, Table.Live, entry other, entry old]
    have grown {q : Slot} {x : Int} (child : Child (tableOf k) (pidOff k.curpid) x q) : q ≠ new := by
      rintro rfl
      exact child.1 free
    refine .inr ⟨some, congrArg Entry.context (entry old), ?_, fun x => ?_⟩
    · rintro ⟨q, child⟩
      have here : pidOff (k.ptable q).pid = q := before.slot q child.1
      exact grown child (here.symm.trans ((congrArg pidOff child.2.2).trans (after.slot new live)))
    · constructor
      · rintro ⟨q, child⟩
        by_cases other : q = new
        · exact .inr (other ▸ child.2.2.symm)
        · exact .inl ⟨q, (same other).mp child⟩
      · rintro (⟨q, child⟩ | rfl)
        · exact ⟨q, (same (grown child)).mpr child⟩
        · exact ⟨new, live, parent.trans (congrArg Entry.pid (entry old)).symm, rfl⟩

abbrev among (p : Slot) : Setting World Request Reply := setting p fun _ _ => True

structure Calm (p : Slot) (P : (Int → Prop) → List Int → Prop) (w : World) : Prop where
  alive : Alive p w
  user : (w.kernel.ptable p).context = .user
  books : P (Unreaped w.kernel p) w.children

variable {P : (Int → Prop) → List Int → Prop} {post : α → World → Prop} {crash : World → Prop}

theorem calm_stable : (among p).Stable (Calm p P) := by
  intro _ _ calm step
  obtain ⟨alive, same⟩ := calm.alive.rely step
  refine ⟨alive, same.entry.context.trans calm.user, ?_⟩
  rw [same.children, funext fun pid => propext (same.unreaped pid)]
  exact calm.books

theorem Calm.framed (calm : Calm p P w) (alive : Alive p w') (framed : Framed w.kernel w'.kernel)
    (children : w'.children = w.children) : Calm p P w' := by
  obtain ⟨table, -⟩ := framed (reachable_sound calm.alive.reachable).idle
  have same : Unreaped w'.kernel p = Unreaped w.kernel p := by
    funext pid
    rw [unreaped_iff, unreaped_iff, table]
  refine ⟨alive, ?_, ?_⟩
  · exact (congrArg (fun t => (t.entry p).context) table).trans calm.user
  · rw [same, children]
    exact calm.books

theorem calm_quiet {r : Request} {next : Reply r → Shell α} (quiet : (∃ flags, r = .pipe2 flags) ∨ ∃ fd, r = .close fd)
    (calm : Calm p P w) (done : ∀ reply w', Calm p P w' → (among p).Safe post crash (next reply) w') :
    (among p).Safe post crash (.call r next) w := by
  have once : AtOnce r := by rcases quiet with ⟨flags, rfl⟩ | ⟨fd, rfl⟩ <;> trivial
  refine safe_atOnce once calm_stable calm ?_
  intro _ w' reply calm step
  have alive := calm.alive.performs step (by rintro _ rfl; exact once)
  obtain ⟨⟨-, -, -, _, call⟩, children⟩ := step
  refine done reply w' ?_
  rcases quiet with ⟨_, rfl⟩ | ⟨_, rfl⟩
  · obtain ⟨_, _, _, made, -⟩ := serve_pipe2 call
    exact calm.framed alive (sysPipe_framed made) (children.trans (List.append_nil _))
  · obtain ⟨_, closed, -⟩ := serve_close call
    exact calm.framed alive (sysClose_recounts closed).framed (children.trans (List.append_nil _))

def Adds (P : (Int → Prop) → List Int → Prop) (pid : Int) (left : Int → Prop) (all : List Int) : Prop :=
  ∃ left' all', P left' all' ∧ ¬ left' pid ∧ (∀ x, left x ↔ left' x ∨ x = pid) ∧ all = all' ++ [pid]

def Takes (P : (Int → Prop) → List Int → Prop) (pid : Int) (left : Int → Prop) (all : List Int) : Prop :=
  ∃ left', P left' all ∧ ∀ x, left x ↔ left' x ∧ x ≠ pid

theorem calm_fork {next : Reply .fork → Shell α} (calm : Calm p P w)
    (full : ∀ w', Calm p P w' → (among p).Safe post crash (next (-EAGAIN)) w')
    (made : ∀ pid w', Calm p (Adds P pid) w' → (among p).Safe post crash (next pid) w') :
    (among p).Safe post crash (.call .fork next) w := by
  refine safe_atOnce trivial calm_stable calm ?_
  intro w w' pid calm step
  have alive := calm.alive.performs step (by simp)
  obtain ⟨⟨rfl, running, -, _, call⟩, children⟩ := step
  obtain ⟨_, forks, replied⟩ := serve_fork call
  cases replied
  have before := (reachable_sound calm.alive.reachable).numbered
  have after := (reachable_sound alive.reachable).numbered
  rcases sysFork_children before after running forks with ⟨none, rfl, same⟩ | ⟨some, context, fresh, added⟩
  · refine full w' ⟨alive, ?_, ?_⟩
    · rw [same]
      exact calm.user
    · rw [same, children, forked, none]
      exact (List.append_nil w.children).symm ▸ calm.books
  · refine made pid w' ⟨alive, context.trans calm.user, _, _, calm.books, fresh, added, ?_⟩
    rw [children, forked, if_pos some]

structure Waiting (p : Slot) (P : (Int → Prop) → List Int → Prop) (pid : Int) (w : World) : Prop where
  alive : Alive p w
  stage : (w.kernel.ptable p).context = .user ∨ (w.kernel.ptable p).context = .scanned pid ∨
    (w.kernel.ptable p).context = .reaping ∧ (w.kernel.ptable p).waitPid = pid
  books : P (Unreaped w.kernel p) w.children

theorem waiting_stable (named : pid ≠ -1) : (among p).Stable (Waiting p P pid) := by
  intro w w' waiting step
  obtain ⟨alive, same⟩ := waiting.alive.rely step
  have context : (w'.kernel.ptable p).context = (w.kernel.ptable p).context := same.entry.context
  refine ⟨alive, ?_, ?_⟩
  · rw [context]
    refine waiting.stage.imp_right (Or.imp_right ?_)
    rintro ⟨reaping, waits⟩
    have kept : (w'.kernel.ptable p).waitPid = (w.kernel.ptable p).waitPid :=
      same.entry.waitPid.resolve_right fun any => named (waits.symm.trans any)
    exact ⟨reaping, kept.trans waits⟩
  · rw [same.children, funext fun pid => propext (same.unreaped pid)]
    exact waiting.books

theorem waiting_next (named : pid ≠ -1) (waiting : Waiting p P pid w)
    (step : (among p).performs (.waitpid pid) w none w') : Waiting p P pid w' := by
  have alive := waiting.alive.performs step (by simp)
  obtain ⟨⟨current, running, -, _, call⟩, children⟩ := step
  have books (steady : Steady (tableOf w.kernel) (tableOf w'.kernel)) : P (Unreaped w'.kernel p) w'.children := by
    rw [children.trans (List.append_nil _), unreaped_steady steady]
    exact waiting.books
  rcases serve_waitpid call with ⟨-, _, call, replied⟩ | ⟨scanned, context, block, -⟩ | ⟨-, _, -, replied⟩
  · rcases sysWaitpid_scanned (current_pcb waiting.alive current running) call with ⟨-, steady, stage⟩ | ⟨rfl, -⟩
    · refine ⟨alive, .inr (stage.imp_right (And.imp_right ?_)), books steady⟩
      exact fun matching => (matching.resolve_left named).symm
    · cases replied
  · obtain rfl : scanned = pid := by
      rcases waiting.stage with user | asked | ⟨reaping, -⟩
      · cases user.symm.trans context
      · cases asked.symm.trans context
        rfl
      · cases reaping.symm.trans context
    refine ⟨alive, .inr (.inr ?_), books ?_⟩
    · rw [block, waitpidBlock, setPcb_same]
      exact ⟨rfl, rfl⟩
    · rw [block, waitpidBlock, tableOf_setPcb]
      exact steady_set rfl rfl (by simp [entryOf]) waiting.alive.live
  · cases replied

theorem waiting_done (named : pid ≠ -1) {reply : Reply (.waitpid pid)} (waiting : Waiting p P pid w)
    (step : (among p).performs (.waitpid pid) w (some reply) w') : Calm p (Takes P pid) w' := by
  have alive := waiting.alive.performs step (by simp)
  obtain ⟨⟨current, running, -, _, call⟩, children⟩ := step
  have all := children.trans (List.append_nil _)
  rcases serve_waitpid call with ⟨user, _, call, replied⟩ | ⟨-, -, -, replied⟩ | ⟨context, _, call, -⟩
  · rcases sysWaitpid_scanned (current_pcb waiting.alive current running) call with ⟨rfl, -⟩ | ⟨-, same, childless⟩
    · cases replied
    · refine ⟨alive, ?_, _, all ▸ waiting.books, fun x => ?_⟩
      · rw [same]
        exact user
      · rw [same]
        refine ⟨fun left => ⟨left, ?_⟩, And.left⟩
        rintro rfl
        obtain ⟨c, alive, parent, equal⟩ := left
        exact childless c ⟨alive, parent, .inr equal.symm⟩
  · cases replied
  · have waits : (w.kernel.ptable p).waitPid = pid := by
      rcases waiting.stage with user | asked | ⟨-, waits⟩
      · cases user.symm.trans context
      · cases asked.symm.trans context
      · exact waits
    obtain ⟨c, found, table, -⟩ := waitpidReap_releases call
    have numbered := (reachable_sound waiting.alive.reachable).numbered
    rw [waits] at found
    have entry : entryOf (w'.kernel.ptable p) = (((tableOf w.kernel).unwait p).release c).entry p := 
      congrArg (fun t => t.entry p) table
    have other : p ≠ c := by
      rintro rfl
      apply alive.live
      exact (congrArg Entry.rs entry).trans (by simp [Table.release])
    refine ⟨alive, ?_, _, all ▸ waiting.books, fun x => ?_⟩
    · refine (congrArg Entry.context entry).trans ?_
      rw [reap_other other, Table.unwait, set_entry_same]
    · rw [unreaped_iff, unreaped_iff, table, ← exists_and_right]
      exact exists_congr fun q => reap_child numbered found other

theorem calm_waitpid {next : Reply (.waitpid pid) → Shell α} (calm : Calm p P w) (named : pid ≠ -1)
    (done : ∀ reply w', Calm p (Takes P pid) w' → (among p).Safe post crash (next reply) w') :
    (among p).Safe post crash (.call (.waitpid pid) next) w :=
  safe_call (waiting_stable named) (fun _ _ => waiting_next named) ⟨calm.alive, .inl calm.user, calm.books⟩
    fun _ w' reply waiting step => done reply w' (waiting_done named waiting step)

variable {prog : List Byte} {infd out : Int} {line : List Byte}

theorem calm_doProg {next : Int × Int → Shell α} (calm : Calm p P w)
    (full : ∀ w', Calm p P w' → (among p).Safe post (fun _ => True) (next (-1, EAGAIN)) w')
    (made : ∀ pid w', pid ≠ 0 → Calm p (Adds P pid) w' →
      (among p).Safe post (fun _ => True) (next (rawSyscallErrno pid 0)) w') :
    (among p).Safe post (fun _ => True) (doProg prog infd out >>= next) w := by
  apply Safe.bind
  unfold doProg
  dsimp only
  split_ifs
  · refine calm_fork calm (fun w calm => ?_) fun pid w calm => ?_
    · exact safe_ret calm_stable calm full
    · change (among p).Safe _ _ (if pid = 0 then _ else .ret (rawSyscallErrno pid 0)) w
      split_ifs with null
      · -- the parent takes the branch of the child, which does not return
        refine safe_endless (Program.endless_bind fun _ => Program.endless_bind fun _ => Program.endless_bind fun _ =>
          Program.endless_bind fun _ => ?_)
        exact fun never => nomatch never
      · exact safe_ret calm_stable calm fun w => made pid w null
  · exact fun _ _ => trivial

theorem calm_perror {errno : Int} {post : Int → World → Prop} (calm : Calm p P w) (done : ∀ w, Calm p P w → post 1 w) :
    (among p).Safe post (fun _ => True) (do perror errno; return 1) w := by
  unfold perror
  split_ifs
  · exact safe_ret calm_stable calm done
  · exact fun _ _ => trivial

theorem rawSyscallErrno_cases (pid errno : Int) :
    (pid < 0 ∧ rawSyscallErrno pid errno = (-1, -pid)) ∨ 0 ≤ pid ∧ rawSyscallErrno pid errno = (pid, errno) := by
  unfold rawSyscallErrno
  split_ifs with negative
  · exact .inl ⟨negative, rfl⟩
  · exact .inr ⟨Int.not_lt.mp negative, rfl⟩

theorem safe_doStages_single (calm : Calm p (fun _ all => all = []) w) :
    (among p).Safe (fun _ w => w.children = [] ∨ ∃ pid, w.children = [pid] ∧ (Unreaped w.kernel p pid ↔ ¬ 0 < pid))
      (fun _ => True) (doStages prog infd []) w := by
  refine calm_doProg calm (fun w calm => calm_perror calm fun w calm => .inl calm.books) fun pid w null calm => ?_
  rcases rawSyscallErrno_cases pid 0 with ⟨_, equal⟩ | ⟨_, equal⟩
  · rw [equal]
    refine calm_perror calm fun w calm => ?_
    obtain ⟨left, _, rfl, -, same, all⟩ := calm.books
    exact .inr ⟨pid, all, iff_of_true ((same pid).mpr (.inr rfl)) (by omega)⟩
  · rw [equal]
    dsimp only
    rw [if_neg (by omega)]
    refine calm_waitpid calm (by omega) fun reply w calm => safe_ret calm_stable calm fun w calm => ?_
    obtain ⟨_, ⟨_, _, rfl, -, -, all⟩, taken⟩ := calm.books
    exact .inr ⟨pid, all, iff_of_false (fun left => ((taken pid).mp left).2 rfl) (by omega)⟩

theorem safe_doStages_left {rest : List (List Byte)}
    (calm : Calm p (fun left all => (all = [] ∧ rest ≠ []) ∨ ∃ x ∈ all, left x) w) :
    (among p).Safe (fun _ w => w.children = [] ∨ ∃ x ∈ w.children, Unreaped w.kernel p x) (fun _ => True)
      (doStages prog infd rest) w := by
  induction rest generalizing prog infd w with
  | nil =>
    refine calm_doProg calm (fun w calm => calm_perror calm fun w calm => calm.books.imp_left And.left)
      fun pid w null calm => ?_
    rcases rawSyscallErrno_cases pid 0 with ⟨-, equal⟩ | ⟨positive, equal⟩
    · rw [equal]
      refine calm_perror calm fun w calm => ?_
      obtain ⟨_, _, -, -, same, all⟩ := calm.books
      exact .inr ⟨pid, by rw [all]; simp, (same pid).mpr (.inr rfl)⟩
    · rw [equal]
      dsimp only
      rw [if_neg (by omega)]
      refine calm_waitpid calm (by omega) fun reply w calm => safe_ret calm_stable calm fun w calm => .inr ?_
      obtain ⟨_, ⟨left, _, books, new, same, all⟩, taken⟩ := calm.books
      obtain ⟨x, member, unreaped⟩ := books.resolve_left fun first => first.2 rfl
      refine ⟨x, all ▸ List.mem_append_left _ member, (taken x).mpr ⟨(same x).mpr (.inl unreaped), ?_⟩⟩
      rintro rfl
      exact new unreaped
  | cons c rest ih =>
    refine calm_quiet (.inl ⟨_, rfl⟩) calm fun reply w calm => ?_
    refine calm_doProg calm (fun w calm => calm_perror calm fun w calm => calm.books.imp_left And.left)
      fun pid w null calm => ?_
    have left : Calm p (fun left all => (all = [] ∧ rest ≠ []) ∨ ∃ x ∈ all, left x) w := by
      obtain ⟨_, _, -, -, same, all⟩ := calm.books
      exact ⟨calm.alive, calm.user, .inr ⟨pid, by rw [all]; simp, (same pid).mpr (.inr rfl)⟩⟩
    rcases rawSyscallErrno_cases pid 0 with ⟨-, equal⟩ | ⟨_, equal⟩
    · rw [equal]
      exact calm_perror left fun w calm => calm.books.imp_left And.left
    · rw [equal]
      dsimp only
      rw [if_neg (by omega)]
      split_ifs
      · exact calm_quiet (.inr ⟨_, rfl⟩) left fun _ w calm => calm_quiet (.inr ⟨_, rfl⟩) calm fun _ w => ih
      · exact calm_quiet (.inr ⟨_, rfl⟩) left fun _ w => ih

theorem do_line_reaps_iff {start c : Config} {status : Int} (initial : (shellOn p line).initial start)
    (run : (shellOn p line).LeadsTo start c) (ended : c.shell = some (.ret status)) :
    (∀ pid ∈ c.children, ¬ Unreaped c.kernel p pid) ↔
      c.children = [] ∨ (stages line).length ≤ 1 ∧ ∀ pid ∈ c.children, 0 < pid := by
  obtain ⟨reachable, -, running, user, shell, none⟩ := initial
  have alive : Alive p (view start) := ⟨reachable, by simp [view, running], by simp [view, running]⟩
  have safe (post : Int → World → Prop) (before : (among p).Safe post (fun _ => True) (doLine line) (view start)) :
      post status (view c) :=
    Safe.run (fun c move c' prog' step after => follows (fun _ _ _ _ _ _ => trivial) step after) before shell run ended
      (view c) .refl
  by_cases ignored : Ignored line
  · rw [doLine_ignored ignored] at safe
    have empty : c.children = [] := safe (fun _ w => w.children = []) <|
      safe_ret calm_stable ⟨alive, user, none⟩ fun w (calm : Calm p (fun _ all => all = []) w) => calm.books
    simp [empty]
  · rw [doLine_stages ignored] at safe
    match shape : stages line with
    | [] =>
      rw [shape] at safe
      exact (safe (fun _ _ => False) fun _ _ => trivial).elim
    | [stage] =>
      rw [shape] at safe
      rcases safe _ (safe_doStages_single ⟨alive, user, none⟩) with empty | ⟨pid, one, reaped⟩
      · simp [show c.children = [] from empty]
      · have one : c.children = [pid] := one
        have reaped : ¬ Unreaped c.kernel p pid ↔ 0 < pid := not_iff_comm.mp reaped.symm
        simp [one, reaped]
    | stage :: second :: rest =>
      rw [shape] at safe
      rcases safe _ (safe_doStages_left ⟨alive, user, .inl ⟨none, by simp⟩⟩) with empty | ⟨x, member, left⟩
      · simp [show c.children = [] from empty]
      · refine iff_of_false (fun all => all x member left) ?_
        rintro (empty | ⟨few, -⟩)
        · change x ∈ c.children at member
          rw [empty] at member
          cases member
        · simp at few

theorem pipeline_leaves_child :
    ∃ start c, (shellOn 0 [0x61, 0x7c, 0x62]).initial start ∧ (shellOn 0 [0x61, 0x7c, 0x62]).LeadsTo start c ∧
      c.shell = some (.ret 0) ∧ 1025 ∈ c.children ∧ Unreaped c.kernel 0 1025 ∧ (c.kernel.ptable 1).rs = .terminated := by
  obtain ⟨start, c, computed, ended, -, -, children, dead, parent, pid⟩ := pipeline_ran
  obtain ⟨initial, leads⟩ := ran_sound computed
  exact ⟨start, c, initial, leads.unrestrict, ended, by simp [children], ⟨1, by simp [dead], parent, pid⟩, dead⟩

theorem program_reaped :
    ∃ start c, (shellOn 0 [0x61]).initial start ∧ (shellOn 0 [0x61]).LeadsTo start c ∧ c.shell = some (.ret 0) ∧
      ((∀ pid ∈ c.children, ¬ Unreaped c.kernel 0 pid) ↔
        c.children = [] ∨ (stages [0x61]).length ≤ 1 ∧ ∀ pid ∈ c.children, 0 < pid) := by
  obtain ⟨start, c, computed, ended⟩ := single_ran
  obtain ⟨initial, leads⟩ := ran_sound computed
  exact ⟨start, c, initial, leads.unrestrict, ended, do_line_reaps_iff initial leads.unrestrict ended⟩

end Petix.Proof.Shell
