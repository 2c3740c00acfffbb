import Petix.Proof.Shell.Frames
import Petix.Proof.Shell.Lines

namespace Petix.Proof.Shell
open Function Library Library.Result Library.Setting
open Kernel.Proc Kernel.Syscall Kernel.Shell
open Spec.Files Spec.Processes Spec.Shell Proof.Proc

variable {k k' : State} {p : Slot} {w : World} {α : Type} {X kept : Set (Fin 16)}
variable {post : α → World → Prop} {crash : World → Prop} {prog : List Byte} {infd out : Int} {line : List Byte}
variable {fd ret : Int}

structure Holding (p : Slot) (X : Set (Fin 16)) (w : World) : Prop where
  alive : Alive p w
  fds : openSet w.kernel p = X

theorem openSet_congr (same : slot k' p = slot k p) : openSet k' p = openSet k p := by
  ext i
  exact not_congr (iff_of_eq (congrArg (· = none) (congrFun same i)))

theorem holding_stable : (setting p Granted).Stable (Holding p X) := by
  intro _ _ holding step
  obtain ⟨alive, same⟩ := holding.alive.rely step
  exact ⟨alive, (openSet_congr same.slots).trans holding.fds⟩

theorem safe_pipe2 {flags : Nat} {next : Reply (.pipe2 flags) → Shell α} (holding : Holding p X w)
    (done : ∀ a b : Fin 16, ∀ w', a ≠ b → a ∉ X → b ∉ X → Holding p (insert b (insert a X)) w' →
      (setting p Granted).Safe post crash (next (0, a.val, b.val)) w') :
    (setting p Granted).Safe post crash (.call (.pipe2 flags) next) w := by
  refine safe_atOnce trivial holding_stable holding ?_
  intro w w' _ holding step
  have alive := holding.alive.performs step (by simp)
  obtain ⟨⟨current, -, granted, _, call⟩, -⟩ := step
  obtain ⟨ret, fds, _, made, replied, stored⟩ := serve_pipe2 call
  cases replied
  obtain rfl : ret = 0 := granted ret fds w'.kernel made
  cases sysPipe_piped made with
  | @made _ a b _ _ apart free free' put =>
    subst current
    rw [stored a b rfl]
    rw [← holding.fds] at done
    refine done a b w' apart (not_not_intro free) (not_not_intro free') ⟨alive, ?_⟩
    ext i
    change (cells w'.kernel (pidOff w.kernel.curpid, i)).file ≠ none ↔ _
    rw [put, update_apply, update_apply]
    split_ifs with second first
    · simp [(Prod.mk.inj second).2]
    · simp [(Prod.mk.inj first).2]
    · simp_all [openSet, slot, cells]

theorem openFd_none {i : Fin 16} (absent : openFd k p fd = none) (index : (i.val : Int) = fd) :
    slot k p i = none := by
  subst index
  unfold openFd at absent
  rw [dif_pos ⟨by omega, by omega⟩] at absent
  dsimp only at absent
  split_ifs at absent with closed
  exact closed

theorem sysClose_open (accounted : Accounted k) (current : getPcb k k.curpid = some p)
    (call : sysClose k fd = .ok (ret, k')) : openSet k' p = openSet k p \ {i | (i.val : Int) = fd} := by
  obtain ⟨_, here, call⟩ := bind_ok call
  cases current.symm.trans (deref_ok here)
  cases found : openFd k p fd with
  | none =>
    rw [found] at call
    cases pure_ok call
    ext i
    refine ⟨fun opened => ⟨opened, fun index => opened (openFd_none found index)⟩, And.left⟩
  | some i =>
    obtain ⟨⟨_, there⟩, index⟩ := openFd_some found
    rw [found] at call
    obtain ⟨_, release, call⟩ := bind_ok call
    cases pure_ok call
    obtain ⟨_, run, -, slots⟩ := releaseFd_balanced accounted.balanced accounted.sound.idle there
    cases run.symm.trans release
    ext j
    change slot k' p j ≠ none ↔ _
    rw [slots, update_self, update_apply]
    split_ifs with same
    · simp [same, index]
    · simp [openSet, slot, index, Fin.val_inj, same]

theorem safe_close {next : Reply (.close fd) → Shell α} (holding : Holding p X w)
    (done : ∀ ret w', Holding p (X \ {i | (i.val : Int) = fd}) w' → (setting p Granted).Safe post crash (next ret) w') :
    (setting p Granted).Safe post crash (.call (.close fd) next) w := by
  refine safe_atOnce trivial holding_stable holding ?_
  intro _ w' reply holding step
  have alive := holding.alive.performs step (by simp)
  obtain ⟨⟨current, running, -, _, call⟩, -⟩ := step
  obtain ⟨_, closed, -⟩ := serve_close call
  refine done reply w' ⟨alive, ?_⟩
  rw [← holding.fds]
  exact sysClose_open (reachable_accounted holding.alive.reachable) (current_pcb holding.alive current running) closed

theorem safe_waitpid {pid : Int} {next : Reply (.waitpid pid) → Shell α} (holding : Holding p X w)
    (done : ∀ reply w', Holding p X w' → (setting p Granted).Safe post crash (next reply) w') :
    (setting p Granted).Safe post crash (.call (.waitpid pid) next) w := by
  have kept {w w' : World} {reply : Option (Reply (.waitpid pid))} (holding : Holding p X w)
      (step : (setting p Granted).performs (.waitpid pid) w reply w') : Holding p X w' := by
    refine ⟨holding.alive.performs step (by simp), (openSet_congr ?_).trans holding.fds⟩
    obtain ⟨⟨-, -, -, _, call⟩, -⟩ := step
    rcases serve_waitpid call with ⟨-, ret, call, -⟩ | ⟨_, -, block, -⟩ | ⟨-, _, call, -⟩
    · rw [(sysWaitpid_same call).slots]
    · rw [block]
      exact congrFun waitpidBlock_same.slots p
    · rw [(waitpidReap_same call).slots]
  exact safe_call holding_stable (fun w w' => kept) holding fun w w' reply holding step => done reply w' (kept holding step)

theorem sysFork_slot (running : (k.ptable (pidOff k.curpid)).rs = .running)
    (call : sysFork k = .ok (ret, k')) : slot k' (pidOff k.curpid) = slot k (pidOff k.curpid) := by
  cases sysFork_forked running call with
  | full => rfl
  | made _ free _ _ _ others =>
    unfold slot
    rw [others]
    intro same
    rw [same, free] at running
    cases running

section
variable (holding : Holding p X w) (long : ¬ (words isBlank prog).length < 32 → ∀ w, crash w)
include holding long

theorem safe_doProg {next : Int × Int → Shell α}
    (done : ∀ pid w', 0 < pid → Holding p X w' → (setting p Granted).Safe post crash (next (pid, 0)) w') :
    (setting p Granted).Safe post crash (doProg prog infd out >>= next) w := by
  apply Safe.bind
  unfold doProg
  rw [tokens_eq_words (Nat.le_refl _)]
  by_cases short : (words isBlank prog).length < 32
  · rw [if_pos short]
    refine safe_atOnce trivial holding_stable holding ?_
    intro w w' pid holding step
    have alive := holding.alive.performs step (by simp)
    obtain ⟨⟨rfl, running, granted, _, call⟩, -⟩ := step
    obtain ⟨ret, forks, replied⟩ := serve_fork call
    cases replied
    have positive : 0 < pid := granted pid w'.kernel forks
    have parent : rawSyscallErrno pid 0 = (pid, 0) := if_neg positive.not_gt
    change (setting _ Granted).Safe _ crash (if pid = 0 then _ else .ret (rawSyscallErrno pid 0)) w'
    rw [if_neg positive.ne', parent]
    refine safe_ret holding_stable ?_ (fun s => done pid s positive)
    exact ⟨alive, (openSet_congr (sysFork_slot running forks)).trans holding.fds⟩
  · rw [if_neg short]
    exact fun w _ => long short w

theorem safe_doStages_last {post : Int → World → Prop}
    (done : ∀ status w, openSet w.kernel p = X → post status w) :
    (setting p Granted).Safe post crash (doStages prog infd []) w := by
  refine safe_doProg holding long fun pid w positive holding => ?_
  dsimp only
  rw [if_neg (by omega)]
  refine safe_waitpid holding fun reply w holding => ?_
  exact safe_ret holding_stable holding fun w holding => done _ w holding.fds

end

theorem subset_close (all : kept ⊆ X) (apart : ∀ i ∈ kept, (i.val : Int) ≠ fd) :
    kept ⊆ X \ {i | (i.val : Int) = fd} :=
  fun i member => ⟨all member, apart i member⟩

theorem safe_doStages_leaks {rest : List (List Byte)} (holding : Holding p X w) (all : kept ⊆ X)
    (extra : infd = 0 ∧ rest ≠ [] ∨ ∃ i ∈ X, i ∉ kept ∧ infd = i.val) :
    (setting p Granted).Safe (fun _ w => openSet w.kernel p ≠ kept) (fun _ => True) (doStages prog infd rest) w := by
  induction rest generalizing prog infd X w with
  | nil =>
    obtain ⟨i, member, new, -⟩ := extra.resolve_left fun first => first.2 rfl
    refine safe_doStages_last holding (fun _ _ => trivial) ?_
    intro _ w opened same
    exact new (same.symm.trans opened ▸ member)
  | cons c rest ih =>
    refine safe_pipe2 holding fun a b w apart new new' holding => ?_
    refine safe_doProg holding (fun _ _ => trivial) fun pid w positive holding => ?_
    dsimp only
    rw [if_neg (by omega)]
    -- the read end stays open, with all that was open before
    have goes {Y : Set (Fin 16)} {w : World} (holding : Holding p Y w) (more : insert a kept ⊆ Y) :
        (setting p Granted).Safe (fun _ w => openSet w.kernel p ≠ kept) (fun _ => True)
          (request (.close b.val) >>= fun _ => doStages c a.val rest) w := by
      refine safe_close holding fun ret w holding => ?_
      have left : insert a kept ⊆ Y \ {i | (i.val : Int) = b.val} := by
        refine subset_close more ?_
        rintro i (rfl | old) same
        · exact apart (Fin.ext (by omega))
        · obtain rfl : i = b := Fin.ext (by omega)
          exact new' (all old)
      exact ih holding (fun i old => left (.inr old)) (.inr ⟨a, left (.inl rfl), fun old => new (all old), rfl⟩)
    have opened : insert a kept ⊆ insert b (insert a X) := fun i member => .inr (member.imp id fun old => all old)
    split_ifs with closes
    · obtain ⟨i, member, added, rfl⟩ := extra.resolve_left fun first => closes first.1
      refine safe_close holding fun ret w holding => ?_
      refine goes holding (subset_close opened ?_)
      rintro j (rfl | old) _
      · obtain rfl : j = i := Fin.ext (by omega)
        exact new member
      · obtain rfl : j = i := Fin.ext (by omega)
        exact added old
    · exact goes holding opened

theorem safe_doLine_keeps (holding : Holding p kept w)
    (simple : Ignored line ∨ ∃ stage, stages line = [stage] ∧ (words isBlank stage).length < 32) :
    (setting p Granted).Safe (fun _ w => openSet w.kernel p = kept) (fun _ => False) (doLine line) w := by
  by_cases ignored : Ignored line
  · rw [doLine_ignored ignored]
    exact safe_ret holding_stable holding fun _ holding => holding.fds
  · obtain ⟨_, one, short⟩ := simple.resolve_left ignored
    rw [doLine_stages ignored, one]
    exact safe_doStages_last holding (fun long => absurd short long) fun _ _ opened => opened

theorem safe_doLine_leaks (holding : Holding p kept w)
    (complex : ¬ (Ignored line ∨ ∃ stage, stages line = [stage] ∧ (words isBlank stage).length < 32)) :
    (setting p Granted).Safe (fun _ w => openSet w.kernel p ≠ kept) (fun _ => True) (doLine line) w := by
  rw [doLine_stages fun ignored => complex (.inl ignored)]
  match shape : stages line with
  | [] => exact safe_fail holding_stable holding fun _ _ => trivial
  | [stage] =>
    have long : ¬ (words isBlank stage).length < 32 := fun short => complex (.inr ⟨stage, shape, short⟩)
    refine Safe.bind ?_
    unfold doProg
    rw [tokens_eq_words (Nat.le_refl _), if_neg long]
    exact safe_fail holding_stable holding fun _ _ => trivial
  | stage :: c :: rest => exact safe_doStages_leaks holding Set.Subset.rfl (.inl ⟨rfl, by simp⟩)

theorem do_line_keeps_descriptors_iff {start c : Config} {prog : Shell Int} (initial : (shellOn p line).initial start)
    (run : ((shellOn p line).restrict (Succeeds p)).LeadsTo start c) (here : c.shell = some prog) (ended : prog.Ended) :
    ((∃ status, prog = .ret status) ∧ openSet c.kernel p = openSet start.kernel p) ↔
      Ignored line ∨ ∃ stage, stages line = [stage] ∧ (words isBlank stage).length < 32 := by
  obtain ⟨reachable, -, running, -, shell, -⟩ := initial
  have holding : Holding p (openSet start.kernel p) (view start) :=
    ⟨⟨reachable, by simp [view, running], by simp [view, running]⟩, rfl⟩
  have safe {post : Int → World → Prop} {crash : World → Prop}
      (before : (setting p Granted).Safe post crash (doLine line) (view start)) :
      (setting p Granted).Safe post crash prog (view c) := by
    refine Safe.run ?_ before shell run here
    intro _ _ _ _ step after
    refine follows ?_ step.2 after
    rintro _ rfl
    exact step.1
  by_cases simple : Ignored line ∨ ∃ stage, stages line = [stage] ∧ (words isBlank stage).length < 32
  · have keeps := safe (safe_doLine_keeps holding simple)
    refine iff_of_true ?_ simple
    cases prog with
    | ret status => exact ⟨⟨status, rfl⟩, keeps _ .refl⟩
    | fail => exact (keeps _ .refl).elim
    | call => exact ended.elim
  · have leaks := safe (safe_doLine_leaks holding simple)
    refine iff_of_false ?_ simple
    rintro ⟨⟨_, rfl⟩, same⟩
    exact leaks _ .refl same

theorem pipeline_leaks_descriptor : ∃ start c, (shellOn 0 [0x61, 0x7c, 0x62]).initial start ∧
      ((shellOn 0 [0x61, 0x7c, 0x62]).restrict (Succeeds 0)).LeadsTo start c ∧ c.shell = some (.ret 0) ∧
      3 ∉ openSet start.kernel 0 ∧ 3 ∈ openSet c.kernel 0 := by
  obtain ⟨start, c, computed, ended, closed, opened, -⟩ := pipeline_ran
  obtain ⟨initial, leads⟩ := ran_sound computed
  exact ⟨start, c, initial, leads, ended, not_not_intro closed, opened⟩

theorem program_keeps_descriptors :
    ∃ start c, (shellOn 0 [0x61]).initial start ∧ ((shellOn 0 [0x61]).restrict (Succeeds 0)).LeadsTo start c ∧
      c.shell = some (.ret 0) ∧ (((∃ status, (.ret 0 : Shell Int) = .ret status) ∧
        openSet c.kernel 0 = openSet start.kernel 0) ↔
        Ignored [0x61] ∨ ∃ stage, stages [0x61] = [stage] ∧ (words isBlank stage).length < 32) := by
  obtain ⟨start, c, computed, ended⟩ := single_ran
  obtain ⟨initial, leads⟩ := ran_sound computed
  exact ⟨start, c, initial, leads, ended, do_line_keeps_descriptors_iff initial leads ended trivial⟩

end Petix.Proof.Shell
