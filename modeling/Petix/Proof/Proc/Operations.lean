import Petix.Proof.Proc.FileRuns

namespace Petix.Proof.Proc
open Library Kernel.Sync Kernel.Pipes Kernel.Proc Kernel.Syscall
open Spec.Files Result

variable {k k' : State} {f : Nat} {p : Slot} {i : Fin 16} {call : Call}
variable {file : File}

def Reuses (k k' : State) : Prop :=
  ∀ f file', k'.files f = some file' → ∃ file, k.files f = some file ∧ file.fops = file'.fops

theorem Reuses.of_files (same : k'.files = k.files) : Reuses k k' := by
  intro _ file' here
  exact ⟨file', same ▸ here, rfl⟩

theorem Reuses.refl (k : State) : Reuses k k := .of_files rfl

theorem Reuses.trans {k'' : State} (first : Reuses k k') (second : Reuses k' k'') : Reuses k k'' := by
  intro f file'' here
  obtain ⟨file', there, same⟩ := second f file'' here
  obtain ⟨file, before, same'⟩ := first f file' there
  exact ⟨file, before, same'.trans same⟩

theorem reuses_drop (k : State) (f : Nat) : Reuses k (k.setFile f none) := by
  intro g file' here
  by_cases same : g = f
  · simp [State.setFile, same] at here
  · exact ⟨file', by simpa [State.setFile, same] using here, rfl⟩

theorem reuses_setFile {file' : File} (here : k.files f = some file) (same : file.fops = file'.fops) :
    Reuses k (k.setFile f (some file')) := by
  intro g file'' there
  by_cases equal : g = f
  · subst equal
    obtain rfl : file' = file'' := by simpa [State.setFile] using there
    exact ⟨file, here, same⟩
  · exact ⟨file'', by simpa [State.setFile, equal] using there, rfl⟩

theorem pclose_reuses (call : pclose k f = .ok k') : Reuses k k' := by
  obtain ⟨file, here, call⟩ := bind_ok call
  have here := deref_ok here
  cases data : file.privateData with
  | none =>
    simp only [data] at call
    exact .of_files (by rw [pure_ok call])
  | some ends =>
    obtain ⟨_, n⟩ := ends
    simp only [data] at call
    obtain ⟨_, -, call⟩ := bind_ok call
    obtain ⟨woken, woke, call⟩ := bind_ok call
    have files : woken.files = k.files := (wake_same woke).files.trans rfl
    split_ifs at call
    · rw [← pure_ok call]
      have freed : Reuses k ((woken.setPipe n none).emit (.kfreePipe n)) := .of_files files
      have there : ((woken.setPipe n none).emit (.kfreePipe n)).files f = some file := (congrFun files f).trans here
      refine freed.trans (reuses_setFile there ?_)
      rfl
    · exact .of_files (pure_ok call ▸ files)

theorem Recounts.reuses (recounts : Recounts k k') : Reuses k k' := by
  induction recounts with
  | refl k => exact .refl k
  | trans _ _ first second => exact first.trans second
  | setFd k p i fd => exact .of_files rfl
  | count here => exact reuses_setFile here rfl
  | close call => exact pclose_reuses call
  | free k f => exact reuses_drop k f
  | emit k event => exact .of_files rfl

theorem dropFile_gone (last : file.refcnt = 0) (call : dropFile k f file = .ok k') :
    k'.files f = none := by
  unfold dropFile at call
  split_ifs at call
  · obtain ⟨_, -, call⟩ := bind_ok call
    rw [← pure_ok call]
    exact Function.update_self ..
  · rw [← pure_ok call]
    exact Function.update_self ..

theorem releaseFd_last (slot : slot k p i = some f) (here : k.files f = some file)
    (last : file.refcnt = 1) (call : releaseFd k p i = .ok k') : k'.files f = none := by
  obtain ⟨g, named, call⟩ := bind_ok call
  obtain rfl : f = g := Option.some.inj (slot.symm.trans (deref_ok named))
  obtain ⟨file', there, call⟩ := bind_ok call
  obtain rfl : file = file' := Option.some.inj (here.symm.trans (deref_ok there))
  obtain ⟨_, -, call⟩ := bind_ok call
  obtain ⟨dropped, drop, call⟩ := bind_ok call
  rw [← pure_ok call]
  have gone : dropped.files f = none := dropFile_gone (by dsimp only; rw [last]) drop
  exact gone

theorem sysFork_reuses {ret : Int} (call : sysFork k = .ok (ret, k')) : Reuses k k' := by
  obtain ⟨old, -, call⟩ := bind_ok call
  split at call
  · cases pure_ok call
    exact .refl k
  · rename_i new made alloc
    obtain ⟨-, rfl⟩ := allocProc_some alloc
    obtain ⟨_, copy, call⟩ := bind_ok call
    cases pure_ok call
    have copies : Reuses (forkPcb (claimProc k new) old new) k' :=
      (foldlM_recounts (fun _ i _ step => dupOpenFd_recounts step) copy).reuses
    exact copies

theorem sysExit_reuses {code : BitVec 32} (call : sysExit k code = .ok k') : Reuses k k' := by
  obtain ⟨_, -, call⟩ := bind_ok call
  obtain ⟨woken, wake, call⟩ := bind_ok call
  obtain ⟨closed, close, call⟩ := bind_ok call
  rw [← pure_ok call]
  have woke : Reuses k woken := .of_files ((wakeParent_same wake).files.trans rfl)
  have closes : Reuses woken closed := (foldlM_recounts (fun _ i _ step => releaseOpenFd_recounts step) close).reuses
  exact woke.trans (closes.trans (.of_files rfl))

end Petix.Proof.Proc
