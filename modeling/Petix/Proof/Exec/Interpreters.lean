import Mathlib.Data.Set.Finite.List
import Petix.Proof.Exec.Scripts

namespace Petix.Proof.Exec
open Library Library.Result Library.Follow Kernel Kernel.ExecFile Spec.ExecFile

inductive Runs (f : File) (argv : Option Argv) (c : Kmalloc.Client) : Outcome → Kmalloc.Client → Prop where
  | early {err : Int} (negative : err < 0) (unread : ¬ Reads f) : Runs f argv c (.returns (.error err)) c
  | late {err : Int} {data : Nat} {c' : Kmalloc.Client} (negative : err < 0) (reads : Reads f) (other : ¬ Script f)
      (taken : ExecFile.kmalloc c f.data.length = .ok (data, c')) : Runs f argv c (.returns (.error err)) c'
  | loads {data : Nat} {c' : Kmalloc.Client} (other : ¬ Script f)
      (taken : ExecFile.kmalloc c f.data.length = .ok (data, c')) : Runs f argv c (.returns (.loads argv data)) c'
  | script {scbuff : List Byte} {newargv : Argv} {data : Nat} {middle c' : Kmalloc.Client} (script : Script f)
      (branch : scriptBranch f.data argv = .ok (scbuff, newargv))
      (taken : ExecFile.kmalloc c f.data.length = .ok (data, middle)) (freed : ExecFile.kfree middle data = .ok c') :
      Runs f argv c (.again scbuff newargv) c'

variable {fs : Files} {path : List Byte} {argv : Option Argv} {k k' : Proc.State} {c c' : Kmalloc.Client}
variable {scbuff : List Byte} {fuel : Nat}

theorem execOnce_runs {outcome : Outcome} (run : execOnce fs (some path) argv k c = .ok (outcome, k', c')) :
    closeCloexec k = .ok k' ∧ ∃ name, cString path = .ok name ∧ ∃ start, keep c (fs name).kept = .ok start ∧
      Runs (fs name) argv start outcome c' := by
  obtain ⟨k₁, closed, run⟩ := bind_ok run
  obtain ⟨name, string, run⟩ := bind_ok run
  obtain ⟨start, kept, run⟩ := bind_ok run
  have rest {outcome' : Outcome} {last : Kmalloc.Client} (runs : Runs (fs name) argv start outcome' last)
      (run : (pure (outcome', k₁, last) : Except Fault _) = .ok (outcome, k', c')) :
      closeCloexec k = .ok k' ∧ ∃ name, cString path = .ok name ∧ ∃ start, keep c (fs name).kept = .ok start ∧
        Runs (fs name) argv start outcome c' := by
    obtain ⟨rfl, rfl, rfl⟩ : _ ∧ _ ∧ _ := by simpa using pure_ok run
    exact ⟨closed, name, string, start, kept, runs⟩
  by_cases missing : (fs name).lookup < 0
  · rw [if_pos missing] at run
    exact rest (.early missing fun reads => absurd reads.1 (by omega)) run
  rw [if_neg missing] at run
  by_cases denied : (fs name).exec = false
  · rw [if_pos denied] at run
    exact rest (.early (by decide) fun reads => by simp [reads.2.1] at denied) run
  rw [if_neg denied] at run
  by_cases failed : (fs name).opened < 0
  · rw [if_pos failed] at run
    exact rest (.early failed fun reads => absurd reads.2.2.1 (by omega)) run
  rw [if_neg failed] at run
  by_cases blocked : (fs name).readable = false
  · rw [if_pos blocked] at run
    exact rest (.early (by decide) fun reads => by simp [reads.2.2.2] at blocked) run
  rw [if_neg blocked] at run
  have reads : Reads (fs name) := ⟨by omega, by simpa using denied, by omega, by simpa using blocked⟩
  obtain ⟨⟨_, _⟩, taken, run⟩ := bind_ok run
  dsimp only at run
  by_cases unreadable : (fs name).read < 0
  · rw [if_pos unreadable] at run
    exact rest (.late unreadable reads (fun script => absurd script.2.1 (by omega)) taken) run
  rw [if_neg unreadable] at run
  obtain ⟨script, looked, run⟩ := bind_ok run
  cases script with
  | true =>
    obtain ⟨⟨_, _⟩, branch, run⟩ := bind_ok run
    obtain ⟨_, released, run⟩ := bind_ok run
    exact rest (.script ⟨reads, by omega, looked⟩ branch taken released) run
  | false =>
    have other : ¬ Script (fs name) := fun script => by simp [script.2.2] at looked
    obtain ⟨elf, -, run⟩ := bind_ok run
    cases elf with
    | true => exact rest (.loads other taken) run
    | false => exact rest (.late (by decide) reads other taken) run

theorem interpreter_of_string {name : List Byte} (string : cString path = .ok name) :
    interpreter fs path = if Script (fs name) then (scriptBuffer (fs name).data).toOption else none := by
  simp only [interpreter, string]
  rfl

theorem interpreter_again {newargv : Argv}
    (run : execOnce fs (some path) argv k c = .ok (.again scbuff newargv, k', c')) :
    interpreter fs path = some scbuff := by
  obtain ⟨-, _, string, _, -, runs⟩ := execOnce_runs run
  cases runs with
  | script script branch taken freed =>
    rw [interpreter_of_string string, if_pos script, (scriptBranch_ok_iff.mp branch).1]
    rfl

theorem interpreter_returns {reply : Reply}
    (run : execOnce fs (some path) argv k c = .ok (.returns reply, k', c')) : interpreter fs path = none := by
  obtain ⟨-, _, string, _, -, runs⟩ := execOnce_runs run
  rw [interpreter_of_string string]
  cases runs with
  | early negative unread => exact if_neg fun script => unread script.1
  | late negative reads other taken => exact if_neg other
  | loads other taken => exact if_neg other

theorem skip_ne_endless {past : Fault} {more : Byte → Bool} (str : List Byte) (other : past ≠ .endless) :
    skip past more str ≠ .error .endless := by
  induction str with
  | nil => simpa [skip] using other
  | cons b str ih => exact ite_ne_error (bind_ne_error ih (by simp)) (by simp)

theorem kmalloc_ne_endless (size : Nat) : ExecFile.kmalloc c size ≠ .error .endless := by
  unfold ExecFile.kmalloc
  split <;> exact nofun

theorem kfree_ne_endless (ptr : Nat) : ExecFile.kfree c ptr ≠ .error .endless := by
  unfold ExecFile.kfree
  split <;> exact nofun

theorem keep_ne_endless (sizes : List Nat) : keep c sizes ≠ .error .endless := by
  induction sizes generalizing c with
  | nil => exact nofun
  | cons size sizes ih => exact bind_ne_error (bind_ne_error (kmalloc_ne_endless size) fun _ => nofun) fun _ => ih

theorem closeCloexec_ne_endless : closeCloexec k ≠ .error .endless := by
  unfold closeCloexec
  cases Syscall.sysExec k <;> exact nofun

theorem copyArgv_ne_endless (i : Nat) (argv newargv : Argv) : copyArgv i argv newargv ≠ .error .endless := by
  induction argv generalizing i newargv with
  | nil => exact ite_ne_error nofun nofun
  | cons arg argv ih =>
    cases arg with
    | none => exact ite_ne_error nofun nofun
    | some arg => exact ite_ne_error (ite_ne_error (ih _ _) nofun) nofun

theorem scriptBranch_ne_endless (cdata : List Byte) : scriptBranch cdata argv ≠ .error .endless := by
  refine bind_ne_error (bind_ne_error ?_ ?_) fun scbuff => bind_ne_error ?_ fun _ => nofun
  · refine bind_ne_error (skip_ne_endless _ (by decide)) fun found => ite_ne_error nofun ?_
    exact bind_ne_error (skip_ne_endless _ (by decide)) fun _ => nofun
  · intro script
    cases script <;> exact nofun
  · cases argv with
    | none => exact nofun
    | some argv => exact copyArgv_ne_endless 0 argv _

theorem isScript_ne_endless (cdata : List Byte) : isScript cdata ≠ .error .endless := by
  rcases cdata with _ | ⟨-, _ | ⟨-, -⟩⟩
  · exact nofun
  · exact ite_ne_error nofun nofun
  · exact ite_ne_error nofun nofun

theorem memcmp_ne_endless (hdr ident : List Byte) : memcmp hdr ident ≠ .error .endless := by
  induction hdr generalizing ident with
  | nil => exact nofun
  | cons a hdr ih =>
    cases ident with
    | nil => exact nofun
    | cons b ident => exact ite_ne_error (ih ident) nofun

theorem execOnce_ne_endless : execOnce fs (some path) argv k c ≠ .error .endless := by
  refine bind_ne_error closeCloexec_ne_endless fun k => ?_
  refine bind_ne_error (bind_ne_error (skip_ne_endless _ (by decide)) fun _ => nofun) fun name => ?_
  refine bind_ne_error (keep_ne_endless _) fun c => ?_
  refine ite_ne_error nofun (ite_ne_error nofun (ite_ne_error nofun (ite_ne_error nofun ?_)))
  refine bind_ne_error (kmalloc_ne_endless _) fun taken => ite_ne_error nofun ?_
  refine bind_ne_error (isScript_ne_endless _) fun script => ite_ne_error ?_ ?_
  · exact bind_ne_error (scriptBranch_ne_endless _) fun _ => bind_ne_error (kfree_ne_endless _) fun _ => nofun
  · exact bind_ne_error (memcmp_ne_endless _ _) fun _ => ite_ne_error nofun nofun

theorem interpreter_length {visited : List Byte} (next : interpreter fs visited = some scbuff) :
    scbuff.length = 128 := by
  obtain ⟨_, -, next⟩ := Option.bind_eq_some_iff.mp next
  split_ifs at next
  obtain ⟨word, -, rfl⟩ := scriptBuffer_ok_iff.mp (ok_of_toOption next)
  exact strncpy_length word 128

theorem chain_ends_iff : (∃ n, chain fs path n = none) ↔ ¬ Cyclic fs path := by
  have bytes : Finite Byte := Finite.of_injective (fun b : Byte => b.toFin) fun _ _ => BitVec.eq_of_toFin_eq
  exact ends_iff (List.finite_length_eq Byte 128) fun _ _ => interpreter_length

theorem chain_of_returns {r : Reply × Proc.State × Kmalloc.Client}
    (run : sysExec fs fuel (some path) argv k c = .ok r) : chain fs path fuel = none := by
  induction fuel generalizing path argv k c with
  | zero => cases run
  | succ fuel ih =>
    obtain ⟨⟨outcome, _, _⟩, once, run⟩ := bind_ok run
    rw [chain, follow_succ]
    cases outcome with
    | returns reply =>
      rw [interpreter_returns once]
      rfl
    | again scbuff newargv =>
      rw [interpreter_again once]
      exact ih run

theorem sysExec_ne_endless (ended : chain fs path fuel = none) :
    sysExec fs fuel (some path) argv k c ≠ .error .endless := by
  induction fuel generalizing path argv k c with
  | zero => cases ended
  | succ fuel ih =>
    intro run
    rcases bind_error run with failed | ⟨⟨outcome, _, _⟩, once, failed⟩
    · exact execOnce_ne_endless failed
    · cases outcome with
      | returns reply => cases failed
      | again scbuff newargv =>
        rw [chain, follow_succ, interpreter_again once] at ended
        exact ih ended failed

theorem cyclic_never_returns (cyclic : Cyclic fs path) (r : Reply × Proc.State × Kmalloc.Client) :
    sysExec fs fuel (some path) argv k c ≠ .ok r := fun run =>
  chain_ends_iff.mp ⟨fuel, chain_of_returns run⟩ cyclic

end Petix.Proof.Exec
