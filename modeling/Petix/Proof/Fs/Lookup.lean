import Petix.Proof.Fs.Nodes
import Petix.Proof.Fs.Tokens

namespace Petix.Proof.Fs
open List Library Kernel.Mounts Spec.Mounts

variable {φ : Type} {tree : MountTree φ} {node root down : MountNode φ} {i : Name} {path : List Name} {fs : φ}
  {buf : Buffer} {str : Nat} {rest : List Byte} {found result : Option (φ × Nat)}

theorem findChild_eq (live : Live tree) (distinct : Distinct tree) (named : IsName i) :
    findChild i tree = .ok (child i tree) := by
  induction tree with
  | null => rfl
  | node name mountpoint fs freed below sibling _ ih =>
    obtain ⟨rfl, -, others⟩ := live
    obtain ⟨isName, -, -, apart⟩ := distinct
    rw [findChild, child, ih others apart]
    simp only [strncmp_eq_zero isName named, Bool.false_eq_true, if_false]
    split <;> rfl

theorem child_live (live : Live tree) (here : child i tree = some down) : Live down.child := by
  induction tree with
  | null => cases here
  | node name mountpoint fs freed below sibling _ ih =>
    obtain ⟨-, inner, others⟩ := live
    rw [child] at here
    split at here
    case isTrue =>
      cases here
      exact inner
    case isFalse => exact ih others here

theorem child_distinct (distinct : Distinct tree) (here : child i tree = some down) : Distinct down.child := by
  induction tree with
  | null => cases here
  | node name mountpoint fs freed below sibling _ ih =>
    obtain ⟨-, -, inner, others⟩ := distinct
    rw [child] at here
    split at here
    case isTrue =>
      cases here
      exact inner
    case isFalse => exact ih others here

theorem cstr_terminated (buf : Buffer) (left i : Nat) : 0 ∉ cstr buf left i := by
  induction left generalizing i with
  | zero => simp [cstr]
  | succ left ih =>
    rw [cstr]
    split
    case isTrue => simp
    case isFalse nonzero => exact not_mem_cons_of_ne_of_not_mem (Ne.symm nonzero) (ih (i + 1))

def Outcome (node : MountNode φ) (str : Nat) (rest : List Byte) (found result : Option (φ × Nat)) : Prop :=
  result = found ∧ (∀ target fs, target <+: components rest → ¬Mounted node target fs) ∨
    ∃ gone left target fs, rest = gone ++ left ∧ result = some (fs, str + gone.length) ∧
      Longest node (components rest) target fs ∧ components rest = target ++ components left

theorem outcome_here (nothing : ∀ target fs, target <+: components rest → Mounted node target fs → target = []) :
    Outcome node str rest found (if node.mountpoint then some (node.fs, str) else found) := by
  by_cases mountpoint : node.mountpoint = true
  · rw [if_pos mountpoint]
    refine .inr ⟨[], rest, [], node.fs, rfl, rfl, ⟨List.nil_prefix, ?_, ?_⟩, rfl⟩
    · exact mounted_nil.mpr ⟨mountpoint, rfl⟩
    · intro target fs leads mounted
      rw [nothing target fs leads mounted]
  · rw [if_neg mountpoint]
    refine .inl ⟨rfl, ?_⟩
    intro target fs leads mounted
    rw [nothing target fs leads mounted] at mounted
    exact mountpoint (mounted_nil.mp mounted).1

theorem longest_cons (distinct : Distinct node.child) (here : child i node.child = some down) {target : List Name}
    (longest : Longest down path target fs) : Longest node (i :: path) (i :: target) fs where
  leads := (prefix_cons_inj i).mpr longest.leads
  mounted := (mounted_cons distinct).mpr ⟨down, here, longest.mounted⟩
  longest target' fs' leads mounted := by
    obtain rfl | ⟨tail, rfl, inner⟩ := prefix_cons_iff.mp leads
    · simp
    · obtain ⟨_, same, mounted⟩ := (mounted_cons distinct).mp mounted
      cases here.symm.trans same
      exact Nat.succ_le_succ (longest.longest tail fs' inner mounted)

theorem outcome_child (distinct : Distinct node.child) (here : child i node.child = some down) {gone left : List Byte}
    (comps : components (gone ++ left) = i :: components left)
    (outcome : Outcome down (str + gone.length) left (if node.mountpoint then some (node.fs, str) else found) result) :
    Outcome node str (gone ++ left) found result := by
  obtain ⟨rfl, nothing⟩ | ⟨more, rest, target, fs, rfl, rfl, longest, parts⟩ := outcome
  · apply outcome_here
    intro target fs leads mounted
    rw [comps] at leads
    obtain rfl | ⟨tail, rfl, inner⟩ := prefix_cons_iff.mp leads
    · rfl
    · obtain ⟨_, same, mounted⟩ := (mounted_cons distinct).mp mounted
      cases here.symm.trans same
      exact absurd mounted (nothing tail fs inner)
  · refine .inr ⟨gone ++ more, rest, i :: target, fs, by simp, ?_, ?_, ?_⟩
    · rw [length_append, Nat.add_assoc]
    · rw [comps]
      exact longest_cons distinct here longest
    · rw [comps, parts, cons_append]

theorem getfsLoop_spec {fuel : Nat} (live : Live node.child) (distinct : Distinct node.child)
    (holds : Holds buf str rest) (terminated : 0 ∉ rest) (fits : str + rest.length < pathMax)
    (named : ∀ name ∈ components rest, name.length ≤ fileNameLen) (enough : rest.length < fuel) :
    ∃ result, getfsLoop fuel buf str node.child (if node.mountpoint then some (node.fs, str) else found) = .ok result ∧
      Outcome node str rest found result := by
  induction fuel generalizing node buf str rest found with
  | zero => omega
  | succ fuel ih =>
    rw [getfsLoop]
    obtain ⟨none, stop⟩ | ⟨_, _, i, buf', rfl, some, token, comps, intact, -⟩ :=
      strtokR_spec holds terminated fits
    · rw [stop]
      refine ⟨_, rfl, outcome_here ?_⟩
      intro target fs leads _
      rwa [none, prefix_nil] at leads
    · rw [comps] at named
      obtain ⟨short, others⟩ := forall_mem_cons.mp named
      have search := findChild_eq live distinct ⟨cstr_terminated buf' (pathMax - i) i, short⟩
      rw [token]
      simp only [bind, Except.bind]
      rw [search]
      cases here : child (cstr buf' (pathMax - i) i) node.child with
      | none =>
        refine ⟨_, rfl, outcome_here ?_⟩
        intro _ _ leads mounted
        rw [comps] at leads
        obtain rfl | ⟨_, rfl, -⟩ := prefix_cons_iff.mp leads
        · rfl
        · obtain ⟨down, found, -⟩ := (mounted_cons distinct).mp mounted
          cases here.symm.trans found
      | some down =>
        rw [length_append] at fits enough
        rw [mem_append, not_or] at terminated
        have positive := length_pos_iff.mpr some
        obtain ⟨result, run, outcome⟩ := ih (child_live live here) (child_distinct distinct here) intact
          terminated.2 (by omega) others (by omega)
        exact ⟨result, run, outcome_child distinct here comps outcome⟩

theorem fs_getfs_longest_prefix {root : MountNode φ} (live : Live root.child) (distinct : Distinct root.child)
    (p : CString) (short : p.bytes.length < pathMax) (named : ∀ name ∈ components p.bytes, name.length ≤ fileNameLen) :
    ∃ result, fsGetfs root p.bytes = .ok result ∧
      (result = none ↔ ∀ target fs, target <+: components p.bytes → ¬Mounted root target fs) ∧
      ∀ fs off, result = some (fs, off) → off ≤ p.bytes.length ∧ ∃ target, Longest root (components p.bytes) target fs ∧
          components p.bytes = target ++ components (p.bytes.drop off) := by
  have walk : ∃ result, fsGetfs root p.bytes = .ok result ∧ Outcome root 0 p.bytes none result :=
    getfsLoop_spec live distinct (holds_strncpy short) p.terminated (by omega) named (Nat.lt_succ_of_lt short)
  obtain ⟨result, run, outcome⟩ := walk
  refine ⟨result, run, ?_⟩
  obtain ⟨rfl, nothing⟩ | ⟨_, _, target, fs, whole, rfl, longest, parts⟩ := outcome
  · exact ⟨iff_of_true rfl nothing, nofun⟩
  · refine ⟨iff_of_false nofun fun nothing => nothing target fs longest.leads longest.mounted, ?_⟩
    rintro _ _ ⟨⟩
    rw [whole] at longest parts ⊢
    refine ⟨by simp, target, longest, ?_⟩
    rw [parts, Nat.zero_add, drop_left]

def rootAndDev : MountNode Nat := ⟨true, 0, .node [0x64, 0x65, 0x76] true 1 false .null .null⟩

def devTty : CString := ⟨[0x2f, 0x64, 0x65, 0x76, 0x2f, 0x2f, 0x74, 0x74, 0x79], by decide⟩

theorem fs_getfs_longest_prefix_dev : ∃ result, fsGetfs rootAndDev devTty.bytes = .ok result ∧
      (result = none ↔ ∀ target fs, target <+: components devTty.bytes → ¬Mounted rootAndDev target fs) ∧
      ∀ fs off, result = some (fs, off) → off ≤ devTty.bytes.length ∧
        ∃ target, Longest rootAndDev (components devTty.bytes) target fs ∧
          components devTty.bytes = target ++ components (devTty.bytes.drop off) := by
  apply fs_getfs_longest_prefix
  · simp [rootAndDev, Live]
  · simp [rootAndDev, Distinct, IsName, siblings, fileNameLen]
  · decide
  · decide

end Petix.Proof.Fs
