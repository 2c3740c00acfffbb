import Petix.Spec.Mounts

namespace Petix.Proof.Fs
open List Library Kernel.Mounts Spec.Mounts

variable {φ : Type} {tree : MountTree φ} {node root : MountNode φ} {i j : Name} {path : List Name} {fs : φ}

theorem strncmp_eq_zero_iff {s t : List Byte} (ends : 0 ∉ s) (ends' : 0 ∉ t) (n : Nat) :
    strncmp s t n = 0 ↔ s.take n = t.take n := by
  fun_induction strncmp s t n with
  | case1 => simp
  | case2 => simp
  | case3 b t n =>
    have := toNat_ne_zero (ne_of_not_mem_cons ends')
    simp
    omega
  | case4 a s n =>
    have := toNat_ne_zero (ne_of_not_mem_cons ends)
    simp
    omega
  | case5 s b t n ih =>
    refine (ih (not_mem_of_not_mem_cons ends) (not_mem_of_not_mem_cons ends')).trans ?_
    simp
  | case6 a s b t n other =>
    have differ : a.toNat ≠ b.toNat := fun same => other (BitVec.eq_of_toNat_eq same)
    simp [other]
    omega

theorem strncmp_eq_zero (left : IsName i) (right : IsName j) : strncmp i j fileNameLen = 0 ↔ i = j :=
  (strncmp_eq_zero_iff left.1 right.1 fileNameLen).trans
    (by rw [take_of_length_le left.2, take_of_length_le right.2])

def child (i : Name) : MountTree φ → Option (MountNode φ)
  | .null => none
  | .node name mountpoint fs _ child' sibling => if name = i then some ⟨mountpoint, fs, child'⟩ else child i sibling

theorem mem_siblings (found : child i tree = some node) : i ∈ siblings tree := by
  induction tree with
  | null => cases found
  | node name mountpoint fs freed down sibling _ ih =>
    rw [child] at found
    split at found
    case isTrue same => exact same ▸ .head _
    case isFalse => exact .tail _ (ih found)

theorem reaches_siblings (reaches : Reaches tree path node) : ∃ i rest, path = i :: rest ∧ i ∈ siblings tree := by
  induction reaches with
  | here => exact ⟨_, _, rfl, .head _⟩
  | within => exact ⟨_, _, rfl, .head _⟩
  | beside _ ih =>
    obtain ⟨i, rest, rfl, later⟩ := ih
    exact ⟨i, rest, rfl, .tail _ later⟩

theorem not_reaches_nil : ¬Reaches tree [] node := by
  intro reaches
  obtain ⟨_, _, cons, -⟩ := reaches_siblings reaches
  cases cons

theorem reaches_cons (distinct : Distinct tree) :
    Reaches tree (i :: path) node ↔ ∃ down, child i tree = some down ∧ NodeAt down path node := by
  induction tree with
  | null =>
    constructor
    · intro reaches
      cases reaches
    · rintro ⟨down, found, -⟩
      cases found
  | node name mountpoint fs freed down sibling _ ih =>
    obtain ⟨-, apart, -, others⟩ := distinct
    rw [child]
    split
    case isTrue same =>
      subst same
      constructor
      · intro reaches
        cases reaches with
        | here => exact ⟨_, rfl, .inl ⟨rfl, rfl⟩⟩
        | within rest => exact ⟨_, rfl, .inr rest⟩
        | beside rest =>
          obtain ⟨_, _, cons, later⟩ := reaches_siblings rest
          cases cons
          exact absurd later apart
      · rintro ⟨_, ⟨⟩, ⟨rfl, rfl⟩ | rest⟩
        · exact .here
        · exact .within rest
    case isFalse differ =>
      rw [← ih others]
      constructor
      · intro reaches
        cases reaches with
        | here => exact absurd rfl differ
        | within => exact absurd rfl differ
        | beside rest => exact rest
      · exact .beside

theorem nodeAt_nil : NodeAt root [] node ↔ node = root := by
  constructor
  · rintro (⟨-, same⟩ | reaches)
    · exact same
    · exact absurd reaches not_reaches_nil
  · exact fun same => .inl ⟨rfl, same⟩

theorem nodeAt_cons (distinct : Distinct root.child) :
    NodeAt root (i :: path) node ↔ ∃ down, child i root.child = some down ∧ NodeAt down path node := by
  rw [← reaches_cons distinct]
  simp [NodeAt]

theorem mounted_nil : Mounted root [] fs ↔ root.mountpoint = true ∧ root.fs = fs := by simp [Mounted, nodeAt_nil]

theorem mounted_cons (distinct : Distinct root.child) :
    Mounted root (i :: path) fs ↔ ∃ down, child i root.child = some down ∧ Mounted down path fs := by
  simp only [Mounted, nodeAt_cons distinct]
  grind

end Petix.Proof.Fs
