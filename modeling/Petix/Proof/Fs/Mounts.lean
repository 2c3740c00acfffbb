import Mathlib.Data.List.Induction
import Petix.Proof.Fs.Graft

namespace Petix.Proof.Fs
open List Library Library.Result Kernel.Mounts Spec.Mounts

variable {φ : Type} {tree tree' : MountTree φ} {node node' root : MountNode φ} {i : Name} {path : List Name}
  {junk fs zero : φ} {call : MountCall φ} {calls : List (MountCall φ)} {past : List (List Name)}
variable {p : List Name} {after : MountNode φ}

def Named : MountTree φ → Prop
  | .null => True
  | .node name _ _ _ child sibling => name.length ≤ fileNameLen ∧ Named child ∧ Named sibling

theorem Named.of_distinct (distinct : Distinct tree) : Named tree := by
  induction tree with
  | null => trivial
  | node name mountpoint fs freed below sibling inner beside =>
    obtain ⟨isName, -, down, others⟩ := distinct
    exact ⟨isName.2, inner down, beside others⟩

theorem unmountChild_named (named : Named tree) (call : unmountChild tree = .ok tree') : Named tree' := by
  induction tree generalizing tree' with
  | null =>
    cases call
    trivial
  | node name mountpoint fs freed below sibling inner beside =>
    rw [unmountChild] at call
    split at call
    case isTrue => cases call
    case isFalse =>
      obtain ⟨_, first, call⟩ := bind_ok call
      obtain ⟨_, second, call⟩ := bind_ok call
      cases call
      exact ⟨named.1, inner named.2.1 first, beside named.2.2 second⟩

theorem mountBelow_named {go : MountNode φ → Except Fault (MountNode φ)}
    (kept : ∀ node node', Named node.child → go node = .ok node' → Named node'.child) (named : Named tree)
    (call : mountBelow i go tree = .ok (some tree')) : Named tree' := by
  induction tree generalizing tree' with
  | null => cases call
  | node name mountpoint fs freed below sibling _ ih =>
    rw [mountBelow] at call
    split at call
    case isTrue => cases call
    case isFalse =>
      obtain ⟨found, search, call⟩ := bind_ok call
      cases found with
      | some sibling' =>
        cases call
        exact ⟨named.1, named.2.1, ih named.2.2 search⟩
      | none =>
        dsimp only at call
        split at call
        case isTrue =>
          obtain ⟨node', run, call⟩ := bind_ok call
          cases call
          exact ⟨named.1, kept _ node' named.2.1 run, named.2.2⟩
        case isFalse => cases call

theorem graft_named (named : Named node.child) (call : graft junk fs path node = .ok node') : Named node'.child := by
  induction path generalizing node node' with
  | nil =>
    obtain ⟨child, freed, call⟩ := bind_ok call
    cases call
    exact unmountChild_named named freed
  | cons i path ih =>
    obtain ⟨found, search, call⟩ := bind_ok call
    cases found with
    | some child =>
      cases call
      exact mountBelow_named (fun node node' => ih) named search
    | none =>
      obtain ⟨_, run, call⟩ := bind_ok call
      cases call
      exact ⟨length_take_le .., ih (by exact trivial) run, named⟩

theorem reaches_named (named : Named tree) (reaches : Reaches tree path node) :
    ∀ name ∈ path, name.length ≤ fileNameLen := by
  induction reaches with
  | here => simpa using named.1
  | within _ ih => exact forall_mem_cons.mpr ⟨named.1, ih named.2.1⟩
  | beside _ ih => exact ih named.2.2

theorem eq_null_of_unmountChild (call : unmountChild tree = .ok tree') (live : Live tree') : tree = .null := by
  cases tree with
  | null => rfl
  | node name mountpoint fs freed below sibling =>
    rw [unmountChild] at call
    split at call
    case isTrue => cases call
    case isFalse =>
      obtain ⟨_, -, call⟩ := bind_ok call
      obtain ⟨_, -, call⟩ := bind_ok call
      cases call
      cases live.1

theorem live_of_put (present : i ∈ siblings tree) (live : Live (put i node tree)) : Live node.child := by
  induction tree with
  | null => cases present
  | node name mountpoint fs freed below sibling _ ih =>
    rw [put] at live
    split at live
    case isTrue => exact live.2.1
    case isFalse differ => exact ih ((mem_cons.mp present).resolve_left (Ne.symm differ)) live.2.2

theorem not_isNode_of_live (live : Live node.child) (distinct : Distinct node.child)
    (named : ∀ name ∈ path, IsName name) (call : graft junk fs path node = .ok node') (still : Live node'.child)
    (isNode : IsNode node p) : ¬StrictlyBelow p path := by
  rintro ⟨leads, differ⟩
  induction path generalizing node node' p with
  | nil =>
    obtain ⟨_, freed, call⟩ := bind_ok call
    cases call
    exact differ ((isNode_bare (eq_null_of_unmountChild freed still)).mp isNode)
  | cons i path ih =>
    obtain ⟨_, rfl⟩ := leads
    obtain ⟨_, here, isNode⟩ := (isNode_cons distinct).mp isNode
    obtain ⟨isName, names⟩ := forall_mem_cons.mp named
    rw [graft, mountBelow_eq live distinct isName, here] at call
    obtain ⟨_, search, call⟩ := bind_ok call
    obtain ⟨_, run, rfl⟩ := map_ok search
    cases call
    exact ih (child_live live here) (child_distinct distinct here) names run
      (live_of_put (mem_siblings here) still) isNode (prefix_append ..) (by simpa using differ)

structure Grown (past : List (List Name)) (root : MountNode φ) : Prop where
  live : Live root.child
  distinct : Distinct root.child
  nodes : ∀ p, IsNode root p ↔ p = [] ∨ ∃ target ∈ past, p <+: target

theorem grown_unmounted : Grown [] (unmounted zero) where
  live := trivial
  distinct := trivial
  nodes p := by
    have bare : (unmounted zero).child = .null := rfl
    simp [isNode_bare bare]

theorem MountCall.isName (fits : call.Fits) : ∀ name ∈ call.path, IsName name := by
  intro name here
  exact ⟨fun zero => call.targ.terminated (mem_of_mem_words here zero), fits.2 name here⟩

theorem Grown.bare (grown : Grown past root) (above : ∀ target ∈ past, ¬StrictlyBelow target path)
    (isNode : IsNode root p) : ¬StrictlyBelow p path := by
  rintro ⟨leads, differ⟩
  obtain rfl | ⟨target, here, along⟩ := (grown.nodes p).mp isNode
  · exact differ (prefix_nil.mp leads).symm
  · refine above target here ⟨leads.trans along, ?_⟩
    rintro rfl
    exact differ (along.eq_of_length (le_antisymm along.length_le leads.length_le))

theorem mountpoints_grafted (grafted : Grafted fs path root after)
    (bare : ∀ p, IsNode root p → ¬StrictlyBelow p path) :
    mountpoints after = insert path (mountpoints root \ { p | StrictlyBelow p path }) := by
  ext p
  have above : p ∈ mountpoints root → ¬StrictlyBelow p path := by
    rintro ⟨-, node, here, -⟩
    exact bare p ⟨node, here⟩
  simp only [mountpoints, grafted.mounted, Set.mem_ofPred_eq, Set.mem_insert_iff, Set.mem_sdiff] at above ⊢
  grind

theorem run_grown (grown : Grown past root) (fits : call.Fits)
    (above : ∀ target ∈ past, ¬StrictlyBelow target call.path) :
    ∃ after, call.run root = .ok after ∧ Replaces root call after ∧ Grown (past ++ [call.path]) after := by
  obtain ⟨after, run, grafted⟩ : ∃ after, call.run root = .ok after ∧ Grafted call.fs call.path root after := by
    rw [MountCall.run, fsMount_eq call.targ.terminated fits.1]
    exact graft_grafted grown.live grown.distinct (MountCall.isName fits) fun p => grown.bare above
  refine ⟨after, run, ⟨?_, grafted.live⟩, grafted.live, grafted.distinct, ?_⟩
  · exact mountpoints_grafted grafted fun p => grown.bare above
  · intro _
    rw [grafted.nodes, grown.nodes]
    grind

theorem run_replaces (grown : Grown past root) (run : call.run root = .ok after)
    (replaces : Replaces root call after) : call.Fits ∧ ∀ target ∈ past, ¬StrictlyBelow target call.path := by
  have short : call.targ.bytes.length < pathMax := by
    by_contra long
    exact fsMount_long call.targ.terminated (Nat.le_of_not_lt long) run
  rw [MountCall.run, fsMount_eq call.targ.terminated short] at run
  have fits : call.Fits := by
    refine ⟨short, ?_⟩
    have new : call.path ∈ mountpoints after := by
      rw [replaces.mountpoints]
      exact Set.mem_insert ..
    obtain ⟨-, _, ⟨nil, -⟩ | reaches, -⟩ := new
    · simp [nil]
    · exact reaches_named (graft_named (Named.of_distinct grown.distinct) run) reaches
  refine ⟨fits, ?_⟩
  intro target here
  have isNode : IsNode root target := (grown.nodes target).mpr (.inr ⟨target, here, prefix_rfl⟩)
  exact not_isNode_of_live grown.live grown.distinct (MountCall.isName fits) run replaces.live isNode

theorem allReplace_snoc : AllReplace root (calls ++ [call]) ↔ AllReplace root calls ∧
      ∃ before after, calls.foldlM MountCall.run root = .ok before ∧ call.run before = .ok after ∧
        Replaces before call after := by
  constructor
  · intro all
    refine ⟨?_, all calls call [] rfl⟩
    intro earlier call' later split
    exact all earlier call' (later ++ [call]) (by simp [split])
  · rintro ⟨all, last⟩ earlier call' later split
    rcases eq_nil_or_concat' later with rfl | ⟨middle, _, rfl⟩
    · obtain ⟨rfl, same⟩ := append_inj' split rfl
      cases same
      exact last
    · apply all earlier call' middle
      rw [← cons_append, ← append_assoc] at split
      exact (append_inj' split rfl).1

def Ordered (calls : List (MountCall φ)) : Prop :=
  (∀ call ∈ calls, call.Fits) ∧ calls.Pairwise fun earlier later => ¬StrictlyBelow earlier.path later.path

theorem ordered_snoc : Ordered (calls ++ [call]) ↔
      Ordered calls ∧ call.Fits ∧ ∀ target ∈ calls.map MountCall.path, ¬StrictlyBelow target call.path := by
  simp only [Ordered, mem_append, mem_singleton, pairwise_append, pairwise_singleton, mem_map]
  grind

theorem ordered_run (zero : φ) (ordered : Ordered calls) :
    ∃ root, calls.foldlM MountCall.run (unmounted zero) = .ok root ∧ Grown (calls.map MountCall.path) root := by
  induction calls using reverseRecOn with
  | nil => exact ⟨unmounted zero, rfl, grown_unmounted⟩
  | append_singleton calls call ih =>
    obtain ⟨before, fits, above⟩ := ordered_snoc.mp ordered
    obtain ⟨_, run, grown⟩ := ih before
    obtain ⟨after, last, -, grown⟩ := run_grown grown fits above
    refine ⟨after, ?_, by simpa using grown⟩
    rw [foldlM_append, run]
    exact (congrArg (· >>= pure) last).trans rfl

theorem fs_mount_replaces_iff (zero : φ) (calls : List (MountCall φ)) :
    AllReplace (unmounted zero) calls ↔ (∀ call ∈ calls, call.Fits) ∧
      calls.Pairwise fun earlier later => ¬StrictlyBelow earlier.path later.path := by
  change _ ↔ Ordered calls
  induction calls using reverseRecOn with
  | nil => simp [AllReplace, Ordered]
  | append_singleton calls call ih =>
    rw [allReplace_snoc, ordered_snoc, ih]
    apply and_congr_right
    intro ordered
    obtain ⟨root, run, grown⟩ := ordered_run zero ordered
    constructor
    · rintro ⟨_, after, same, last, replaces⟩
      cases run.symm.trans same
      exact run_replaces grown last replaces
    · rintro ⟨fits, above⟩
      obtain ⟨after, last, replaces, -⟩ := run_grown grown fits above
      exact ⟨root, after, run, last, replaces⟩

def mountAB : MountCall Nat := ⟨⟨[0x2f, 0x61, 0x2f, 0x62], by decide⟩, 1, 0⟩

def mountA : MountCall Nat := ⟨⟨[0x2f, 0x61], by decide⟩, 2, 0⟩

def mountedAB : MountNode Nat := ⟨false, 0, .node [0x61] false 0 false (.node [0x62] true 1 false .null .null) .null⟩

def mountedA : MountNode Nat := ⟨false, 0, .node [0x61] true 2 false (.node [0x62] true 1 true .null .null) .null⟩

theorem mount_above_keeps_freed :
    ([mountAB, mountA].foldlM MountCall.run (unmounted 0) = .ok mountedA ∧ ¬Live mountedA.child ∧
      mountAB.path ∈ mountpoints mountedA) ∧ ¬AllReplace (unmounted 0) [mountAB, mountA] := by
  have first : [mountAB].foldlM MountCall.run (unmounted 0) = .ok mountedAB := rfl
  have second : mountA.run mountedAB = .ok mountedA := rfl
  have freed : ¬Live mountedA.child := by simp [mountedA, Live]
  refine ⟨⟨rfl, freed, 1, ⟨true, 1, .null⟩, .inr (.within .here), rfl, rfl⟩, ?_⟩
  intro all
  obtain ⟨_, _, run, last, replaces⟩ := all [mountAB] mountA [] rfl
  cases first.symm.trans run
  cases second.symm.trans last
  exact freed replaces.live

end Petix.Proof.Fs
