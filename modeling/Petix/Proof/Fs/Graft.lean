import Petix.Proof.Fs.Lookup

namespace Petix.Proof.Fs
open List Library Library.Result Kernel.Mounts Spec.Mounts

variable {φ : Type} {tree tree' : MountTree φ} {node node' root down : MountNode φ} {i j : Name} {path : List Name}
  {junk fs : φ} {buf : Buffer} {str fuel : Nat} {rest : List Byte}
variable {targ : List Byte} {go : MountNode φ → Except Fault (MountNode φ)} {down' : MountNode φ}

def graft (junk fs : φ) : List Name → MountNode φ → Except Fault (MountNode φ)
  | [], node => do
      let child ← unmountChild node.child
      return ⟨true, fs, child⟩
  | i :: path, node => do
      match ← mountBelow i (graft junk fs path) node.child with
      | some child => return { node with child := child }
      | none =>
        let new ← graft junk fs path ⟨false, junk, .null⟩
        return { node with child := .node (i.take fileNameLen) new.mountpoint new.fs false new.child node.child }

theorem mountLoop_eq (holds : Holds buf str rest) (terminated : 0 ∉ rest) (fits : str + rest.length < pathMax)
    (enough : rest.length < fuel) (node : MountNode φ) :
    mountLoop junk fs fuel buf str node = graft junk fs (components rest) node := by
  induction fuel generalizing buf str rest node with
  | zero => omega
  | succ fuel ih =>
    rw [mountLoop]
    obtain ⟨none, stop⟩ | ⟨gone, left, _, buf', rfl, some, token, comps, intact, -⟩ :=
      strtokR_spec holds terminated fits
    · rw [stop, none]
      rfl
    · rw [length_append] at fits enough
      rw [mem_append, not_or] at terminated
      have positive := length_pos_iff.mpr some
      have next : mountLoop junk fs fuel buf' (str + gone.length) = graft junk fs (components left) :=
        funext (ih intact terminated.2 (by omega) (by omega))
      rw [token, comps, graft, ← next]
      rfl

theorem fsMount_eq (terminated : 0 ∉ targ) (short : targ.length < pathMax) (root : MountNode φ) :
    fsMount junk fs root targ = graft junk fs (components targ) root :=
  mountLoop_eq (holds_strncpy short) terminated (by omega) (Nat.lt_succ_of_lt short) root

theorem skipWhile_ok {more : Byte → Bool} {left last : Nat} (call : skipWhile more buf left str = .ok last) :
    str ≤ last ∧ last < str + left ∧ more (buf last) = false := by
  induction left generalizing str with
  | zero => cases call
  | succ left ih =>
    rw [skipWhile] at call
    split at call
    case isTrue =>
      obtain ⟨_, _, stop⟩ := ih call
      exact ⟨by omega, by omega, stop⟩
    case isFalse stop =>
      cases call
      exact ⟨le_rfl, by omega, by simpa using stop⟩

def Unterminated (buf : Buffer) (str : Nat) : Prop := ∀ i, str ≤ i → i < pathMax → buf i ≠ 0

theorem strtokR_unterminated (full : Unterminated buf str) {result : Option (Nat × Nat × Buffer)}
    (call : strtokR buf str = .ok result) : ∃ i save buf', result = some (i, save, buf') ∧ Unterminated buf' save := by
  obtain ⟨ret, first, call⟩ := bind_ok call
  obtain ⟨after, _, -⟩ := skipWhile_ok first
  rw [if_neg (full ret after (by omega))] at call
  obtain ⟨last, second, call⟩ := bind_ok call
  obtain ⟨_, _, -⟩ := skipWhile_ok second
  rw [if_neg (full last (by omega) (by omega))] at call
  cases call
  refine ⟨_, _, _, rfl, ?_⟩
  intro i _ inside
  rw [Function.update_of_ne (by omega)]
  exact full i (by omega) inside

theorem mountBelow_some
    (call : mountBelow i go tree = .ok (some tree')) : ∃ node node', go node = .ok node' := by
  induction tree generalizing tree' with
  | null => cases call
  | node name mountpoint fs freed below sibling _ ih =>
    rw [mountBelow] at call
    split at call
    case isTrue => cases call
    case isFalse =>
      obtain ⟨found, search, call⟩ := bind_ok call
      cases found with
      | some sibling' => exact ih search
      | none =>
        dsimp only at call
        split at call
        case isTrue =>
          obtain ⟨node', run, -⟩ := bind_ok call
          exact ⟨_, node', run⟩
        case isFalse => cases call

theorem mountLoop_unterminated (full : Unterminated buf str) (node : MountNode φ) :
    mountLoop junk fs fuel buf str node ≠ .ok node' := by
  induction fuel generalizing buf str node node' with
  | zero => exact nofun
  | succ fuel ih =>
    intro call
    obtain ⟨_, first, call⟩ := bind_ok call
    obtain ⟨_, _, _, rfl, still⟩ := strtokR_unterminated full first
    obtain ⟨found, search, call⟩ := bind_ok call
    cases found with
    | some below =>
      obtain ⟨down, _, run⟩ := mountBelow_some search
      exact ih still down run
    | none =>
      obtain ⟨_, run, -⟩ := bind_ok call
      exact ih still _ run

theorem fsMount_long (terminated : 0 ∉ targ) (long : pathMax ≤ targ.length) :
    fsMount junk fs root targ ≠ .ok node' := by
  apply mountLoop_unterminated
  intro _ _ inside zero
  rw [strncpy, getD_eq_getElem _ _ (by simpa using ⟨inside, by omega⟩), getElem_take] at zero
  exact terminated (zero ▸ getElem_mem _)

def put (i : Name) (node : MountNode φ) : MountTree φ → MountTree φ
  | .null => .null
  | .node name mountpoint fs freed child sibling =>
    if name = i then .node name node.mountpoint node.fs freed node.child sibling
    else .node name mountpoint fs freed child (put i node sibling)

theorem child_none : child i tree = none ↔ i ∉ siblings tree := by
  induction tree with
  | null => exact iff_of_true rfl not_mem_nil
  | node name mountpoint fs freed below sibling _ ih =>
    rw [child, siblings, mem_cons, not_or, ← ih]
    by_cases same : name = i
    · simp [same]
    · simp [same, Ne.symm same]

theorem siblings_put : siblings (put i node tree) = siblings tree := by
  induction tree with
  | null => rfl
  | node name mountpoint fs freed below sibling _ ih =>
    rw [put]
    split
    case isTrue => rfl
    case isFalse => rw [siblings, ih, siblings]

theorem child_put_same (here : i ∈ siblings tree) : child i (put i node tree) = some node := by
  induction tree with
  | null => cases here
  | node name mountpoint fs freed below sibling _ ih =>
    rw [put]
    split
    case isTrue same => rw [child, if_pos same]
    case isFalse differ =>
      rw [child, if_neg differ]
      exact ih ((mem_cons.mp here).resolve_left (Ne.symm differ))

theorem child_put_other (differ : j ≠ i) : child j (put i node tree) = child j tree := by
  induction tree with
  | null => rfl
  | node name mountpoint fs freed below sibling _ ih =>
    rw [put, child]
    split
    case isTrue same => rw [child, if_neg (same ▸ Ne.symm differ), if_neg (same ▸ Ne.symm differ)]
    case isFalse => rw [child, ih]

theorem distinct_put (distinct : Distinct tree) (inner : Distinct node.child) : Distinct (put i node tree) := by
  induction tree with
  | null => trivial
  | node name mountpoint fs freed below sibling _ ih =>
    obtain ⟨named, apart, below, others⟩ := distinct
    rw [put]
    split
    case isTrue => exact ⟨named, apart, inner, others⟩
    case isFalse => exact ⟨named, siblings_put.symm ▸ apart, below, ih others⟩

theorem live_put (live : Live tree) (inner : Live node.child) : Live (put i node tree) := by
  induction tree with
  | null => trivial
  | node name mountpoint fs freed below sibling _ ih =>
    obtain ⟨here, below, others⟩ := live
    rw [put]
    split
    case isTrue => exact ⟨here, inner, others⟩
    case isFalse => exact ⟨here, below, ih others⟩

theorem mountBelow_eq (live : Live tree) (distinct : Distinct tree)
    (named : IsName i) : mountBelow i go tree = match child i tree with
      | none => .ok none
      | some down => (fun node => some (put i node tree)) <$> go down := by
  induction tree with
  | null => rfl
  | node name mountpoint fs freed below sibling _ ih =>
    obtain ⟨rfl, -, alive⟩ := live
    obtain ⟨isName, apart, -, others⟩ := distinct
    rw [mountBelow, ih alive others, child]
    simp only [Bool.false_eq_true, if_false, strncmp_eq_zero isName named]
    by_cases same : name = i
    · subst same
      rw [child_none.mpr apart]
      simp only [bind, Except.bind, if_true, put]
      cases go ⟨mountpoint, fs, below⟩ <;> rfl
    · simp only [same, if_false, put]
      cases child i sibling with
      | none => rfl
      | some down => cases run : go down <;> simp [run, bind, Except.bind, pure, Except.pure]

def IsNode (root : MountNode φ) (path : List Name) : Prop := ∃ node, NodeAt root path node

theorem isNode_nil : IsNode root [] := ⟨root, nodeAt_nil.mpr rfl⟩

theorem isNode_cons (distinct : Distinct root.child) :
    IsNode root (i :: path) ↔ ∃ down, child i root.child = some down ∧ IsNode down path := by
  simp only [IsNode, nodeAt_cons distinct]
  grind

theorem isNode_bare (bare : root.child = .null) : IsNode root path ↔ path = [] := by
  cases path with
  | nil => exact iff_of_true isNode_nil rfl
  | cons i path =>
    rw [isNode_cons (bare ▸ trivial), bare]
    simp [child]

theorem mounted_bare (bare : root.child = .null) :
    Mounted root path fs ↔ path = [] ∧ root.mountpoint = true ∧ root.fs = fs := by
  cases path with
  | nil => simp [mounted_nil]
  | cons i path =>
    rw [mounted_cons (bare ▸ trivial), bare]
    simp [child]

structure Grafted (fs : φ) (path : List Name) (node node' : MountNode φ) : Prop where
  live : Live node'.child
  distinct : Distinct node'.child
  nodes : ∀ p, IsNode node' p ↔ p <+: path ∨ IsNode node p
  mounted : ∀ p fs', Mounted node' p fs' ↔ p = path ∧ fs' = fs ∨ p ≠ path ∧ Mounted node p fs'

theorem grafted_here (bare : node.child = .null) : Grafted fs [] node ⟨true, fs, .null⟩ where
  live := trivial
  distinct := trivial
  nodes p := by rw [isNode_bare rfl, isNode_bare bare, prefix_nil, or_self]
  mounted p fs' := by
    rw [mounted_bare rfl, mounted_bare bare]
    grind

theorem grafted_child (distinct : Distinct node.child) (live' : Live tree')
    (distinct' : Distinct tree') (here : child i tree' = some down')
    (others : ∀ j, j ≠ i → child j tree' = child j node.child) (grafted : Grafted fs path down down')
    (nodes : ∀ p, p <+: path ∨ IsNode down p ↔ p <+: path ∨ IsNode node (i :: p))
    (mounted : ∀ p fs, Mounted down p fs ↔ Mounted node (i :: p) fs) :
    Grafted fs (i :: path) node { node with child := tree' } where
  live := live'
  distinct := distinct'
  nodes p := by
    cases p with
    | nil => exact iff_of_true isNode_nil (.inl List.nil_prefix)
    | cons j p =>
      rw [isNode_cons distinct', cons_prefix_cons]
      by_cases same : j = i
      · subst same
        simp only [here, Option.some.injEq, exists_eq_left', true_and]
        rw [grafted.nodes, nodes]
      · simp only [others j same, same, false_and, false_or, isNode_cons distinct]
  mounted p fs' := by
    cases p with
    | nil => simp [mounted_nil]
    | cons j p =>
      rw [mounted_cons distinct']
      by_cases same : j = i
      · subst same
        simp only [here, Option.some.injEq, exists_eq_left', cons.injEq, true_and, ne_eq]
        rw [grafted.mounted, mounted]
      · simp only [others j same, cons.injEq, same, false_and, false_or, ne_eq, not_false_eq_true, true_and,
          mounted_cons distinct]

section
variable (live : Live node.child) (distinct : Distinct node.child)
include live distinct

theorem grafted_put
    (here : child i node.child = some down) (grafted : Grafted fs path down down') :
    Grafted fs (i :: path) node { node with child := put i down' node.child } := by
  apply grafted_child distinct (live_put live grafted.live) (distinct_put distinct grafted.distinct)
    (child_put_same (mem_siblings here)) (fun j => child_put_other) grafted
  · intro p
    simp [isNode_cons distinct, here]
  · intro _ _
    simp [mounted_cons distinct, here]

theorem grafted_new {new : MountNode φ} (named : IsName i)
    (absent : child i node.child = none) (grafted : Grafted fs path ⟨false, junk, .null⟩ new) :
    Grafted fs (i :: path) node
      { node with child := .node i new.mountpoint new.fs false new.child node.child } := by
  refine grafted_child distinct ?_ ?_ (if_pos rfl) ?_ grafted ?_ ?_
  · exact ⟨rfl, grafted.live, live⟩
  · exact ⟨named, child_none.mp absent, grafted.distinct, distinct⟩
  · intro _ differ
    rw [child, if_neg (Ne.symm differ)]
  · intro p
    rw [isNode_bare rfl, isNode_cons distinct, absent]
    simp +contextual
  · intro _ _
    rw [mounted_bare rfl, mounted_cons distinct, absent]
    simp

theorem graft_grafted (named : ∀ name ∈ path, IsName name)
    (bare : ∀ p, IsNode node p → ¬StrictlyBelow p path) :
    ∃ node', graft junk fs path node = .ok node' ∧ Grafted fs path node node' := by
  induction path generalizing node with
  | nil =>
    have alone : node.child = .null := by
      cases first : node.child with
      | null => rfl
      | node name mountpoint fs freed below sibling =>
        have here : Reaches node.child [name] ⟨mountpoint, fs, below⟩ := first ▸ .here
        exact absurd ⟨List.nil_prefix, cons_ne_nil name []⟩ (bare [name] ⟨_, .inr here⟩)
    refine ⟨⟨true, fs, .null⟩, ?_, grafted_here alone⟩
    rw [graft, alone]
    rfl
  | cons i path ih =>
    obtain ⟨isName, names⟩ := forall_mem_cons.mp named
    rw [graft, mountBelow_eq live distinct isName]
    cases here : child i node.child with
    | none =>
      have start : ∀ p, IsNode (⟨false, junk, .null⟩ : MountNode φ) p → ¬StrictlyBelow p path := by
        rintro p isNode ⟨leads, differ⟩
        rw [isNode_bare rfl] at isNode
        rw [isNode, prefix_nil] at leads
        exact differ (isNode.trans leads.symm)
      have blank : ∃ new, graft junk fs path ⟨false, junk, .null⟩ = .ok new ∧
          Grafted fs path ⟨false, junk, .null⟩ new := ih trivial trivial names start
      obtain ⟨_, run, grafted⟩ := blank
      refine ⟨_, ?_, grafted_new live distinct isName here grafted⟩
      simp only [bind, Except.bind, run, take_of_length_le isName.2]
      rfl
    | some down =>
      have below : ∀ p, IsNode down p → ¬StrictlyBelow p path := by
        rintro p isNode ⟨leads, differ⟩
        refine bare (i :: p) ((isNode_cons distinct).mpr ⟨down, here, isNode⟩) ⟨?_, ?_⟩
        · exact (prefix_cons_inj i).mpr leads
        · simpa using differ
      obtain ⟨_, run, grafted⟩ := ih (child_live live here) (child_distinct distinct here) names below
      refine ⟨_, ?_, grafted_put live distinct here grafted⟩
      simp only [run]
      rfl

end

end Petix.Proof.Fs
