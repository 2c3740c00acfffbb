import Petix.Library.Result
import Petix.Spec.Tty

namespace Petix.Proof.Tty
open Library Library.Result Kernel.Tty Spec.Tty

variable {t t' t'' : PetixTty} {seq : Seq} {ch : Byte} {bytes : List Byte}

theorem length_regions (t : PetixTty) : (committed t).length + (current t).length =
      Ring.length ttyBuffLen t.fbase t.lbase + Ring.length ttyBuffLen t.lbase t.loff := by
  rw [committed, current, Ring.length_contents, Ring.length_contents]

theorem length_between (ordered : Ordered t) :
    Ring.length ttyBuffLen t.fbase t.loff = (committed t).length + (current t).length := by
  rw [Ring.length_add ordered.fbase ordered.lbase ordered.loff ordered.cyclic, length_regions]

theorem committed_eq_nil_iff (ordered : Ordered t) : committed t = [] ↔ t.lbase = t.fbase :=
  Ring.contents_eq_nil_iff ordered.fbase ordered.lbase

theorem current_eq_nil_iff (ordered : Ordered t) : current t = [] ↔ t.loff = t.lbase :=
  Ring.contents_eq_nil_iff ordered.lbase ordered.loff

structure Keeps (t t' : PetixTty) : Prop extends Ordered t' where
  sameFbase : t'.fbase = t.fbase
  sameIcanon : t'.icanon = t.icanon
  sameEcho : t'.echo = t.echo

theorem Keeps.refl (ordered : Ordered t) : Keeps t t := ⟨ordered, rfl, rfl, rfl⟩

theorem Keeps.trans (first : Keeps t t') (second : Keeps t' t'') : Keeps t t'' where
  toOrdered := second.toOrdered
  sameFbase := second.sameFbase.trans first.sameFbase
  sameIcanon := second.sameIcanon.trans first.sameIcanon
  sameEcho := second.sameEcho.trans first.sameEcho

theorem Keeps.write (keeps : Keeps t t') (buf : List Byte) : Keeps t (petixTtyWrite t' buf) :=
  ⟨⟨keeps.fbase, keeps.lbase, keeps.loff, keeps.cyclic⟩, keeps.sameFbase, keeps.sameIcanon, keeps.sameEcho⟩

structure Adds (t : PetixTty) (bytes : List Byte) (t' : PetixTty) : Prop extends Keeps t t' where
  same : committed t' = committed t
  added : current t' = current t ++ bytes

theorem Adds.refl (ordered : Ordered t) : Adds t [] t := ⟨.refl ordered, rfl, (List.append_nil _).symm⟩

theorem Adds.trans {more : List Byte} (first : Adds t bytes t') (second : Adds t' more t'') :
    Adds t (bytes ++ more) t'' where
  toKeeps := first.toKeeps.trans second.toKeeps
  same := second.same.trans first.same
  added := by rw [second.added, first.added, List.append_assoc]

theorem store_adds (ordered : Ordered t) (room : (committed t).length + (current t).length + 1 < ttyBuffLen)
    (ch : Byte) : Adds t [ch] (store t ch) := by
  obtain ⟨fbase, lbase, loff, cyclic⟩ := ordered
  rw [length_regions] at room
  have open' : (t.loff + 1) % ttyBuffLen ≠ t.lbase := by
    rw [Ne, Ring.full_iff lbase loff]
    omega
  have longer := Ring.length_push lbase loff open'
  refine ⟨⟨⟨fbase, lbase, Ring.succ_lt loff, ?_⟩, rfl, rfl, rfl⟩, ?_, ?_⟩
  · dsimp only [store]
    omega
  · exact Ring.contents_update fbase lbase loff cyclic ch
  · exact Ring.contents_push lbase loff open' ch

theorem storeAll_adds (ordered : Ordered t)
    (room : (committed t).length + (current t).length + bytes.length < ttyBuffLen) :
    Adds t bytes (bytes.foldl store t) := by
  induction bytes generalizing t with
  | nil => exact .refl ordered
  | cons ch bytes ih =>
    rw [List.length_cons] at room
    have first := store_adds ordered (by omega) ch
    have rest := ih first.toOrdered (by
      rw [first.same, first.added, List.length_append, List.length_singleton]
      omega)
    exact first.trans rest

theorem completeLine_joins (ordered : Ordered t) (room : (committed t).length + (current t).length + 1 < ttyBuffLen) :
    Keeps t (completeLine t) ∧ committed (completeLine t) = committed t ++ current t ++ [sendChar] ∧
      current (completeLine t) = [] := by
  have stored := store_adds ordered room sendChar
  have empty : current (completeLine t) = [] := (Ring.contents_eq_nil_iff stored.loff stored.loff).mpr rfl
  have joined : committed (completeLine t) = committed t ++ current t ++ [sendChar] := by
    calc committed (completeLine t)
      _ = committed (store t sendChar) ++ current (store t sendChar) :=
          Ring.contents_append stored.fbase stored.lbase stored.loff stored.cyclic
      _ = committed t ++ current t ++ [sendChar] := by rw [stored.same, stored.added, List.append_assoc]
  refine ⟨⟨⟨stored.fbase, stored.loff, stored.loff, ?_⟩, rfl, rfl, rfl⟩, joined, empty⟩
  rw [← length_regions, joined, empty]
  simpa [Nat.add_assoc] using room

theorem echoMap_ok_iff : (∃ text, echoMap ch = .ok text) ↔ ch.toNat < 128 := by
  unfold echoMap
  split_ifs
  all_goals simp
  all_goals omega

theorem echoSeq_ok_iff : (∃ t', echoSeq t bytes = .ok t') ↔ ∀ ch ∈ bytes, ch.toNat < 128 := by
  induction bytes generalizing t with
  | nil => simp [echoSeq, pure, Except.pure]
  | cons ch bytes ih =>
    rw [echoSeq, List.foldlM_cons, exists_bind_ok, List.forall_mem_cons, ← echoMap_ok_iff]
    constructor
    · rintro ⟨_, first, rest⟩
      obtain ⟨text, shown, -⟩ := bind_ok first
      exact ⟨⟨text, shown⟩, ih.mp rest⟩
    · rintro ⟨⟨text, shown⟩, rest⟩
      exact ⟨petixTtyWrite t text, by rw [shown, ok_bind]; rfl, ih.mpr rest⟩

theorem echoSeq_adds {text : List Byte} (adds : Adds t bytes t') (run : echoSeq t' text = .ok t'') :
    Adds t bytes t'' := by
  refine foldlM_invariant (fun t₁ ch t₂ _ holds step => ?_) adds run
  obtain ⟨shown, -, write⟩ := bind_ok step
  rw [← pure_ok write]
  exact ⟨holds.toKeeps.write shown, holds.same, holds.added⟩

@[simp] theorem storeAll_echo : (bytes.foldl store t).echo = t.echo := by
  induction bytes generalizing t with
  | nil => rfl
  | cons ch bytes ih => exact ih

theorem addSeq_ok_iff : (∃ t', addSeq t seq = .ok t') ↔
    (seq.first ≠ 4#8 ∨ t.icanon = false → t.echo = true → ∀ ch ∈ seq.bytes, ch.toNat < 128) := by
  unfold addSeq
  dsimp only
  rw [storeAll_echo]
  split_ifs with stored echo
  · rw [echoSeq_ok_iff]
    exact ⟨fun shown _ _ => shown, fun shown => shown stored echo⟩
  · exact iff_of_true ⟨_, rfl⟩ fun _ on => absurd on echo
  · exact iff_of_true ⟨_, rfl⟩ fun on => absurd on stored

theorem addSeq_adds (ordered : Ordered t)
    (room : (committed t).length + (current t).length + (Seq.stored seq t.icanon).length < ttyBuffLen)
    (run : addSeq t seq = .ok t') : Adds t (Seq.stored seq t.icanon) t' := by
  unfold Seq.stored at *
  unfold addSeq at run
  dsimp only at run
  split_ifs at run room ⊢ with stored echo
  · exact echoSeq_adds (storeAll_adds ordered room) run
  · exact Except.ok.inj run ▸ storeAll_adds ordered room
  · exact Except.ok.inj run ▸ .refl ordered

theorem decrement_eq {i : Nat} (within : i < ttyBuffLen) :
    (sub32 i 1 % ttyBuffLen + ttyBuffLen) % ttyBuffLen = (i + ttyBuffLen - 1) % ttyBuffLen := by
  unfold sub32 ttyBuffLen at *
  omega

section
variable (ordered : Ordered t)
include ordered

theorem current_erase (some : t.loff ≠ t.lbase) :
    current t = current { t with loff := (t.loff + ttyBuffLen - 1) % ttyBuffLen } ++
      [t.buffer ((t.loff + ttyBuffLen - 1) % ttyBuffLen)] :=
  Ring.contents_pred ordered.lbase ordered.loff some

theorem erase_ok_iff (some : t.loff ≠ t.lbase) :
    (∃ t', erase t = .ok t') ↔ ∀ ch ∈ (current t).getLast?, ch.toNat < 128 := by
  rw [current_erase ordered some, List.getLast?_concat, erase, decrement_eq ordered.loff]
  rw [exists_bind_ok]
  simp only [Option.mem_some_iff, forall_eq', ← echoMap_ok_iff]
  exact exists_congr fun text => ⟨fun shown => shown.1, fun shown => ⟨shown, _, rfl⟩⟩

theorem erase_shortens (some : t.loff ≠ t.lbase) (run : erase t = .ok t') :
    Keeps t t' ∧ committed t' = committed t ∧ current t' = (current t).dropLast := by
  have moved : Keeps t { t with loff := (t.loff + ttyBuffLen - 1) % ttyBuffLen } := by
    have shorter := (Ring.length_pred ordered.lbase ordered.loff some).1
    have cyclic := ordered.cyclic
    refine ⟨⟨ordered.fbase, ordered.lbase, Ring.pred_lt ordered.loff, ?_⟩, rfl, rfl, rfl⟩
    dsimp only
    omega
  rw [erase, decrement_eq ordered.loff] at run
  obtain ⟨_, -, write⟩ := bind_ok run
  rw [← pure_ok write]
  refine ⟨((moved.write _).write _).write _, by simp only [committed, petixTtyWrite], ?_⟩
  rw [current_erase ordered some, List.dropLast_concat]
  simp only [current, petixTtyWrite]

def edited (icanon : Bool) (seq : Seq) (lines line : List Byte) : List Byte × List Byte :=
  if seq.Erases then (lines, line.dropLast)
  else if Seq.Completes seq icanon then (lines ++ (line ++ Seq.stored seq icanon) ++ [sendChar], [])
  else (lines, line ++ Seq.stored seq icanon)

structure Edits (t : PetixTty) (seq : Seq) (t' : PetixTty) : Prop extends Keeps t t' where
  lines : committed t' = (edited t.icanon seq (committed t) (current t)).1
  line : current t' = (edited t.icanon seq (committed t) (current t)).2

theorem input_edits (fits : Fits t seq) (run : petixTtyInputSeq t seq = .ok t') : Edits t seq t' := by
  unfold petixTtyInputSeq at run
  by_cases erases : seq.Erases
  · have shortened : Keeps t t' ∧ committed t' = committed t ∧ current t' = (current t).dropLast := by
      split_ifs at run with some
      · exact erase_shortens ordered some run
      · have empty := (current_eq_nil_iff ordered).mpr (not_not.mp some)
        rw [← Except.ok.inj run, empty]
        exact ⟨.refl ordered, rfl, rfl⟩
    obtain ⟨keeps, same, shorter⟩ := shortened
    exact ⟨keeps, by rw [edited, if_pos erases, same], by rw [edited, if_pos erases, shorter]⟩
  · have room := fits.resolve_left erases
    rw [length_between ordered] at room
    rw [if_neg erases] at run
    obtain ⟨t₁, add, run⟩ := bind_ok run
    have adds := addSeq_adds ordered (by omega) add
    rw [adds.sameIcanon] at run
    by_cases completes : Seq.Completes seq t.icanon
    · rw [if_pos completes] at room
      have completed : completeLine t₁ = t' := pure_ok ((if_pos completes).symm.trans run)
      obtain ⟨keeps, joined, empty⟩ := completeLine_joins adds.toOrdered (by
        rw [adds.same, adds.added, List.length_append]
        omega)
      rw [completed] at keeps joined empty
      refine ⟨adds.toKeeps.trans keeps, ?_, ?_⟩
      · rw [edited, if_neg erases, if_pos completes, joined, adds.same, adds.added]
      · rw [edited, if_neg erases, if_pos completes, empty]
    · have unchanged : t₁ = t' := pure_ok ((if_neg completes).symm.trans run)
      rw [← unchanged]
      exact ⟨adds.toKeeps, by rw [edited, if_neg erases, if_neg completes, adds.same],
        by rw [edited, if_neg erases, if_neg completes, adds.added]⟩

theorem Edits.intact (edits : Edits t seq t') : Intact t t' := by
  have still : committed t <+: committed t' := by
    rw [edits.lines, edited]
    split_ifs
    · exact List.prefix_rfl
    · exact ⟨_, (List.append_assoc _ _ _).symm⟩
    · exact List.prefix_rfl
  refine ⟨edits.toOrdered, edits.sameFbase, ?_, still⟩
  have within : Ring.length ttyBuffLen t.fbase t.lbase ≤ Ring.length ttyBuffLen t.fbase t'.lbase := by
    simpa [committed, edits.sameFbase] using still.length_le
  calc Ring.contents ttyBuffLen t.fbase t.lbase t'.buffer
    _ = (committed t').take (committed t).length := by
        rw [committed, committed, edits.sameFbase, Ring.length_contents,
          ← Ring.contents_take ordered.fbase edits.lbase within, Ring.index_length ordered.fbase ordered.lbase]
    _ = committed t := (List.prefix_iff_eq_take.mp still).symm

theorem input_ok_iff (seq : Seq) : (∃ t', petixTtyInputSeq t seq = .ok t') ↔
    if seq.Erases then ∀ ch ∈ (current t).getLast?, ch.toNat < 128
    else seq.first ≠ 4#8 ∨ t.icanon = false → t.echo = true → ∀ ch ∈ seq.bytes, ch.toNat < 128 := by
  unfold petixTtyInputSeq
  split_ifs with erases some
  · exact erase_ok_iff ordered some
  · have empty := (current_eq_nil_iff ordered).mpr (not_not.mp some)
    simp [empty]
  · rw [← addSeq_ok_iff, exists_bind_ok]
    constructor
    · rintro ⟨t₁, add, -⟩
      exact ⟨t₁, add⟩
    · rintro ⟨t₁, add⟩
      refine ⟨t₁, add, ?_⟩
      split_ifs
      · exact ⟨_, rfl⟩
      · exact ⟨_, rfl⟩

end

end Petix.Proof.Tty
