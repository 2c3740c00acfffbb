import Petix.Proof.Container.Table
import Petix.Spec.Container

/-! # Values in a table with tombstones -/

namespace Petix.Proof.Container
open Function List Library Library.Result Kernel.Container Spec.Container Probing

variable {ε : Type} {m : Hashmap ε} {value : ε} {allowTs : Bool} {h start fuel d i j new : Nat}
variable {tsIndex : Option Nat} {bucket : Bucket ε}

def Exact (m : Hashmap ε) : Prop := ∀ bucket value, ∃ c, m.cmp bucket value = .ok c ∧ (c = 0 ↔ bucket = .full value)

def Walk (m : Hashmap ε) (h d i : Nat) : Prop :=
  spot m.buckets h d = i ∧ ∀ d' < d, m.data (spot m.buckets h d') ≠ .empty

theorem Walk.next (walk : Walk m h d i) (used : m.data i ≠ .empty) : Walk m h (d + 1) (spot m.buckets h (d + 1)) := by
  refine ⟨rfl, fun d' less => ?_⟩
  rcases Nat.lt_succ_iff_lt_or_eq.mp less with before | rfl
  · exact walk.2 d' before
  · rw [walk.1]
    exact used

theorem getBucketLoop_step (exact' : Exact m) (used : m.data i ≠ .empty) :
    (m.data i = .full value ∧ getBucketLoop m value allowTs (fuel + 1) i tsIndex = .ok i) ∨
      ∃ ts, (ts = tsIndex ∨ ts = some (tsIndex.getD i)) ∧ getBucketLoop m value allowTs (fuel + 1) i tsIndex =
        getBucketLoop m value allowTs fuel ((i + 1) % m.buckets) ts := by
  obtain ⟨c, compared, equal⟩ := exact' (m.data i) value
  rw [getBucketLoop]
  cases here : m.data i with
  | empty => exact absurd here used
  | tombstone =>
    rw [here] at compared equal
    have other : c ≠ 0 := by
      intro zero
      cases equal.mp zero
    simp only [compared, ok_bind, if_neg other]
    exact .inr ⟨_, .inr rfl, rfl⟩
  | full e =>
    rw [here] at compared equal
    simp only [compared, ok_bind]
    by_cases zero : c = 0
    · exact .inl ⟨equal.mp zero, if_pos zero⟩
    · exact .inr ⟨_, .inl rfl, if_neg zero⟩

theorem getBucket_eq (some_buckets : m.buckets ≠ 0) : getBucket m value allowTs =
    getBucketLoop m value allowTs m.buckets (spot m.buckets (m.hash value) 0) none := by
  rw [getBucket, if_neg some_buckets, spot, Nat.add_zero]

theorem getBucketLoop_ends (exact' : Exact m) (walk : Walk m h start (spot m.buckets h start))
    (early : ∀ j ∈ tsIndex, ∃ d < m.buckets, Walk m h d j) (round : start + fuel ≤ m.buckets)
    (last : ∃ d, start ≤ d ∧ d < start + fuel ∧ m.data (spot m.buckets h d) = .empty) :
    ∃ i, getBucketLoop m value allowTs fuel (spot m.buckets h start) tsIndex = .ok i ∧
      ∃ d < m.buckets, Walk m h d i := by
  induction fuel generalizing start tsIndex with
  | zero => omega
  | succ fuel ih =>
    have here : ∃ d < m.buckets, Walk m h d (spot m.buckets h start) := ⟨start, by omega, walk⟩
    by_cases used : m.data (spot m.buckets h start) = .empty
    · rw [getBucketLoop, used]
      refine ⟨_, rfl, ?_⟩
      split_ifs
      · cases tsIndex with
        | none => exact here
        | some j => exact early j rfl
      · exact here
    · rcases getBucketLoop_step exact' used with ⟨-, found⟩ | ⟨_, first, further⟩
      · exact ⟨_, found, here⟩
      · rw [further, spot_succ]
        obtain ⟨d, _, _, empty⟩ := last
        have beyond : d ≠ start := fun same => used (same ▸ empty)
        refine ih (walk.next used) (fun j noted => ?_) (by omega) ⟨d, by omega, by omega, empty⟩
        rcases first with rfl | rfl
        · exact early j noted
        · cases tsIndex with
          | none => exact Option.mem_some.mp noted ▸ here
          | some j' => exact early j noted

theorem getBucket_ends (exact' : Exact m) (free : ∃ i < m.buckets, m.data i = .empty) (value : ε) (allowTs : Bool) :
    ∃ i, getBucket m value allowTs = .ok i ∧ ∃ d < m.buckets, Walk m (m.hash value) d i := by
  obtain ⟨_, inside, empty⟩ := free
  obtain ⟨d, _, rfl⟩ := exists_spot inside (m.hash value)
  rw [getBucket_eq (by omega)]
  exact getBucketLoop_ends exact' ⟨rfl, nofun⟩ nofun (by omega) ⟨d, by omega, by omega, empty⟩

theorem getBucketLoop_finds (exact' : Exact m) (left : Nat)
    (walk : Walk m h (start + left) i) (there : m.data i = .full value) (enough : left < fuel)
    (some_buckets : 0 < m.buckets) :
    ∃ j < m.buckets, getBucketLoop m value allowTs fuel (spot m.buckets h start) tsIndex = .ok j ∧
      m.data j = .full value := by
  obtain ⟨fuel, rfl⟩ := Nat.exists_eq_succ_of_ne_zero (Nat.ne_zero_of_lt enough)
  induction left generalizing start fuel tsIndex with
  | zero =>
    rw [show spot m.buckets h start = i from walk.1]
    obtain ⟨_, compared, equal⟩ := exact' (.full value) value
    rw [getBucketLoop, there]
    simp only [compared, ok_bind, if_pos (equal.mpr rfl)]
    exact ⟨i, walk.1 ▸ Nat.mod_lt _ some_buckets, rfl, there⟩
  | succ left ih =>
    have used := walk.2 start (by omega)
    rcases getBucketLoop_step exact' used with ⟨found, run⟩ | ⟨_, -, further⟩
    · exact ⟨_, Nat.mod_lt _ some_buckets, run, found⟩
    · obtain ⟨fuel, rfl⟩ := Nat.exists_eq_succ_of_ne_zero (Nat.ne_zero_of_lt (Nat.lt_of_succ_lt_succ enough))
      rw [further, spot_succ]
      exact ih (by rwa [Nat.add_right_comm, Nat.add_assoc]) fuel (Nat.lt_of_succ_lt_succ enough)

theorem getBucketLoop_stops (exact' : Exact m)
    (run : getBucketLoop m value false fuel j tsIndex = .ok i) : m.data i = .empty ∨ m.data i = .full value := by
  induction fuel generalizing j tsIndex with
  | zero => cases run
  | succ fuel ih =>
    by_cases used : m.data j = .empty
    · rw [getBucketLoop, used] at run
      cases run
      exact .inl used
    · rcases getBucketLoop_step exact' used with ⟨found, ended⟩ | ⟨_, -, further⟩
      · cases ended.symm.trans run
        exact .inr found
      · exact ih (further.symm.trans run)

def filled (m : Hashmap ε) (i : Nat) : Option (Bucket ε) := match m.data i with
  | .empty => none
  | bucket => some bucket

theorem filled_eq_none_iff : filled m i = none ↔ m.data i = .empty := by
  unfold filled
  cases m.data i with
  | empty => simp
  | tombstone | full => simp

theorem filled_update (used : bucket ≠ .empty) :
    filled { m with data := Function.update m.data i bucket } = Function.update (filled m) i (some bucket) := by
  funext j
  by_cases same : j = i
  · subst same
    cases bucket with
    | empty => exact absurd rfl used
    | tombstone | full => simp [filled]
  · simp [filled, same]

structure Counted (m : Hashmap ε) : Prop where
  exact' : Exact m
  chained : ∀ i < m.buckets, ∀ value, m.data i = .full value → ∃ d < m.buckets, Walk m (m.hash value) d i
  entries : m.entries = (occupied m.buckets (filled m)).card

section
variable (counted : Counted m)
include counted

theorem Counted.free (space : m.entries < m.buckets) : ∃ i < m.buckets, m.data i = .empty := by
  obtain ⟨i, inside, free⟩ := exists_free (counted.entries ▸ space)
  exact ⟨i, inside, filled_eq_none_iff.mp free⟩

theorem Counted.finds (present : Contains m value) (allowTs : Bool) :
    ∃ i < m.buckets, getBucket m value allowTs = .ok i ∧ m.data i = .full value := by
  obtain ⟨j, inside, there⟩ := present
  obtain ⟨d, less, _⟩ := counted.chained j inside value there
  rw [getBucket_eq (by omega)]
  exact getBucketLoop_finds counted.exact' d (by rwa [Nat.zero_add]) there less (by omega)

theorem Counted.update (inside : i < m.buckets) (used : bucket ≠ .empty)
    (onWay : ∀ value, bucket = .full value → ∃ d < m.buckets, Walk m (m.hash value) d i) {entries : Nat}
    {freed : List (Bucket ε)} (count : entries = if filled m i = none then m.entries + 1 else m.entries) :
    Counted { m with data := Function.update m.data i bucket, entries, freed } := by
  have still {j : Nat} (full : m.data j ≠ .empty) : Function.update m.data i bucket j ≠ .empty := by
    by_cases same : j = i
    · rwa [same, update_self]
    · rwa [update_of_ne same]
  refine ⟨counted.exact', fun j inside value there => ?_, ?_⟩
  · have walk : ∃ d < m.buckets, Walk m (m.hash value) d j := by
      dsimp only at there
      by_cases same : j = i
      · rw [same, update_self] at there
        exact same ▸ onWay value there
      · rw [update_of_ne same] at there
        exact counted.chained j inside value there
    obtain ⟨d, less, position, before⟩ := walk
    exact ⟨d, less, position, fun d' earlier => still (before d' earlier)⟩
  · have table : filled { m with data := Function.update m.data i bucket, entries, freed } = _ := filled_update used
    rw [table, card_occupied_put inside, ← counted.entries]
    exact count

theorem insertOp_counted (space : m.entries < m.buckets) (value : ε) :
    ∃ m', insertOp m value = .ok m' ∧ Counted m' ∧ m'.buckets = m.buckets ∧ m'.entries ≤ m.entries + 1 := by
  obtain ⟨i, search, d, less, walk⟩ := getBucket_ends counted.exact' (counted.free space) value true
  have inside : i < m.buckets := walk.1 ▸ Nat.mod_lt _ (by omega)
  have onWay : ∀ v, Bucket.full value = .full v → ∃ d < m.buckets, Walk m (m.hash v) d i := by
    rintro _ ⟨⟩
    exact ⟨d, less, walk⟩
  have used : Bucket.full value ≠ .empty := nofun
  rw [insertOp, search, ok_bind]
  cases here : m.data i with
  | empty =>
    have free : filled m i = none := filled_eq_none_iff.mpr here
    exact ⟨_, rfl, counted.update inside used onWay (by rw [if_pos free]), rfl, Nat.le_refl _⟩
  | tombstone | full =>
    have taken : filled m i ≠ none := fun free => by simp [filled_eq_none_iff.mp free] at here
    split_ifs
    · exact ⟨_, rfl, counted.update inside used onWay (by rw [if_neg taken]), rfl, Nat.le_succ _⟩
    · exact ⟨_, rfl, counted.update inside used onWay (by rw [if_neg taken]), rfl, Nat.le_succ _⟩

theorem deleteValue_counted (present : Contains m value) :
    ∃ m', hashmapDeleteValue m value = .ok m' ∧ Counted m' ∧ m'.buckets = m.buckets ∧ m'.entries = m.entries := by
  obtain ⟨i, inside, search, there⟩ := counted.finds present false
  have taken : filled m i ≠ none := fun free => by simp [filled_eq_none_iff.mp free] at there
  have used : (.tombstone : Bucket ε) ≠ .empty := nofun
  refine ⟨_, hashmapDeleteValue_eq (by omega) search, counted.update inside used nofun ?_, rfl, rfl⟩
  rw [if_neg taken]

end

theorem rehash_counted (exact' : Exact m) (larger : m.buckets < new) :
    ∃ m', rehash m new = .ok m' ∧ Counted m' ∧ m'.buckets = new ∧ m'.entries ≤ m.buckets := by
  have start : Counted { m with data := fun _ => .empty, buckets := new, entries := 0 } :=
    ⟨exact', nofun, by simp [occupied, filled]⟩
  have step : ∀ j m', j < m.buckets → Counted m' ∧ m'.buckets = new ∧ m'.entries ≤ j →
      ∃ m'', reinsert m.data m' j = .ok m'' ∧ Counted m'' ∧ m''.buckets = new ∧ m''.entries ≤ j + 1 := by
    rintro j m' _ ⟨counted, buckets, _⟩
    rw [reinsert]
    cases m.data j with
    | empty | tombstone => exact ⟨m', rfl, counted, buckets, by omega⟩
    | full value =>
      obtain ⟨m'', run, counted', buckets', _⟩ := insertOp_counted counted (by omega) value
      exact ⟨m'', run, counted', buckets'.trans buckets, by omega⟩
  exact foldlM_range step ⟨start, rfl, Nat.le_refl 0⟩

structure Spacious (m : Hashmap ε) : Prop where
  counted : Counted m
  room : Room m

theorem grow_counted (spacious : Spacious m) :
    ∃ m', grow m = .ok m' ∧ Counted m' ∧ minBuckets ≤ m'.buckets ∧ 5 * m'.entries ≤ 4 * m'.buckets := by
  have room := spacious.room
  rw [Room, minBuckets] at room
  by_cases loaded : Loaded m
  · obtain ⟨m', run, counted, buckets, _⟩ := rehash_counted spacious.counted.exact' (newBuckets_gt m)
    rw [grow, if_pos loaded]
    rw [minBuckets] at buckets ⊢
    refine ⟨m', run, counted, ?_, ?_⟩
    · rw [buckets]
      split <;> omega
    · rw [buckets]
      split <;> omega
  · rw [grow, if_neg loaded, minBuckets]
    rw [Loaded] at loaded
    exact ⟨m, rfl, spacious.counted, by omega, by omega⟩

theorem insertValue_spacious (spacious : Spacious m) (value : ε) :
    ∃ m', hashmapInsertValue m value = .ok m' ∧ Spacious m' := by
  obtain ⟨_, grown, counted, least, _⟩ := grow_counted spacious
  rw [minBuckets] at least
  obtain ⟨m₂, run, counted', buckets, _⟩ := insertOp_counted counted (by omega) value
  refine ⟨m₂, ?_, counted', .inr ⟨?_, ?_⟩⟩
  · rw [hashmapInsertValue, grown]
    exact run
  · rwa [buckets]
  · omega

theorem deleteValue_spacious (spacious : Spacious m) (present : m.buckets = 0 ∨ Contains m value) :
    ∃ m', hashmapDeleteValue m value = .ok m' ∧ Spacious m' := by
  by_cases none_yet : m.buckets = 0
  · exact ⟨m, if_pos none_yet, spacious⟩
  · obtain ⟨m', run, counted, buckets, entries⟩ := deleteValue_counted spacious.counted (present.resolve_left none_yet)
    exact ⟨m', run, counted, by rw [Room, buckets, entries]; exact spacious.room⟩

theorem hasValue_eq (spacious : Spacious m) (value : ε) :
    ∃ answer, hashmapHasValue m value = .ok answer ∧ (answer = true ↔ Contains m value) := by
  by_cases none_yet : m.buckets = 0
  · refine ⟨false, if_pos none_yet, iff_of_false Bool.false_ne_true ?_⟩
    rintro ⟨i, _, -⟩
    omega
  · obtain ⟨i, search, _, -, walk⟩ :=
      getBucket_ends spacious.counted.exact' (spacious.counted.free (spacious.room.space none_yet)) value false
    rw [hashmapHasValue, if_neg none_yet, search, ok_bind]
    have stop := getBucketLoop_stops spacious.counted.exact' ((getBucket_eq none_yet).symm.trans search)
    rcases stop with empty | found
    · rw [empty]
      refine ⟨false, rfl, iff_of_false Bool.false_ne_true fun present => ?_⟩
      obtain ⟨_, -, search', there⟩ := spacious.counted.finds present false
      cases search.symm.trans search'
      cases empty.symm.trans there
    · rw [found]
      exact ⟨true, rfl, iff_of_true rfl ⟨i, walk.1 ▸ Nat.mod_lt _ (by omega), found⟩⟩

theorem exact_pointer {free : Bool} : Exact (hashmapInit ptrValueHash ptrValueCmp free) := by
  refine fun bucket value => ⟨_, rfl, ?_⟩
  have real := value.real
  have word := value.word
  have zero : signed32 (bucketAddr bucket - value.addr) = 0 ↔ bucketAddr bucket = value.addr := by
    have small : bucketAddr bucket < 2 ^ 32 := by
      cases bucket with
      | empty | tombstone => decide
      | full p => exact p.word
    unfold signed32
    omega
  rw [zero]
  cases bucket with
  | empty => exact iff_of_false (Nat.ne_of_lt (Nat.zero_lt_of_lt real)) nofun
  | tombstone => exact iff_of_false (Nat.ne_of_lt real) nofun
  | full p =>
    obtain ⟨-, -⟩ := p
    obtain ⟨-, -⟩ := value
    simp [bucketAddr]

theorem spacious_of_reachable {m : Hashmap Pointer} (reachable : (pointerMaps.restrict DeletesPresent).Reachable m) :
    Spacious m := by
  refine reachable.invariant (fun m start => ?_) fun m call m' spacious step => ?_
  · rw [show m = _ from start]
    exact ⟨⟨exact_pointer, nofun, rfl⟩, .inl rfl⟩
  · obtain ⟨allowed, step⟩ := step
    cases call with
    | insert value =>
      obtain ⟨m'', run, spacious'⟩ := insertValue_spacious spacious value
      cases run.symm.trans step
      exact spacious'
    | delete value =>
      obtain ⟨_, run, spacious'⟩ := deleteValue_spacious spacious allowed
      cases run.symm.trans step
      exact spacious'

theorem pointer_searches_end {m : Hashmap Pointer} (reachable : (pointerMaps.restrict DeletesPresent).Reachable m) :
    (m.buckets ≠ 0 → (∃ i < m.buckets, m.data i = .empty) ∧ ∀ value allowTs, ∃ i, getBucket m value allowTs = .ok i) ∧
      (∀ value, ∃ answer, hashmapHasValue m value = .ok answer ∧ (answer = true ↔ Contains m value)) ∧
      (∀ call, DeletesPresent m call → ∃ m', call.perform m = .ok m') ∧
      ∀ value, ¬ Contains m value → DeletesPresent m (.delete value) → hashmapDeleteValue m value = .ok m := by
  have spacious := spacious_of_reachable reachable
  refine ⟨fun some_buckets => ?_, hasValue_eq spacious, fun call allowed => ?_, fun value absent allowed => ?_⟩
  · have free := spacious.counted.free (spacious.room.space some_buckets)
    refine ⟨free, fun value allowTs => ?_⟩
    obtain ⟨i, run, -⟩ := getBucket_ends spacious.counted.exact' free value allowTs
    exact ⟨i, run⟩
  · cases call with
    | insert value =>
      obtain ⟨m', run, -⟩ := insertValue_spacious spacious value
      exact ⟨m', run⟩
    | delete value =>
      obtain ⟨m', run, -⟩ := deleteValue_spacious spacious allowed
      exact ⟨m', run⟩
  · exact if_pos (allowed.resolve_right absent)

def pointer (n : Fin 64) : Pointer := ⟨32 + n, by omega, by omega⟩

theorem pointer_searches_end_deleted : ∃ m, (pointerMaps.restrict DeletesPresent).Reachable m ∧ m.buckets = 32 ∧
    m.data 0 = .tombstone ∧ ∃ i, getBucket m (pointer 0) false = .ok i := by
  have start : (pointerMaps.restrict DeletesPresent).Reachable (hashmapInit ptrValueHash ptrValueCmp false) :=
    .initial rfl
  obtain ⟨m₁, m₂, insert, inside, there, delete, buckets, gone⟩ : ∃ m₁ m₂,
      (ValueCall.insert (pointer 0)).perform (hashmapInit ptrValueHash ptrValueCmp false) = .ok m₁ ∧ 0 < m₁.buckets ∧
      m₁.data 0 = .full (pointer 0) ∧ (ValueCall.delete (pointer 0)).perform m₁ = .ok m₂ ∧ m₂.buckets = 32 ∧
      m₂.data 0 = .tombstone := ⟨_, _, rfl, by decide, rfl, rfl, rfl, rfl⟩
  have inserted := start.next (a := ValueCall.insert (pointer 0)) ⟨trivial, insert⟩
  have deleted := inserted.next (a := ValueCall.delete (pointer 0)) ⟨.inr ⟨0, inside, there⟩, delete⟩
  exact ⟨m₂, deleted, buckets, gone, ((pointer_searches_end deleted).1 (by omega)).2 _ _⟩

def fillCalls : List ValueCall :=
  .insert (pointer 0) :: (range 31).map fun n => .delete (pointer (Fin.ofNat 64 (n + 1)))

def observe (m : Hashmap Pointer) : Nat × Bool × Except Fault Nat :=
  (m.buckets, (range 32).all fun i => (filled m i).isSome, getBucket m (pointer 32) false)

theorem absent_deletes_fill : ∃ m, pointerMaps.Reachable m ∧ m.buckets = 32 ∧ (∀ i < 32, m.data i ≠ .empty) ∧
    getBucket m (pointer 32) false = .error .endless := by
  have run : (fillCalls.foldlM (fun m call => (ValueCall.perform m call).toOption)
      (hashmapInit ptrValueHash ptrValueCmp false)).map observe = some (32, true, .error .endless) := rfl
  obtain ⟨m, computed, observed⟩ := Option.map_eq_some_iff.mp run
  simp only [observe, Prod.mk.injEq, all_eq_true, mem_range] at observed
  obtain ⟨buckets, used, search⟩ := observed
  have reachable : pointerMaps.Reachable m := .run (fun _ _ _ => ok_of_toOption) (.initial rfl) computed
  refine ⟨m, reachable, buckets, fun i less empty => ?_, search⟩
  have full := used i less
  rw [filled_eq_none_iff.mpr empty] at full
  cases full

end Petix.Proof.Container
