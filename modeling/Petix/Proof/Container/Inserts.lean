import Petix.Proof.Container.Table
import Petix.Spec.Container

namespace Petix.Proof.Container
open Function List Library Kernel.Container Spec.Container Probing

variable {j : Nat}

section Values

variable {ε κ : Type} {key : ε → κ} {hash : κ → Nat} {m : Hashmap ε} {f : κ → Option ε}

/-- A map as `hashmap_insert_value` leaves it: either without buckets, or at most a fifth of them and one more
entry short of full. -/
structure Sound (key : ε → κ) (hash : κ → Nat) (m : Hashmap ε) (f : κ → Option ε) : Prop where
  holds : Holds key hash m f
  room : m.buckets = 0 ∨ minBuckets ≤ m.buckets ∧ 5 * m.entries ≤ 4 * m.buckets + 5

theorem Sound.space (sound : Sound key hash m f) (some_buckets : m.buckets ≠ 0) : m.entries < m.buckets :=
  Room.space sound.room some_buckets

theorem sound_init {cmp : Bucket ε → ε → Except Fault Int} {h : ε → Nat}
    (keyed : Keyed key hash (hashmapInit h cmp true)) : Sound key hash (hashmapInit h cmp true) (fun _ => none) :=
  ⟨⟨keyed, nofun, represents_empty key hash 0, rfl⟩, .inl rfl⟩

theorem grow_loaded [DecidableEq κ] (stores : Stores key hash m f) (room : Room m) (loaded : Loaded m) :
    ∃ m', grow m = .ok m' ∧ Holds key hash m' f ∧ minBuckets ≤ m'.buckets ∧ 5 * m'.entries ≤ 4 * m'.buckets ∧
      m'.entries = m.entries ∧ m'.freed = m.freed := by
  have none_yet : m.buckets = 0 → m.entries = 0 := by
    intro zero
    rw [stores.entries, zero]
    rfl
  rw [Room, minBuckets] at room
  obtain ⟨m', run, holds, buckets, entries, freed⟩ := rehash_holds stores (newBuckets_gt m)
  rw [grow, if_pos loaded]
  rw [minBuckets] at buckets ⊢
  refine ⟨m', run, holds, ?_, ?_, entries, freed⟩
  · rw [buckets]
    split <;> omega
  · rw [buckets, entries]
    split <;> omega

theorem grow_holds [DecidableEq κ] (sound : Sound key hash m f) :
    ∃ m', grow m = .ok m' ∧ Holds key hash m' f ∧ minBuckets ≤ m'.buckets ∧ 5 * m'.entries ≤ 4 * m'.buckets ∧
      m'.entries = m.entries ∧ m'.freed = m.freed := by
  by_cases loaded : Loaded m
  · exact grow_loaded sound.holds.stores sound.room loaded
  · have room := sound.room
    rw [grow, if_neg loaded]
    rw [Loaded] at loaded
    exact ⟨m, rfl, sound.holds, by omega, by omega, rfl, rfl⟩

theorem hashmapInsertValue_inserted [DecidableEq κ] (sound : Sound key hash m f) (value : ε) :
    ∃ m', hashmapInsertValue m value = .ok m' ∧ Sound key hash m' (update f (key value) (some value)) ∧ m'.buckets ≠ 0 ∧
      m'.entries = (if f (key value) = none then m.entries + 1 else m.entries) ∧
      m'.freed = m.freed ++ (f (key value)).toList.map .full := by
  obtain ⟨m₁, grown, holds, least, _, entries, freed⟩ := grow_holds sound
  rw [minBuckets] at least
  obtain ⟨m₂, run, inserted⟩ := insertOp_inserted holds (by omega) value
  have atMost : m₂.entries ≤ m₁.entries + 1 := by
    rw [inserted.entries]
    split <;> omega
  refine ⟨m₂, ?_, ⟨inserted.holds, .inr ⟨?_, ?_⟩⟩, ?_, ?_, ?_⟩
  · rw [hashmapInsertValue, grown]
    exact run
  · rwa [inserted.buckets]
  · rw [inserted.buckets]
    omega
  · rw [inserted.buckets]
    omega
  · rw [inserted.entries, entries]
  · rw [inserted.freed, freed]

theorem exists_empty (sound : Sound key hash m f) (some_buckets : m.buckets ≠ 0) :
    ∃ i < m.buckets, m.data i = .empty := by
  obtain ⟨i, inside, free⟩ := exists_free (sound.holds.entries ▸ sound.space some_buckets)
  exact ⟨i, inside, stored_none (sound.holds.clean i) free⟩

end Values

section Entries

variable {κ ν : Type} {hash : κ → Nat} {m : Hashmap (HashmapEntry κ ν)} {f : κ → Option (HashmapEntry κ ν)}

theorem hashmapInsert_inserted [DecidableEq κ] (sound : Sound HashmapEntry.key hash m f) (e : HashmapEntry κ ν) :
    ∃ m', hashmapInsert m e.addr e.key e.value = .ok m' ∧
      Sound HashmapEntry.key hash m' (update f e.key (some e)) ∧ m'.buckets ≠ 0 ∧
      m'.entries = (if f e.key = none then m.entries + 1 else m.entries) ∧
      m'.freed = m.freed ++ (f e.key).toList.map .full := by
  rw [hashmapInsert, if_pos sound.holds.keyed.free]
  exact hashmapInsertValue_inserted sound e

theorem hashmapGet_eq (sound : Sound HashmapEntry.key hash m f) (null : ν) (k : κ) :
    hashmapGet null m k = .ok (((f k).map HashmapEntry.value).getD null) := by
  rw [hashmapGet]
  split
  case isTrue zero =>
      have nothing : f k = none := by
        rw [Option.eq_none_iff_forall_ne_some]
        intro e stored
        obtain ⟨i, _, -⟩ := (sound.holds.represents.stores k e).mp stored
        omega
      rw [nothing]
      rfl
  case isFalse some_buckets =>
      obtain ⟨i, found⟩ := exists_bucket (sound.holds.entries ▸ sound.space some_buckets) HashmapEntry.key hash k
      have run : getBucket m ⟨0, k, null⟩ false = .ok i :=
        getBucket_found sound.holds.keyed found (sound.holds.clean i) false
      rw [run, sound.holds.represents.lookup found, table]
      cases here : m.data i with
      | empty =>
        rw [Result.ok_bind, here]
        rfl
      | tombstone => exact absurd here (sound.holds.clean i)
      | full e =>
        rw [Result.ok_bind, here]
        rfl

variable {calls : List (κ × ν)} {k : κ} {v : ν} {e : HashmapEntry κ ν}

theorem call_lt {call : κ × ν} (there : calls[j]? = some call) : j < calls.length :=
  (List.getElem?_eq_some_iff.mp there).1

theorem call_snoc {last call : κ × ν} :
    (calls ++ [last])[j]? = some call ↔ calls[j]? = some call ∨ j = calls.length ∧ last = call := by
  rcases Nat.lt_trichotomy j calls.length with less | rfl | more
  · simp [getElem?_append_left less, less.ne]
  · simp
  · rw [getElem?_eq_none (by simpa using Nat.succ_le_of_lt more), getElem?_eq_none more.le]
    simp [more.ne']

theorem latest_snoc : Latest (calls ++ [(k, v)]) e ↔ e = ⟨calls.length, k, v⟩ ∨ Latest calls e ∧ e.key ≠ k := by
  constructor
  · rintro ⟨there, last⟩
    rcases call_snoc.mp there with before | ⟨at_end, same⟩
    · refine .inr ⟨⟨before, fun j v' same => last j v' (call_snoc.mpr (.inl same))⟩, ?_⟩
      rintro rfl
      exact absurd (last calls.length v (call_snoc.mpr (.inr ⟨rfl, rfl⟩))) (by have := call_lt before; omega)
    · obtain ⟨key, value⟩ := Prod.mk.inj same
      exact .inl (by rw [← at_end, key, value])
  · rintro (rfl | ⟨⟨there, last⟩, other⟩)
    · refine ⟨call_snoc.mpr (.inr ⟨rfl, rfl⟩), fun j v' same => ?_⟩
      rcases call_snoc.mp same with before | ⟨at_end, -⟩
      · exact (call_lt before).le
      · exact at_end.le
    · refine ⟨call_snoc.mpr (.inl there), fun j v' same => ?_⟩
      rcases call_snoc.mp same with before | ⟨-, equal⟩
      · exact last j v' before
      · exact absurd (Prod.mk.inj equal).1.symm other

theorem replaced_snoc : Replaced (calls ++ [(k, v)]) e ↔ Replaced calls e ∨ Latest calls e ∧ e.key = k := by
  constructor
  · rintro ⟨there, j, v', later, same⟩
    have before : calls[e.addr]? = some (e.key, e.value) := by
      refine (call_snoc.mp there).resolve_right fun at_end => ?_
      rcases call_snoc.mp same with before | _
      · have := call_lt before
        omega
      · omega
    by_cases replaced : Replaced calls e
    · exact .inl replaced
    · refine .inr ⟨⟨before, fun i w there => ?_⟩, ?_⟩
      · by_contra more
        exact replaced ⟨before, i, w, by omega, there⟩
      · rcases call_snoc.mp same with between | ⟨-, equal⟩
        · exact absurd ⟨before, j, v', later, between⟩ replaced
        · exact (Prod.mk.inj equal).1.symm
  · rintro (⟨there, j, v', later, same⟩ | ⟨⟨there, -⟩, rfl⟩)
    · exact ⟨call_snoc.mpr (.inl there), j, v', later, call_snoc.mpr (.inl same)⟩
    · exact ⟨call_snoc.mpr (.inl there), calls.length, v, call_lt there, call_snoc.mpr (.inr ⟨rfl, rfl⟩)⟩

theorem latest_not_replaced (latest : Latest calls e) : ¬Replaced calls e := by
  rintro ⟨-, j, v, _, same⟩
  exact absurd (latest.2 j v same) (by omega)

theorem lastValue_snoc [DecidableEq κ] (null : ν) (k' : κ) :
    lastValue null (calls ++ [(k, v)]) k' = if k' = k then v else lastValue null calls k' := by
  rw [lastValue, reverse_append]
  by_cases same : k = k'
  · simp [same]
  · simp [same, Ne.symm same, lastValue]

structure After [DecidableEq κ] (hash : κ → Nat) (calls : List (κ × ν)) (m : Hashmap (HashmapEntry κ ν))
    (f : κ → Option (HashmapEntry κ ν)) : Prop where
  sound : Sound HashmapEntry.key hash m f
  latest : ∀ k e, f k = some e ↔ Latest calls e ∧ e.key = k
  present : ∀ k, f k = none ↔ k ∉ calls.map Prod.fst
  value : ∀ null k, ((f k).map HashmapEntry.value).getD null = lastValue null calls k
  entries : m.entries = (calls.map Prod.fst).toFinset.card
  some_buckets : calls ≠ [] → m.buckets ≠ 0
  once : m.freed.Nodup
  freed : ∀ b, b ∈ m.freed ↔ ∃ e, Replaced calls e ∧ b = .full e

theorem After.insert [DecidableEq κ] (after : After hash calls m f) (k : κ) (v : ν) :
    ∃ m' f', hashmapInsert m calls.length k v = .ok m' ∧ After hash (calls ++ [(k, v)]) m' f' := by
  obtain ⟨m', run, sound, some_buckets, entries, freed⟩ := hashmapInsert_inserted after.sound ⟨calls.length, k, v⟩
  refine ⟨m', _, run, sound, fun k' e => ?_, fun k' => ?_, fun null k' => ?_, ?_, fun _ => some_buckets, ?_, ?_⟩
  · rw [latest_snoc]
    by_cases same : k' = k
    · subst same
      rw [update_self, Option.some_inj, eq_comm]
      refine ⟨fun equal => ⟨.inl equal, by rw [equal]⟩, fun ⟨either, named⟩ => ?_⟩
      exact either.resolve_right fun other => other.2 named
    · rw [update_of_ne same, after.latest]
      refine ⟨fun ⟨latest, named⟩ => ⟨.inr ⟨latest, named ▸ same⟩, named⟩, fun ⟨either, named⟩ => ⟨?_, named⟩⟩
      refine (either.resolve_left ?_).1
      rintro rfl
      exact same named.symm
  · by_cases same : k' = k
    · simp [same]
    · rw [update_of_ne same, after.present]
      simp [same]
  · rw [lastValue_snoc]
    by_cases same : k' = k
    · simp [same]
    · rw [update_of_ne same, if_neg same, after.value]
  · rw [entries, after.entries, map_append, toFinset_append, Finset.union_comm]
    simp only [after.present, map_cons, map_nil, toFinset_cons, toFinset_nil,
      insert_empty_eq, Finset.singleton_union, Finset.card_insert_eq_ite, mem_toFinset, ite_not]
  · rw [freed]
    cases before : f k with
    | none => simpa using after.once
    | some e =>
      have latest := ((after.latest k e).mp before).1
      refine after.once.append (nodup_singleton _) ?_
      refine disjoint_singleton.mpr fun already => ?_
      obtain ⟨_, replaced, ⟨⟩⟩ := (after.freed _).mp already
      exact latest_not_replaced latest replaced
  · intro b
    rw [freed, mem_append, after.freed]
    simp only [replaced_snoc, or_and_right, exists_or, mem_map, Option.mem_toList, after.latest, @eq_comm _ b]

variable {hash : HashmapEntry κ ν → Nat} {cmp : Bucket (HashmapEntry κ ν) → HashmapEntry κ ν → Except Fault Int}

theorem keyed_init (keys : EqualKeys hash cmp) (null : ν) :
    Keyed HashmapEntry.key (fun k => hash ⟨0, k, null⟩) (hashmapInit hash cmp true) :=
  ⟨fun e => keys.hash e ⟨0, e.key, null⟩ rfl, keys.cmp, rfl⟩

theorem insertAll_after [DecidableEq κ] (keys : EqualKeys hash cmp) (null : ν) (calls : List (κ × ν)) :
    ∃ m f, insertAll hash cmp calls = .ok m ∧ After (fun k => hash ⟨0, k, null⟩) calls m f := by
  induction calls using reverseRecOn with
  | nil =>
    refine ⟨_, _, rfl, sound_init (keyed_init keys null), ?_, ?_, ?_, rfl, ?_, nodup_nil, ?_⟩
    · simp [Latest]
    · simp
    · simp [lastValue]
    · simp
    · simp [hashmapInit, Replaced]
  | append_singleton calls call ih =>
    obtain ⟨_, _, run, after⟩ := ih
    obtain ⟨m', f', last, after'⟩ := after.insert call.1 call.2
    refine ⟨m', f', ?_, after'⟩
    rw [insertAll] at run
    rw [insertAll, zipIdx_append, foldlM_append, run, Nat.zero_add]
    exact (bind_pure _).trans last

theorem hashmap_keeps_last_inserts [DecidableEq κ] (keys : EqualKeys hash cmp) (null : ν) (calls : List (κ × ν)) :
    ∃ m, insertAll hash cmp calls = .ok m ∧ (∀ k, hashmapGet null m k = .ok (lastValue null calls k)) ∧
      m.entries = (calls.map Prod.fst).toFinset.card ∧ (calls ≠ [] → ∃ i < m.buckets, m.data i = .empty) ∧
      m.freed.Nodup ∧ ∀ b, b ∈ m.freed ↔ ∃ e, Replaced calls e ∧ b = .full e := by
  obtain ⟨m, _, run, after⟩ := insertAll_after keys null calls
  refine ⟨m, run, fun k => ?_, after.entries, fun some_calls => ?_, after.once, after.freed⟩
  · rw [hashmapGet_eq after.sound, after.value]
  · exact exists_empty after.sound (after.some_buckets some_calls)

end Entries

variable {ν : Type}

theorem strcmp_eq_zero {s t : List Byte} (ends : 0 ∉ s) (ends' : 0 ∉ t) : strcmp s t = 0 ↔ s = t := by
  fun_induction strcmp s t with
  | case1 => simp
  | case2 b t =>
    have := toNat_ne_zero (ne_of_not_mem_cons ends')
    simp
    omega
  | case3 a s =>
    have := toNat_ne_zero (ne_of_not_mem_cons ends)
    simp
    omega
  | case4 s b t ih =>
    refine (ih (not_mem_of_not_mem_cons ends) (not_mem_of_not_mem_cons ends')).trans ?_
    simp
  | case5 a s b t other =>
    have differ : a.toNat ≠ b.toNat := fun same => other (BitVec.eq_of_toNat_eq same)
    simp [other]
    omega

theorem equalKeys_string : EqualKeys (ν := ν) stringKeyHash stringKeyCmp where
  hash a b same := by rw [stringKeyHash, stringKeyHash, same]
  cmp a b := by exact ⟨_, rfl, (strcmp_eq_zero a.key.terminated b.key.terminated).trans Str.ext_iff.symm⟩

theorem hashmap_keeps_last_inserts_string :
    ∃ m, insertAll stringKeyHash stringKeyCmp [(Str.ofBytes [102], 1), (Str.ofBytes [103], 2), (Str.ofBytes [102], 3)]
        = .ok m ∧ hashmapGet 0 m (Str.ofBytes [102]) = .ok 3 ∧ m.entries = 2 ∧
      .full ⟨0, Str.ofBytes [102], 1⟩ ∈ m.freed := by
  obtain ⟨m, run, get, entries, -, -, freed⟩ := hashmap_keeps_last_inserts equalKeys_string 0
    [(Str.ofBytes [102], 1), (Str.ofBytes [103], 2), (Str.ofBytes [102], 3)]
  refine ⟨m, run, ?_, ?_, ?_⟩
  · rw [get]
    decide
  · rw [entries]
    decide
  · exact (freed _).mpr ⟨_, ⟨rfl, 2, 3, by decide, rfl⟩, rfl⟩

section Iteration

variable {ε κ : Type} {m : Hashmap ε} {behind : Nat → Bucket ε} {fuel : Nat}

theorem realEntry_reads {word : Nat → Bucket ε} {i : Nat} {reads : List Nat}
    (run : realEntry word fuel i = some (j, reads)) {k : Nat} (low : i ≤ k) (high : k ≤ j) : k ∈ reads := by
  induction fuel generalizing i reads with
  | zero => cases run
  | succ fuel ih =>
    rw [realEntry] at run
    split at run
    · cases run
      exact mem_singleton.mpr (le_antisymm high low)
    all_goals
      obtain ⟨⟨_, _⟩, rest, same⟩ := Option.map_eq_some_iff.mp run
      cases same
      rcases Nat.eq_or_lt_of_le low with rfl | further
      · exact .head _
      · exact .tail _ (ih rest further)

theorem visits_reads_end {rounds iter : Nat} {visited more : List Nat}
    (run : visits m behind fuel rounds iter = some (visited, more)) (inside : iter < m.buckets) : m.buckets ∈ more := by
  induction rounds generalizing iter visited more with
  | zero => cases run
  | succ rounds ih =>
    rw [visits, hashmapEnd, if_neg (Nat.not_le.mpr inside)] at run
    obtain ⟨⟨next, _⟩, step, run⟩ := Option.bind_eq_some_iff.mp run
    obtain ⟨⟨_, _⟩, tail, same⟩ := Option.bind_eq_some_iff.mp run
    cases same
    rcases Nat.lt_or_ge next m.buckets with further | past
    · exact mem_append_right _ (ih tail further)
    · exact mem_append_left _ (realEntry_reads step inside past)

theorem iteratesInside_iff : IteratesInside m behind ↔ m.buckets = 0 := by
  constructor
  · rintro ⟨_, _, iter, _, _, start, run, stays⟩
    by_contra some_buckets
    rw [hashmapBegin, if_neg some_buckets] at start
    refine Nat.lt_irrefl m.buckets (stays _ ?_)
    rcases Nat.lt_or_ge iter m.buckets with inside | past
    · exact mem_append_right _ (visits_reads_end run inside)
    · exact mem_append_left _ (realEntry_reads start (Nat.zero_le _) past)
  · intro nothing
    refine ⟨0, 1, 0, [], [], if_pos nothing, ?_, nofun⟩
    rw [visits, hashmapEnd, if_pos nothing.le, occupiedBuckets, nothing]
    rfl

variable {hash : HashmapEntry κ ν → Nat} {cmp : Bucket (HashmapEntry κ ν) → HashmapEntry κ ν → Except Fault Int}

theorem iteration_inside_iff [DecidableEq κ] (keys : EqualKeys hash cmp) {calls : List (κ × ν)}
    {m : Hashmap (HashmapEntry κ ν)} (inserts : insertAll hash cmp calls = .ok m)
    (behind : Nat → Bucket (HashmapEntry κ ν)) : IteratesInside m behind ↔ calls = [] := by
  rw [iteratesInside_iff]
  cases calls with
  | nil =>
    cases inserts
    exact iff_of_true rfl rfl
  | cons call calls =>
    obtain ⟨_, _, run, after⟩ := insertAll_after keys call.2 (call :: calls)
    cases inserts.symm.trans run
    exact iff_of_false (after.some_buckets nofun) nofun

theorem iteration_inside_empty :
    IteratesInside (hashmapInit (stringKeyHash (ν := Nat)) stringKeyCmp true) fun _ => .tombstone :=
  (iteration_inside_iff equalKeys_string rfl _).mpr rfl

theorem iteration_leaves_table : ∃ m, insertAll stringKeyHash stringKeyCmp [(Str.ofBytes [102], 1)] = .ok m ∧
      ∀ behind, ¬IteratesInside m behind := by
  obtain ⟨m, _, run, after⟩ := insertAll_after equalKeys_string 0 [(Str.ofBytes [102], 1)]
  exact ⟨m, run, fun behind inside => after.some_buckets nofun (iteratesInside_iff.mp inside)⟩

end Iteration

end Petix.Proof.Container
