import Petix.Proof.Container.Inserts

/-! # Who frees the entries -/

namespace Petix.Proof.Container
open Function List Library Library.Result Kernel.Container Spec.Container Probing

variable {allowTs : Bool} {j : Nat}

section Search

variable {ε κ : Type} {key : ε → κ} {hash : κ → Nat} {m m' : Hashmap ε} {value : ε} {i : Nat}

theorem getBucket_blocked (keyed : Keyed key hash m) (unread : ∀ b, m.cmp .tombstone b = .error .badEntry)
    (found : Found key hash m.buckets (table m) (key value) i) (blocked : m.data i = .tombstone) (allowTs : Bool) :
    getBucket m value allowTs = .error .badEntry := by
  obtain ⟨_, less, rfl, passed⟩ := found.walk
  obtain ⟨_, walked⟩ := getBucket_walked keyed allowTs less passed
  rw [walked, getBucketLoop, blocked]
  simp only [unread]
  rfl

theorem getBucketLoop_lt {fuel : Nat} {tsIndex : Option Nat} (inside : j < m.buckets)
    (early : ∀ t ∈ tsIndex, t < m.buckets) (run : getBucketLoop m value allowTs fuel j tsIndex = .ok i) :
    i < m.buckets := by
  induction fuel generalizing j tsIndex with
  | zero => cases run
  | succ fuel ih =>
    have further : (j + 1) % m.buckets < m.buckets := Nat.mod_lt _ (by omega)
    have first : tsIndex.getD j < m.buckets := by
      cases tsIndex with
      | none => exact inside
      | some t => exact early t rfl
    rw [getBucketLoop] at run
    split at run
    · cases run
      split_ifs
      · exact first
      · exact inside
    all_goals
      obtain ⟨_, -, rest⟩ := bind_ok run
      split_ifs at rest
    · cases rest
      exact inside
    · exact ih further (by rintro - ⟨⟩; exact first) rest
    · cases rest
      exact inside
    · exact ih further early rest

theorem getBucket_lt (run : getBucket m value allowTs = .ok i) : i < m.buckets := by
  rw [getBucket] at run
  split_ifs at run with none_yet
  exact getBucketLoop_lt (Nat.mod_lt _ (Nat.pos_of_ne_zero none_yet)) (by simp) run

theorem insertOp_cases (run : insertOp m value = .ok m') : ∃ i < m.buckets,
    m'.data = update m.data i (.full value) ∧ m'.buckets = m.buckets ∧ m'.cmp = m.cmp ∧
      (m'.freed = m.freed ∨ m'.freed = m.freed ++ [m.data i]) := by
  obtain ⟨i, search, rest⟩ := bind_ok run
  refine ⟨i, getBucket_lt search, ?_⟩
  cases here : m.data i with
  | empty =>
    rw [here] at rest
    cases rest
    exact ⟨rfl, rfl, rfl, .inl rfl⟩
  | tombstone | full =>
    rw [here] at rest
    cases rest
    split_ifs
    · exact ⟨rfl, rfl, rfl, .inr rfl⟩
    · exact ⟨rfl, rfl, rfl, .inl rfl⟩

theorem rehash_invariant (inv : Hashmap ε → Prop) {new : Nat}
    (start : inv { m with data := fun _ => .empty, buckets := new, entries := 0 })
    (preserved : ∀ m₁ value m₂, Contains m value → inv m₁ → insertOp m₁ value = .ok m₂ → inv m₂)
    (run : rehash m new = .ok m') : inv m' := by
  refine foldlM_invariant (fun m₁ i m₂ within holds step => ?_) start run
  rw [reinsert] at step
  split at step
  · next value there => exact preserved m₁ value m₂ ⟨i, mem_range.mp within, there⟩ holds step
  all_goals
    cases step
    exact holds

theorem grow_cmp (run : grow m = .ok m') : m'.cmp = m.cmp := by
  by_cases loaded : Loaded m
  · rw [grow, if_pos loaded] at run
    refine rehash_invariant (fun m' => m'.cmp = m.cmp) rfl (fun m₁ value m₂ _ same step => ?_) run
    obtain ⟨-, -, -, -, cmp, -⟩ := insertOp_cases step
    exact cmp.trans same
  · rw [grow, if_neg loaded] at run
    cases run
    rfl

structure Lost (e : ε) (m : Hashmap ε) : Prop where
  gone : ¬ Contains m e
  unfreed : .full e ∉ m.freed

variable {e : ε}

theorem not_contains_update {bucket : Bucket ε} (data : m'.data = update m.data i bucket)
    (buckets : m'.buckets = m.buckets) (other : bucket ≠ .full e)
    (gone : ∀ j < m.buckets, j ≠ i → m.data j ≠ .full e) : ¬ Contains m' e := by
  rintro ⟨j, within, there⟩
  rw [buckets] at within
  rw [data] at there
  by_cases same : j = i
  · rw [same, update_self] at there
    exact other there
  · rw [update_of_ne same] at there
    exact gone j within same there

theorem Lost.insertOp (lost : Lost e m) (other : value ≠ e) (run : insertOp m value = .ok m') : Lost e m' := by
  obtain ⟨i, inside, data, buckets, -, freed⟩ := insertOp_cases run
  constructor
  · exact not_contains_update data buckets (mt Bucket.full.inj other) fun j within _ there => lost.gone ⟨j, within, there⟩
  · have here : .full e ≠ m.data i := fun there => lost.gone ⟨i, inside, there.symm⟩
    rcases freed with same | more
    · rw [same]
      exact lost.unfreed
    · rw [more]
      simp [lost.unfreed, here]

theorem Lost.insertValue (lost : Lost e m) (other : value ≠ e) (run : hashmapInsertValue m value = .ok m') :
    Lost e m' := by
  obtain ⟨m₁, grown, run⟩ := bind_ok run
  refine Lost.insertOp ?_ other run
  by_cases loaded : Loaded m
  · rw [grow, if_pos loaded] at grown
    refine rehash_invariant (Lost e) ⟨?_, lost.unfreed⟩ (fun m₁ value m₂ present kept step => ?_) grown
    · rintro ⟨-, -, ⟨⟩⟩
    · exact kept.insertOp (fun same => lost.gone (same ▸ present)) step
  · rw [grow, if_neg loaded] at grown
    cases grown
    exact lost

theorem Lost.deleteValue (lost : Lost e m) (run : hashmapDeleteValue m value = .ok m') : Lost e m' := by
  rw [hashmapDeleteValue] at run
  split_ifs at run
  · cases run
    exact lost
  · obtain ⟨_, -, rest⟩ := bind_ok run
    cases rest
    have other : Bucket.tombstone ≠ .full e := by simp
    exact ⟨not_contains_update rfl rfl other fun j within _ there => lost.gone ⟨j, within, there⟩, lost.unfreed⟩

theorem notTombstone_eq_some {bucket bucket' : Bucket ε} :
    notTombstone bucket = some bucket' ↔ bucket = bucket' ∧ bucket' ≠ .tombstone := by
  cases bucket with
  | tombstone => simp [notTombstone, eq_comm]
  | empty | full =>
    rw [notTombstone, Option.some_inj]
    · exact ⟨fun same => ⟨same, by rw [← same]; exact nofun⟩, And.left⟩
    · exact nofun

theorem hashmapFree_freed (free : m.free = true) :
    (hashmapFree m).freed = m.freed ++ (range m.buckets).filterMap (notTombstone ∘ m.data) := by
  rw [hashmapFree, if_pos free]

theorem mem_freeing {bucket : Bucket ε} : bucket ∈ (range m.buckets).filterMap (notTombstone ∘ m.data) ↔
    bucket ≠ .tombstone ∧ ∃ i < m.buckets, m.data i = bucket := by
  simp only [mem_filterMap, mem_range, comp_apply, notTombstone_eq_some]
  exact ⟨fun ⟨i, inside, there, other⟩ => ⟨other, i, inside, there⟩,
    fun ⟨other, i, inside, there⟩ => ⟨i, inside, there, other⟩⟩

theorem Lost.free (lost : Lost e m) : .full e ∉ (hashmapFree m).freed := by
  rw [hashmapFree, mem_append, not_or]
  refine ⟨lost.unfreed, ?_⟩
  split_ifs
  · rw [mem_freeing]
    exact fun there => lost.gone there.2
  · exact not_mem_nil

end Search

section Entries

variable {κ ν : Type} {hash : κ → Nat} {m m' : Hashmap (HashmapEntry κ ν)} {f : κ → Option (HashmapEntry κ ν)}
  {null : ν} {k : κ} {i addr : Nat} {entries : List (HashmapEntry κ ν)}

theorem stored_eq_some_iff {ε : Type} {bucket : Bucket ε} {e : ε} : stored bucket = some e ↔ bucket = .full e := by
  refine ⟨stored_some, ?_⟩
  rintro rfl
  rfl

theorem clear_iff (keyed : Keyed HashmapEntry.key hash m)
    (found : Found HashmapEntry.key hash m.buckets (table m) k i) : Clear null m k ↔ m.data i ≠ .tombstone := by
  obtain ⟨⟨d, less, rfl, passed⟩, stop⟩ := found
  simp only [table, stored_eq_some_iff] at passed stop
  rw [Clear, keyed.hash]
  constructor
  · rintro ⟨d', -, passed', stop'⟩ blocked
    -- both searches stop at the first bucket that is not an entry with another key
    rcases Nat.lt_trichotomy d d' with before | rfl | behind
    · obtain ⟨e, there, -⟩ := passed' d before
      cases blocked.symm.trans there
    · rcases stop' with empty | ⟨e, there, -⟩
      · cases blocked.symm.trans empty
      · cases blocked.symm.trans there
    · obtain ⟨e, there, other⟩ := passed d' behind
      rcases stop' with empty | ⟨_, there', same⟩
      · cases there.symm.trans empty
      · cases there.symm.trans there'
        exact other same
  · intro kept
    refine ⟨d, less, passed, ?_⟩
    cases here : m.data (spot m.buckets (hash k) d) with
    | empty => exact .inl here
    | tombstone => exact absurd here kept
    | full e => exact .inr ⟨e, here, stop e here⟩

structure Tracks (hash : κ → Nat) (m : Hashmap (HashmapEntry κ ν)) (f : κ → Option (HashmapEntry κ ν)) (addr : Nat)
    (entries : List (HashmapEntry κ ν)) : Prop where
  stores : Stores HashmapEntry.key hash m f
  unread : ∀ b, m.cmp .tombstone b = .error .badEntry
  room : Room m
  older : ∀ e ∈ entries, e.addr < addr
  distinct : entries.Nodup
  once : m.freed.Nodup
  stored : ∀ k e, f k = some e → e ∈ entries
  freed : ∀ b ∈ m.freed, ∃ e ∈ entries, b = .full e ∧ f e.key ≠ some e
  kept : ∀ e ∈ entries, .full e ∈ m.freed ∨ f e.key = some e

section
variable (tracks : Tracks hash m f addr entries)
include tracks

theorem Tracks.found (some_buckets : m.buckets ≠ 0) (k : κ) :
    ∃ i, Found HashmapEntry.key hash m.buckets (table m) k i :=
  exists_bucket (tracks.stores.entries ▸ tracks.room.space some_buckets) HashmapEntry.key hash k

theorem Tracks.search (some_buckets : m.buckets ≠ 0) (clear : Clear null m k)
    (addr' : Nat) (v : ν) (allowTs : Bool) : ∃ i, Found HashmapEntry.key hash m.buckets (table m) k i ∧
      m.data i ≠ .tombstone ∧ getBucket m ⟨addr', k, v⟩ allowTs = .ok i := by
  obtain ⟨i, found⟩ := tracks.found some_buckets k
  have kept := (clear_iff tracks.stores.keyed found).mp clear
  exact ⟨i, found, kept, getBucket_found tracks.stores.keyed found kept allowTs⟩

theorem Tracks.key {e : HashmapEntry κ ν} (there : f k = some e) :
    e.key = k := by
  obtain ⟨-, -, -, same⟩ := (tracks.stores.represents.stores k e).mp there
  exact same

theorem Tracks.insert [DecidableEq κ] {e : HashmapEntry κ ν}
    (fresh : e.addr = addr) (stores : Stores HashmapEntry.key hash m' (update f e.key (some e)))
    (unread : m'.cmp = m.cmp) (room : Room m') (freed : m'.freed = m.freed ++ (f e.key).toList.map .full) :
    Tracks hash m' (update f e.key (some e)) (addr + 1) (entries ++ [e]) := by
  have new : e ∉ entries := fun old => by
    have := tracks.older e old
    omega
  have still {x : HashmapEntry κ ν} (old : x ∈ entries) :
      update f e.key (some e) x.key = some x ↔ x.key ≠ e.key ∧ f x.key = some x := by
    by_cases same : x.key = e.key
    · simp only [same, update_self, ne_eq, not_true_eq_false, false_and, iff_false, Option.some_inj]
      rintro rfl
      exact new old
    · rw [update_of_ne same, and_iff_right same]
  have replaced {x : HashmapEntry κ ν} (there : f e.key = some x) : x ∈ entries ∧ x.key = e.key :=
    ⟨tracks.stored e.key x there, tracks.key there⟩
  refine ⟨stores, unread ▸ tracks.unread, room, fun x known => ?_, ?_, ?_, fun k x there => ?_, fun b gone => ?_,
    fun x known => ?_⟩
  · rcases mem_append.mp known with old | last
    · exact Nat.lt_succ_of_lt (tracks.older x old)
    · rw [mem_singleton.mp last, fresh]
      exact Nat.lt_succ_self addr
  · exact tracks.distinct.append (nodup_singleton e) (disjoint_singleton.mpr new)
  · rw [freed]
    cases before : f e.key with
    | none => simpa using tracks.once
    | some x =>
      refine tracks.once.append (nodup_singleton _) (disjoint_singleton.mpr fun already => ?_)
      obtain ⟨_, -, ⟨⟩, other⟩ := tracks.freed _ already
      exact other ((replaced before).2 ▸ before)
  · by_cases same : k = e.key
    · rw [same, update_self] at there
      simp [Option.some_inj.mp there]
    · rw [update_of_ne same] at there
      exact mem_append_left _ (tracks.stored k x there)
  · rw [freed, mem_append] at gone
    rcases gone with before | now
    · obtain ⟨x, old, rfl, other⟩ := tracks.freed b before
      exact ⟨x, mem_append_left _ old, rfl, fun there => other ((still old).mp there).2⟩
    · simp only [mem_map, Option.mem_toList] at now
      obtain ⟨x, there, rfl⟩ := now
      obtain ⟨old, same⟩ := replaced there
      exact ⟨x, mem_append_left _ old, rfl, fun there => ((still old).mp there).1 same⟩
  · rw [freed, mem_append]
    rcases mem_append.mp known with old | last
    · rcases tracks.kept x old with before | there
      · exact .inl (.inl before)
      · by_cases same : x.key = e.key
        · refine .inl (.inr ?_)
          rw [← same, there]
          simp
        · exact .inr ((still old).mpr ⟨same, there⟩)
    · rw [mem_singleton.mp last, update_self]
      exact .inr rfl

theorem hashmapInsert_tracks [DecidableEq κ] (k : κ) (v : ν)
    (allowed : Loaded m ∨ Clear null m k) : ∃ m' f', hashmapInsert m addr k v = .ok m' ∧
      Tracks hash m' f' (addr + 1) (entries ++ [⟨addr, k, v⟩]) := by
  have free := tracks.stores.keyed.free
  rw [hashmapInsert, if_pos free]
  by_cases loaded : Loaded m
  · obtain ⟨_, grown, holds, least, room, -, freed⟩ := grow_loaded tracks.stores tracks.room loaded
    rw [minBuckets] at least
    obtain ⟨m₂, run, inserted⟩ := insertOp_inserted holds (by omega) ⟨addr, k, v⟩
    obtain ⟨i, -, -, -, cmp, -⟩ := insertOp_cases run
    refine ⟨m₂, _, ?_, tracks.insert rfl inserted.holds.stores (cmp.trans (grow_cmp grown)) (.inr ?_) ?_⟩
    · rw [hashmapInsertValue, grown]
      exact run
    · rw [inserted.buckets, inserted.entries, minBuckets]
      split_ifs <;> omega
    · rw [inserted.freed, freed]
  · have some_buckets : m.buckets ≠ 0 := fun zero => loaded (.inl zero)
    obtain ⟨i, found, kept, search⟩ := tracks.search some_buckets (allowed.resolve_left loaded) addr v true
    have stores : Stores HashmapEntry.key hash (put m i ⟨addr, k, v⟩) (update f k (some ⟨addr, k, v⟩)) :=
      put_stores tracks.stores found
    have least := tracks.room.resolve_left some_buckets
    refine ⟨_, _, ?_, tracks.insert rfl stores rfl (.inr ⟨least.1, ?_⟩) ?_⟩
    · rw [hashmapInsertValue, grow, if_neg loaded]
      exact insertOp_eq search kept free
    · rw [Loaded] at loaded
      dsimp only [put]
      split_ifs <;> omega
    · rw [tracks.stores.represents.lookup found, put]

theorem hashmapGet_tracks (allowed : m.buckets = 0 ∨ Clear null m k) :
    ∃ v, hashmapGet null m k = .ok v := by
  by_cases none_yet : m.buckets = 0
  · exact ⟨null, if_pos none_yet⟩
  · obtain ⟨i, -, kept, search⟩ := tracks.search none_yet (allowed.resolve_left none_yet) 0 null false
    rw [hashmapGet, if_neg none_yet, search, ok_bind]
    cases here : m.data i with
    | empty => exact ⟨null, rfl⟩
    | tombstone => exact absurd here kept
    | full e => exact ⟨e.value, rfl⟩

theorem Tracks.blocked (some_buckets : m.buckets ≠ 0)
    (unclear : ¬ Clear null m k) (v : ν) (addr' : Nat) (allowTs : Bool) :
    getBucket m ⟨addr', k, v⟩ allowTs = .error .badEntry := by
  obtain ⟨_, found⟩ := tracks.found some_buckets k
  have blocked := not_not.mp (mt (clear_iff tracks.stores.keyed found).mpr unclear)
  exact getBucket_blocked tracks.stores.keyed tracks.unread found blocked allowTs

theorem Tracks.age : Tracks hash m f (addr + 1) entries :=
  { tracks with older := fun e old => Nat.lt_succ_of_lt (tracks.older e old) }

theorem hashmapDelete_absent (some_buckets : m.buckets ≠ 0)
    (clear : Clear null m k) (absent : ∀ i < m.buckets, ∀ e, m.data i = .full e → e.key ≠ k) :
    ∃ m', hashmapDelete null m k = .ok m' ∧ Tracks hash m' f (addr + 1) entries := by
  obtain ⟨i, found, -, search⟩ := tracks.search some_buckets clear 0 null false
  have empty : table m i = none := by
    rw [Option.eq_none_iff_forall_ne_some]
    exact fun e there => absent i found.inside e (stored_some there) (found.stop e there)
  have same : table { m with data := update m.data i .tombstone } = table m := by
    funext j
    by_cases here : j = i
    · rw [here, empty]
      simp [table, stored]
    · simp [table, here]
  have stores : Stores HashmapEntry.key hash { m with data := update m.data i .tombstone } f := by
    refine ⟨⟨tracks.stores.keyed.hash, tracks.stores.keyed.cmp, tracks.stores.keyed.free⟩, ?_, ?_⟩
    · rw [same]
      exact tracks.stores.represents
    · rw [same]
      exact tracks.stores.entries
  exact ⟨_, hashmapDeleteValue_eq some_buckets search, { tracks.age with stores }⟩

theorem hashmapDelete_present {e : HashmapEntry κ ν}
    (inside : j < m.buckets) (there : m.data j = .full e) (clear : Clear null m e.key) :
    ∃ m', hashmapDelete null m e.key = .ok m' ∧ Lost e m' ∧ e ∈ entries := by
  have some_buckets : m.buckets ≠ 0 := by omega
  have holds : f e.key = some e :=
    (tracks.stores.represents.stores e.key e).mpr ⟨j, inside, stored_eq_some_iff.mpr there, rfl⟩
  obtain ⟨i, found, -, search⟩ := tracks.search some_buckets clear 0 null false
  have here : table m i = some e := by rw [← tracks.stores.represents.lookup found, holds]
  refine ⟨_, hashmapDeleteValue_eq some_buckets search, ⟨?_, fun gone => ?_⟩, tracks.stored _ _ holds⟩
  · refine not_contains_update rfl rfl nofun fun j within same still => same ?_
    exact tracks.stores.represents.once j i e e within found.inside (stored_eq_some_iff.mpr still) here rfl
  · obtain ⟨_, -, ⟨⟩, other⟩ := tracks.freed _ gone
    exact other holds

end

variable {call : MapCall κ ν} {calls : List (MapCall κ ν)}

theorem perform_tracks [DecidableEq κ] (tracks : Tracks hash m f addr entries) (allowed : Allowed null m call) :
    ∃ m' f', call.perform null addr m = .ok m' ∧
      Tracks hash m' f' (addr + 1) (entries ++ insertedEntries addr [call]) := by
  cases call with
  | insert k v => exact hashmapInsert_tracks tracks k v allowed
  | delete k =>
    rw [insertedEntries, insertedEntries, append_nil]
    by_cases none_yet : m.buckets = 0
    · exact ⟨m, f, if_pos none_yet, tracks.age⟩
    · obtain ⟨clear, absent⟩ := allowed.resolve_left none_yet
      obtain ⟨m', run, tracks'⟩ := hashmapDelete_absent tracks none_yet clear absent
      exact ⟨m', f, run, tracks'⟩
  | get k =>
    rw [insertedEntries, insertedEntries, append_nil]
    obtain ⟨_, run⟩ := hashmapGet_tracks tracks allowed
    exact ⟨m, f, by rw [MapCall.perform, run]; rfl, tracks.age⟩

theorem perform_forbidden (tracks : Tracks hash m f addr entries) (forbidden : ¬ Allowed null m call) :
    (∃ fault, call.perform null addr m = .error fault) ∨
      ∃ e ∈ entries, ∃ m', call.perform null addr m = .ok m' ∧ Lost e m' := by
  cases call with
  | insert k v =>
    obtain ⟨unloaded, unclear⟩ := not_or.mp forbidden
    have blocked := tracks.blocked (fun zero => unloaded (.inl zero)) unclear v addr true
    refine .inl ⟨.badEntry, ?_⟩
    rw [MapCall.perform, hashmapInsert, if_pos tracks.stores.keyed.free, hashmapInsertValue, grow, if_neg unloaded,
      ok_bind, insertOp, blocked]
    rfl
  | delete k =>
    obtain ⟨some_buckets, forbidden⟩ := not_or.mp forbidden
    by_cases clear : Clear null m k
    · right
      have present := not_and.mp forbidden clear
      push Not at present
      obtain ⟨_, inside, e, there, rfl⟩ := present
      obtain ⟨m', run, lost, known⟩ := hashmapDelete_present tracks inside there clear
      exact ⟨e, known, m', run, lost⟩
    · have blocked := tracks.blocked some_buckets clear null 0 false
      refine .inl ⟨.badEntry, ?_⟩
      rw [MapCall.perform, hashmapDelete, hashmapDeleteValue, if_neg some_buckets, blocked]
      rfl
  | get k =>
    obtain ⟨some_buckets, unclear⟩ := not_or.mp forbidden
    have blocked := tracks.blocked some_buckets unclear null 0 false
    refine .inl ⟨.badEntry, ?_⟩
    rw [MapCall.perform, hashmapGet, if_neg some_buckets, blocked]
    rfl

theorem Lost.perform {e : HashmapEntry κ ν} (lost : Lost e m) (older : e.addr < addr)
    (run : call.perform null addr m = .ok m') : Lost e m' := by
  cases call with
  | insert k v =>
    rw [MapCall.perform, hashmapInsert] at run
    split_ifs at run
    refine lost.insertValue ?_ run
    rintro rfl
    exact Nat.lt_irrefl addr older
  | delete k => exact lost.deleteValue run
  | get k =>
    obtain ⟨-, -, rest⟩ := bind_ok run
    cases rest
    exact lost

theorem Lost.performAll {e : HashmapEntry κ ν} (lost : Lost e m) (older : e.addr < addr)
    (run : performAll null m addr calls = .ok m') : Lost e m' := by
  induction calls generalizing m addr with
  | nil =>
    cases run
    exact lost
  | cons call calls ih =>
    obtain ⟨m₁, first, rest⟩ := bind_ok run
    exact ih (lost.perform older first) (Nat.lt_succ_of_lt older) rest

theorem insertedEntries_cons (addr : Nat) (call : MapCall κ ν) (calls : List (MapCall κ ν)) :
    insertedEntries addr (call :: calls) = insertedEntries addr [call] ++ insertedEntries (addr + 1) calls := by
  cases call with
  | insert | delete | get => rfl

section
variable (tracks : Tracks hash m f addr entries)
include tracks

theorem Tracks.freeing_iff (used : ∀ i < m.buckets, m.data i ≠ .empty) {bucket : Bucket (HashmapEntry κ ν)} :
    bucket ∈ (range m.buckets).filterMap (notTombstone ∘ m.data) ↔ ∃ e, bucket = .full e ∧ f e.key = some e := by
  rw [mem_freeing]
  constructor
  · rintro ⟨other, i, inside, there⟩
    cases bucket with
    | empty => exact absurd there (used i inside)
    | tombstone => exact absurd rfl other
    | full e =>
      exact ⟨e, rfl, (tracks.stores.represents.stores e.key e).mpr ⟨i, inside, stored_eq_some_iff.mpr there, rfl⟩⟩
  · rintro ⟨e, rfl, holds⟩
    obtain ⟨i, inside, there, -⟩ := (tracks.stores.represents.stores e.key e).mp holds
    exact ⟨nofun, i, inside, stored_some there⟩

theorem Tracks.freeing_nodup (used : ∀ i < m.buckets, m.data i ≠ .empty) :
    ((range m.buckets).filterMap (notTombstone ∘ m.data)).Nodup := by
  rw [List.Nodup, pairwise_filterMap]
  refine nodup_range.imp_of_mem ?_
  rintro i j inside inside' other bucket there _ there' rfl
  simp only [comp_apply, notTombstone_eq_some] at there there'
  rw [mem_range] at inside inside'
  cases bucket with
  | empty => exact used i inside there.1
  | tombstone => exact there.2 rfl
  | full e =>
    exact other (tracks.stores.represents.once i j e e inside inside' (stored_eq_some_iff.mpr there.1)
      (stored_eq_some_iff.mpr there'.1) rfl)

theorem Tracks.free_iff : (hashmapFree m).freed.Perm (entries.map .full) ↔ ∀ i < m.buckets, m.data i ≠ .empty := by
  rw [hashmapFree_freed tracks.stores.keyed.free]
  constructor
  · intro perm i inside empty
    have freed : .empty ∈ m.freed ++ (range m.buckets).filterMap (notTombstone ∘ m.data) :=
      mem_append_right _ (mem_freeing.mpr ⟨nofun, i, inside, empty⟩)
    rw [perm.mem_iff] at freed
    simp at freed
  · intro used
    have distinct : (entries.map Bucket.full).Nodup := tracks.distinct.map fun _ _ => Bucket.full.inj
    have once : (m.freed ++ (range m.buckets).filterMap (notTombstone ∘ m.data)).Nodup := by
      refine tracks.once.append (tracks.freeing_nodup used) fun b gone later => ?_
      obtain ⟨e, rfl, holds⟩ := (tracks.freeing_iff used).mp later
      obtain ⟨_, -, ⟨⟩, other⟩ := tracks.freed _ gone
      exact other holds
    rw [perm_ext_iff_of_nodup once distinct]
    intro b
    rw [mem_append, tracks.freeing_iff used, mem_map]
    constructor
    · rintro (gone | ⟨e, rfl, holds⟩)
      · obtain ⟨e, known, rfl, -⟩ := tracks.freed b gone
        exact ⟨e, known, rfl⟩
      · exact ⟨e, tracks.stored e.key e holds, rfl⟩
    · rintro ⟨e, known, rfl⟩
      exact (tracks.kept e known).imp_right fun holds => ⟨e, rfl, holds⟩

theorem frees_iff [DecidableEq κ] : (∃ m', performAll null m addr calls = .ok m' ∧
      (hashmapFree m').freed.Perm ((entries ++ insertedEntries addr calls).map .full)) ↔ Careful null m addr calls := by
  induction calls generalizing m f addr entries with
  | nil =>
    rw [insertedEntries, append_nil, Careful, ← tracks.free_iff]
    constructor
    · rintro ⟨m', ⟨⟩, perm⟩
      exact perm
    · exact fun perm => ⟨m, rfl, perm⟩
  | cons call calls ih =>
    rw [insertedEntries_cons, ← append_assoc, Careful, performAll]
    by_cases allowed : Allowed null m call
    · obtain ⟨m₁, _, run, tracks₁⟩ := perform_tracks tracks allowed
      rw [run, ok_bind, ih tracks₁]
      refine ⟨fun careful => ⟨allowed, fun m' run' => ?_⟩, fun careful => careful.2 m₁ rfl⟩
      cases run'
      exact careful
    · refine iff_of_false ?_ fun careful => allowed careful.1
      rintro ⟨_, run, perm⟩
      -- the call fails, or it loses an entry that no later call can free
      rcases perform_forbidden tracks allowed with ⟨_, failed⟩ | ⟨e, known, _, first, lost⟩
      · rw [failed] at run
        cases run
      · rw [first, ok_bind] at run
        have still := lost.performAll (Nat.lt_succ_of_lt (tracks.older e known)) run
        refine still.free (perm.mem_iff.mpr ?_)
        simp [known]

end

variable {hash : HashmapEntry κ ν → Nat} {cmp : Bucket (HashmapEntry κ ν) → HashmapEntry κ ν → Except Fault Int}

theorem tracks_init (keys : EntryKeys hash cmp) (null : ν) :
    Tracks (fun k => hash ⟨0, k, null⟩) (hashmapInit hash cmp true) (fun _ => none) 0 [] where
  stores := (sound_init (keyed_init keys.equal null)).holds.stores
  unread := keys.tombstone
  room := .inl rfl
  older := by simp
  distinct := nodup_nil
  once := nodup_nil
  stored := nofun
  freed := by simp [hashmapInit]
  kept := by simp

theorem frees_once_iff [DecidableEq κ] (keys : EntryKeys hash cmp) (null : ν) (calls : List (MapCall κ ν)) :
    FreesOnce null (hashmapInit hash cmp true) calls ↔ Careful null (hashmapInit hash cmp true) 0 calls :=
  frees_iff (tracks_init keys null)

end Entries

theorem entryKeys_string {ν : Type} : EntryKeys (ν := ν) stringKeyHash stringKeyCmp := ⟨equalKeys_string, fun _ => rfl⟩

def letter (n : Nat) : Str := Str.ofBytes [BitVec.ofNat 8 n]

def freedBy (calls : List (MapCall Str Nat)) : Except Fault (List (Bucket (HashmapEntry Str Nat))) :=
  (hashmapFree · |>.freed) <$> performAll 0 (hashmapInit stringKeyHash stringKeyCmp true) 0 calls

def fillNames : List (MapCall Str Nat) :=
  .insert (letter 32) 1 :: (range 31).map fun n => .delete (letter (33 + n))

theorem frees_once_iff_filled : FreesOnce 0 (hashmapInit stringKeyHash stringKeyCmp true) fillNames ∧
    Careful 0 (hashmapInit stringKeyHash stringKeyCmp true) 0 fillNames := by
  have computed : freedBy fillNames = .ok [.full ⟨0, letter 32, 1⟩] := rfl
  obtain ⟨m, run, freed⟩ := map_ok computed
  have freesOnce : FreesOnce 0 (hashmapInit stringKeyHash stringKeyCmp true) fillNames := by
    refine ⟨m, run, ?_⟩
    rw [freed]
    exact List.Perm.refl _
  exact ⟨freesOnce, (frees_once_iff entryKeys_string 0 fillNames).mp freesOnce⟩

theorem free_empty_and_deleted :
    (∃ m, performAll 0 (hashmapInit stringKeyHash stringKeyCmp true) 0 [.insert (letter 32) 1] = .ok m ∧
      (hashmapFree m).freed = .full ⟨0, letter 32, 1⟩ :: replicate 31 .empty) ∧
    ¬ FreesOnce 0 (hashmapInit stringKeyHash stringKeyCmp true) [.insert (letter 32) 1] ∧
    ∃ m, performAll 0 (hashmapInit stringKeyHash stringKeyCmp true) 0 [.insert (letter 32) 1, .delete (letter 32)] =
      .ok m ∧ (hashmapFree m).freed = replicate 31 .empty := by
  have inserted : freedBy [.insert (letter 32) 1] = .ok (.full ⟨0, letter 32, 1⟩ :: replicate 31 .empty) := rfl
  have deleted : freedBy [.insert (letter 32) 1, .delete (letter 32)] = .ok (replicate 31 .empty) := rfl
  obtain ⟨m, run, freed⟩ := map_ok inserted
  refine ⟨⟨m, run, freed⟩, ?_, map_ok deleted⟩
  rintro ⟨_, run', perm⟩
  cases run.symm.trans run'
  rw [freed] at perm
  have := perm.length_eq
  simp [insertedEntries] at this

end Petix.Proof.Container
