import Petix.Library.Probing
import Petix.Library.Result
import Petix.Kernel.Container

namespace Petix.Proof.Container
open Function Library Kernel.Container Probing

variable {ε κ : Type} {key : ε → κ} {hash : κ → Nat} {m : Hashmap ε} {f : κ → Option ε} {value : ε}
variable {bucket : Bucket ε} {i : Nat}

def stored : Bucket ε → Option ε
  | .full e => some e
  | .empty | .tombstone => none

def table (m : Hashmap ε) (i : Nat) : Option ε := stored (m.data i)

structure Keyed (key : ε → κ) (hash : κ → Nat) (m : Hashmap ε) : Prop where
  hash : ∀ v, m.hash v = hash (key v)
  cmp : ∀ e v, ∃ c, m.cmp (.full e) v = .ok c ∧ (c = 0 ↔ key e = key v)
  free : m.free = true

structure Holds (key : ε → κ) (hash : κ → Nat) (m : Hashmap ε) (f : κ → Option ε) : Prop where
  keyed : Keyed key hash m
  clean : ∀ i, m.data i ≠ .tombstone
  represents : Represents key hash m.buckets (table m) f
  entries : m.entries = (occupied m.buckets (table m)).card

theorem stored_none (clean : bucket ≠ .tombstone) (nothing : stored bucket = none) :
    bucket = .empty := by
  cases bucket with
  | empty => rfl
  | tombstone => exact absurd rfl clean
  | full e => cases nothing

theorem stored_none_or (nothing : stored bucket = none) :
    bucket = .empty ∨ bucket = .tombstone := by
  cases bucket with
  | empty => exact .inl rfl
  | tombstone => exact .inr rfl
  | full e => cases nothing

theorem stored_some {e : ε} (something : stored bucket = some e) : bucket = .full e := by
  cases bucket with
  | empty | tombstone => cases something
  | full e' =>
    cases something
    rfl

theorem getBucketLoop_passes (keyed : Keyed key hash m) (allowTs : Bool) {h : Nat} (start left : Nat)
    (passed : ∀ d < start + left, ∃ e, table m (spot m.buckets h d) = some e ∧ key e ≠ key value) (fuel : Nat) :
    getBucketLoop m value allowTs (left + fuel) (spot m.buckets h start) none =
      getBucketLoop m value allowTs fuel (spot m.buckets h (start + left)) none := by
  induction left generalizing start with
  | zero => rw [Nat.zero_add, Nat.add_zero]
  | succ left ih =>
    obtain ⟨e, here, other⟩ := passed start (by omega)
    obtain ⟨_, compared, equal⟩ := keyed.cmp e value
    rw [Nat.add_right_comm, getBucketLoop, stored_some here]
    simp only [compared]
    refine (if_neg (mt equal.mp other)).trans ?_
    rw [spot_succ, ih (start + 1) (fun d less => passed d (by omega)), Nat.add_right_comm, Nat.add_assoc]

theorem getBucket_walked (keyed : Keyed key hash m) (allowTs : Bool) {d : Nat} (less : d < m.buckets)
    (passed : ∀ d' < d, ∃ e, table m (spot m.buckets (hash (key value)) d') = some e ∧ key e ≠ key value) :
    ∃ fuel, getBucket m value allowTs =
      getBucketLoop m value allowTs (fuel + 1) (spot m.buckets (hash (key value)) d) none := by
  obtain ⟨fuel, split⟩ : ∃ fuel, m.buckets = d + (fuel + 1) := ⟨m.buckets - (d + 1), by omega⟩
  refine ⟨fuel, ?_⟩
  have walked := getBucketLoop_passes keyed allowTs 0 d (by rwa [Nat.zero_add]) (fuel + 1)
  rw [Nat.zero_add, ← split] at walked
  rw [getBucket, if_neg (by omega), keyed.hash]
  exact walked

theorem getBucket_found (keyed : Keyed key hash m)
    (found : Found key hash m.buckets (table m) (key value) i) (kept : m.data i ≠ .tombstone) (allowTs : Bool) :
    getBucket m value allowTs = .ok i := by
  obtain ⟨d, less, rfl, passed⟩ := found.walk
  obtain ⟨_, walked⟩ := getBucket_walked keyed allowTs less passed
  rw [walked, getBucketLoop]
  cases here : table m (spot m.buckets (hash (key value)) d) with
  | none =>
    rw [stored_none kept here]
    simp
  | some e =>
    obtain ⟨_, compared, equal⟩ := keyed.cmp e value
    rw [stored_some here]
    simp only [compared]
    exact if_pos (equal.mpr (found.stop e here))

theorem exists_bucket (space : (occupied m.buckets (table m)).card < m.buckets) (key : ε → κ) (hash : κ → Nat) (k : κ) :
    ∃ i, Found key hash m.buckets (table m) k i := by
  obtain ⟨d, less, passed, stop⟩ := exists_found (exists_free space) key hash k
  exact ⟨_, ⟨d, less, rfl, passed⟩, stop⟩

theorem hashmapDeleteValue_eq (some_buckets : m.buckets ≠ 0) (search : getBucket m value false = .ok i) :
    hashmapDeleteValue m value = .ok { m with data := update m.data i .tombstone } := by
  rw [hashmapDeleteValue, if_neg some_buckets, search]
  rfl

def put (m : Hashmap ε) (i : Nat) (value : ε) : Hashmap ε :=
  { m with
    data := update m.data i (.full value)
    entries := if table m i = none then m.entries + 1 else m.entries
    freed := m.freed ++ (table m i).toList.map .full }

theorem table_put (m : Hashmap ε) (i : Nat) (value : ε) : table (put m i value) = update (table m) i (some value) := by
  funext j
  by_cases same : j = i <;> simp [table, put, stored, same]

theorem insertOp_eq (search : getBucket m value true = .ok i) (clean : m.data i ≠ .tombstone)
    (free : m.free = true) : insertOp m value = .ok (put m i value) := by
  rw [insertOp, search, put, table]
  cases here : m.data i with
  | empty => simp [stored, here]
  | tombstone => exact absurd here clean
  | full old => simp [stored, here, free]

structure Stores (key : ε → κ) (hash : κ → Nat) (m : Hashmap ε) (f : κ → Option ε) : Prop where
  keyed : Keyed key hash m
  represents : Represents key hash m.buckets (table m) f
  entries : m.entries = (occupied m.buckets (table m)).card

theorem Holds.stores (holds : Holds key hash m f) : Stores key hash m f :=
  ⟨holds.keyed, holds.represents, holds.entries⟩

theorem put_stores [DecidableEq κ] (stores : Stores key hash m f)
    (found : Found key hash m.buckets (table m) (key value) i) :
    Stores key hash (put m i value) (update f (key value) (some value)) := by
  refine ⟨⟨stores.keyed.hash, stores.keyed.cmp, stores.keyed.free⟩, ?_, ?_⟩
  · rw [table_put]
    exact stores.represents.put found
  · rw [table_put, put, card_occupied_put found.inside, stores.entries]

structure Inserted [DecidableEq κ] (key : ε → κ) (hash : κ → Nat) (m : Hashmap ε) (f : κ → Option ε) (value : ε)
    (m' : Hashmap ε) : Prop where
  holds : Holds key hash m' (update f (key value) (some value))
  buckets : m'.buckets = m.buckets
  entries : m'.entries = if f (key value) = none then m.entries + 1 else m.entries
  freed : m'.freed = m.freed ++ (f (key value)).toList.map .full

theorem insertOp_inserted [DecidableEq κ] (holds : Holds key hash m f) (space : m.entries < m.buckets) (value : ε) :
    ∃ m', insertOp m value = .ok m' ∧ Inserted key hash m f value m' := by
  obtain ⟨i, found⟩ := exists_bucket (holds.entries ▸ space) key hash (key value)
  have search := getBucket_found holds.keyed found (holds.clean i) true
  have before : f (key value) = table m i := holds.represents.lookup found
  have stores := put_stores holds.stores found
  refine ⟨put m i value, insertOp_eq search (holds.clean i) holds.keyed.free,
    ⟨stores.keyed, ?_, stores.represents, stores.entries⟩, rfl, ?_, ?_⟩
  · intro j
    by_cases same : j = i
    · simp [put, same]
    · simpa [put, same] using holds.clean j
  · rw [before, put]
  · rw [before, put]

def Room (m : Hashmap ε) : Prop := m.buckets = 0 ∨ minBuckets ≤ m.buckets ∧ 5 * m.entries ≤ 4 * m.buckets + 5

theorem Room.space (room : Room m) (some_buckets : m.buckets ≠ 0) : m.entries < m.buckets := by
  rw [Room, minBuckets] at room
  omega

theorem newBuckets_gt (m : Hashmap ε) : m.buckets < if m.buckets = 0 then minBuckets else 2 * m.buckets := by
  rw [minBuckets]
  split <;> omega

variable {new j : Nat} {m' : Hashmap ε}

structure Moved (key : ε → κ) (hash : κ → Nat) (m : Hashmap ε) (new j : Nat) (m' : Hashmap ε) : Prop where
  holds : ∃ g, Holds key hash m' g ∧ ∀ k e, g k = some e ↔ ∃ i < j, table m i = some e ∧ key e = k
  buckets : m'.buckets = new
  entries : m'.entries = (occupied j (table m)).card
  freed : m'.freed = m.freed

theorem occupied_succ (m : Hashmap ε) (j : Nat) : (occupied (j + 1) (table m)).card =
    if table m j = none then (occupied j (table m)).card else (occupied j (table m)).card + 1 := by
  rw [occupied, Finset.range_add_one, Finset.filter_insert]
  cases table m j with
  | none => simp [occupied]
  | some e => simp [occupied]

theorem Moved.reinsert [DecidableEq κ] (stores : Stores key hash m f) (larger : m.buckets < new)
    (inside : j < m.buckets) (moved : Moved key hash m new j m') :
    ∃ m'', reinsert m.data m' j = .ok m'' ∧ Moved key hash m new (j + 1) m'' := by
  obtain ⟨g, held, holds⟩ := moved.holds
  have count := occupied_succ m j
  cases here : table m j with
  | none =>
    rw [here, if_pos rfl] at count
    refine ⟨m', ?_, ⟨g, held, fun k e => ?_⟩, moved.buckets, moved.entries.trans count.symm, moved.freed⟩
    · rw [Kernel.Container.reinsert]
      rcases stored_none_or here with empty | tombstone
      · rw [empty]
      · rw [tombstone]
    · rw [holds, Nat.exists_lt_succ_right, here]
      simp
  | some e =>
    rw [here, if_neg (Option.some_ne_none e)] at count
    -- no earlier bucket had an entry with this key
    have fresh : g (key e) = none := by
      rw [Option.eq_none_iff_forall_ne_some]
      intro e' already
      obtain ⟨i, less, at_i, named⟩ := (holds _ _).mp already
      exact absurd (stores.represents.once i j e' e (by omega) inside at_i here named) (by omega)
    have space : m'.entries < m'.buckets := by
      have atMost : (occupied j (table m)).card ≤ j := (Finset.card_filter_le _ _).trans_eq (Finset.card_range j)
      rw [moved.entries, moved.buckets]
      omega
    obtain ⟨m'', run, inserted⟩ := insertOp_inserted held space e
    refine ⟨m'', ?_, ⟨_, inserted.holds, fun k e' => ?_⟩, ?_, ?_, ?_⟩
    · rw [Kernel.Container.reinsert, stored_some here]
      exact run
    · by_cases same : k = key e
      · subst same
        have none_before : ¬∃ i < j, table m i = some e' ∧ key e' = key e := by
          rw [← holds, fresh]
          exact nofun
        rw [update_self, Nat.exists_lt_succ_right, here]
        refine ⟨fun equal => .inr ⟨equal, ?_⟩, fun either => (either.resolve_left none_before).1⟩
        rw [Option.some_inj.mp equal]
      · rw [update_of_ne same, holds, Nat.exists_lt_succ_right, here]
        refine ⟨.inl, fun either => either.resolve_right ?_⟩
        rintro ⟨⟨⟩, named⟩
        exact same named.symm
    · exact inserted.buckets.trans moved.buckets
    · rw [inserted.entries, if_pos fresh, moved.entries, count]
    · rw [inserted.freed, fresh, moved.freed]
      simp

theorem rehash_holds [DecidableEq κ] (stores : Stores key hash m f) (larger : m.buckets < new) :
    ∃ m', rehash m new = .ok m' ∧ Holds key hash m' f ∧ m'.buckets = new ∧ m'.entries = m.entries ∧
      m'.freed = m.freed := by
  have start : Moved key hash m new 0 { m with data := fun _ => .empty, buckets := new, entries := 0 } := by
    refine ⟨⟨fun _ => none, ⟨?_, nofun, represents_empty key hash new, ?_⟩, by simp⟩, rfl, rfl, rfl⟩
    · exact ⟨stores.keyed.hash, stores.keyed.cmp, stores.keyed.free⟩
    · simp [occupied, table, stored]
  obtain ⟨m', run, moved⟩ := Result.foldlM_range (fun j m' inside => Moved.reinsert stores larger inside) start
  obtain ⟨g, held, holds⟩ := moved.holds
  have same : g = f := by
    funext k
    ext e
    rw [holds, stores.represents.stores]
  exact ⟨m', run, same ▸ held, moved.buckets, moved.entries.trans stores.entries.symm, moved.freed⟩

end Petix.Proof.Container
