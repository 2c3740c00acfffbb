import Petix.Proof.Fs.Lookup
import Petix.Spec.Lookup

namespace Petix.Proof.Fs
open Function List Library Kernel.Mounts Kernel.Vfs Spec.Mounts Spec.Lookup
open Kernel.Lookup hiding Fault
open Kernel.Tmpfs (Heap)

variable {buf : Buffer} {str : Nat} {p rest : List Byte}
variable {ends : Bool} {word : Name}

theorem stripped_eq_nil : stripped p = [] ↔ components p = [] := by
  rw [stripped, dropWhile_eq_nil_iff, components, words_eq_nil_iff]

theorem components_behind (first : components p = name :: more) : components (behind p) = more := by
  obtain ⟨none, -⟩ | ⟨_, _, _, rfl, only, some, inside, after⟩ := words_cases (· == slash) p
  · cases none.symm.trans first
  · obtain ⟨rfl, comps⟩ | ⟨s, _, rfl, here, comps⟩ := after
    · obtain ⟨-, rfl⟩ := cons.inj (comps.symm.trans first)
      rw [behind_eq only some inside (.inl rfl)]
      rfl
    · obtain ⟨-, rfl⟩ := cons.inj (comps.symm.trans first)
      obtain rfl : s = slash := by simpa using here
      rw [behind_eq only some inside (.inr rfl)]
      rfl

theorem length_behind (p : List Byte) : (behind p).length ≤ p.length := by
  rw [behind, length_drop]
  have inner := (dropWhile_sublist (l := p.dropWhile (· == slash)) (· != slash)).length_le
  have outer := (dropWhile_sublist (l := p) (· == slash)).length_le
  omega

theorem behind_terminated (terminated : 0 ∉ p) : 0 ∉ behind p := by
  intro member
  have inner := (dropWhile_sublist _).mem (mem_of_mem_drop member)
  exact terminated ((dropWhile_sublist _).mem inner)

theorem stripped_terminated (terminated : 0 ∉ p) : 0 ∉ stripped p :=
  fun member => terminated ((dropWhile_sublist _).mem member)

theorem upToLast_of_not_mem (none : ∀ a ∈ rest, a ≠ slash) : upToLast rest = [] := by
  rw [upToLast, reverse_eq_nil_iff, dropWhile_eq_nil_iff]
  intro a member
  exact bne_iff_ne.mpr (none a (mem_reverse.mp member))

theorem upToLast_append (front rest : List Byte) : upToLast (front ++ slash :: rest) = front ++ slash :: upToLast rest
    := by
  rw [upToLast, upToLast, reverse_append, reverse_cons, append_assoc, dropWhile_append]
  split
  · rename_i empty
    rw [List.isEmpty_iff] at empty
    rw [empty]
    simp
  · simp

theorem upToLast_word {delims word : List Byte} (only : ∀ a ∈ delims, a = slash) (inner : ∀ a ∈ word, a ≠ slash) :
    upToLast (delims ++ word) = delims := by
  induction delims with
  | nil => exact upToLast_of_not_mem inner
  | cons a delims ih =>
    obtain ⟨rfl, others⟩ := forall_mem_cons.mp only
    exact (upToLast_append [] (delims ++ word)).trans (congrArg (slash :: ·) (ih others))

structure Fills (buf : Buffer) (str : Nat) (rest : List Byte) : Prop where
  text : Text buf str rest
  whole : str + rest.length = pathMax

theorem skipWhile_past {more : Byte → Bool} {left : Nat} (go : ∀ i < left, more (buf (str + i)) = true) :
    skipWhile more buf left str = .error .pastBuffer := by
  induction left generalizing str with
  | zero => rfl
  | succ left ih =>
    have first : more (buf str) = true := go 0 (by omega)
    rw [skipWhile, if_pos first]
    apply ih
    intro i _
    rw [Nat.add_assoc, Nat.add_comm 1]
    exact go (i + 1) (by omega)

theorem Fills.update {place : Nat} (fills : Fills buf str rest) (before : place < str) :
    Fills (update buf place 0) str rest := by
  refine ⟨fun i inside => ?_, fills.whole⟩
  rw [update_of_ne (by omega), fills.text i inside]

theorem strtokR_fills (fills : Fills buf str rest) (terminated : 0 ∉ rest) :
    (components (upToLast rest) = [] ∧ strtokR buf str = .error .pastBuffer) ∨
      ∃ gone rest' i buf', rest = gone ++ rest' ∧ gone ≠ [] ∧
        strtokR buf str = .ok (some (i, str + gone.length, buf')) ∧
        components (upToLast rest) = cstr buf' (pathMax - i) i :: components (upToLast rest') ∧
        Fills buf' (str + gone.length) rest' ∧ ∀ extra, behind (rest ++ extra) = rest' ++ extra := by
  obtain ⟨text, whole⟩ := fills
  rw [strtokR_eq_token]
  obtain ⟨-, only⟩ | ⟨delims, word, _, rfl, only, some, inside, after⟩ := words_cases (· == slash) rest
  · have all : upToLast rest = rest := by
      simpa using upToLast_word (by simpa using only) (show ∀ a ∈ [], a ≠ slash by simp)
    refine .inl ⟨?_, ?_⟩
    · rw [all, components, words_of_seps only]
    · rw [token, skipWhile_past fun i below => text.holds _ terminated only i (by omega)]
      rfl
  · have inner : ∀ a ∈ word, a ≠ slash := by simpa using inside
    rw [← append_assoc] at text whole terminated
    rw [mem_append, not_or] at terminated
    have word0 := (not_or.mp (mem_append.not.mp terminated.1)).2
    obtain ⟨rfl, -⟩ | ⟨s, more, rfl, here, -⟩ := after
    · rw [append_nil] at text whole ⊢
      have positive := length_pos_iff.mpr some
      rw [length_append] at whole
      refine .inl ⟨?_, ?_⟩
      · rw [upToLast_word (by simpa using only) inner, components, words_of_seps only]
      · rw [token_start only terminated.1 some inside text (by omega), skipWhile_past fun i below =>
          text.drop.holds (!· == slash) word0 (fun a member => by rw [inside a member]; rfl) i (by omega)]
        rfl
    · obtain rfl : s = slash := by simpa using here
      have stop : buf (str + (delims ++ word).length) = slash := text.drop 0 (by simp)
      have longer : (delims ++ word ++ [slash]).length = (delims ++ word).length + 1 := length_append
      rw [length_append, length_cons] at whole
      have scanned := token_scanned only terminated.1 some inside text.front rfl
        (fun _ => stop.symm ▸ here) (show _ < pathMax by omega)
      rw [stop, if_neg (by decide)] at scanned
      refine .inr ⟨delims ++ word ++ [slash], more, str + delims.length,
        update buf (str + (delims ++ word).length) 0, by simp, by simp, ?_, ?_, ?_, fun extra => ?_⟩
      · rw [longer]
        exact scanned
      · rw [cstr_token text.front word0 (fun i below => update_of_ne (Nat.ne_of_lt below) ..)
          (update_self ..) (by omega), ← append_assoc, upToLast_append, append_assoc, components,
          words_seps_append only, words_cons some inside here]
        rfl
      · rw [← singleton_append, ← append_assoc] at text
        refine Fills.update ⟨text.drop, ?_⟩ ?_
        · omega
        · omega
      · rw [append_assoc, append_assoc, behind_eq only some inside (.inr rfl)]
        rfl

inductive Ahead (buf : Buffer) (str : Nat) (rest : List Byte) : (ends : Bool) → Prop
  | ends (holds : Holds buf str rest) (fits : str + rest.length < pathMax) : Ahead buf str rest true
  | full (fills : Fills buf str rest) : Ahead buf str rest false

def ahead (ends : Bool) (rest : List Byte) : List Name := components (if ends then rest else upToLast rest)

theorem strtokR_ahead (here : Ahead buf str rest ends) (terminated : 0 ∉ rest) :
    (ahead ends rest = [] ∧ strtokR buf str = if ends then .ok none else .error .pastBuffer) ∨
      ∃ gone rest' i buf', rest = gone ++ rest' ∧ gone ≠ [] ∧
        strtokR buf str = .ok (some (i, str + gone.length, buf')) ∧
        ahead ends rest = cstr buf' (pathMax - i) i :: ahead ends rest' ∧ Ahead buf' (str + gone.length) rest' ends ∧
        ∀ extra, (ends = true → extra = []) → behind (rest ++ extra) = rest' ++ extra := by
  cases here with
  | ends holds fits =>
    obtain done | ⟨gone, rest', i, buf', split, some, token, comps, holds', next⟩ := strtokR_spec holds terminated fits
    · exact .inl done
    · rw [split, length_append] at fits
      refine .inr ⟨gone, rest', i, buf', split, some, token, comps, .ends holds' (by omega), ?_⟩
      intro extra none
      rw [none rfl, append_nil, append_nil, next]
  | full fills =>
    obtain done | ⟨gone, rest', i, buf', split, some, token, comps, fills', next⟩ := strtokR_fills fills terminated
    · exact .inl done
    · exact .inr ⟨gone, rest', i, buf', split, some, token, comps, .full fills', fun extra _ => next extra⟩

theorem strncpy_ahead (p : List Byte) : Ahead (strncpy p pathMax) 0 (p.take pathMax) (decide (p.length < pathMax)) := by
  by_cases short : p.length < pathMax
  · rw [decide_eq_true short, take_of_length_le short.le]
    exact .ends (holds_strncpy short) (by omega)
  · rw [decide_eq_false short]
    refine .full ⟨fun i inside => ?_, ?_⟩
    · rw [strncpy, Nat.zero_add]
    · rw [length_take, Nat.zero_add]
      omega

theorem ahead_take (p : List Byte) : ahead (decide (p.length < pathMax)) (p.take pathMax) = seen p := by
  rw [ahead, seen]
  by_cases short : p.length < pathMax
  · rw [decide_eq_true short, if_pos short, take_of_length_le short.le]
    rfl
  · rw [decide_eq_false short, if_neg short]
    rfl

def bootTree : MountNode FsInst :=
  ⟨true, .tarfs, .node tmp true .tmpfs false .null (.node dev true .devfs false .null .null)⟩

theorem kmainMounts_eq (junk : FsInst) : kmainMounts junk = .ok bootTree := rfl

theorem strncmp_short {name : Name} (ends : 0 ∉ name) (ends' : 0 ∉ word) (short : name.length < fileNameLen) :
    strncmp name word fileNameLen = 0 ↔ word = name := by
  rw [strncmp_eq_zero_iff ends ends', take_of_length_le short.le]
  constructor
  · intro same
    have length := congrArg length same
    rw [length_take] at length
    rw [same, take_of_length_le (by omega)]
  · rintro rfl
    rw [take_of_length_le short.le]

theorem findChild_boot (terminated : 0 ∉ word) :
    findChild word bootTree.child = .ok ((mountOf word).map fun inst => ⟨true, inst, .null⟩) := by
  have isTmp := strncmp_short (show 0 ∉ tmp by decide) terminated (by decide)
  have isDev := strncmp_short (show 0 ∉ dev by decide) terminated (by decide)
  rw [bootTree, findChild, findChild, findChild, mountOf]
  simp only [isTmp, isDev, Bool.false_eq_true, if_false]
  split
  · rfl
  · split
    · rfl
    · rfl

theorem getfsLoop_null {fuel : Nat} (here : Ahead buf str rest ends) (terminated : 0 ∉ rest)
    (goes : fuel ≠ 0) (found : Option (FsInst × Nat)) : getfsLoop fuel buf str .null found =
      if ahead ends rest = [] ∧ ends = false then .error .pastBuffer else .ok found := by
  obtain ⟨-, rfl⟩ := Nat.exists_eq_succ_of_ne_zero goes
  rw [getfsLoop]
  obtain ⟨none, done⟩ | ⟨_, _, _, _, -, -, token, comps, -⟩ := strtokR_ahead here terminated
  · rw [done, none]
    cases ends with
    | true => rfl
    | false => rfl
  · rw [token, comps, if_neg (by simp)]
    rfl

theorem fsGetfs_boot (terminated : 0 ∉ p) :
    (fsGetfs bootTree p).map (Option.map fun found => (found.1, p.drop found.2)) = (route p).map some := by
  have terminated' : 0 ∉ p.take pathMax := fun member => terminated (mem_of_mem_take member)
  rw [fsGetfs, getfsLoop, route, ← ahead_take]
  obtain ⟨none, done⟩ | ⟨gone, rest', i, buf', split, some, token, comps, next, back⟩ :=
    strtokR_ahead (strncpy_ahead p) terminated'
  · rw [done, none]
    by_cases short : p.length < pathMax
    · simp only [short, decide_true, if_true]
      rfl
    · simp only [short, decide_false, if_false]
      rfl
  · have left : p.drop gone.length = behind p := by
      have whole : p.take pathMax ++ p.drop pathMax = p := take_append_drop ..
      have nothing : decide (p.length < pathMax) = true → p.drop pathMax = [] := by
        intro short
        exact drop_eq_nil_of_le (of_decide_eq_true short).le
      have parts : p = gone ++ (rest' ++ p.drop pathMax) := by rw [← append_assoc, ← split, whole]
      calc
        p.drop gone.length = (gone ++ (rest' ++ p.drop pathMax)).drop gone.length := congrArg (drop _) parts
        _ = rest' ++ p.drop pathMax := drop_left
        _ = behind (p.take pathMax ++ p.drop pathMax) := (back _ nothing).symm
        _ = behind p := by rw [whole]
    rw [token, comps, Result.ok_bind]
    dsimp only
    rw [findChild_boot (cstr_terminated _ _ _), Result.ok_bind]
    cases mountOf (cstr buf' (pathMax - i) i) with
    | none => rfl
    | some inst =>
      have terminated'' : 0 ∉ rest' := by
        rw [split, mem_append, not_or] at terminated'
        exact terminated'.2
      rw [Option.map_some]
      dsimp only
      rw [getfsLoop_null next terminated'' (by decide), if_pos rfl]
      simp only [decide_eq_false_iff_not, not_lt]
      split
      · rfl
      · rw [← left, Nat.zero_add]
        rfl

variable {σ : Type}

def lookupIn (heap : Heap) (fs : FileSystems σ) (stack : Buffer) (inode : Inode FsInst) : FsInst × List Byte →
    Except Kernel.Lookup.Fault (Int × Inode FsInst × FileSystems σ)
  | (.tarfs, p2) => lookupWhole fs (Kernel.Tar.getroot .tarfs) (tarLookupAll fs stack) p2 inode
  | (.devfs, p2) =>
    lookupWhole fs devGetroot (fun path inode => .ok ((devLookupAll path inode).1, (devLookupAll path inode).2, fs)) p2
      inode
  | (.tmpfs, p2) => lookupEach heap fs p2

theorem fsLookup_boot {fs : FileSystems σ} (boot : fs.mounts = bootTree) (terminated : 0 ∉ p) (heap : Heap)
    (stack : Buffer) (inode : Inode FsInst) :
    fsLookup heap fs p stack inode = ((route p).mapError .inMounts >>= lookupIn heap fs stack inode) := by
  have routed := fsGetfs_boot terminated
  rw [fsLookup, boot]
  cases getfs : fsGetfs bootTree p with
  | error fault =>
    rw [getfs] at routed
    cases way : route p with
    | error fault' =>
      rw [way] at routed
      cases routed
      rfl
    | ok found =>
      rw [way] at routed
      cases routed
  | ok found =>
    rw [getfs] at routed
    cases way : route p with
    | error fault' =>
      rw [way] at routed
      cases routed
    | ok found' =>
      rw [way] at routed
      obtain ⟨⟨inst, -⟩, rfl, rfl⟩ := Option.map_eq_some_iff.mp (Except.ok.inj routed)
      cases inst with
      | tarfs => rfl
      | devfs => rfl
      | tmpfs => rfl

end Petix.Proof.Fs
