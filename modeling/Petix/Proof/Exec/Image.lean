import Mathlib.Data.List.GetD
import Petix.Library.Result
import Petix.Proof.Exec.Segments
import Petix.Proof.Kmalloc.Service
import Petix.Proof.Kmalloc.Strings

namespace Petix.Proof.Exec
open Function List Library Kernel.Kmalloc Kernel.Exec Spec.Kmalloc Spec.Exec Proof.Kmalloc

variable {m m' : Memory} {args : List (List Byte)} {s : List Byte} {argv p n i fuel target : Nat}
variable {j limit x copy : Nat} {h₁ h₀ : Heap} {c : Client}

theorem holdsString_congr (holds : HoldsString m p s) (same : ∀ x, p ≤ x → x ≤ p + s.length → m' x = m x) :
    HoldsString m' p s :=
  fun i le => (same (p + i) (by omega) (by omega)).trans (holds i le)

theorem strlen_holds (holds : HoldsString m p s) (nonzero : 0 ∉ s) (short : s.length < 2 ^ 32) :
    strlen m p = some s.length := by
  refine strlen_eq ⟨fun i less zero => nonzero ?_, ?_, short⟩
  · rw [holds i (Nat.le_of_lt less), getD_eq_getElem s 0 less] at zero
    exact zero ▸ getElem_mem less
  · rw [holds s.length (Nat.le_refl _), getD_eq_default s 0 (Nat.le_refl _)]

theorem holdsString_copy (holds : HoldsString m p s)
    (apart : target + (s.length + 1) ≤ p ∨ p + (s.length + 1) ≤ target) :
    HoldsString (m.copy target p (s.length + 1)) target s := by
  intro i le
  rw [Memory.copy_inside m apart (by omega)]
  exact holds i le

@[simp] theorem stringBytes_zero : stringBytes args 0 = 0 := rfl

theorem stringBytes_succ (less : i < args.length) :
    stringBytes args (i + 1) = stringBytes args i + ((args.getD i []).length + 1) := by
  rw [stringBytes, take_succ_eq_append_getElem less, map_append, sum_append,
    getD_eq_getElem args [] less]
  simp [stringBytes]

theorem stringBytes_mono (le : i ≤ j) (inside : j ≤ args.length) : stringBytes args i ≤ stringBytes args j := by
  induction j, le using Nat.le_induction with
  | base => exact Nat.le_refl _
  | succ j le ih =>
    rw [stringBytes_succ inside]
    omega

theorem countArgs_eq (pointers : ∀ i < n, m.read 4 (argv + 4 * i) ≠ 0) (null : m.read 4 (argv + 4 * n) = 0)
    (reached : i ≤ n) (enough : n < i + fuel) : countArgs m argv fuel i = some n := by
  induction fuel generalizing i with
  | zero => omega
  | succ fuel ih =>
    rw [countArgs]
    by_cases last : i = n
    · rw [last, if_pos null]
    · rw [if_neg (pointers i (by omega))]
      exact ih (by omega) (by omega)

theorem argCount_eq (passes : Passes m argv args) (short : args.length < 2 ^ 30) :
    argCount m argv = some args.length := by
  unfold argCount
  rcases passes with ⟨null, none⟩ | ⟨nonnull, array⟩
  · rw [if_pos null, none]
    rfl
  · rw [if_neg nonnull]
    exact countArgs_eq array.pointers array.null (Nat.zero_le _) (by omega)

/-- The heap holds the array `tmp` and, from `lo` to `hi`, the copies to which it points, apart from each other and from
what was `held` before. -/
structure Copies (floor : Nat) (held : List (Nat × Nat)) (args : List (List Byte)) (tmp : Nat) (ptr : Nat → Nat)
    (lo hi : Nat) (live : List (Nat × Nat)) (h : Heap) : Prop where
  serving : Serving floor userBase h live
  array : (tmp, 4 * args.length) ∈ live
  others : ∀ e ∈ held, e ∈ live ∧ e.1 ≠ tmp
  copy : ∀ j, lo ≤ j → j < hi → (ptr j, (args.getD j []).length + 1) ∈ live
  apart : ∀ j, lo ≤ j → j < hi → tmp ≠ ptr j ∧ ∀ e ∈ held, e.1 ≠ ptr j
  distinct : ∀ j k, lo ≤ j → j < hi → lo ≤ k → k < hi → j ≠ k → ptr j ≠ ptr k
  slot : ∀ j, lo ≤ j → j < hi → h.mem.read 4 (tmp + 4 * j) = ptr j
  text : ∀ j, lo ≤ j → j < hi → HoldsString h.mem (ptr j) (args.getD j [])

variable {floor tmp lo hi : Nat} {held live : List (Nat × Nat)} {ptr : Nat → Nat} {h h' : Heap}

theorem spared_of_subset (subset : ∀ e ∈ held, e ∈ live) (spared : Spared floor limit held x) :
    Spared floor limit live x := by
  refine spared.imp_right fun rest => rest.imp_right ?_
  rintro ⟨e, member, inside⟩
  exact ⟨e, subset e member, inside⟩

theorem spared_within {e : Nat × Nat} (member : e ∈ live) (low : e.1 ≤ x) (high : x < e.1 + e.2) :
    Spared floor limit live x :=
  .inr (.inr ⟨e, member, low, high⟩)

theorem Copies.array_off (copies : Copies floor held args tmp ptr lo hi live h)
    (spared : Spared floor userBase held x) : x < tmp ∨ tmp + 4 * args.length ≤ x :=
  copies.serving.spared_off copies.array copies.others spared

theorem Copies.retain {old live' : List (Nat × Nat)} {lo' : Nat}
    (copies : Copies floor held args tmp ptr lo hi live h) (serving : Serving floor userBase h' live')
    (subset : ∀ e ∈ old, e ∈ live') (array : (tmp, 4 * args.length) ∈ old) (others : ∀ e ∈ held, e ∈ old)
    (copy : ∀ j, lo' ≤ j → j < hi → (ptr j, (args.getD j []).length + 1) ∈ old) (later : lo ≤ lo')
    (bound : hi ≤ args.length) (inner : i < args.length) (skip : ∀ j, lo' ≤ j → j < hi → j ≠ i)
    (same : ∀ x, Within old x → x < tmp + 4 * i ∨ tmp + 4 * i + 4 ≤ x → h'.mem x = h.mem x) :
    Copies floor held args tmp ptr lo' hi live' h' where
  serving := serving
  array := subset _ array
  others e member := ⟨subset e (others e member), (copies.others e member).2⟩
  copy j low high := subset _ (copy j low high)
  apart j low high := copies.apart j (by omega) high
  distinct j k lowJ highJ lowK highK := copies.distinct j k (by omega) highJ (by omega) highK
  slot j low high := by
    have other := skip j low high
    rw [← copies.slot j (by omega) high]
    refine Memory.read_congr fun x first last => same x ⟨_, array, ?_⟩ ?_
    · omega
    · omega
  text j low high := by
    have member := copy j low high
    have apart := serving.apart (subset _ array) (subset _ member) (copies.apart j (by omega) high).1
    refine holdsString_congr (copies.text j (by omega) high) fun x first last => same x ⟨_, member, ?_⟩ ?_
    · omega
    · omega

theorem Copies.extend (copies : Copies floor held args tmp ptr 0 i live h)
    (member : (copy, (args.getD i []).length + 1) ∈ live) (array : tmp ≠ copy) (others : ∀ e ∈ held, e.1 ≠ copy)
    (fresh : ∀ j < i, ptr j ≠ copy) (slot : h.mem.read 4 (tmp + 4 * i) = copy)
    (text : HoldsString h.mem copy (args.getD i [])) :
    Copies floor held args tmp (update ptr i copy) 0 (i + 1) live h := by
  have cases {P : Nat → Nat → Prop} (old : ∀ j < i, P j (ptr j)) (new : P i copy) (j : Nat) (less : j < i + 1) :
      P j (update ptr i copy j) := by
    by_cases last : j = i
    · rw [last, update_self]
      exact new
    · rw [update_of_ne last]
      exact old j (by omega)
  constructor
  · exact copies.serving
  · exact copies.array
  · exact copies.others
  · exact fun j _ => cases (P := fun j p => (p, (args.getD j []).length + 1) ∈ live)
      (fun j less => copies.copy j (Nat.zero_le _) less) member j
  · exact fun j _ => cases (P := fun _ p => tmp ≠ p ∧ ∀ e ∈ held, e.1 ≠ p)
      (fun j less => copies.apart j (Nat.zero_le _) less) ⟨array, others⟩ j
  · intro j k _ lessJ _ lessK
    refine cases (P := fun j p => j ≠ k → p ≠ update ptr i copy k) (fun j before other => ?_) (fun other => ?_)
      j lessJ
    · refine cases (P := fun k p => j ≠ k → ptr j ≠ p) (fun k before' other => ?_) (fun _ => fresh j before) k lessK other
      exact copies.distinct j k (Nat.zero_le _) before (Nat.zero_le _) before' other
    · refine cases (P := fun k p => i ≠ k → copy ≠ p) (fun k before _ => (fresh k before).symm) (fun same => ?_) k lessK
        other
      exact absurd rfl same
  · exact fun j _ => cases (P := fun j p => h.mem.read 4 (tmp + 4 * j) = p)
      (fun j less => copies.slot j (Nat.zero_le _) less) slot j
  · exact fun j _ => cases (P := fun j p => HoldsString h.mem p (args.getD j []))
      (fun j less => copies.text j (Nat.zero_le _) less) text j

theorem saveArg_eq (holds : HoldsString h.mem p s) (nonzero : 0 ∉ s)
    (short : s.length < 2 ^ 32) (word : copy < 2 ^ 32) (read : h.mem.read 4 (argv + 4 * i) = p)
    (call : h.kmalloc (s.length + 1) = some (copy, h₁))
    (again : (h₁.mem.write 4 (tmp + 4 * i) copy).read 4 (argv + 4 * i) = p) : saveArg argv tmp h i =
      some { h₁ with mem := (h₁.mem.write 4 (tmp + 4 * i) copy).copy copy p (s.length + 1) } := by
  have slot : (h₁.mem.write 4 (tmp + 4 * i) copy).read 4 (tmp + 4 * i) = copy := by
    rw [Memory.read_write_same, Nat.mod_eq_of_lt (by omega)]
  rw [saveArg, read, strlen_holds holds nonzero short, Option.bind_eq_bind, Option.bind_some]
  dsimp only
  rw [call, Option.bind_eq_bind, Option.bind_some]
  rw [slot, again]

theorem Copies.save (copies : Copies floor c.live args tmp ptr 0 i live h)
    (kept : ∀ x, Spared floor userBase c.live x → h.mem x = c.heap.mem x)
    (array : ArgvAt c.heap.mem argv args) (source : ∀ x, Source c.heap.mem argv args x → Spared floor userBase c.live x)
    (nonnull : argv ≠ 0) (nonzero : 0 ∉ args.getD i []) (less : i < args.length)
    (room : h.breakptr + 31 + ((args.getD i []).length + 1) ≤ userBase) :
    ∃ h', saveArg argv tmp h i = some h' ∧ h'.breakptr ≤ h.breakptr + 31 + ((args.getD i []).length + 1) ∧
      (∀ x, Spared floor userBase c.live x → h'.mem x = c.heap.mem x) ∧
      ∃ ptr live, Copies floor c.live args tmp ptr 0 (i + 1) live h' := by
  generalize text : args.getD i [] = s at *
  generalize pointer : c.heap.mem.read 4 (argv + 4 * i) = p
  have top : userBase < 2 ^ 32 := by decide
  obtain ⟨copy, h₁, call, allocated⟩ := copies.serving.kmalloc (show s.length + 1 ≠ 0 by omega)
  have brk := (kmalloc_breakptr call).2
  obtain ⟨serving₁, frame₁⟩ := allocated (by omega)
  have inside := serving₁.inside (.head _)
  have fresh {e : Nat × Nat} (member : e ∈ live) : e.1 ≠ copy := serving₁.fresh member
  -- bytes that belong to someone else, seen from the new block
  have off {x : Nat} (spared : Spared floor userBase live x) : x < copy ∨ copy + (s.length + 1) ≤ x :=
    serving₁.spared_off (.head _) (fun e member => ⟨.tail _ member, fresh member⟩) spared
  have subset {x : Nat} : Spared floor userBase c.live x → Spared floor userBase live x :=
    spared_of_subset fun e member => (copies.others e member).1
  have before (x : Nat) (spared : Spared floor userBase live x) (slot : x < tmp + 4 * i ∨ tmp + 4 * i + 4 ≤ x) :
      (h₁.mem.write 4 (tmp + 4 * i) copy) x = h.mem x :=
    (Memory.write_outside _ _ _ _ x (by omega)).trans (frame₁ x spared)
  have same (x : Nat) (spared : Spared floor userBase c.live x) :
      (h₁.mem.write 4 (tmp + 4 * i) copy) x = c.heap.mem x := by
    have := copies.array_off spared
    exact (before x (subset spared) (by omega)).trans (kept x spared)
  have string (x : Nat) (low : p ≤ x) (high : x ≤ p + s.length) : Spared floor userBase c.live x := by
    refine source x ⟨nonnull, .inr ⟨i, less, ?_⟩⟩
    rw [pointer, text]
    exact ⟨low, high⟩
  have holds : HoldsString c.heap.mem p s := by
    have := array.strings i less
    rwa [pointer, text] at this
  have readSource {m : Memory} (agree : ∀ x, Spared floor userBase c.live x → m x = c.heap.mem x) :
      m.read 4 (argv + 4 * i) = p := by
    rw [← pointer]
    refine Memory.read_congr fun x low high => agree x (source x ⟨nonnull, .inl ?_⟩)
    omega
  have disjoint : copy + (s.length + 1) ≤ p ∨ p + (s.length + 1) ≤ copy := by
    by_contra overlap
    have := off (subset (string (max p copy) (by omega) (by omega)))
    omega
  have run := saveArg_eq (holdsString_congr holds fun x low high => kept x (string x low high)) nonzero
    (by omega) (by omega) (readSource kept) call (readSource same)
  generalize made : (h₁.mem.write 4 (tmp + 4 * i) copy).copy copy p (s.length + 1) = m at run
  have after (x : Nat) (spared : Spared floor userBase live x) (slot : x < tmp + 4 * i ∨ tmp + 4 * i + 4 ≤ x) :
      m x = h.mem x := by
    rw [← made]
    exact (Memory.copy_outside _ _ _ _ x (off spared)).trans (before x spared slot)
  have served : Serving floor userBase { h₁ with mem := m } ((copy, s.length + 1) :: live) := by
    refine serving₁.store fun x outside _ => ?_
    have offCopy : x < copy ∨ copy + (s.length + 1) ≤ x := by
      by_contra within
      exact outside ⟨_, .head _, by omega⟩
    have offArray : x < tmp ∨ tmp + 4 * args.length ≤ x := by
      by_contra within
      exact outside ⟨_, .tail _ copies.array, by omega⟩
    rw [← made, Memory.copy_outside _ _ _ _ x offCopy, Memory.write_outside _ _ _ _ x (by omega)]
  have retained : Copies floor c.live args tmp ptr 0 i ((copy, s.length + 1) :: live) { h₁ with mem := m } := by
    apply copies.retain served (fun e member => .tail _ member) copies.array
      (fun e member => (copies.others e member).1) copies.copy (Nat.le_refl _) (Nat.le_of_lt less) less
    · exact fun j _ before => Nat.ne_of_lt before
    · rintro x ⟨e, member, inside⟩ slot
      exact after x (.inr (.inr ⟨e, member, inside⟩)) slot
  have slot : m.read 4 (tmp + 4 * i) = copy := by
    have bytes : m.read 4 (tmp + 4 * i) = (h₁.mem.write 4 (tmp + 4 * i) copy).read 4 (tmp + 4 * i) := by
      refine Memory.read_congr fun x low high => ?_
      rw [← made]
      refine Memory.copy_outside _ _ _ _ _ (off (spared_within copies.array ?_ ?_))
      · omega
      · omega
    rw [bytes, Memory.read_write_same, Nat.mod_eq_of_lt (by omega)]
  have string₁ : HoldsString m copy s := by
    rw [← made]
    exact holdsString_copy (holdsString_congr holds fun x low high => same x (string x low high)) disjoint
  refine ⟨_, run, brk, fun x spared => ?_, _, _, retained.extend ?_ (fresh copies.array) (fun e member => ?_)
    (fun j before => fresh (copies.copy j (Nat.zero_le _) before)) slot ?_⟩
  · have := copies.array_off spared
    exact (after x (subset spared) (by omega)).trans (kept x spared)
  · rw [text]
    exact .head _
  · exact fresh (copies.others e member).1
  · rwa [text]

def stackArg (args : List (List Byte)) (j : Nat) : Nat := userStackTop - stringBytes args (j + 1)

structure Pushed (args : List (List Byte)) (tmp i : Nat) (m : Memory) : Prop where
  slot : ∀ j < i, m.read 4 (tmp + 4 * j) = stackArg args j
  text : ∀ j < i, HoldsString m (stackArg args j) (args.getD j [])

theorem stackArg_bounds (room : userBase + imageSize args ≤ userStackTop) (less : j < args.length) :
    userBase + 4 * (args.length + 1) + 4 ≤ stackArg args j ∧
      stackArg args j + ((args.getD j []).length + 1) = userStackTop - stringBytes args j := by
  have mono := stringBytes_mono (show j + 1 ≤ args.length by omega) (Nat.le_refl args.length)
  have next := stringBytes_succ less
  unfold imageSize at room
  unfold stackArg
  omega

theorem stackArg_below {j k : Nat} (room : userBase + imageSize args ≤ userStackTop) (less : j < k)
    (inside : k < args.length) : stackArg args k + ((args.getD k []).length + 1) ≤ stackArg args j := by
  have mono := @stringBytes_mono args (j + 1) k (by omega) (by omega)
  rw [(stackArg_bounds room inside).2]
  unfold stackArg
  omega

theorem pushArg_eq {sp sp' : Nat} (holds : HoldsString h.mem p s) (nonzero : 0 ∉ s) (short : s.length < 2 ^ 32)
    (read : h.mem.read 4 (tmp + 4 * i) = p) (next : sub32 sp (s.length + 1) = sp')
    (again : (h.mem.copy sp' p (s.length + 1)).read 4 (tmp + 4 * i) = p)
    (freed : ({ h with mem := h.mem.copy sp' p (s.length + 1) } : Heap).kfree p = h₁) :
    pushArg tmp (sp, h) i = some (sp', { h₁ with mem := h₁.mem.write 4 (tmp + 4 * i) sp' }) := by
  rw [pushArg]
  dsimp only
  rw [read, strlen_holds holds nonzero short, Option.bind_eq_bind, Option.bind_some, next, again, freed]

theorem Copies.push (copies : Copies floor held args tmp ptr i args.length live h)
    (pushed : Pushed args tmp i h.mem) (nonzero : 0 ∉ args.getD i []) (less : i < args.length)
    (room : userBase + imageSize args ≤ userStackTop) : ∃ h', pushArg tmp (userStackTop - stringBytes args i, h) i =
        some (userStackTop - stringBytes args (i + 1), h') ∧ Pushed args tmp (i + 1) h'.mem ∧
      (∀ x, Within held x → h'.mem x = h.mem x) ∧
      Copies floor held args tmp ptr (i + 1) args.length (dropLive live (ptr i)) h' := by
  have bounds := stackArg_bounds room less
  have below {j : Nat} (earlier : j < i) := stackArg_below room earlier less
  have top : userStackTop < 2 ^ 32 := by decide
  have next : sub32 (userStackTop - stringBytes args i) ((args.getD i []).length + 1) = stackArg args i := by
    rw [sub32_eq (by omega) (by omega)]
    omega
  have member := copies.copy i (Nat.le_refl _) less
  have inside := copies.serving.inside member
  have array := copies.serving.inside copies.array
  have holds := copies.text i (Nat.le_refl _) less
  generalize made : h.mem.copy (stackArg args i) (ptr i) ((args.getD i []).length + 1) = m₁
  have copied (x : Nat) (outside : x < stackArg args i ∨ userStackTop - stringBytes args i ≤ x) : m₁ x = h.mem x := by
    rw [← made]
    exact Memory.copy_outside _ _ _ _ x (by omega)
  have text : HoldsString m₁ (stackArg args i) (args.getD i []) := by
    rw [← made]
    exact holdsString_copy holds (by omega)
  have again : m₁.read 4 (tmp + 4 * i) = ptr i := by
    rw [← copies.slot i (Nat.le_refl _) less]
    exact Memory.read_congr fun x low high => copied x (by omega)
  have stored : Serving floor userBase { h with mem := m₁ } live :=
    copies.serving.store fun x _ high => copied x (by omega)
  obtain ⟨freed, frame⟩ := stored.kfree (mem_map_of_mem member)
  generalize release : ({ h with mem := m₁ } : Heap).kfree (ptr i) = h₁ at freed frame
  have run := pushArg_eq holds nonzero (by omega) (copies.slot i (Nat.le_refl _) less) next (made ▸ again)
    (made ▸ release)
  generalize wrote : h₁.mem.write 4 (tmp + 4 * i) (stackArg args i) = m₂ at run
  have arrayLive : (tmp, 4 * args.length) ∈ dropLive live (ptr i) :=
    stays_live copies.array (copies.apart i (Nat.le_refl _) less).1
  have heldLive (e : Nat × Nat) (memberE : e ∈ held) : e ∈ dropLive live (ptr i) :=
    stays_live (copies.others e memberE).1 ((copies.apart i (Nat.le_refl _) less).2 e memberE)
  have after (x : Nat) (spared : Spared floor userBase (dropLive live (ptr i)) x)
      (slot : x < tmp + 4 * i ∨ tmp + 4 * i + 4 ≤ x) : m₂ x = m₁ x := by
    rw [← wrote]
    exact (Memory.write_outside _ _ _ _ x (by omega)).trans (frame x spared)
  have within (x : Nat) (inside : Within (dropLive live (ptr i)) x)
      (slot : x < tmp + 4 * i ∨ tmp + 4 * i + 4 ≤ x) : m₂ x = h.mem x := by
    obtain ⟨e, memberE, low, high⟩ := inside
    have := freed.inside memberE
    rw [after x (spared_within memberE low high) slot, copied x (by omega)]
  have served : Serving floor userBase { h₁ with mem := m₂ } (dropLive live (ptr i)) := by
    refine freed.store fun x outside _ => ?_
    rw [← wrote]
    refine Memory.write_outside _ _ _ _ x ?_
    by_contra inside
    exact outside ⟨_, arrayLive, by dsimp only; omega⟩
  refine ⟨_, run, ⟨fun j le => ?_, fun j le => ?_⟩, fun x inside => ?_, ?_⟩
  · by_cases last : j = i
    · rw [last, ← wrote, Memory.read_write_same, Nat.mod_eq_of_lt (by omega)]
    · rw [← pushed.slot j (by omega)]
      refine Memory.read_congr fun x low high => within x ⟨_, arrayLive, ?_⟩ ?_
      · omega
      · omega
  · by_cases last : j = i
    · rw [last]
      exact holdsString_congr text fun x low high => after x (.inr (.inl (by omega))) (by omega)
    · have := @below j (by omega)
      refine holdsString_congr (pushed.text j (by omega)) fun x low high => ?_
      exact (after x (.inr (.inl (by omega))) (by omega)).trans (copied x (by omega))
  · obtain ⟨e, memberE, low, high⟩ := inside
    have apart := freed.apart (heldLive e memberE) arrayLive (copies.others e memberE).2
    exact within x ⟨e, heldLive e memberE, low, high⟩ (by omega)
  · apply copies.retain served (fun e memberE => memberE) arrayLive heldLive _ (Nat.le_succ i) (Nat.le_refl _) less
      (fun j low _ => by omega) within
    intro j _ high
    exact stays_live (copies.copy j (by omega) high)
      (copies.distinct j i (by omega) high (Nat.le_refl _) less (by omega))

def imageStart (args : List (List Byte)) : Nat := userStackTop - imageSize args

def arrayStored (args : List (List Byte)) (tmp : Nat) (m : Memory) : Memory :=
  ((m.write 4 (imageStart args + 4 + 4 * args.length) 0).copy (imageStart args + 4) tmp (4 * args.length)).write 4
    (imageStart args) args.length

theorem pushArray_eq (room : userBase + imageSize args ≤ userStackTop) :
    pushArray tmp args.length (userStackTop - stringBytes args args.length) h =
      (imageStart args, ({ h with mem := arrayStored args tmp h.mem } : Heap).kfree tmp) := by
  have top : userStackTop < 2 ^ 32 := by decide
  have start : imageStart args + imageSize args = userStackTop := by
    unfold imageStart
    omega
  unfold imageSize at start
  have null : sub32 (userStackTop - stringBytes args args.length) 4 = imageStart args + 4 + 4 * args.length := by
    rw [sub32_eq (by omega) (by omega)]
    omega
  have array : sub32 (imageStart args + 4 + 4 * args.length) (4 * args.length) = imageStart args + 4 := by
    rw [sub32_eq (by omega) (by omega)]
    omega
  have count : sub32 (imageStart args + 4) 4 = imageStart args := by
    rw [sub32_eq (by omega) (by omega)]
    omega
  rw [pushArray, null, array, count]
  rfl

theorem arrayStored_outside (room : userBase + imageSize args ≤ userStackTop)
    (outside : x < userBase ∨ userStackTop - stringBytes args args.length ≤ x) : arrayStored args tmp m x = m x := by
  have start : imageStart args + imageSize args = userStackTop := by
    unfold imageStart
    omega
  unfold imageSize at start room
  rw [arrayStored, Memory.write_outside _ _ _ _ x (by omega), Memory.copy_outside _ _ _ _ x (by omega),
    Memory.write_outside _ _ _ _ x (by omega)]

theorem arrayStored_decodes (pushed : Pushed args tmp args.length m)
    (room : userBase + imageSize args ≤ userStackTop) (below : tmp + 4 * args.length ≤ userBase) :
    Decodes (arrayStored args tmp m) (imageStart args) args := by
  have top : userStackTop < 2 ^ 32 := by decide
  have start : imageStart args + imageSize args = userStackTop := by
    unfold imageStart
    omega
  have size : imageSize args = stringBytes args args.length + 4 * (args.length + 1) + 4 := rfl
  have pointer (j : Nat) (less : j < args.length) :
      (arrayStored args tmp m).read 4 (imageStart args + 4 + 4 * j) = stackArg args j := by
    rw [← pushed.slot j less]
    refine Memory.read_shift fun k inner => ?_
    rw [arrayStored, Memory.write_outside _ _ _ _ _ (by omega), Nat.add_assoc (imageStart args + 4),
      Memory.copy_inside _ (by omega) (by omega), Memory.write_outside _ _ _ _ _ (by omega), Nat.add_assoc tmp]
  have bounds (j : Nat) (less : j < args.length) := stackArg_bounds room less
  constructor
  · refine (Memory.read_write_same _ _ _ _).trans (Nat.mod_eq_of_lt ?_)
    omega
  · refine ⟨fun j less => ?_, fun j less => ?_, ?_⟩
    · rw [startArgs, pointer j less]
      have := bounds j less
      omega
    · rw [startArgs, pointer j less]
      refine holdsString_congr (pushed.text j less) fun x low high => arrayStored_outside room ?_
      have := stringBytes_mono (show j + 1 ≤ args.length by omega) (Nat.le_refl args.length)
      unfold stackArg at low
      omega
    · rw [startArgs, arrayStored, Memory.read_write_disjoint _ _ (by omega)]
      refine (Memory.read_congr fun x low _ => ?_).trans (Memory.read_write_same m 4 _ 0)
      exact Memory.copy_outside _ _ _ _ x (by omega)
  · intro j less
    rw [startArgs, pointer j less]
    have := bounds j less
    have := stringBytes_mono (show j + 1 ≤ args.length by omega) (Nat.le_refl args.length)
    unfold stackArg at *
    omega
  · intro j less k before
    rw [startArgs, pointer j less, pointer k (by omega)]
    exact stackArg_below room before less

theorem decodes_congr {sp : Nat} (decodes : Decodes m sp args) (same : ∀ x, sp ≤ x → m' x = m x) :
    Decodes m' sp args := by
  have read (x : Nat) (above : sp ≤ x) : m'.read 4 x = m.read 4 x := Memory.read_congr fun y low _ => same y (by omega)
  have pointer (j : Nat) : m'.read 4 (sp + 4 + 4 * j) = m.read 4 (sp + 4 + 4 * j) := read _ (by omega)
  obtain ⟨argc, ⟨pointers, strings, null⟩, between, apart⟩ := decodes
  simp only [startArgs] at *
  refine ⟨(read sp (Nat.le_refl _)).trans argc, ⟨fun j less => ?_, fun j less => ?_, ?_⟩, fun j less => ?_,
    fun j less k before => ?_⟩
  · rw [startArgs, pointer]
    exact pointers j less
  · rw [startArgs, pointer]
    have := between j less
    exact holdsString_congr (strings j less) fun x low _ => same x (by omega)
  · rw [startArgs, pointer]
    exact null
  · rw [startArgs, pointer]
    exact between j less
  · rw [startArgs, pointer, pointer]
    exact apart j less k before

theorem arg_nonzero (nonzero : ∀ s ∈ args, 0 ∉ s) (less : i < args.length) : 0 ∉ args.getD i [] := by
  rw [getD_eq_getElem args [] less]
  exact nonzero _ (getElem_mem less)

theorem saveArgs_copies (copies : Copies floor c.live args tmp ptr 0 0 live h₀)
    (kept : ∀ x, Spared floor userBase c.live x → h₀.mem x = c.heap.mem x) (array : ArgvAt c.heap.mem argv args)
    (source : ∀ x, Source c.heap.mem argv args x → Spared floor userBase c.live x) (nonnull : argv ≠ 0)
    (nonzero : ∀ s ∈ args, 0 ∉ s) (room : h₀.breakptr + 31 * args.length + stringBytes args args.length ≤ userBase) :
    ∃ h, (range args.length).foldlM (saveArg argv tmp) h₀ = some h ∧
      (∀ x, Spared floor userBase c.live x → h.mem x = c.heap.mem x) ∧
      ∃ ptr live, Copies floor c.live args tmp ptr 0 args.length live h := by
  let inv (i : Nat) (h : Heap) : Prop := h.breakptr ≤ h₀.breakptr + 31 * i + stringBytes args i ∧
    (∀ x, Spared floor userBase c.live x → h.mem x = c.heap.mem x) ∧
    ∃ ptr live, Copies floor c.live args tmp ptr 0 i live h
  have step (i : Nat) (h : Heap) (less : i < args.length) (holds : inv i h) :
      ∃ h', saveArg argv tmp h i = some h' ∧ inv (i + 1) h' := by
    obtain ⟨_, kept, ptr, live, copies⟩ := holds
    have next := stringBytes_succ less
    have mono := stringBytes_mono (show i + 1 ≤ args.length from less) (Nat.le_refl args.length)
    obtain ⟨h', run, _, kept', copies'⟩ :=
      copies.save kept array source nonnull (arg_nonzero nonzero less) less (by omega)
    exact ⟨h', run, by omega, kept', copies'⟩
  obtain ⟨h, run, -, kept, copies⟩ := Result.foldlM_range_some step ⟨by omega, kept, ptr, live, copies⟩
  exact ⟨h, run, kept, copies⟩

theorem pushArgs_pushed (copies : Copies floor held args tmp ptr 0 args.length live h₀)
    (nonzero : ∀ s ∈ args, 0 ∉ s) (room : userBase + imageSize args ≤ userStackTop) :
    ∃ h, (range args.length).foldlM (pushArg tmp) (userStackTop, h₀) =
        some (userStackTop - stringBytes args args.length, h) ∧ Pushed args tmp args.length h.mem ∧
      (∀ x, Within held x → h.mem x = h₀.mem x) ∧
      ∃ live, Copies floor held args tmp ptr args.length args.length live h := by
  let inv (i : Nat) (state : Nat × Heap) : Prop := state.1 = userStackTop - stringBytes args i ∧
    Pushed args tmp i state.2.mem ∧ (∀ x, Within held x → state.2.mem x = h₀.mem x) ∧
    ∃ live, Copies floor held args tmp ptr i args.length live state.2
  have step (i : Nat) (state : Nat × Heap) (less : i < args.length) (holds : inv i state) :
      ∃ state', pushArg tmp state i = some state' ∧ inv (i + 1) state' := by
    obtain ⟨sp, h⟩ := state
    obtain ⟨rfl, pushed, kept, live, copies⟩ := holds
    obtain ⟨_, run, pushed', kept', copies'⟩ := copies.push pushed (arg_nonzero nonzero less) less room
    exact ⟨_, run, rfl, pushed', fun x inside => (kept' x inside).trans (kept x inside), _, copies'⟩
  have first : inv 0 (userStackTop, h₀) := by
    refine ⟨?_, ⟨by simp, by simp⟩, fun _ _ => rfl, live, copies⟩
    rw [stringBytes_zero, Nat.sub_zero]
  obtain ⟨⟨-, h⟩, run, rfl, result⟩ := Result.foldlM_range_some step first
  exact ⟨h, run, result⟩

theorem pushArgs_decodes (serving : Serving floor userBase c.heap c.live) (passes : Passes c.heap.mem argv args)
    (source : ∀ x, Source c.heap.mem argv args x → Spared floor userBase c.live x) (nonzero : ∀ s ∈ args, 0 ∉ s)
    (heap : c.heap.breakptr + heapNeed args ≤ userBase) (room : userBase + imageSize args ≤ userStackTop) :
    ∃ h, pushArgs argv c.heap = some (imageStart args, h) ∧ Decodes h.mem (imageStart args) args ∧
      (∃ live, Serving floor userBase h live ∧ ∀ e ∈ c.live, e ∈ live) ∧
      ∀ x, Within c.live x → h.mem x = c.heap.mem x := by
  have top : userStackTop < 2 ^ 32 := by decide
  have need : heapNeed args = 31 + 4 * args.length + 31 * args.length + stringBytes args args.length := rfl
  have start : imageStart args + imageSize args = userStackTop := by
    unfold imageStart
    omega
  rw [pushArgs, argCount_eq passes (by omega), Option.bind_eq_bind, Option.bind_some]
  cases args with
  | nil =>
    have null : c.heap.kmalloc (4 * ([] : List (List Byte)).length) = some (0, c.heap) := if_pos rfl
    have pushed : Pushed [] 0 ([] : List (List Byte)).length c.heap.mem := ⟨by simp, by simp⟩
    have stored (x : Nat) (below : x < userBase) : arrayStored [] 0 c.heap.mem x = c.heap.mem x :=
      arrayStored_outside room (.inl below)
    refine ⟨{ c.heap with mem := arrayStored [] 0 c.heap.mem }, congrArg some (pushArray_eq room),
      arrayStored_decodes pushed room (by decide), ⟨c.live, serving.store fun x _ high => stored x high,
        fun e member => member⟩, ?_⟩
    rintro x ⟨e, member, low, high⟩
    have := serving.inside member
    exact stored x (by omega)
  | cons first rest =>
    generalize arguments : first :: rest = args at *
    have some : 0 < args.length := by simp [← arguments]
    obtain ⟨nonnull, array⟩ : argv ≠ 0 ∧ ArgvAt c.heap.mem argv args := by
      rcases passes with ⟨-, none⟩ | passes
      · simp [none] at some
      · exact passes
    obtain ⟨tmp, h₀, call, allocated⟩ := serving.kmalloc (show 4 * args.length ≠ 0 by omega)
    have brk := (kmalloc_breakptr call).2
    obtain ⟨serving₀, frame₀⟩ := allocated (by omega)
    have empty : Copies floor c.live args tmp (fun _ => 0) 0 0 ((tmp, 4 * args.length) :: c.live) h₀ := by
      refine ⟨serving₀, .head _, fun e member => ⟨.tail _ member, ?_⟩, ?_, ?_, ?_, ?_, ?_⟩
      · exact serving₀.fresh member
      all_goals
        intros
        omega
    obtain ⟨h₁, saves, kept₁, _, _, copies₁⟩ :=
      saveArgs_copies empty frame₀ array source nonnull nonzero (by omega)
    obtain ⟨h₂, pushes, pushed, kept₂, live₂, copies₂⟩ := pushArgs_pushed copies₁ nonzero room
    have inside := copies₂.serving.inside copies₂.array
    have stored : Serving floor userBase { h₂ with mem := arrayStored args tmp h₂.mem } live₂ :=
      copies₂.serving.store fun x _ high => arrayStored_outside room (.inl high)
    obtain ⟨freed, frame₃⟩ := stored.kfree (mem_map_of_mem copies₂.array)
    have heldLive (e : Nat × Nat) (member : e ∈ c.live) : e ∈ dropLive live₂ tmp :=
      stays_live (copies₂.others e member).1 (copies₂.others e member).2
    rw [call]
    dsimp only [Option.bind_eq_bind, Option.bind_some]
    rw [saves, Option.bind_some, pushes]
    refine ⟨_, congrArg Option.some (pushArray_eq room), ?_, ⟨_, freed, heldLive⟩, ?_⟩
    · refine decodes_congr (arrayStored_decodes pushed room inside.2) fun x above => frame₃ x (.inr (.inl ?_))
      omega
    · rintro x ⟨e, member, low, high⟩
      have := serving.inside member
      calc _ = arrayStored args tmp h₂.mem x := frame₃ x (spared_within (heldLive e member) low high)
        _ = h₂.mem x := arrayStored_outside room (.inl (by omega))
        _ = h₁.mem x := kept₂ x ⟨e, member, low, high⟩
        _ = c.heap.mem x := kept₁ x (spared_within member low high)

theorem exec_image_decodes {c : Client} (reachable : clients.Reachable c) {chain : List Nat}
    (walk : PrevWalk c.heap c.heap.base chain) {floor : Nat} (above : ∀ b ∈ chain, floor ≤ b)
    (low : floor ≤ c.heap.breakptr) {data size bottom : Nat} (file : (data, size) ∈ c.live)
    (program : Program c.heap.mem data size bottom) {argv : Nat} {args : List (List Byte)}
    (passes : Passes c.heap.mem argv args) (nonzero : ∀ s ∈ args, 0 ∉ s)
    (source : ∀ x, Source c.heap.mem argv args x → Spared floor userBase c.live x)
    (heap : c.heap.breakptr + heapNeed args ≤ userBase) (room : bottom + imageSize args ≤ userStackTop) :
    ∃ sp h, sysExecPush argv data c.heap = some (eEntry c.heap.mem data, sp, h) ∧ bottom ≤ sp ∧
      Decodes h.mem sp args := by
  have base := program.base
  have serving : Serving floor userBase c.heap c.live :=
    reachable_serving reachable walk above low (by omega) (by decide)
  obtain ⟨h, pushes, decodes, ⟨live, serving', subset⟩, kept⟩ :=
    pushArgs_decodes serving passes source nonzero heap (by omega)
  have inside := serving'.inside (subset _ file)
  obtain ⟨program', -, -, entry⟩ := program_congr program fun x first last => kept x ⟨_, file, first, last⟩
  obtain ⟨m, loads, loaded⟩ := loadElfFile_loads program' inside.2
  have stored : Serving floor userBase { h with mem := m } live := serving'.store fun x _ high => loaded x (.inl high)
  obtain ⟨-, frame⟩ := stored.kfree (mem_map_of_mem (subset _ file))
  have start : bottom ≤ imageStart args := by
    unfold imageStart
    omega
  refine ⟨imageStart args, ({ h with mem := m } : Heap).kfree data, ?_, start, decodes_congr decodes fun x high => ?_⟩
  · rw [sysExecPush, pushes, Option.bind_eq_bind, Option.bind_some]
    dsimp only
    rw [loads, entry]
    rfl
  · exact (frame x (.inr (.inl (by omega)))).trans (loaded x (.inr (by omega)))

private def execMemory : Memory := fun x =>
  if x < 0x180020 + 84 then
    (correctEIdent ++ [2, 0, 3, 0, 1, 0, 0, 0, 0, 0, 0, 0xc0, 52, 0, 0, 0, 0, 0, 0, 0, 0, 0, 0, 0, 52, 0, 32, 0, 1, 0, 0, 0,
      0, 0, 0, 0] ++ [1, 0, 0, 0, 0, 0, 0, 0, 0, 0, 0, 0xc0, 0, 0, 0, 0, 4, 0, 0, 0]).getD (x - 0x180020) 0
  else [0xfc, 0xef, 0xff, 0xff, 0xfe, 0xef, 0xff, 0xff, 0, 0, 0, 0, 97, 0, 0].getD (x - 0xffffeff0) 0

theorem exec_image_decodes_overlapping : ∃ c sp h, clients.Reachable c ∧ Passes c.heap.mem 0xffffeff0 [[97], []] ∧
      sysExecPush 0xffffeff0 0x180020 c.heap = some (0xc0000000, sp, h) ∧ 0xc0000004 ≤ sp ∧
      Decodes h.mem sp [[97], []] := by
  let start : Client := ⟨⟨execMemory, 0, 0x180003⟩, []⟩
  let run : Option Client := [Call.kmalloc 84].foldlM Client.next start
  have heap : run.map (fun c => (c.live, c.heap.base, (c.heap.block 0x180008).prev, c.heap.breakptr)) =
      some ([(0x180020, 84)], 0x180008, 0, 0x180074) := by
    decide +kernel
  have header : run.map (fun c => (checkElfHeader c.heap.mem 0x180020, eType c.heap.mem 0x180020,
      eEntry c.heap.mem 0x180020, ePhoff c.heap.mem 0x180020)) = some (true, 2, 0xc0000000, 52) := by
    decide +kernel
  have segment : run.map (fun c => (ePhnum c.heap.mem 0x180020, pVaddr c.heap.mem (0x180020 + 52),
      pFilesz c.heap.mem (0x180020 + 52))) = some (1, 0xc0000000, 4) := by
    decide +kernel
  have pointers : run.map (fun c => (c.heap.mem.read 4 0xffffeff0, c.heap.mem.read 4 0xffffeff4,
      c.heap.mem.read 4 0xffffeff8)) = some (0xffffeffc, 0xffffeffe, 0) := by
    decide +kernel
  have strings : run.map (fun c => (c.heap.mem 0xffffeffc, c.heap.mem 0xffffeffd, c.heap.mem 0xffffeffe)) =
      some (97, 0, 0) := by
    decide +kernel
  obtain ⟨c, ran, observed⟩ := Option.map_eq_some_iff.mp heap
  rw [ran, Option.map_some, Option.some.injEq] at header segment pointers strings
  simp only [Prod.mk.injEq] at observed header segment pointers strings
  obtain ⟨live, base, prev, brk⟩ := observed
  obtain ⟨ident, type, entry, phoff⟩ := header
  obtain ⟨_, vaddr, filesz⟩ := segment
  obtain ⟨first, second, null⟩ := pointers
  obtain ⟨letter, end₁, end₂⟩ := strings
  have initial : clients.Reachable start := .initial ⟨rfl, rfl, by decide, by decide⟩
  have reachable := initial.run Client.next_sound ran
  have walk : PrevWalk c.heap c.heap.base [0x180008] := by
    rw [base]
    exact prevWalk_cons (by decide) prev .null
  have program : Program c.heap.mem 0x180020 84 0xc0000004 := by
    refine ⟨by decide, ident, type, by decide, by omega, fun i less _ => ?_⟩
    obtain rfl : i = 0 := by omega
    rw [phoff, Nat.mul_zero, Nat.add_zero, vaddr, filesz]
    decide
  have passes : Passes c.heap.mem 0xffffeff0 [[97], []] := by
    refine .inr ⟨by decide, ⟨fun i less => ?_, fun i less => ?_, null⟩⟩
    · match i, less with
      | 0, _ => rw [first]; decide
      | 1, _ => rw [second]; decide
    · match i, less with
      | 0, _ =>
        rw [first]
        intro j le
        match j, le with
        | 0, _ => exact letter
        | 1, _ => exact end₁
      | 1, _ =>
        rw [second]
        intro _ le
        obtain rfl := Nat.le_zero.mp le
        exact end₂
  have source (x : Nat) (there : Source c.heap.mem 0xffffeff0 [[97], []] x) : Spared 0x180000 userBase c.live x := by
    obtain ⟨-, array | ⟨i, less, low, -⟩⟩ := there
    · exact .inr (.inl (Nat.le_trans (by decide) array.1))
    · refine .inr (.inl (Nat.le_trans ?_ low))
      match i, less with
      | 0, _ => rw [first]; decide
      | 1, _ => rw [second]; decide
  have blocks : ∀ b ∈ [0x180008], 0x180000 ≤ b := by decide
  obtain ⟨sp, h, exec, above, decodes⟩ := exec_image_decodes reachable walk blocks (by rw [brk]; decide)
    (by rw [live]; simp) program passes (by decide) source (by rw [brk]; decide) (by decide)
  rw [entry] at exec
  exact ⟨c, sp, h, reachable, passes, exec, above, decodes⟩

end Petix.Proof.Exec
