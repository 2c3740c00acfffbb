import Petix.Proof.Kmalloc.Contents
import Petix.Proof.Kmalloc.Coalescing

namespace Petix.Proof.Kmalloc
open List Library Kernel.Kmalloc Spec.Kmalloc BlockList

variable {h h' : Heap} {cells cells' pre post : List Cell} {b : Cell}
variable {m : Memory} {str n : Nat} {t : Cell} {c : Client}

theorem strlenFrom_eq {fuel : Nat} (characters : ∀ i < n, m (str + i) ≠ 0)
    (terminator : m (str + n) = 0) (enough : n < fuel) : strlenFrom m fuel str = some n := by
  induction n generalizing str fuel with
  | zero =>
    cases fuel with
    | zero => omega
    | succ fuel => exact if_pos terminator
  | succ n ih =>
    cases fuel with
    | zero => omega
    | succ fuel =>
      have rest (i : Nat) (inside : i < n) : m (str + 1 + i) ≠ 0 := by
        rw [show str + 1 + i = str + (i + 1) by omega]
        exact characters (i + 1) (by omega)
      have stop : m (str + 1 + n) = 0 := by
        rw [show str + 1 + n = str + (n + 1) by omega]
        exact terminator
      have first : m str ≠ 0 := characters 0 (by omega)
      rw [strlenFrom, if_neg first, ih rest stop (by omega)]
      rfl

theorem strlen_eq (string : StringAt m str n) : strlen m str = some n :=
  strlenFrom_eq string.characters string.terminator string.short

theorem find_firstFit {size : Nat} (newest : ∀ c ∈ pre, c.used = 0 → c.len < size) (free : b.used = 0)
    (room : size ≤ b.len) : (pre ++ b :: post).find? (fun c => c.used = 0 ∧ size ≤ c.len) = some b := by
  have none : pre.find? (fun c => c.used = 0 ∧ size ≤ c.len) = none := by
    rw [find?_eq_none]
    intro c member fits
    obtain ⟨unused, room⟩ := of_decide_eq_true fits
    exact absurd (newest c member unused) (Nat.not_lt.mpr room)
  rw [find?_append, none, Option.none_or, find?_cons_of_pos (by simp [free, room])]

theorem Allocates.longer_iff {size : Nat} {taken : Cell} (allocates : Allocates size cells taken cells') :
    size < taken.len ↔ ∃ newer b older, cells = newer ++ b :: older ∧
      (∀ c ∈ newer, c.used = 0 → c.len < size) ∧ b.used = 0 ∧ size < b.len ∧ b.len < size + minSplitSize := by
  constructor
  · intro longer
    cases allocates with
    | push none above => exact absurd longer (Nat.lt_irrefl size)
    | whole newest free room small => exact ⟨_, _, _, rfl, newest, free, longer, small⟩
    | split newest free room unused => exact absurd longer (Nat.lt_irrefl size)
  · rintro ⟨newer, b, older, equal, skipped, free, longer, _⟩
    have first := @find_firstFit newer older b size skipped free (Nat.le_of_lt longer)
    rw [← equal] at first
    cases allocates with
    | push none above => exact absurd (none b (by simp [equal]) free) (by omega)
    | whole newest freeD room _ =>
      rw [find_firstFit newest freeD room, Option.some.injEq] at first
      rw [first]
      exact longer
    | split newest freeD room _ =>
      rw [find_firstFit newest freeD (by omega), Option.some.injEq] at first
      rw [first] at room
      omega

theorem Represents.reusesLonger_iff (repr : Represents h cells) :
    ReusesLonger h (cells.map Cell.addr) n ↔ ∃ newer b older, cells = newer ++ b :: older ∧
      (∀ c ∈ newer, c.used = 0 → c.len < n) ∧ b.used = 0 ∧ n < b.len ∧ b.len < n + minSplitSize := by
  constructor
  · rintro ⟨newer, a, older, equal, skipped, free, longer, small⟩
    obtain ⟨above, _, rfl, rfl, split⟩ := map_eq_append_iff.mp equal
    obtain ⟨b, below, rfl, rfl, rfl⟩ := map_eq_cons_iff.mp split
    rw [repr.block_used (by simp)] at free
    rw [show (h.block b.addr).len = b.len from congrArg Block.len repr.block] at longer small
    refine ⟨above, b, below, rfl, fun c member unused => ?_, free, longer, small⟩
    have memberC : c ∈ above ++ b :: below := mem_append_left _ member
    have shorter := skipped c.addr (mem_map_of_mem member)
    rw [repr.block_used memberC, repr.block_len memberC] at shorter
    exact shorter unused
  · rintro ⟨newer, b, older, rfl, skipped, free, _, _⟩
    refine ⟨newer.map Cell.addr, b.addr, older.map Cell.addr, by simp, ?_, ?_, ?_, ?_⟩
    · intro _ member
      obtain ⟨c, memberC, rfl⟩ := mem_map.mp member
      have inside : c ∈ newer ++ b :: older := mem_append_left _ memberC
      rw [repr.block_used inside, repr.block_len inside]
      exact skipped c memberC
    · rw [repr.block_used (by simp)]
      exact free
    all_goals
      rw [repr.block_len (by simp)]
      assumption

theorem last_replace {rest : List Cell} (addr : t.addr = b.addr) (start : Nat) :
    last Cell.addr start (pre ++ t :: rest) = last Cell.addr start (pre ++ b :: rest) := by
  induction pre generalizing start with
  | nil => rw [nil_append, nil_append, last, last, addr]
  | cons c pre ih => exact ih c.addr

theorem Represents.block_replace {d : Cell} (repr : Represents h (pre ++ b :: post))
    (repr' : Represents h' (pre ++ t :: post)) (addr : t.addr = b.addr) (member : d ∈ pre ++ post) :
    h'.block d.addr = h.block d.addr := by
  rcases mem_append.mp member with inPre | inPost
  · obtain ⟨newer, older, rfl⟩ := append_of_mem inPre
    rw [append_assoc, cons_append] at repr repr'
    rw [repr.block, repr'.block, first_append, first_append, first_cons, first_cons, addr]
  · obtain ⟨_, _, rfl⟩ := append_of_mem inPost
    rw [← cons_append, ← append_assoc] at repr repr'
    rw [repr.block, repr'.block, last_replace addr]

theorem Represents.foreign_off (repr : Represents c.heap cells) (held : Held cells c.live)
    (member : b ∈ cells) (free : b.used = 0) {x : Nat} (foreign : Foreign c (cells.map Cell.addr) x) :
    Clear cells x ∧ (x < b.addr ∨ b.finish ≤ x) := by
  rcases foreign with ⟨e, memberE, _, _⟩ | outside
  · obtain ⟨d, memberD, _, used, _⟩ := held.cell e memberE
    have inside : x < d.finish := by
      simp only [Cell.finish]
      omega
    refine ⟨repr.clear memberD (by omega) inside, ?_⟩
    rcases repr.apart member memberD with rfl | _ | _
    · exact absurd free used
    · exact .inr (by omega)
    · exact .inl (by omega)
  · have off (d : Cell) (memberD : d ∈ cells) : x < d.addr ∨ d.finish ≤ x := by
      have out := outside d.addr (mem_map_of_mem memberD)
      rwa [repr.block_len memberD] at out
    refine ⟨fun d memberD => ?_, off b member⟩
    have out := off d memberD
    simp only [Cell.finish] at out
    omega

private theorem Represents.duplicates {h₁ : Heap}
    (repr : Represents c.heap (pre ++ b :: post)) (held : Held (pre ++ b :: post) c.live)
    (rewrites : Rewrites c.heap (pre ++ b :: post) h₁ (pre ++ { b with used := 1 } :: post)) (free : b.used = 0)
    (longer : n < b.len) (foreign : ∀ i ≤ n, Foreign c ((pre ++ b :: post).map Cell.addr) (str + i)) :
    Duplicates c ((pre ++ b :: post).map Cell.addr) str n ⟨b.addr + 24, str, n + 1⟩ h₁ := by
  have member : b ∈ pre ++ b :: post := by simp
  have taken : { b with used := 1 } ∈ pre ++ { b with used := 1 } :: post := by simp
  have off (i : Nat) (le : i ≤ n) := repr.foreign_off held member free (foreign i le)
  have outside (x : Nat) (out : x < b.addr + 24 ∨ b.finish ≤ x) : h₁.mem.copy (b.addr + 24) str (n + 1) x = h₁.mem x :=
    Memory.copy_outside _ _ _ _ x (by simp only [Cell.finish] at out; omega)
  have copied := rewrites.repr.payload taken outside
  have kept (d : Cell) (memberD : d ∈ pre ++ b :: post) (used : d.used ≠ 0) :
      d ∈ pre ++ { b with used := 1 } :: post ∧ d.addr ≠ b.addr := by
    constructor
    · simp only [mem_append, mem_cons] at memberD ⊢
      rcases memberD with above | rfl | below
      · exact .inl above
      · exact absurd free used
      · exact .inr (.inr below)
    · intro equal
      rw [repr.addr_inj memberD member equal] at used
      exact used free
  constructor
  case nonnull => simp
  case fresh =>
    refine ⟨fun live => ?_, _, rewrites.repr.wellFormed, ?_⟩
    · obtain ⟨d, memberD, equal, used⟩ := held.block live
      have := (kept d memberD used).2
      simp only at equal
      omega
    · rw [sizeofBlock, Nat.add_sub_cancel]
      simp
  case holds =>
    intro i inside
    have apart : b.addr + 24 + (n + 1) ≤ str ∨ str + (n + 1) ≤ b.addr + 24 := by
      by_contra overlap
      have first := (off (b.addr + 24 - str) (by omega)).2
      simp only [Cell.finish] at first
      omega
    refine (Memory.copy_inside h₁.mem apart inside).trans ?_
    have clear := (off i (by omega)).1
    exact rewrites.bytes _ clear (clear.replace rfl)
  case inside =>
    have room := rewrites.repr.capacity_eq taken
    rw [room]
    exact longer
  case headers =>
    intro _ memberA other
    obtain ⟨d, memberD, rfl⟩ := mem_map.mp memberA
    have elsewhere : d ∈ pre ++ post := by
      simp only [mem_append, mem_cons] at memberD ⊢
      rcases memberD with above | rfl | below
      · exact .inl above
      · exact absurd rfl other
      · exact .inr below
    refine Eq.trans (block_congr fun x low high => outside x ?_)
      (repr.block_replace rewrites.repr rfl elsewhere)
    rcases repr.apart member memberD with rfl | above | below
    · exact absurd rfl other
    · exact .inr (by omega)
    · simp only [Cell.finish] at below
      exact .inl (by omega)
  case others =>
    intro _ live
    obtain ⟨d, memberD, rfl, used⟩ := held.block live
    obtain ⟨stays, other⟩ := kept d memberD used
    rw [repr.capacity_eq memberD]
    refine ⟨copied.capacity_eq stays, fun i inside => ?_⟩
    have high : d.addr + 24 + i < d.finish := by
      simp only [Cell.finish]
      omega
    refine (outside _ ?_).trans (rewrites.payload repr memberD stays (by omega) high)
    rcases repr.apart member memberD with rfl | _ | _
    · exact absurd rfl other
    · exact .inr (by omega)
    · exact .inl (by omega)

theorem kstrdup_copies_iff {c : Client} (reachable : clients.Reachable c) {chain : List Nat}
    (walk : PrevWalk c.heap c.heap.base chain) {str n : Nat} (string : StringAt c.heap.mem str n)
    (foreign : ∀ i ≤ n, Foreign c chain (str + i)) :
    ∃ copy h, c.heap.kstrdupSync str = some (copy, h) ∧ (h.breakptr < 2 ^ 32 →
      (Duplicates c chain str n copy h ↔ 0 < n ∧ ReusesLonger c.heap chain n)) := by
  obtain ⟨_, repr, held⟩ := reachable_invariant reachable
  rw [repr.prevWalk_iff] at walk
  subst walk
  rw [repr.reusesLonger_iff, Heap.kstrdupSync, strlen_eq string]
  by_cases zero : n = 0
  · have null : c.heap.kmalloc n = some (0, c.heap) := if_pos zero
    refine ⟨⟨0, str, n + 1⟩, c.heap, by rw [Option.bind_eq_bind, Option.bind_some, null]; rfl, fun _ => ?_⟩
    exact iff_of_false (fun copies => copies.nonnull rfl) fun both => absurd zero (Nat.ne_of_gt both.1)
  · obtain ⟨ptr, h, call, allocated⟩ := repr.kmalloc_allocates zero
    refine ⟨⟨ptr, str, n + 1⟩, h, by rw [Option.bind_eq_bind, Option.bind_some, call]; rfl, fun fits => ?_⟩
    obtain ⟨taken, _, allocates, rfl, rewrites⟩ := allocated fits
    rw [← allocates.longer_iff]
    constructor
    · intro copies
      have inside : n + 1 ≤ capacity h (taken.addr + 24) := copies.inside
      rw [rewrites.repr.capacity_eq allocates.taken.1] at inside
      exact ⟨Nat.pos_of_ne_zero zero, inside⟩
    · rintro ⟨-, longer⟩
      cases allocates with
      | push none above => exact absurd longer (Nat.lt_irrefl n)
      | split newest free room unused => exact absurd longer (Nat.lt_irrefl n)
      | whole newest free room small => exact repr.duplicates held rewrites free longer foreign

private def eightLetters : Memory := fun x => if 0x1000 ≤ x ∧ x < 0x1008 then 0x61 else 0

private def keepsLetters (m : Memory) : Bool := (range 9).all fun i => m (0x1000 + i) == eightLetters (0x1000 + i)

private theorem eightLetters_string (kept : keepsLetters m = true) : StringAt m 0x1000 8 := by
  have same (i : Nat) (inside : i < 9) : m (0x1000 + i) = eightLetters (0x1000 + i) :=
    eq_of_beq (all_eq_true.mp kept i (mem_range.mpr inside))
  constructor
  case characters =>
    intro i _
    rw [same i (by omega), eightLetters, if_pos (by omega)]
    decide
  case terminator => exact same 8 (by omega)
  case short => decide

theorem kstrdup_copies_reused : ∃ c copy h, clients.Reachable c ∧ c.heap.kstrdupSync 0x1000 = some (copy, h) ∧
      Duplicates c [0x180038, 0x180008] 0x1000 8 copy h := by
  -- a free block of 20 bytes is found and not split
  let start : Client := ⟨⟨eightLetters, 0, 0x180003⟩, []⟩
  let calls : List Call := [.kmalloc 20, .kmalloc 8, .kfree 0x180020]
  have links : (calls.foldlM Client.next start).map
      (fun c => (c.heap.base, (c.heap.block 0x180038).prev, (c.heap.block 0x180008).prev)) =
      some (0x180038, 0x180008, 0) := by
    decide +kernel
  have blocks : (calls.foldlM Client.next start).map
      (fun c => ((c.heap.block 0x180038).used, (c.heap.block 0x180008).used, (c.heap.block 0x180008).len)) =
      some (1, 0, 20) := by
    decide +kernel
  have letters : (calls.foldlM Client.next start).map
      (fun c => keepsLetters c.heap.mem) = some true := by
    decide +kernel
  have bounded : (calls.foldlM Client.next start).bind
      (fun c => (c.heap.kstrdupSync 0x1000).map fun r => decide (r.2.breakptr < 2 ^ 32)) = some true := by
    decide +kernel
  obtain ⟨c, ran, observed⟩ := Option.map_eq_some_iff.mp links
  rw [ran, Option.map_some, Option.some.injEq] at blocks letters
  simp only [Prod.mk.injEq] at observed blocks
  obtain ⟨base, prev, last⟩ := observed
  obtain ⟨used, free, len⟩ := blocks
  have initial : clients.Reachable start := .initial ⟨rfl, rfl, by decide, by decide⟩
  have reachable := initial.run Client.next_sound ran
  have walk : PrevWalk c.heap c.heap.base [0x180038, 0x180008] := by
    rw [base]
    exact prevWalk_cons (by decide) prev (prevWalk_cons (by decide) last .null)
  have foreign (i : Nat) (le : i ≤ 8) : Foreign c [0x180038, 0x180008] (0x1000 + i) := by
    refine .inr fun b member => .inl ?_
    simp only [mem_cons, not_mem_nil, or_false] at member
    omega
  obtain ⟨copy, h, call, exact⟩ := kstrdup_copies_iff reachable walk
    (eightLetters_string letters) foreign
  rw [ran, Option.bind_some, call, Option.map_some, Option.some.injEq] at bounded
  refine ⟨c, copy, h, reachable, call, (exact (of_decide_eq_true bounded)).mpr ⟨by decide, ?_⟩⟩
  refine ⟨[0x180038], 0x180008, [], rfl, fun a member unused => ?_, free, by rw [len]; decide, by rw [len]; decide⟩
  rw [mem_singleton.mp member, used] at unused
  exact absurd unused Nat.one_ne_zero

theorem kstrdup_overruns_header :
    ∃ c copy h, clients.Reachable c ∧ PrevWalk c.heap c.heap.base [0x180008] ∧ StringAt c.heap.mem 0x1000 8 ∧
      (∀ i ≤ 8, Foreign c [0x180008] (0x1000 + i)) ∧ c.heap.kstrdupSync 0x1000 = some (copy, h) ∧
      h.breakptr < 2 ^ 32 ∧ ¬Duplicates c [0x180008] 0x1000 8 copy h ∧
      PrevWalk h h.base [0x180028, 0x180008] ∧ ((copy.run h).block 0x180028).prev = 0x180000 := by
  let start : Client := ⟨⟨eightLetters, 0, 0x180003⟩, []⟩
  let calls : List Call := [.kmalloc 300, .kfree 0x180020]
  have chain : (calls.foldlM Client.next start).map
      (fun c => (c.heap.base, (c.heap.block 0x180008).prev, keepsLetters c.heap.mem)) = some (0x180008, 0, true) := by
    decide +kernel
  have copied : (calls.foldlM Client.next start).bind (fun c => (c.heap.kstrdupSync 0x1000).map fun r =>
      (r.1.count, capacity r.2 r.1.target, ((r.1.run r.2).block 0x180028).prev, decide (r.2.breakptr < 2 ^ 32))) =
      some (9, 8, 0x180000, true) := by
    decide +kernel
  have links : (calls.foldlM Client.next start).bind (fun c => (c.heap.kstrdupSync 0x1000).map fun r =>
      (r.2.base, (r.2.block 0x180028).prev, (r.2.block 0x180008).prev)) = some (0x180028, 0x180008, 0) := by
    decide +kernel
  obtain ⟨c, ran, observed⟩ := Option.map_eq_some_iff.mp chain
  simp only [Prod.mk.injEq] at observed
  obtain ⟨base, last, letters⟩ := observed
  rw [ran, Option.bind_some] at copied links
  obtain ⟨⟨copy, h⟩, call, observed⟩ := Option.map_eq_some_iff.mp copied
  rw [call, Option.map_some, Option.some.injEq] at links
  simp only [Prod.mk.injEq] at observed links
  obtain ⟨_, _, overrun, bounded⟩ := observed
  obtain ⟨baseAfter, prevAfter, lastAfter⟩ := links
  have initial : clients.Reachable start := .initial ⟨rfl, rfl, by decide, by decide⟩
  have walk : PrevWalk c.heap c.heap.base [0x180008] := by
    rw [base]
    exact prevWalk_cons (by decide) last .null
  refine ⟨c, copy, h, initial.run Client.next_sound ran, walk,
    eightLetters_string letters, fun i le => .inr fun b member => .inl ?_, call,
    of_decide_eq_true bounded, fun copies => ?_, ?_, overrun⟩
  · rw [mem_singleton.mp member]
    omega
  · have inside := copies.inside
    omega
  · rw [baseAfter]
    exact prevWalk_cons (by decide) prevAfter (prevWalk_cons (by decide) lastAfter .null)

end Petix.Proof.Kmalloc
