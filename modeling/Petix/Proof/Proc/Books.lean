import Petix.Spec.Files
import Petix.Proof.Proc.Frame

namespace Petix.Proof.Proc
open Function Library Kernel.Sync Kernel.Pipes Kernel.Proc Kernel.Syscall
open Spec.Files Result

variable {k k' : State} {s : Nat → Nat} {f g n : Nat} {file : File}
variable {m npipes : Nat} {data : Nat → Option (Option FileOps × Option (End × Nat))} {pipes : Nat → Option Pipe}
variable {fops : Option FileOps} {side : End}

structure Counts (k : State) (s : Nat → Nat) : Prop where
  counted : ∀ f file, k.files f = some file → file.refcnt = s f ∧ 0 < s f
  absent : ∀ f, k.files f = none → s f = 0
  fresh : ∀ f, k.nfiles ≤ f → k.files f = none ∧ history k.log f = []
  present : ∀ f file, k.files f = some file → history k.log f = []
  closed : ∀ f, f < k.nfiles → k.files f = none → ∃ fops, history k.log f = released f fops

section
variable (counts : Counts k s)
include counts

theorem Counts.carry (files : k'.files = k.files) (nfiles : k'.nfiles = k.nfiles)
    (log : k'.log = k.log) : Counts k' s := by
  obtain ⟨counted, absent, fresh, present, closed⟩ := counts
  rw [← files, ← nfiles, ← log] at *
  exact ⟨counted, absent, fresh, present, closed⟩

theorem Counts.some_file (referred : 0 < s f) : ∃ file, k.files f = some file := by
  cases here : k.files f with
  | none =>
    rw [counts.absent f here] at referred
    cases referred
  | some file => exact ⟨file, rfl⟩

theorem Counts.lt (here : k.files f = some file) : f < k.nfiles := by
  by_contra beyond
  rw [(counts.fresh f (Nat.le_of_not_lt beyond)).1] at here
  cases here

def Entered (log : List Event) (f : Nat) (m : Nat) : Option File → Prop
  | some file => file.refcnt = m ∧ 0 < m ∧ history log f = []
  | none => m = 0 ∧ ∃ fops, history log f = released f fops

theorem Counts.replace {new : Option File} (files : k'.files = update k.files f new) (entered : Entered k'.log f m new)
    (theirs : ∀ g, g ≠ f → history k'.log g = history k.log g) (below : f < k'.nfiles)
    (nfiles : ∀ g, g ≠ f → (g < k'.nfiles ↔ g < k.nfiles)) : Counts k' (update s f m) := by
  have others {g : Nat} (other : g ≠ f) : k'.files g = k.files g := by rw [files, update_of_ne other]
  have mine : k'.files f = new := by rw [files, update_self]
  constructor
  · intro g file there
    by_cases same : g = f
    · subst same
      rw [← mine, there] at entered
      rw [update_self]
      exact ⟨entered.1, entered.2.1⟩
    · rw [others same] at there
      rw [update_of_ne same]
      exact counts.counted g file there
  · intro g there
    by_cases same : g = f
    · subst same
      rw [← mine, there] at entered
      rw [update_self]
      exact entered.1
    · rw [others same] at there
      rw [update_of_ne same]
      exact counts.absent g there
  · intro g beyond
    have same : g ≠ f := by
      rintro rfl
      exact absurd below (Nat.not_lt.mpr beyond)
    rw [others same, theirs g same]
    exact counts.fresh g (Nat.le_of_not_lt fun before => absurd ((nfiles g same).mpr before) (Nat.not_lt.mpr beyond))
  · intro g file there
    by_cases same : g = f
    · subst same
      rw [← mine, there] at entered
      exact entered.2.2
    · rw [others same] at there
      rw [theirs g same]
      exact counts.present g file there
  · intro g before there
    by_cases same : g = f
    · subst same
      rw [← mine, there] at entered
      exact entered.2
    · rw [others same] at there
      rw [theirs g same]
      exact counts.closed g ((nfiles g same).mp before) there

theorem Counts.rewrite (here : k.files f = some file) (file' : File)
    (positive : 0 < file'.refcnt) : Counts (k.setFile f (some file')) (update s f file'.refcnt) :=
  counts.replace rfl ⟨rfl, positive, counts.present f file here⟩ (fun _ _ => rfl) (counts.lt here) fun _ _ => Iff.rfl

theorem Counts.remove (here : k.files f = some file) (fops : Option FileOps)
    (files : k'.files = update k.files f none) (nfiles : k'.nfiles = k.nfiles)
    (mine : history k'.log f = history k.log f ++ released f fops)
    (theirs : ∀ g, g ≠ f → history k'.log g = history k.log g) : Counts k' (update s f 0) := by
  rw [counts.present f file here] at mine
  exact counts.replace files ⟨rfl, fops, mine⟩ theirs (nfiles ▸ counts.lt here) fun _ _ => by rw [nfiles]

theorem Counts.alloc : Counts ({ k with nfiles := k.nfiles + 1 }.setFile k.nfiles (some ⟨none, none, 1⟩))
      (update s k.nfiles 1) := by
  refine counts.replace (f := k.nfiles) rfl ⟨rfl, Nat.one_pos, (counts.fresh k.nfiles (Nat.le_refl _)).2⟩
    (fun _ _ => rfl) (Nat.lt_succ_self _) ?_
  intro _ other
  exact Nat.lt_succ_iff.trans ⟨fun le => Nat.lt_of_le_of_ne le other, Nat.le_of_lt⟩

end

def dataOf (k : State) (f : Nat) : Option (Option FileOps × Option (End × Nat)) :=
  (k.files f).map fun file => (file.fops, file.privateData)

structure Ends (data : Nat → Option (Option FileOps × Option (End × Nat))) (pipes : Nat → Option Pipe)
    (npipes : Nat) : Prop where
  freshPipe : ∀ n, npipes ≤ n → pipes n = none
  piped : ∀ f fops ends, data f = some (fops, ends) → (fops = some .pipe ↔ ends ≠ none)
  open_of_held : ∀ f fops side n, data f = some (fops, some (side, n)) →
    ∃ pipe, pipes n = some pipe ∧ isOpen pipe side = true
  held_of_open : ∀ n pipe side, pipes n = some pipe → isOpen pipe side = true →
    ∃ f fops, data f = some (fops, some (side, n))
  unique : ∀ f g fops fops' ends, data f = some (fops, some ends) → data g = some (fops', some ends) → f = g

theorem Ends.held_lt (ends : Ends data pipes npipes) (here : data f = some (fops, some (side, n))) : n < npipes := by
  obtain ⟨_, there, -⟩ := ends.open_of_held f fops side n here
  by_contra beyond
  rw [ends.freshPipe n (Nat.le_of_not_lt beyond)] at there
  cases there

theorem Ends.plain (ends : Ends data pipes npipes) {new : Option (Option FileOps × Option (End × Nat))}
    (old : ∀ fops held, data f = some (fops, some held) → False)
    (plain : ∀ fops held, new = some (fops, held) → fops ≠ some .pipe ∧ held = none) :
    Ends (update data f new) pipes npipes := by
  have holder {g : Nat} {fops : Option FileOps} {held : End × Nat}
      (there : update data f new g = some (fops, some held)) : g ≠ f ∧ data g = some (fops, some held) := by
    have other : g ≠ f := by
      rintro rfl
      rw [update_self] at there
      cases (plain _ _ there).2
    rw [update_of_ne other] at there
    exact ⟨other, there⟩
  constructor
  · exact ends.freshPipe
  · intro g fops held there
    by_cases same : g = f
    · subst same
      rw [update_self] at there
      obtain ⟨driver, none⟩ := plain _ _ there
      simp [driver, none]
    · rw [update_of_ne same] at there
      exact ends.piped g fops held there
  · intro g fops side n there
    exact ends.open_of_held g fops side n (holder there).2
  · intro n pipe side here isOpen
    obtain ⟨g, fops, there⟩ := ends.held_of_open n pipe side here isOpen
    have other : g ≠ f := by
      rintro rfl
      exact old _ _ there
    exact ⟨g, fops, by rwa [update_of_ne other]⟩
  · intro g g' fops fops' held first second
    exact ends.unique g g' fops fops' held (holder first).2 (holder second).2

theorem Ends.close (ends : Ends data pipes npipes) {after : Option Pipe}
    (here : data f = some (fops, some (side, n)))
    (closed : ∀ pipe' side', after = some pipe' → isOpen pipe' side' = true →
      side' ≠ side ∧ ∃ pipe, pipes n = some pipe ∧ isOpen pipe side' = true)
    (kept : ∀ pipe side', pipes n = some pipe → side' ≠ side → isOpen pipe side' = true →
      ∃ pipe', after = some pipe' ∧ isOpen pipe' side' = true) :
    Ends (update data f none) (update pipes n after) npipes := by
  have holder {g : Nat} {fops : Option FileOps} {held : End × Nat}
      (there : update data f none g = some (fops, some held)) : data g = some (fops, some held) ∧ held ≠ (side, n) := by
    have other : g ≠ f := by
      rintro rfl
      rw [update_self] at there
      cases there
    rw [update_of_ne other] at there
    refine ⟨there, ?_⟩
    rintro rfl
    exact other (ends.unique g f _ _ _ there here)
  constructor
  · intro m beyond
    rw [update_of_ne (Nat.ne_of_gt (Nat.lt_of_lt_of_le (ends.held_lt here) beyond))]
    exact ends.freshPipe m beyond
  · intro g fops held there
    have other : g ≠ f := by
      rintro rfl
      rw [update_self] at there
      cases there
    rw [update_of_ne other] at there
    exact ends.piped g fops held there
  · intro g fops side' m there
    obtain ⟨there, different⟩ := holder there
    obtain ⟨pipe, at_m, isOpen⟩ := ends.open_of_held g fops side' m there
    by_cases same : m = n
    · subst same
      have other : side' ≠ side := by
        rintro rfl
        exact different rfl
      obtain ⟨pipe', equal, isOpen'⟩ := kept pipe side' at_m other isOpen
      exact ⟨pipe', by rw [update_self, equal], isOpen'⟩
    · exact ⟨pipe, by rwa [update_of_ne same], isOpen⟩
  · intro m pipe' side' at_m isOpen
    by_cases same : m = n
    · subst same
      rw [update_self] at at_m
      obtain ⟨other, pipe, before, isOpen⟩ := closed pipe' side' at_m isOpen
      obtain ⟨g, fops', there⟩ := ends.held_of_open m pipe side' before isOpen
      have different : g ≠ f := by
        rintro rfl
        rw [here] at there
        cases there
        exact other rfl
      exact ⟨g, fops', by rwa [update_of_ne different]⟩
    · rw [update_of_ne same] at at_m
      obtain ⟨g, fops', there⟩ := ends.held_of_open m pipe' side' at_m isOpen
      have different : g ≠ f := by
        rintro rfl
        rw [here] at there
        cases there
        exact same rfl
      exact ⟨g, fops', by rwa [update_of_ne different]⟩
  · intro g g' fops fops' held first second
    exact ends.unique g g' fops fops' held (holder first).1 (holder second).1

theorem Ends.make {npipes r w : Nat} (ends : Ends data pipes npipes) (apart : r ≠ w)
    (reader : ∀ fops held, data r = some (fops, some held) → False)
    (writer : ∀ fops held, data w = some (fops, some held) → False) :
    Ends (update (update data r (some (some .pipe, some (.read, npipes)))) w
        (some (some .pipe, some (.write, npipes))))
      (update pipes npipes (some newPipe)) (npipes + 1) := by
  set made := update (update data r (some (some .pipe, some (.read, npipes)))) w
    (some (some .pipe, some (.write, npipes))) with equal
  have atReader : made r = some (some .pipe, some (.read, npipes)) := by rw [equal, update_of_ne apart, update_self]
  have atWriter : made w = some (some .pipe, some (.write, npipes)) := by rw [equal, update_self]
  have elsewhere {g : Nat} (notReader : g ≠ r) (notWriter : g ≠ w) : made g = data g := by
    rw [equal, update_of_ne notWriter, update_of_ne notReader]
  have holder {g : Nat} {fops : Option FileOps} {side : End} {m : Nat} (there : made g = some (fops, some (side, m))) :
      g = r ∧ side = .read ∧ m = npipes ∨ g = w ∧ side = .write ∧ m = npipes ∨
        m ≠ npipes ∧ data g = some (fops, some (side, m)) := by
    by_cases reading : g = r
    · subst reading
      rw [atReader] at there
      cases there
      exact .inl ⟨rfl, rfl, rfl⟩
    · by_cases writing : g = w
      · subst writing
        rw [atWriter] at there
        cases there
        exact .inr (.inl ⟨rfl, rfl, rfl⟩)
      · rw [elsewhere reading writing] at there
        exact .inr (.inr ⟨Nat.ne_of_lt (ends.held_lt there), there⟩)
  constructor
  · intro m beyond
    rw [update_of_ne (Nat.ne_of_gt beyond)]
    exact ends.freshPipe m (Nat.le_of_succ_le beyond)
  · intro g fops held there
    by_cases reading : g = r
    · subst reading
      rw [atReader] at there
      cases there
      simp
    · by_cases writing : g = w
      · subst writing
        rw [atWriter] at there
        cases there
        simp
      · rw [elsewhere reading writing] at there
        exact ends.piped g fops held there
  · intro g fops side m there
    rcases holder there with ⟨-, rfl, rfl⟩ | ⟨-, rfl, rfl⟩ | ⟨other, before⟩
    · exact ⟨newPipe, update_self _ _ _, rfl⟩
    · exact ⟨newPipe, update_self _ _ _, rfl⟩
    · rw [update_of_ne other]
      exact ends.open_of_held g fops side m before
  · intro m pipe side here isOpen
    by_cases same : m = npipes
    · subst same
      cases side with
      | read => exact ⟨r, _, atReader⟩
      | write => exact ⟨w, _, atWriter⟩
    · rw [update_of_ne same] at here
      obtain ⟨g, fops, there⟩ := ends.held_of_open m pipe side here isOpen
      have notReader : g ≠ r := by
        rintro rfl
        exact reader _ _ there
      have notWriter : g ≠ w := by
        rintro rfl
        exact writer _ _ there
      exact ⟨g, fops, by rwa [elsewhere notReader notWriter]⟩
  · rintro g g' fops fops' ⟨side, _⟩ first second
    rcases holder first with ⟨rfl, rfl, rfl⟩ | ⟨rfl, rfl, rfl⟩ | ⟨other, before⟩
    · rcases holder second with ⟨rfl, -⟩ | ⟨-, side, -⟩ | ⟨other, -⟩
      · rfl
      · cases side
      · exact absurd rfl other
    · rcases holder second with ⟨-, side, -⟩ | ⟨rfl, -⟩ | ⟨other, -⟩
      · cases side
      · rfl
      · exact absurd rfl other
    · rcases holder second with ⟨-, -, rfl⟩ | ⟨-, -, rfl⟩ | ⟨-, before'⟩
      · exact absurd rfl other
      · exact absurd rfl other
      · exact ends.unique g g' fops fops' _ before before'

structure Books (k : State) (s : Nat → Nat) : Prop where
  counts : Counts k s
  ends : Ends (dataOf k) k.pipes k.npipes

theorem dataOf_setFile (k : State) (f : Nat) (file : Option File) : dataOf (k.setFile f file) =
      update (dataOf k) f (file.map fun file => (file.fops, file.privateData)) := by
  funext g
  by_cases same : g = f
  · subst same
    simp [dataOf, State.setFile]
  · simp [dataOf, State.setFile, same]

theorem Books.recount (books : Books k s) (here : k.files f = some file) (positive : 0 < m) :
    Books (k.setFile f (some { file with refcnt := m })) (update s f m) := by
  refine ⟨books.counts.rewrite here _ positive, ?_⟩
  have same : dataOf (k.setFile f (some { file with refcnt := m })) = dataOf k := by
    rw [dataOf_setFile]
    refine update_eq_iff.mpr ⟨?_, fun _ _ => rfl⟩
    simp [dataOf, here]
  rw [same]
  exact books.ends

theorem history_append (log : List Event) (event : Event) (f : Nat) :
    history (log ++ [event]) f = history log f ++ history [event] f := List.filter_append ..

end Petix.Proof.Proc
