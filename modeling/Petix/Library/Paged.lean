import Mathlib.Data.List.Nodup
import Mathlib.Logic.Function.Basic

/-! # Arrays in pages -/

namespace Petix.Library.Paged
open List Function

variable {π β : Type} {n i p : Nat} {pages more : List π} {mem : π → Nat → β} {page : π}

def cell (n : Nat) (pages : List π) (mem : π → Nat → β) (i : Nat) : Option β :=
  pages[i / n]?.map fun page => mem page (i % n)

theorem cell_of_page (here : pages[i / n]? = some page) : cell n pages mem i = some (mem page (i % n)) := by
  rw [cell, here, Option.map_some]

theorem cell_append (inside : i / n < pages.length) : cell n (pages ++ more) mem i = cell n pages mem i := by
  rw [cell, cell, getElem?_append_left inside]

theorem cell_update [DecidableEq π] (distinct : pages.Nodup) (here : pages[p]? = some page) (new : Nat → β) :
    cell n pages (update mem page new) i = if i / n = p then some (new (i % n)) else cell n pages mem i := by
  split
  · rename_i same
    rw [cell_of_page (same ▸ here), update_self]
  · rename_i other
    cases there : pages[i / n]? with
    | none => rw [cell, cell, there, Option.map_none, Option.map_none]
    | some page' =>
      rw [cell_of_page there, cell_of_page there, update_of_ne]
      rintro rfl
      obtain ⟨inside, -⟩ := List.getElem?_eq_some_iff.mp there
      exact other ((getElem?_inj inside distinct).mp (there.trans here.symm))

end Petix.Library.Paged
