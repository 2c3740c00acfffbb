import Mathlib.Algebra.Order.Ring.Int
import Mathlib.Data.List.Basic

/-!
# Semaphores (`kernel/sync.c`)

Both functions hold the global lock, so each call is one step; `semWait` is one pass of the loop.
-/

namespace Petix.Kernel.Sync

structure Waiter where
  pid : Int
  needed : Nat
  deriving DecidableEq

structure Sem where
  count : Nat
  lst : List Waiter
  deriving DecidableEq

def signalLoop (count : Nat) : List Waiter → (onto : List Waiter) → List Waiter × List Int
  | [], onto => (onto, [])
  | w :: lst, onto =>
    if w.needed ≤ count then
      let (onto, woken) := signalLoop count lst onto
      (onto, w.pid :: woken)
    else signalLoop count lst (w :: onto)

def semSignal (sem : Sem) (n : Nat) : Sem × List Int :=
  let count := if n = 0 then 1 else (sem.count + n) % 2 ^ 32
  let (onto, woken) := signalLoop count sem.lst []
  (⟨count, onto⟩, woken)

def semWait (sem : Sem) (pid : Int) (n : Nat) : Sem × Bool :=
  let n := if n = 0 then 1 else n
  if n ≤ sem.count then ({ sem with count := sem.count - n }, true)
  else ({ sem with lst := ⟨pid, n⟩ :: sem.lst }, false)

def condWake (sem : Sem) : Sem × List Int := semSignal sem 0

def condWait (sem : Sem) (pid : Int) : Sem × Bool := semWait sem pid 0

end Petix.Kernel.Sync
