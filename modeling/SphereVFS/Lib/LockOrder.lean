import Mathlib.Data.Set.Finite.Lemmas
import Mathlib.Data.Int.Order.Basic
import Mathlib.Tactic.Common

/-!
# LockOrder

Programs as the locks they take, and why an order on the keys keeps them from waiting in a circle.

A `Prog` is what is left of an operation as far as locks are concerned. A call of `lock` may fail,
and the operation goes on either way. `Ordered rank held p` says that `p`, started with `held`, asks
only for keys that rank above everything it holds, unlocks only what it holds, and returns with
nothing.
-/

namespace LockOrder

variable {K E R T : Type}

/-- The lock calls of an operation, with keys `K` and modes `E`. -/
inductive Prog (K E : Type) where
  | ret
  | lock (key : K) (mode : E) (ok fail : Prog K E)
  | unlock (key : K) (mode : E) (next : Prog K E)
  deriving DecidableEq

namespace Prog

def isLock : Prog K E → Bool
  | .lock .. => true
  | _ => false

def isUnlock : Prog K E → Bool
  | .unlock .. => true
  | _ => false

theorem isLock_iff {p : Prog K E} : p.isLock = true ↔ ∃ key mode ok fail, p = .lock key mode ok fail := by
  cases p <;> simp [isLock]

theorem isUnlock_iff {p : Prog K E} : p.isUnlock = true ↔ ∃ key mode next, p = .unlock key mode next := by
  cases p <;> simp [isUnlock]

end Prog

def Ordered [DecidableEq K] [DecidableEq E] [LT R] (rank : K → R) : List (K × E) → Prog K E → Prop
  | held, .ret => held = []
  | held, .lock key mode ok fail =>
    (∀ h ∈ held, rank h.1 < rank key) ∧ Ordered rank ((key, mode) :: held) ok ∧ Ordered rank held fail
  | held, .unlock key mode next => (key, mode) ∈ held ∧ Ordered rank (held.erase (key, mode)) next

/-- **No circle.** If whoever wants a key holds only keys that rank below it, and finitely many keys
are wanted, then in no set of waiting threads does everyone wait for a member. -/
theorem no_cyclic_wait [LinearOrder R] {rank : K → R} {wants holds : T → K → Prop}
    (hfinite : {k | ∃ t, wants t k}.Finite)
    (hrank : ∀ t k k', holds t k → wants t k' → rank k < rank k') {S : Set T} (hS : S.Nonempty) :
    ¬ ∀ t ∈ S, ∃ k, wants t k ∧ ∃ u ∈ S, holds u k := by
  intro hwait
  -- the keys that a member wants and a member holds; one of them ranks highest
  let wanted : Set K := {k | ∃ t ∈ S, wants t k ∧ ∃ u ∈ S, holds u k}
  have hne : wanted.Nonempty := by
    obtain ⟨t, ht⟩ := hS
    obtain ⟨k, hk⟩ := hwait t ht
    exact ⟨k, t, ht, hk⟩
  have hsub : wanted ⊆ {k | ∃ t, wants t k} := fun k ⟨t, _, hk, _⟩ => ⟨t, hk⟩
  obtain ⟨k, ⟨t, -, -, u, hu, hholds⟩, hmax⟩ :=
    Set.exists_max_image wanted rank (hfinite.subset hsub) hne
  -- its holder waits for a key that ranks higher still
  obtain ⟨k', hwants, hheld⟩ := hwait u hu
  exact absurd (hrank u k k' hholds hwants) (not_lt.2 (hmax k' ⟨u, hu, hwants, hheld⟩))

end LockOrder
