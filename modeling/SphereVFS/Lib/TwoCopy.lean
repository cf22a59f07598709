import Mathlib.Data.Option.Basic
import Mathlib.Algebra.Order.Ring.Int
import Mathlib.Tactic.Common

/-!
# SphereVFS.Lib.TwoCopy

A register kept in two copies that are overwritten alternately.

Each copy carries an announced value (a tag such as a checksum, taken to determine the value) and
a stored one; a reader trusts a copy only when the two agree. An attempt to write announces the
new value first and stores it second, so it can stop in between and leave the overwritten copy
torn. The first value goes to a single copy; the second completed write adds the other copy.

Reads succeed after an attempt, with the last completed value or a later attempted one, exactly when
it does not tear the older copy while the newer one is torn already (`good_step`, `safe_of_served`).
-/

namespace TwoCopy

variable {V : Type}

/-- One copy: the value announced by its tag and the value stored under it. -/
structure Copy (V : Type) where
  claimed : V
  stored : Option V

def Copy.Intact (c : Copy V) : Prop := c.stored = some c.claimed

/-- A copy holding `v`. -/
def Copy.full (v : V) : Copy V := ⟨v, some v⟩

/-- The place of the copy stores `z` if it stored nothing. -/
def Copy.fill (z : V) (c : Copy V) : Copy V := ⟨c.claimed, some (c.stored.getD z)⟩

theorem Copy.fill_of_some {z : V} {c : Copy V} (h : c.stored.isSome) : c.fill z = c := by
  obtain ⟨v, _ | x⟩ := c
  · cases h
  · rfl

/-- Not written yet (with whatever its place stores), one copy, or two with the newer first. -/
inductive Reg (V : Type) where
  | blank (stored : Option V)
  | single (c : Copy V)
  | pair (newer older : Copy V)

/-- What an attempt to write `v` achieved: all of it, the announcement only, or nothing. -/
inductive Attempt (V : Type) where
  | write (v : V)
  | tear (v : V)
  | skip (v : V)

namespace Reg

/-- `Reads r v`: the newer copy is trusted if intact, the older one otherwise. -/
def Reads : Reg V → V → Prop
  | .blank _, _ => False
  | .single c, v => c.Intact ∧ c.claimed = v
  | .pair n o, v => (n.Intact ∧ n.claimed = v) ∨ (¬ n.Intact ∧ o.Intact ∧ o.claimed = v)

def step : Reg V → Attempt V → Reg V
  | r, .skip _ => r
  | .blank _, .write v => .single (.full v)
  | .blank x, .tear v => .single ⟨v, x⟩
  | .single c, .write v => .pair (.full v) c
  | .single c, .tear _ => .single c
  | .pair n _, .write v => .pair (.full v) n
  | .pair n o, .tear v => .pair ⟨v, o.stored⟩ n

/-- The attempt leaves a readable copy: tearing the older copy needs an intact newer one, unless
the torn copy happens to store the announced value already. -/
def Safe : Reg V → Attempt V → Prop
  | .pair n o, .tear v => n.Intact ∨ o.stored = some v
  | _, _ => True

end Reg

/-- A register with the values a reader may be given: `none` until a write has completed, then
the last completed value and those attempted after it. -/
structure State (V : Type) where
  reg : Reg V
  allowed : Option (List V)

def allow (a : Option (List V)) : Attempt V → Option (List V)
  | .write v => some [v]
  | .tear v => a.map (v :: ·)
  | .skip v => a.map (v :: ·)

def State.step (s : State V) (a : Attempt V) : State V := ⟨s.reg.step a, allow s.allowed a⟩

/-- Once a write has completed, a read succeeds with an allowed value. -/
def State.Served (s : State V) : Prop := ∀ A, s.allowed = some A → ∃ v ∈ A, s.reg.Reads v

/-- The run invariant: readers are served, and two copies exist only after a completed write. -/
structure State.Good (s : State V) : Prop where
  served : s.Served
  pair_allowed : ∀ n o, s.reg = .pair n o → s.allowed ≠ none

theorem good_init (x : Option V) : (⟨.blank x, none⟩ : State V).Good :=
  ⟨fun _ h => (nomatch h), fun _ _ h => (nomatch h)⟩

/-- An attempt that stores nothing new for the reader keeps the state good: the register reads
as before and the allowed values only grow. -/
theorem good_widen {s : State V} (h : s.Good) (v : V) : (⟨s.reg, s.allowed.map (v :: ·)⟩ : State V).Good := by
  refine ⟨fun A hA => ?_, fun n o hr hn => h.pair_allowed n o hr (by simpa using hn)⟩
  obtain ⟨B, hB, rfl⟩ := Option.map_eq_some_iff.mp hA
  obtain ⟨w, hw, hr⟩ := h.served B hB
  exact ⟨w, List.mem_cons_of_mem _ hw, hr⟩

theorem good_fill {c : Copy V} {A : Option (List V)} (h : (⟨.single c, A⟩ : State V).Good) (z : V) :
    (⟨.single (c.fill z), A⟩ : State V).Good := by
  refine ⟨fun B hB => ?_, fun _ _ hr => (nomatch hr)⟩
  obtain ⟨v, hv, hi, hc⟩ := h.served B hB
  have hstored : c.stored = some c.claimed := hi
  exact ⟨v, hv, by simp [Copy.Intact, Copy.fill, hstored], hc⟩

theorem good_write {s : State V} (v : V) : (s.step (.write v)).Good := by
  refine ⟨fun A hA => ⟨v, ?_, ?_⟩, fun n o _ hn => (nomatch hn)⟩
  · cases hA; exact List.mem_singleton_self v
  · cases hr : s.reg <;> simp [State.step, Reg.step, hr, Reg.Reads, Copy.full, Copy.Intact]

theorem good_tear {s : State V} (h : s.Good) {v : V} (hs : s.reg.Safe (.tear v)) :
    (s.step (.tear v)).Good := by
  obtain ⟨r, acc⟩ := s
  cases r with
  | blank x =>
    -- nothing has completed: a blank register serves no value
    have hnone : acc = none := by
      cases acc with
      | none => rfl
      | some A => obtain ⟨_, _, hf⟩ := h.served A rfl; exact hf.elim
    subst hnone
    exact ⟨fun A hA => (nomatch hA), fun n o hr => (nomatch hr)⟩
  | single c => exact good_widen h v
  | pair n o =>
    refine ⟨fun A hA => ?_, fun _ _ _ hn => h.pair_allowed n o rfl (by simpa [State.step, allow] using hn)⟩
    obtain ⟨B, hB, rfl⟩ := Option.map_eq_some_iff.mp hA
    by_cases hv : o.stored = some v
    · -- the torn copy already stores the announced value
      exact ⟨v, List.mem_cons_self, .inl ⟨hv, rfl⟩⟩
    · have hn : n.Intact := hs.resolve_right hv
      obtain ⟨w, hw, hr⟩ := h.served B hB
      have hcl : n.claimed = w := by
        rcases hr with ⟨_, hc⟩ | ⟨hn', _⟩
        · exact hc
        · exact absurd hn hn'
      exact ⟨w, List.mem_cons_of_mem _ hw, .inr ⟨hv, hn, hcl⟩⟩

theorem good_step {s : State V} (h : s.Good) {a : Attempt V} (hs : s.reg.Safe a) : (s.step a).Good := by
  cases a with
  | write v => exact good_write v
  | tear v => exact good_tear h hs
  | skip v => cases hr : s.reg <;> simpa [State.step, Reg.step, allow, hr] using good_widen h v

theorem safe_of_served {s : State V} (h : s.Good) {a : Attempt V} (hs : (s.step a).Served) :
    s.reg.Safe a := by
  obtain ⟨r, acc⟩ := s
  cases a with
  | write v => cases r <;> trivial
  | skip v => cases r <;> trivial
  | tear v =>
    cases r with
    | blank x => trivial
    | single c => trivial
    | pair n o =>
      obtain ⟨B, rfl⟩ := Option.ne_none_iff_exists'.mp (h.pair_allowed n o rfl)
      obtain ⟨w, _, hr⟩ := hs (v :: B) rfl
      rcases hr with ⟨hi, _⟩ | ⟨_, hi, _⟩
      · exact .inr hi
      · exact .inl hi

end TwoCopy
