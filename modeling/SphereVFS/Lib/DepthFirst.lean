import Mathlib.Data.Finite.Defs
import Mathlib.Data.Set.Finite.Basic
import Mathlib.Logic.Relation
import Mathlib.Order.WellFounded
import Mathlib.Tactic.Common

/-!
# DepthFirst

A recursive depth-first walk that keeps no record of what it has visited. It carries a state, looks at
the edges of a vertex in order, and at each edge goes on, returns, or walks the edge's target first.
Fuel bounds the depth of the recursion, and `none` is the recursion that ran out of it.

A walk whose edges lead into no cycle finishes from every state (`finishes_of_acc`). A walk in a state
that it never leaves finishes only then (`finishes_iff_acc`).
-/

namespace DepthFirst

variable {α ε σ : Type}

inductive Visit (σ : Type) where
  | next (s : σ)
  | done (s : σ)
  | enter

/-- The loop over the edges of a vertex; `walk` is the recursive call. -/
def loop (target : ε → α) (walk : α → σ → Option σ) (visit : ε → σ → Visit σ) : List ε → σ → Option σ
  | [], s => some s
  | e :: es, s =>
    match visit e s with
    | .next s => loop target walk visit es s
    | .done s => some s
    | .enter => (walk (target e) s).bind (loop target walk visit es)

variable (edges : α → List ε) (target : ε → α) (stop : σ → Bool) (visit : α → ε → σ → Visit σ)

def walk : Nat → α → σ → Option σ
  | 0, _, _ => none
  | fuel + 1, v, s => if stop s then some s else loop target (walk fuel) (visit v) (edges v) s

def Finishes (v : α) (s : σ) : Prop := ∃ fuel, (walk edges target stop visit fuel v s).isSome

/-- From `v` the walk may enter `w`. -/
def Enters (v w : α) : Prop := ∃ e ∈ edges v, target e = w ∧ ∃ s, visit v e s = .enter

/-- From the vertices of `P` the walk never leaves the state: no vertex stops in it, and every edge
that the walk may enter at all leads to another vertex of `P` and is entered in it. -/
structure Still (P : α → Prop) (s : σ) : Prop where
  stop : stop s = false
  stays : ∀ v, P v → ∀ e ∈ edges v, visit v e s = .enter ∧ P (target e) ∨
    visit v e s = .next s ∧ ∀ s', visit v e s' ≠ .enter

variable {edges target stop visit}

/-! ## More fuel -/

theorem loop_mono {walk walk' : α → σ → Option σ} {visit : ε → σ → Visit σ}
    (h : ∀ w s s', walk w s = some s' → walk' w s = some s') {es : List ε} {s s' : σ}
    (hs : loop target walk visit es s = some s') : loop target walk' visit es s = some s' := by
  induction es generalizing s with
  | nil => exact hs
  | cons e es ih =>
    rw [loop] at hs ⊢
    cases hv : visit e s with
    | next t =>
      rw [hv] at hs
      exact ih hs
    | done t =>
      rw [hv] at hs
      exact hs
    | enter =>
      rw [hv] at hs
      obtain ⟨t, ht, hs⟩ := Option.bind_eq_some_iff.1 hs
      exact Option.bind_eq_some_iff.2 ⟨t, h _ s t ht, ih hs⟩

theorem walk_mono {fuel fuel' : Nat} (hle : fuel ≤ fuel') {v : α} {s s' : σ}
    (h : walk edges target stop visit fuel v s = some s') :
    walk edges target stop visit fuel' v s = some s' := by
  induction fuel generalizing fuel' v s s' with
  | zero => cases h
  | succ fuel ih =>
    obtain _ | n := fuel'
    · cases hle
    rw [walk] at h ⊢
    cases hstop : stop s with
    | true => simpa [hstop] using h
    | false =>
      rw [if_neg (by simp [hstop])] at h ⊢
      exact loop_mono (fun w t t' => ih (Nat.le_of_succ_le_succ hle)) h

theorem walk_isSome_mono {fuel fuel' : Nat} (hle : fuel ≤ fuel') {v : α} {s : σ}
    (h : (walk edges target stop visit fuel v s).isSome) :
    (walk edges target stop visit fuel' v s).isSome := by
  obtain ⟨s', hs'⟩ := Option.isSome_iff_exists.1 h
  exact Option.isSome_iff_exists.2 ⟨s', walk_mono hle hs'⟩

/-! ## No cycle, no endless walk -/

theorem loop_isSome {walk : α → σ → Option σ} {visit : ε → σ → Visit σ} {es : List ε}
    (h : ∀ e ∈ es, (∃ s, visit e s = .enter) → ∀ s, (walk (target e) s).isSome) (s : σ) :
    (loop target walk visit es s).isSome := by
  induction es generalizing s with
  | nil => rfl
  | cons e es ih =>
    have ih := ih fun e' he' => h e' (List.mem_cons_of_mem _ he')
    rw [loop]
    cases hv : visit e s with
    | next s' => exact ih s'
    | done s' => rfl
    | enter =>
      obtain ⟨s', hs'⟩ := Option.isSome_iff_exists.1 (h e List.mem_cons_self ⟨s, hv⟩ s)
      simpa [hs'] using ih s'

theorem exists_common_fuel {visit' : ε → σ → Visit σ} {es : List ε}
    (h : ∀ e ∈ es, (∃ s, visit' e s = .enter) →
      ∃ fuel, ∀ s, (walk edges target stop visit fuel (target e) s).isSome) :
    ∃ fuel, ∀ e ∈ es, (∃ s, visit' e s = .enter) →
      ∀ s, (walk edges target stop visit fuel (target e) s).isSome := by
  induction es with
  | nil => exact ⟨0, fun e he => absurd he List.not_mem_nil⟩
  | cons e es ih =>
    obtain ⟨fuel, hfuel⟩ := ih fun e' he' => h e' (List.mem_cons_of_mem _ he')
    by_cases hent : ∃ s, visit' e s = .enter
    · obtain ⟨fuel', hfuel'⟩ := h e List.mem_cons_self hent
      refine ⟨max fuel fuel', fun e' he' hent' s => ?_⟩
      obtain rfl | he' := List.mem_cons.1 he'
      · exact walk_isSome_mono (le_max_right ..) (hfuel' s)
      · exact walk_isSome_mono (le_max_left ..) (hfuel e' he' hent' s)
    · refine ⟨fuel, fun e' he' hent' => ?_⟩
      obtain rfl | he' := List.mem_cons.1 he'
      · exact absurd hent' hent
      · exact hfuel e' he' hent'

theorem exists_fuel {v : α} (h : Acc (Function.swap (Enters edges target visit)) v) :
    ∃ fuel, ∀ s, (walk edges target stop visit fuel v s).isSome := by
  induction h with
  | intro v _ ih =>
    obtain ⟨fuel, hfuel⟩ := exists_common_fuel fun e he hent => ih (target e) ⟨e, he, rfl, hent⟩
    refine ⟨fuel + 1, fun s => ?_⟩
    rw [walk]
    split
    · rfl
    · exact loop_isSome hfuel s

theorem finishes_of_acc {v : α} (h : Acc (Function.swap (Enters edges target visit)) v) (s : σ) :
    Finishes edges target stop visit v s := by
  obtain ⟨fuel, hfuel⟩ := exists_fuel h
  exact ⟨fuel, hfuel s⟩

/-! ## A state that the walk never leaves -/

theorem loop_still {walk : α → σ → Option σ} {visit : ε → σ → Visit σ} {P Q : α → Prop} {s s' : σ}
    (hwalk : ∀ w s', P w → walk w s = some s' → s' = s ∧ Q w) {es : List ε}
    (hstill : ∀ e ∈ es, visit e s = .enter ∧ P (target e) ∨
      visit e s = .next s ∧ ∀ s', visit e s' ≠ .enter)
    (h : loop target walk visit es s = some s') :
    s' = s ∧ ∀ e ∈ es, (∃ s, visit e s = .enter) → Q (target e) := by
  induction es with
  | nil => exact ⟨(Option.some.inj h).symm, fun e he => absurd he List.not_mem_nil⟩
  | cons e es ih =>
    have ih := ih fun e' he' => hstill e' (List.mem_cons_of_mem _ he')
    rw [loop] at h
    obtain ⟨hv, hP⟩ | ⟨hv, hnot⟩ := hstill e List.mem_cons_self
    · rw [hv] at h
      obtain ⟨t, ht, hloop⟩ := Option.bind_eq_some_iff.1 h
      obtain ⟨rfl, hQ⟩ := hwalk _ t hP ht
      obtain ⟨hs', hes⟩ := ih hloop
      refine ⟨hs', fun e' he' hent => ?_⟩
      obtain rfl | he' := List.mem_cons.1 he'
      · exact hQ
      · exact hes e' he' hent
    · rw [hv] at h
      obtain ⟨hs', hes⟩ := ih h
      refine ⟨hs', fun e' he' hent => ?_⟩
      obtain rfl | he' := List.mem_cons.1 he'
      · exact hent.elim fun s' hs' => absurd hs' (hnot s')
      · exact hes e' he' hent

theorem walk_still {P : α → Prop} {s : σ} (hstill : Still edges target stop visit P s) {fuel : Nat}
    {v : α} (hv : P v) {s' : σ} (h : walk edges target stop visit fuel v s = some s') :
    s' = s ∧ Acc (Function.swap (Enters edges target visit)) v := by
  induction fuel generalizing v s' with
  | zero => cases h
  | succ fuel ih =>
    rw [walk, if_neg (by simp [hstill.stop])] at h
    obtain ⟨hs', hes⟩ := loop_still (P := P) (Q := Acc (Function.swap (Enters edges target visit)))
      (fun w s' hw hwalk => ih hw hwalk) (hstill.stays v hv) h
    refine ⟨hs', Acc.intro v ?_⟩
    rintro w ⟨e, he, rfl, hent⟩
    exact hes e he hent

theorem finishes_iff_acc {P : α → Prop} {s : σ} (hstill : Still edges target stop visit P s) {v : α}
    (hv : P v) : Finishes edges target stop visit v s ↔
      Acc (Function.swap (Enters edges target visit)) v := by
  constructor
  · rintro ⟨fuel, hfuel⟩
    obtain ⟨s', hs'⟩ := Option.isSome_iff_exists.1 hfuel
    exact (walk_still hstill hv hs').2
  · exact fun h => finishes_of_acc h s

/-! ## Cycles -/

section Cycles

open Relation

variable {r : α → α → Prop} {root : α}

theorem not_transGen_of_acc {v : α} (h : Acc (Function.swap r) v) : ¬ TransGen r v v := by
  induction h with
  | intro v _ ih =>
    intro hcycle
    obtain ⟨w, hvw, hwv⟩ := TransGen.head'_iff.1 hcycle
    exact ih w hvw (TransGen.tail' hwv hvw)

/-- Where finitely many vertices are reached, a relation is well-founded from the root just when no
reached vertex lies on a cycle. -/
theorem acc_iff_no_cycle (hfin : {v | ReflTransGen r root v}.Finite) :
    Acc (Function.swap r) root ↔ ∀ v, ReflTransGen r root v → ¬ TransGen r v v := by
  constructor
  · intro h v hv
    refine not_transGen_of_acc ?_
    induction hv with
    | refl => exact h
    | tail _ hvw ih => exact ih.inv hvw
  · intro h
    have : Finite {v | ReflTransGen r root v} := hfin
    let below (w v : {v | ReflTransGen r root v}) : Prop := TransGen r v.1 w.1
    have : IsTrans _ below := ⟨fun _ _ _ hab hbc => hbc.trans hab⟩
    have : Std.Irrefl below := ⟨fun v => h v.1 v.2⟩
    have hwf : WellFounded below := Finite.wellFounded_of_trans_of_irrefl below
    have hacc : ∀ v : {v | ReflTransGen r root v}, Acc (Function.swap r) v.1 := fun v =>
      hwf.induction v fun v ih =>
        Acc.intro v.1 fun w hvw => ih ⟨w, v.2.tail hvw⟩ (.single hvw)
    exact hacc ⟨root, .refl⟩

end Cycles

end DepthFirst
