import Mathlib.Logic.Relation
import Mathlib.Algebra.Order.Ring.Int
import Mathlib.Tactic.Common

/-!
# Links

Directories that link to children through named slots, as a relation `L dir slot name child`.

Three properties make such a relation a name space: within a directory a name stands for one slot,
a child is linked from one slot only, and no directory is below itself. All three pass to smaller
relations, so an operation is described by a relation that contains its effect: clearing a slot,
pointing a slot at a child, or taking some slots from one relation and the others from a second.
-/

namespace Links

variable {δ σ ν : Type}

abbrev Rel (δ σ ν : Type) := δ → σ → ν → δ → Prop

def NameUnique (L : Rel δ σ ν) : Prop :=
  ∀ d s s' n c c', L d s n c → L d s' n c' → s = s'

def ChildUnique (L : Rel δ σ ν) : Prop :=
  ∀ d d' s s' n n' c, L d s n c → L d' s' n' c → s = s'

def Edge (L : Rel δ σ ν) (d c : δ) : Prop := ∃ s n, L d s n c

def Acyclic (L : Rel δ σ ν) : Prop := ∀ d, ¬ Relation.TransGen (Edge L) d d

/-- `L` with slot `s` cleared and pointed at `c` from `d` under the name `n`. -/
def put (L : Rel δ σ ν) (s : σ) (d : δ) (n : ν) (c : δ) (s' : σ) : Rel δ σ ν := fun d' t n' c' =>
  t ≠ s ∧ L d' t n' c' ∨ t = s' ∧ d' = d ∧ n' = n ∧ c' = c

/-- The slots in `A` from `L`, the others from `M`. -/
def merge (A : σ → Prop) (L M : Rel δ σ ν) : Rel δ σ ν := fun d s n c =>
  A s ∧ L d s n c ∨ ¬ A s ∧ M d s n c

variable {L M : Rel δ σ ν}

theorem NameUnique.mono (h : NameUnique M) (hLM : ∀ d s n c, L d s n c → M d s n c) :
    NameUnique L :=
  fun d s s' n c c' hs hs' => h d s s' n c c' (hLM _ _ _ _ hs) (hLM _ _ _ _ hs')

theorem ChildUnique.mono (h : ChildUnique M) (hLM : ∀ d s n c, L d s n c → M d s n c) :
    ChildUnique L :=
  fun d d' s s' n n' c hs hs' => h d d' s s' n n' c (hLM _ _ _ _ hs) (hLM _ _ _ _ hs')

theorem Acyclic.mono (h : Acyclic M) (hLM : ∀ d s n c, L d s n c → M d s n c) : Acyclic L := by
  intro d hd
  have hedge : ∀ a b, Edge L a b → Edge M a b := by
    rintro a b ⟨s, n, hs⟩
    exact ⟨s, n, hLM _ _ _ _ hs⟩
  exact h d (Relation.TransGen.mono hedge d d hd)

theorem Acyclic.not_below (h : Acyclic L) {d c : δ} (hdc : Edge L d c) :
    ¬ Relation.ReflTransGen (Edge L) c d :=
  fun hcd => h d (.head' hdc hcd)

section Put

variable {s s' : σ} {d c : δ} {n : ν}

theorem NameUnique.put (h : NameUnique L) (hn : ∀ t c', t ≠ s → L d t n c' → t = s') :
    NameUnique (put L s d n c s') := by
  rintro d₁ t t' n₁ c₁ c₂ (⟨hts, ht⟩ | ⟨rfl, rfl, rfl, -⟩) (⟨hts', ht'⟩ | ⟨h1, h2, h3, -⟩)
  · exact h d₁ t t' n₁ c₁ c₂ ht ht'
  · subst h1 h2 h3
    exact hn t c₁ hts ht
  · exact (hn t' c₂ hts' ht').symm
  · exact h1.symm

theorem ChildUnique.put (h : ChildUnique L) (hc : ∀ d' t n', t ≠ s → L d' t n' c → t = s') :
    ChildUnique (put L s d n c s') := by
  rintro d₁ d₂ t t' n₁ n₂ c₁ (⟨hts, ht⟩ | ⟨rfl, rfl, rfl, rfl⟩) (⟨hts', ht'⟩ | ⟨h1, h2, h3, h4⟩)
  · exact h d₁ d₂ t t' n₁ n₂ c₁ ht ht'
  · subst h1 h2 h3 h4
    exact hc d₁ t n₁ hts ht
  · exact (hc d₂ t' n₂ hts' ht').symm
  · exact h1.symm

theorem Acyclic.put (h : Acyclic L) (hbelow : ¬ Relation.ReflTransGen (Edge L) c d) :
    Acyclic (put L s d n c s') := by
  -- a path of the new relation either is one of the old, or passes the new edge
  have hpath : ∀ a b, Relation.TransGen (Edge (Links.put L s d n c s')) a b →
      Relation.TransGen (Edge L) a b ∨
        Relation.ReflTransGen (Edge L) a d ∧ Relation.ReflTransGen (Edge L) c b := by
    intro a b hab
    induction hab with
    | single hab =>
      obtain ⟨t, n', ⟨-, ht⟩ | ⟨-, rfl, -, rfl⟩⟩ := hab
      · exact .inl (.single ⟨t, n', ht⟩)
      · exact .inr ⟨.refl, .refl⟩
    | tail _ hbc ih =>
      obtain ⟨t, n', ⟨-, ht⟩ | ⟨-, rfl, -, rfl⟩⟩ := hbc
      · obtain ih | ⟨hd, hc⟩ := ih
        · exact .inl (ih.tail ⟨t, n', ht⟩)
        · exact .inr ⟨hd, hc.tail ⟨t, n', ht⟩⟩
      · obtain ih | ⟨hd, hc⟩ := ih
        · exact .inr ⟨ih.to_reflTransGen, .refl⟩
        · exact .inr ⟨hd, .refl⟩
  intro a ha
  obtain ha | ⟨had, hca⟩ := hpath a a ha
  · exact h a ha
  · exact hbelow (hca.trans had)

end Put

section Merge

variable {A : σ → Prop}

theorem NameUnique.merge (hL : NameUnique L) (hM : NameUnique M)
    (hx : ∀ d s s' n c c', A s → ¬ A s' → L d s n c → ¬ M d s' n c') :
    NameUnique (merge A L M) := by
  rintro d s s' n c c' (⟨ha, hs⟩ | ⟨ha, hs⟩) (⟨ha', hs'⟩ | ⟨ha', hs'⟩)
  · exact hL d s s' n c c' hs hs'
  · exact absurd hs' (hx d s s' n c c' ha ha' hs)
  · exact absurd hs (hx d s' s n c' c ha' ha hs')
  · exact hM d s s' n c c' hs hs'

theorem ChildUnique.merge (hL : ChildUnique L) (hM : ChildUnique M)
    (hx : ∀ d d' s s' n n' c, A s → ¬ A s' → L d s n c → ¬ M d' s' n' c) :
    ChildUnique (merge A L M) := by
  rintro d d' s s' n n' c (⟨ha, hs⟩ | ⟨ha, hs⟩) (⟨ha', hs'⟩ | ⟨ha', hs'⟩)
  · exact hL d d' s s' n n' c hs hs'
  · exact absurd hs' (hx d d' s s' n n' c ha ha' hs)
  · exact absurd hs (hx d' d s' s n' n c ha' ha hs')
  · exact hM d d' s s' n n' c hs hs'

end Merge

end Links
