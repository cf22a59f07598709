import Mathlib.Algebra.Order.Ring.Int
import Mathlib.Tactic.Common

/-!
# Radix

A radix tree whose last digit is not told apart: the inner nodes branch on the digits of a path,
and below the last inner node there is one leaf for all last digits. Leaves hold lists, newest
value first, and new children go to the front.

Paths of one length with the same digits up to the last one share a leaf, and no other path sees
what is done there (`lookup_insert`, `lookup_modify`).
-/

namespace Radix

inductive Tree (α β : Type) where
  | internal (children : List (α × Tree α β))
  | leaf (values : List β)

variable {α β : Type}

def Tree.isLeaf : Tree α β → Bool
  | .leaf _ => true
  | .internal _ => false

def Tree.values : Tree α β → List β
  | .leaf vs => vs
  | .internal _ => []

def Tree.mapValues (f : List β → List β) : Tree α β → Tree α β
  | .leaf vs => .leaf (f vs)
  | .internal cs => .internal cs

def modifyFirst (p : α × Tree α β → Bool) (f : Tree α β → Tree α β) :
    List (α × Tree α β) → List (α × Tree α β)
  | [] => []
  | c :: cs => if p c then (c.1, f c.2) :: cs else c :: modifyFirst p f cs

def Depth : Nat → Tree α β → Prop
  | 0, t => t.isLeaf = true
  | k + 1, t => ∃ cs, t = .internal cs ∧ ∀ c ∈ cs, Depth k c.2

/-! ## One level -/

theorem find_modifyFirst_self {p : α × Tree α β → Bool} {f : Tree α β → Tree α β}
    (hp : ∀ c, p c = true → p (c.1, f c.2) = true) (cs : List (α × Tree α β)) :
    (modifyFirst p f cs).find? p = (cs.find? p).map fun c => (c.1, f c.2) := by
  induction cs with
  | nil => rfl
  | cons c cs ih =>
    by_cases hc : p c = true
    · simp [modifyFirst, hc, hp c hc]
    · simp [modifyFirst, hc, ih]

theorem find_modifyFirst_ne {p q : α × Tree α β → Bool} {f : Tree α β → Tree α β}
    (hq : ∀ c, p c = true → q c = false ∧ q (c.1, f c.2) = false) (cs : List (α × Tree α β)) :
    (modifyFirst p f cs).find? q = cs.find? q := by
  induction cs with
  | nil => rfl
  | cons c cs ih =>
    by_cases hc : p c = true
    · simp [modifyFirst, hc, hq c hc]
    · cases hqc : q c <;> simp [modifyFirst, hc, hqc, ih]

theorem forall_modifyFirst {P : Tree α β → Prop} {p : α × Tree α β → Bool}
    {f : Tree α β → Tree α β} (hf : ∀ t, P t → P (f t)) {cs : List (α × Tree α β)}
    (h : ∀ c ∈ cs, P c.2) : ∀ c ∈ modifyFirst p f cs, P c.2 := by
  induction cs with
  | nil => simp [modifyFirst]
  | cons c cs ih =>
    obtain ⟨hc, hcs⟩ := List.forall_mem_cons.1 h
    rw [modifyFirst]
    split
    · exact List.forall_mem_cons.2 ⟨hf _ hc, hcs⟩
    · exact List.forall_mem_cons.2 ⟨hc, ih hcs⟩

theorem depth_mapValues {t : Tree α β} (f : List β → List β) (h : Depth 0 t) :
    Depth 0 (t.mapValues f) := by
  cases t with
  | leaf vs => exact rfl
  | internal cs => exact h

theorem values_mapValues {t : Tree α β} (f : List β → List β) (h : Depth 0 t) :
    (t.mapValues f).values = f t.values := by
  cases t with
  | leaf vs => rfl
  | internal cs => simp [Depth, Tree.isLeaf] at h

/-! ## Lookup, insertion and change -/

variable [DecidableEq α]

/-- The value list under a path. At the last level any leaf will do. -/
def lookup : List α → Tree α β → List β
  | _, .leaf vs => vs
  | [], .internal _ => []
  | [a], .internal cs =>
    match cs.find? fun c => c.2.isLeaf || c.1 == a with
    | some c => c.2.values
    | none => []
  | a :: b :: path, .internal cs =>
    match cs.find? fun c => c.1 == a with
    | some c => lookup (b :: path) c.2
    | none => []

/-- Puts a value in front of the list under a path, making the nodes that are missing. At the last
level the first child is taken, whatever its digit. -/
def insert (v : β) : List α → Tree α β → Tree α β
  | _, .leaf vs => .leaf (v :: vs)
  | [], .internal cs => .internal cs
  | [a], .internal [] => .internal [(a, .leaf [v])]
  | [_], .internal (c :: cs) => .internal ((c.1, c.2.mapValues (v :: ·)) :: cs)
  | a :: b :: path, .internal cs =>
    .internal (if cs.any fun c => c.1 == a then
      modifyFirst (fun c => c.1 == a) (insert v (b :: path)) cs
    else (a, insert v (b :: path) (.internal [])) :: cs)

def modify (f : List β → List β) : List α → Tree α β → Tree α β
  | _, .leaf vs => .leaf (f vs)
  | [], .internal cs => .internal cs
  | [a], .internal cs =>
    .internal (modifyFirst (fun c => c.2.isLeaf || c.1 == a) (Tree.mapValues f) cs)
  | a :: b :: path, .internal cs =>
    .internal (modifyFirst (fun c => c.1 == a) (modify f (b :: path)) cs)

/-! ## Depth -/

theorem depth_insert (v : β) (path : List α) {t : Tree α β} (h : Depth path.length t) :
    Depth path.length (insert v path t) := by
  induction path generalizing t with
  | nil =>
    cases t with
    | leaf vs => exact rfl
    | internal cs => exact h
  | cons a path ih =>
    obtain ⟨cs, rfl, hcs⟩ := h
    cases path with
    | nil =>
      cases cs with
      | nil => exact ⟨_, rfl, by simp [Depth, Tree.isLeaf]⟩
      | cons c cs =>
        obtain ⟨hc, hcs⟩ := List.forall_mem_cons.1 hcs
        exact ⟨_, rfl, List.forall_mem_cons.2 ⟨depth_mapValues _ hc, hcs⟩⟩
    | cons b path =>
      refine ⟨_, rfl, ?_⟩
      split
      · exact forall_modifyFirst (fun t ht => ih ht) hcs
      · exact List.forall_mem_cons.2 ⟨ih ⟨[], rfl, by simp⟩, hcs⟩

theorem depth_modify (f : List β → List β) (path : List α) {t : Tree α β}
    (h : Depth path.length t) : Depth path.length (modify f path t) := by
  induction path generalizing t with
  | nil =>
    cases t with
    | leaf vs => exact rfl
    | internal cs => exact h
  | cons a path ih =>
    obtain ⟨cs, rfl, hcs⟩ := h
    cases path with
    | nil => exact ⟨_, rfl, forall_modifyFirst (fun t ht => depth_mapValues f ht) hcs⟩
    | cons b path => exact ⟨_, rfl, forall_modifyFirst (fun t ht => ih ht) hcs⟩

/-! ## Lookups after a change -/

theorem lookup_last (a : α) {cs : List (α × Tree α β)} (h : ∀ c ∈ cs, Depth 0 c.2) :
    lookup [a] (.internal cs) = match cs with
      | [] => []
      | c :: _ => c.2.values := by
  cases cs with
  | nil => rfl
  | cons c cs =>
    have hc : c.2.isLeaf = true := h c (by simp)
    simp [lookup, hc]

theorem lookup_empty (path : List α) : lookup path (.internal ([] : List (α × Tree α β))) = [] := by
  cases path with
  | nil => rfl
  | cons a path => cases path <;> rfl

theorem lookup_insert (v : β) (q : List α) (hq : q ≠ []) {p : List α} (hlen : p.length = q.length)
    {t : Tree α β} (h : Depth q.length t) :
    lookup p (insert v q t) =
      if p.dropLast = q.dropLast then v :: lookup p t else lookup p t := by
  induction q generalizing p t with
  | nil => exact absurd rfl hq
  | cons a q ih =>
    obtain ⟨cs, rfl, hcs⟩ := h
    obtain ⟨a', p, rfl⟩ := List.exists_cons_of_length_eq_add_one hlen
    have hlen' : p.length = q.length := by simpa using hlen
    cases q with
    | nil =>
      -- the last level: every digit has the one leaf
      obtain rfl := List.length_eq_zero_iff.1 hlen'
      have hins := depth_insert v [a] (t := .internal cs) ⟨cs, rfl, hcs⟩
      cases cs with
      | nil => simp [insert, lookup, Tree.isLeaf, Tree.values]
      | cons c cs =>
        obtain ⟨cs', heq, hcs'⟩ := hins
        have hvalues := values_mapValues (v :: ·) (hcs c (by simp))
        cases heq
        rw [insert, lookup_last a' hcs', lookup_last a' hcs]
        simpa using hvalues
    | cons b q =>
      obtain ⟨b', p, rfl⟩ := List.exists_cons_of_length_eq_add_one hlen'
      by_cases ha : a' = a
      · subst ha
        cases hfind : cs.find? fun c => c.1 == a' with
        | none =>
          have hany : (cs.any fun c => c.1 == a') = false := by simpa using hfind
          have hnew := ih (by simp) hlen' (t := .internal []) ⟨[], rfl, by simp⟩
          rw [lookup_empty] at hnew
          simpa [insert, hany, lookup, hfind] using hnew
        | some c =>
          have hc := List.find?_some hfind
          have hany : (cs.any fun c => c.1 == a') = true :=
            List.any_eq_true.2 ⟨c, List.mem_of_find?_eq_some hfind, hc⟩
          have hself := find_modifyFirst_self (p := fun c => c.1 == a') (f := insert v (b :: q))
            (by simp) cs
          simp only [insert, hany, lookup, hself, hfind, Option.map_some,
            ih (by simp) hlen' (hcs c (List.mem_of_find?_eq_some hfind)), if_true]
          simp
      · have hkey : (a' :: b' :: p).dropLast ≠ (a :: b :: q).dropLast := by simp [ha]
        rw [if_neg hkey, insert]
        split
        · have hne := find_modifyFirst_ne (p := fun c => c.1 == a) (q := fun c => c.1 == a')
            (f := insert v (b :: q)) (by
              intro c hc
              have : c.1 = a := by simpa using hc
              simp [this, Ne.symm ha]) cs
          simp only [lookup, hne]
        · simp [lookup, Ne.symm ha]

theorem lookup_modify {f : List β → List β} (hf : f [] = []) (q : List α) (hq : q ≠ [])
    {p : List α} (hlen : p.length = q.length) {t : Tree α β} (h : Depth q.length t) :
    lookup p (modify f q t) =
      if p.dropLast = q.dropLast then f (lookup p t) else lookup p t := by
  induction q generalizing p t with
  | nil => exact absurd rfl hq
  | cons a q ih =>
    obtain ⟨cs, rfl, hcs⟩ := h
    obtain ⟨a', p, rfl⟩ := List.exists_cons_of_length_eq_add_one hlen
    have hlen' : p.length = q.length := by simpa using hlen
    cases q with
    | nil =>
      obtain rfl := List.length_eq_zero_iff.1 hlen'
      have hmod := depth_modify f [a] (t := .internal cs) ⟨cs, rfl, hcs⟩
      cases cs with
      | nil => simp [modify, modifyFirst, lookup, hf]
      | cons c cs =>
        have hc : c.2.isLeaf = true := hcs c (by simp)
        have hvalues := values_mapValues f (hcs c (by simp))
        have hfirst : modify f [a] (.internal (c :: cs)) =
            .internal ((c.1, c.2.mapValues f) :: cs) := by
          simp [modify, modifyFirst, hc]
        rw [hfirst] at hmod ⊢
        obtain ⟨cs', heq, hcs'⟩ := hmod
        cases heq
        rw [lookup_last a' hcs', lookup_last a' hcs]
        simpa using hvalues
    | cons b q =>
      obtain ⟨b', p, rfl⟩ := List.exists_cons_of_length_eq_add_one hlen'
      by_cases ha : a' = a
      · subst ha
        have hself := find_modifyFirst_self (p := fun c => c.1 == a') (f := modify f (b :: q))
          (by simp) cs
        cases hfind : cs.find? fun c => c.1 == a' with
        | none => simp [modify, lookup, hself, hfind, hf]
        | some c =>
          have hrest := ih (by simp) hlen' (hcs c (List.mem_of_find?_eq_some hfind))
          simp only [modify, lookup, hself, hfind, Option.map_some, hrest]
          simp
      · have hkey : (a' :: b' :: p).dropLast ≠ (a :: b :: q).dropLast := by simp [ha]
        have hne := find_modifyFirst_ne (p := fun c => c.1 == a) (q := fun c => c.1 == a')
          (f := modify f (b :: q)) (by
            intro c hc
            have : c.1 = a := by simpa using hc
            simp [this, Ne.symm ha]) cs
        simp only [if_neg hkey, modify, lookup, hne]

end Radix
