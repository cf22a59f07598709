import SphereVFS.RadixIndex
import SphereVFS.Lib.Linked
import Mathlib.Data.List.Induction

/-!
# SphereVFS.RadixSlots

The radix index of a directory in the slots of its pool: `DirContentIndex` nodes that chain their
children, and under the deepest node one leaf that chains its `DirContentLink`s.

Insertion, lookup and removal each walk down from the root by code of their own. What they agree on
is `Shape`: which slot is the node of which path, and which links the leaf under a path of fifteen
nibbles has. Nothing of an index is ever given back, and no `nextVP` is ever written twice, so a
chain that a walk follows only grows at its head.

A pool slot that `pool_alloc` gives out is one no earlier call gave out (`fresh`).
-/

namespace SphereVFS

/-! ## The slots -/

/-- The fields of a `DirContentIndex` slot. -/
structure IndexNode where
  hashNibble : Nat
  leaf : Bool
  listVP : VPtr
  nextVP : VPtr

/-- The fields of a `DirContentLink` slot. -/
structure DirContentLink where
  dirContentVP : VPtr
  nextVP : VPtr

/-- The slots of an index, how many there are, and the directory's `indexRoot`. -/
structure IndexSlots where
  nodes : VPtr → IndexNode
  links : VPtr → DirContentLink
  allocated : Nat
  indexRoot : VPtr

def IndexSlots.empty : IndexSlots := ⟨fun _ => ⟨0, false, 0, 0⟩, fun _ => ⟨0, 0⟩, 0, 0⟩

namespace IndexSlots

/-- The walk over the children of a node in a lookup and in a removal: at the deepest level any leaf is taken. -/
def lookupWalk (s : IndexSlots) (target : Nat) (isLast : Bool) : Nat → VPtr → VPtr
  | 0, _ => 0
  | fuel + 1, childWalk =>
    if childWalk = 0 then 0
    else if isLast && (s.nodes childWalk).leaf then childWalk
    else if (s.nodes childWalk).hashNibble = target then childWalk
    else lookupWalk s target isLast fuel (s.nodes childWalk).nextVP

/-- The levels of a lookup and of a removal, with the nibbles that are left: the leaf, if there is one. -/
def descend (s : IndexSlots) : List Nat → VPtr → Option VPtr
  | [], _ => none
  | target :: nibbles, nodeVP =>
    if (s.nodes nodeVP).leaf then some nodeVP
    else
      let childVP := s.lookupWalk target nibbles.isEmpty s.allocated (s.nodes nodeVP).listVP
      if childVP = 0 then none
      else if (s.nodes childVP).leaf then some childVP
      else descend s nibbles childVP

/-- `dircontentindex_lookup`: the first link of the hash's leaf. -/
def dircontentindexLookup (s : IndexSlots) (hash : UInt64) : VPtr :=
  if s.indexRoot = 0 then 0
  else
    match s.descend (nibbles hash) s.indexRoot with
    | some leaf => (s.nodes leaf).listVP
    | none => 0

/-- The slots that the links from `link` on name. -/
def linkList (s : IndexSlots) : Nat → VPtr → List VPtr
  | 0, _ => []
  | fuel + 1, link =>
    if link = 0 then [] else (s.links link).dirContentVP :: linkList s fuel (s.links link).nextVP

def lookupList (s : IndexSlots) (hash : UInt64) : List VPtr :=
  s.linkList s.allocated (s.dircontentindexLookup hash)

/-- The walk over the children of a node in an insertion: at the deepest level the first child is taken. -/
def insertWalk (s : IndexSlots) (target : Nat) (isLast : Bool) : Nat → VPtr → VPtr
  | 0, _ => 0
  | fuel + 1, childWalk =>
    if childWalk = 0 then 0
    else if isLast then childWalk
    else if (s.nodes childWalk).hashNibble = target then childWalk
    else insertWalk s target isLast fuel (s.nodes childWalk).nextVP

section

variable (fresh : Nat → VPtr)

/-- A new `DirContentLink` in front of those of a leaf. -/
def prependLink (s : IndexSlots) (leaf dirContentVP : VPtr) : IndexSlots :=
  let linkVP := fresh s.allocated
  { s with
    allocated := s.allocated + 1
    links := Function.update s.links linkVP ⟨dirContentVP, (s.nodes leaf).listVP⟩
    nodes := Function.update s.nodes leaf { s.nodes leaf with listVP := linkVP } }

/-- A new `DirContentIndex` in front of the children of a node. -/
def addChild (s : IndexSlots) (nodeVP : VPtr) (target : Nat) (isLast : Bool) : IndexSlots :=
  let newChildVP := fresh s.allocated
  { s with
    allocated := s.allocated + 1
    nodes := Function.update (Function.update s.nodes newChildVP ⟨target, isLast, 0, (s.nodes nodeVP).listVP⟩)
      nodeVP { s.nodes nodeVP with listVP := newChildVP } }

def insertLoop (dirContentVP : VPtr) : List Nat → VPtr → IndexSlots → Int × IndexSlots
  | [], _, s => (-1, s)
  | target :: nibbles, nodeVP, s =>
    if (s.nodes nodeVP).leaf then (0, s.prependLink fresh nodeVP dirContentVP)
    else
      let childVP := s.insertWalk target nibbles.isEmpty s.allocated (s.nodes nodeVP).listVP
      if childVP ≠ 0 then
        if nibbles.isEmpty then (0, s.prependLink fresh childVP dirContentVP)
        else insertLoop dirContentVP nibbles childVP s
      else if nibbles.isEmpty then
        (0, (s.addChild fresh nodeVP target true).prependLink fresh (fresh s.allocated) dirContentVP)
      else insertLoop dirContentVP nibbles (fresh s.allocated) (s.addChild fresh nodeVP target false)

def makeRoot (s : IndexSlots) : IndexSlots :=
  let rootVP := fresh s.allocated
  { s with
    allocated := s.allocated + 1
    nodes := Function.update s.nodes rootVP ⟨0, false, 0, 0⟩
    indexRoot := rootVP }

def dircontentindexInsert (s : IndexSlots) (hash : UInt64) (dirContentVP : VPtr) : Int × IndexSlots :=
  if dirContentVP = 0 then (-1, s)
  else
    let s := if s.indexRoot = 0 then s.makeRoot fresh else s
    insertLoop fresh dirContentVP (nibbles hash) s.indexRoot s

end

/-- The scan of a removal over the links of a leaf: the ones to `dirContentVP` are zeroed. -/
def scanLinks (dirContentVP : VPtr) : Nat → VPtr → Bool → IndexSlots → Bool × IndexSlots
  | 0, _, found, s => (found, s)
  | fuel + 1, linkVP, found, s =>
    if linkVP = 0 then (found, s)
    else if (s.links linkVP).dirContentVP = dirContentVP then
      scanLinks dirContentVP fuel (s.links linkVP).nextVP true
        { s with links := Function.update s.links linkVP { s.links linkVP with dirContentVP := 0 } }
    else scanLinks dirContentVP fuel (s.links linkVP).nextVP found s

def dircontentindexRemove (s : IndexSlots) (hash : UInt64) (dirContentVP : VPtr) : Int × IndexSlots :=
  if s.indexRoot = 0 ∨ dirContentVP = 0 then (-1, s)
  else
    match s.descend (nibbles hash) s.indexRoot with
    | none => (-1, s)
    | some leaf =>
      let r := scanLinks dirContentVP s.allocated (s.nodes leaf).listVP false s
      (if r.1 then 0 else -1, r.2)

/-! ## The shape -/

/-- The slot was given out by `pool_alloc`. -/
def Given (fresh : Nat → VPtr) (s : IndexSlots) (v : VPtr) : Prop := ∃ k < s.allocated, fresh k = v

/-- The nodes of an index. `loc` gives the inner node of a path of at most fifteen nibbles, `leafAt` the leaf under
a path of fifteen, `kids` the children of an inner node and `links` the links of a leaf, both in chain order. -/
structure Shape (fresh : Nat → VPtr) (s : IndexSlots) (loc leafAt : List Nat → Option VPtr)
    (kids links : List Nat → List VPtr) : Prop where
  root : loc [] = if s.indexRoot = 0 then none else some s.indexRoot
  parent : ∀ p a, loc p = none → loc (p ++ [a]) = none
  node : ∀ p v, loc p = some v → Given fresh s v ∧ (s.nodes v).leaf = false ∧ p.length ≤ 15
  inj : ∀ p q v, loc p = some v → loc q = some v → p = q
  chain : ∀ p v, loc p = some v → Linked.Chain (fun c => (s.nodes c).nextVP) 0 (s.nodes v).listVP (kids p)
  child : ∀ p v, loc p = some v → p.length < 15 → ∀ c a,
    c ∈ kids p ∧ (s.nodes c).hashNibble = a ↔ loc (p ++ [a]) = some c
  last : ∀ p, p.length = 15 → kids p = (leafAt p).toList
  leaf : ∀ p l, leafAt p = some l → Given fresh s l ∧ (s.nodes l).leaf = true ∧ loc p ≠ none ∧ p.length = 15
  leaf_inj : ∀ p q l, leafAt p = some l → leafAt q = some l → p = q
  linkChain : ∀ p l, leafAt p = some l → Linked.Chain (fun c => (s.links c).nextVP) 0 (s.nodes l).listVP (links p)
  linkless : ∀ p, leafAt p = none → links p = []
  linkGiven : ∀ p, ∀ c ∈ links p, Given fresh s c
  own : ∀ p q c, c ∈ links p → c ∈ links q → p = q

section Shape

variable {fresh : Nat → VPtr} {s s' : IndexSlots} {loc leafAt : List Nat → Option VPtr}
  {kids links : List Nat → List VPtr} {p : List Nat} {v x : VPtr}

theorem Given.succ (h : Given fresh s x) (hs : s'.allocated = s.allocated + 1) : Given fresh s' x := by
  obtain ⟨k, hk, rfl⟩ := h
  exact ⟨k, by omega, rfl⟩

theorem given_new (hs : s'.allocated = s.allocated + 1) : Given fresh s' (fresh s.allocated) :=
  ⟨s.allocated, by omega, rfl⟩

theorem Given.ne_new (hinj : Function.Injective fresh) (h : Given fresh s x) : x ≠ fresh s.allocated := by
  obtain ⟨k, hk, rfl⟩ := h
  intro heq
  exact absurd (hinj heq) (Nat.ne_of_lt hk)

structure Frame (fresh : Nat → VPtr) (s s' : IndexSlots) (v : VPtr) : Prop where
  allocated : s'.allocated = s.allocated + 1
  next : ∀ x, Given fresh s x → (s'.nodes x).nextVP = (s.nodes x).nextVP
  nibble : ∀ x, Given fresh s x → (s'.nodes x).hashNibble = (s.nodes x).hashNibble
  leaf : ∀ x, Given fresh s x → (s'.nodes x).leaf = (s.nodes x).leaf
  list : ∀ x, Given fresh s x → x ≠ v → (s'.nodes x).listVP = (s.nodes x).listVP
  links : ∀ x, Given fresh s x → s'.links x = s.links x

theorem frame_addChild (hinj : Function.Injective fresh) (v : VPtr) (target : Nat) (isLast : Bool) :
    Frame fresh s (s.addChild fresh v target isLast) v := by
  have hnode : ∀ x, Given fresh s x → (s.addChild fresh v target isLast).nodes x =
      if x = v then { s.nodes v with listVP := fresh s.allocated } else s.nodes x := by
    intro x hx
    simp only [addChild, Function.update_apply, if_neg (hx.ne_new hinj)]
  refine ⟨rfl, fun x hx => ?_, fun x hx => ?_, fun x hx => ?_, fun x hx hne => ?_, fun x _ => rfl⟩
  · rw [hnode x hx]
    split <;> simp_all
  · rw [hnode x hx]
    split <;> simp_all
  · rw [hnode x hx]
    split <;> simp_all
  · rw [hnode x hx, if_neg hne]

theorem frame_prependLink (hinj : Function.Injective fresh) (l : VPtr) (value : VPtr) :
    Frame fresh s (s.prependLink fresh l value) l := by
  have hnode : ∀ x, (s.prependLink fresh l value).nodes x =
      if x = l then { s.nodes l with listVP := fresh s.allocated } else s.nodes x := by
    intro x
    simp only [prependLink, Function.update_apply]
  refine ⟨rfl, fun x _ => ?_, fun x _ => ?_, fun x _ => ?_, fun x _ hne => ?_, fun x hx => ?_⟩
  · rw [hnode x]
    split <;> simp_all
  · rw [hnode x]
    split <;> simp_all
  · rw [hnode x]
    split <;> simp_all
  · rw [hnode x, if_neg hne]
  · exact Function.update_of_ne (hx.ne_new hinj) ..

variable (hinj : Function.Injective fresh) (hnull : ∀ k, fresh k ≠ 0)

section Tree

variable (h : Shape fresh s loc leafAt kids links)
include h

theorem Shape.kid_given (hv : loc p = some v) {c : VPtr} (hc : c ∈ kids p) : Given fresh s c := by
  obtain ⟨-, -, hlen⟩ := h.node p v hv
  obtain hlt | heq := Nat.lt_or_eq_of_le hlen
  · exact (h.node _ c ((h.child p v hv hlt c _).1 ⟨hc, rfl⟩)).1
  · rw [h.last p heq, Option.mem_toList] at hc
    exact (h.leaf p c hc).1

theorem Shape.leaf_ne (hv : loc p = some v) {q : List Nat} {l : VPtr} (hl : leafAt q = some l) : l ≠ v := by
  rintro rfl
  have hinner := (h.node p l hv).2.1
  rw [(h.leaf q l hl).2.1] at hinner
  cases hinner

theorem Frame.linkChain (hf : Frame fresh s s' v) {q : List Nat} {l : VPtr}
    (hl : leafAt q = some l) (hne : l ≠ v) :
    Linked.Chain (fun c => (s'.links c).nextVP) 0 (s'.nodes l).listVP (links q) := by
  rw [hf.list l (h.leaf q l hl).1 hne]
  refine (h.linkChain q l hl).congr fun c hc => ?_
  rw [hf.links c (h.linkGiven q c hc)]

theorem Frame.chain (hf : Frame fresh s s' v) {w : VPtr} (hw : loc p = some w) (hne : w ≠ v) :
    Linked.Chain (fun c => (s'.nodes c).nextVP) 0 (s'.nodes w).listVP (kids p) := by
  rw [hf.list w (h.node p w hw).1 hne]
  exact (h.chain p w hw).congr fun c hc => hf.next c (h.kid_given hw hc)

theorem Frame.child (hf : Frame fresh s s' v) {w c : VPtr} {a : Nat}
    (hw : loc p = some w) (hlt : p.length < 15) :
    c ∈ kids p ∧ (s'.nodes c).hashNibble = a ↔ loc (p ++ [a]) = some c := by
  rw [← h.child p w hw hlt c a]
  refine and_congr_right fun hc => ?_
  rw [hf.nibble c (h.kid_given hw hc)]

include hinj hnull in
theorem Shape.addInner {a : Nat} (hv : loc p = some v) (hlt : p.length < 15) (hnone : loc (p ++ [a]) = none) :
    Shape fresh (s.addChild fresh v a false) (Function.update loc (p ++ [a]) (some (fresh s.allocated))) leafAt
      (Function.update (Function.update kids p (fresh s.allocated :: kids p)) (p ++ [a]) []) links := by
  have hf := frame_addChild (s := s) hinj v a false
  have hgiven := (h.node p v hv).1
  have hvc : fresh s.allocated ≠ v := (hgiven.ne_new hinj).symm
  have hnew : (s.addChild fresh v a false).nodes (fresh s.allocated) = ⟨a, false, 0, (s.nodes v).listVP⟩ := by
    simp only [addChild, Function.update_apply, if_neg hvc, if_true]
  have hself : p ≠ p ++ [a] := by simp
  refine ⟨?_, fun q b hq => ?_, fun q w hw => ?_, fun q r w hq hr => ?_, fun q w hw => ?_, fun q w hw hq c b => ?_,
    fun q hq => ?_, fun q l hl => ?_, h.leaf_inj, fun q l hl => hf.linkChain h hl (h.leaf_ne hv hl), h.linkless,
    fun q c hc => (h.linkGiven q c hc).succ hf.allocated, h.own⟩
  · rw [Function.update_of_ne (by simp)]
    exact h.root
  · rw [Function.update_apply] at hq ⊢
    split at hq
    · cases hq
    · rw [if_neg, h.parent q b hq]
      rintro heq
      obtain ⟨rfl, -⟩ := List.append_inj' heq rfl
      rw [hv] at hq
      cases hq
  · rw [Function.update_apply] at hw
    split at hw
    · rename_i heq
      cases hw
      refine ⟨given_new hf.allocated, by rw [hnew], ?_⟩
      rw [heq, List.length_append, List.length_singleton]
      omega
    · obtain ⟨hg, hl, hlen⟩ := h.node q w hw
      exact ⟨hg.succ hf.allocated, (hf.leaf w hg).trans hl, hlen⟩
  · rw [Function.update_apply] at hq hr
    split at hq <;> split at hr
    · rename_i heq heq'
      rw [heq, heq']
    · cases hq
      exact absurd rfl ((h.node r _ hr).1.ne_new hinj)
    · cases hr
      exact absurd rfl ((h.node q _ hq).1.ne_new hinj)
    · exact h.inj q r w hq hr
  · rw [Function.update_apply] at hw ⊢
    split at hw
    · rename_i heq
      cases hw
      rw [if_pos heq, hnew]
      rfl
    · rename_i hne
      rw [if_neg hne, Function.update_apply]
      split
      · rename_i heq
        rw [heq, hv] at hw
        cases hw
        have hlist : ((s.addChild fresh v a false).nodes v).listVP = fresh s.allocated := by
          simp [addChild]
        rw [hlist]
        refine (h.chain p v hv).push (hnull _) (by rw [hnew]) fun c hc => hf.next c (h.kid_given hv hc)
      · rename_i hqp
        refine hf.chain h hw ?_
        rintro rfl
        exact hqp (h.inj q p w hw hv)
  · rw [Function.update_apply] at hw
    split at hw
    · rename_i heq
      subst heq
      rw [Function.update_self, Function.update_of_ne (by simp), h.parent _ b hnone]
      simp
    · rename_i hne
      rw [Function.update_of_ne hne]
      by_cases hqp : q = p
      · subst hqp
        rw [Function.update_self, Function.update_apply]
        by_cases hb : b = a
        · subst hb
          rw [if_pos rfl, List.mem_cons, Option.some_inj]
          constructor
          · rintro ⟨rfl | hc, hnib⟩
            · rfl
            · have := (hf.child h hv hlt).1 ⟨hc, hnib⟩
              rw [hnone] at this
              cases this
          · rintro rfl
            exact ⟨.inl rfl, by rw [hnew]⟩
        · rw [if_neg (by simpa using hb), List.mem_cons, ← hf.child h hv hlt]
          refine and_congr_left fun hnib => or_iff_right ?_
          rintro rfl
          rw [hnew] at hnib
          exact hb hnib.symm
      · rw [Function.update_of_ne hqp, Function.update_of_ne, hf.child h hw hq]
        intro heq
        exact hqp (List.append_inj' heq rfl).1
  · by_cases hqa : q = p ++ [a]
    · subst hqa
      rw [Function.update_self]
      cases hl : leafAt (p ++ [a]) with
      | none => rfl
      | some l => exact absurd hnone (h.leaf _ l hl).2.2.1
    · rw [Function.update_of_ne hqa, Function.update_of_ne (by rintro rfl; omega)]
      exact h.last q hq
  · obtain ⟨hg, hleaf, hloc, hlen⟩ := h.leaf q l hl
    refine ⟨hg.succ hf.allocated, (hf.leaf l hg).trans hleaf, ?_, hlen⟩
    rw [Function.update_apply]
    split
    · simp
    · exact hloc

include hinj hnull in
theorem Shape.addLeaf (a : Nat) (hv : loc p = some v) (hlen : p.length = 15) (hnone : leafAt p = none) :
    Shape fresh (s.addChild fresh v a true) loc (Function.update leafAt p (some (fresh s.allocated)))
      (Function.update kids p [fresh s.allocated]) links := by
  have hf := frame_addChild (s := s) hinj v a true
  have hgiven := (h.node p v hv).1
  have hvc : fresh s.allocated ≠ v := (hgiven.ne_new hinj).symm
  have hnew : (s.addChild fresh v a true).nodes (fresh s.allocated) = ⟨a, true, 0, (s.nodes v).listVP⟩ := by
    simp only [addChild, Function.update_apply, if_neg hvc, if_true]
  have hempty : (s.nodes v).listVP = 0 := by
    have hchain := h.chain p v hv
    rw [h.last p hlen, hnone] at hchain
    exact hchain
  refine ⟨h.root, h.parent, fun q w hw => ?_, h.inj, fun q w hw => ?_, fun q w hw hq c b => ?_, fun q hq => ?_,
    fun q l hl => ?_, fun q r l hq hr => ?_, fun q l hl => ?_, fun q hq => ?_,
    fun q c hc => (h.linkGiven q c hc).succ hf.allocated, h.own⟩
  · obtain ⟨hg, hl, hle⟩ := h.node q w hw
    exact ⟨hg.succ hf.allocated, (hf.leaf w hg).trans hl, hle⟩
  · rw [Function.update_apply]
    split
    · rename_i heq
      rw [heq, hv] at hw
      cases hw
      have hlist : ((s.addChild fresh v a true).nodes v).listVP = fresh s.allocated := by simp [addChild]
      rw [hlist]
      refine ⟨rfl, hnull _, ?_⟩
      show ((s.addChild fresh v a true).nodes (fresh s.allocated)).nextVP = 0
      rw [hnew]
      exact hempty
    · rename_i hqp
      refine hf.chain h hw ?_
      rintro rfl
      exact hqp (h.inj q p w hw hv)
  · rw [Function.update_of_ne (by rintro rfl; omega)]
    exact hf.child h hw hq
  · rw [Function.update_apply, Function.update_apply]
    split
    · rfl
    · exact h.last q hq
  · rw [Function.update_apply] at hl
    split at hl
    · rename_i heq
      cases hl
      refine ⟨given_new hf.allocated, by rw [hnew], ?_, heq ▸ hlen⟩
      rw [heq, hv]
      exact Option.some_ne_none _
    · obtain ⟨hg, hleaf, hloc, hq⟩ := h.leaf q l hl
      exact ⟨hg.succ hf.allocated, (hf.leaf l hg).trans hleaf, hloc, hq⟩
  · rw [Function.update_apply] at hq hr
    split at hq <;> split at hr
    · rename_i heq heq'
      rw [heq, heq']
    · cases hq
      exact absurd rfl ((h.leaf r _ hr).1.ne_new hinj)
    · cases hr
      exact absurd rfl ((h.leaf q _ hq).1.ne_new hinj)
    · exact h.leaf_inj q r l hq hr
  · rw [Function.update_apply] at hl
    split at hl
    · rename_i heq
      cases hl
      rw [heq, h.linkless p hnone, hnew]
      rfl
    · exact hf.linkChain h hl (h.leaf_ne hv hl)
  · rw [Function.update_apply] at hq
    split at hq
    · cases hq
    · exact h.linkless q hq

include hinj hnull in
theorem Shape.prependLink (value : VPtr) {l : VPtr} (hl : leafAt p = some l) :
    Shape fresh (s.prependLink fresh l value) loc leafAt kids
      (Function.update links p (fresh s.allocated :: links p)) := by
  have hf := frame_prependLink (s := s) hinj l value
  have hnew : (s.prependLink fresh l value).links (fresh s.allocated) = ⟨value, (s.nodes l).listVP⟩ :=
    Function.update_self ..
  refine ⟨h.root, h.parent, fun q w hw => ?_, h.inj, fun q w hw => ?_, fun q w hw hq c b => hf.child h hw hq, h.last,
    fun q m hm => ?_, h.leaf_inj, fun q m hm => ?_, fun q hq => ?_, fun q c hc => ?_, fun q r c hq hr => ?_⟩
  · obtain ⟨hg, hleaf, hle⟩ := h.node q w hw
    exact ⟨hg.succ hf.allocated, (hf.leaf w hg).trans hleaf, hle⟩
  · exact hf.chain h hw (h.leaf_ne hw hl).symm
  · obtain ⟨hg, hleaf, hloc⟩ := h.leaf q m hm
    exact ⟨hg.succ hf.allocated, (hf.leaf m hg).trans hleaf, hloc⟩
  · rw [Function.update_apply]
    split
    · rename_i heq
      rw [heq, hl] at hm
      cases hm
      have hlist : ((s.prependLink fresh l value).nodes l).listVP = fresh s.allocated := by
        simp [IndexSlots.prependLink]
      rw [hlist]
      refine (h.linkChain p l hl).push (hnull _) (by rw [hnew]) fun c hc => ?_
      rw [hf.links c (h.linkGiven p c hc)]
    · rename_i hqp
      refine hf.linkChain h hm ?_
      rintro rfl
      exact hqp (h.leaf_inj q p m hm hl)
  · rw [Function.update_of_ne, h.linkless q hq]
    rintro rfl
    rw [hl] at hq
    cases hq
  · rw [Function.update_apply] at hc
    split at hc
    · obtain rfl | hc := List.mem_cons.1 hc
      · exact given_new hf.allocated
      · exact (h.linkGiven p c hc).succ hf.allocated
    · exact (h.linkGiven q c hc).succ hf.allocated
  · have hold : ∀ q, c ∈ Function.update links p (fresh s.allocated :: links p) q →
        q = p ∧ c = fresh s.allocated ∨ c ∈ links q := by
      intro q hq
      rw [Function.update_apply] at hq
      split at hq
      · rename_i heq
        obtain rfl | hq := List.mem_cons.1 hq
        · exact .inl ⟨heq, rfl⟩
        · exact .inr (heq ▸ hq)
      · exact .inr hq
    obtain ⟨hqp, hcq⟩ | hq := hold q hq <;> obtain ⟨hrp, hcr⟩ | hr := hold r hr
    · rw [hqp, hrp]
    · exact absurd hcq ((h.linkGiven r _ hr).ne_new hinj)
    · exact absurd hcr ((h.linkGiven q _ hq).ne_new hinj)
    · exact h.own q r c hq hr

include hnull in
theorem Shape.makeRoot (hroot : s.indexRoot = 0) :
    Shape fresh (s.makeRoot fresh) (Function.update loc [] (some (fresh s.allocated))) leafAt
      (Function.update kids [] []) links := by
  have hnone : ∀ q, loc q = none := by
    intro q
    induction q using List.reverseRecOn with
    | nil => rw [h.root, if_pos hroot]
    | append_singleton q b ih => exact h.parent q b ih
  have hleaf : ∀ q, leafAt q = none := by
    intro q
    cases hl : leafAt q with
    | none => rfl
    | some l => exact absurd (hnone q) (h.leaf q l hl).2.2.1
  have hloc : ∀ q w, Function.update loc [] (some (fresh s.allocated)) q = some w → q = [] ∧ fresh s.allocated = w := by
    intro q w hw
    rw [Function.update_apply, hnone] at hw
    split at hw
    · rename_i heq
      exact ⟨heq, Option.some.inj hw⟩
    · cases hw
  have hnew : (s.makeRoot fresh).nodes (fresh s.allocated) = ⟨0, false, 0, 0⟩ := Function.update_self ..
  refine ⟨?_, fun q b _ => ?_, fun q w hw => ?_, fun q r w hq hr => ?_, fun q w hw => ?_, fun q w hw _ c b => ?_,
    fun q hq => ?_, fun q l hl => ?_, h.leaf_inj, fun q l hl => ?_, h.linkless,
    fun q c hc => (h.linkGiven q c hc).succ rfl, h.own⟩
  · rw [Function.update_self]
    exact (if_neg (hnull _)).symm
  · rw [Function.update_of_ne (by simp)]
    exact hnone _
  · obtain ⟨rfl, rfl⟩ := hloc q w hw
    exact ⟨given_new rfl, by rw [hnew], Nat.zero_le _⟩
  · rw [(hloc q w hq).1, (hloc r w hr).1]
  · obtain ⟨rfl, rfl⟩ := hloc q w hw
    rw [hnew, Function.update_self]
    rfl
  · obtain ⟨rfl, rfl⟩ := hloc q w hw
    rw [Function.update_self, Function.update_of_ne (by simp), hnone]
    simp
  · rw [Function.update_of_ne (by rintro rfl; cases hq)]
    exact h.last q hq
  · rw [hleaf] at hl
    cases hl
  · rw [hleaf] at hl
    cases hl

end Tree

/-! ## The walks -/

theorem lookupWalk_chain {target : Nat} {isLast : Bool} {l : List VPtr} : ∀ {fuel : Nat} {head : VPtr},
    Linked.Chain (fun c => (s.nodes c).nextVP) 0 head l → l.length ≤ fuel →
    s.lookupWalk target isLast fuel head =
      (l.find? fun c => isLast && (s.nodes c).leaf || (s.nodes c).hashNibble == target).getD 0 := by
  induction l with
  | nil =>
    rintro fuel head rfl _
    cases fuel <;> rfl
  | cons c l ih =>
    rintro fuel head ⟨rfl, hne, hrest⟩ hfuel
    obtain ⟨fuel, rfl⟩ := Nat.exists_eq_add_of_le' (Nat.one_le_of_lt hfuel)
    have hih := ih hrest (by simpa using hfuel)
    rw [lookupWalk, if_neg hne, List.find?_cons]
    cases hleaf : isLast && (s.nodes head).leaf with
    | true => simp
    | false =>
      by_cases hnib : (s.nodes head).hashNibble = target
      · simp [hnib]
      · have hskip : ((s.nodes head).hashNibble == target) = false := beq_false_of_ne hnib
        simpa [hnib, hskip] using hih

theorem insertWalk_chain {target : Nat} {isLast : Bool} {l : List VPtr} : ∀ {fuel : Nat} {head : VPtr},
    Linked.Chain (fun c => (s.nodes c).nextVP) 0 head l → l.length ≤ fuel →
    s.insertWalk target isLast fuel head =
      (l.find? fun c => isLast || (s.nodes c).hashNibble == target).getD 0 := by
  induction l with
  | nil =>
    rintro fuel head rfl _
    cases fuel <;> rfl
  | cons c l ih =>
    rintro fuel head ⟨rfl, hne, hrest⟩ hfuel
    obtain ⟨fuel, rfl⟩ := Nat.exists_eq_add_of_le' (Nat.one_le_of_lt hfuel)
    have hih := ih hrest (by simpa using hfuel)
    rw [insertWalk, if_neg hne, List.find?_cons]
    cases isLast with
    | true => simp
    | false =>
      by_cases hnib : (s.nodes head).hashNibble = target
      · simp [hnib]
      · have hskip : ((s.nodes head).hashNibble == target) = false := beq_false_of_ne hnib
        simpa [hnib, hskip] using hih

theorem linkList_chain {l : List VPtr} : ∀ {fuel : Nat} {head : VPtr},
    Linked.Chain (fun c => (s.links c).nextVP) 0 head l → l.length ≤ fuel →
    s.linkList fuel head = l.map fun c => (s.links c).dirContentVP := by
  induction l with
  | nil =>
    rintro fuel head rfl _
    cases fuel <;> rfl
  | cons c l ih =>
    rintro fuel head ⟨rfl, hne, hrest⟩ hfuel
    obtain ⟨fuel, rfl⟩ := Nat.exists_eq_add_of_le' (Nat.one_le_of_lt hfuel)
    rw [linkList, if_neg hne, List.map_cons, ih hrest (by simpa using hfuel)]

theorem Given.ne_zero (hnull : ∀ k, fresh k ≠ 0) (h : Given fresh s x) : x ≠ 0 := by
  obtain ⟨k, -, rfl⟩ := h
  exact hnull k

section Reach

variable (h : Shape fresh s loc leafAt kids links)
include h

theorem Shape.kids_length (hv : loc p = some v) : (kids p).length ≤ s.allocated :=
  (h.chain p v hv).length_le fun _ hc => h.kid_given hv hc

theorem Shape.links_length {l : VPtr} (hl : leafAt p = some l) : (links p).length ≤ s.allocated :=
  (h.linkChain p l hl).length_le (h.linkGiven p)

theorem Shape.find_child (hv : loc p = some v) (hlt : p.length < 15)
    (a : Nat) : ((kids p).find? fun c => (s.nodes c).hashNibble == a) = loc (p ++ [a]) := by
  cases hfind : (kids p).find? fun c => (s.nodes c).hashNibble == a with
  | some c =>
    have hnib : (s.nodes c).hashNibble = a := by simpa using List.find?_some hfind
    exact ((h.child p v hv hlt c a).1 ⟨List.mem_of_find?_eq_some hfind, hnib⟩).symm
  | none =>
    cases hloc : loc (p ++ [a]) with
    | none => rfl
    | some c =>
      obtain ⟨hc, hnib⟩ := (h.child p v hv hlt c a).2 hloc
      exact absurd hnib (by simpa using List.find?_eq_none.1 hfind c hc)

theorem Shape.loc_append (hp : loc p = none) (q : List Nat) : loc (p ++ q) = none := by
  induction q using List.reverseRecOn with
  | nil => rwa [List.append_nil]
  | append_singleton q b ih =>
    rw [← List.append_assoc]
    exact h.parent _ b ih

theorem Shape.leafAt_append (hp : loc p = none) (q : List Nat) : leafAt (p ++ q) = none := by
  cases hl : leafAt (p ++ q) with
  | none => rfl
  | some l => exact absurd (h.loc_append hp q) (h.leaf _ l hl).2.2.1

include hnull in
theorem Shape.descend (rest : List Nat) : ∀ {p : List Nat} {v : VPtr},
    loc p = some v → p.length + rest.length = 16 → s.descend rest v = leafAt (p ++ rest).dropLast := by
  induction rest with
  | nil =>
    intro p v hv hlen
    have := (h.node p v hv).2.2
    rw [List.length_nil] at hlen
    omega
  | cons a rest ih =>
    intro p v hv hlen
    have hinner : ¬ (s.nodes v).leaf = true := by simp [(h.node p v hv).2.1]
    rw [IndexSlots.descend, if_neg hinner]
    simp only [lookupWalk_chain (h.chain p v hv) (h.kids_length hv)]
    cases rest with
    | nil =>
      -- the deepest level: the only child is the leaf
      have hp : p.length = 15 := by simpa using hlen
      rw [h.last p hp, List.dropLast_concat]
      cases hl : leafAt p with
      | none => rfl
      | some l =>
        obtain ⟨hg, hleaf, -⟩ := h.leaf p l hl
        simp [hleaf, hg.ne_zero hnull]
    | cons b rest =>
      have hlt : p.length < 15 := by
        simp only [List.length_cons] at hlen
        omega
      have hsplit : p ++ a :: b :: rest = p ++ [a] ++ b :: rest := List.append_cons ..
      simp only [List.isEmpty_cons, Bool.false_and, Bool.false_or, h.find_child hv hlt]
      cases hloc : loc (p ++ [a]) with
      | none =>
        rw [hsplit, List.dropLast_append_cons, h.leafAt_append hloc]
        rfl
      | some c =>
        obtain ⟨hg, hleaf, -⟩ := h.node _ c hloc
        rw [Option.getD_some, if_neg (hg.ne_zero hnull), if_neg (by simp [hleaf]), hsplit]
        refine ih hloc ?_
        rw [List.length_append, List.length_singleton]
        simp only [List.length_cons] at hlen ⊢
        omega

end Reach

/-! ## What the leaves hold -/

def contents (s : IndexSlots) (links : List Nat → List VPtr) (p : List Nat) : List VPtr :=
  (links p).map fun c => (s.links c).dirContentVP

/-- The leaf under every path of fifteen nibbles holds the list of `f`. -/
def Holds (fresh : Nat → VPtr) (s : IndexSlots) (f : List Nat → List VPtr) : Prop :=
  ∃ loc leafAt kids links, Shape fresh s loc leafAt kids links ∧ s.contents links = f

theorem holds_empty : Holds fresh .empty fun _ => [] := by
  refine ⟨fun _ => none, fun _ => none, fun _ => [], fun _ => [], ?_, rfl⟩
  constructor <;> simp [IndexSlots.empty]

include hinj hnull in
theorem Shape.holds_prepend (h : Shape fresh s loc leafAt kids links) (value : VPtr) {l : VPtr}
    (hl : leafAt p = some l) : Holds fresh (s.prependLink fresh l value)
      (Function.update (s.contents links) p (value :: s.contents links p)) := by
  refine ⟨loc, leafAt, kids, _, h.prependLink hinj hnull value hl, funext fun q => ?_⟩
  have hold : ∀ q, ((links q).map fun c => ((s.prependLink fresh l value).links c).dirContentVP) =
      s.contents links q := by
    intro q
    refine List.map_congr_left fun c hc => ?_
    rw [(frame_prependLink hinj l value).links c (h.linkGiven q c hc)]
  rw [contents, Function.update_apply, Function.update_apply]
  split
  · have hnew : (s.prependLink fresh l value).links (fresh s.allocated) = ⟨value, (s.nodes l).listVP⟩ :=
      Function.update_self ..
    rw [List.map_cons, hold, hnew]
  · exact hold q

include hinj hnull in
/-- The levels of an insertion, by induction on the nibbles that are left: the nodes that are missing are made, and
the leaf of the path gets a link. -/
theorem Shape.insertLoop (value : VPtr) (rest : List Nat) : ∀ {s : IndexSlots}
    {loc leafAt : List Nat → Option VPtr} {kids links : List Nat → List VPtr} {p : List Nat} {v : VPtr},
    Shape fresh s loc leafAt kids links → loc p = some v → p.length + rest.length = 16 →
    ∃ s', insertLoop fresh value rest v s = (0, s') ∧ Holds fresh s'
      (Function.update (s.contents links) (p ++ rest).dropLast
        (value :: s.contents links (p ++ rest).dropLast)) := by
  induction rest with
  | nil =>
    intro s loc leafAt kids links p v h hv hlen
    have := (h.node p v hv).2.2
    rw [List.length_nil] at hlen
    omega
  | cons a rest ih =>
    intro s loc leafAt kids links p v h hv hlen
    have hinner : ¬ (s.nodes v).leaf = true := by simp [(h.node p v hv).2.1]
    rw [IndexSlots.insertLoop, if_neg hinner]
    simp only [insertWalk_chain (h.chain p v hv) (h.kids_length hv)]
    cases rest with
    | nil =>
      have hp : p.length = 15 := by simpa using hlen
      rw [h.last p hp, List.dropLast_concat]
      cases hl : leafAt p with
      | none =>
        have hleaf := h.addLeaf hinj hnull a hv hp hl
        refine ⟨(s.addChild fresh v a true).prependLink fresh (fresh s.allocated) value, by simp, ?_⟩
        exact hleaf.holds_prepend hinj hnull value (Function.update_self ..)
      | some l =>
        refine ⟨s.prependLink fresh l value, by simp [(h.leaf p l hl).1.ne_zero hnull], ?_⟩
        exact h.holds_prepend hinj hnull value hl
    | cons b rest =>
      have hlt : p.length < 15 := by
        simp only [List.length_cons] at hlen
        omega
      have hlen' : (p ++ [a]).length + (b :: rest).length = 16 := by
        simp only [List.length_append, List.length_cons, List.length_nil] at hlen ⊢
        omega
      rw [List.append_cons p a (b :: rest)]
      simp only [List.isEmpty_cons, Bool.false_or, h.find_child hv hlt]
      cases hloc : loc (p ++ [a]) with
      | none =>
        have hchild := h.addInner hinj hnull hv hlt hloc
        rw [Option.getD_none, if_neg (not_not.2 rfl), if_neg Bool.false_ne_true]
        exact ih hchild (Function.update_self ..) hlen'
      | some c =>
        simpa [(h.node _ c hloc).1.ne_zero hnull] using ih h hloc hlen'

include hinj hnull in
theorem Holds.insert {f : List Nat → List VPtr} (h : Holds fresh s f) (hash : UInt64) {value : VPtr}
    (hvalue : value ≠ 0) : ∃ s', dircontentindexInsert fresh s hash value = (0, s') ∧
      Holds fresh s' (Function.update f (nibbles hash).dropLast (value :: f (nibbles hash).dropLast)) := by
  obtain ⟨loc, leafAt, kids, links, h, rfl⟩ := h
  rw [dircontentindexInsert, if_neg hvalue]
  dsimp only
  split
  · rename_i hroot
    have hshape := h.makeRoot hnull hroot
    exact hshape.insertLoop hinj hnull value (nibbles hash) (Function.update_self ..) (by simp)
  · rename_i hroot
    have hloc : loc [] = some s.indexRoot := by rw [h.root, if_neg hroot]
    exact h.insertLoop hinj hnull value (nibbles hash) hloc (by simp)

theorem Shape.lookup (h : Shape fresh s loc leafAt kids links) (hnull : ∀ k, fresh k ≠ 0) (hash : UInt64) :
    s.indexRoot = 0 ∧ leafAt (nibbles hash).dropLast = none ∨
    s.indexRoot ≠ 0 ∧ s.descend (nibbles hash) s.indexRoot = leafAt (nibbles hash).dropLast := by
  by_cases hroot : s.indexRoot = 0
  · have hloc : loc [] = none := by rw [h.root, if_pos hroot]
    exact .inl ⟨hroot, h.leafAt_append hloc _⟩
  · have hloc : loc [] = some s.indexRoot := by rw [h.root, if_neg hroot]
    exact .inr ⟨hroot, h.descend hnull _ hloc (by simp)⟩

include hnull in
theorem Holds.lookupList {f : List Nat → List VPtr} (h : Holds fresh s f) (hash : UInt64) :
    s.lookupList hash = f (nibbles hash).dropLast := by
  obtain ⟨loc, leafAt, kids, links, h, rfl⟩ := h
  have hnil : ∀ fuel, s.linkList fuel 0 = [] := fun fuel => by cases fuel <;> rfl
  rw [IndexSlots.lookupList, dircontentindexLookup]
  obtain ⟨hroot, hleaf⟩ | ⟨hroot, hdescend⟩ := h.lookup hnull hash
  · rw [if_pos hroot, hnil, contents, h.linkless _ hleaf]
    rfl
  · rw [if_neg hroot, hdescend]
    cases hl : leafAt (nibbles hash).dropLast with
    | none =>
      rw [contents, h.linkless _ hl]
      exact hnil _
    | some l => exact linkList_chain (h.linkChain _ l hl) (h.links_length hl)

/-! ## Removal -/

/-- The links after a removal: those of the list that name `value` are zeroed. -/
def zeroLinks (value : VPtr) (l : List VPtr) (links : VPtr → DirContentLink) (c : VPtr) : DirContentLink :=
  if c ∈ l ∧ (links c).dirContentVP = value then { links c with dirContentVP := 0 } else links c

theorem zeroLinks_next (value : VPtr) (l : List VPtr) (links : VPtr → DirContentLink) (c : VPtr) :
    (zeroLinks value l links c).nextVP = (links c).nextVP := by
  rw [zeroLinks]
  split <;> rfl

theorem zeroLinks_cons_eq {value a : VPtr} (hvalue : value ≠ 0) (l : List VPtr) {links : VPtr → DirContentLink}
    (ha : (links a).dirContentVP = value) : zeroLinks value (a :: l) links =
      zeroLinks value l (Function.update links a { links a with dirContentVP := 0 }) := by
  funext c
  by_cases hc : c = a
  · subst hc
    simp [zeroLinks, ha, hvalue.symm]
  · simp [zeroLinks, hc]

theorem zeroLinks_cons_ne {value a : VPtr} (l : List VPtr) {links : VPtr → DirContentLink}
    (ha : (links a).dirContentVP ≠ value) : zeroLinks value (a :: l) links = zeroLinks value l links := by
  funext c
  by_cases hc : c = a
  · subst hc
    simp [zeroLinks, ha]
  · simp [zeroLinks, hc]

theorem scanLinks_chain {value : VPtr} (hvalue : value ≠ 0) {l : List VPtr} : ∀ {s : IndexSlots} {fuel : Nat}
    {head : VPtr} {found : Bool}, Linked.Chain (fun c => (s.links c).nextVP) 0 head l → l.Nodup → l.length ≤ fuel →
    scanLinks value fuel head found s =
      (found || l.any fun c => (s.links c).dirContentVP == value, { s with links := zeroLinks value l s.links }) := by
  induction l with
  | nil =>
    rintro s fuel head found rfl _ _
    have hnone : zeroLinks value [] s.links = s.links := by
      funext c
      simp [zeroLinks]
    cases fuel <;> simp [scanLinks, hnone]
  | cons a l ih =>
    rintro s fuel head found ⟨rfl, hne, hrest⟩ hnodup hfuel
    obtain ⟨fuel, rfl⟩ := Nat.exists_eq_add_of_le' (Nat.one_le_of_lt hfuel)
    obtain ⟨hhead, hnodup⟩ := List.nodup_cons.1 hnodup
    have hfuel : l.length ≤ fuel := by simpa using hfuel
    rw [scanLinks, if_neg hne]
    split
    · rename_i heq
      have hother : ∀ c ∈ l, Function.update s.links head { s.links head with dirContentVP := 0 } c = s.links c := by
        intro c hc
        refine Function.update_of_ne ?_ ..
        rintro rfl
        exact hhead hc
      have hchain : Linked.Chain (fun c =>
          (Function.update s.links head { s.links head with dirContentVP := 0 } c).nextVP) _ _ l :=
        hrest.congr fun c hc => by rw [hother c hc]
      rw [ih hchain hnodup hfuel, zeroLinks_cons_eq hvalue l heq]
      simp [heq]
    · rename_i hskip
      rw [ih hrest hnodup hfuel, zeroLinks_cons_ne l hskip, List.any_cons, beq_false_of_ne hskip, Bool.false_or]

theorem Shape.zeroLinks (h : Shape fresh s loc leafAt kids links) (value : VPtr) (l : List VPtr) :
    Shape fresh { s with links := IndexSlots.zeroLinks value l s.links } loc leafAt kids links := by
  refine ⟨h.root, h.parent, h.node, h.inj, h.chain, h.child, h.last, h.leaf, h.leaf_inj, fun q m hm => ?_,
    h.linkless, h.linkGiven, h.own⟩
  exact (h.linkChain q m hm).congr fun c _ => zeroLinks_next ..

include hnull in
/-- `dircontentindex_remove` zeroes the links to a slot in the hash's leaf, and says whether there was one. -/
theorem Holds.remove {f : List Nat → List VPtr} (h : Holds fresh s f) (hash : UInt64) {value : VPtr}
    (hvalue : value ≠ 0) : ∃ s', dircontentindexRemove s hash value =
        (if value ∈ f (nibbles hash).dropLast then 0 else -1, s') ∧
      Holds fresh s' (Function.update f (nibbles hash).dropLast
        ((f (nibbles hash).dropLast).map fun c => if c = value then 0 else c)) := by
  obtain ⟨loc, leafAt, kids, links, h, rfl⟩ := h
  set key := (nibbles hash).dropLast with hkey
  have hnone : leafAt key = none → value ∉ s.contents links key ∧
      Holds fresh s (Function.update (s.contents links) key
        ((s.contents links key).map fun c => if c = value then 0 else c)) := by
    intro hl
    have hempty : s.contents links key = [] := by rw [contents, h.linkless key hl, List.map_nil]
    rw [hempty]
    refine ⟨List.not_mem_nil, loc, leafAt, kids, links, h, ?_⟩
    rw [List.map_nil, ← hempty, Function.update_eq_self]
  rw [dircontentindexRemove]
  obtain ⟨hroot, hleaf⟩ | ⟨hroot, hdescend⟩ := h.lookup hnull hash
  · obtain ⟨hmem, hholds⟩ := hnone hleaf
    rw [if_pos (.inl hroot), if_neg hmem]
    exact ⟨s, rfl, hholds⟩
  · rw [if_neg (not_or.2 ⟨hroot, hvalue⟩), hdescend, ← hkey]
    cases hl : leafAt key with
    | none =>
      obtain ⟨hmem, hholds⟩ := hnone hl
      rw [if_neg hmem]
      exact ⟨s, rfl, hholds⟩
    | some l =>
      have hchain := h.linkChain key l hl
      dsimp only
      rw [scanLinks_chain hvalue hchain hchain.nodup (h.links_length hl)]
      refine ⟨_, ?_, loc, leafAt, kids, links, h.zeroLinks value (links key), funext fun q => ?_⟩
      · simp [contents]
      · rw [Function.update_apply]
        split
        · rename_i heq
          rw [heq, contents, contents, List.map_map]
          refine List.map_congr_left fun c hc => ?_
          simp only [IndexSlots.zeroLinks, hc, true_and, Function.comp_apply]
          split <;> rfl
        · rename_i hne
          refine List.map_congr_left fun c hc => ?_
          have hother : c ∉ links key := fun hc' => hne (h.own q key c hc hc')
          simp [IndexSlots.zeroLinks, hother]

end Shape

end IndexSlots

/-! ## Histories -/

inductive IndexCall where
  | insert (hash : UInt64) (value : VPtr)
  | remove (hash : UInt64) (value : VPtr)

def IndexCall.value : IndexCall → VPtr
  | .insert _ value => value
  | .remove _ value => value

def IndexCall.run (fresh : Nat → VPtr) (s : IndexSlots) : IndexCall → IndexSlots
  | .insert hash value => (s.dircontentindexInsert fresh hash value).2
  | .remove hash value => (s.dircontentindexRemove hash value).2

def indexRun (fresh : Nat → VPtr) (calls : List IndexCall) : IndexSlots :=
  calls.foldl (IndexCall.run fresh) .empty

/-- The hashes agree in the top 60 bits. -/
def SameLeaf (g h : UInt64) : Prop := g >>> 4 = h >>> 4

/-- An insertion of the value came after its last removal, both under hashes of this leaf. -/
def InsertedSince (calls : List IndexCall) (hash : UInt64) (value : VPtr) : Prop :=
  ∃ before g after, calls = before ++ .insert g value :: after ∧ SameLeaf g hash ∧
    ∀ g', .remove g' value ∈ after → ¬ SameLeaf g' hash

def IndexCall.effect (f : List Nat → List VPtr) : IndexCall → List Nat → List VPtr
  | .insert hash value =>
    Function.update f (nibbles hash).dropLast (value :: f (nibbles hash).dropLast)
  | .remove hash value =>
    Function.update f (nibbles hash).dropLast
      ((f (nibbles hash).dropLast).map fun c => if c = value then 0 else c)

def leafLists (calls : List IndexCall) : List Nat → List VPtr := calls.foldl IndexCall.effect fun _ => []

section Histories

variable {fresh : Nat → VPtr} {calls : List IndexCall} {hash g : UInt64} {value w : VPtr}

theorem IndexCall.holds (hinj : Function.Injective fresh) (hnull : ∀ k, fresh k ≠ 0) {s : IndexSlots}
    {f : List Nat → List VPtr} (h : s.Holds fresh f) {call : IndexCall} (hcall : call.value ≠ 0) :
    (call.run fresh s).Holds fresh (call.effect f) := by
  cases call with
  | insert hash value =>
    have hvalue : value ≠ 0 := hcall
    obtain ⟨s', heq, hholds⟩ := h.insert hinj hnull hash hvalue
    rwa [IndexCall.run, heq]
  | remove hash value =>
    have hvalue : value ≠ 0 := hcall
    obtain ⟨s', heq, hholds⟩ := h.remove hnull hash hvalue
    rwa [IndexCall.run, heq]

theorem holds_indexRun (hinj : Function.Injective fresh) (hnull : ∀ k, fresh k ≠ 0)
    (hcalls : ∀ call ∈ calls, call.value ≠ 0) : (indexRun fresh calls).Holds fresh (leafLists calls) := by
  induction calls using List.reverseRecOn with
  | nil => exact IndexSlots.holds_empty
  | append_singleton calls call ih =>
    obtain ⟨hcalls, hcall⟩ := List.forall_mem_append.1 hcalls
    rw [indexRun, leafLists, List.foldl_append, List.foldl_append]
    exact IndexCall.holds hinj hnull (ih hcalls) (hcall call List.mem_cons_self)

theorem sameLeaf_iff : SameLeaf g hash ↔ (nibbles hash).dropLast = (nibbles g).dropLast := by
  have hshift : ∀ h : UInt64, (h >>> 4).toNat = h.toNat / 16 := by
    intro h
    rw [UInt64.toNat_shiftRight, Nat.shiftRight_eq_div_pow]
    rfl
  rw [SameLeaf, ← UInt64.toNat_inj, hshift, hshift, nibbles_dropLast, eq_comm]

theorem insertedSince_insert : InsertedSince (calls ++ [.insert g w]) hash value ↔
    w = value ∧ SameLeaf g hash ∨ InsertedSince calls hash value := by
  constructor
  · rintro ⟨before, g', after, heq, hsame, hafter⟩
    obtain rfl | ⟨after, last, rfl⟩ := List.eq_nil_or_concat' after
    · obtain ⟨-, hlast⟩ := List.append_inj' heq rfl
      cases hlast
      exact .inl ⟨rfl, hsame⟩
    · rw [← List.cons_append, ← List.append_assoc] at heq
      obtain ⟨rfl, -⟩ := List.append_inj' heq rfl
      exact .inr ⟨before, g', after, rfl, hsame, fun g'' hg => hafter g'' (List.mem_append_left _ hg)⟩
  · rintro (⟨rfl, hsame⟩ | ⟨before, g', after, rfl, hsame, hafter⟩)
    · exact ⟨calls, g, [], rfl, hsame, by simp⟩
    · refine ⟨before, g', after ++ [.insert g w], by simp, hsame, fun g'' hg => hafter g'' ?_⟩
      simpa using hg

theorem insertedSince_remove : InsertedSince (calls ++ [.remove g w]) hash value ↔
    ¬ (w = value ∧ SameLeaf g hash) ∧ InsertedSince calls hash value := by
  constructor
  · rintro ⟨before, g', after, heq, hsame, hafter⟩
    obtain rfl | ⟨after, last, rfl⟩ := List.eq_nil_or_concat' after
    · obtain ⟨-, hlast⟩ := List.append_inj' heq rfl
      cases hlast
    · rw [← List.cons_append, ← List.append_assoc] at heq
      obtain ⟨rfl, hlast⟩ := List.append_inj' heq rfl
      cases hlast
      refine ⟨?_, before, g', after, rfl, hsame, fun g'' hg => hafter g'' (List.mem_append_left _ hg)⟩
      rintro ⟨rfl, hg⟩
      exact hafter g (by simp) hg
  · rintro ⟨hne, before, g', after, rfl, hsame, hafter⟩
    refine ⟨before, g', after ++ [.remove g w], by simp, hsame, fun g'' hg hs => ?_⟩
    obtain hg | hg := List.mem_append.1 hg
    · exact hafter g'' hg hs
    · cases List.mem_singleton.1 hg
      exact hne ⟨rfl, hs⟩

theorem mem_leafLists (hvalue : value ≠ 0) :
    value ∈ leafLists calls (nibbles hash).dropLast ↔ InsertedSince calls hash value := by
  induction calls using List.reverseRecOn with
  | nil => simp [leafLists, InsertedSince]
  | append_singleton calls call ih =>
    have hfold : leafLists (calls ++ [call]) = call.effect (leafLists calls) := by
      rw [leafLists, List.foldl_append]
      rfl
    rw [hfold]
    cases call with
    | insert g w =>
      rw [insertedSince_insert, sameLeaf_iff, ← ih, IndexCall.effect, Function.update_apply]
      split
      · rename_i hsame
        rw [← hsame, List.mem_cons]
        simp [eq_comm]
      · rename_i hother
        simp [hother]
    | remove g w =>
      rw [insertedSince_remove, sameLeaf_iff, ← ih, IndexCall.effect, Function.update_apply]
      split
      · rename_i hsame
        rw [← hsame, List.mem_map]
        constructor
        · rintro ⟨c, hc, heq⟩
          split at heq
          · exact absurd heq.symm hvalue
          · rename_i hne
            subst heq
            exact ⟨fun hw => hne hw.1.symm, hc⟩
        · rintro ⟨hne, hc⟩
          exact ⟨value, hc, if_neg fun hw => hne ⟨hw.symm, rfl⟩⟩
      · rename_i hother
        simp [hother]

end Histories

/-! ## The result -/

/-- A lookup lists a slot just when it was inserted since its last removal, and a removal returns 0 just when the
lookup before it listed the slot. -/
theorem radix_index_semantics (fresh : Nat → VPtr) (hinj : Function.Injective fresh) (hnull : ∀ k, fresh k ≠ 0)
    (calls : List IndexCall) (hcalls : ∀ call ∈ calls, call.value ≠ 0) (hash : UInt64) (value : VPtr)
    (hvalue : value ≠ 0) :
    (value ∈ ((indexRun fresh calls).lookupList hash).filter (· ≠ 0) ↔ InsertedSince calls hash value) ∧
    (((indexRun fresh calls).dircontentindexRemove hash value).1 = 0 ↔
      value ∈ ((indexRun fresh calls).lookupList hash).filter (· ≠ 0)) := by
  have h := holds_indexRun hinj hnull hcalls
  have hmem : value ∈ ((indexRun fresh calls).lookupList hash).filter (· ≠ 0) ↔
      value ∈ leafLists calls (nibbles hash).dropLast := by
    rw [h.lookupList hnull hash, List.mem_filter]
    exact and_iff_left (by simpa using hvalue)
  obtain ⟨s', heq, -⟩ := h.remove hnull hash hvalue
  refine ⟨hmem.trans (mem_leafLists hvalue), ?_⟩
  rw [hmem, heq]
  split
  · simp_all
  · simp_all

/-- Two hashes that differ in their last nibble only share a leaf: what one inserts the other removes. -/
theorem radix_index_semantics_shared_leaf :
    let calls : List IndexCall := [.insert 0x10 7, .remove 0x13 7, .insert 0x1F 7]
    7 ∈ ((indexRun (· + 1) calls).lookupList 0x11).filter (· ≠ 0) ∧
      ((indexRun (· + 1) calls).dircontentindexRemove 0x12 7).1 = 0 := by
  have h := radix_index_semantics (· + 1) (fun _ _ h => Nat.succ.inj h) (fun k => Nat.succ_ne_zero k)
    [.insert 0x10 7, .remove 0x13 7, .insert 0x1F 7] (by simp [IndexCall.value])
  have hmem := (h 0x11 7 (by decide)).1.2
    ⟨[.insert 0x10 7, .remove 0x13 7], 0x1F, [], rfl, rfl, by simp⟩
  have hmem' := (h 0x12 7 (by decide)).1.2
    ⟨[.insert 0x10 7, .remove 0x13 7], 0x1F, [], rfl, rfl, by simp⟩
  exact ⟨hmem, (h 0x12 7 (by decide)).2.2 hmem'⟩

end SphereVFS
