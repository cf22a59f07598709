import SphereVFS.SegmentCache
import SphereVFS.DirSegments

/-!
# SphereVFS.PageChains

The `PageNode`s of a segment: a chain in ascending order of page id, with a stored count.

The first part is the end of `tree_resolve_page` in the slots of the pool: one walk finds the node or
the place for it, a second one finds the successor, and the node before it is written back from a
copy. On a segment that holds a list of nodes, this is `findPage` and `insertPage` on that list.
The second part is what holds of the lists after every run of operations, at whatever epochs.
-/

namespace SphereVFS

/-! ## The chain in the slots of the pool -/

/-- What the walks read of the slot of a `PageNode`. -/
structure PageSlot where
  id : Nat
  nextPtr : VPtr

/-- The slot of a `FileContent`, and the slots of the `PageNode`s. -/
structure ContentSlots where
  rootPtr : VPtr
  pageCount : Nat
  page : VPtr → PageSlot

/-- `find_pageno_state`, without the page that is looked for. -/
structure FindPageno where
  foundPnVp : VPtr := 0
  prevPnVp : VPtr := 0
  foundHigher : Bool := false
  found : Bool := false

/-- `find_pageno_cb`: whether the walk stops, and the new state. -/
def findPagenoCb (target : Nat) (pnVp : VPtr) (slot : PageSlot) (s : FindPageno) : Bool × FindPageno :=
  if slot.id = target then (true, { s with foundPnVp := pnVp, found := true })
  else if target < slot.id ∧ ¬ s.foundHigher then (true, { s with foundHigher := true })
  else (false, { s with prevPnVp := pnVp })

namespace ContentSlots

/-- `walk_content_unit_chain` with `find_pageno_cb`. -/
def walkContentUnitChain (c : ContentSlots) (target : Nat) : Nat → VPtr → FindPageno → FindPageno
  | 0, _, s => s
  | fuel + 1, vp, s =>
    if vp = 0 then s
    else
      let r := findPagenoCb target vp (c.page vp) s
      if r.1 then r.2 else walkContentUnitChain c target fuel (c.page vp).nextPtr r.2

def findHigher (c : ContentSlots) (target : Nat) : Nat → VPtr → VPtr
  | 0, _ => 0
  | fuel + 1, walkVp =>
    if walkVp = 0 then 0
    else if target < (c.page walkVp).id then walkVp
    else findHigher c target fuel (c.page walkVp).nextPtr

def linkPnIntoChain (c : ContentSlots) (prevPnVp newPnVp : VPtr) : ContentSlots :=
  if prevPnVp = 0 then { c with rootPtr := newPnVp }
  else { c with page := Function.update c.page prevPnVp { c.page prevPnVp with nextPtr := newPnVp } }

/-- Step 2 of `tree_resolve_page`, in the segment that it found; `newPnVp` is what `pool_alloc` returns. -/
def resolveInSegment (c : ContentSlots) (fuel target : Nat) (newPnVp : VPtr) (isWrite : Bool) :
    Option VPtr × ContentSlots :=
  let s := c.walkContentUnitChain target fuel c.rootPtr {}
  if s.found then (some s.foundPnVp, c)
  else if ¬ isWrite then (none, c)
  else
    let nextPn := if s.foundHigher then c.findHigher target fuel c.rootPtr else 0
    let written : ContentSlots := { c with page := Function.update c.page newPnVp ⟨target, nextPn⟩ }
    let linked := written.linkPnIntoChain s.prevPnVp newPnVp
    (some newPnVp, { linked with pageCount := linked.pageCount + 1 })

/-- The slots hold the segment: its count, its nodes in their order, and their ids. -/
structure Holds (st : State) (c : ContentSlots) (fc : FileContent) : Prop where
  count : c.pageCount = fc.pageCount
  chain : Linked.Chain (fun v => (c.page v).nextPtr) 0 c.rootPtr fc.pages
  ids : ∀ v ∈ fc.pages, (c.page v).id = pageIdx st v

variable {c : ContentSlots} {target : Nat} {pre post : List VPtr}

theorem walk_lower (hpre : ∀ v ∈ pre, (c.page v).id < target) : ∀ (fuel : Nat) {head : VPtr} (s : FindPageno),
    Linked.Chain (fun v => (c.page v).nextPtr) 0 head (pre ++ post) →
    ∃ head', Linked.Chain (fun v => (c.page v).nextPtr) 0 head' post ∧
      c.walkContentUnitChain target (pre.length + fuel) head s =
        c.walkContentUnitChain target fuel head' { s with prevPnVp := pre.getLast?.getD s.prevPnVp } := by
  induction pre with
  | nil =>
    intro fuel head s hchain
    exact ⟨head, hchain, by rw [List.length_nil, Nat.zero_add]; rfl⟩
  | cons a pre ih =>
    intro fuel head s hchain
    obtain ⟨hlow, hlower⟩ := List.forall_mem_cons.1 hpre
    obtain ⟨rfl, hne, hrest⟩ := hchain
    obtain ⟨head', hpost, hwalk⟩ := ih hlower fuel { s with prevPnVp := head } hrest
    refine ⟨head', hpost, ?_⟩
    have hcb : findPagenoCb target head (c.page head) s = (false, { s with prevPnVp := head }) := by
      rw [findPagenoCb, if_neg (Nat.ne_of_lt hlow), if_neg fun h => Nat.lt_asymm hlow h.1]
    rw [List.length_cons, Nat.add_right_comm, walkContentUnitChain, if_neg hne, hcb]
    simp only [Bool.false_eq_true, if_false, hwalk, List.getLast?_cons, Option.getD_some]

theorem findHigher_lower (hpre : ∀ v ∈ pre, (c.page v).id < target) : ∀ (fuel : Nat) {head : VPtr},
    Linked.Chain (fun v => (c.page v).nextPtr) 0 head (pre ++ post) →
    ∃ head', Linked.Chain (fun v => (c.page v).nextPtr) 0 head' post ∧
      c.findHigher target (pre.length + fuel) head = c.findHigher target fuel head' := by
  induction pre with
  | nil =>
    intro fuel head hchain
    exact ⟨head, hchain, by rw [List.length_nil, Nat.zero_add]⟩
  | cons a pre ih =>
    intro fuel head hchain
    obtain ⟨hlow, hlower⟩ := List.forall_mem_cons.1 hpre
    obtain ⟨rfl, hne, hrest⟩ := hchain
    obtain ⟨head', hpost, hwalk⟩ := ih hlower fuel hrest
    refine ⟨head', hpost, ?_⟩
    rw [List.length_cons, Nat.add_right_comm, findHigher, if_neg hne, if_neg (Nat.lt_asymm hlow), hwalk]

def lower (st : State) (target : Nat) (pages : List VPtr) : List VPtr :=
  pages.takeWhile fun v => decide (pageIdx st v < target)

def upper (st : State) (target : Nat) (pages : List VPtr) : List VPtr :=
  pages.dropWhile fun v => decide (pageIdx st v < target)

theorem lower_append_upper (st : State) (target : Nat) (pages : List VPtr) :
    lower st target pages ++ upper st target pages = pages := List.takeWhile_append_dropWhile

theorem findPage_upper (st : State) (target : Nat) (pages : List VPtr) :
    findPage st target pages =
      (upper st target pages).head?.filter fun v => decide (pageIdx st v = target) := by
  have hfind : pages.find? (fun v => decide (target ≤ pageIdx st v)) = (upper st target pages).head? := by
    have hnot : (fun v => !decide (target ≤ pageIdx st v)) = fun v => decide (pageIdx st v < target) := by
      funext v
      simp [← decide_not]
    rw [upper, List.find?_eq_head?_dropWhile_not, hnot]
  rw [findPage, hfind]
  cases (upper st target pages).head? with
  | none => rfl
  | some v => simp [Option.filter]

variable {st st' : State} {fc : FileContent} {fuel : Nat} {newPnVp : VPtr}

theorem Holds.walks (h : Holds st c fc) (target : Nat) (hfuel : fc.pages.length ≤ fuel) :
    let s := c.walkContentUnitChain target fuel c.rootPtr {}
    (s.found = true ∧ findPage st target fc.pages = some s.foundPnVp) ∨
    (s.found = false ∧ findPage st target fc.pages = none ∧
      s.prevPnVp = (lower st target fc.pages).getLast?.getD 0 ∧
      (if s.foundHigher then c.findHigher target fuel c.rootPtr else 0) =
        (upper st target fc.pages).head?.getD 0) := by
  have hsplit := lower_append_upper st target fc.pages
  have hlower : ∀ v ∈ lower st target fc.pages, (c.page v).id < target := by
    intro v hv
    rw [h.ids v ((List.takeWhile_sublist _).subset hv)]
    simpa using List.mem_takeWhile_imp hv
  have hlength := congrArg List.length hsplit
  rw [List.length_append] at hlength
  obtain ⟨rest, rfl⟩ := Nat.exists_eq_add_of_le
    (show (lower st target fc.pages).length ≤ fuel by omega)
  have hchain := h.chain
  rw [← hsplit] at hchain
  obtain ⟨head, hpost, hwalk⟩ := walk_lower hlower rest {} hchain
  obtain ⟨head', hpost', hsecond⟩ := findHigher_lower hlower rest hchain
  rw [findPage_upper, hwalk, hsecond, hpost'.head_eq]
  cases hup : upper st target fc.pages with
  | nil =>
    rw [hup] at hpost
    obtain rfl : head = 0 := hpost
    have hstop : ∀ s, c.walkContentUnitChain target rest 0 s = s := by
      intro s
      cases rest <;> rfl
    rw [hstop]
    exact .inr ⟨rfl, rfl, rfl, rfl⟩
  | cons v post =>
    rw [hup] at hpost hlength
    obtain ⟨rfl, hne, -⟩ := hpost
    obtain ⟨rest, rfl⟩ := Nat.exists_eq_add_of_le' (show 1 ≤ rest by simp at hlength; omega)
    have hmem : head ∈ fc.pages := (List.dropWhile_sublist _).subset (hup ▸ List.mem_cons_self)
    have hge : target ≤ (c.page head).id := by
      have hfirst := List.head_dropWhile_not (fun v => decide (pageIdx st v < target))
        (show upper st target fc.pages ≠ [] by simp [hup])
      simp only [show List.dropWhile (fun v => decide (pageIdx st v < target)) fc.pages = head :: post from hup,
        List.head_cons] at hfirst
      rw [h.ids head hmem]
      simpa using hfirst
    rw [walkContentUnitChain, if_neg hne, findPagenoCb, List.head?_cons, Option.filter_some,
      ← h.ids head hmem, findHigher]
    by_cases heq : (c.page head).id = target
    · left
      simp [heq]
    · right
      simp [heq, show target < (c.page head).id by omega, hne]

/-- The slots after a new node was written and linked behind the nodes with lower ids. -/
def inserted (c : ContentSlots) (target : Nat) (newPnVp prevPnVp nextPn : VPtr) : ContentSlots :=
  let written : ContentSlots := { c with page := Function.update c.page newPnVp ⟨target, nextPn⟩ }
  let linked := written.linkPnIntoChain prevPnVp newPnVp
  { linked with pageCount := linked.pageCount + 1 }

section Inserted

variable {prevPnVp nextPn v : VPtr}

theorem inserted_new (hprev : newPnVp ≠ prevPnVp) :
    (c.inserted target newPnVp prevPnVp nextPn).page newPnVp = ⟨target, nextPn⟩ := by
  rw [inserted, linkPnIntoChain]
  split
  · exact Function.update_self ..
  · exact (Function.update_of_ne hprev ..).trans (Function.update_self ..)

theorem inserted_other (hnew : v ≠ newPnVp) (hprev : v ≠ prevPnVp) :
    (c.inserted target newPnVp prevPnVp nextPn).page v = c.page v := by
  rw [inserted, linkPnIntoChain]
  split
  · exact Function.update_of_ne hnew ..
  · exact (Function.update_of_ne hprev ..).trans (Function.update_of_ne hnew ..)

theorem inserted_prev (hne : prevPnVp ≠ 0) (hnew : prevPnVp ≠ newPnVp) :
    (c.inserted target newPnVp prevPnVp nextPn).page prevPnVp = ⟨(c.page prevPnVp).id, newPnVp⟩ := by
  rw [inserted, linkPnIntoChain, if_neg hne]
  refine (Function.update_self ..).trans ?_
  dsimp only
  rw [Function.update_of_ne hnew]

theorem inserted_id (hne : v ≠ 0) (hnew : v ≠ newPnVp) :
    ((c.inserted target newPnVp prevPnVp nextPn).page v).id = (c.page v).id := by
  by_cases hprev : v = prevPnVp
  · subst hprev
    rw [inserted_prev hne hnew]
  · rw [inserted_other hnew hprev]

end Inserted

theorem Holds.insert (h : Holds st c fc) (hne : newPnVp ≠ 0) (hnew : newPnVp ∉ fc.pages)
    (hidx : ∀ v ∈ fc.pages, pageIdx st' v = pageIdx st v) (hid : pageIdx st' newPnVp = target) :
    Holds st' (c.inserted target newPnVp ((lower st target fc.pages).getLast?.getD 0)
      ((upper st target fc.pages).head?.getD 0)) ⟨fc.pageCount + 1, insertPage st target newPnVp fc.pages⟩ := by
  set prev := (lower st target fc.pages).getLast?.getD 0 with hprev
  set next := (upper st target fc.pages).head?.getD 0
  have hother : ∀ v ∈ fc.pages, v ≠ newPnVp := by
    rintro v hv rfl
    exact hnew hv
  have hsplit := lower_append_upper st target fc.pages
  have hchain := h.chain
  rw [← hsplit] at hchain
  have hpages : insertPage st target newPnVp fc.pages =
      lower st target fc.pages ++ newPnVp :: upper st target fc.pages := rfl
  have hids : newPnVp ≠ prev → ∀ v ∈ insertPage st target newPnVp fc.pages,
      ((c.inserted target newPnVp prev next).page v).id = pageIdx st' v := by
    intro hprev v hv
    obtain rfl | hv := mem_insertPage.1 hv
    · rw [inserted_new hprev, hid]
    · rw [inserted_id (h.chain.ne_null hv) (hother v hv), hidx v hv, h.ids v hv]
  obtain hnil | ⟨l, p, hl⟩ := List.eq_nil_or_concat (lower st target fc.pages)
  · -- the new node comes first
    obtain hprev0 : prev = 0 := by rw [hprev, hnil]; rfl
    refine ⟨?_, ?_, hids (by rwa [hprev0])⟩
    · rw [hprev0]
      exact congrArg (· + 1) h.count
    · rw [hnil, List.nil_append] at hchain
      rw [hpages, hnil, List.nil_append, hprev0,
        show (c.inserted target newPnVp 0 next).rootPtr = newPnVp from rfl]
      refine hchain.push hne ?_ fun v hv => ?_
      · rw [inserted_new hne, hchain.head_eq]
      · have hmem : v ∈ fc.pages := (List.dropWhile_sublist _).subset hv
        rw [inserted_other (hother v hmem) (h.chain.ne_null hmem)]
  · -- it comes behind `p`
    rw [List.concat_eq_append] at hl
    obtain hprevp : prev = p := by rw [hprev, hl]; simp
    have hp : p ∈ fc.pages := by
      rw [← hsplit, hl]
      simp
    have hp0 : p ≠ 0 := h.chain.ne_null hp
    rw [hl, List.append_assoc, List.singleton_append] at hchain
    have hnodup := hchain.nodup
    obtain ⟨-, -, hafter⟩ := hchain.suffix
    refine ⟨?_, ?_, hids (by rw [hprevp]; exact (hother p hp).symm)⟩
    · rw [hprevp, inserted, linkPnIntoChain, if_neg hp0]
      exact congrArg (· + 1) h.count
    · rw [hpages, hl, List.append_assoc, List.singleton_append, hprevp]
      have hroot : (c.inserted target newPnVp p next).rootPtr = c.rootPtr := by
        rw [inserted, linkPnIntoChain, if_neg hp0]
      rw [hroot]
      refine hchain.insert_after hne ?_ ?_ fun v hv => ?_
      · rw [inserted_prev hp0 (hother p hp)]
      · rw [inserted_new (hother p hp).symm]
        exact hafter.head_eq.symm
      · have hmem : v ∈ fc.pages := by
          rw [← hsplit, hl]
          simp only [List.mem_append, List.mem_singleton] at hv ⊢
          tauto
        rw [inserted_other (hother v hmem)]
        rintro rfl
        rw [List.nodup_append, List.nodup_cons] at hnodup
        obtain hv | hv := List.mem_append.1 hv
        · exact hnodup.2.2 v hv v List.mem_cons_self rfl
        · exact hnodup.2.1.1 hv

/-- The end of `tree_resolve_page` in the slots does what `findPage` and `insertPage` do. -/
theorem Holds.resolve (h : Holds st c fc) (target : Nat) (hfuel : fc.pages.length ≤ fuel) (hne : newPnVp ≠ 0)
    (hnew : newPnVp ∉ fc.pages) (hidx : ∀ v ∈ fc.pages, pageIdx st' v = pageIdx st v)
    (hid : pageIdx st' newPnVp = target) (isWrite : Bool) :
    match findPage st target fc.pages with
    | some pn => c.resolveInSegment fuel target newPnVp isWrite = (some pn, c)
    | none =>
      if isWrite then
        (c.resolveInSegment fuel target newPnVp isWrite).1 = some newPnVp ∧
          Holds st' (c.resolveInSegment fuel target newPnVp isWrite).2
            ⟨fc.pageCount + 1, insertPage st target newPnVp fc.pages⟩
      else c.resolveInSegment fuel target newPnVp isWrite = (none, c) := by
  rw [resolveInSegment]
  obtain ⟨hfound, hfind⟩ | ⟨hfound, hfind, hprev, hnext⟩ := h.walks target hfuel
  · simp only [hfind, hfound, if_true]
  · simp only [hfind, hfound, Bool.false_eq_true, if_false]
    cases isWrite with
    | false => simp
    | true =>
      simp only [not_true_eq_false, if_false, if_true, hprev, hnext]
      exact ⟨trivial, h.insert hne hnew hidx hid⟩

end ContentSlots

/-! ## Counts -/

variable {st st' st'' : State} {file : VPtr} {f : FileNode}

structure ContentsCounted (st : State) : Prop where
  node_lt : ∀ v node, st.nodes v = some node → v < st.nextVp
  counted : ∀ file f, st.nodes file = some (.file f) → ∀ fc ∈ f.contents, fc.pageCount = fc.pages.length

structure KeepsCounts (st st' : State) : Prop where
  keeps : ContentsCounted st → ContentsCounted st'

theorem KeepsCounts.refl (st : State) : KeepsCounts st st := ⟨id⟩

theorem KeepsCounts.trans (h : KeepsCounts st st') (h' : KeepsCounts st' st'') : KeepsCounts st st'' :=
  ⟨fun hst => h'.keeps (h.keeps hst)⟩

theorem KeepsCounts.of_nodes (hnodes : st'.nodes = st.nodes) (hnext : st.nextVp ≤ st'.nextVp) :
    KeepsCounts st st' := by
  refine ⟨fun h => ⟨fun v node hv => ?_, fun file f hf => ?_⟩⟩
  · exact (h.node_lt v node (hnodes ▸ hv)).trans_le hnext
  · exact h.counted file f (hnodes ▸ hf)

theorem KeepsCounts.of_node {v : VPtr} {node : Node} (hv : v < st'.nextVp)
    (hnodes : st'.nodes = Function.update st.nodes v (some node)) (hnext : st.nextVp ≤ st'.nextVp)
    (hnode : ∀ f, node = .file f → f.contents = []) : KeepsCounts st st' := by
  refine ⟨fun h => ⟨fun v' node' hv' => ?_, fun file f hf => ?_⟩⟩
  · rw [hnodes] at hv'
    obtain ⟨rfl, -⟩ | ⟨-, hv'⟩ := update_some_iff.1 hv'
    · exact hv
    · exact (h.node_lt v' node' hv').trans_le hnext
  · rw [hnodes] at hf
    obtain ⟨-, rfl⟩ | ⟨-, hf⟩ := update_some_iff.1 hf
    · simp [hnode f rfl]
    · exact h.counted file f hf

theorem insertEntry_counts {dir : VPtr} {d : DirNode} (hd : st.nodes dir = some (.dir d)) (childId : Nat)
    (child : VPtr) (name : Name) (epoch : Int) :
    KeepsCounts st (insertEntry st dir d childId child name epoch) := by
  refine ⟨fun h => ?_⟩
  have hdir := h.node_lt dir _ hd
  have hnext : st.nextVp ≤ (insertEntry st dir d childId child name epoch).nextVp := Nat.le_add_right _ 2
  refine (KeepsCounts.of_node (hdir.trans_le hnext) rfl hnext ?_).keeps h
  nofun

theorem DirMove.counts (h : DirMove st st') : KeepsCounts st st' := by
  cases h with
  | add parent d node name epoch hnew hd =>
    refine ⟨fun h => ?_⟩
    have hparent : Function.update st.nodes st.nextVp (some node) parent = some (.dir d) :=
      update_some_iff.2 (.inr ⟨Nat.ne_of_lt (h.node_lt parent _ hd), hd⟩)
    have hnode : ContentsCounted { st with
        nextVp := st.nextVp + 1
        nextNodeId := freshNodeId st
        nodes := Function.update st.nodes st.nextVp (some node) } := by
      refine (KeepsCounts.of_node (Nat.lt_succ_self st.nextVp) rfl (Nat.le_succ _) ?_).keeps h
      rintro f rfl
      cases hnew
      rfl
    exact (insertEntry_counts hparent ..).keeps hnode
  | insert dir d childId child name epoch hd => exact insertEntry_counts hd ..
  | prepend slot s child name epoch hs => exact .of_nodes rfl (Nat.le_succ _)
  | reindex dir d ix hd hix =>
    refine ⟨fun h => ?_⟩
    have hdir : dir < (setIndex st dir d ix).nextVp := h.node_lt dir _ hd
    refine (KeepsCounts.of_node hdir rfl (Nat.le_refl _) ?_).keeps h
    nofun
  | bin entries => exact .of_nodes rfl (Nat.le_refl _)

/-! ## The invariant -/

structure PagesInv (st : State) : Prop where
  wf : PagesWf st
  counts : ContentsCounted st

structure PagesStep (st st' : State) : Prop where
  pageSize : st'.pageSize = st.pageSize
  segmentSize : st'.segmentSize = st.segmentSize
  inv : PagesInv st'
  stay : ∀ file lp pn, pageNodeOf st file lp = some pn → pageNodeOf st' file lp = some pn

theorem PagesStep.refl (h : PagesInv st) : PagesStep st st := ⟨rfl, rfl, h, fun _ _ _ h => h⟩

theorem PagesStep.trans (h : PagesStep st st') (h' : PagesStep st' st'') : PagesStep st st'' :=
  ⟨h'.pageSize.trans h.pageSize, h'.segmentSize.trans h.segmentSize, h'.inv,
    fun file lp pn hpn => h'.stay file lp pn (h.stay file lp pn hpn)⟩

theorem PagesStep.of_write {epoch : Int} (hinv : PagesInv st) (h : WriteEdits epoch st st')
    (hcounts : KeepsCounts st st') : PagesStep st st' := by
  obtain ⟨hps, hss⟩ := WriteEdits.const h
  exact ⟨hps, hss, ⟨WriteEdits.pagesWf h hinv.wf, hcounts.keeps hinv.counts⟩,
    fun file lp pn hpn => WriteEdits.keeps_page h hinv.wf hpn⟩

theorem PagesStep.of_edits (hinv : PagesInv st) (h : FileEdits st st') (hcounts : KeepsCounts st st') :
    PagesStep st st' := .of_write hinv (FileEdits.writeEdits h 0) hcounts

theorem PagesStep.of_eq (hinv : PagesInv st) (hps : st'.pageSize = st.pageSize)
    (hss : st'.segmentSize = st.segmentSize) (hvp : st'.nextVp = st.nextVp) (hnodes : st'.nodes = st.nodes)
    (hpn : st'.pageNodes = st.pageNodes) (hcache : st'.tcache = st.tcache)
    (hgen : st'.gcGeneration = st.gcGeneration) : PagesStep st st' := by
  have hidx : ∀ v, pageIdx st' v = pageIdx st v := fun v => pageIdx_congr (by rw [hpn])
  have hmap : ∀ file lp, pageNodeOf st' file lp = pageNodeOf st file lp := by
    intro file lp
    refine pageNodeOf_congr hss hidx (fun f hf => ?_) (fun f hf => ?_) lp
    · exact ⟨f, by rw [hnodes, hf], rfl⟩
    · exact ⟨f, by rw [← hnodes, hf]⟩
  refine ⟨hps, hss, ⟨?_, (KeepsCounts.of_nodes hnodes hvp.ge).keeps hinv.counts⟩, fun file lp pn h => ?_⟩
  · refine hinv.wf.of_map hps hss hvp (fun v => by rw [hpn]) hidx (fun file f hf => ?_) hmap hcache hgen
    exact ⟨f, by rw [← hnodes, hf], rfl, fun s hs => .inl hs⟩
  · exact (hmap file lp).trans h

theorem DirMoves.pages (h : DirMoves st st') (hinv : PagesInv st) : PagesStep st st' := by
  induction h with
  | refl => exact .refl hinv
  | @tail st₁ st₂ _ hmove ih =>
    refine ih.trans ?_
    have hinv₁ := ih.inv
    have hfresh : st₁.nodes st₁.nextVp = none := by
      cases hnode : st₁.nodes st₁.nextVp with
      | none => rfl
      | some node => exact absurd (hinv₁.counts.node_lt _ node hnode) (Nat.lt_irrefl _)
    have hkept : FilesKept st₁ st₂ := by
      cases hmove with
      | add parent d node name epoch hnew hd =>
        have hparent : Function.update st₁.nodes st₁.nextVp (some node) parent = some (.dir d) :=
          update_some_iff.2 (.inr ⟨Nat.ne_of_lt (hinv₁.counts.node_lt parent _ hd), hd⟩)
        exact (FilesKept.node hfresh hnew (freshNodeId st₁)).trans (.insertEntry hparent ..)
      | insert dir d childId child name epoch hd => exact .insertEntry hd ..
      | prepend slot s child name epoch hs => exact .prependEntry ..
      | reindex dir d ix hd hix => exact .setIndex hd ix
      | bin entries => exact .bin entries
    exact ⟨hkept.pageSize, hkept.segmentSize, ⟨hkept.pagesWf hinv₁.wf, hmove.counts.keeps hinv₁.counts⟩,
      fun file lp pn hpn => (hkept.pageNodeOf file lp).trans hpn⟩

/-- Writes and truncations stay within the segments that have a cache key of their own. -/
def Op.Addressable (st : State) : Op → Prop
  | .write _ data offset _ => offset.toNat + data.length ≤ maxSize st
  | .truncate _ newSize _ => newSize.toNat ≤ maxSize st
  | _ => True

instance Op.Addressable.decidable (st : State) : ∀ op : Op, Decidable (op.Addressable st)
  | .write _ data offset _ => Nat.decLe (offset.toNat + data.length) (maxSize st)
  | .truncate _ newSize _ => Nat.decLe newSize.toNat (maxSize st)
  | .create .. | .mkdir .. | .delete .. | .rmdir .. | .rename .. | .read .. | .snapshot | .commit _
  | .deleteSnapshot _ => isTrue trivial

/-- The call succeeds, and page `lp` of the file is among the pages it writes. -/
def Op.Writes (st : State) (file : VPtr) (lp : Nat) : Op → Prop
  | .write file' data offset epoch =>
    file' = file ∧ (vfsWrite st file data offset epoch).1 = .ok data.length ∧
      offset.toNat / st.pageSize ≤ lp ∧ lp ≤ (offset.toNat + data.length - 1) / st.pageSize
  | .truncate file' newSize epoch =>
    file' = file ∧ (vfsTruncate st file newSize epoch).1 = .ok () ∧ vfsFileSize st file epoch < newSize ∧
      (vfsFileSize st file epoch).toNat / st.pageSize ≤ lp ∧ lp ≤ (newSize.toNat - 1) / st.pageSize
  | _ => False

theorem vfsWrite_pages (hwf : PagesWf st) {data : List UInt8} {offset epoch : Int}
    (hrange : offset.toNat + data.length ≤ maxSize st) {count lp : Nat}
    (hok : (vfsWrite st file data offset epoch).1 = .ok count) (hlo : offset.toNat / st.pageSize ≤ lp)
    (hhi : lp ≤ (offset.toNat + data.length - 1) / st.pageSize) :
    ∃ pn, pageNodeOf (vfsWrite st file data offset epoch).2 file lp = some pn := by
  rw [vfsWrite] at hok ⊢
  split at hok
  · cases hok
  rename_i hargs
  split at hok
  · cases hok
  rename_i hw
  rw [if_neg hargs, if_neg hw]
  split at hok
  · rename_i f hf
    have hlen : 0 < data.length := List.length_pos_iff.2 fun h => hargs (.inl h)
    have hsegs := segs_of_range hwf hlen hrange
    obtain ⟨htrue, hloop⟩ := writeLoop_edits hwf hf epoch _ (offset.toNat / st.pageSize)
      (offset.toNat % st.pageSize) data hsegs
    obtain ⟨pn, hpn⟩ := writeLoop_pages hwf hf epoch _ (offset.toNat / st.pageSize)
      (offset.toNat % st.pageSize) data hsegs hlo (by omega)
    obtain ⟨f', hf'⟩ := (WriteEdits.dirsKept hloop).files file f hf
    have hwf1 := WriteEdits.pagesWf hloop hwf
    have hmax := WriteEdits.maxSize hloop
    dsimp only
    generalize writeLoop file epoch _ st (offset.toNat / st.pageSize) (offset.toNat % st.pageSize) data = r at *
    obtain ⟨ok, st1⟩ := r
    obtain rfl : ok = true := htrue
    dsimp only at *
    refine ⟨pn, ?_⟩
    split
    · have hsize : WriteEdits epoch st1 (prependSize st1 file epoch (offset.toNat + data.length)) :=
        prependSize_edits hf' (by rwa [hmax])
      exact WriteEdits.keeps_page hsize hwf1 hpn
    · exact hpn
  · cases hok

theorem growLoop_pages (n : Nat) (hwf : PagesWf st) {epoch : Int} {off remaining : Nat}
    (hrange : off + remaining ≤ maxSize st) (hn : remaining ≤ n)
    (hok : (growLoop file epoch n st off remaining).1 = .ok ()) {lp : Nat} (hpos : 0 < remaining)
    (hlo : off / st.pageSize ≤ lp) (hhi : lp ≤ (off + remaining - 1) / st.pageSize) :
    ∃ pn, pageNodeOf (growLoop file epoch n st off remaining).2 file lp = some pn := by
  induction n generalizing st off remaining with
  | zero => omega
  | succ n ih =>
    have hlen : (List.replicate (min remaining 8192) (0 : UInt8)).length = min remaining 8192 :=
      List.length_replicate
    have hrange1 : (off : Int).toNat + (List.replicate (min remaining 8192) (0 : UInt8)).length ≤ maxSize st := by
      rw [hlen]
      omega
    have hstep := vfsWrite_edits hwf file (List.replicate (min remaining 8192) 0) off epoch hrange1
    have hwrite : ∀ count : Nat,
        (vfsWrite st file (List.replicate (min remaining 8192) 0) off epoch).1 = .ok count →
        lp ≤ (off + min remaining 8192 - 1) / st.pageSize →
        ∃ pn, pageNodeOf (vfsWrite st file (List.replicate (min remaining 8192) 0) off epoch).2 file lp =
          some pn := by
      intro count hok hfirst
      exact vfsWrite_pages hwf hrange1 hok hlo (by rwa [hlen])
    rw [growLoop, if_neg (by omega)] at hok ⊢
    dsimp only at hok ⊢
    generalize vfsWrite st file (List.replicate (min remaining 8192) 0) off epoch = r at *
    obtain ⟨a, st1⟩ := r
    cases a with
    | error e => cases hok
    | ok count =>
      dsimp only at *
      have hwf1 := WriteEdits.pagesWf hstep hwf
      have hrange2 : off + min remaining 8192 + (remaining - min remaining 8192) ≤ maxSize st1 := by
        rw [WriteEdits.maxSize hstep]
        omega
      by_cases hfirst : lp ≤ (off + min remaining 8192 - 1) / st.pageSize
      · obtain ⟨pn, hpn⟩ := hwrite count rfl hfirst
        exact ⟨pn, WriteEdits.keeps_page (growLoop_edits n hwf1 file epoch _ _ hrange2) hwf1 hpn⟩
      · -- the page begins in a later chunk
        have hps := (WriteEdits.const hstep).1
        have hnext : (off + min remaining 8192) / st.pageSize ≤
            (off + min remaining 8192 - 1) / st.pageSize + 1 := by
          rw [← Nat.add_div_right _ hwf.page_pos]
          exact Nat.div_le_div_right (by have := hwf.page_pos; omega)
        have hrest : 0 < remaining - min remaining 8192 := by
          by_contra hzero
          rw [show min remaining 8192 = remaining by omega] at hfirst
          exact hfirst hhi
        refine ih hwf1 hrange2 (by omega) hok hrest (by rw [hps]; omega) ?_
        rw [hps, show off + min remaining 8192 + (remaining - min remaining 8192) = off + remaining by omega]
        exact hhi

theorem Op.Writes.pages {op : Op} {lp : Nat} (h : op.Writes st file lp) (hwf : PagesWf st)
    (hop : op.Addressable st) : ∃ pn, pageNodeOf (step st op) file lp = some pn := by
  cases op with
  | write file' data offset epoch =>
    obtain ⟨rfl, hok, hlo, hhi⟩ := h
    exact vfsWrite_pages hwf hop hok hlo hhi
  | truncate file' newSize epoch =>
    obtain ⟨rfl, hok, hgrow, hlo, hhi⟩ := h
    change newSize.toNat ≤ maxSize st at hop
    rw [step]
    rw [vfsTruncate] at hok ⊢
    split at hok
    · cases hok
    rename_i hneg
    split at hok
    · cases hok
    rename_i hw
    rw [if_neg hneg, if_neg hw]
    split at hok
    · rename_i f hf
      have hnn : 0 ≤ vfsFileSize st file' epoch := by
        simp only [vfsFileSize, hf]
        omega
      dsimp only at hok ⊢
      rw [if_neg (by omega), if_neg (by omega)] at hok ⊢
      refine growLoop_pages _ hwf (by omega) (Nat.le_refl _) hok (by omega) hlo ?_
      rwa [show (vfsFileSize st file' epoch).toNat + (newSize - vfsFileSize st file' epoch).toNat - 1 =
        newSize.toNat - 1 by omega]
    · cases hok
  | _ => exact h.elim

/-! ## The result -/

/-- A segment: the page ids ascend strictly and are below the segment size, and the count is right. -/
structure FileContent.Shaped (st : State) (fc : FileContent) : Prop where
  ascending : fc.pages.Pairwise fun pn pn' => pageIdx st pn < pageIdx st pn'
  below : ∀ pn ∈ fc.pages, pageIdx st pn < st.segmentSize
  count : fc.pageCount = fc.pages.length

theorem PagesInv.shaped (h : PagesInv st) (hf : st.nodes file = some (.file f)) {fc : FileContent}
    (hfc : fc ∈ f.contents) : fc.Shaped st := by
  obtain ⟨k, hk⟩ := List.getElem?_of_mem hfc
  have hseg := h.wf.segs file f hf k
  rw [segPages, hk] at hseg
  exact ⟨hseg.sorted, hseg.index, h.counts.counted file f hf fc hfc⟩

end SphereVFS
