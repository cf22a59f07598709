import SphereVFS.FileSteps
import SphereVFS.Lib.Linked
import Mathlib.Data.List.Nodup
import Mathlib.Data.List.Forall2

/-!
# SphereVFS.DirSegments

The segments of a directory: chunks of at most 1024 slot nodes, each with a stored count.

The first part is `dirchain_get_or_create_segment` and the link that its callers make after it, in
the slots of the pool: the callers write the segment, the slot node and the directory back from
their own copies. On a directory that holds a list of segments, this is `linkSlot` on that list.
The second part is what holds of that list after every run of operations with whatever arguments.
-/

namespace SphereVFS

/-! ## The link in the slots of the pool -/

structure SegmentAnchor where
  headPtr : VPtr
  sibPtr : VPtr
  count : Nat

/-- The anchors of all directories: the head of each directory, its segments, and the `sibPtr` of each slot node. -/
structure Anchors where
  headPtr : VPtr → VPtr
  segment : VPtr → SegmentAnchor
  slotSib : VPtr → VPtr
  allocated : Nat

namespace Anchors

/-- The search of `dirchain_get_or_create_segment`: the first segment with room, or 0. -/
def findRoom (a : Anchors) : Nat → VPtr → VPtr
  | 0, _ => 0
  | fuel + 1, segVp =>
    if segVp = 0 then 0
    else if (a.segment segVp).count < unitsPerSegment then segVp
    else findRoom a fuel (a.segment segVp).sibPtr

/-- What `dirchain_get_or_create_segment` hands out: the segment, a copy of its anchor, and the head that the
caller's copy of the directory has from then on. -/
structure Chosen where
  segVp : VPtr
  anchor : SegmentAnchor
  headPtr : VPtr

def dirchainGetOrCreateSegment (fresh : Nat → VPtr) (a : Anchors) (headPtr : VPtr) : Chosen × Anchors :=
  let segVp := a.findRoom a.allocated headPtr
  if segVp ≠ 0 then (⟨segVp, a.segment segVp, headPtr⟩, a)
  else (⟨fresh a.allocated, ⟨0, headPtr, 0⟩, fresh a.allocated⟩, { a with allocated := a.allocated + 1 })

/-- The link of a slot node in create, mkdir and rename: the slot node, the segment and the directory are written
from the caller's copies. -/
def linkSlotNode (fresh : Nat → VPtr) (a : Anchors) (dir slotVp : VPtr) : Anchors :=
  let r := a.dirchainGetOrCreateSegment fresh (a.headPtr dir)
  { r.2 with
    slotSib := Function.update r.2.slotSib slotVp r.1.anchor.headPtr
    segment := Function.update r.2.segment r.1.segVp ⟨slotVp, r.1.anchor.sibPtr, r.1.anchor.count + 1⟩
    headPtr := Function.update r.2.headPtr dir r.1.headPtr }

def HoldsSegment (a : Anchors) (segVp : VPtr) (seg : DirSegment) : Prop :=
  (a.segment segVp).count = seg.count ∧ Linked.Chain a.slotSib 0 (a.segment segVp).headPtr seg.slots

/-- The slots hold the segments of all directories; `vps` are the slots that the segments of a directory are in. -/
structure Holds (fresh : Nat → VPtr) (a : Anchors) (dirs : VPtr → List DirSegment) (vps : VPtr → List VPtr) :
    Prop where
  chain : ∀ dir, Linked.Chain (fun v => (a.segment v).sibPtr) 0 (a.headPtr dir) (vps dir)
  segments : ∀ dir, List.Forall₂ a.HoldsSegment (vps dir) (dirs dir)
  given : ∀ dir, ∀ v ∈ vps dir, ∃ k < a.allocated, fresh k = v
  own : ∀ dir dir' v, v ∈ vps dir → v ∈ vps dir' → dir = dir'

variable {fresh : Nat → VPtr} {a : Anchors} {dirs : VPtr → List DirSegment} {vps : VPtr → List VPtr} {slot : VPtr}

theorem findRoom_chain (slot : VPtr) {l : List VPtr} {segs : List DirSegment}
    (hsegs : List.Forall₂ a.HoldsSegment l segs) :
    ∀ {fuel : Nat} {head : VPtr}, Linked.Chain (fun v => (a.segment v).sibPtr) 0 head l → l.length ≤ fuel →
    a.findRoom fuel head = 0 ∧ prependToSegment slot segs = none ∨
    ∃ l₁ v l₂ segs₁ seg segs₂, l = l₁ ++ v :: l₂ ∧ segs = segs₁ ++ seg :: segs₂ ∧
      List.Forall₂ a.HoldsSegment l₁ segs₁ ∧ a.HoldsSegment v seg ∧ List.Forall₂ a.HoldsSegment l₂ segs₂ ∧
      a.findRoom fuel head = v ∧
      prependToSegment slot segs = some (segs₁ ++ ⟨seg.count + 1, slot :: seg.slots⟩ :: segs₂) := by
  induction hsegs with
  | nil =>
    rintro fuel head rfl _
    exact .inl ⟨by cases fuel <;> rfl, rfl⟩
  | @cons v seg l segs hseg hrest ih =>
    rintro fuel head ⟨rfl, hne, hchain⟩ hfuel
    obtain ⟨fuel, rfl⟩ := Nat.exists_eq_add_of_le' (Nat.one_le_of_lt hfuel)
    rw [findRoom, if_neg hne, prependToSegment, hseg.1]
    by_cases hroom : seg.count < unitsPerSegment
    · rw [if_pos hroom, if_pos hroom]
      exact .inr ⟨[], head, l, [], seg, segs, rfl, rfl, .nil, hseg, hrest, rfl, rfl⟩
    · rw [if_neg hroom, if_neg hroom]
      obtain ⟨hnone, hfull⟩ | ⟨l₁, w, l₂, segs₁, seg', segs₂, rfl, rfl, h₁, hw, h₂, hfind, hprep⟩ :=
        ih hchain (by simpa using hfuel)
      · exact .inl ⟨hnone, by rw [hfull]; rfl⟩
      · exact .inr ⟨head :: l₁, w, l₂, seg :: segs₁, seg', segs₂, rfl, rfl, .cons hseg h₁, hw, h₂, hfind,
          by rw [hprep]; rfl⟩

theorem HoldsSegment.frame {a' : Anchors} {v : VPtr} {seg : DirSegment} (h : a.HoldsSegment v seg)
    (hseg : a'.segment v = a.segment v) (hsib : ∀ x, x ≠ slot → a'.slotSib x = a.slotSib x)
    (hslot : slot ∉ seg.slots) : a'.HoldsSegment v seg := by
  refine ⟨by rw [hseg, h.1], ?_⟩
  rw [hseg]
  refine h.2.congr fun x hx => hsib x ?_
  rintro rfl
  exact hslot hx

theorem holdsSegments_frame {a' : Anchors} {l : List VPtr} {segs : List DirSegment}
    (h : List.Forall₂ a.HoldsSegment l segs) (hseg : ∀ v ∈ l, a'.segment v = a.segment v)
    (hsib : ∀ x, x ≠ slot → a'.slotSib x = a.slotSib x) (hslot : ∀ seg ∈ segs, slot ∉ seg.slots) :
    List.Forall₂ a'.HoldsSegment l segs := by
  induction h with
  | nil => exact .nil
  | cons hv _ ih =>
    obtain ⟨hseg, hsegs⟩ := List.forall_mem_cons.1 hseg
    obtain ⟨hslot, hslots⟩ := List.forall_mem_cons.1 hslot
    exact .cons (hv.frame hseg hsib hslot) (ih hsegs hslots)

theorem HoldsSegment.push {a' : Anchors} {v : VPtr} {seg : DirSegment} (h : a.HoldsSegment v seg)
    (hseg : a'.segment v = ⟨slot, (a.segment v).sibPtr, (a.segment v).count + 1⟩)
    (hsib : a'.slotSib = Function.update a.slotSib slot (a.segment v).headPtr) (hne : slot ≠ 0)
    (hslot : slot ∉ seg.slots) : a'.HoldsSegment v ⟨seg.count + 1, slot :: seg.slots⟩ := by
  refine ⟨by rw [hseg, h.1], ?_⟩
  rw [hseg]
  refine h.2.push hne (by rw [hsib, Function.update_self]) fun x hx => ?_
  rw [hsib, Function.update_of_ne]
  rintro rfl
  exact hslot hx

section Link

variable (hinj : Function.Injective fresh) (hnull : ∀ k, fresh k ≠ 0) (h : Holds fresh a dirs vps) (hne : slot ≠ 0)
  (hslot : ∀ dir, ∀ seg ∈ dirs dir, slot ∉ seg.slots) (dir : VPtr)

include hinj hnull h hne hslot in
theorem Holds.link_new : ∃ vps', Holds fresh ⟨Function.update a.headPtr dir (fresh a.allocated),
      Function.update a.segment (fresh a.allocated) ⟨slot, a.headPtr dir, 1⟩, Function.update a.slotSib slot 0,
      a.allocated + 1⟩
    (Function.update dirs dir (⟨1, [slot]⟩ :: dirs dir)) vps' := by
  set c := fresh a.allocated
  set a' : Anchors := ⟨Function.update a.headPtr dir c, Function.update a.segment c ⟨slot, a.headPtr dir, 1⟩,
    Function.update a.slotSib slot 0, a.allocated + 1⟩
  have hold : ∀ d, ∀ v ∈ vps d, v ≠ c := by
    rintro d v hv rfl
    obtain ⟨k, hk, heq⟩ := h.given d _ hv
    exact Nat.ne_of_lt hk (hinj heq)
  have hnew : a'.segment c = ⟨slot, a.headPtr dir, 1⟩ := Function.update_self ..
  have hsame : ∀ d, ∀ v ∈ vps d, a'.segment v = a.segment v := fun d v hv => Function.update_of_ne (hold d v hv) ..
  have hmem : ∀ d v, v ∈ Function.update vps dir (c :: vps dir) d → d = dir ∧ v = c ∨ v ∈ vps d := by
    intro d v hd
    rw [Function.update_apply] at hd
    split at hd
    · rename_i heq
      obtain rfl | hd := List.mem_cons.1 hd
      · exact .inl ⟨heq, rfl⟩
      · exact .inr (heq ▸ hd)
    · exact .inr hd
  refine ⟨Function.update vps dir (c :: vps dir), fun d => ?_, fun d => ?_, fun d v hv => ?_, fun d d' v hv hv' => ?_⟩
  · have hsib : ∀ v ∈ vps d, (a'.segment v).sibPtr = (a.segment v).sibPtr := fun v hv => by rw [hsame d v hv]
    by_cases hd : d = dir
    · subst hd
      rw [Function.update_self, show a'.headPtr d = c from Function.update_self ..]
      exact (h.chain d).push (hnull _) (by rw [hnew]) hsib
    · rw [Function.update_of_ne hd, show a'.headPtr d = a.headPtr d from Function.update_of_ne hd ..]
      exact (h.chain d).congr hsib
  · have hframe := holdsSegments_frame (h.segments d) (hsame d)
      (fun x hx => Function.update_of_ne hx ..) (hslot d)
    by_cases hd : d = dir
    · subst hd
      rw [Function.update_self, Function.update_self]
      refine .cons ⟨by rw [hnew], ?_⟩ hframe
      rw [hnew]
      exact ⟨rfl, hne, Function.update_self ..⟩
    · rw [Function.update_of_ne hd, Function.update_of_ne hd]
      exact hframe
  · obtain ⟨-, rfl⟩ | hv := hmem d v hv
    · exact ⟨a.allocated, Nat.lt_succ_self _, rfl⟩
    · obtain ⟨k, hk, heq⟩ := h.given d v hv
      exact ⟨k, Nat.lt_succ_of_lt hk, heq⟩
  · obtain ⟨hd, hc⟩ | hv := hmem d v hv <;> obtain ⟨hd', hc'⟩ | hv' := hmem d' v hv'
    · rw [hd, hd']
    · exact absurd hc (hold _ v hv')
    · exact absurd hc' (hold _ v hv)
    · exact h.own d d' v hv hv'

include h hne hslot in
theorem Holds.link_room {l₁ l₂ : List VPtr} {v : VPtr} {segs₁ segs₂ : List DirSegment} {seg : DirSegment}
    (hl : vps dir = l₁ ++ v :: l₂) (hsegs : dirs dir = segs₁ ++ seg :: segs₂)
    (h₁ : List.Forall₂ a.HoldsSegment l₁ segs₁) (hv : a.HoldsSegment v seg)
    (h₂ : List.Forall₂ a.HoldsSegment l₂ segs₂) :
    Holds fresh { a with
        slotSib := Function.update a.slotSib slot (a.segment v).headPtr
        segment := Function.update a.segment v ⟨slot, (a.segment v).sibPtr, (a.segment v).count + 1⟩ }
      (Function.update dirs dir (segs₁ ++ ⟨seg.count + 1, slot :: seg.slots⟩ :: segs₂)) vps := by
  set a' : Anchors := { a with
    slotSib := Function.update a.slotSib slot (a.segment v).headPtr
    segment := Function.update a.segment v ⟨slot, (a.segment v).sibPtr, (a.segment v).count + 1⟩ }
  have hmem : v ∈ vps dir := by simp [hl]
  have hnodup := (h.chain dir).nodup
  rw [hl, List.nodup_append] at hnodup
  obtain ⟨-, hnodup₂, hdisjoint⟩ := hnodup
  have hnew : a'.segment v = ⟨slot, (a.segment v).sibPtr, (a.segment v).count + 1⟩ := Function.update_self ..
  have hother : ∀ x, x ≠ v → a'.segment x = a.segment x := fun x hx => Function.update_of_ne hx ..
  have hsib : ∀ x, x ≠ slot → a'.slotSib x = a.slotSib x := fun x hx => Function.update_of_ne hx ..
  refine ⟨fun d => ?_, fun d => ?_, h.given, h.own⟩
  · refine (h.chain d).congr fun x _ => ?_
    by_cases hx : x = v
    · rw [hx, hnew]
    · rw [hother x hx]
  · by_cases hd : d = dir
    · subst hd
      have hslots := hslot d
      rw [hsegs] at hslots
      rw [Function.update_self, hl]
      refine List.rel_append (holdsSegments_frame h₁ (fun x hx => hother x ?_) hsib fun seg' hseg' => ?_)
        (.cons (hv.push hnew rfl hne (hslots seg (by simp))) ?_)
      · exact hdisjoint x hx v List.mem_cons_self
      · exact hslots seg' (by simp [hseg'])
      · refine holdsSegments_frame h₂ (fun x hx => hother x ?_) hsib fun seg' hseg' => hslots seg' (by simp [hseg'])
        rintro rfl
        exact (List.nodup_cons.1 hnodup₂).1 hx
    · rw [Function.update_of_ne hd]
      refine holdsSegments_frame (h.segments d) (fun x hx => hother x ?_) hsib (hslot d)
      rintro rfl
      exact hd (h.own d dir x hx hmem)

include hinj hnull h hne hslot in
/-- The slots after a link hold what `linkSlot` makes of the directory's segments, and the other directories as
they were. -/
theorem Holds.link : ∃ vps', Holds fresh (a.linkSlotNode fresh dir slot)
    (Function.update dirs dir (linkSlot (dirs dir) slot)) vps' := by
  have hlength := (h.chain dir).length_le (h.given dir)
  rw [linkSlotNode, dirchainGetOrCreateSegment, linkSlot]
  obtain ⟨hnone, hfull⟩ | ⟨l₁, v, l₂, segs₁, seg, segs₂, hl, hsegs, h₁, hv, h₂, hfind, hprep⟩ :=
    findRoom_chain slot (h.segments dir) (h.chain dir) hlength
  · simp only [hnone, ne_eq, not_true_eq_false, if_false, hfull, Option.getD_none]
    exact h.link_new hinj hnull hne hslot dir
  · have hv0 : v ≠ 0 := (h.chain dir).ne_null (by simp [hl])
    simp only [hfind, ne_eq, hv0, not_false_eq_true, if_true, hprep, Option.getD_some, Function.update_eq_self]
    exact ⟨vps, h.link_room hne hslot dir hl hsegs h₁ hv h₂⟩

end Link

end Anchors

/-! ## Counts -/

def DirSegment.Counted (seg : DirSegment) : Prop := seg.count = seg.slots.length ∧ seg.count ≤ unitsPerSegment

theorem prependToSegment_counted {slot : VPtr} {segs segs' : List DirSegment} (h : ∀ seg ∈ segs, seg.Counted)
    (heq : prependToSegment slot segs = some segs') : ∀ seg ∈ segs', seg.Counted := by
  induction segs generalizing segs' with
  | nil => cases heq
  | cons seg rest ih =>
    obtain ⟨hseg, hrest⟩ := List.forall_mem_cons.1 h
    rw [prependToSegment] at heq
    split at heq
    · rename_i hroom
      cases heq
      refine List.forall_mem_cons.2 ⟨⟨?_, hroom⟩, hrest⟩
      rw [List.length_cons, ← hseg.1]
    · obtain ⟨rest', hrest', rfl⟩ := Option.map_eq_some_iff.1 heq
      exact List.forall_mem_cons.2 ⟨hseg, ih hrest hrest'⟩

theorem linkSlot_counted {segs : List DirSegment} (h : ∀ seg ∈ segs, seg.Counted) (slot : VPtr) :
    ∀ seg ∈ linkSlot segs slot, seg.Counted := by
  rw [linkSlot]
  cases hprep : prependToSegment slot segs with
  | some segs' => exact prependToSegment_counted h hprep
  | none => exact List.forall_mem_cons.2 ⟨⟨rfl, show 1 ≤ unitsPerSegment by decide⟩, h⟩

/-- **Linking slot nodes in the pool.** After any links into empty directories, the last one first in the list,
each of a slot node of its own, the slots chain for every directory exactly the slot nodes that were linked into
it, each of them once, in segments whose stored counts are right and within the limit. -/
theorem Anchors.links_held {fresh : Nat → VPtr} (hinj : Function.Injective fresh) (hnull : ∀ k, fresh k ≠ 0)
    (links : List (VPtr × VPtr)) (hne : ∀ l ∈ links, l.2 ≠ 0) (hnodup : (links.map Prod.snd).Nodup) :
    ∃ dirs vps, Anchors.Holds fresh (links.foldr (fun l a => a.linkSlotNode fresh l.1 l.2)
        ⟨fun _ => 0, fun _ => ⟨0, 0, 0⟩, fun _ => 0, 0⟩) dirs vps ∧
      ∀ dir, ((dirs dir).flatMap DirSegment.slots).Perm ((links.filter (·.1 = dir)).map Prod.snd) ∧
        ∀ seg ∈ dirs dir, seg.Counted := by
  induction links with
  | nil => exact ⟨fun _ => [], fun _ => [], ⟨fun _ => rfl, fun _ => .nil, by simp, by simp⟩, by simp⟩
  | cons link links ih =>
    obtain ⟨dir, slot⟩ := link
    obtain ⟨hne, hrest⟩ := List.forall_mem_cons.1 hne
    obtain ⟨hnew, hnodup⟩ := List.nodup_cons.1 hnodup
    obtain ⟨dirs, vps, hholds, hdirs⟩ := ih hrest hnodup
    have hslot : ∀ d, ∀ seg ∈ dirs d, slot ∉ seg.slots := by
      intro d seg hseg hmem
      have hlinked := (hdirs d).1.subset (List.mem_flatMap.2 ⟨seg, hseg, hmem⟩)
      exact hnew (List.map_subset _ (List.filter_subset_self _) hlinked)
    obtain ⟨vps', hheld⟩ := hholds.link hinj hnull hne hslot dir
    refine ⟨_, vps', hheld, fun d => ?_⟩
    by_cases hd : dir = d
    · subst hd
      obtain ⟨pre, post, hold, hlink⟩ := slotList_link ⟨0, dirs dir, fun _ => []⟩ slot fun _ => []
      simp only [DirNode.slotList] at hold hlink
      rw [Function.update_self, hlink, List.filter_cons_of_pos (by simp)]
      exact ⟨List.perm_middle.trans ((hold ▸ (hdirs dir).1).cons slot), linkSlot_counted (hdirs dir).2 slot⟩
    · rw [Function.update_of_ne (Ne.symm hd), List.filter_cons_of_neg (by simpa using hd)]
      exact hdirs d

/-- Two slot nodes in a directory. -/
theorem Anchors.links_held_two : ∃ dirs vps, Anchors.Holds (· + 100)
    ([(1, 11), (1, 10)].foldr (fun l a => a.linkSlotNode (· + 100) l.1 l.2)
      ⟨fun _ => 0, fun _ => ⟨0, 0, 0⟩, fun _ => 0, 0⟩) dirs vps ∧
        ((dirs 1).flatMap DirSegment.slots).Perm [11, 10] := by
  obtain ⟨dirs, vps, hheld, hdirs⟩ := Anchors.links_held (add_left_injective 100) (by simp) [(1, 11), (1, 10)]
    (by decide) (by decide)
  exact ⟨dirs, vps, hheld, (hdirs 1).1⟩

/-! ## The slot nodes of a volume -/

variable {st st' : State} {parent : VPtr}

structure SlotsPlaced (st : State) : Prop where
  dir_lt : ∀ dir d, st.nodes dir = some (.dir d) → dir < st.nextVp
  slot_lt : ∀ v, (st.slots v).isSome → v < st.nextVp
  counted : ∀ dir d, st.nodes dir = some (.dir d) → ∀ seg ∈ d.segments, seg.Counted
  nodup : ∀ dir d, st.nodes dir = some (.dir d) → d.slotList.Nodup
  isSlot : ∀ dir d, st.nodes dir = some (.dir d) → ∀ v ∈ d.slotList, (st.slots v).isSome
  one : ∀ dir d dir' d' v, st.nodes dir = some (.dir d) → st.nodes dir' = some (.dir d') →
    v ∈ d.slotList → v ∈ d'.slotList → dir = dir'
  placed : ∀ v, (st.slots v).isSome → ∃ dir d, st.nodes dir = some (.dir d) ∧ v ∈ d.slotList

def SlotsStay (st st' : State) : Prop :=
  ∀ dir d v, st.nodes dir = some (.dir d) → v ∈ d.slotList → ∃ d', st'.nodes dir = some (.dir d') ∧ v ∈ d'.slotList

theorem SlotsStay.refl (st : State) : SlotsStay st st := fun _ d _ hd hv => ⟨d, hd, hv⟩

theorem SlotsStay.trans {st'' : State} (h : SlotsStay st st') (h' : SlotsStay st' st'') : SlotsStay st st'' := by
  intro dir d v hd hv
  obtain ⟨d', hd', hv'⟩ := h dir d v hd hv
  exact h' dir d' v hd' hv'

structure Places (st st' : State) : Prop where
  keeps : SlotsPlaced st → SlotsPlaced st' ∧ SlotsStay st st'

theorem Places.refl (st : State) : Places st st := ⟨fun h => ⟨h, .refl st⟩⟩

theorem Places.trans {st'' : State} (h : Places st st') (h' : Places st' st'') : Places st st'' := by
  refine ⟨fun hst => ?_⟩
  obtain ⟨hst', hstay⟩ := h.keeps hst
  obtain ⟨hst'', hstay'⟩ := h'.keeps hst'
  exact ⟨hst'', hstay.trans hstay'⟩

theorem Places.of_same (hnext : st.nextVp ≤ st'.nextVp)
    (hslots : ∀ v, (st'.slots v).isSome ↔ (st.slots v).isSome)
    (hdirs : ∀ dir d', st'.nodes dir = some (.dir d') →
      ∃ d, st.nodes dir = some (.dir d) ∧ d'.segments = d.segments)
    (hback : ∀ dir d, st.nodes dir = some (.dir d) →
      ∃ d', st'.nodes dir = some (.dir d') ∧ d'.segments = d.segments) : Places st st' := by
  refine ⟨fun h => ?_⟩
  have hlist : ∀ {d d' : DirNode}, d'.segments = d.segments → d'.slotList = d.slotList := by
    intro d d' heq
    rw [DirNode.slotList, DirNode.slotList, heq]
  refine ⟨⟨fun dir d' hd' => ?_, fun v hv => ?_, fun dir d' hd' => ?_, fun dir d' hd' => ?_,
    fun dir d' hd' v hv => ?_, fun dir d dir' d' v hd hd' hv hv' => ?_, fun v hv => ?_⟩, fun dir d v hd hv => ?_⟩
  · obtain ⟨d, hd, -⟩ := hdirs dir d' hd'
    exact (h.dir_lt dir d hd).trans_le hnext
  · exact (h.slot_lt v ((hslots v).1 hv)).trans_le hnext
  · obtain ⟨d, hd, heq⟩ := hdirs dir d' hd'
    rw [heq]
    exact h.counted dir d hd
  · obtain ⟨d, hd, heq⟩ := hdirs dir d' hd'
    rw [hlist heq]
    exact h.nodup dir d hd
  · obtain ⟨d, hd, heq⟩ := hdirs dir d' hd'
    exact (hslots v).2 (h.isSlot dir d hd v (hlist heq ▸ hv))
  · obtain ⟨d₀, hd₀, heq⟩ := hdirs dir d hd
    obtain ⟨d₁, hd₁, heq'⟩ := hdirs dir' d' hd'
    exact h.one dir d₀ dir' d₁ v hd₀ hd₁ (hlist heq ▸ hv) (hlist heq' ▸ hv')
  · obtain ⟨dir, d, hd, hmem⟩ := h.placed v ((hslots v).1 hv)
    obtain ⟨d', hd', heq⟩ := hback dir d hd
    exact ⟨dir, d', hd', hlist heq ▸ hmem⟩
  · obtain ⟨d', hd', heq⟩ := hback dir d hd
    exact ⟨d', hd', hlist heq ▸ hv⟩

theorem SameDirs.places (h : SameDirs st st') : Places st st' :=
  .of_same h.next (fun v => by rw [h.slots]) (fun dir d' hd' => ⟨d', (h.dirs dir d').1 hd', rfl⟩)
    fun dir d hd => ⟨d, (h.dirs dir d).2 hd, rfl⟩

theorem Places.prependEntry {slot : VPtr} {s : SlotNode} (hs : st.slots slot = some s) (childId : Nat) (child : VPtr)
    (name : Option Name) (epoch : Int) : Places st (prependEntry st slot s childId child name epoch) := by
  refine .of_same (Nat.le_succ _) (fun v => ?_) (fun dir d' hd' => ⟨d', hd', rfl⟩) fun dir d hd => ⟨d, hd, rfl⟩
  show (Function.update st.slots slot _ v).isSome ↔ _
  rw [Function.update_apply]
  split
  · rename_i heq
    rw [heq, hs]
    exact .rfl
  · exact .rfl

theorem Places.setIndex {d : DirNode} (hd : st.nodes parent = some (.dir d)) (ix : DirIndex) :
    Places st (setIndex st parent d ix) := by
  refine .of_same (Nat.le_refl _) (fun v => .rfl) (fun dir d' hd' => ?_) fun dir d' hd' => ?_
  · obtain ⟨rfl, heq⟩ | ⟨-, hold⟩ := update_some_iff.1 hd'
    · cases heq
      exact ⟨d, hd, rfl⟩
    · exact ⟨d', hold, rfl⟩
  · by_cases heq : dir = parent
    · subst heq
      rw [hd] at hd'
      cases hd'
      exact ⟨_, update_some_iff.2 (.inl ⟨rfl, rfl⟩), rfl⟩
    · exact ⟨d', update_some_iff.2 (.inr ⟨heq, hd'⟩), rfl⟩

theorem Places.node {node : Node} (hnew : IsNew node) (id : Nat) : Places st { st with
    nextVp := st.nextVp + 1
    nextNodeId := id
    nodes := Function.update st.nodes st.nextVp (some node) } := by
  refine ⟨fun h => ?_⟩
  have hdirs : ∀ dir d', Function.update st.nodes st.nextVp (some node) dir = some (.dir d') →
      st.nodes dir = some (.dir d') ∨ dir = st.nextVp ∧ d'.segments = [] := by
    intro dir d' hd'
    obtain ⟨rfl, rfl⟩ | ⟨-, hold⟩ := update_some_iff.1 hd'
    · cases hnew
      exact .inr ⟨rfl, rfl⟩
    · exact .inl hold
  have hkeep : ∀ dir d, st.nodes dir = some (.dir d) →
      Function.update st.nodes st.nextVp (some node) dir = some (.dir d) := fun dir d hd =>
    update_some_iff.2 (.inr ⟨Nat.ne_of_lt (h.dir_lt dir d hd), hd⟩)
  have hempty : ∀ {d : DirNode} {v : VPtr}, d.segments = [] → v ∉ d.slotList := by
    intro d v hd
    simp [DirNode.slotList, hd]
  refine ⟨⟨fun dir d' hd' => ?_, fun v hv => Nat.lt_succ_of_lt (h.slot_lt v hv), fun dir d' hd' => ?_,
    fun dir d' hd' => ?_, fun dir d' hd' v hv => ?_, fun dir d dir' d' v hd hd' hv hv' => ?_, fun v hv => ?_⟩,
    fun dir d v hd hv => ⟨d, hkeep dir d hd, hv⟩⟩
  · obtain hd | ⟨rfl, -⟩ := hdirs dir d' hd'
    · exact Nat.lt_succ_of_lt (h.dir_lt dir d' hd)
    · exact Nat.lt_succ_self _
  · obtain hd | ⟨-, hnil⟩ := hdirs dir d' hd'
    · exact h.counted dir d' hd
    · simp [hnil]
  · obtain hd | ⟨-, hnil⟩ := hdirs dir d' hd'
    · exact h.nodup dir d' hd
    · simp [DirNode.slotList, hnil]
  · obtain hd | ⟨-, hnil⟩ := hdirs dir d' hd'
    · exact h.isSlot dir d' hd v hv
    · exact absurd hv (hempty hnil)
  · obtain hd | ⟨-, hnil⟩ := hdirs dir d hd
    · obtain hd' | ⟨-, hnil⟩ := hdirs dir' d' hd'
      · exact h.one dir d dir' d' v hd hd' hv hv'
      · exact absurd hv' (hempty hnil)
    · exact absurd hv (hempty hnil)
  · obtain ⟨dir, d, hd, hmem⟩ := h.placed v hv
    exact ⟨dir, d, hkeep dir d hd, hmem⟩

theorem Places.insertEntry {dir : VPtr} {d : DirNode} (hd : st.nodes dir = some (.dir d)) (childId : Nat)
    (child : VPtr) (name : Name) (epoch : Int) : Places st (insertEntry st dir d childId child name epoch) := by
  refine ⟨fun h => ?_⟩
  set slot := st.nextVp + 1
  obtain ⟨pre, post, hold, hnew⟩ := slotList_link d slot (indexInsert d.index name slot)
  set linked : DirNode := { d with
    segments := linkSlot d.segments slot
    index := indexInsert d.index name slot }
  have hlinked : ∀ v, v ∈ linked.slotList ↔ v = slot ∨ v ∈ d.slotList := by
    intro v
    rw [hnew, hold]
    simp only [List.mem_append, List.mem_cons]
    tauto
  have hfresh : ∀ dir' d', st.nodes dir' = some (.dir d') → slot ∉ d'.slotList := by
    intro dir' d' hd' hmem
    have := h.slot_lt slot (h.isSlot dir' d' hd' slot hmem)
    lia
  have hdirs : ∀ dir' d', (SphereVFS.insertEntry st dir d childId child name epoch).nodes dir' = some (.dir d') →
      dir' = dir ∧ d' = linked ∨ dir' ≠ dir ∧ st.nodes dir' = some (.dir d') := by
    intro dir' d' hd'
    obtain ⟨rfl, heq⟩ | hne := update_some_iff.1 hd'
    · cases heq
      exact .inl ⟨rfl, rfl⟩
    · exact .inr hne
  -- a slot node of a directory was there before, unless it is the new one
  have hback : ∀ dir' d' v, (SphereVFS.insertEntry st dir d childId child name epoch).nodes dir' = some (.dir d') →
      v ∈ d'.slotList → v = slot ∧ dir' = dir ∨ ∃ d₀, st.nodes dir' = some (.dir d₀) ∧ v ∈ d₀.slotList := by
    intro dir' d' v hd' hv
    obtain ⟨rfl, rfl⟩ | ⟨-, hd₀⟩ := hdirs dir' d' hd'
    · obtain rfl | hv := (hlinked v).1 hv
      · exact .inl ⟨rfl, rfl⟩
      · exact .inr ⟨d, hd, hv⟩
    · exact .inr ⟨d', hd₀, hv⟩
  have hslots : ∀ v, (st.slots v).isSome →
      ((SphereVFS.insertEntry st dir d childId child name epoch).slots v).isSome := fun v hv => update_isSome hv
  have hstay : SlotsStay st (SphereVFS.insertEntry st dir d childId child name epoch) := by
    intro dir' d' v hd' hv
    by_cases heq : dir' = dir
    · subst heq
      rw [hd] at hd'
      cases hd'
      exact ⟨linked, update_some_iff.2 (.inl ⟨rfl, rfl⟩), (hlinked v).2 (.inr hv)⟩
    · exact ⟨d', update_some_iff.2 (.inr ⟨heq, hd'⟩), hv⟩
  refine ⟨⟨fun dir' d' hd' => ?_, fun v hv => ?_, fun dir' d' hd' => ?_, fun dir' d' hd' => ?_,
    fun dir' d' hd' v hv => ?_, fun dir₁ d₁ dir₂ d₂ v hd₁ hd₂ hv₁ hv₂ => ?_, fun v hv => ?_⟩, hstay⟩
  · show dir' < st.nextVp + 2
    obtain ⟨rfl, -⟩ | ⟨-, hd₀⟩ := hdirs dir' d' hd'
    · exact (h.dir_lt dir' d hd).trans (by lia)
    · exact (h.dir_lt dir' d' hd₀).trans (by lia)
  · show v < st.nextVp + 2
    change (Function.update st.slots slot _ v).isSome at hv
    by_cases heq : v = slot
    · lia
    · rw [Function.update_of_ne heq] at hv
      exact (h.slot_lt v hv).trans (by lia)
  · obtain ⟨rfl, rfl⟩ | ⟨-, hd₀⟩ := hdirs dir' d' hd'
    · exact linkSlot_counted (h.counted dir' d hd) slot
    · exact h.counted dir' d' hd₀
  · obtain ⟨rfl, rfl⟩ | ⟨-, hd₀⟩ := hdirs dir' d' hd'
    · rw [hnew, List.nodup_middle, List.nodup_cons, ← hold]
      exact ⟨hfresh dir' d hd, h.nodup dir' d hd⟩
    · exact h.nodup dir' d' hd₀
  · obtain ⟨rfl, -⟩ | ⟨d₀, hd₀, hv⟩ := hback dir' d' v hd' hv
    · exact Option.isSome_iff_exists.2 ⟨_, Function.update_self ..⟩
    · exact hslots v (h.isSlot dir' d₀ hd₀ v hv)
  · obtain ⟨hs₁, heq₁⟩ | ⟨d₁', hd₁', hm₁⟩ := hback dir₁ d₁ v hd₁ hv₁ <;>
      obtain ⟨hs₂, heq₂⟩ | ⟨d₂', hd₂', hm₂⟩ := hback dir₂ d₂ v hd₂ hv₂
    · rw [heq₁, heq₂]
    · exact absurd (hs₁ ▸ hm₂) (hfresh dir₂ d₂' hd₂')
    · exact absurd (hs₂ ▸ hm₁) (hfresh dir₁ d₁' hd₁')
    · exact h.one dir₁ d₁' dir₂ d₂' v hd₁' hd₂' hm₁ hm₂
  · change (Function.update st.slots slot _ v).isSome at hv
    by_cases heq : v = slot
    · exact ⟨dir, linked, update_some_iff.2 (.inl ⟨rfl, rfl⟩), (hlinked v).2 (.inl heq)⟩
    · rw [Function.update_of_ne heq] at hv
      obtain ⟨dir', d', hd', hmem⟩ := h.placed v hv
      obtain ⟨d'', hd'', hmem'⟩ := hstay dir' d' v hd' hmem
      exact ⟨dir', d'', hd'', hmem'⟩

/-! ## Operations -/

theorem Places.addNode {d : DirNode} {node : Node} (hnew : IsNew node) (hd : st.nodes parent = some (.dir d))
    (name : Name) (epoch : Int) : Places st (addNode st parent d node name epoch).2 := by
  refine ⟨fun h => ?_⟩
  have hparent : Function.update st.nodes st.nextVp (some node) parent = some (.dir d) :=
    update_some_iff.2 (.inr ⟨Nat.ne_of_lt (h.dir_lt parent d hd), hd⟩)
  exact ((Places.node hnew (freshNodeId st)).trans (.insertEntry hparent ..)).keeps h

theorem DirMove.places (h : DirMove st st') : Places st st' := by
  cases h with
  | add parent d node name epoch hnew hd => exact .addNode hnew hd ..
  | insert dir d childId child name epoch hd => exact .insertEntry hd ..
  | prepend slot s child name epoch hs => exact .prependEntry hs ..
  | reindex dir d ix hd hix => exact .setIndex hd ix
  | bin entries =>
    exact .of_same (Nat.le_refl _) (fun _ => .rfl) (fun _ d hd => ⟨d, hd, rfl⟩) fun _ d hd => ⟨d, hd, rfl⟩

theorem run_places (ops : List Op) (st : State) : Places st (run st ops) :=
  run_keeps (fun hmove h => h.trans hmove.places) (fun hsame h => h.trans hsame.places) (.refl st) ops

theorem bootstrap_placed (pageSize segmentSize : Nat) : SlotsPlaced (bootstrap pageSize segmentSize) := by
  have hdirs : ∀ dir d, (bootstrap pageSize segmentSize).nodes dir = some (.dir d) → dir = 1 ∧ d.segments = [] := by
    intro dir d hd
    obtain ⟨rfl, hnode⟩ := bootstrap_node hd
    cases hnode
    exact ⟨rfl, rfl⟩
  refine ⟨fun dir d hd => ?_, fun v hv => ?_, fun dir d hd => ?_, fun dir d hd => ?_, fun dir d hd v hv => ?_,
    fun dir d dir' d' v hd _ hv _ => ?_, fun v hv => ?_⟩
  · rw [(hdirs dir d hd).1]
    exact Nat.lt_succ_self 1
  · simp [bootstrap] at hv
  · simp [(hdirs dir d hd).2]
  · simp [DirNode.slotList, (hdirs dir d hd).2]
  · simp [DirNode.slotList, (hdirs dir d hd).2] at hv
  · simp [DirNode.slotList, (hdirs dir d hd).2] at hv
  · simp [bootstrap] at hv

/-! ## The result -/

structure DirNode.Shaped (d : DirNode) : Prop where
  counted : ∀ seg ∈ d.segments, seg.count = seg.slots.length ∧ seg.count ≤ unitsPerSegment
  disjoint : d.segments.Pairwise fun seg seg' => seg.slots.Disjoint seg'.slots
  nodup : ∀ seg ∈ d.segments, seg.slots.Nodup

def DirNode.InOneSegment (d : DirNode) (slot : VPtr) : Prop :=
  d.segments.countP (fun seg => decide (slot ∈ seg.slots)) = 1

theorem SlotsPlaced.shaped (h : SlotsPlaced st) {dir : VPtr} {d : DirNode} (hd : st.nodes dir = some (.dir d)) :
    d.Shaped := by
  obtain ⟨hnodup, hdisjoint⟩ := List.nodup_flatMap.1 (h.nodup dir d hd)
  exact ⟨h.counted dir d hd, hdisjoint, hnodup⟩

theorem DirNode.Shaped.inOneSegment {d : DirNode} (h : d.Shaped) {slot : VPtr} (hslot : slot ∈ d.slotList) :
    d.InOneSegment slot := by
  obtain ⟨seg, hseg, hmem⟩ := List.mem_flatMap.1 hslot
  obtain ⟨pre, post, heq⟩ := List.append_of_mem hseg
  have hdisjoint := h.disjoint
  rw [heq, List.pairwise_append, List.pairwise_cons] at hdisjoint
  obtain ⟨-, ⟨hpost, -⟩, hpre⟩ := hdisjoint
  have hnone : ∀ segs : List DirSegment, (∀ seg' ∈ segs, slot ∉ seg'.slots) →
      segs.countP (fun seg => decide (slot ∈ seg.slots)) = 0 := by
    intro segs hsegs
    simpa [List.countP_eq_zero] using hsegs
  rw [DirNode.InOneSegment, heq, List.countP_append, List.countP_cons_of_pos (by simpa using hmem),
    hnone pre fun seg' hseg' hin => hpre seg' hseg' seg List.mem_cons_self hin hmem,
    hnone post fun seg' hseg' hin => hpost seg' hseg' hmem hin]

/-- In every state that operations reach, with whatever arguments: the segments of every directory are in shape,
every slot node of the volume is in one segment of one directory, and a slot node that was linked into a directory
stays in one of its segments. -/
theorem dir_segments_shape (pageSize segmentSize : Nat) (before after : List Op) :
    let st := run (bootstrap pageSize segmentSize) before
    let st' := run st after
    (∀ dir d, st'.nodes dir = some (.dir d) → d.Shaped) ∧
    (∀ slot, (st'.slots slot).isSome → ∃! dir, ∃ d, st'.nodes dir = some (.dir d) ∧ d.InOneSegment slot) ∧
    ∀ dir d slot, st.nodes dir = some (.dir d) → slot ∈ d.slotList →
      ∃ d', st'.nodes dir = some (.dir d') ∧ d'.InOneSegment slot := by
  intro st st'
  obtain ⟨hst, -⟩ := (run_places before _).keeps (bootstrap_placed pageSize segmentSize)
  obtain ⟨hst', hstay⟩ := (run_places after st).keeps hst
  refine ⟨fun dir d hd => hst'.shaped hd, fun slot hslot => ?_, fun dir d slot hd hmem => ?_⟩
  · obtain ⟨dir, d, hd, hmem⟩ := hst'.placed slot hslot
    refine ⟨dir, ⟨d, hd, (hst'.shaped hd).inOneSegment hmem⟩, ?_⟩
    rintro dir' ⟨d', hd', hone⟩
    have hpos : 0 < d'.segments.countP (fun seg => decide (slot ∈ seg.slots)) := by
      rw [hone]
      exact Nat.one_pos
    obtain ⟨seg, hseg, hin⟩ := List.countP_pos_iff.1 hpos
    exact hst'.one dir' d' dir d slot hd' hd (List.mem_flatMap.2 ⟨seg, hseg, by simpa using hin⟩) hmem
  · obtain ⟨d', hd', hmem'⟩ := hstay dir d slot hd hmem
    exact ⟨d', hd', (hst'.shaped hd').inOneSegment hmem'⟩

end SphereVFS
