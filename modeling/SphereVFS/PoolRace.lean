import SphereVFS.PoolAlloc
import Mathlib.Data.Fintype.Basic

/-!
# SphereVFS.PoolRace

`pool_alloc` and `pool_free` by several threads. The head of a page's free list and its length are one
word, which is changed by compare-and-swap only. Every load, every read or write of a slot's link and
every compare-and-swap is a step of its own, and the threads take their steps in any order.

`pool_alloc` reads the link of the first free slot before its compare-and-swap. The word has no counter,
so the swap also succeeds if the slot was taken and given back in between, with as many free slots as
before. The link that was read is then an old one, and the slot it names may be in use.
-/

namespace SphereVFS
namespace PoolAlloc
namespace Race

open Bytes

def poolPushMaxRetries : Nat := 1000

inductive Phase where
  /-- No call is under way. -/
  | idle
  /-- `pool_list_find_free`: load the head of the list, -/
  | head
  /-- and look at this page of the list. -/
  | find (page : Nat)
  /-- `pool_list_add` of a new page: load the head of the list, -/
  | link (page : Nat)
  /-- and put the page in its place. -/
  | linkHead (page old : Nat)
  /-- `pool_alloc`: load the state word, -/
  | load (page : Nat)
  /-- read the link of the first free slot, -/
  | read (page state : Nat)
  /-- and swap the state word. -/
  | take (page state next : Nat)
  /-- `pool_free`: load the state word, -/
  | freeLoad (v retry : Nat)
  /-- write the link of the slot, -/
  | freeLink (v retry state : Nat)
  /-- and swap the state word. -/
  | give (v retry state : Nat)
  deriving DecidableEq

/-- The slot a thread will have if its swap succeeds, and whose link it has read. -/
def Phase.candidate : Phase → Option Nat
  | .take page state _ => some (vptrMake page (poolStateFirstFree state))
  | _ => none

def Phase.returning : Phase → Option Nat
  | .give v _ _ => some v
  | _ => none

structure Threads (ι : Type) where
  pool : Pool
  phase : ι → Phase
  owned : List (ι × Nat)

def Threads.inUse {ι : Type} (t : Threads ι) : List Nat := t.owned.map Prod.snd

/-- A thread begins a call, writes a slot it has, or takes the next step of its call. With the step comes
what `storage_allocate` and `malloc` would answer. -/
inductive Event (ι : Type) where
  | alloc (i : ι)
  | free (i : ι) (v : Nat)
  | write (i : ι) (v : Nat) (bytes : Buffer)
  | go (i : ι) (grant : Option Nat) (malloc : Bool)

def casState (pool : Pool) (page old new : Nat) : Option Pool :=
  match pool.page page with
  | none => none
  | some payload =>
    if state payload = old then
      some { pool with page := Function.update pool.page page (some (put payload offState 4 new)) }
    else none

def putLink (pool : Pool) (v first : Nat) : Pool :=
  match pool.page (vptrPage v) with
  | none => pool
  | some payload =>
    { pool with
      page := Function.update pool.page (vptrPage v)
        (some (put payload (slotOffset (vptrSlot v)) 2 first)) }

section Steps

variable {ι : Type} [DecidableEq ι]

def Threads.at (t : Threads ι) (i : ι) (p : Phase) : Threads ι :=
  { t with phase := Function.update t.phase i p }

def grow (t : Threads ι) (i : ι) (grant : Option Nat) (malloc : Bool) : Threads ι :=
  match grant with
  | none => t.at i .idle
  | some page =>
    if malloc then
      { t with pool := storageWrite t.pool page (poolPageInit t.pool.pageSize) }.at i (.link page)
    else t.at i .idle

def go (t : Threads ι) (i : ι) (grant : Option Nat) (malloc : Bool) : Threads ι :=
  match t.phase i with
  | .idle => t
  | .head => t.at i (.find t.pool.listHead)
  | .find page =>
    if page = 0 then grow t i grant malloc
    else
      match t.pool.page page with
      | none => grow t i grant malloc
      | some payload =>
        if 0 < poolStateFreeCount (state payload) then t.at i (.load page)
        else t.at i (.find (get payload offNext 8))
  | .link page => t.at i (.linkHead page t.pool.listHead)
  | .linkHead page old =>
    if t.pool.listHead = old then
      { t with pool := { t.pool with listHead := page } }.at i (.load page)
    else t.at i (.link page)
  | .load page =>
    match t.pool.page page with
    | none => t.at i .idle
    | some payload =>
      if poolStateFreeCount (state payload) = 0 then t.at i .head
      else t.at i (.read page (state payload))
  | .read page st =>
    match t.pool.page page with
    | none => t.at i .idle
    | some payload => t.at i (.take page st (nextFree payload (poolStateFirstFree st)))
  | .take page st next =>
    match casState t.pool page st (poolStatePack (poolStateFreeCount st - 1) next) with
    | none => t.at i .head
    | some pool =>
      { t with
        pool := { pool with allocCount := pool.allocCount + 1 }
        owned := (i, vptrMake page (poolStateFirstFree st)) :: t.owned }.at i .idle
  | .freeLoad v retry =>
    match t.pool.page (vptrPage v) with
    | none => t.at i .idle
    | some payload => t.at i (.freeLink v retry (state payload))
  | .freeLink v retry st =>
    { t with pool := putLink t.pool v (poolStateFirstFree st) }.at i (.give v retry st)
  | .give v retry st =>
    match casState t.pool (vptrPage v) st (poolStatePack (poolStateFreeCount st + 1) (vptrSlot v)) with
    | none => if retry + 1 < poolPushMaxRetries then t.at i (.freeLoad v (retry + 1)) else t.at i .idle
    | some pool =>
      { t with
        pool := { pool with allocCount := pool.allocCount - 1 }
        owned := t.owned.erase (i, v) }.at i .idle

def step (t : Threads ι) : Event ι → Threads ι
  | .alloc i => t.at i .head
  | .free i v => if v = 0 ∨ vptrPage v < 2 then t else t.at i (.freeLoad v 0)
  | .write _ v bytes => { t with pool := poolRelease t.pool v bytes }
  | .go i grant malloc => go t i grant malloc

def run (t : Threads ι) (events : List (Event ι)) : Threads ι := events.foldl step t

/-- A thread that is in a call begins no other. Threads free and write slots they have, and the store
gives pages that are not in use. -/
def Event.Ok (t : Threads ι) : Event ι → Prop
  | .alloc i => t.phase i = .idle
  | .free i v => t.phase i = .idle ∧ (i, v) ∈ t.owned
  | .write i v _ => t.phase i = .idle ∧ (i, v) ∈ t.owned
  | .go _ grant _ => ∀ page ∈ grant, 2 ≤ page ∧ (t.pool.page page).isNone

/-- No slot is given back while a `pool_alloc` that has read its link is about to swap the state word. -/
def Event.Guarded (t : Threads ι) : Event ι → Prop
  | .go i _ _ => ∀ v ∈ (t.phase i).returning, ∀ j, (t.phase j).candidate ≠ some v
  | _ => True

instance (t : Threads ι) : ∀ e : Event ι, Decidable (e.Ok t)
  | .alloc i => inferInstanceAs (Decidable (t.phase i = .idle))
  | .free i v => inferInstanceAs (Decidable (t.phase i = .idle ∧ (i, v) ∈ t.owned))
  | .write i v _ => inferInstanceAs (Decidable (t.phase i = .idle ∧ (i, v) ∈ t.owned))
  | .go _ grant _ =>
    inferInstanceAs (Decidable (∀ page ∈ grant, 2 ≤ page ∧ (t.pool.page page).isNone))

instance [Fintype ι] (t : Threads ι) : ∀ e : Event ι, Decidable (e.Guarded t)
  | .go i _ _ =>
    inferInstanceAs (Decidable (∀ v ∈ (t.phase i).returning, ∀ j, (t.phase j).candidate ≠ some v))
  | .alloc _ => isTrue trivial
  | .free _ _ => isTrue trivial
  | .write _ _ _ => isTrue trivial

end Steps

def newThreads (ι : Type) (pageSize : Nat) : Threads ι :=
  ⟨(newSession pageSize).pool, fun _ => .idle, []⟩

/-! ## The invariant -/

section Invariant

variable {ι : Type} {pageSize : Nat} {pool pool' : Pool} {owned owned' : List (ι × Nat)}

structure Taking (pageSize : Nat) (pool : Pool) (inUse : List Nat) (page st next : Nat) : Prop where
  count : 0 < poolStateFreeCount st
  link : ∃ payload, pool.page page = some payload ∧ (poolStateFirstFree st < slotCount pageSize →
    vptrMake page (poolStateFirstFree st) ∉ inUse → next = nextFree payload (poolStateFirstFree st))

def HasLink (pool : Pool) (v st : Nat) : Prop :=
  ∃ page slot payload, v = vptrMake page slot ∧ slot < 2 ^ 16 ∧ pool.page page = some payload ∧
    nextFree payload slot = poolStateFirstFree st

def Fine (pageSize : Nat) (pool : Pool) (owned : List (ι × Nat)) (i : ι) : Phase → Prop
  | .read _ st => 0 < poolStateFreeCount st
  | .take page st next => Taking pageSize pool (owned.map Prod.snd) page st next
  | .freeLoad v _ => (i, v) ∈ owned
  | .freeLink v _ _ => (i, v) ∈ owned
  | .give v _ st => (i, v) ∈ owned ∧ HasLink pool v st
  | _ => True

structure Inv (pageSize : Nat) (t : Threads ι) : Prop where
  session : PoolAlloc.Inv pageSize ⟨t.pool, t.inUse⟩
  fine : ∀ i, Fine pageSize t.pool t.owned i (t.phase i)

def LinksKept (pool pool' : Pool) (w : Option Nat) : Prop :=
  ∀ page payload, pool.page page = some payload → ∃ payload', pool'.page page = some payload' ∧
    ∀ k < 2 ^ 16, w ≠ some (vptrMake page k) → nextFree payload' k = nextFree payload k

theorem LinksKept.refl (pool : Pool) : LinksKept pool pool none :=
  fun _ payload hpage => ⟨payload, hpage, fun _ _ _ => rfl⟩

theorem LinksKept.update {w : Option Nat} {p : Nat} {payload payload' : Buffer}
    (hp : pool.page p = some payload)
    (hpool : pool'.page = Function.update pool.page p (some payload'))
    (hsame : ∀ k < 2 ^ 16, w ≠ some (vptrMake p k) → nextFree payload' k = nextFree payload k) :
    LinksKept pool pool' w := by
  intro page payload₀ hpage
  by_cases hpp : page = p
  · subst hpp
    obtain rfl : payload = payload₀ := by simpa [hp] using hpage
    exact ⟨payload', by rw [hpool, Function.update_self], hsame⟩
  · exact ⟨payload₀, by rw [hpool, Function.update_of_ne hpp, hpage], fun _ _ _ => rfl⟩

theorem LinksKept.hasLink {w : Option Nat} {v st : Nat} (h : LinksKept pool pool' w) (hv : w ≠ some v)
    (hlink : HasLink pool v st) : HasLink pool' v st := by
  obtain ⟨page, slot, payload, rfl, hslot, hpage, hlink⟩ := hlink
  obtain ⟨payload', hpage', hsame⟩ := h page payload hpage
  exact ⟨page, slot, payload', rfl, hslot, hpage', (hsame slot hslot hv).trans hlink⟩

/-- The steps of one thread leave the others as they were: the slot whose link changes belongs to the
thread, and the slot it gives back is not one that another thread is about to take. -/
theorem Fine.other {w : Option Nat} {j : ι} {p : Phase} (h : Fine pageSize pool owned j p)
    (hkept : LinksKept pool pool' w) (hw : ∀ v ∈ w, v ∈ owned.map Prod.snd ∧ (j, v) ∉ owned)
    (howned : ∀ v, (j, v) ∈ owned → (j, v) ∈ owned')
    (hcand : ∀ v ∈ p.candidate, v ∈ owned.map Prod.snd → v ∈ owned'.map Prod.snd) :
    Fine pageSize pool' owned' j p := by
  cases p with
  | take page st next =>
    obtain ⟨payload, hpage, hlink⟩ := h.link
    obtain ⟨payload', hpage', hsame⟩ := hkept page payload hpage
    refine ⟨h.count, payload', hpage', fun hslot hfree => ?_⟩
    have hfree' : vptrMake page (poolStateFirstFree st) ∉ owned.map Prod.snd :=
      fun hmem => hfree (hcand _ rfl hmem)
    rw [hsame _ (firstFree_lt st) fun heq => hfree' (hw _ heq).1]
    exact hlink hslot hfree'
  | give v retry st =>
    exact ⟨howned v h.1, hkept.hasLink (fun heq => (hw v heq).2 h.1) h.2⟩
  | freeLoad v retry => exact howned v h
  | freeLink v retry st => exact howned v h
  | read page st => exact h
  | idle => trivial
  | head => trivial
  | find page => trivial
  | link page => trivial
  | linkHead page old => trivial
  | load page => trivial

theorem session_congr {allocated : List Nat} (h : PoolAlloc.Inv pageSize ⟨pool, allocated⟩)
    (hpage : pool'.page = pool.page) (hsize : pool'.pageSize = pool.pageSize) :
    PoolAlloc.Inv pageSize ⟨pool', allocated⟩ := by
  refine ⟨hsize.trans h.size, ?_, ?_, h.nodup⟩
  · intro page payload hp
    exact h.page page payload (hpage ▸ hp)
  · intro v hv
    simp only [hpage]
    exact h.slot v hv

theorem map_erase_snd [DecidableEq ι] {i : ι} {v : Nat} (hnodup : (owned.map Prod.snd).Nodup)
    (hmem : (i, v) ∈ owned) : (owned.erase (i, v)).map Prod.snd = (owned.map Prod.snd).erase v := by
  induction owned with
  | nil => simp at hmem
  | cons x owned ih =>
    obtain ⟨hx, hnodup⟩ := List.nodup_cons.1 hnodup
    by_cases heq : x = (i, v)
    · rw [heq, List.erase_cons_head, List.map_cons, List.erase_cons_head]
    · have hmem' : (i, v) ∈ owned := (List.mem_cons.1 hmem).resolve_left (Ne.symm heq)
      have hsnd : x.2 ≠ v := by
        rintro rfl
        exact hx (List.mem_map.2 ⟨_, hmem', rfl⟩)
      rw [List.erase_cons_tail (by simpa using heq), List.map_cons, List.map_cons,
        List.erase_cons_tail (by simpa using hsnd), ih hnodup hmem']

theorem owner_unique {i j : ι} {v : Nat} (hnodup : (owned.map Prod.snd).Nodup) (hi : (i, v) ∈ owned)
    (hj : (j, v) ∈ owned) : i = j := by
  induction owned with
  | nil => simp at hi
  | cons x owned ih =>
    obtain ⟨hx, hnodup⟩ := List.nodup_cons.1 hnodup
    have hmem : ∀ k, (k, v) ∈ owned → v ∈ owned.map Prod.snd := fun k hk => List.mem_map.2 ⟨_, hk, rfl⟩
    obtain rfl | hi' := List.mem_cons.1 hi
    · obtain heq | hj' := List.mem_cons.1 hj
      · exact (Prod.mk.inj heq).1.symm
      · exact absurd (hmem j hj') hx
    · obtain rfl | hj' := List.mem_cons.1 hj
      · exact absurd (hmem i hi') hx
      · exact ih hnodup hi' hj'

end Invariant

/-! ## Steps -/

section StepInv

variable {ι : Type} [DecidableEq ι] {pageSize : Nat} {t : Threads ι} {i : ι}

theorem Inv.at (h : Inv pageSize t) {p : Phase} (hp : Fine pageSize t.pool t.owned i p) :
    Inv pageSize (t.at i p) := by
  refine ⟨h.session, fun j => ?_⟩
  by_cases hj : j = i
  · subst hj
    simpa [Threads.at] using hp
  · simpa [Threads.at, hj] using h.fine j

theorem Inv.change (h : Inv pageSize t) {t' : Threads ι} {p : Phase} {w : Option Nat}
    (hsession : PoolAlloc.Inv pageSize ⟨t'.pool, t'.inUse⟩) (hphase : t'.phase = Function.update t.phase i p)
    (hp : Fine pageSize t'.pool t'.owned i p) (hkept : LinksKept t.pool t'.pool w)
    (hw : ∀ v ∈ w, (i, v) ∈ t.owned) (howned : ∀ j v, j ≠ i → (j, v) ∈ t.owned → (j, v) ∈ t'.owned)
    (hcand : ∀ j, j ≠ i → ∀ v ∈ (t.phase j).candidate, v ∈ t.inUse → v ∈ t'.inUse) : Inv pageSize t' := by
  refine ⟨hsession, fun j => ?_⟩
  by_cases hj : j = i
  · rw [hphase, hj, Function.update_self]
    exact hp
  · rw [hphase, Function.update_of_ne hj]
    refine (h.fine j).other hkept (fun v hv => ⟨List.mem_map.2 ⟨_, hw v hv, rfl⟩, fun hmem => hj ?_⟩)
      (fun v => howned j v hj) (hcand j hj)
    exact owner_unique h.session.nodup hmem (hw v hv)

theorem Inv.grow (h : Inv pageSize t) (hsize : 48 ≤ pageSize) {grant : Option Nat} {malloc : Bool}
    (hgrant : ∀ page ∈ grant, 2 ≤ page ∧ (t.pool.page page).isNone) :
    Inv pageSize (grow t i grant malloc) := by
  cases grant with
  | none => exact h.at trivial
  | some page =>
    cases malloc with
    | false => exact h.at trivial
    | true =>
      obtain ⟨htwo, hnone⟩ := hgrant page rfl
      have hnone := Option.isNone_iff_eq_none.1 hnone
      have hsession := (h.session.newPage hsize htwo hnone).1
      refine h.change (w := none) (session_congr hsession rfl rfl) rfl trivial ?_ (by simp)
        (fun _ _ _ hmem => hmem) fun _ _ _ _ hmem => hmem
      intro p payload hp
      have hne : p ≠ page := by
        rintro rfl
        simp [hnone] at hp
      exact ⟨payload, (Function.update_of_ne hne ..).trans hp, fun _ _ _ => rfl⟩

theorem Inv.take (h : Inv pageSize t) {page st next : Nat} (hphase : t.phase i = .take page st next)
    {pool : Pool}
    (hcas : casState t.pool page st (poolStatePack (poolStateFreeCount st - 1) next) = some pool) :
    Inv pageSize ({ t with
      pool := { pool with allocCount := pool.allocCount + 1 }
      owned := (i, vptrMake page (poolStateFirstFree st)) :: t.owned }.at i .idle) := by
  have htaking : Taking pageSize t.pool t.inUse page st next := by
    have := h.fine i
    rwa [hphase] at this
  obtain ⟨payload, hpage, hlink⟩ := htaking.link
  rw [casState, hpage] at hcas
  simp only at hcas
  split at hcas
  · rename_i hstate
    cases hcas
    -- the first free slot is the one that was loaded
    obtain ⟨-, chain, hlist⟩ := h.session.page page payload hpage
    have hcount := hlist.length
    rw [hstate] at hcount
    cases chain with
    | nil => exact absurd hcount (Nat.ne_of_lt htaking.count)
    | cons first chain =>
      obtain ⟨hfirst, -, -⟩ := hlist.linked
      rw [hstate] at hfirst
      obtain ⟨hslot, hfree⟩ := (hlist.mem first).1 List.mem_cons_self
      rw [hfirst] at hlink
      have hnext := hlink hslot hfree
      obtain ⟨v, pool', htake, htook⟩ := h.session.takeSlot hpage (by rw [hstate]; exact htaking.count)
      have hne : ¬ poolStateFreeCount (get payload offState 4) = 0 := by
        rw [show get payload offState 4 = st from hstate]
        exact Nat.ne_of_gt htaking.count
      simp only [PoolAlloc.takeSlot, hpage, if_neg hne] at htake
      obtain ⟨hv, rfl⟩ := Prod.mk.inj htake
      cases hv
      have hinv := htook.inv
      rw [show get payload offState 4 = st from hstate, hfirst] at hinv
      rw [hfirst, hnext]
      refine h.change (w := none) hinv rfl trivial (.update hpage rfl fun k _ _ => nextFree_putState ..)
        (by simp) (fun j v _ hmem => List.mem_cons_of_mem _ hmem) fun j _ v _ hmem => ?_
      exact List.mem_cons_of_mem _ hmem
  · cases hcas

theorem Inv.freeLink (h : Inv pageSize t) {v retry st : Nat} (hphase : t.phase i = .freeLink v retry st) :
    Inv pageSize ({ t with pool := putLink t.pool v (poolStateFirstFree st) }.at i (.give v retry st)) := by
  have hmem : (i, v) ∈ t.owned := by
    have := h.fine i
    rwa [hphase] at this
  have huse : v ∈ t.inUse := List.mem_map.2 ⟨_, hmem, rfl⟩
  obtain ⟨page, slot, payload, rfl, hslot, hpage, hp, hs⟩ := h.session.slot_parts huse
  have hpage : t.pool.page page = some payload := hpage
  have hlt := slotCount_lt pageSize
  set payload' := put payload (slotOffset slot) 2 (poolStateFirstFree st) with hpayload'
  have hpool : putLink t.pool (vptrMake page slot) (poolStateFirstFree st) =
      { t.pool with page := Function.update t.pool.page page (some payload') } := by
    simp only [putLink, hp, hs, hpage, hpayload']
  -- it is a write of the slot like any other
  have hwrite : poolRelease t.pool (vptrMake page slot) (fun o => payload' (slotOffset slot + o)) =
      { t.pool with page := Function.update t.pool.page page (some payload') } := by
    simp only [poolRelease, hp, hs, hpage]
    have hbytes : (fun o => if slotOffset slot ≤ o ∧ o < slotOffset slot + 32 then
        payload' (slotOffset slot + (o - slotOffset slot)) else payload o) = payload' := by
      funext o
      split
      · rw [Nat.add_sub_cancel' (by omega)]
      · exact (put_apply (by omega)).symm
    rw [hbytes]
  have hsession := h.session.poolRelease huse fun o => payload' (slotOffset slot + o)
  rw [hwrite] at hsession
  rw [hpool]
  refine h.change (w := some (vptrMake page slot)) hsession rfl ⟨hmem, page, slot, payload', rfl, by omega,
    Function.update_self .., nextFree_putSlot (firstFree_lt st)⟩ (.update hpage rfl fun k hk hne => ?_)
    (fun v hv => Option.some.inj hv ▸ hmem) (fun _ _ _ hmem => hmem) fun _ _ _ _ hmem => hmem
  refine nextFree_putSlot_ne ?_
  rintro rfl
  exact hne rfl

theorem Inv.give (h : Inv pageSize t) {v retry st : Nat} (hphase : t.phase i = .give v retry st)
    (hguard : ∀ j, (t.phase j).candidate ≠ some v) {pool : Pool}
    (hcas : casState t.pool (vptrPage v) st (poolStatePack (poolStateFreeCount st + 1) (vptrSlot v)) =
      some pool) :
    Inv pageSize ({ t with
      pool := { pool with allocCount := pool.allocCount - 1 }
      owned := t.owned.erase (i, v) }.at i .idle) := by
  obtain ⟨hmem, page, slot, payload, rfl, hslot, hpage, hlink⟩ :
      (i, v) ∈ t.owned ∧ HasLink t.pool v st := by
    have := h.fine i
    rwa [hphase] at this
  have huse : vptrMake page slot ∈ t.inUse := List.mem_map.2 ⟨_, hmem, rfl⟩
  have hp : vptrPage (vptrMake page slot) = page := vptrPage_make hslot
  have hs : vptrSlot (vptrMake page slot) = slot := vptrSlot_make hslot
  rw [casState, hp, hpage] at hcas
  simp only at hcas
  split at hcas
  · rename_i hstate
    cases hcas
    have htwo := (h.session.page page payload hpage).1
    have hne : vptrMake page slot ≠ 0 := by
      rw [vptrMake_eq hslot]
      omega
    -- the link is written already, so this is what `pool_free` does
    have hsame : put payload (slotOffset slot) 2 (poolStateFirstFree (get payload offState 4)) = payload := by
      rw [show get payload offState 4 = st from hstate, ← hlink]
      exact put_get ..
    have hsession := h.session.poolFree huse
    simp only [PoolAlloc.poolFree, hp, hs, hpage, if_neg hne, if_neg (Nat.not_lt.2 htwo), hsame] at hsession
    rw [show get payload offState 4 = st from hstate] at hsession
    have herase : (t.owned.erase (i, vptrMake page slot)).map Prod.snd =
        t.inUse.erase (vptrMake page slot) := map_erase_snd h.session.nodup hmem
    rw [hs]
    refine h.change (w := none) ?_ rfl trivial (.update hpage rfl fun k _ _ => nextFree_putState ..)
      (by simp) (fun j v hj hmem' => ?_) fun j hj v hv hv' => ?_
    · show PoolAlloc.Inv pageSize ⟨_, (t.owned.erase (i, vptrMake page slot)).map Prod.snd⟩
      rw [herase]
      exact hsession
    · refine (List.mem_erase_of_ne ?_).2 hmem'
      rintro heq
      exact hj (Prod.mk.inj heq).1
    · show v ∈ (t.owned.erase (i, vptrMake page slot)).map Prod.snd
      rw [herase]
      refine (List.mem_erase_of_ne ?_).2 hv'
      rintro rfl
      exact hguard j hv
  · cases hcas

theorem Inv.write (h : Inv pageSize t) {v : Nat} (hidle : t.phase i = .idle) (hmem : (i, v) ∈ t.owned)
    (bytes : Buffer) : Inv pageSize { t with pool := poolRelease t.pool v bytes } := by
  have huse : v ∈ t.inUse := List.mem_map.2 ⟨_, hmem, rfl⟩
  obtain ⟨page, slot, payload, rfl, hslot, hpage, hp, hs⟩ := h.session.slot_parts huse
  have hpage : t.pool.page page = some payload := hpage
  have hlt := slotCount_lt pageSize
  have hphase : t.phase = Function.update t.phase i .idle := by rw [← hidle, Function.update_eq_self]
  refine h.change (w := some (vptrMake page slot)) (h.session.poolRelease huse bytes) hphase trivial ?_
    (fun v hv => Option.some.inj hv ▸ hmem) (fun _ _ _ hmem => hmem) fun _ _ _ _ hmem => hmem
  have hpool : (poolRelease t.pool (vptrMake page slot) bytes).page = Function.update t.pool.page page
      (some fun o => if slotOffset slot ≤ o ∧ o < slotOffset slot + 32 then
        bytes (o - slotOffset slot) else payload o) := by
    simp only [poolRelease, hp, hs, hpage]
  refine .update hpage hpool fun k hk hne => get_congr fun o ho => if_neg ?_
  have hne' : k ≠ slot := by
    rintro rfl
    exact hne rfl
  rw [slotOffset, slotOffset]
  omega

theorem go_inv (h : Inv pageSize t) (hsize : 48 ≤ pageSize) {grant : Option Nat} {malloc : Bool}
    (hok : (Event.go i grant malloc).Ok t) (hguard : (Event.go i grant malloc).Guarded t) :
    Inv pageSize (go t i grant malloc) := by
  have hfine := h.fine i
  rw [go]
  split <;> rename_i hphase
  · exact h
  · exact h.at trivial
  · rename_i page
    split
    · exact h.grow hsize hok
    · split
      · exact h.grow hsize hok
      · split
        · exact h.at trivial
        · exact h.at trivial
  · exact h.at trivial
  · split
    · exact h.change (w := none) (session_congr h.session rfl rfl) rfl trivial (.refl _)
        (by simp) (fun _ _ _ hmem => hmem) fun _ _ _ _ hmem => hmem
    · exact h.at trivial
  · split
    · exact h.at trivial
    · split
      · exact h.at trivial
      · rename_i hcount
        exact h.at (Nat.pos_of_ne_zero hcount)
  · rename_i page st
    split
    · exact h.at trivial
    · rename_i payload hpage
      rw [hphase] at hfine
      exact h.at ⟨hfine, payload, hpage, fun _ _ => rfl⟩
  · split
    · exact h.at trivial
    · rename_i hcas
      exact h.take hphase hcas
  · rw [hphase] at hfine
    split
    · exact h.at trivial
    · exact h.at hfine
  · exact h.freeLink hphase
  · rename_i v retry st
    split
    · split
      · rw [hphase] at hfine
        exact h.at hfine.1
      · exact h.at trivial
    · rename_i hcas
      exact h.give hphase (hguard v (by rw [hphase]; rfl)) hcas

theorem step_inv (h : Inv pageSize t) (hsize : 48 ≤ pageSize) {e : Event ι} (hok : e.Ok t)
    (hguard : e.Guarded t) : Inv pageSize (step t e) := by
  cases e with
  | alloc i => exact h.at trivial
  | free i v =>
    rw [step]
    split
    · exact h
    · exact h.at hok.2
  | write i v bytes => exact h.write hok.1 hok.2 bytes
  | go i grant malloc => exact go_inv h hsize hok hguard

theorem newThreads_inv (ι : Type) (pageSize : Nat) : Inv pageSize (newThreads ι pageSize) :=
  ⟨newSession_inv pageSize, fun _ => trivial⟩

end StepInv

/-- **No slot is handed out twice, as long as no slot comes back under a reader.** Any number of threads
allocate, write and free slots in any order of their steps. If no slot is given back while another thread
has read its link and is about to swap, then no slot has two owners, and the free list of every page is
made of the slots nobody has. -/
theorem pool_race_sound {ι : Type} [DecidableEq ι] {pageSize : Nat} (hsize : 48 ≤ pageSize)
    (events : List (Event ι))
    (hrun : Run.AllSteps step (fun t e => e.Ok t ∧ e.Guarded t) (newThreads ι pageSize) events) :
    let t := run (newThreads ι pageSize) events
    (∀ i j v, (i, v) ∈ t.owned → (j, v) ∈ t.owned → i = j) ∧ t.inUse.Nodup ∧
      ∀ page payload, t.pool.page page = some payload → ∃ chain : List Nat,
        Linked.Chain (nextFree payload) freeTerminal (poolStateFirstFree (state payload)) chain ∧
        chain.Nodup ∧ chain.length = poolStateFreeCount (state payload) ∧
        ∀ k, k ∈ chain ↔ k < slotCount pageSize ∧ vptrMake page k ∉ t.inUse := by
  have h : Inv pageSize (run (newThreads ι pageSize) events) :=
    Run.invariant (Inv pageSize) (fun _ _ ht hok => step_inv ht hsize hok.1 hok.2)
      (newThreads_inv ι pageSize) hrun
  refine ⟨fun i j v hi hj => owner_unique h.session.nodup hi hj, h.session.nodup, fun page payload hpage => ?_⟩
  obtain ⟨-, chain, hlist⟩ := h.session.page page payload hpage
  exact ⟨chain, hlist.linked, hlist.linked.nodup, hlist.length, hlist.mem⟩


def steps {ι : Type} (i : ι) (n : Nat) : List (Event ι) := List.replicate n (.go i none true)

/-- Thread 1 creates a page and takes a slot of it, thread 0 takes another one while thread 1 gives its
slot back. -/
def apartSchedule : List (Event (Fin 2)) :=
  .alloc 1 :: steps 1 1 ++ .go 1 (some 2) true :: steps 1 5 ++
  .free 1 (vptrMake 2 0) :: steps 1 2 ++ .alloc 0 :: steps 0 4 ++ steps 1 1 ++ steps 0 6

theorem pool_race_sound_two :
    let t := run (newThreads (Fin 2) 144) apartSchedule
    t.owned = [(0, vptrMake 2 0)] ∧ ∀ i j v, (i, v) ∈ t.owned → (j, v) ∈ t.owned → i = j :=
  ⟨by decide +kernel, (pool_race_sound (by decide) apartSchedule (by decide +kernel)).1⟩

/-- Thread 1 has slot 0 of a page of four. Thread 0 begins to take slot 1 and reads its link, slot 2.
Thread 1 takes slots 1 and 2, and gives back 0 and then 1, so that slot 1 is first again and three slots
are free. The swap of thread 0 succeeds and makes slot 2 the first free one, which thread 1 has; the next
call of thread 0 returns it. -/
def abaSchedule : List (Event (Fin 2)) :=
  .alloc 1 :: steps 1 1 ++ .go 1 (some 2) true :: steps 1 5 ++
  .alloc 0 :: steps 0 4 ++
  .alloc 1 :: steps 1 5 ++ .alloc 1 :: steps 1 5 ++
  .free 1 (vptrMake 2 0) :: steps 1 3 ++ .free 1 (vptrMake 2 1) :: steps 1 3 ++
  steps 0 1 ++ .alloc 0 :: steps 0 5

theorem slot_with_two_owners :
    let t := run (newThreads (Fin 2) 144) abaSchedule
    Run.AllSteps step (fun t e => e.Ok t) (newThreads (Fin 2) 144) abaSchedule ∧
      t.phase 0 = .idle ∧ t.phase 1 = .idle ∧
      (0, vptrMake 2 2) ∈ t.owned ∧ (1, vptrMake 2 2) ∈ t.owned := by
  decide +kernel

end Race
end PoolAlloc
end SphereVFS
