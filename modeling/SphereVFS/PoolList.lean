import SphereVFS.PoolAlloc

/-!
# SphereVFS.PoolList

The list of the pool pages (`pool_list_add`, `pool_list_find_free`).

A new page is written to the store before it is put on the list, and `pool_list_add` writes the link to
the old head into the buffer that the store has copied. So no page of the store has a link, the list is
its head alone, and a page is off the list as soon as the next one is created. Its free slots are never
found again.
-/

namespace SphereVFS
namespace PoolAlloc

open Bytes

/-- The link of a pool page to the next one; `0` for a page that is not there. -/
def nextPoolPage (pool : Pool) (page : Nat) : Nat :=
  match pool.page page with
  | some payload => get payload offNext 8
  | none => 0

def OnList (pool : Pool) (page : Nat) : Prop := ∃ n, (nextPoolPage pool)^[n] pool.listHead = page

def AllFull (pool : Pool) : Prop :=
  ∀ page payload, pool.page page = some payload → poolStateFreeCount (state payload) = 0

/-- Freed slots come first: every page of the pool is on the list, and when `pool_alloc` turns to
`storage_allocate`, because `pool_list_find_free` found nothing, all pages are full. -/
structure ReusedFirst (pool : Pool) : Prop where
  listed : ∀ page, (pool.page page).isSome → OnList pool page
  full : poolListFindFree pool = 0 → AllFull pool

def headHasRoom (pool : Pool) : Bool :=
  match pool.page pool.listHead with
  | some payload => decide (0 < poolStateFreeCount (state payload))
  | none => false

/-- The call does not create a second page: the pool has none yet, its first one has a free slot, or no
page is to be had. -/
def Call.Fits (s : Session) : Call → Prop
  | .alloc (some _) true => s.pool.listHead = 0 ∨ headHasRoom s.pool = true
  | _ => True

instance (s : Session) : ∀ c : Call, Decidable (c.Fits s)
  | .alloc (some _) true =>
    inferInstanceAs (Decidable (s.pool.listHead = 0 ∨ headHasRoom s.pool = true))
  | .alloc (some _) false => isTrue trivial
  | .alloc none _ => isTrue trivial
  | .free _ => isTrue trivial
  | .release _ _ => isTrue trivial

/-! ## What the calls leave alone -/

section Pages

variable {pool pool' : Pool} {s : Session} {page v : Nat} {payload payload' : Buffer}

structure SamePages (pool pool' : Pool) : Prop where
  head : pool'.listHead = pool.listHead
  pages : ∀ p, (pool'.page p).isSome = (pool.page p).isSome
  links : ∀ p, nextPoolPage pool' p = nextPoolPage pool p

theorem SamePages.refl (pool : Pool) : SamePages pool pool := ⟨rfl, fun _ => rfl, fun _ => rfl⟩

theorem SamePages.update (hpage : pool.page page = some payload) (hhead : pool'.listHead = pool.listHead)
    (hpool : pool'.page = Function.update pool.page page (some payload'))
    (hlink : get payload' offNext 8 = get payload offNext 8) : SamePages pool pool' := by
  refine ⟨hhead, fun p => ?_, fun p => ?_⟩
  · by_cases hp : p = page
    · rw [hpool, hp, Function.update_self, hpage]
      rfl
    · rw [hpool, Function.update_of_ne hp]
  · by_cases hp : p = page
    · simp only [nextPoolPage, hpool, hp, Function.update_self, hpage, hlink]
    · simp only [nextPoolPage, hpool, Function.update_of_ne hp]

theorem link_putState (payload : Buffer) (v : Nat) :
    get (put payload offState 4 v) offNext 8 = get payload offNext 8 :=
  get_put_ne (.inl (Nat.le_refl 8))

theorem link_putSlot (payload : Buffer) (i v : Nat) :
    get (put payload (slotOffset i) 2 v) offNext 8 = get payload offNext 8 :=
  get_put_ne (.inl (by rw [slotOffset, offNext]; omega))

theorem takeSlot_same (pool : Pool) (page : Nat) : SamePages pool (takeSlot pool page).2 := by
  rw [takeSlot]
  split
  · exact .refl pool
  · rename_i payload hpage
    dsimp only
    split
    · exact .refl pool
    · exact .update hpage rfl rfl (link_putState ..)

theorem poolFree_same (pool : Pool) (v : Nat) : SamePages pool (poolFree pool v).2 := by
  rw [poolFree]
  split
  · exact .refl pool
  · split
    · exact .refl pool
    · split
      · exact .refl pool
      · rename_i payload hpage
        exact .update hpage rfl rfl ((link_putState ..).trans (link_putSlot ..))

theorem poolRelease_same (pool : Pool) (v : Nat) (bytes : Buffer) :
    SamePages pool (poolRelease pool v bytes) := by
  rw [poolRelease]
  split
  · exact .refl pool
  · rename_i payload hpage
    refine .update hpage rfl rfl (get_congr fun i hi => if_neg ?_)
    rw [slotOffset, offNext]
    omega

theorem newPage_pages (pool : Pool) (page p : Nat) :
    ((newPage pool page).page p).isSome = (decide (p = page) || (pool.page p).isSome) ∧
      nextPoolPage (newPage pool page) p = if p = page then 0 else nextPoolPage pool p := by
  have hpage : (newPage pool page).page =
      Function.update pool.page page (some (poolPageInit pool.pageSize)) := rfl
  have hlink : get (poolPageInit pool.pageSize) offNext 8 = 0 := get_put (by decide)
  by_cases hp : p = page
  · simp [nextPoolPage, hpage, hp, hlink]
  · simp [nextPoolPage, hpage, hp]

end Pages

/-! ## One page -/

structure OnePage (pool : Pool) : Prop where
  links : ∀ p, nextPoolPage pool p = 0
  pages : ∀ p, (pool.page p).isSome ↔ p = pool.listHead ∧ p ≠ 0

section OnePage

variable {pool pool' : Pool} {s : Session}

theorem OnePage.same (h : OnePage pool) (hsame : SamePages pool pool') : OnePage pool' := by
  refine ⟨fun p => (hsame.links p).trans (h.links p), fun p => ?_⟩
  rw [hsame.pages, hsame.head]
  exact h.pages p

theorem findFree_zero (pool : Pool) (n : Nat) : findFree pool n 0 = 0 := by
  cases n with
  | zero => rfl
  | succ n => rfl

theorem OnePage.findFree_eq_zero (h : OnePage pool) (hroom : headHasRoom pool = false) :
    poolListFindFree pool = 0 := by
  rw [poolListFindFree, findFree]
  split
  · rfl
  · have hlink := h.links pool.listHead
    rw [nextPoolPage] at hlink
    rw [headHasRoom] at hroom
    cases hpage : pool.page pool.listHead with
    | none => rfl
    | some payload =>
      simp only [hpage] at hlink hroom ⊢
      have hfull : ¬ 0 < poolStateFreeCount (get payload offState 4) := of_decide_eq_false hroom
      rw [if_neg hfull, hlink]
      exact findFree_zero pool _

theorem headHasRoom_findFree (hzero : pool.listHead ≠ 0) (hroom : headHasRoom pool = true) :
    poolListFindFree pool ≠ 0 := by
  rw [headHasRoom] at hroom
  cases hpage : pool.page pool.listHead with
  | none => simp [hpage] at hroom
  | some payload =>
    simp only [hpage] at hroom
    have hfree : 0 < poolStateFreeCount (get payload offState 4) := of_decide_eq_true hroom
    simp only [poolListFindFree, findFree, if_neg hzero, hpage, if_pos hfree]
    exact hzero

theorem OnePage.reusedFirst (h : OnePage pool) : ReusedFirst pool := by
  refine ⟨fun page hpage => ⟨0, ((h.pages page).1 hpage).1.symm⟩, fun hfind page payload hpage => ?_⟩
  obtain ⟨rfl, hzero⟩ := (h.pages page).1 (by rw [hpage]; rfl)
  by_contra hfree
  refine headHasRoom_findFree hzero ?_ hfind
  rw [headHasRoom, hpage]
  exact decide_eq_true (Nat.pos_of_ne_zero hfree)

theorem not_onList {page : Nat} (hlink : nextPoolPage pool pool.listHead = 0)
    (hend : nextPoolPage pool 0 = 0) (hhead : page ≠ pool.listHead) (hzero : page ≠ 0) :
    ¬ OnList pool page := by
  rintro ⟨n, hn⟩
  cases n with
  | zero => exact hhead hn.symm
  | succ n =>
    rw [Function.iterate_succ_apply, hlink, Function.iterate_fixed hend] at hn
    exact hzero hn.symm

theorem OnePage.second (h : OnePage pool) (hhead : pool.listHead ≠ 0) {page : Nat}
    (hnone : (pool.page page).isNone) (hsame : SamePages (newPage pool page) pool') :
    ¬ ReusedFirst pool' := by
  intro hreused
  have hold : (pool.page pool.listHead).isSome := (h.pages _).2 ⟨rfl, hhead⟩
  have hne : pool.listHead ≠ pool'.listHead := by
    rw [hsame.head]
    intro heq
    rw [show page = pool.listHead from heq.symm, Option.isNone_iff_eq_none] at hnone
    simp [hnone] at hold
  have hlinks : ∀ p, nextPoolPage pool' p = 0 := by
    intro p
    rw [hsame.links, (newPage_pages pool page p).2, h.links, ite_self]
  refine not_onList (hlinks _) (hlinks 0) hne hhead (hreused.listed _ ?_)
  rw [hsame.pages, (newPage_pages pool page _).1, hold, Bool.or_true]

theorem alloc_pages (pool : Pool) (grant : Option Nat) (malloc : Bool) :
    SamePages pool (poolAlloc pool grant malloc).2 ∨
      ∃ page, grant = some page ∧ malloc = true ∧ poolListFindFree pool = 0 ∧
        SamePages (newPage pool page) (poolAlloc pool grant malloc).2 := by
  obtain heq | heq | ⟨page, hgrant, hmalloc, hfind, heq⟩ := poolAlloc_cases pool grant malloc
  · exact .inl (heq ▸ takeSlot_same pool _)
  · exact .inl (heq ▸ SamePages.refl pool)
  · exact .inr ⟨page, hgrant, hmalloc, hfind, heq ▸ takeSlot_same (newPage pool page) page⟩

theorem OnePage.first (h : OnePage pool) (hhead : pool.listHead = 0) {page : Nat} (htwo : 2 ≤ page) :
    OnePage (newPage pool page) := by
  have hnone : ∀ p, (pool.page p).isSome = false := by
    intro p
    refine Bool.eq_false_iff.2 fun hp => ?_
    obtain ⟨rfl, hzero⟩ := (h.pages p).1 hp
    exact hzero hhead
  refine ⟨fun p => ?_, fun p => ?_⟩
  · rw [(newPage_pages pool page p).2, h.links, ite_self]
  · rw [(newPage_pages pool page p).1, hnone, Bool.or_false, decide_eq_true_iff]
    exact ⟨fun hp => ⟨hp, by omega⟩, fun hp => hp.1⟩

theorem step_onePage (h : OnePage s.pool) {c : Call} (hok : c.Ok s) (hfits : c.Fits s) :
    OnePage (step s c).pool := by
  cases c with
  | alloc grant malloc =>
    rw [step_alloc_pool]
    obtain hsame | ⟨page, rfl, rfl, hfind, hsame⟩ := alloc_pages s.pool grant malloc
    · exact h.same hsame
    · have hhead : s.pool.listHead = 0 := by
        by_contra hzero
        exact headHasRoom_findFree hzero (hfits.resolve_left hzero) hfind
      exact (h.first hhead (hok page rfl).1).same hsame
  | free v => exact h.same (poolFree_same s.pool v)
  | release v bytes => exact h.same (poolRelease_same s.pool v bytes)

theorem step_second (h : OnePage s.pool) {c : Call} (hok : c.Ok s) (hfits : ¬ c.Fits s) :
    ¬ ReusedFirst (step s c).pool := by
  cases c with
  | alloc grant malloc =>
    cases grant with
    | none => exact absurd trivial hfits
    | some page =>
      cases malloc with
      | false => exact absurd trivial hfits
      | true =>
        obtain ⟨hhead, hroom⟩ := not_or.1 hfits
        obtain ⟨-, hnone⟩ := hok page rfl
        have hfind := h.findFree_eq_zero (Bool.eq_false_iff.2 hroom)
        rw [step_alloc_pool]
        refine h.second hhead hnone ?_
        simpa [poolAlloc, hfind] using takeSlot_same (newPage s.pool page) page
  | free v => exact absurd trivial hfits
  | release v bytes => exact absurd trivial hfits

end OnePage

theorem reusedFirst_run_iff {s : Session} (h : OnePage s.pool) {calls : List Call}
    (hrun : Run.AllSteps step (fun s c => c.Ok s) s calls) :
    (∀ n, ReusedFirst (run s (calls.take n)).pool) ↔
      Run.AllSteps step (fun s c => c.Fits s) s calls := by
  induction calls generalizing s with
  | nil => exact ⟨fun _ => trivial, fun _ _ => by simpa [run] using h.reusedFirst⟩
  | cons c calls ih =>
    by_cases hfits : c.Fits s
    · have hrest := ih (step_onePage h hrun.1 hfits) hrun.2
      refine ⟨fun hall => ⟨hfits, hrest.1 fun n => hall (n + 1)⟩, fun hall n => ?_⟩
      cases n with
      | zero => exact h.reusedFirst
      | succ n => exact hrest.2 hall.2 n
    · refine ⟨fun hall => absurd (hall 1) ?_, fun hall => absurd hall.1 hfits⟩
      exact step_second h hrun.1 hfits

/-- **Freed slots come first, while there is one page.** In a run of `pool_alloc`, `pool_free` and
`pool_release`, every pool page stays on the list, and `storage_allocate` is asked only when all pages
are full, exactly if no call creates a second page. -/
theorem freed_slots_reused_iff {pageSize : Nat} (calls : List Call)
    (hrun : Run.AllSteps step (fun s c => c.Ok s) (newSession pageSize) calls) :
    (∀ n, ReusedFirst (run (newSession pageSize) (calls.take n)).pool) ↔
      Run.AllSteps step (fun s c => c.Fits s) (newSession pageSize) calls :=
  reusedFirst_run_iff ⟨fun _ => rfl, fun p => by simp [newSession]⟩ hrun

theorem freed_slots_reused_small :
    ReusedFirst (run (newSession 112) [.alloc (some 2) true, .alloc none true, .alloc none true,
      .free (vptrMake 2 1), .alloc (some 3) true]).pool :=
  (freed_slots_reused_iff [.alloc (some 2) true, .alloc none true, .alloc none true,
    .free (vptrMake 2 1), .alloc (some 3) true] (by decide +kernel)).2 (by decide +kernel) 5

/-- The fourth slot is on a second page, which takes the first one off the list. A slot of the first page
is then given back, but once the second page is full the pool asks for a third one. -/
theorem freed_slot_not_found :
    let calls : List Call := [.alloc (some 2) true, .alloc none true, .alloc none true,
      .alloc (some 3) true, .alloc none true, .alloc none true, .free (vptrMake 2 1)]
    let pool := (run (newSession 112) calls).pool
    Run.AllSteps step (fun s c => c.Ok s) (newSession 112) calls ∧
      (pool.page 2).isSome ∧ ¬ OnList pool 2 ∧ poolListFindFree pool = 0 ∧
      (pool.page 2).any (fun payload => poolStateFreeCount (state payload) = 1) ∧
      (poolAlloc pool (some 4) true).1 = some (vptrMake 4 0) := by
  refine ⟨by decide +kernel, by decide +kernel, ?_, by decide +kernel, by decide +kernel,
    by decide +kernel⟩
  exact not_onList (by decide +kernel) (by decide +kernel) (by decide +kernel) (by decide)

end PoolAlloc
end SphereVFS
