import SphereVFS.Locks

/-!
# SphereVFS.LockSafety

What the locks exclude, over all interleavings.

The fields of a lock count its holders, whatever the schedule, so two threads never hold a key at
one epoch. The global lock excludes the others only as long as no request is in the second wait of
a lock per epoch when the global lock is granted: that wait does not look at the global lock again.
-/

namespace SphereVFS
namespace Lock

variable {T : Type}

/-! ## Lists -/

theorem countP_erase_add {α : Type} [DecidableEq α] {l : List α} {a : α} (h : a ∈ l) (p : α → Bool) :
    l.countP p = (l.erase a).countP p + if p a = true then 1 else 0 := by
  rw [(List.perm_cons_erase h).countP_eq, List.countP_cons]

/-! ## Holders per epoch -/

theorem bumpEpoch_none {epoch : Int} {epochs : List (Int × Nat)} (h : epoch ∉ epochs.map Prod.fst) :
    bumpEpoch epoch epochs = none := by
  induction epochs with
  | nil => rfl
  | cons p rest ih =>
    obtain ⟨e, c⟩ := p
    rw [List.map_cons, List.mem_cons, not_or] at h
    rw [bumpEpoch, if_neg (Ne.symm h.1), ih h.2]
    rfl

theorem dropEpoch_ones {epoch : Int} {epochs : List (Int × Nat)} (hones : ∀ p ∈ epochs, p.2 = 1)
    (hnodup : (epochs.map Prod.fst).Nodup) (hmem : epoch ∈ epochs.map Prod.fst) :
    ∃ rest, dropEpoch epoch epochs = some rest ∧ (∀ p ∈ rest, p ∈ epochs) ∧
      (rest.map Prod.fst).Nodup ∧ ∀ e, e ∈ rest.map Prod.fst ↔ e ∈ epochs.map Prod.fst ∧ e ≠ epoch := by
  induction epochs with
  | nil => simp at hmem
  | cons p epochs ih =>
    obtain ⟨e, c⟩ := p
    rw [List.map_cons, List.nodup_cons] at hnodup
    obtain rfl : c = 1 := hones (e, c) List.mem_cons_self
    by_cases he : e = epoch
    · subst he
      refine ⟨epochs, by simp [dropEpoch], fun p hp => List.mem_cons_of_mem _ hp, hnodup.2, fun e' => ?_⟩
      rw [List.map_cons, List.mem_cons]
      constructor
      · intro hm
        exact ⟨.inr hm, by rintro rfl; exact hnodup.1 hm⟩
      · rintro ⟨rfl | hm, hne⟩
        · exact absurd rfl hne
        · exact hm
    · have hmem' : epoch ∈ epochs.map Prod.fst := by
        rw [List.map_cons, List.mem_cons] at hmem
        exact hmem.resolve_left (Ne.symm he)
      obtain ⟨rest, hdrop, hsub, hnd, hkeys⟩ :=
        ih (fun p hp => hones p (List.mem_cons_of_mem _ hp)) hnodup.2 hmem'
      refine ⟨(e, 1) :: rest, by simp [dropEpoch, he, hdrop], ?_, ?_, fun e' => ?_⟩
      · intro p hp
        obtain rfl | hp := List.mem_cons.1 hp
        · exact List.mem_cons_self
        · exact List.mem_cons_of_mem _ (hsub p hp)
      · rw [List.map_cons, List.nodup_cons, hkeys]
        exact ⟨fun hm => hnodup.1 hm.1, hnd⟩
      · rw [List.map_cons, List.mem_cons, hkeys, List.map_cons, List.mem_cons]
        constructor
        · rintro (rfl | hm)
          · exact ⟨.inl rfl, he⟩
          · exact ⟨.inr hm.1, hm.2⟩
        · rintro ⟨rfl | hm, hne⟩
          · exact .inl rfl
          · exact .inr ⟨hm, hne⟩

theorem hasHolders_iff {f : FileLockState T} {epoch : Int} :
    perEpochHasHolders f epoch = true ↔ epoch ∈ f.epochs.map Prod.fst := by
  simp [perEpochHasHolders]

/-! ## The invariant of one key -/

/-- The fields of a lock tell who holds it. `holds` are the holds of its key, and `waiting` is the
number of calls that have a reference and have not returned. -/
structure KeyOk (holds : List (Hold T)) (waiting : Nat) (f : FileLockState T) : Prop where
  depth : f.globalDepth = holds.countP (fun h => h.epoch == 0)
  owner : ∀ h ∈ holds, h.epoch = 0 → f.globalOwner = some h.thread
  flag : f.globalHeld = true ↔ 0 < f.globalDepth
  ones : ∀ p ∈ f.epochs, p.2 = 1
  nodup : (f.epochs.map Prod.fst).Nodup
  keys : ∀ e, e ∈ f.epochs.map Prod.fst ↔ e ≠ 0 ∧ ∃ h ∈ holds, h.epoch = e
  total : f.totalEpochHolders = holds.countP (fun h => h.epoch != 0)
  once : ∀ e, e ≠ 0 → holds.countP (fun h => h.epoch == e) ≤ 1
  refs : holds.length + waiting ≤ f.refcount

theorem KeyOk.new : KeyOk [] 1 (FileLockState.new : FileLockState T) := by
  constructor <;> simp [FileLockState.new]

theorem KeyOk.enter {holds : List (Hold T)} {waiting : Nat} {f : FileLockState T}
    (h : KeyOk holds waiting f) :
    KeyOk holds (waiting + 1) { f with refcount := f.refcount + 1 } :=
  { h with refs := by have := h.refs; dsimp only; omega }

theorem KeyOk.pending {holds : List (Hold T)} {waiting : Nat} {f : FileLockState T}
    (h : KeyOk holds waiting f) (pending : Bool) :
    KeyOk holds waiting { f with globalPending := pending } := { h with }

theorem KeyOk.fewer {holds : List (Hold T)} {waiting waiting' : Nat} {f : FileLockState T}
    (h : KeyOk holds waiting f) (hle : waiting' ≤ waiting) : KeyOk holds waiting' f :=
  { h with refs := by have := h.refs; omega }

def SectionOk (holds : List (Hold T)) (waiting : Nat) (hold : Hold T)
    (result : Outcome × FileLockState T) : Prop :=
  (result.1 = .acquired → KeyOk (hold :: holds) waiting result.2) ∧
    (result.1 ≠ .acquired → KeyOk holds (waiting + 1) result.2)

theorem KeyOk.holds_free {holds : List (Hold T)} {waiting : Nat} {f : FileLockState T}
    (h : KeyOk holds waiting f) (hheld : ¬ f.globalHeld = true) (htotal : ¬ 0 < f.totalEpochHolders) :
    holds = [] := by
  have hdepth : ¬ 0 < f.globalDepth := fun hd => hheld (h.flag.2 hd)
  rw [h.depth, List.countP_pos_iff] at hdepth
  rw [h.total, List.countP_pos_iff] at htotal
  rw [List.eq_nil_iff_forall_not_mem]
  intro a ha
  by_cases he : a.epoch = 0
  · exact hdepth ⟨a, ha, by simpa using he⟩
  · exact htotal ⟨a, ha, by simpa using he⟩

theorem globalLoop_ok {holds : List (Hold T)} {waiting : Nat} {f : FileLockState T}
    (h : KeyOk holds (waiting + 1) f) (t : T) (key : Int) :
    SectionOk holds waiting ⟨t, key, 0⟩ (globalLoop t f) := by
  rw [globalLoop]
  split
  · exact ⟨nofun, fun _ => h⟩
  · rename_i hfree
    rw [not_or] at hfree
    obtain rfl := h.holds_free hfree.1 hfree.2
    refine ⟨fun _ => ?_, fun hne => absurd rfl hne⟩
    -- nobody holds the lock, so its lists and counts are empty
    have hrefs := h.refs
    have htotal := h.total
    have hkeys := h.keys
    constructor
    · simp
    · simp
    · simp
    · exact h.ones
    · exact h.nodup
    · intro e
      rw [hkeys]
      constructor
      · rintro ⟨-, a, ha, -⟩
        cases ha
      · rintro ⟨hne, a, ha, rfl⟩
        obtain rfl := List.mem_singleton.1 ha
        exact absurd rfl hne
    · simpa using htotal
    · intro e hne
      have : ¬ (0 : Int) = e := fun h => hne h.symm
      simp [this]
    · simp only [List.length_cons, List.length_nil] at hrefs ⊢
      omega

theorem reenter_ok {holds : List (Hold T)} {waiting : Nat} {f : FileLockState T}
    (h : KeyOk holds (waiting + 1) f) {t : T} (key : Int) (hpos : 0 < f.globalDepth)
    (howner : f.globalOwner = some t) :
    KeyOk (⟨t, key, 0⟩ :: holds) waiting
      { f with globalDepth := f.globalDepth + 1, globalPending := false } := by
  have hrefs := h.refs
  have hdepth := h.depth
  have htotal := h.total
  constructor
  · simpa using hdepth
  · intro a ha he
    obtain rfl | ha := List.mem_cons.1 ha
    · exact howner
    · exact h.owner a ha he
  · exact iff_of_true (h.flag.2 hpos) (Nat.succ_pos _)
  · exact h.ones
  · exact h.nodup
  · intro e
    rw [h.keys]
    simp only [List.mem_cons, exists_eq_or_imp]
    constructor
    · rintro ⟨hne, a, ha, rfl⟩
      exact ⟨hne, .inr ⟨a, ha, rfl⟩⟩
    · rintro ⟨hne, rfl | ⟨a, ha, rfl⟩⟩
      · exact absurd rfl hne
      · exact ⟨hne, a, ha, rfl⟩
  · simpa using htotal
  · intro e hne
    have hne' : ¬ (0 : Int) = e := fun h => hne h.symm
    simpa [List.countP_cons, hne'] using h.once e hne
  · simp only [List.length_cons] at hrefs ⊢
    omega

theorem KeyOk.addEpoch {holds : List (Hold T)} {waiting : Nat} {f : FileLockState T}
    (h : KeyOk holds (waiting + 1) f) (t : T) (key : Int) {epoch : Int} (hepoch : epoch ≠ 0)
    (hno : epoch ∉ f.epochs.map Prod.fst) :
    KeyOk (⟨t, key, epoch⟩ :: holds) waiting { f with
      epochs := f.epochs ++ [(epoch, 1)]
      totalEpochHolders := f.totalEpochHolders + 1 } := by
  have hnone : ∀ a ∈ holds, a.epoch ≠ epoch :=
    fun a ha he => hno ((h.keys epoch).2 ⟨hepoch, a, ha, he⟩)
  have hrefs := h.refs
  have hdepth := h.depth
  have htotal := h.total
  constructor
  · simpa [List.countP_cons, hepoch] using hdepth
  · intro a ha he
    obtain rfl | ha := List.mem_cons.1 ha
    · exact absurd he hepoch
    · exact h.owner a ha he
  · exact h.flag
  · intro p hp
    obtain hp | hp := List.mem_append.1 hp
    · exact h.ones p hp
    · rw [List.mem_singleton.1 hp]
  · rw [List.map_append, List.map_singleton, List.nodup_append]
    refine ⟨h.nodup, by simp, ?_⟩
    intro e he e' he'
    rw [List.mem_singleton.1 he']
    rintro rfl
    exact hno he
  · intro e
    rw [List.map_append, List.map_singleton, List.mem_append, List.mem_singleton, h.keys]
    simp only [List.mem_cons, exists_eq_or_imp]
    constructor
    · rintro (⟨hne, hex⟩ | rfl)
      · exact ⟨hne, .inr hex⟩
      · exact ⟨hepoch, .inl rfl⟩
    · rintro ⟨hne, rfl | hex⟩
      · exact .inr rfl
      · exact .inl ⟨hne, hex⟩
  · simpa [List.countP_cons, hepoch] using htotal
  · intro e hne
    by_cases he : epoch = e
    · subst he
      have hzero : holds.countP (fun a => a.epoch == epoch) = 0 := by
        rw [List.countP_eq_zero]
        intro a ha
        simpa using hnone a ha
      simp [hzero]
    · simpa [List.countP_cons, he] using h.once e hne
  · simp only [List.length_cons] at hrefs ⊢
    omega

theorem secondLoop_ok {holds : List (Hold T)} {waiting : Nat} {f : FileLockState T}
    (h : KeyOk holds (waiting + 1) f) (t : T) (key : Int) {epoch : Int} (hepoch : epoch ≠ 0) :
    SectionOk holds waiting ⟨t, key, epoch⟩ (secondLoop epoch f) := by
  rw [secondLoop]
  split
  · exact ⟨nofun, fun _ => h⟩
  · rename_i hno
    rw [hasHolders_iff] at hno
    by_cases hfull : maxPerEpochHolders ≤ f.epochs.length
    · have hadd : perEpochAdd f epoch = none := by
        simp only [perEpochAdd, bumpEpoch_none hno, if_pos hfull]
      rw [hadd]
      exact ⟨nofun, fun _ => h⟩
    · have hadd : perEpochAdd f epoch = some { f with
          epochs := f.epochs ++ [(epoch, 1)]
          totalEpochHolders := f.totalEpochHolders + 1 } := by
        simp only [perEpochAdd, bumpEpoch_none hno, if_neg hfull]
      rw [hadd]
      exact ⟨fun _ => h.addEpoch t key hepoch hno, fun hne => absurd rfl hne⟩

theorem lockSection_ok [DecidableEq T] {holds : List (Hold T)} {waiting : Nat} {f : FileLockState T}
    (h : KeyOk holds (waiting + 1) f) (t : T) (key epoch : Int) (phase : Phase) :
    SectionOk holds waiting ⟨t, key, epoch⟩ (lockSection t epoch phase f) := by
  unfold lockSection
  split
  · rename_i hepoch
    subst hepoch
    split
    · split
      · rename_i hown
        exact ⟨fun _ => reenter_ok h key hown.1 hown.2, fun hne => absurd rfl hne⟩
      · exact globalLoop_ok (h.pending true) t key
    · exact globalLoop_ok h t key
  · rename_i hepoch
    split
    · exact secondLoop_ok h t key hepoch
    · split
      · exact ⟨nofun, fun _ => h⟩
      · exact secondLoop_ok h t key hepoch

section Unlock

variable [DecidableEq T] {holds : List (Hold T)} {waiting : Nat} {f : FileLockState T} {hold : Hold T}

theorem mem_erase_epoch {e : Int} (hne : hold.epoch ≠ e) :
    (∃ a ∈ holds.erase hold, a.epoch = e) ↔ ∃ a ∈ holds, a.epoch = e := by
  constructor
  · rintro ⟨a, ha, he⟩
    exact ⟨a, List.mem_of_mem_erase ha, he⟩
  · rintro ⟨a, ha, he⟩
    refine ⟨a, (List.mem_erase_of_ne ?_).2 ha, he⟩
    rintro rfl
    exact hne he

theorem KeyOk.erase (h : KeyOk holds waiting f) (hmem : hold ∈ holds) {f' : FileLockState T}
    (hrefs : f'.refcount = f.refcount - 1)
    (hdepth : f'.globalDepth = (holds.erase hold).countP (fun a => a.epoch == 0))
    (howner : f'.globalOwner = f.globalOwner ∨ f'.globalDepth = 0)
    (hflag : f'.globalHeld = true ↔ 0 < f'.globalDepth)
    (hones : ∀ p ∈ f'.epochs, p.2 = 1) (hnodup : (f'.epochs.map Prod.fst).Nodup)
    (hkeys : ∀ e, e ∈ f'.epochs.map Prod.fst ↔ e ≠ 0 ∧ ∃ a ∈ holds.erase hold, a.epoch = e)
    (htotal : f'.totalEpochHolders = (holds.erase hold).countP (fun a => a.epoch != 0)) :
    KeyOk (holds.erase hold) waiting f' := by
  refine ⟨hdepth, fun a ha he => ?_, hflag, hones, hnodup, hkeys, htotal, fun e hne => ?_, ?_⟩
  · obtain howner | hzero := howner
    · rw [howner]
      exact h.owner a (List.mem_of_mem_erase ha) he
    · rw [hdepth, List.countP_eq_zero] at hzero
      exact absurd (by simpa using he) (hzero a ha)
  · have hcount := countP_erase_add hmem (fun a => a.epoch == e)
    have honce := h.once e hne
    omega
  · have hlen := List.length_erase_of_mem hmem
    have hpos := List.length_pos_of_mem hmem
    have hle := h.refs
    omega

theorem unlockSection_ok (h : KeyOk holds waiting f) (hmem : hold ∈ holds) :
    ∃ f', unlockSection hold.thread hold.epoch f = some f' ∧ f'.refcount = f.refcount ∧
      KeyOk (holds.erase hold) waiting { f' with refcount := f'.refcount - 1 } := by
  have hzero := countP_erase_add hmem (fun a => a.epoch == 0)
  have hother := countP_erase_add hmem (fun a => a.epoch != 0)
  unfold unlockSection
  by_cases hepoch : hold.epoch = 0
  · rw [if_pos hepoch]
    simp only [hepoch, beq_self_eq_true, if_true] at hzero
    simp only [hepoch, bne_self_eq_false, Bool.false_eq_true, if_false, Nat.add_zero] at hother
    have hdepth := h.depth
    have howner := h.owner hold hmem hepoch
    have hkeys : ∀ e, e ∈ f.epochs.map Prod.fst ↔ e ≠ 0 ∧ ∃ a ∈ holds.erase hold, a.epoch = e := by
      intro e
      rw [h.keys]
      refine and_congr_right fun hne => (mem_erase_epoch ?_).symm
      rw [hepoch]
      exact Ne.symm hne
    rw [if_neg (by simp only [howner, ne_eq, not_true_eq_false, or_false]; omega)]
    split
    · rename_i hlast
      refine ⟨_, rfl, rfl, h.erase hmem rfl ?_ (.inr rfl) (by simp) h.ones h.nodup hkeys ?_⟩
      · dsimp only
        omega
      · exact h.total.trans hother
    · rename_i hmore
      refine ⟨_, rfl, rfl, h.erase hmem rfl ?_ (.inl rfl) ?_ h.ones h.nodup hkeys ?_⟩
      · dsimp only
        omega
      · exact iff_of_true (h.flag.2 (by omega)) (by dsimp only; omega)
      · exact h.total.trans hother
  · rw [if_neg hepoch]
    simp only [beq_iff_eq, hepoch, if_false, Nat.add_zero] at hzero
    simp only [bne_iff_ne, ne_eq, hepoch, not_false_eq_true, if_true] at hother
    have hin : hold.epoch ∈ f.epochs.map Prod.fst := (h.keys _).2 ⟨hepoch, hold, hmem, rfl⟩
    obtain ⟨rest, hdrop, hsub, hnodup, hkeys⟩ := dropEpoch_ones h.ones h.nodup hin
    have htotal := h.total
    refine ⟨{ f with epochs := rest, totalEpochHolders := f.totalEpochHolders - 1 }, ?_, rfl,
      h.erase hmem rfl (h.depth.trans hzero) (.inl rfl) h.flag (fun p hp => h.ones p (hsub p hp))
        hnodup ?_ ?_⟩
    · simp [perEpochRemove, hdrop]
    · intro e
      rw [hkeys, h.keys]
      by_cases he : hold.epoch = e
      · subst he
        refine iff_of_false (fun hc => hc.2 rfl) ?_
        rintro ⟨-, a, ha, hae⟩
        -- the hold was the only one at its epoch
        have honce := h.once hold.epoch hepoch
        have hcount := countP_erase_add hmem (fun b => b.epoch == hold.epoch)
        simp only [beq_self_eq_true, if_true] at hcount
        have hpos : 0 < (holds.erase hold).countP (fun b => b.epoch == hold.epoch) :=
          List.countP_pos_iff.2 ⟨a, ha, by simpa using hae⟩
        omega
      · rw [mem_erase_epoch he]
        exact ⟨fun hc => hc.1, fun hc => ⟨hc, Ne.symm he⟩⟩
    · dsimp only
      omega

end Unlock

/-! ## The invariant of the table -/

variable {s : System T}

def holdsOf (s : System T) (key : Int) : List (Hold T) := s.held.filter fun h => h.key == key

def waitingOf (s : System T) (key : Int) : Nat := s.requests.countP fun r => r.key == key

theorem mem_holdsOf {key : Int} {h : Hold T} : h ∈ holdsOf s key ↔ h ∈ s.held ∧ h.key = key := by
  simp [holdsOf]

structure Inv (s : System T) : Prop where
  entry : ∀ key f, s.table key = some f → KeyOk (holdsOf s key) (waitingOf s key) f
  absent : ∀ key, s.table key = none → holdsOf s key = [] ∧ waitingOf s key = 0

theorem Inv.update (h : Inv s) {s' : System T} {key : Int} {f : Option (FileLockState T)}
    (htable : s'.table = Function.update s.table key f)
    (hholds : ∀ k, k ≠ key → holdsOf s' k = holdsOf s k)
    (hwaiting : ∀ k, k ≠ key → waitingOf s' k = waitingOf s k)
    (hsome : ∀ f', f = some f' → KeyOk (holdsOf s' key) (waitingOf s' key) f')
    (hnone : f = none → holdsOf s' key = [] ∧ waitingOf s' key = 0) : Inv s' := by
  constructor
  · intro k f' hk
    rw [htable] at hk
    by_cases hkey : k = key
    · subst hkey
      rw [Function.update_self] at hk
      exact hsome f' hk
    · rw [Function.update_of_ne hkey] at hk
      rw [hholds k hkey, hwaiting k hkey]
      exact h.entry k f' hk
  · intro k hk
    rw [htable] at hk
    by_cases hkey : k = key
    · subst hkey
      rw [Function.update_self] at hk
      exact hnone hk
    · rw [Function.update_of_ne hkey] at hk
      rw [hholds k hkey, hwaiting k hkey]
      exact h.absent k hk

theorem Inv.enter [DecidableEq T] (h : Inv s) (t : T) (key epoch : Int) : Inv (step s (.enter t key epoch)) := by
  have hwait : waitingOf (step s (.enter t key epoch)) key = waitingOf s key + 1 := by
    simp [step, waitingOf]
  refine h.update rfl (fun _ _ => rfl) (fun k hk => ?_) ?_ nofun
  · simp [step, waitingOf, Ne.symm hk]
  · rintro f' ⟨⟩
    rw [hwait]
    show KeyOk (holdsOf s key) (waitingOf s key + 1) (findOrCreate (s.table key))
    cases htable : s.table key with
    | none =>
      obtain ⟨hholds, hzero⟩ := h.absent key htable
      rw [hholds, hzero]
      exact KeyOk.new
    | some f => exact (h.entry key f htable).enter

theorem Inv.table_some (h : Inv s) {r : Request T} (hr : r ∈ s.requests) :
    ∃ f, s.table r.key = some f := by
  cases htable : s.table r.key with
  | some f => exact ⟨f, rfl⟩
  | none =>
    have hzero := (h.absent r.key htable).2
    rw [waitingOf, List.countP_eq_zero] at hzero
    exact absurd (by simp) (hzero r hr)

theorem waitingOf_erase [DecidableEq T] {r : Request T} (hr : r ∈ s.requests) (key : Int) :
    waitingOf s key = (s.requests.erase r).countP (fun q => q.key == key) +
      if r.key = key then 1 else 0 := by
  rw [waitingOf, countP_erase_add hr]
  simp

theorem holdsOf_cons {s' : System T} {hold : Hold T} (hheld : s'.held = hold :: s.held) (key : Int) :
    holdsOf s' key = if hold.key = key then hold :: holdsOf s key else holdsOf s key := by
  simp only [holdsOf, hheld, List.filter_cons, beq_iff_eq]

theorem Inv.resume [DecidableEq T] (h : Inv s) {r : Request T} (hr : r ∈ s.requests) : Inv (step s (.resume r)) := by
  obtain ⟨f, htable⟩ := h.table_some hr
  have hkey := h.entry r.key f htable
  have hwait := waitingOf_erase hr r.key
  rw [if_pos rfl] at hwait
  rw [hwait] at hkey
  obtain ⟨hacq, hnot⟩ := lockSection_ok hkey r.thread r.key r.epoch r.phase
  have hother : ∀ k, k ≠ r.key → waitingOf s k = (s.requests.erase r).countP (fun q => q.key == k) := by
    intro k hk
    rw [waitingOf_erase hr k, if_neg (Ne.symm hk), Nat.add_zero]
  show Inv (resumeRequest s r)
  simp only [resumeRequest, htable]
  cases hres : (lockSection r.thread r.epoch r.phase f).1 with
  | acquired =>
    refine h.update rfl (fun k hk => ?_) (fun k hk => (hother k hk).symm) ?_ nofun
    · rw [holdsOf_cons rfl, if_neg (Ne.symm hk)]
    · rintro f' ⟨⟩
      rw [holdsOf_cons rfl, if_pos rfl]
      exact hacq hres
  | waits phase =>
    refine h.update rfl (fun _ _ => rfl) (fun k hk => ?_) ?_ nofun
    · rw [hother k hk]
      simp [waitingOf, Ne.symm hk]
    · rintro f' ⟨⟩
      have hcount : waitingOf (⟨Function.update s.table r.key
            (some (lockSection r.thread r.epoch r.phase f).2),
          { r with phase := phase } :: s.requests.erase r, s.held⟩ : System T) r.key =
          (s.requests.erase r).countP (fun q => q.key == r.key) + 1 := by
        simp [waitingOf]
      rw [hcount]
      exact hnot (by simp [hres])
  | overflow =>
    refine h.update rfl (fun _ _ => rfl) (fun k hk => (hother k hk).symm) ?_ nofun
    rintro f' ⟨⟩
    exact (hnot (by simp [hres])).fewer (Nat.le_succ _)

theorem Inv.unlock [DecidableEq T] (h : Inv s) {hold : Hold T} (hmem : hold ∈ s.held) :
    Inv (step s (.unlock hold.thread hold.key hold.epoch)) := by
  have hin : hold ∈ holdsOf s hold.key := mem_holdsOf.2 ⟨hmem, rfl⟩
  cases htable : s.table hold.key with
  | none =>
    rw [(h.absent hold.key htable).1] at hin
    cases hin
  | some f =>
    obtain ⟨f', hunlock, -, hok⟩ := unlockSection_ok (h.entry hold.key f htable) hin
    have hstep : step s (.unlock hold.thread hold.key hold.epoch) =
        { s with
          table := Function.update s.table hold.key (releaseRef f')
          held := s.held.erase hold } := by
      simp only [step, htable, Option.bind_some, hunlock]
    have hholds : holdsOf (step s (.unlock hold.thread hold.key hold.epoch)) hold.key =
        (holdsOf s hold.key).erase hold := by
      rw [hstep]
      exact List.erase_filter.symm
    rw [hstep] at hholds ⊢
    refine h.update rfl (fun k hk => ?_) (fun _ _ => rfl) ?_ ?_
    · exact List.erase_filter.symm.trans (List.erase_of_not_mem (by simp [Ne.symm hk]))
    · intro f'' hf''
      rw [releaseRef] at hf''
      split at hf''
      · cases hf''
      · cases hf''
        rw [hholds]
        exact hok
    · intro hf''
      rw [releaseRef] at hf''
      split at hf''
      · rename_i hzero
        -- the last reference: nobody holds the key or waits for it
        have hrefs := hok.refs
        dsimp only at hrefs
        rw [hholds]
        exact ⟨List.eq_nil_of_length_eq_zero (by omega), by simp only [waitingOf] at hrefs ⊢; omega⟩
      · cases hf''

theorem unlock_held [DecidableEq T] (h : Inv s) {hold : Hold T} (hmem : hold ∈ s.held) :
    (step s (.unlock hold.thread hold.key hold.epoch)).requests = s.requests ∧
      (step s (.unlock hold.thread hold.key hold.epoch)).held = s.held.erase hold := by
  have hin : hold ∈ holdsOf s hold.key := mem_holdsOf.2 ⟨hmem, rfl⟩
  cases htable : s.table hold.key with
  | none =>
    rw [(h.absent hold.key htable).1] at hin
    cases hin
  | some f =>
    obtain ⟨f', hunlock, -⟩ := unlockSection_ok (h.entry hold.key f htable) hin
    simp [step, htable, hunlock]

theorem Inv.step [DecidableEq T] (h : Inv s) {ev : Event T} (hev : Enabled s ev) : Inv (Lock.step s ev) := by
  cases ev with
  | enter t key epoch => exact h.enter t key epoch
  | resume r => exact h.resume hev
  | unlock t key epoch => exact h.unlock hev.2

theorem Inv.init : Inv (System.init : System T) := by
  refine ⟨?_, fun _ _ => ⟨rfl, rfl⟩⟩
  intro key f h
  cases h

theorem Inv.epochExclusive [DecidableEq T] (h : Inv s) : EpochExclusive s := by
  intro key epoch t u hne ht hu
  by_contra htu
  have ht' : (⟨t, key, epoch⟩ : Hold T) ∈ holdsOf s key := mem_holdsOf.2 ⟨ht, rfl⟩
  have hu' : (⟨u, key, epoch⟩ : Hold T) ∈ holdsOf s key := mem_holdsOf.2 ⟨hu, rfl⟩
  cases htable : s.table key with
  | none =>
    rw [(h.absent key htable).1] at ht'
    cases ht'
  | some f =>
    have honce := (h.entry key f htable).once epoch hne
    have hcount := countP_erase_add ht' (fun a => a.epoch == epoch)
    simp only [beq_self_eq_true, if_true] at hcount
    have hrest : (⟨u, key, epoch⟩ : Hold T) ∈ (holdsOf s key).erase ⟨t, key, epoch⟩ := by
      refine (List.mem_erase_of_ne ?_).2 hu'
      intro heq
      exact htu (congrArg Hold.thread heq).symm
    have hpos : 0 < ((holdsOf s key).erase ⟨t, key, epoch⟩).countP (fun a => a.epoch == epoch) :=
      List.countP_pos_iff.2 ⟨_, hrest, by simp⟩
    omega

/-! ## The global lock -/

inductive SectionCase (t : T) (epoch : Int) (phase : Phase) (f : FileLockState T) :
    Outcome × FileLockState T → Prop
  | reenter (f' : FileLockState T) (hepoch : epoch = 0) (hpos : 0 < f.globalDepth)
      (hheld : f'.globalHeld = f.globalHeld) : SectionCase t epoch phase f (.acquired, f')
  | globalWait (f' : FileLockState T) (hepoch : epoch = 0) (hheld : f'.globalHeld = f.globalHeld) :
      SectionCase t epoch phase f (.waits .waitGlobal, f')
  | global (f' : FileLockState T) (hepoch : epoch = 0) (hfree : ¬ f.globalHeld = true)
      (hdrained : ¬ 0 < f.totalEpochHolders) : SectionCase t epoch phase f (.acquired, f')
  | first (hepoch : epoch ≠ 0) : SectionCase t epoch phase f (.waits .waitFirst, f)
  | second (outcome : Outcome) (f' : FileLockState T) (hepoch : epoch ≠ 0)
      (hheld : f'.globalHeld = f.globalHeld)
      (hpassed : phase = .waitSecond ∨ ¬ f.globalHeld = true) :
      SectionCase t epoch phase f (outcome, f')

theorem globalLoop_case (t : T) (phase : Phase) {f g : FileLockState T}
    (hheld : g.globalHeld = f.globalHeld) (htotal : g.totalEpochHolders = f.totalEpochHolders) :
    SectionCase t 0 phase f (globalLoop t g) := by
  unfold globalLoop
  split
  · exact .globalWait _ rfl hheld
  · rename_i hfree
    rw [not_or, hheld, htotal] at hfree
    exact .global _ rfl hfree.1 hfree.2

theorem perEpochAdd_held {f f' : FileLockState T} {epoch : Int} (h : perEpochAdd f epoch = some f') :
    f'.globalHeld = f.globalHeld := by
  unfold perEpochAdd at h
  split at h
  · cases h
    rfl
  · split at h
    · cases h
    · cases h
      rfl

theorem secondLoop_held {f : FileLockState T} (epoch : Int) :
    (secondLoop epoch f).2.globalHeld = f.globalHeld := by
  unfold secondLoop
  split
  · rfl
  · split
    · rename_i f' hadd
      exact perEpochAdd_held hadd
    · rfl

theorem lockSection_case [DecidableEq T] (t : T) (epoch : Int) (phase : Phase) (f : FileLockState T) :
    SectionCase t epoch phase f (lockSection t epoch phase f) := by
  unfold lockSection
  split
  · rename_i hepoch
    subst hepoch
    split
    · split
      · rename_i hown
        exact .reenter _ rfl hown.1 rfl
      · exact globalLoop_case t _ rfl rfl
    · exact globalLoop_case t _ rfl rfl
  · rename_i hepoch
    split
    · exact .second _ _ hepoch (secondLoop_held epoch) (.inl rfl)
    · split
      · exact .first hepoch
      · rename_i hfree
        rw [not_or] at hfree
        exact .second _ _ hepoch (secondLoop_held epoch) (.inr hfree.1)

/-- While a key is held globally, nobody holds it per epoch and nobody is past the first wait. -/
structure GlobalInv (s : System T) : Prop where
  holds : ∀ key f, s.table key = some f → f.globalHeld = true →
    ∀ h ∈ s.held, h.key = key → h.epoch = 0
  waits : ∀ key f, s.table key = some f → f.globalHeld = true →
    ∀ r ∈ s.requests, r.key = key → r.phase ≠ .waitSecond

theorem GlobalInv.update (h : GlobalInv s) {s' : System T} {key : Int} {f : FileLockState T}
    (htable : s'.table = Function.update s.table key (some f))
    (hheld : ∀ a ∈ s'.held, a.key ≠ key → a ∈ s.held)
    (hreq : ∀ r ∈ s'.requests, r.key ≠ key → r ∈ s.requests)
    (hholds : f.globalHeld = true → ∀ a ∈ s'.held, a.key = key → a.epoch = 0)
    (hwaits : f.globalHeld = true → ∀ r ∈ s'.requests, r.key = key → r.phase ≠ .waitSecond) :
    GlobalInv s' := by
  constructor
  · intro k g hk hg a ha hak
    rw [htable] at hk
    by_cases hkey : k = key
    · subst hkey
      rw [Function.update_self] at hk
      cases hk
      exact hholds hg a ha hak
    · rw [Function.update_of_ne hkey] at hk
      exact h.holds k g hk hg a (hheld a ha (by rw [hak]; exact hkey)) hak
  · intro k g hk hg r hr hrk
    rw [htable] at hk
    by_cases hkey : k = key
    · subst hkey
      rw [Function.update_self] at hk
      cases hk
      exact hwaits hg r hr hrk
    · rw [Function.update_of_ne hkey] at hk
      exact h.waits k g hk hg r (hreq r hr (by rw [hrk]; exact hkey)) hrk

theorem GlobalInv.enter [DecidableEq T] (h : GlobalInv s) (t : T) (key epoch : Int) :
    GlobalInv (step s (.enter t key epoch)) := by
  have hold : (findOrCreate (s.table key)).globalHeld = true →
      ∃ f, s.table key = some f ∧ f.globalHeld = true := by
    intro hg
    cases htable : s.table key with
    | none => simp [htable, findOrCreate, FileLockState.new] at hg
    | some f =>
      rw [htable] at hg
      exact ⟨f, rfl, hg⟩
  refine h.update rfl (fun a ha _ => ha) (fun r hr hne => ?_) (fun hg a ha hak => ?_) ?_
  · obtain rfl | hr := List.mem_cons.1 hr
    · exact absurd rfl hne
    · exact hr
  · obtain ⟨f, hf, hg⟩ := hold hg
    exact h.holds key f hf hg a ha hak
  · intro hg r hr hrk
    obtain ⟨f, hf, hg⟩ := hold hg
    obtain rfl | hr := List.mem_cons.1 hr
    · nofun
    · exact h.waits key f hf hg r hr hrk

/-- The system after a section: the lock's new state, a hold if it was acquired, and the request in
its new phase if it waits. -/
structure Resumed (s : System T) (r : Request T) (result : Outcome × FileLockState T)
    (s' : System T) : Prop where
  table : s'.table = Function.update s.table r.key (some result.2)
  held : ∀ a ∈ s'.held, a ∈ s.held ∨ result.1 = .acquired ∧ a = ⟨r.thread, r.key, r.epoch⟩
  requests : ∀ q ∈ s'.requests, q ∈ s.requests ∨
    ∃ phase, result.1 = .waits phase ∧ q = { r with phase := phase }

theorem resumeRequest_spec [DecidableEq T] {r : Request T} {f : FileLockState T}
    (htable : s.table r.key = some f) :
    Resumed s r (lockSection r.thread r.epoch r.phase f) (resumeRequest s r) := by
  simp only [resumeRequest, htable]
  cases hres : (lockSection r.thread r.epoch r.phase f).1 with
  | acquired =>
    refine ⟨rfl, fun a ha => ?_, fun q hq => .inl (List.mem_of_mem_erase hq)⟩
    obtain rfl | ha := List.mem_cons.1 ha
    · exact .inr ⟨hres, rfl⟩
    · exact .inl ha
  | waits phase =>
    refine ⟨rfl, fun a ha => .inl ha, fun q hq => ?_⟩
    obtain rfl | hq := List.mem_cons.1 hq
    · exact .inr ⟨phase, hres, rfl⟩
    · exact .inl (List.mem_of_mem_erase hq)
  | overflow => exact ⟨rfl, fun a ha => .inl ha, fun q hq => .inl (List.mem_of_mem_erase hq)⟩

theorem GlobalInv.resume [DecidableEq T] (h : GlobalInv s) (hinv : Inv s) {r : Request T}
    (hr : r ∈ s.requests)
    (hcond : r.epoch = 0 → ∀ q ∈ s.requests, q.key = r.key → q.phase ≠ .waitSecond) :
    GlobalInv (step s (.resume r)) := by
  obtain ⟨f, htable⟩ := hinv.table_some hr
  have hholds := h.holds r.key f htable
  have hwaits := h.waits r.key f htable
  have hkey := hinv.entry r.key f htable
  have hspec := resumeRequest_spec htable
  have hcase := lockSection_case r.thread r.epoch r.phase f
  show GlobalInv (resumeRequest s r)
  generalize lockSection r.thread r.epoch r.phase f = result at hspec hcase
  refine h.update hspec.table (fun a ha hne => ?_) (fun q hq hne => ?_) (fun hg a ha hak => ?_)
    (fun hg q hq hqk => ?_)
  · obtain ha | ⟨-, rfl⟩ := hspec.held a ha
    · exact ha
    · exact absurd rfl hne
  · obtain hq | ⟨phase, -, rfl⟩ := hspec.requests q hq
    · exact hq
    · exact absurd rfl hne
  · -- the holds of the key
    cases hcase with
    | reenter f' hepoch hpos hheld =>
      obtain ha | ⟨-, rfl⟩ := hspec.held a ha
      · exact hholds (hkey.flag.2 hpos) a ha hak
      · exact hepoch
    | globalWait f' hepoch hheld =>
      obtain ha | ⟨hacq, -⟩ := hspec.held a ha
      · exact hholds (hheld ▸ hg) a ha hak
      · cases hacq
    | global f' hepoch hfree hdrained =>
      obtain ha | ⟨-, rfl⟩ := hspec.held a ha
      · have hnil := hkey.holds_free hfree hdrained
        have hin : a ∈ holdsOf s r.key := mem_holdsOf.2 ⟨ha, hak⟩
        rw [hnil] at hin
        cases hin
      · exact hepoch
    | first hepoch =>
      obtain ha | ⟨hacq, -⟩ := hspec.held a ha
      · exact hholds hg a ha hak
      · cases hacq
    | second outcome f' hepoch hheld hpassed =>
      have hg' : f.globalHeld = true := hheld ▸ hg
      obtain hsecond | hfree := hpassed
      · exact absurd hsecond (hwaits hg' r hr rfl)
      · exact absurd hg' hfree
  · -- the requests of the key
    cases hcase with
    | reenter f' hepoch hpos hheld =>
      obtain hq | ⟨phase, hwait, -⟩ := hspec.requests q hq
      · exact hwaits (hkey.flag.2 hpos) q hq hqk
      · cases hwait
    | globalWait f' hepoch hheld =>
      obtain hq | ⟨phase, hwait, rfl⟩ := hspec.requests q hq
      · exact hwaits (hheld ▸ hg) q hq hqk
      · cases hwait
        nofun
    | global f' hepoch hfree hdrained =>
      obtain hq | ⟨phase, hwait, -⟩ := hspec.requests q hq
      · exact hcond hepoch q hq hqk
      · cases hwait
    | first hepoch =>
      obtain hq | ⟨phase, hwait, rfl⟩ := hspec.requests q hq
      · exact hwaits hg q hq hqk
      · cases hwait
        nofun
    | second outcome f' hepoch hheld hpassed =>
      have hg' : f.globalHeld = true := hheld ▸ hg
      obtain hsecond | hfree := hpassed
      · exact absurd hsecond (hwaits hg' r hr rfl)
      · exact absurd hg' hfree

theorem unlockSection_held [DecidableEq T] {t : T} {epoch : Int} {f f' : FileLockState T}
    (h : unlockSection t epoch f = some f') (hheld : f'.globalHeld = true) : f.globalHeld = true := by
  unfold unlockSection at h
  split at h
  · split at h
    · cases h
    · split at h
      · cases h
        cases hheld
      · cases h
        exact hheld
  · obtain ⟨epochs, -, rfl⟩ := Option.map_eq_some_iff.1 h
    exact hheld

theorem GlobalInv.unlock [DecidableEq T] (h : GlobalInv s) (t : T) (key epoch : Int) :
    GlobalInv (step s (.unlock t key epoch)) := by
  simp only [step]
  split
  · exact h
  · rename_i f' hbind
    obtain ⟨f, htable, hunlock⟩ := Option.bind_eq_some_iff.1 hbind
    -- an entry of the new table with the flag set had it set before
    have hbefore : ∀ k g, Function.update s.table key (releaseRef f') k = some g →
        g.globalHeld = true → ∃ g₀, s.table k = some g₀ ∧ g₀.globalHeld = true := by
      intro k g hk hg
      by_cases hkey : k = key
      · subst hkey
        rw [Function.update_self, releaseRef] at hk
        split at hk
        · cases hk
        · cases hk
          exact ⟨f, htable, unlockSection_held hunlock hg⟩
      · rw [Function.update_of_ne hkey] at hk
        exact ⟨g, hk, hg⟩
    constructor
    · intro k g hk hg a ha hak
      obtain ⟨g₀, hk₀, hg₀⟩ := hbefore k g hk hg
      exact h.holds k g₀ hk₀ hg₀ a (List.mem_of_mem_erase ha) hak
    · intro k g hk hg r hr hrk
      obtain ⟨g₀, hk₀, hg₀⟩ := hbefore k g hk hg
      exact h.waits k g₀ hk₀ hg₀ r hr hrk

theorem GlobalInv.step [DecidableEq T] (h : GlobalInv s) (hinv : Inv s) {ev : Event T}
    (hev : Enabled s ev) (hcond : NoneWaitsSecond s ev) : GlobalInv (Lock.step s ev) := by
  cases ev with
  | enter t key epoch => exact h.enter t key epoch
  | resume r => exact h.resume hinv hev hcond
  | unlock t key epoch => exact h.unlock t key epoch

theorem Inv.globalExclusive (h : Inv s) (hglobal : GlobalInv s) : GlobalExclusive s := by
  intro key epoch t u ht hu
  have ht' : (⟨t, key, 0⟩ : Hold T) ∈ holdsOf s key := mem_holdsOf.2 ⟨ht, rfl⟩
  cases htable : s.table key with
  | none =>
    rw [(h.absent key htable).1] at ht'
    cases ht'
  | some f =>
    have hkey := h.entry key f htable
    have hpos : 0 < f.globalDepth := by
      rw [hkey.depth]
      exact List.countP_pos_iff.2 ⟨_, ht', by simp⟩
    have hzero := hglobal.holds key f htable (hkey.flag.2 hpos) _ hu rfl
    have hu' : (⟨u, key, epoch⟩ : Hold T) ∈ holdsOf s key := mem_holdsOf.2 ⟨hu, rfl⟩
    have hown : some t = some u :=
      (hkey.owner _ ht' rfl).symm.trans (hkey.owner _ hu' hzero)
    exact Option.some.inj hown

/-- **Mutual exclusion.** For any number of threads and any interleaving in which threads unlock only
what they hold, at most one thread holds a key at an epoch. If moreover no section of a global request
runs while another request on its key is in the second wait, then a thread that holds a key globally
is the only one that holds it. -/
theorem lock_exclusion [DecidableEq T] (evs : List (Event T))
    (hevs : Run.AllSteps step Enabled System.init evs) :
    EpochExclusive (evs.foldl step System.init) ∧
      (Run.AllSteps step NoneWaitsSecond System.init evs →
        GlobalExclusive (evs.foldl step System.init)) := by
  have hinv := Run.invariant Inv (fun s ev h hev => Inv.step h hev) Inv.init hevs
  refine ⟨hinv.epochExclusive, fun hcond => hinv.globalExclusive ?_⟩
  have hboth : Run.AllSteps step (fun s ev => Enabled s ev ∧ NoneWaitsSecond s ev)
      (System.init : System T) evs := Run.AllSteps.and hevs hcond
  refine (Run.invariant (fun s => Inv s ∧ GlobalInv s) ?_ ⟨Inv.init, ?_⟩ hboth).2
  · rintro s ev ⟨hinv, hglobal⟩ ⟨hev, hcond⟩
    exact ⟨hinv.step hev, hglobal.step hinv hev hcond⟩
  · constructor
    · intro key f h
      cases h
    · intro key f h
      cases h

/-- Thread `1` holds key `7` at epoch `5` while thread `2` asks for it globally; the global lock is
granted after the unlock. -/
theorem lock_exclusion_drains :
    let evs : List (Event Nat) := [.enter 1 7 5, .resume ⟨1, 7, 5, .start⟩, .enter 2 7 0,
      .resume ⟨2, 7, 0, .start⟩, .unlock 1 7 5, .resume ⟨2, 7, 0, .waitGlobal⟩]
    (evs.foldl step System.init).held = [⟨2, 7, 0⟩] ∧
      EpochExclusive (evs.foldl step System.init) ∧ GlobalExclusive (evs.foldl step System.init) := by
  intro evs
  have h := lock_exclusion evs (by decide +kernel)
  exact ⟨by decide +kernel, h.1, h.2 (by decide +kernel)⟩

/-- Thread `1` holds key `7` at epoch `5`, thread `2` waits for it at the same epoch, and thread `3`
asks for the global lock. After the unlock thread `3` is the first to run and gets the global lock;
thread `2`, woken in its second wait, looks at the epoch only and gets the lock as well. -/
theorem second_wait_passes_global_lock :
    let evs : List (Event Nat) := [.enter 1 7 5, .resume ⟨1, 7, 5, .start⟩, .enter 2 7 5,
      .resume ⟨2, 7, 5, .start⟩, .enter 3 7 0, .resume ⟨3, 7, 0, .start⟩, .unlock 1 7 5,
      .resume ⟨3, 7, 0, .waitGlobal⟩, .resume ⟨2, 7, 5, .waitSecond⟩]
    Run.AllSteps step Enabled System.init evs ∧ ⟨3, 7, 0⟩ ∈ (evs.foldl step System.init).held ∧
      ⟨2, 7, 5⟩ ∈ (evs.foldl step System.init).held := by
  intro evs
  exact ⟨by decide +kernel, by decide +kernel, by decide +kernel⟩

end Lock
end SphereVFS
