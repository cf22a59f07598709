import SphereVFS.LockSafety
import Mathlib.Algebra.Order.BigOperators.Group.List

/-!
# SphereVFS.LockAccounting

The references of the lock table. A call of `vfs_lock` takes a reference to the entry of its key and
keeps it as long as it is inside; with `VFS_OK` the reference passes on to the acquisition, and
`vfs_unlock` gives it back. A call that is refused because 64 distinct epochs hold the key returns
without giving its reference back.

The ledger counts calls along a run: what was acquired, released and refused for each key. Threads may
unlock what they like; the steps are those of `Lock.step`.
-/

namespace SphereVFS
namespace Lock

variable {T : Type}

/-! ## What a section does -/

/-- The ways a section of `vfs_lock` can go. -/
inductive SectionStep (t : T) (epoch : Int) (phase : Phase) (f : FileLockState T) :
    Outcome × FileLockState T → Prop
  | reenter (hepoch : epoch = 0) (hpos : 0 < f.globalDepth) :
      SectionStep t epoch phase f
        (.acquired, { f with globalDepth := f.globalDepth + 1, globalPending := false })
  | globalWait (pending : Bool) (hepoch : epoch = 0)
      (hbusy : f.globalHeld = true ∨ 0 < f.totalEpochHolders)
      (hpending : f.globalPending = true → pending = true) :
      SectionStep t epoch phase f (.waits .waitGlobal, { f with globalPending := pending })
  | global (hepoch : epoch = 0) (hfree : f.globalHeld = false) (hdrained : f.totalEpochHolders = 0) :
      SectionStep t epoch phase f (.acquired, { f with
        globalOwner := some t
        globalDepth := 1
        globalHeld := true
        globalPending := false })
  | first (hepoch : epoch ≠ 0) (hphase : phase ≠ .waitSecond)
      (hbusy : f.globalHeld = true ∨ f.globalPending = true) :
      SectionStep t epoch phase f (.waits .waitFirst, f)
  | second (hepoch : epoch ≠ 0) (hholders : perEpochHasHolders f epoch = true) :
      SectionStep t epoch phase f (.waits .waitSecond, f)
  | epoch (hepoch : epoch ≠ 0) (hfree : perEpochHasHolders f epoch = false)
      (hroom : f.epochs.length < maxPerEpochHolders) :
      SectionStep t epoch phase f (.acquired, { f with
        epochs := f.epochs ++ [(epoch, 1)]
        totalEpochHolders := f.totalEpochHolders + 1 })
  | overflow (hepoch : epoch ≠ 0) (hfree : perEpochHasHolders f epoch = false)
      (hfull : maxPerEpochHolders ≤ f.epochs.length)
      (hpassed : phase = .waitSecond ∨ ¬ (f.globalHeld = true ∨ f.globalPending = true)) :
      SectionStep t epoch phase f (.overflow, f)

theorem globalLoop_step (t : T) (phase : Phase) (f : FileLockState T) (pending : Bool)
    (hpending : f.globalPending = true → pending = true) :
    SectionStep t 0 phase f (globalLoop t { f with globalPending := pending }) := by
  rw [globalLoop]
  split
  · rename_i hbusy
    exact .globalWait pending rfl hbusy hpending
  · rename_i hfree
    rw [not_or, Bool.not_eq_true, Nat.not_lt, Nat.le_zero] at hfree
    exact .global rfl hfree.1 hfree.2

theorem secondLoop_step (t : T) {epoch : Int} {phase : Phase} {f : FileLockState T} (hepoch : epoch ≠ 0)
    (hpassed : phase = .waitSecond ∨ ¬ (f.globalHeld = true ∨ f.globalPending = true)) :
    SectionStep t epoch phase f (secondLoop epoch f) := by
  rw [secondLoop]
  split
  · rename_i hholders
    exact .second hepoch hholders
  · rename_i hfree
    have hnone : bumpEpoch epoch f.epochs = none := bumpEpoch_none (hfree ∘ hasHolders_iff.2)
    rw [Bool.not_eq_true] at hfree
    rw [perEpochAdd, hnone]
    by_cases hfull : maxPerEpochHolders ≤ f.epochs.length
    · simp only [if_pos hfull]
      exact .overflow hepoch hfree hfull hpassed
    · simp only [if_neg hfull]
      exact .epoch hepoch hfree (Nat.lt_of_not_le hfull)

theorem lockSection_step [DecidableEq T] (t : T) (epoch : Int) (phase : Phase) (f : FileLockState T) :
    SectionStep t epoch phase f (lockSection t epoch phase f) := by
  unfold lockSection
  split
  · rename_i hepoch
    subst hepoch
    split
    · split
      · rename_i hown
        exact .reenter rfl hown.1
      · exact globalLoop_step t _ f true fun _ => rfl
    · exact globalLoop_step t _ f f.globalPending id
  · rename_i hepoch
    split
    · exact secondLoop_step t hepoch (.inl rfl)
    · rename_i hphase
      split
      · rename_i hbusy
        exact .first hepoch hphase hbusy
      · rename_i hfree
        exact secondLoop_step t hepoch (.inr hfree)

/-- The ways the section of `vfs_unlock` can go when it succeeds. -/
inductive UnlockStep (epoch : Int) (f : FileLockState T) : FileLockState T → Prop
  | last (hepoch : epoch = 0) (hdepth : f.globalDepth = 1) :
      UnlockStep epoch f { f with globalDepth := 0, globalOwner := none, globalHeld := false }
  | inner (hepoch : epoch = 0) (hdepth : 1 < f.globalDepth) :
      UnlockStep epoch f { f with globalDepth := f.globalDepth - 1 }
  | epoch (epochs : List (Int × Nat)) (hepoch : epoch ≠ 0) (hdrop : dropEpoch epoch f.epochs = some epochs) :
      UnlockStep epoch f { f with epochs := epochs, totalEpochHolders := f.totalEpochHolders - 1 }

theorem unlockSection_step [DecidableEq T] {t : T} {epoch : Int} {f f' : FileLockState T}
    (h : unlockSection t epoch f = some f') : UnlockStep epoch f f' := by
  rw [unlockSection] at h
  split at h
  · rename_i hepoch
    split at h
    · cases h
    rename_i hown
    rw [not_or] at hown
    split at h
    · rename_i hzero
      cases h
      exact .last hepoch (by omega)
    · rename_i hmore
      cases h
      exact .inner hepoch (by omega)
  · rename_i hepoch
    obtain ⟨epochs, hdrop, rfl⟩ := Option.map_eq_some_iff.1 h
    exact .epoch epochs hepoch hdrop

/-! ## The ledger -/

variable [DecidableEq T]

structure Ledger (T : Type) where
  sys : System T
  /-- Calls of `vfs_lock` that returned `VFS_OK`, by key. -/
  acquired : Int → Nat
  /-- Calls of `vfs_unlock` that returned `VFS_OK`. -/
  released : Int → Nat
  /-- Calls of `vfs_lock` that returned `VFS_ERR_NOMEM`. -/
  refused : Int → Nat

def Ledger.init : Ledger T := ⟨System.init, fun _ => 0, fun _ => 0, fun _ => 0⟩

/-- One more for the key. -/
def tally (count : Int → Nat) (key : Int) : Int → Nat := Function.update count key (count key + 1)

def outcomeOf (s : System T) (r : Request T) : Option Outcome :=
  (s.table r.key).map fun f => (lockSection r.thread r.epoch r.phase f).1

def Ledger.step (l : Ledger T) (ev : Event T) : Ledger T :=
  let sys := Lock.step l.sys ev
  match ev with
  | .enter _ _ _ => { l with sys := sys }
  | .resume r =>
    match outcomeOf l.sys r with
    | some .acquired => { l with sys := sys, acquired := tally l.acquired r.key }
    | some .overflow => { l with sys := sys, refused := tally l.refused r.key }
    | _ => { l with sys := sys }
  | .unlock t key epoch =>
    if ((l.sys.table key).bind (unlockSection t epoch)).isSome then
      { l with sys := sys, released := tally l.released key }
    else { l with sys := sys }

def Ledger.unreleased (l : Ledger T) (key : Int) : Nat := l.acquired key - l.released key

/-- Only a call that is inside `vfs_lock` goes on. -/
def InProgress (l : Ledger T) : Event T → Prop
  | .resume r => r ∈ l.sys.requests
  | _ => True

instance InProgress.decidable (l : Ledger T) : (ev : Event T) → Decidable (InProgress l ev)
  | .enter _ _ _ => isTrue trivial
  | .resume r => inferInstanceAs (Decidable (r ∈ l.sys.requests))
  | .unlock _ _ _ => isTrue trivial

/-! ## One key -/

structure KeyCounts (acquired released refused waiting : Nat) (f : FileLockState T) : Prop where
  flag : f.globalHeld = true ↔ 0 < f.globalDepth
  pos : ∀ p ∈ f.epochs, 0 < p.2
  total : f.totalEpochHolders = (f.epochs.map Prod.snd).sum
  holds : acquired = released + (f.globalDepth + f.totalEpochHolders)
  refs : f.refcount = f.globalDepth + f.totalEpochHolders + waiting + refused
  live : 0 < f.refcount

def EntryCounts (acquired released refused waiting : Nat) : Option (FileLockState T) → Prop
  | some f => KeyCounts acquired released refused waiting f
  | none => acquired = released ∧ refused = 0 ∧ waiting = 0

theorem dropEpoch_sum {epoch : Int} {epochs epochs' : List (Int × Nat)} (hpos : ∀ p ∈ epochs, 0 < p.2)
    (h : dropEpoch epoch epochs = some epochs') :
    (epochs.map Prod.snd).sum = (epochs'.map Prod.snd).sum + 1 ∧ ∀ p ∈ epochs', 0 < p.2 := by
  induction epochs generalizing epochs' with
  | nil => cases h
  | cons p rest ih =>
    obtain ⟨e, c⟩ := p
    obtain ⟨hc, hrest⟩ := List.forall_mem_cons.1 hpos
    rw [dropEpoch] at h
    split at h
    · split at h
      · rename_i hone
        cases h
        have hc1 : c = 1 := by
          dsimp only at hc
          omega
        simp only [List.map_cons, List.sum_cons, hc1]
        exact ⟨by omega, hrest⟩
      · rename_i hmore
        cases h
        simp only [List.map_cons, List.sum_cons]
        dsimp only at hc
        refine ⟨by omega, List.forall_mem_cons.2 ⟨?_, hrest⟩⟩
        dsimp only
        omega
    · obtain ⟨rest', hdrop, rfl⟩ := Option.map_eq_some_iff.1 h
      obtain ⟨hsum, hpos'⟩ := ih hrest hdrop
      simp only [List.map_cons, List.sum_cons, hsum]
      exact ⟨by omega, List.forall_mem_cons.2 ⟨hc, hpos'⟩⟩

variable {acquired released refused waiting : Nat} {f : FileLockState T}

omit [DecidableEq T] in
theorem KeyCounts.lock (h : KeyCounts acquired released refused (waiting + 1) f) {t : T} {epoch : Int} {phase : Phase}
    {result : Outcome × FileLockState T} (hstep : SectionStep t epoch phase f result) :
    match result.1 with
    | .acquired => KeyCounts (acquired + 1) released refused waiting result.2
    | .waits _ => KeyCounts acquired released refused (waiting + 1) result.2
    | .overflow => KeyCounts acquired released (refused + 1) waiting result.2 := by
  obtain ⟨hflag, hpos, htotal, hholds, hrefs, hlive⟩ := h
  cases hstep with
  | reenter hepoch hdepth =>
    refine ⟨?_, hpos, htotal, ?_, ?_, hlive⟩
    · simp [hflag, hdepth]
    · dsimp only
      omega
    · dsimp only
      omega
  | globalWait pending hepoch hbusy hpending => exact ⟨hflag, hpos, htotal, hholds, hrefs, hlive⟩
  | global hepoch hfree hdrained =>
    have hdepth : f.globalDepth = 0 := by
      rw [hfree] at hflag
      simpa using hflag
    refine ⟨by simp, hpos, htotal, ?_, ?_, hlive⟩
    · dsimp only
      omega
    · dsimp only
      omega
  | first hepoch hphase hbusy => exact ⟨hflag, hpos, htotal, hholds, hrefs, hlive⟩
  | second hepoch hholders => exact ⟨hflag, hpos, htotal, hholds, hrefs, hlive⟩
  | epoch hepoch hfree hroom =>
    refine ⟨hflag, ?_, ?_, ?_, ?_, hlive⟩
    · intro p hp
      obtain hp | hp := List.mem_append.1 hp
      · exact hpos p hp
      · rw [List.mem_singleton.1 hp]
        exact Nat.one_pos
    · simp [htotal]
    · dsimp only
      omega
    · dsimp only
      omega
  | overflow hepoch hfree hfull hpassed =>
    refine ⟨hflag, hpos, htotal, hholds, ?_, hlive⟩
    dsimp only
    omega

omit [DecidableEq T] in
theorem KeyCounts.unlock (h : KeyCounts acquired released refused waiting f) {epoch : Int} {f' : FileLockState T}
    (hstep : UnlockStep epoch f f') : EntryCounts acquired (released + 1) refused waiting (releaseRef f') := by
  obtain ⟨hflag, hpos, htotal, hholds, hrefs, hlive⟩ := h
  -- one hold less, and one reference less
  have hgive : ∀ g : FileLockState T, (g.globalHeld = true ↔ 0 < g.globalDepth) → (∀ p ∈ g.epochs, 0 < p.2) →
      g.totalEpochHolders = (g.epochs.map Prod.snd).sum →
      g.globalDepth + g.totalEpochHolders + 1 = f.globalDepth + f.totalEpochHolders → g.refcount = f.refcount →
      EntryCounts acquired (released + 1) refused waiting (releaseRef g) := by
    intro g hflag hpos htotal hless href
    rw [releaseRef]
    by_cases hlast : g.refcount - 1 = 0
    · rw [if_pos hlast]
      show acquired = released + 1 ∧ refused = 0 ∧ waiting = 0
      omega
    · rw [if_neg hlast]
      refine ⟨hflag, hpos, htotal, ?_, ?_, by dsimp only; omega⟩
      · dsimp only
        omega
      · dsimp only
        omega
  cases hstep with
  | last hepoch hdepth => exact hgive _ (by simp) hpos htotal (by dsimp only; omega) rfl
  | inner hepoch hdepth =>
    refine hgive _ ?_ hpos htotal (by dsimp only; omega) rfl
    rw [hflag]
    dsimp only
    omega
  | epoch epochs hepoch hdrop =>
    obtain ⟨hsum, hpos'⟩ := dropEpoch_sum hpos hdrop
    refine hgive _ hflag hpos' ?_ (by dsimp only; omega) rfl
    dsimp only
    omega

/-! ## The table -/

structure Ledger.Inv (l : Ledger T) : Prop where
  entry : ∀ key, EntryCounts (l.acquired key) (l.released key) (l.refused key) (waitingOf l.sys key)
    (l.sys.table key)

variable {l : Ledger T}

omit [DecidableEq T] in
theorem Ledger.Inv.init : (Ledger.init : Ledger T).Inv := ⟨fun _ => ⟨rfl, rfl, rfl⟩⟩

omit [DecidableEq T] in
theorem Ledger.Inv.some (h : l.Inv) {key : Int} {f : FileLockState T} (hf : l.sys.table key = some f) :
    KeyCounts (l.acquired key) (l.released key) (l.refused key) (waitingOf l.sys key) f := by
  have hkey := h.entry key
  rwa [hf] at hkey

omit [DecidableEq T] in
theorem Ledger.Inv.none (h : l.Inv) {key : Int} (hf : l.sys.table key = none) :
    l.acquired key = l.released key ∧ l.refused key = 0 ∧ waitingOf l.sys key = 0 := by
  have hkey := h.entry key
  rwa [hf] at hkey

omit [DecidableEq T] in
theorem Ledger.Inv.update (h : l.Inv) {l' : Ledger T} {key : Int} {f : Option (FileLockState T)}
    (htable : l'.sys.table = Function.update l.sys.table key f)
    (hother : ∀ k, k ≠ key → l'.acquired k = l.acquired k ∧ l'.released k = l.released k ∧
      l'.refused k = l.refused k ∧ waitingOf l'.sys k = waitingOf l.sys k)
    (hkey : EntryCounts (l'.acquired key) (l'.released key) (l'.refused key) (waitingOf l'.sys key) f) :
    l'.Inv := by
  refine ⟨fun k => ?_⟩
  rw [htable]
  by_cases heq : k = key
  · subst heq
    rwa [Function.update_self]
  · obtain ⟨ha, hb, hc, hd⟩ := hother k heq
    rw [Function.update_of_ne heq, ha, hb, hc, hd]
    exact h.entry k

omit [DecidableEq T] in
theorem Ledger.Inv.table_some (h : l.Inv) {r : Request T} (hr : r ∈ l.sys.requests) :
    ∃ f, l.sys.table r.key = .some f := by
  cases htable : l.sys.table r.key with
  | some f => exact ⟨f, rfl⟩
  | none =>
    obtain ⟨-, -, hzero⟩ := h.none htable
    rw [waitingOf, List.countP_eq_zero] at hzero
    exact absurd (by simp) (hzero r hr)

theorem Ledger.Inv.enter (h : l.Inv) (t : T) (key epoch : Int) : (l.step (.enter t key epoch)).Inv := by
  have hwait : waitingOf (Lock.step l.sys (.enter t key epoch)) key = waitingOf l.sys key + 1 := by
    simp [Lock.step, waitingOf]
  refine h.update rfl (fun k hk => ?_) ?_
  · refine ⟨rfl, rfl, rfl, ?_⟩
    simp [Ledger.step, Lock.step, waitingOf, Ne.symm hk]
  · show KeyCounts (l.acquired key) (l.released key) (l.refused key) (waitingOf (Lock.step _ _) key) _
    rw [hwait]
    cases htable : l.sys.table key with
    | none =>
      obtain ⟨hacq, href, hzero⟩ := h.none htable
      rw [hacq, href, hzero]
      exact ⟨by simp [findOrCreate, FileLockState.new], by simp [findOrCreate, FileLockState.new], rfl, rfl, rfl,
        Nat.one_pos⟩
    | some f =>
      obtain ⟨hflag, hpos, htotal, hholds, hrefs, hlive⟩ := h.some htable
      refine ⟨hflag, hpos, htotal, hholds, ?_, Nat.succ_pos _⟩
      show f.refcount + 1 = _
      rw [hrefs]
      show _ = f.globalDepth + f.totalEpochHolders + _ + _
      omega

theorem tally_other {count : Int → Nat} {key k : Int} (hk : k ≠ key) : tally count key k = count k :=
  Function.update_of_ne hk ..

theorem tally_self (count : Int → Nat) (key : Int) : tally count key key = count key + 1 := Function.update_self ..

theorem Ledger.Inv.resume (h : l.Inv) {r : Request T} (hr : r ∈ l.sys.requests) : (l.step (.resume r)).Inv := by
  obtain ⟨f, htable⟩ := h.table_some hr
  have hwait := waitingOf_erase hr r.key
  rw [if_pos rfl] at hwait
  have hentry := h.some htable
  rw [hwait] at hentry
  have hkey := hentry.lock (lockSection_step r.thread r.epoch r.phase f)
  have hother : ∀ k, k ≠ r.key → waitingOf l.sys k = (l.sys.requests.erase r).countP (fun q => q.key == k) := by
    intro k hk
    rw [waitingOf_erase hr k, if_neg (Ne.symm hk), Nat.add_zero]
  have hsys : Lock.step l.sys (.resume r) = resumeRequest l.sys r := rfl
  simp only [Ledger.step, outcomeOf, htable, Option.map_some, hsys, resumeRequest]
  cases hres : (lockSection r.thread r.epoch r.phase f).1 with
  | acquired =>
    rw [hres] at hkey
    refine h.update rfl (fun k hk => ⟨tally_other hk, rfl, rfl, (hother k hk).symm⟩) ?_
    show KeyCounts (tally l.acquired r.key r.key) _ _ _ _
    rw [tally_self]
    exact hkey
  | waits phase =>
    rw [hres] at hkey
    refine h.update rfl (fun k hk => ⟨rfl, rfl, rfl, ?_⟩) ?_
    · rw [hother k hk]
      simp [waitingOf, Ne.symm hk]
    · show KeyCounts _ _ _ (List.countP _ _) _
      rw [List.countP_cons_of_pos (by simp)]
      exact hkey
  | overflow =>
    rw [hres] at hkey
    refine h.update rfl (fun k hk => ⟨rfl, rfl, tally_other hk, (hother k hk).symm⟩) ?_
    show KeyCounts _ _ (tally l.refused r.key r.key) _ _
    rw [tally_self]
    exact hkey

theorem Ledger.Inv.unlock (h : l.Inv) (t : T) (key epoch : Int) : (l.step (.unlock t key epoch)).Inv := by
  simp only [Ledger.step, Lock.step]
  cases hunlock : (l.sys.table key).bind (unlockSection t epoch) with
  | none => simpa using h
  | some f' =>
    obtain ⟨f, htable, hsection⟩ := Option.bind_eq_some_iff.1 hunlock
    have hkey := (h.some htable).unlock (unlockSection_step hsection)
    simp only [Option.isSome_some, if_true]
    refine h.update rfl (fun k hk => ⟨rfl, tally_other hk, rfl, rfl⟩) ?_
    dsimp only
    rw [tally_self]
    exact hkey

theorem Ledger.Inv.step (h : l.Inv) {ev : Event T} (hev : InProgress l ev) : (l.step ev).Inv := by
  cases ev with
  | enter t key epoch => exact h.enter t key epoch
  | resume r => exact h.resume hev
  | unlock t key epoch => exact h.unlock t key epoch

/-! ## Refused calls -/

/-- A section that gets as far as taking the lock per epoch finds fewer than 64 epochs that hold the key. -/
def HasRoom (l : Ledger T) : Event T → Prop
  | .resume r => r.epoch ≠ 0 → ∀ f ∈ l.sys.table r.key,
      f.epochs.length < maxPerEpochHolders ∨ perEpochHasHolders f r.epoch = true ∨
        r.phase ≠ .waitSecond ∧ (f.globalHeld = true ∨ f.globalPending = true)
  | _ => True

omit [DecidableEq T] in
theorem SectionStep.overflow_iff {t : T} {epoch : Int} {phase : Phase} {f : FileLockState T}
    {result : Outcome × FileLockState T} (h : SectionStep t epoch phase f result) :
    result.1 = .overflow ↔ epoch ≠ 0 ∧ ¬ (f.epochs.length < maxPerEpochHolders ∨ perEpochHasHolders f epoch = true ∨
      phase ≠ .waitSecond ∧ (f.globalHeld = true ∨ f.globalPending = true)) := by
  cases h with
  | reenter hepoch hpos => simp [hepoch]
  | globalWait pending hepoch hbusy hpending => simp [hepoch]
  | global hepoch hfree hdrained => simp [hepoch]
  | first hepoch hphase hbusy => simp [hphase, hbusy]
  | second hepoch hholders => simp [hholders]
  | epoch hepoch hfree hroom => simp [hroom]
  | overflow hepoch hfree hfull hpassed =>
    refine ⟨fun _ => ⟨hepoch, ?_⟩, fun _ => rfl⟩
    rintro (hroom | hholders | ⟨hphase, hbusy⟩)
    · omega
    · simp [hfree] at hholders
    · exact hpassed.elim hphase fun hnot => hnot hbusy

theorem Ledger.step_refused (l : Ledger T) {ev : Event T} (hinv : l.Inv) (hev : InProgress l ev) :
    (∀ key, (l.step ev).refused key = 0) ↔ (∀ key, l.refused key = 0) ∧ HasRoom l ev := by
  cases ev with
  | enter t key epoch => exact ⟨fun h => ⟨h, trivial⟩, fun h => h.1⟩
  | unlock t key epoch =>
    have hsame : (l.step (.unlock t key epoch)).refused = l.refused := by
      rw [Ledger.step]
      split <;> rfl
    rw [hsame]
    exact ⟨fun h => ⟨h, trivial⟩, fun h => h.1⟩
  | resume r =>
    obtain ⟨f, htable⟩ := hinv.table_some hev
    have hover := (lockSection_step r.thread r.epoch r.phase f).overflow_iff
    have hroom : HasRoom l (.resume r) ↔ (lockSection r.thread r.epoch r.phase f).1 ≠ .overflow := by
      rw [Ne, hover, HasRoom, htable, not_and, not_not]
      simp only [Option.mem_some_iff, forall_eq']
    rw [hroom]
    cases hres : (lockSection r.thread r.epoch r.phase f).1 with
    | overflow =>
      have hstep : (l.step (.resume r)).refused = tally l.refused r.key := by
        simp only [Ledger.step, outcomeOf, htable, Option.map_some, hres]
      rw [hstep]
      refine ⟨fun h => ?_, fun h => absurd rfl h.2⟩
      have hkey := h r.key
      rw [tally_self] at hkey
      cases hkey
    | acquired =>
      have hstep : (l.step (.resume r)).refused = l.refused := by
        simp only [Ledger.step, outcomeOf, htable, Option.map_some, hres]
      simp [hstep]
    | waits phase =>
      have hstep : (l.step (.resume r)).refused = l.refused := by
        simp only [Ledger.step, outcomeOf, htable, Option.map_some, hres]
      simp [hstep]

theorem Ledger.run_refused (evs : List (Event T)) : ∀ {l : Ledger T}, l.Inv →
    Run.AllSteps Ledger.step InProgress l evs →
    (evs.foldl Ledger.step l).Inv ∧ ((∀ key, (evs.foldl Ledger.step l).refused key = 0) ↔
      (∀ key, l.refused key = 0) ∧ Run.AllSteps Ledger.step HasRoom l evs) := by
  induction evs with
  | nil => exact fun hinv _ => ⟨hinv, by simp [Run.AllSteps]⟩
  | cons ev evs ih =>
    intro l hinv hevs
    obtain ⟨hfinal, hiff⟩ := ih (hinv.step hevs.1) hevs.2
    refine ⟨hfinal, hiff.trans ?_⟩
    rw [l.step_refused hinv hevs.1, Run.AllSteps, and_assoc]

/-! ## The result -/

/-- The accounting of a state: the reference count of an entry is the number of acquisitions that were not released
and of calls inside `vfs_lock`; without either, the table is empty; and an entry that a call waits on is there. -/
structure Ledger.Accounted (l : Ledger T) : Prop where
  refcount : ∀ key f, l.sys.table key = some f → f.refcount = l.unreleased key + waitingOf l.sys key
  drained : (∀ key, l.unreleased key = 0) → l.sys.requests = [] → ∀ key, l.sys.table key = none
  waited : ∀ r ∈ l.sys.requests, (l.sys.table r.key).isSome

omit [DecidableEq T] in
theorem Ledger.Inv.waited (h : l.Inv) : ∀ r ∈ l.sys.requests, (l.sys.table r.key).isSome := by
  intro r hr
  obtain ⟨f, hf⟩ := h.table_some hr
  rw [hf]
  rfl

omit [DecidableEq T] in
theorem Ledger.Inv.accounted_iff (h : l.Inv) : l.Accounted ↔ ∀ key, l.refused key = 0 := by
  constructor
  · intro hacc key
    cases htable : l.sys.table key with
    | none => exact (h.none htable).2.1
    | some f =>
      obtain ⟨-, -, -, hholds, hrefs, -⟩ := h.some htable
      have hcount := hacc.refcount key f htable
      rw [Ledger.unreleased] at hcount
      omega
  · intro hzero
    have hcount : ∀ key f, l.sys.table key = .some f → f.refcount = l.unreleased key + waitingOf l.sys key := by
      intro key f htable
      obtain ⟨-, -, -, hholds, hrefs, -⟩ := h.some htable
      rw [hzero key] at hrefs
      rw [Ledger.unreleased]
      omega
    refine ⟨hcount, fun hnone hidle key => ?_, h.waited⟩
    cases htable : l.sys.table key with
    | none => rfl
    | some f =>
      have hlive := (h.some htable).live
      rw [hcount key f htable, hnone key, waitingOf, hidle] at hlive
      exact absurd hlive (Nat.lt_irrefl 0)

/-- For any number of threads and keys and every interleaving: the table accounts for all calls exactly when no
section found 64 other epochs on its key. In any case an entry is there as long as a call waits on it. -/
theorem lock_table_accounting (evs : List (Event T))
    (hevs : Run.AllSteps Ledger.step InProgress Ledger.init evs) :
    let l := evs.foldl Ledger.step Ledger.init
    (∀ r ∈ l.sys.requests, (l.sys.table r.key).isSome) ∧
      (l.Accounted ↔ Run.AllSteps Ledger.step HasRoom Ledger.init evs) := by
  obtain ⟨hinv, hiff⟩ := Ledger.run_refused evs Ledger.Inv.init hevs
  refine ⟨hinv.waited, hinv.accounted_iff.trans (hiff.trans ?_)⟩
  exact ⟨fun h => h.2, fun h => ⟨fun _ => rfl, h⟩⟩

theorem lock_table_accounting_drains :
    let evs : List (Event Nat) := [.enter 1 7 5, .enter 2 7 4, .resume ⟨1, 7, 5, .start⟩, .resume ⟨2, 7, 4, .start⟩,
      .unlock 2 7 4, .enter 3 7 0, .resume ⟨3, 7, 0, .start⟩, .unlock 1 7 5, .resume ⟨3, 7, 0, .waitGlobal⟩,
      .unlock 3 7 0]
    (evs.foldl Ledger.step Ledger.init).Accounted ↔ Run.AllSteps Ledger.step HasRoom Ledger.init evs := by
  intro evs
  exact (lock_table_accounting evs (by decide +kernel)).2

/-- Threads `0` to `63` take key `7` at one epoch each, thread `64` asks for a further epoch, and the 64 threads
unlock. -/
def refusedRun : List (Event Nat) :=
  (List.range 64).flatMap (fun i => [.enter i 7 (i + 1), .resume ⟨i, 7, i + 1, .start⟩]) ++
    [.enter 64 7 65, .resume ⟨64, 7, 65, .start⟩] ++ (List.range 64).map fun i => .unlock i 7 (i + 1)

/-- Nobody holds the key and nobody waits for it, but its entry stays, with one reference. -/
theorem refused_call_keeps_reference :
    let l := refusedRun.foldl Ledger.step Ledger.init
    Run.AllSteps Ledger.step InProgress Ledger.init refusedRun ∧ l.sys.held = [] ∧ l.sys.requests = [] ∧
      l.unreleased 7 = 0 ∧ (l.sys.table 7).map FileLockState.refcount = some 1 ∧ ¬ l.Accounted := by
  intro l
  have hrun : Run.AllSteps Ledger.step InProgress Ledger.init refusedRun := by decide +kernel
  have hstate : l.sys.held = [] ∧ l.sys.requests = [] ∧ l.unreleased 7 = 0 ∧
      (l.sys.table 7).map FileLockState.refcount = some 1 := by decide +kernel
  obtain ⟨hheld, hidle, hnone, hentry⟩ := hstate
  refine ⟨hrun, hheld, hidle, hnone, hentry, fun hacc => ?_⟩
  obtain ⟨f, hf, href⟩ := Option.map_eq_some_iff.1 hentry
  have hcount := hacc.refcount 7 f hf
  rw [href, hnone, waitingOf, hidle] at hcount
  cases hcount

end Lock
end SphereVFS
