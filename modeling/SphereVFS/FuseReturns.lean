import SphereVFS.FuseLocks

/-!
# SphereVFS.FuseReturns

Which FUSE callbacks return.

Between callbacks no call of `vfs_lock` is under way, and the locks that are held on one key are all
at epoch `0` or all at other epochs (`Quiet`). From there `vfs_lock` returns if and only if the locks
held on its key leave room for it, and an operation that gives back what it takes leaves the held
locks as they were. So the locks left behind by `open` and `create` decide whether a later callback
returns.
-/

namespace SphereVFS
namespace FuseLock

open Lock LockOrder TreeLock

variable {T : Type}

/-! ## What the fields of a lock say about its holders -/

section Entry

variable {holds : List (Hold T)} {waiting : Nat} {f : FileLockState T}

theorem depth_pos_iff (h : KeyOk holds waiting f) : 0 < f.globalDepth ↔ ∃ a ∈ holds, a.epoch = 0 := by
  rw [h.depth, List.countP_pos_iff]
  simp

theorem held_iff (h : KeyOk holds waiting f) : f.globalHeld = true ↔ ∃ a ∈ holds, a.epoch = 0 :=
  h.flag.trans (depth_pos_iff h)

theorem total_pos_iff (h : KeyOk holds waiting f) :
    0 < f.totalEpochHolders ↔ ∃ a ∈ holds, a.epoch ≠ 0 := by
  rw [h.total, List.countP_pos_iff]
  simp

theorem hasHolders_iff_held (h : KeyOk holds waiting f) {epoch : Int} (hepoch : epoch ≠ 0) :
    perEpochHasHolders f epoch = true ↔ ∃ a ∈ holds, a.epoch = epoch := by
  rw [hasHolders_iff, h.keys]
  exact ⟨fun hk => hk.2, fun hk => ⟨hepoch, hk⟩⟩

end Entry

/-! ## The first section of `vfs_lock` -/

/-- The locks held on one key leave room for thread `t`. -/
def Room (holds : List (Hold T)) (t : T) (epoch : Int) : Prop :=
  ∀ a ∈ holds, if epoch = 0 then a.epoch = 0 ∧ a.thread = t else a.epoch ≠ 0 ∧ a.epoch ≠ epoch

/-- The locks held on one key are all at epoch `0` or all at other epochs. -/
def Uniform (holds : List (Hold T)) : Prop :=
  ∀ a ∈ holds, ∀ b ∈ holds, a.epoch = 0 → b.epoch = 0

section Section

variable {holds : List (Hold T)} {waiting : Nat} {f : FileLockState T} {t : T} {epoch : Int}

/-- What the first section comes to when there is room: it does not wait and announces nothing, and
it succeeds if nobody holds the key. -/
structure Started (holds : List (Hold T)) (result : Outcome × FileLockState T) : Prop where
  returns : ∀ phase, result.1 ≠ .waits phase
  calm : result.2.globalPending = false
  alone : holds = [] → result.1 = .acquired

theorem globalLoop_started (h : KeyOk holds waiting f) (hnil : holds = []) :
    Started holds (globalLoop t { f with globalPending := true }) := by
  have hheld : ¬ f.globalHeld = true := by simp [held_iff h, hnil]
  have htotal : ¬ 0 < f.totalEpochHolders := by simp [total_pos_iff h, hnil]
  rw [globalLoop, if_neg (not_or.2 ⟨hheld, htotal⟩)]
  exact ⟨by simp, rfl, fun _ => rfl⟩

theorem secondLoop_started (h : KeyOk holds waiting f) (hepoch : epoch ≠ 0)
    (hcalm : f.globalPending = false) (hroom : ∀ a ∈ holds, a.epoch ≠ epoch) :
    Started holds (secondLoop epoch f) := by
  have hno : ¬ perEpochHasHolders f epoch = true := by
    rw [hasHolders_iff_held h hepoch]
    rintro ⟨a, ha, he⟩
    exact hroom a ha he
  have hbump : bumpEpoch epoch f.epochs = none := bumpEpoch_none (by rwa [hasHolders_iff] at hno)
  rw [secondLoop, if_neg hno, perEpochAdd, hbump]
  by_cases hfull : maxPerEpochHolders ≤ f.epochs.length
  · simp only [if_pos hfull]
    refine ⟨by simp, hcalm, fun hnil => ?_⟩
    -- nobody holds the key, so its table of epochs is empty
    have hempty : f.epochs = [] := by
      rw [← List.map_eq_nil_iff, List.eq_nil_iff_forall_not_mem]
      intro e he
      obtain ⟨-, a, ha, -⟩ := (h.keys e).1 he
      rw [hnil] at ha
      cases ha
    rw [hempty] at hfull
    exact absurd hfull (by decide)
  · simp only [if_neg hfull]
    exact ⟨by simp, hcalm, fun _ => rfl⟩

variable [DecidableEq T]

theorem lockSection_started (h : KeyOk holds waiting f) (hcalm : f.globalPending = false)
    (hroom : Room holds t epoch) : Started holds (lockSection t epoch .start f) := by
  unfold lockSection
  by_cases hepoch : epoch = 0
  · simp only [if_pos hepoch]
    split
    · exact ⟨by simp, rfl, fun _ => rfl⟩
    · rename_i hown
      -- a lock held at epoch `0` would be the thread's own
      refine globalLoop_started h (List.eq_nil_iff_forall_not_mem.2 fun a ha => hown ?_)
      have haroom := hroom a ha
      rw [if_pos hepoch] at haroom
      exact ⟨(depth_pos_iff h).2 ⟨a, ha, haroom.1⟩, haroom.2 ▸ h.owner a ha haroom.1⟩
  · simp only [if_neg hepoch]
    have hroom' : ∀ a ∈ holds, a.epoch ≠ 0 ∧ a.epoch ≠ epoch := by
      intro a ha
      have haroom := hroom a ha
      rwa [if_neg hepoch] at haroom
    have hfree : ¬ (f.globalHeld = true ∨ f.globalPending = true) := by
      rw [held_iff h, hcalm]
      rintro (⟨a, ha, he⟩ | hpending)
      · exact (hroom' a ha).1 he
      · cases hpending
    rw [if_neg hfree]
    exact secondLoop_started h hepoch hcalm fun a ha => (hroom' a ha).2

theorem lockSection_waits (h : KeyOk holds waiting f) (huniform : Uniform holds)
    (hroom : ¬ Room holds t epoch) : ∃ phase, (lockSection t epoch .start f).1 = .waits phase := by
  rw [Room, not_forall] at hroom
  obtain ⟨a, hroom⟩ := hroom
  rw [Classical.not_imp] at hroom
  obtain ⟨ha, hblocks⟩ := hroom
  unfold lockSection
  by_cases hepoch : epoch = 0
  · simp only [if_pos hepoch] at hblocks ⊢
    by_cases he : a.epoch = 0
    · have hown : ¬ (0 < f.globalDepth ∧ f.globalOwner = some t) := by
        rintro ⟨-, howner⟩
        rw [h.owner a ha he] at howner
        exact hblocks ⟨he, Option.some.inj howner⟩
      rw [if_neg hown, globalLoop, if_pos (.inl ((held_iff h).2 ⟨a, ha, he⟩))]
      exact ⟨_, rfl⟩
    · have hown : ¬ (0 < f.globalDepth ∧ f.globalOwner = some t) := by
        rintro ⟨hdepth, -⟩
        obtain ⟨b, hb, hb0⟩ := (depth_pos_iff h).1 hdepth
        exact he (huniform b hb a ha hb0)
      rw [if_neg hown, globalLoop, if_pos (.inr ((total_pos_iff h).2 ⟨a, ha, he⟩))]
      exact ⟨_, rfl⟩
  · simp only [if_neg hepoch] at hblocks ⊢
    by_cases he : a.epoch = 0
    · rw [if_pos (.inl ((held_iff h).2 ⟨a, ha, he⟩))]
      exact ⟨_, rfl⟩
    · have hsame : a.epoch = epoch := by
        by_contra hne
        exact hblocks ⟨he, hne⟩
      have hholders := (hasHolders_iff_held h hepoch).2 ⟨a, ha, hsame⟩
      split
      · exact ⟨_, rfl⟩
      · rw [secondLoop, if_pos hholders]
        exact ⟨_, rfl⟩

end Section

/-! ## One call -/

section Call

variable {s : System T} {t : T} {key epoch : Int}

structure Quiet (s : System T) : Prop where
  inv : Lock.Inv s
  idle : s.requests = []
  calm : ∀ key f, s.table key = some f → f.globalPending = false
  uniform : ∀ key, Uniform (holdsOf s key)

theorem Quiet.init : Quiet (System.init : System T) := by
  refine ⟨Lock.Inv.init, rfl, ?_, fun key a ha => ?_⟩
  · intro key f hf
    cases hf
  · cases ha

theorem mayLock_iff : MayLock s.held t key epoch ↔ Room (holdsOf s key) t epoch := by
  simp only [MayLock, Room, mem_holdsOf, and_imp]

theorem Quiet.change (h : Quiet s) {s' : System T} {g : Option (FileLockState T)}
    (hinv : Lock.Inv s') (hidle : s'.requests = []) (htable : s'.table = Function.update s.table key g)
    (hcalm : ∀ f, g = some f → f.globalPending = false) (huniform : ∀ k, Uniform (holdsOf s' k)) :
    Quiet s' := by
  refine ⟨hinv, hidle, fun k f hf => ?_, huniform⟩
  rw [htable] at hf
  by_cases hk : k = key
  · subst hk
    rw [Function.update_self] at hf
    exact hcalm f hf
  · rw [Function.update_of_ne hk] at hf
    exact h.calm k f hf

theorem uniform_cons {held : List (Hold T)} (huniform : Uniform (held.filter fun a => a.key == key))
    (hroom : Room (held.filter fun a => a.key == key) t epoch) :
    Uniform (⟨t, key, epoch⟩ :: held.filter fun a => a.key == key) := by
  have hroom' : ∀ a ∈ held.filter fun a => a.key == key, a.epoch = 0 ↔ epoch = 0 := by
    intro a ha
    have haroom := hroom a ha
    split at haroom
    · exact iff_of_true haroom.1 ‹_›
    · exact iff_of_false haroom.1 ‹_›
  intro a ha b hb hzero
  obtain rfl | ha := List.mem_cons.1 ha <;> obtain rfl | hb := List.mem_cons.1 hb
  · exact hzero
  · exact (hroom' b hb).2 hzero
  · exact (hroom' a ha).1 hzero
  · exact huniform a ha b hb hzero

variable [DecidableEq T]

theorem step_resume (s : System T) (r : Request T) : Lock.step s (.resume r) = resumeRequest s r := rfl

theorem Quiet.entered (h : Quiet s) (t : T) (key epoch : Int) :
    ∃ f waiting, (Lock.step s (.enter t key epoch)).table key = some f ∧
      KeyOk (holdsOf s key) waiting f ∧ f.globalPending = false := by
  have hentry := (h.inv.enter t key epoch).entry key (findOrCreate (s.table key))
    (Function.update_self _ _ _)
  refine ⟨_, _, Function.update_self _ _ _, hentry, ?_⟩
  cases htable : s.table key with
  | none => rfl
  | some f => exact h.calm key f htable

theorem lockCall_none (h : Quiet s) (hroom : ¬ MayLock s.held t key epoch) :
    lockCall s t key epoch = none := by
  obtain ⟨f, waiting, htable, hkey, -⟩ := h.entered t key epoch
  rw [mayLock_iff] at hroom
  obtain ⟨phase, hwaits⟩ := lockSection_waits hkey (h.uniform key) hroom
  simp only [lockCall, outcome, htable, hwaits]

theorem lockCall_some (h : Quiet s) (hroom : MayLock s.held t key epoch) :
    ∃ ok s', lockCall s t key epoch = some (ok, s') ∧ Quiet s' ∧
      s'.held = (if ok = true then ⟨t, key, epoch⟩ :: s.held else s.held) ∧
      ((∀ a ∈ s.held, a.key ≠ key) → ok = true) := by
  obtain ⟨f, waiting, htable, hkey, hcalm⟩ := h.entered t key epoch
  rw [mayLock_iff] at hroom
  have hstarted := lockSection_started hkey hcalm hroom
  have hidle : (Lock.step s (.enter t key epoch)).requests.erase ⟨t, key, epoch, .start⟩ = [] := by
    simp [Lock.step, h.idle]
  have hinv := (h.inv.enter t key epoch).resume (r := ⟨t, key, epoch, .start⟩) List.mem_cons_self
  have htable' : ∀ g : FileLockState T, Function.update (Lock.step s (.enter t key epoch)).table key
      (some g) = Function.update s.table key (some g) := fun g => Function.update_idem _ _ _
  simp only [step_resume, resumeRequest, htable] at hinv
  simp only [lockCall, outcome, htable, step_resume, resumeRequest]
  cases hres : (lockSection t epoch .start f).1 with
  | acquired =>
    rw [hres] at hinv
    refine ⟨true, _, rfl, h.change hinv hidle (htable' _) ?_ fun k => ?_, rfl, fun _ => rfl⟩
    · rintro g ⟨⟩
      exact hstarted.calm
    · rw [holdsOf_cons rfl]
      split
      · rename_i hk
        subst hk
        exact uniform_cons (h.uniform key) hroom
      · exact h.uniform k
  | overflow =>
    rw [hres] at hinv
    refine ⟨false, _, rfl, h.change hinv hidle (htable' _) ?_ h.uniform, rfl, fun hfree => ?_⟩
    · rintro g ⟨⟩
      exact hstarted.calm
    · have hnil : holdsOf s key = [] := by
        rw [List.eq_nil_iff_forall_not_mem]
        intro a ha
        exact hfree a (mem_holdsOf.1 ha).1 (mem_holdsOf.1 ha).2
      rw [hstarted.alone hnil] at hres
      cases hres
  | waits phase => exact absurd hres (hstarted.returns phase)

omit [DecidableEq T] in
theorem dropEpoch_none {epochs : List (Int × Nat)} (h : epoch ∉ epochs.map Prod.fst) :
    dropEpoch epoch epochs = none := by
  induction epochs with
  | nil => rfl
  | cons p rest ih =>
    obtain ⟨e, c⟩ := p
    rw [List.map_cons, List.mem_cons, not_or] at h
    rw [dropEpoch, if_neg (Ne.symm h.1), ih h.2]
    rfl

theorem unlockSection_pending {f f' : FileLockState T} (h : unlockSection t epoch f = some f') :
    f'.globalPending = f.globalPending := by
  unfold unlockSection at h
  split at h
  · split at h
    · cases h
    · split at h <;> cases h <;> rfl
  · obtain ⟨epochs, -, rfl⟩ := Option.map_eq_some_iff.1 h
    rfl

theorem unlockSection_thread {u : T} (hthread : epoch = 0 → u = t) (f : FileLockState T) :
    unlockSection t epoch f = unlockSection u epoch f := by
  unfold unlockSection
  split
  · rename_i hepoch
    rw [hthread hepoch]
  · rfl

theorem endsHold_iff {a : Hold T} :
    endsHold t key epoch a = true ↔ a.key = key ∧ a.epoch = epoch ∧ (epoch = 0 → a.thread = t) := by
  simp only [endsHold, Bool.and_eq_true, Bool.or_eq_true, beq_iff_eq, bne_iff_ne, ne_eq, and_assoc,
    imp_iff_not_or]

theorem unlockSection_none (h : Quiet s) (hnone : ∀ a ∈ s.held, ¬ endsHold t key epoch a = true) :
    (s.table key).bind (unlockSection t epoch) = none := by
  cases htable : s.table key with
  | none => rfl
  | some f =>
    have hkey := h.inv.entry key f htable
    have hnone' : ∀ a ∈ holdsOf s key, a.epoch = epoch → ¬ (epoch = 0 → a.thread = t) := by
      intro a ha he hthread
      obtain ⟨hmem, hk⟩ := mem_holdsOf.1 ha
      exact hnone a hmem (endsHold_iff.2 ⟨hk, he, hthread⟩)
    rw [Option.bind_some, unlockSection]
    by_cases hepoch : epoch = 0
    · rw [if_pos hepoch, if_pos]
      by_cases hdepth : f.globalDepth = 0
      · exact .inl hdepth
      · obtain ⟨a, ha, he⟩ := (depth_pos_iff hkey).1 (Nat.pos_of_ne_zero hdepth)
        refine .inr fun howner => hnone' a ha (he.trans hepoch.symm) fun _ => ?_
        rw [hkey.owner a ha he] at howner
        exact Option.some.inj howner
    · rw [if_neg hepoch, perEpochRemove, dropEpoch_none, Option.map_none]
      rw [hkey.keys]
      rintro ⟨-, a, ha, he⟩
      exact hnone' a ha he fun hzero => absurd hzero hepoch

theorem unlockCall_spec (h : Quiet s) (t : T) (key epoch : Int) :
    Quiet (unlockCall s t key epoch) ∧
      (unlockCall s t key epoch).held = heldAfter s.held t key epoch := by
  unfold heldAfter
  cases hfind : s.held.find? (endsHold t key epoch) with
  | none =>
    rw [unlockCall, unlockSection_none h (List.find?_eq_none.1 hfind)]
    exact ⟨h, rfl⟩
  | some a =>
    have hmem := List.mem_of_find?_eq_some hfind
    obtain ⟨rfl, rfl, hthread⟩ := endsHold_iff.1 (List.find?_some hfind)
    have hin : a ∈ holdsOf s a.key := mem_holdsOf.2 ⟨hmem, rfl⟩
    cases htable : s.table a.key with
    | none =>
      rw [(h.inv.absent a.key htable).1] at hin
      cases hin
    | some f =>
      obtain ⟨f', hunlock, -, -⟩ := unlockSection_ok (h.inv.entry a.key f htable) hin
      have hunlock' : unlockSection t a.epoch f = some f' :=
        (unlockSection_thread hthread f).trans hunlock
      let unlocked : System T := { s with
        table := Function.update s.table a.key (releaseRef f')
        held := s.held.erase a }
      have hcall : unlockCall s t a.key a.epoch = unlocked := by
        simp only [unlockCall, htable, Option.bind_some, hunlock', heldAfter, hfind, unlocked]
      -- the same step as an unlock by the thread that holds the lock
      have hstep : Lock.step s (.unlock a.thread a.key a.epoch) = unlocked := by
        simp only [Lock.step, htable, Option.bind_some, hunlock, unlocked]
      have hinv : Lock.Inv unlocked := hstep ▸ h.inv.unlock hmem
      rw [hcall]
      refine ⟨h.change hinv h.idle rfl (fun g hg => ?_) fun k b hb c hc => ?_, rfl⟩
      · rw [releaseRef] at hg
        split at hg
        · cases hg
        · cases hg
          exact (unlockSection_pending hunlock).trans (h.calm a.key f htable)
      · rw [mem_holdsOf] at hb hc
        exact h.uniform k b (mem_holdsOf.2 ⟨List.mem_of_mem_erase hb.1, hb.2⟩) c
          (mem_holdsOf.2 ⟨List.mem_of_mem_erase hc.1, hc.2⟩)

end Call

/-! ## Whole operations -/

section Operations

variable [DecidableEq T] {t : T} {held : List (Hold T)} {key epoch : Int} {P : List (Hold T) → Prop}

/-- From the held locks `held`, the program returns and leaves held locks that meet `P`. -/
def Leaves (t : T) (held : List (Hold T)) (p : LockProg) (P : List (Hold T) → Prop) : Prop :=
  ∀ s : System T, Quiet s → s.held = held → ∃ s', exec t p s = some s' ∧ Quiet s' ∧ P s'.held

/-- From the held locks `held`, the program waits for ever. -/
def Blocks (t : T) (held : List (Hold T)) (p : LockProg) : Prop :=
  ∀ s : System T, Quiet s → s.held = held → exec t p s = none

theorem Leaves.ret (hP : P held) : Leaves t held .ret P := by
  rintro s hs rfl
  exact ⟨s, rfl, hs, hP⟩

theorem Leaves.unlock {next : LockProg} (h : Leaves t (heldAfter held t key epoch) next P) :
    Leaves t held (.unlock key epoch next) P := by
  rintro s hs rfl
  obtain ⟨hquiet, hheld⟩ := unlockCall_spec hs t key epoch
  exact h _ hquiet hheld

theorem Leaves.lock {ok fail : LockProg} (hmay : MayLock held t key epoch)
    (hok : Leaves t (⟨t, key, epoch⟩ :: held) ok P) (hfail : Leaves t held fail P) :
    Leaves t held (.lock key epoch ok fail) P := by
  rintro s hs rfl
  obtain ⟨b, s', hcall, hquiet, hheld, -⟩ := lockCall_some hs hmay
  rw [exec, hcall]
  cases b with
  | true => exact hok s' hquiet hheld
  | false => exact hfail s' hquiet hheld

theorem Blocks.lock {ok fail : LockProg} (hmay : ¬ MayLock held t key epoch) :
    Blocks t held (.lock key epoch ok fail) := by
  rintro s hs rfl
  rw [exec, lockCall_none hs hmay]

def Free (held : List (Hold T)) (key : Int) : Prop := ∀ a ∈ held, a.key ≠ key

omit [DecidableEq T] in
theorem Free.mayLock (h : Free held key) : MayLock held t key epoch :=
  fun a ha hk => absurd hk (h a ha)

omit [DecidableEq T] in
theorem Free.cons (h : Free held key) {a : Hold T} (ha : a.key ≠ key) : Free (a :: held) key := by
  intro b hb
  obtain rfl | hb := List.mem_cons.1 hb
  · exact ha
  · exact h b hb

theorem Blocks.after {ok fail : LockProg} (hfree : Free held key)
    (hok : Blocks t (⟨t, key, epoch⟩ :: held) ok) : Blocks t held (.lock key epoch ok fail) := by
  rintro s hs rfl
  obtain ⟨b, s', hcall, hquiet, hheld, hb⟩ := lockCall_some hs hfree.mayLock
  obtain rfl := hb hfree
  rw [exec, hcall]
  exact hok s' hquiet hheld

theorem Leaves.giveBack {next : LockProg} (h : Leaves t held next P) :
    Leaves t (⟨t, key, epoch⟩ :: held) (.unlock key epoch next) P := by
  have hends : endsHold t key epoch ⟨t, key, epoch⟩ = true := endsHold_iff.2 ⟨rfl, rfl, fun _ => rfl⟩
  have hafter : heldAfter (⟨t, key, epoch⟩ :: held) t key epoch = held := by
    simp [heldAfter, List.find?_cons_of_pos hends]
  refine Leaves.unlock ?_
  rwa [hafter]

theorem vfsRead_leaves {units : List Int} (hfree : ∀ u ∈ units, Free held u) (hP : P held) :
    Leaves t held (vfsRead epoch units) P := by
  induction units with
  | nil => exact .ret hP
  | cons u units ih =>
    have hrest := ih fun v hv => hfree v (List.mem_cons_of_mem _ hv)
    exact .lock (hfree u List.mem_cons_self).mayLock hrest.giveBack hrest

theorem vfsWriteThen_leaves {file : Int} {units : List Int} {next : LockProg}
    (hmay : MayLock held t file epoch) (hfree : ∀ u ∈ units, Free held u ∧ file ≠ u)
    (hnext : Leaves t held next P) (hP : P held) :
    Leaves t held (vfsWriteThen file epoch units next) P := by
  refine .lock hmay ?_ (.ret hP)
  induction units with
  | nil => exact hnext.giveBack
  | cons u units ih =>
    have hu := hfree u List.mem_cons_self
    have hrest := ih fun v hv => hfree v (List.mem_cons_of_mem _ hv)
    exact .lock (hu.1.cons hu.2).mayLock hrest.giveBack (Leaves.ret hP).giveBack

theorem vfsTruncate_leaves {file : Int} {writes : List (List Int)} (hmay : MayLock held t file epoch)
    (hfree : ∀ units ∈ writes, ∀ u ∈ units, Free held u ∧ file ≠ u) (hP : P held) :
    Leaves t held (TreeLock.vfsTruncate file epoch writes) P := by
  refine .lock hmay (Leaves.giveBack ?_) (.ret hP)
  induction writes with
  | nil => exact .ret hP
  | cons units rest ih =>
    have hrest := ih fun us hus => hfree us (List.mem_cons_of_mem _ hus)
    exact vfsWriteThen_leaves hmay (hfree units List.mem_cons_self) hrest hP

omit [DecidableEq T] in
theorem mayLock_child {parent id : Int} (hid : MayLock held t id epoch) (hne : epoch ≠ 0 → id ≠ parent) :
    MayLock (⟨t, parent, epoch⟩ :: held) t id epoch := by
  intro a ha hk
  obtain rfl | ha := List.mem_cons.1 ha
  · split
    · exact ⟨‹_›, rfl⟩
    · exact absurd hk.symm (hne ‹_›)
  · exact hid a ha hk

theorem create_leaves {parent id : Int} {next : LockProg} (hparent : Free held parent)
    (hid : MayLock held t id epoch) (hne : epoch ≠ 0 → id ≠ parent) (hP : P held)
    (hnext : Leaves t held next P) : Leaves t held (lockParentThenChild parent id epoch next) P :=
  .lock hparent.mayLock (.lock (mayLock_child hid hne) hnext.giveBack.giveBack (Leaves.ret hP).giveBack)
    (.ret hP)

theorem create_blocks {parent id : Int} {next : LockProg} (hparent : Free held parent)
    (hid : ¬ (MayLock held t id epoch ∧ (epoch ≠ 0 → id ≠ parent))) :
    Blocks t held (lockParentThenChild parent id epoch next) := by
  refine .after hparent (.lock fun hmay => hid ⟨fun a ha => hmay a (List.mem_cons_of_mem _ ha), ?_⟩)
  rintro hepoch rfl
  have hown := hmay _ List.mem_cons_self rfl
  rw [if_neg hepoch] at hown
  exact hown.2 rfl

end Operations

/-! ## Callbacks -/

section Callbacks

variable {kind : Int → Option Kind} {m : Mount T}

structure Inv (kind : Int → Option Kind) (m : Mount T) : Prop where
  quiet : Quiet m.locks
  held : ∀ a ∈ m.locks.held, a.key ∈ m.files
  files : ∀ vp ∈ m.files, kind vp = some .file

theorem Inv.free (h : Inv kind m) {key : Int} (hkey : kind key ≠ some .file) : Free m.locks.held key := by
  rintro a ha rfl
  exact hkey (h.files _ (h.held a ha))

theorem Inv.units (h : Inv kind m) {vp : Int} (hvp : vp ∈ m.files) {units : List Int}
    (hunits : ∀ u ∈ units, kind u = some .unit) : ∀ u ∈ units, Free m.locks.held u ∧ vp ≠ u := by
  intro u hu
  refine ⟨h.free (by simp [hunits u hu]), ?_⟩
  rintro rfl
  have hfile := h.files vp hvp
  rw [hunits vp hu] at hfile
  cases hfile

theorem after_locks (m : Mount T) (s : System T) (c : Callback) : (m.after s c).locks = s := by
  cases c <;> rfl

theorem mem_after {vp : Int} (s : System T) (c : Callback) (h : vp ∈ m.files) :
    vp ∈ (m.after s c).files := by
  cases c with
  | create parent vp' => exact List.mem_cons_of_mem _ h
  | _ => exact h

variable [DecidableEq T]

theorem Inv.leaves (h : Inv kind m) {c : T × Callback} (hfound : Found kind m c)
    (hfree : Unblocked m c) : Leaves c.1 m.locks.held (m.prog c.2)
      (fun held => ∀ s, ∀ a ∈ held, a.key ∈ (m.after s c.2).files) := by
  obtain ⟨t, c⟩ := c
  have hheld : ∀ s, ∀ a ∈ m.locks.held, a.key ∈ (m.after s c).files :=
    fun s a ha => mem_after s c (h.held a ha)
  cases c with
  | openRead vp => exact .ret hheld
  | openWrite vp =>
    refine .lock hfree (.ret fun s a ha => ?_) (.ret hheld)
    obtain rfl | ha := List.mem_cons.1 ha
    · exact hfound
    · exact hheld s a ha
  | create parent vp =>
    obtain ⟨hparent, hkind, hnew⟩ := hfound
    have hvp : Free m.locks.held vp := fun a ha hk => hnew (hk ▸ h.held a ha)
    refine create_leaves (h.free (by simp [hparent])) hfree.1 hfree.2 hheld
      (.lock hvp.mayLock (.ret fun s a ha => ?_) (.ret hheld))
    obtain rfl | ha := List.mem_cons.1 ha
    · exact List.mem_cons_self
    · exact hheld s a ha
  | write vp units =>
    exact vfsWriteThen_leaves hfree (h.units hfound.1 hfound.2) (.ret hheld) hheld
  | truncate vp writes =>
    exact vfsTruncate_leaves hfree (fun units hu => h.units hfound.1 (hfound.2 units hu)) hheld
  | read epoch units => exact vfsRead_leaves (fun u hu => h.free (by simp [hfound u hu])) hheld
  | release vp =>
    refine .unlock (.ret fun s a ha => hheld s a ?_)
    rw [heldAfter] at ha
    split at ha
    · exact List.mem_of_mem_erase ha
    · exact ha
  | control epoch => exact .ret hheld
  | refused => exact .ret hheld

theorem Inv.blocks (h : Inv kind m) {c : T × Callback} (hfound : Found kind m c)
    (hblocked : ¬ Unblocked m c) : Blocks c.1 m.locks.held (m.prog c.2) := by
  obtain ⟨t, c⟩ := c
  cases c with
  | openWrite vp => exact .lock hblocked
  | create parent vp => exact create_blocks (h.free (by simp [hfound.1])) hblocked
  | write vp units => exact .lock hblocked
  | truncate vp writes => exact .lock hblocked
  | openRead vp => exact absurd trivial hblocked
  | read epoch units => exact absurd trivial hblocked
  | release vp => exact absurd trivial hblocked
  | control epoch => exact absurd trivial hblocked
  | refused => exact absurd trivial hblocked

theorem Inv.returns_iff (h : Inv kind m) {c : T × Callback} (hfound : Found kind m c) :
    Returns m c ↔ Unblocked m c := by
  constructor
  · intro hreturns
    by_contra hblocked
    rw [Returns, h.blocks hfound hblocked m.locks h.quiet rfl] at hreturns
    cases hreturns
  · intro hfree
    obtain ⟨s', hexec, -⟩ := h.leaves hfound hfree m.locks h.quiet rfl
    rw [Returns, hexec]
    rfl

theorem Inv.step (h : Inv kind m) {c : T × Callback} (hfound : Found kind m c) :
    Inv kind (FuseLock.step m c) := by
  by_cases hfree : Unblocked m c
  · obtain ⟨s', hexec, hquiet, hheld⟩ := h.leaves hfound hfree m.locks h.quiet rfl
    simp only [FuseLock.step, hexec]
    refine ⟨by rwa [after_locks], by rw [after_locks]; exact hheld s', ?_⟩
    obtain ⟨t, c⟩ := c
    cases c with
    | create parent vp =>
      intro v hv
      obtain rfl | hv := List.mem_cons.1 hv
      · exact hfound.2.1
      · exact h.files v hv
    | _ => exact h.files
  · simp only [FuseLock.step, h.blocks hfound hfree m.locks h.quiet rfl]
    exact h

/-- **Which callbacks return.** From a mount with any current epoch and any files, in every sequence
of callbacks on any threads: all of them return if and only if each finds the locks that earlier ones
left out of its way. -/
theorem fuse_callbacks_return_iff (kind : Int → Option Kind) (currentEpoch : Int) (nextNodeId : Nat)
    (files : List Int) (hfiles : ∀ vp ∈ files, kind vp = some .file) (cs : List (T × Callback))
    (hfound : Run.AllSteps step (Found kind) (Mount.fresh currentEpoch nextNodeId files) cs) :
    Run.AllSteps step Returns (Mount.fresh currentEpoch nextNodeId files) cs ↔
      Run.AllSteps step Unblocked (Mount.fresh currentEpoch nextNodeId files) cs := by
  have hinit : Inv kind (Mount.fresh currentEpoch nextNodeId files : Mount T) := by
    refine ⟨Quiet.init, fun a ha => ?_, hfiles⟩
    cases ha
  exact Run.allSteps_congr (Inv kind) (fun m c h hc => h.step hc) (fun m c h hc => h.returns_iff hc)
    hinit hfound

def oneFile (key : Int) : Option Kind :=
  if key = 131072 then some .dir
  else if key = 131074 then some .file
  else if key = 131076 then some .unit
  else none

/-- At epoch `0` a thread may write and cut the file it opened, and another open it after that. -/
theorem fuse_callbacks_return_iff_one_thread :
    Run.AllSteps step Returns (Mount.fresh 0 7 [131074] : Mount Nat)
      [(1, .openWrite 131074), (1, .write 131074 [131076]), (1, .truncate 131074 [[131076], []]),
        (2, .openRead 131074), (2, .read 0 [131076]), (1, .release 131074), (2, .openWrite 131074)] :=
  (fuse_callbacks_return_iff oneFile 0 7 [131074] (by decide) _ (by decide +kernel)).2
    (by decide +kernel)

/-- A file is opened for writing and then written. At epoch `2` the write waits for the lock that the
open took, on whatever thread it runs; at epoch `0` it does so on another thread than the open. -/
theorem write_after_open_waits :
    (Run.AllSteps step (Found oneFile) (Mount.fresh 2 7 [131074] : Mount Nat)
        [(1, .openWrite 131074), (1, .write 131074 [])] ∧
      ¬ Returns (step (Mount.fresh 2 7 [131074]) (1, .openWrite 131074)) (1, .write 131074 [])) ∧
      Run.AllSteps step (Found oneFile) (Mount.fresh 0 7 [131074] : Mount Nat)
        [(1, .openWrite 131074), (2, .write 131074 [])] ∧
      ¬ Returns (step (Mount.fresh 0 7 [131074]) (1, .openWrite 131074)) (2, .write 131074 []) := by
  decide +kernel

end Callbacks

end FuseLock
end SphereVFS
