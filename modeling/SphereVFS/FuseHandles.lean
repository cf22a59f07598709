import SphereVFS.FuseReturns
import Mathlib.Data.List.Basic

/-!
# SphereVFS.FuseHandles

The handles of open files and the locks behind them (`fuse_vfs_open`, `fuse_vfs_create`, `fuse_vfs_release`).

A handle carries the pointer of its file and nothing else, so `release` unlocks the file for every handle,
also for one that was opened for reading, and it does so at the epoch that is current by then. The locks that
are held between callbacks are those of the handles with write access as long as each of these is released at
the epoch it was opened at, at epoch `0` also by the thread that opened it, and as long as no handle for
reading is released where it takes a lock of another handle with it.
-/

namespace SphereVFS
namespace FuseLock

open Lock LockOrder TreeLock

variable {T : Type}

/-- `O_WRONLY | O_RDWR`. -/
def writeFlags : Nat := 3

def writeAccess (flags : Nat) : Bool := flags &&& writeFlags != 0

/-- A handle that is out, with the access it was obtained for, and with the thread and the epoch of the
callback that gave it. -/
structure Handle (T : Type) where
  vp : Int
  writable : Bool
  thread : T
  epoch : Int
  deriving DecidableEq

def Handle.hold (h : Handle T) : Hold T := ⟨h.thread, h.vp, h.epoch⟩

structure Session (T : Type) where
  mount : Mount T
  handles : List (Handle T)

/-- The callbacks on handles, and the `snapshot` command of the control file. -/
inductive Access (T : Type) where
  | opens (t : T) (vp : Int) (flags : Nat)
  | create (t : T) (parent vp : Int)
  | release (t : T) (h : Handle T)
  | snapshot (t : T)
  /-- A callback that fails before it takes a lock, or one on the control file. -/
  | refused (t : T)

/-- The callback as far as locks are concerned. -/
def Session.callback (s : Session T) : Access T → T × Callback
  | .opens t vp flags => (t, if writeAccess flags then .openWrite vp else .openRead vp)
  | .create t parent vp => (t, .create parent vp)
  | .release t h => (t, .release h.vp)
  | .snapshot t => (t, .control (s.mount.currentEpoch + 2))
  | .refused t => (t, .refused)

variable [DecidableEq T]

/-- Every lock of the program was granted, so that its callback succeeds. -/
def granted (t : T) : LockProg → System T → Bool
  | .ret, _ => true
  | .lock key epoch ok _, s =>
    match lockCall s t key epoch with
    | some (true, s') => granted t ok s'
    | _ => false
  | .unlock key epoch next, s => granted t next (unlockCall s t key epoch)

def Session.succeeds (s : Session T) (a : Access T) : Bool :=
  granted (s.callback a).1 (s.mount.prog (s.callback a).2) s.mount.locks

def Session.step (s : Session T) (a : Access T) : Session T where
  mount := FuseLock.step s.mount (s.callback a)
  handles :=
    match a with
    | .opens t vp flags =>
      if s.succeeds a then ⟨vp, writeAccess flags, t, s.mount.currentEpoch⟩ :: s.handles else s.handles
    | .create t _ vp =>
      if s.succeeds a then ⟨vp, true, t, s.mount.currentEpoch⟩ :: s.handles else s.handles
    | .release _ h => s.handles.erase h
    | .snapshot _ => s.handles
    | .refused _ => s.handles

def Session.Matches (s : Session T) : Access T → Prop
  | .release _ h => h ∈ s.handles
  | _ => True

structure Session.Enabled (kind : Int → Option Kind) (s : Session T) (a : Access T) : Prop where
  found : Found kind s.mount (s.callback a)
  returns : Returns s.mount (s.callback a)
  given : s.Matches a

def IsLocked (s : System T) (key : Int) : Prop :=
  ∃ f, s.table key = some f ∧ (f.globalHeld = true ∨ 0 < f.totalEpochHolders)

def Session.Accounted (s : Session T) : Prop :=
  ∀ vp, IsLocked s.mount.locks vp ↔ ∃ h ∈ s.handles, h.writable = true ∧ h.vp = vp

/-- What a release must find: for a handle with write access, the epoch it was opened at, and at epoch `0` the
thread as well; for a handle without, no lock of the file that this release would take from another handle. -/
def Session.InPlace (s : Session T) : Access T → Prop
  | .release t h =>
    if h.writable = true then h.epoch = s.mount.currentEpoch ∧ (h.epoch = 0 → h.thread = t)
    else ∀ g ∈ s.handles, g.writable = true → ¬ endsHold t h.vp s.mount.currentEpoch g.hold = true
  | _ => True

def Session.fresh (currentEpoch : Int) (nextNodeId : Nat) (files : List Int) : Session T :=
  ⟨.fresh currentEpoch nextNodeId files, []⟩

instance Session.Matches.decidable (s : Session T) : (a : Access T) → Decidable (s.Matches a)
  | .opens _ _ _ => isTrue trivial
  | .create _ _ _ => isTrue trivial
  | .release _ h => inferInstanceAs (Decidable (h ∈ s.handles))
  | .snapshot _ => isTrue trivial
  | .refused _ => isTrue trivial

instance Session.Enabled.decidable (kind : Int → Option Kind) (s : Session T) (a : Access T) :
    Decidable (s.Enabled kind a) :=
  decidable_of_iff (Found kind s.mount (s.callback a) ∧ Returns s.mount (s.callback a) ∧ s.Matches a)
    ⟨fun h => ⟨h.1, h.2.1, h.2.2⟩, fun h => ⟨h.found, h.returns, h.given⟩⟩

instance Session.InPlace.decidable (s : Session T) : (a : Access T) → Decidable (s.InPlace a)
  | .opens _ _ _ => isTrue trivial
  | .create _ _ _ => isTrue trivial
  | .release t h => inferInstanceAs (Decidable
      (if h.writable = true then h.epoch = s.mount.currentEpoch ∧ (h.epoch = 0 → h.thread = t)
        else ∀ g ∈ s.handles, g.writable = true → ¬ endsHold t h.vp s.mount.currentEpoch g.hold = true))
  | .snapshot _ => isTrue trivial
  | .refused _ => isTrue trivial

/-! ## Programs that are granted -/

section Programs

variable {t : T} {held : List (Hold T)} {key epoch : Int} {Q : Bool → List (Hold T) → Prop}

/-- From the held locks `held` the program returns; `Q` says which locks it leaves if it was granted all of its
own, and which if not. -/
def Settles (t : T) (held : List (Hold T)) (p : LockProg) (Q : Bool → List (Hold T) → Prop) : Prop :=
  ∀ s : System T, Quiet s → s.held = held →
    ∃ s', exec t p s = some s' ∧ Quiet s' ∧ Q (granted t p s) s'.held

theorem Settles.ret (hQ : Q true held) : Settles t held .ret Q := by
  rintro s hs rfl
  exact ⟨s, rfl, hs, hQ⟩

theorem Settles.unlock {next : LockProg} (h : Settles t (heldAfter held t key epoch) next Q) :
    Settles t held (.unlock key epoch next) Q := by
  rintro s hs rfl
  obtain ⟨hquiet, hheld⟩ := unlockCall_spec hs t key epoch
  exact h _ hquiet hheld

theorem Settles.lock {ok fail : LockProg} (hmay : MayLock held t key epoch)
    (hok : Settles t (⟨t, key, epoch⟩ :: held) ok Q) (hfail : Leaves t held fail (Q false)) :
    Settles t held (.lock key epoch ok fail) Q := by
  rintro s hs rfl
  obtain ⟨b, s', hcall, hquiet, hheld, -⟩ := lockCall_some hs hmay
  rw [exec, granted, hcall]
  cases b with
  | true => exact hok s' hquiet hheld
  | false => exact hfail s' hquiet hheld

theorem heldAfter_cons (t : T) (key epoch : Int) (held : List (Hold T)) :
    heldAfter (⟨t, key, epoch⟩ :: held) t key epoch = held := by
  have hends : endsHold t key epoch ⟨t, key, epoch⟩ = true := endsHold_iff.2 ⟨rfl, rfl, fun _ => rfl⟩
  simp [heldAfter, List.find?_cons_of_pos hends]

theorem Settles.giveBack {next : LockProg} (h : Settles t held next Q) :
    Settles t (⟨t, key, epoch⟩ :: held) (.unlock key epoch next) Q :=
  .unlock (by rwa [heldAfter_cons])

def withLock (a : Hold T) (held : List (Hold T)) (ok : Bool) (held' : List (Hold T)) : Prop :=
  held' = if ok = true then a :: held else held

theorem create_settles {parent id vp : Int} (hparent : Free held parent) (hvp : Free held vp)
    (hid : MayLock held t id epoch) (hne : epoch ≠ 0 → id ≠ parent) :
    Settles t held (lockParentThenChild parent id epoch (.lock vp epoch .ret .ret))
      (withLock ⟨t, vp, epoch⟩ held) := by
  have hsame : withLock ⟨t, vp, epoch⟩ held false held := rfl
  refine .lock hparent.mayLock (.lock (mayLock_child hid hne) ?_ (Leaves.ret hsame).giveBack) (.ret hsame)
  exact (Settles.lock hvp.mayLock (.ret rfl) (.ret hsame)).giveBack.giveBack

end Programs

/-! ## The invariant -/

def writers (handles : List (Handle T)) : List (Hold T) :=
  (handles.filter Handle.writable).map Handle.hold

structure Session.Inv (kind : Int → Option Kind) (s : Session T) : Prop where
  mount : FuseLock.Inv kind s.mount
  locks : s.mount.locks.held.Perm (writers s.handles)

variable {kind : Int → Option Kind} {s : Session T}

omit [DecidableEq T] in
theorem mem_writers {handles : List (Handle T)} {a : Hold T} :
    a ∈ writers handles ↔ ∃ h ∈ handles, h.writable = true ∧ h.hold = a := by
  simp only [writers, List.mem_map, List.mem_filter, and_assoc]

theorem writers_erase {handles : List (Handle T)} {h : Handle T} (hmem : h ∈ handles) :
    (writers handles).Perm
      (if h.writable = true then h.hold :: writers (handles.erase h) else writers (handles.erase h)) := by
  have hperm := ((List.perm_cons_erase hmem).filter Handle.writable).map Handle.hold
  split
  · rename_i hw
    rwa [List.filter_cons_of_pos hw] at hperm
  · rename_i hw
    rwa [List.filter_cons_of_neg hw] at hperm

omit [DecidableEq T] in
theorem isLocked_iff {l : System T} (h : Quiet l) {key : Int} : IsLocked l key ↔ ∃ a ∈ l.held, a.key = key := by
  constructor
  · rintro ⟨f, hf, hbusy⟩
    have hkey := h.inv.entry key f hf
    obtain hheld | htotal := hbusy
    · obtain ⟨a, ha, -⟩ := (held_iff hkey).1 hheld
      exact ⟨a, mem_holdsOf.1 ha⟩
    · obtain ⟨a, ha, -⟩ := (total_pos_iff hkey).1 htotal
      exact ⟨a, mem_holdsOf.1 ha⟩
  · rintro ⟨a, ha, rfl⟩
    have hin : a ∈ holdsOf l a.key := mem_holdsOf.2 ⟨ha, rfl⟩
    cases htable : l.table a.key with
    | none =>
      rw [(h.inv.absent a.key htable).1] at hin
      cases hin
    | some f =>
      have hkey := h.inv.entry a.key f htable
      refine ⟨f, htable, ?_⟩
      by_cases hepoch : a.epoch = 0
      · exact .inl ((held_iff hkey).2 ⟨a, hin, hepoch⟩)
      · exact .inr ((total_pos_iff hkey).2 ⟨a, hin, hepoch⟩)

omit [DecidableEq T] in
theorem Session.Inv.accounted (h : s.Inv kind) : s.Accounted := by
  intro vp
  rw [isLocked_iff h.mount.quiet]
  constructor
  · rintro ⟨a, ha, rfl⟩
    obtain ⟨g, hg, hw, rfl⟩ := mem_writers.1 (h.locks.mem_iff.1 ha)
    exact ⟨g, hg, hw, rfl⟩
  · rintro ⟨g, hg, hw, rfl⟩
    exact ⟨g.hold, h.locks.mem_iff.2 (mem_writers.2 ⟨g, hg, hw, rfl⟩), rfl⟩

theorem step_locks {m : Mount T} {c : T × Callback} {l : System T} (hexec : exec c.1 (m.prog c.2) m.locks = some l) :
    (FuseLock.step m c).locks = l := by
  simp only [FuseLock.step, hexec, after_locks]

omit [DecidableEq T] in
theorem withLock.perm {h : Handle T} {handles : List (Handle T)} {held held' : List (Hold T)} {ok : Bool}
    (hlock : withLock h.hold held ok held') (hw : h.writable = true) (hperm : held.Perm (writers handles)) :
    held'.Perm (writers (if ok = true then h :: handles else handles)) := by
  rw [hlock]
  cases ok with
  | true =>
    rw [if_pos rfl, if_pos rfl, writers, List.filter_cons_of_pos hw]
    exact hperm.cons h.hold
  | false => exact hperm

theorem Session.Inv.opens (h : s.Inv kind) {t : T} {vp : Int} {flags : Nat}
    (hen : s.Enabled kind (.opens t vp flags)) :
    (s.step (.opens t vp flags)).mount.locks.held.Perm (writers (s.step (.opens t vp flags)).handles) := by
  have hfree := (h.mount.returns_iff hen.found).1 hen.returns
  by_cases hw : writeAccess flags = true
  · have hcall : s.callback (.opens t vp flags) = (t, .openWrite vp) := by simp only [Session.callback, if_pos hw]
    rw [hcall] at hfree
    have hsettles : Settles t s.mount.locks.held (s.mount.prog (.openWrite vp))
        (withLock ⟨t, vp, s.mount.currentEpoch⟩ s.mount.locks.held) := .lock hfree (.ret rfl) (.ret rfl)
    obtain ⟨l, hexec, -, hlock⟩ := hsettles s.mount.locks h.mount.quiet rfl
    simp only [Session.step, Session.succeeds, hcall, step_locks (c := (t, .openWrite vp)) hexec]
    exact withLock.perm (h := ⟨vp, writeAccess flags, t, s.mount.currentEpoch⟩) hlock hw h.locks
  · have hcall : s.callback (.opens t vp flags) = (t, .openRead vp) := by simp only [Session.callback, if_neg hw]
    have hlocks : (FuseLock.step s.mount (t, .openRead vp)).locks = s.mount.locks := rfl
    have hsucceeds : s.succeeds (.opens t vp flags) = true := by
      rw [Session.succeeds, hcall]
      rfl
    have hwriters : writers (⟨vp, writeAccess flags, t, s.mount.currentEpoch⟩ :: s.handles) = writers s.handles := by
      simp only [writers, List.filter_cons, if_neg hw]
    simp only [Session.step, hsucceeds, hcall, if_true, hlocks, hwriters]
    exact h.locks

theorem Session.Inv.create (h : s.Inv kind) {t : T} {parent vp : Int}
    (hen : s.Enabled kind (.create t parent vp)) :
    (s.step (.create t parent vp)).mount.locks.held.Perm (writers (s.step (.create t parent vp)).handles) := by
  have hfree := (h.mount.returns_iff hen.found).1 hen.returns
  obtain ⟨hparent, -, hnew⟩ := hen.found
  have hvp : Free s.mount.locks.held vp := fun a ha hk => hnew (hk ▸ h.mount.held a ha)
  have hsettles := create_settles (h.mount.free (by simp [hparent])) hvp hfree.1 hfree.2
  obtain ⟨l, hexec, -, hlock⟩ := hsettles s.mount.locks h.mount.quiet rfl
  have hlocks := step_locks (m := s.mount) (c := (t, .create parent vp)) hexec
  simp only [Session.step, Session.callback, hlocks]
  exact withLock.perm (h := ⟨vp, true, t, s.mount.currentEpoch⟩) hlock rfl h.locks

theorem Session.Inv.heldAfter_hold (h : s.Inv kind) {t : T} {g : Handle T} (hmem : g ∈ s.handles)
    (hw : g.writable = true) (hepoch : g.epoch = s.mount.currentEpoch) (hthread : g.epoch = 0 → g.thread = t) :
    heldAfter s.mount.locks.held t g.vp s.mount.currentEpoch = s.mount.locks.held.erase g.hold := by
  have hheld : g.hold ∈ s.mount.locks.held := h.locks.mem_iff.2 (mem_writers.2 ⟨g, hmem, hw, rfl⟩)
  have hends : endsHold t g.vp s.mount.currentEpoch g.hold = true :=
    endsHold_iff.2 ⟨rfl, hepoch, fun hzero => hthread (hepoch.trans hzero)⟩
  rw [heldAfter]
  cases hfind : s.mount.locks.held.find? (endsHold t g.vp s.mount.currentEpoch) with
  | none => exact absurd hends (List.find?_eq_none.1 hfind g.hold hheld)
  | some a =>
    have ha := List.mem_of_find?_eq_some hfind
    obtain ⟨hkey, hae, hat⟩ := endsHold_iff.1 (List.find?_some hfind)
    obtain ⟨u, key, epoch⟩ := a
    obtain rfl : key = g.vp := hkey
    obtain rfl : epoch = g.epoch := hae.trans hepoch.symm
    have hu : u = g.thread := by
      by_cases hzero : g.epoch = 0
      · exact (hat (hepoch.symm.trans hzero)).trans (hthread hzero).symm
      · exact h.mount.quiet.inv.epochExclusive g.vp g.epoch u g.thread hzero ha hheld
    rw [hu, Handle.hold]

theorem Session.Inv.release (h : s.Inv kind) {t : T} {g : Handle T} (hmem : g ∈ s.handles)
    (hplace : s.InPlace (.release t g)) :
    (s.step (.release t g)).mount.locks.held.Perm (writers (s.step (.release t g)).handles) := by
  have hlocks : (FuseLock.step s.mount (t, .release g.vp)).locks =
      unlockCall s.mount.locks t g.vp s.mount.currentEpoch := rfl
  have herase := h.locks.trans (writers_erase hmem)
  simp only [Session.step, Session.callback, hlocks, (unlockCall_spec h.mount.quiet _ _ _).2]
  rw [Session.InPlace] at hplace
  split at hplace
  · rename_i hw
    rw [h.heldAfter_hold hmem hw hplace.1 hplace.2]
    rw [if_pos hw] at herase
    have := herase.erase g.hold
    rwa [List.erase_cons_head] at this
  · rename_i hw
    rw [if_neg hw] at herase
    have hnone : s.mount.locks.held.find? (endsHold t g.vp s.mount.currentEpoch) = none := by
      refine List.find?_eq_none.2 fun a ha => ?_
      obtain ⟨k, hk, hkw, rfl⟩ := mem_writers.1 (h.locks.mem_iff.1 ha)
      exact hplace k hk hkw
    rwa [heldAfter, hnone]

theorem Session.Inv.step (h : s.Inv kind) {a : Access T} (hen : s.Enabled kind a) (hplace : s.InPlace a) :
    (s.step a).Inv kind := by
  refine ⟨h.mount.step hen.found, ?_⟩
  cases a with
  | opens t vp flags => exact h.opens hen
  | create t parent vp => exact h.create hen
  | release t g => exact h.release hen.given hplace
  | snapshot t => exact h.locks
  | refused t => exact h.locks

omit [DecidableEq T] in
theorem Session.Inv.fresh (currentEpoch : Int) (nextNodeId : Nat) {files : List Int}
    (hfiles : ∀ vp ∈ files, kind vp = some .file) :
    (Session.fresh currentEpoch nextNodeId files : Session T).Inv kind := by
  refine ⟨⟨Quiet.init, fun a ha => ?_, hfiles⟩, .refl []⟩
  cases ha

/-- In every sequence of callbacks that return, with every release in place, a file is locked iff a handle for
writing is out, and without handles nothing is locked. -/
theorem fuse_handle_locks (kind : Int → Option Kind) (currentEpoch : Int) (nextNodeId : Nat) (files : List Int)
    (hfiles : ∀ vp ∈ files, kind vp = some .file) (as : List (Access T))
    (hen : Run.AllSteps Session.step (Session.Enabled kind) (Session.fresh currentEpoch nextNodeId files) as)
    (hplace : Run.AllSteps Session.step Session.InPlace (Session.fresh currentEpoch nextNodeId files) as) :
    let s := as.foldl Session.step (Session.fresh currentEpoch nextNodeId files)
    s.Accounted ∧ (s.handles = [] → ∀ key, ¬ IsLocked s.mount.locks key) := by
  intro s
  have hinv : s.Inv kind := Run.invariant (Session.Inv kind) (fun _ _ h hc => h.step hc.1 hc.2)
    (.fresh currentEpoch nextNodeId hfiles) (hen.and hplace)
  refine ⟨hinv.accounted, fun hnone key hlocked => ?_⟩
  obtain ⟨h, hmem, -⟩ := (hinv.accounted key).1 hlocked
  rw [hnone] at hmem
  cases hmem

/-- A file is opened by a writer and a reader, which close it one after the other; then a snapshot is taken, and
the file is opened and closed again at the new epoch. -/
def politeHandles : List (Access Nat) :=
  [.opens 1 131074 2, .opens 2 131074 0, .release 2 ⟨131074, false, 2, 0⟩, .release 1 ⟨131074, true, 1, 0⟩,
    .snapshot 1, .opens 2 131074 1, .release 3 ⟨131074, true, 2, 2⟩]

theorem fuse_handle_locks_polite :
    (politeHandles.foldl Session.step (Session.fresh 0 7 [131074])).handles = [] ∧
      ∀ key, ¬ IsLocked (politeHandles.foldl Session.step (Session.fresh 0 7 [131074])).mount.locks key :=
  ⟨by decide +kernel, (fuse_handle_locks oneFile 0 7 [131074] (by decide) politeHandles (by decide +kernel)
    (by decide +kernel)).2 (by decide +kernel)⟩

/-- A snapshot between the open and the release of a handle leaves the file locked without a handle. -/
def snapshotBetween : List (Access Nat) :=
  [.opens 1 131074 2, .snapshot 1, .release 1 ⟨131074, true, 1, 0⟩]

/-- The release of a reader at epoch `2` unlocks the file of a writer. -/
def readerLeaves : List (Access Nat) :=
  [.opens 1 131074 2, .opens 2 131074 0, .release 2 ⟨131074, false, 2, 2⟩]

theorem release_at_other_epoch_or_of_reader :
    (Run.AllSteps Session.step (Session.Enabled oneFile) (Session.fresh 0 7 [131074]) snapshotBetween ∧
      (snapshotBetween.foldl Session.step (Session.fresh 0 7 [131074])).handles = [] ∧
      IsLocked (snapshotBetween.foldl Session.step (Session.fresh 0 7 [131074])).mount.locks 131074) ∧
      Run.AllSteps Session.step (Session.Enabled oneFile) (Session.fresh 2 7 [131074]) readerLeaves ∧
      (readerLeaves.foldl Session.step (Session.fresh 2 7 [131074])).handles = [⟨131074, true, 1, 2⟩] ∧
      ¬ IsLocked (readerLeaves.foldl Session.step (Session.fresh 2 7 [131074])).mount.locks 131074 := by
  refine ⟨⟨by decide +kernel, by decide +kernel, _, rfl, by decide +kernel⟩, by decide +kernel, by decide +kernel, ?_⟩
  rintro ⟨f, hf, -⟩
  cases hf

end FuseLock
end SphereVFS
