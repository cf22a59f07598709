import SphereVFS.TreeLocks

/-!
# SphereVFS.Deadlock

The tree operations never wait for each other in a circle, unless a node id is the number of a
directory's pointer.

Every operation asks for keys in the order of `rank`: directories by their pointer, then files, then
everything else. A thread that waits therefore holds only keys below the one it waits for.
-/

namespace SphereVFS
namespace TreeLock

open Lock LockOrder

/-! ## The order of the keys -/

section Order

variable (kind : Int → Option Kind)

def rank (key : Int) : Nat ×ₗ Int :=
  match kind key with
  | some .dir => toLex (0, key)
  | some .file => toLex (1, 0)
  | _ => toLex (2, 0)

variable {kind} {a b : Int}

theorem rank_lt_dir (ha : kind a = some .dir) (hb : kind b = some .dir) (h : a < b) :
    rank kind a < rank kind b := by
  simp [rank, ha, hb, Prod.Lex.toLex_lt_toLex, h]

theorem rank_lt_child (ha : kind a = some .dir) (hb : kind b ≠ some .dir) :
    rank kind a < rank kind b := by
  cases hk : kind b with
  | none => simp [rank, ha, hk, Prod.Lex.toLex_lt_toLex]
  | some k =>
    cases k with
    | dir => exact absurd hk hb
    | file => simp [rank, ha, hk, Prod.Lex.toLex_lt_toLex]
    | unit => simp [rank, ha, hk, Prod.Lex.toLex_lt_toLex]

theorem rank_lt_unit (ha : kind a = some .file) (hb : kind b = some .unit) :
    rank kind a < rank kind b := by
  simp [rank, ha, hb, Prod.Lex.toLex_lt_toLex]

end Order

/-! ## Every operation keeps to the order -/

section Operations

variable {kind : Int → Option Kind} {epoch : Int}

theorem lockParentThenChild_ordered {parent newNodeId : Int} (hparent : kind parent = some .dir)
    (hid : kind newNodeId ≠ some .dir) :
    Ordered (rank kind) [] (lockParentThenChild parent newNodeId epoch .ret) := by
  have hrank := rank_lt_child hparent hid
  simp [lockParentThenChild, Ordered, hrank]

theorem lockChild_ordered (foundChildId : Int) :
    Ordered (rank kind) [] (lockChild foundChildId epoch) := by
  simp [lockChild, Ordered]

theorem unlockParents_ordered {srcParent dstParent : Int} {held : List (Int × Int)}
    (heq : srcParent = dstParent → held = [(srcParent, epoch)])
    (hne : srcParent ≠ dstParent → held = [(srcParent, epoch), (dstParent, epoch)] ∨
      held = [(dstParent, epoch), (srcParent, epoch)]) :
    Ordered (rank kind) held (unlockParents srcParent dstParent epoch) := by
  by_cases h : srcParent = dstParent
  · rw [heq h]
    simp [unlockParents, Ordered, h]
  · obtain rfl | rfl := hne h
    · simp [unlockParents, Ordered, h]
    · simp [unlockParents, Ordered, h, Ne.symm h]

theorem renameChild_ordered {srcParent dstParent childId : Int} {held : List (Int × Int)}
    (hsrc : kind srcParent = some .dir) (hdst : kind dstParent = some .dir)
    (hid : kind childId ≠ some .dir)
    (heq : srcParent = dstParent → held = [(srcParent, epoch)])
    (hne : srcParent ≠ dstParent → held = [(srcParent, epoch), (dstParent, epoch)] ∨
      held = [(dstParent, epoch), (srcParent, epoch)]) :
    Ordered (rank kind) held (renameChild srcParent dstParent childId epoch) := by
  have hparents : Ordered (rank kind) held (unlockParents srcParent dstParent epoch) :=
    unlockParents_ordered heq hne
  refine ⟨fun h hh => ?_, ⟨List.mem_cons_self, ?_⟩, hparents⟩
  · have hkey : h.1 = srcParent ∨ h.1 = dstParent := by
      by_cases hparent : srcParent = dstParent
      · rw [heq hparent] at hh
        simp only [List.mem_singleton] at hh
        exact .inl (by rw [hh])
      · obtain rfl | rfl := hne hparent <;>
          simp only [List.mem_cons, List.not_mem_nil, or_false] at hh <;>
          obtain rfl | rfl := hh <;> simp
    obtain hkey | hkey := hkey
    · rw [hkey]
      exact rank_lt_child hsrc hid
    · rw [hkey]
      exact rank_lt_child hdst hid
  · rwa [List.erase_cons_head]

theorem vfsRename_ordered {srcParent dstParent childId : Int} (hsrc : kind srcParent = some .dir)
    (hdst : kind dstParent = some .dir) (hid : kind childId ≠ some .dir) :
    Ordered (rank kind) [] (vfsRename srcParent dstParent childId epoch) := by
  unfold vfsRename
  split
  · rename_i hle
    refine ⟨by simp, ?_, rfl⟩
    split
    · rename_i heq
      exact renameChild_ordered hsrc hdst hid (fun _ => rfl) (fun hne => absurd heq hne)
    · rename_i hne
      have hlt : srcParent < dstParent := hle.resolve_right hne
      refine ⟨by simpa using rank_lt_dir hsrc hdst hlt, ?_, by simp [Ordered]⟩
      exact renameChild_ordered hsrc hdst hid (fun heq => absurd heq hne) (fun _ => .inr rfl)
  · rename_i hle
    rw [not_or, not_lt] at hle
    have hlt : dstParent < srcParent := lt_of_le_of_ne hle.1 (Ne.symm hle.2)
    refine ⟨by simp, ⟨by simpa using rank_lt_dir hdst hsrc hlt, ?_, by simp [Ordered]⟩, rfl⟩
    exact renameChild_ordered hsrc hdst hid (fun heq => absurd heq hle.2) (fun _ => .inl rfl)

theorem vfsWriteThen_ordered {file : Int} {units : List Int} {next : LockProg}
    (hfile : kind file = some .file) (hunits : ∀ u ∈ units, kind u = some .unit)
    (hnext : Ordered (rank kind) [] next) :
    Ordered (rank kind) [] (vfsWriteThen file epoch units next) := by
  refine ⟨by simp, ?_, rfl⟩
  induction units with
  | nil => simpa [writeUnits, Ordered] using hnext
  | cons unit units ih =>
    have hrank := rank_lt_unit hfile (hunits unit List.mem_cons_self)
    have hrest := ih fun u hu => hunits u (List.mem_cons_of_mem _ hu)
    simpa [writeUnits, Ordered, hrank] using hrest

theorem growWrites_ordered {file : Int} {writes : List (List Int)} (hfile : kind file = some .file)
    (hunits : ∀ units ∈ writes, ∀ u ∈ units, kind u = some .unit) :
    Ordered (rank kind) [] (growWrites file epoch writes) := by
  induction writes with
  | nil => rfl
  | cons units rest ih =>
    refine vfsWriteThen_ordered hfile (hunits units List.mem_cons_self) (ih fun us hus => ?_)
    exact hunits us (List.mem_cons_of_mem _ hus)

end Operations

/-! ## The invariant -/

variable {T : Type} {s : TreeSys T}

/-- What thread `t` holds, and what is left of its operation, keep to the order. -/
def Keeps [DecidableEq T] (kind : Int → Option Kind) (s : TreeSys T) (t : T) : Prop :=
  ∃ held, Ordered (rank kind) held (s.progs t) ∧
    ∀ key epoch, s.locks.held.count ⟨t, key, epoch⟩ = held.count (key, epoch)

structure Inv [DecidableEq T] (kind : Int → Option Kind) (s : TreeSys T) : Prop where
  locks : Lock.Inv s.locks
  /-- A call of `vfs_lock` that has not returned is where its thread is. -/
  asks : ∀ r ∈ s.locks.requests, ∃ ok fail, s.progs r.thread = .lock r.key r.epoch ok fail
  single : (s.locks.requests.map Request.thread).Nodup
  keeps : ∀ t, Keeps kind s t
  ids : ∀ id ∈ s.nodeIds, kind id ≠ some .dir

theorem Inv.init [DecidableEq T] (kind : Int → Option Kind) : Inv kind (TreeSys.init : TreeSys T) := by
  refine ⟨Lock.Inv.init, ?_, ?_, fun t => ⟨[], rfl, ?_⟩, ?_⟩ <;> simp [TreeSys.init, System.init]

variable [DecidableEq T] {kind : Int → Option Kind}

/-- Other threads than the one that moves see neither its program nor its holds change. -/
theorem Keeps.other {s' : TreeSys T} {t : T} (h : Keeps kind s t) (hprog : s'.progs t = s.progs t)
    (hheld : ∀ key epoch, s'.locks.held.count ⟨t, key, epoch⟩ = s.locks.held.count ⟨t, key, epoch⟩) :
    Keeps kind s' t := by
  obtain ⟨held, hord, hcount⟩ := h
  exact ⟨held, hprog ▸ hord, fun key epoch => (hheld key epoch).trans (hcount key epoch)⟩

theorem Keeps.begin {t : T} {p : LockProg} (h : Keeps kind s t) (hidle : s.progs t = .ret)
    (hp : Ordered (rank kind) [] p) : Keeps kind (s.begin t p) t := by
  obtain ⟨held, hord, hcount⟩ := h
  rw [hidle] at hord
  obtain rfl : held = [] := hord
  exact ⟨[], by simpa [TreeSys.begin] using hp, hcount⟩

theorem Inv.begin (h : Inv kind s) {t : T} {p : LockProg} (hidle : s.progs t = .ret)
    (hp : Ordered (rank kind) [] p) : Inv kind (s.begin t p) := by
  refine ⟨h.locks, fun r hr => ?_, h.single, fun u => ?_, h.ids⟩
  · obtain ⟨ok, fail, hr'⟩ := h.asks r hr
    have hne : r.thread ≠ t := by
      rintro rfl
      rw [hidle] at hr'
      cases hr'
    exact ⟨ok, fail, (Function.update_of_ne hne _ _).trans hr'⟩
  · by_cases hu : u = t
    · subst hu
      exact (h.keeps u).begin hidle hp
    · exact (h.keeps u).other (Function.update_of_ne hu _ _) (fun _ _ => rfl)

theorem Inv.takeNodeId (h : Inv kind s) (hid : kind s.newNodeId ≠ some .dir) :
    Inv kind s.takeNodeId := by
  refine ⟨h.locks, h.asks, h.single, h.keeps, fun id hmem => ?_⟩
  obtain rfl | hmem := List.mem_cons.1 hmem
  · exact hid
  · exact h.ids id hmem

theorem Inv.call (h : Inv kind s) {t : T} {c : Call} (hen : Enabled kind s (.call t c))
    (hid : FreshId kind s (.call t c)) : Inv kind (callStep s t c) := by
  obtain ⟨hidle, hfound⟩ := hen
  cases c with
  | create parent epoch =>
    exact (h.takeNodeId hid).begin hidle (lockParentThenChild_ordered hfound hid)
  | mkdir parent epoch =>
    exact (h.takeNodeId hid).begin hidle (lockParentThenChild_ordered hfound hid)
  | delete foundChildId epoch => exact h.begin hidle (lockChild_ordered foundChildId)
  | rmdir foundChildId epoch => exact h.begin hidle (lockChild_ordered foundChildId)
  | rename srcParent dstParent childId epoch =>
    exact h.begin hidle (vfsRename_ordered hfound.1 hfound.2.1 (h.ids childId hfound.2.2))
  | write file epoch units => exact h.begin hidle (vfsWriteThen_ordered hfound.1 hfound.2 rfl)
  | truncate file epoch writes =>
    refine h.begin hidle ⟨by simp, ⟨List.mem_cons_self, ?_⟩, rfl⟩
    rw [List.erase_cons_head]
    exact growWrites_ordered hfound.1 hfound.2

theorem Inv.enter (h : Inv kind s) {t : T} (hen : Enabled kind s (.enter t)) :
    Inv kind (step s (.enter t)) := by
  obtain ⟨hlock, hnone⟩ := hen
  obtain ⟨key, epoch, ok, fail, hprog⟩ := Prog.isLock_iff.1 hlock
  simp only [step, hprog]
  refine ⟨h.locks.enter t key epoch, fun r hr => ?_, ?_, fun u => h.keeps u, h.ids⟩
  · obtain rfl | hr := List.mem_cons.1 hr
    · exact ⟨ok, fail, hprog⟩
    · exact h.asks r hr
  · show (t :: s.locks.requests.map Request.thread).Nodup
    rw [List.nodup_cons]
    refine ⟨fun hmem => ?_, h.single⟩
    obtain ⟨r, hr, hrt⟩ := List.mem_map.1 hmem
    exact hnone r hr hrt

theorem Inv.asks_erase (h : Inv kind s) {r : Request T} (hr : r ∈ s.locks.requests) (p : LockProg) :
    (∀ q ∈ s.locks.requests.erase r,
      ∃ ok fail, Function.update s.progs r.thread p q.thread = .lock q.key q.epoch ok fail) ∧
      (r.thread :: (s.locks.requests.erase r).map Request.thread).Nodup := by
  have hnodup : (r.thread :: (s.locks.requests.erase r).map Request.thread).Nodup :=
    ((List.perm_cons_erase hr).map Request.thread).nodup_iff.1 h.single
  refine ⟨fun q hq => ?_, hnodup⟩
  have hne : q.thread ≠ r.thread := by
    intro heq
    exact (List.nodup_cons.1 hnodup).1 (heq ▸ List.mem_map_of_mem hq)
  rw [Function.update_of_ne hne]
  exact h.asks q (List.mem_of_mem_erase hq)

theorem Inv.resume (h : Inv kind s) {r : Request T} (hr : r ∈ s.locks.requests) :
    Inv kind (step s (.resume r)) := by
  obtain ⟨f, htable⟩ := h.locks.table_some hr
  obtain ⟨ok, fail, hprog⟩ := h.asks r hr
  obtain ⟨held, hord, hcount⟩ := h.keeps r.thread
  rw [hprog] at hord
  obtain ⟨-, hok, hfail⟩ := hord
  have hlocks := h.locks.resume hr
  simp only [Lock.step, resumeRequest, htable] at hlocks
  simp only [step, Lock.step, resumeRequest, outcome, htable]
  cases hres : (lockSection r.thread r.epoch r.phase f).1 with
  | acquired =>
    rw [hres] at hlocks
    obtain ⟨hasks, hnodup⟩ := h.asks_erase hr ok
    simp only [hprog, proceed]
    refine ⟨hlocks, hasks, (List.nodup_cons.1 hnodup).2, fun u => ?_, h.ids⟩
    by_cases hu : u = r.thread
    · subst hu
      refine ⟨(r.key, r.epoch) :: held, by simpa using hok, fun key epoch => ?_⟩
      simp [List.count_cons, hcount]
    · refine (h.keeps u).other (Function.update_of_ne hu _ _) (fun key epoch => ?_)
      rw [List.count_cons_of_ne]
      simp [Ne.symm hu]
  | waits phase =>
    rw [hres] at hlocks
    obtain ⟨hasks, hnodup⟩ := h.asks_erase hr (s.progs r.thread)
    simp only [hprog, proceed]
    rw [← hprog]
    refine ⟨hlocks, fun q hq => ?_, hnodup, fun u => ?_, h.ids⟩
    · obtain rfl | hq := List.mem_cons.1 hq
      · exact ⟨ok, fail, (Function.update_self _ _ _).trans hprog⟩
      · exact hasks q hq
    · refine (h.keeps u).other ?_ (fun _ _ => rfl)
      rw [Function.update_eq_self]
  | overflow =>
    rw [hres] at hlocks
    obtain ⟨hasks, hnodup⟩ := h.asks_erase hr fail
    simp only [hprog, proceed]
    refine ⟨hlocks, hasks, (List.nodup_cons.1 hnodup).2, fun u => ?_, h.ids⟩
    by_cases hu : u = r.thread
    · subst hu
      exact ⟨held, by simpa using hfail, hcount⟩
    · exact (h.keeps u).other (Function.update_of_ne hu _ _) (fun _ _ => rfl)

theorem Inv.unlock (h : Inv kind s) {t : T} (hen : Enabled kind s (.unlock t)) :
    Inv kind (step s (.unlock t)) := by
  obtain ⟨key, epoch, next, hprog⟩ := Prog.isUnlock_iff.1 hen
  obtain ⟨held, hord, hcount⟩ := h.keeps t
  rw [hprog] at hord
  obtain ⟨hmem, hnext⟩ := hord
  -- the thread holds what it unlocks, so the unlock succeeds
  have hheld : (⟨t, key, epoch⟩ : Hold T) ∈ s.locks.held := by
    rw [← List.count_pos_iff, hcount]
    exact List.count_pos_iff.2 hmem
  have hlocks := h.locks.unlock hheld
  obtain ⟨hrequests, hafter⟩ := unlock_held h.locks hheld
  simp only [step, hprog]
  refine ⟨hlocks, fun r hr => ?_, ?_, fun u => ?_, h.ids⟩
  · rw [hrequests] at hr
    obtain ⟨ok, fail, hr'⟩ := h.asks r hr
    have hne : r.thread ≠ t := by
      rintro rfl
      rw [hprog] at hr'
      cases hr'
    exact ⟨ok, fail, (Function.update_of_ne hne _ _).trans hr'⟩
  · rw [hrequests]
    exact h.single
  · by_cases hu : u = t
    · subst hu
      refine ⟨held.erase (key, epoch), by simpa using hnext, fun k e => ?_⟩
      rw [hafter, List.count_erase, List.count_erase, hcount]
      simp
    · refine (h.keeps u).other (Function.update_of_ne hu _ _) (fun k e => ?_)
      rw [hafter, List.count_erase_of_ne]
      simp [hu]

theorem Inv.step (h : Inv kind s) {ev : Event T} (hen : Enabled kind s ev)
    (hid : FreshId kind s ev) : Inv kind (TreeLock.step s ev) := by
  cases ev with
  | call t c => exact h.call hen hid
  | enter t => exact h.enter hen
  | resume r => exact h.resume hen
  | unlock t => exact h.unlock hen

/-! ## No deadlock -/

theorem Inv.rank_lt (h : Inv kind s) {r : Request T} (hr : r ∈ s.locks.requests) {a : Hold T}
    (ha : a ∈ s.locks.held) (ht : a.thread = r.thread) : rank kind a.key < rank kind r.key := by
  obtain ⟨ok, fail, hprog⟩ := h.asks r hr
  obtain ⟨held, hord, hcount⟩ := h.keeps r.thread
  rw [hprog] at hord
  have hmem : (a.key, a.epoch) ∈ held := by
    rw [← List.count_pos_iff, ← hcount, List.count_pos_iff, ← ht]
    exact ha
  exact hord.1 _ hmem

theorem Inv.not_deadlocked (h : Inv kind s) (S : Set T) : ¬ Deadlocked s S := by
  rintro ⟨hne, hwait⟩
  let wants (t : T) (key : Int) : Prop := ∃ r ∈ s.locks.requests, r.thread = t ∧ r.key = key
  let holds (t : T) (key : Int) : Prop := ∃ a ∈ s.locks.held, a.thread = t ∧ a.key = key
  have hfinite : {key | ∃ t, wants t key}.Finite := by
    refine (List.finite_toSet (s.locks.requests.map Request.key)).subset ?_
    rintro key ⟨t, r, hr, -, rfl⟩
    exact List.mem_map_of_mem hr
  have hrank : ∀ t key key', holds t key → wants t key' → rank kind key < rank kind key' := by
    rintro t _ _ ⟨a, ha, rfl, rfl⟩ ⟨r, hr, hrt, rfl⟩
    exact h.rank_lt hr ha hrt.symm
  refine no_cyclic_wait hfinite hrank hne fun t ht => ?_
  obtain ⟨r, hr, hrt, -, a, ha, hmem, hkey⟩ := hwait t ht
  exact ⟨r.key, ⟨r, hr, hrt, rfl⟩, a.thread, hmem, a, ha, rfl, hkey⟩

/-- **Deadlock freedom.** Any number of threads run tree operations in any interleaving. If no
`vfs_create` and no `vfs_mkdir` takes a node id that is the number of a directory's pointer, then at no
time is there a set of threads that wait for keys held among themselves. -/
theorem tree_operations_never_deadlock (kind : Int → Option Kind) (evs : List (Event T))
    (hen : Run.AllSteps step (Enabled kind) TreeSys.init evs)
    (hid : Run.AllSteps step (FreshId kind) TreeSys.init evs) (S : Set T) :
    ¬ Deadlocked (evs.foldl step TreeSys.init) S := by
  have hinv : Inv kind (evs.foldl step TreeSys.init) :=
    Run.invariant (Inv kind) (fun s ev h hev => h.step hev.1 hev.2) (Inv.init kind)
      (Run.AllSteps.and hen hid)
  exact hinv.not_deadlocked S

def twoDirs (key : Int) : Option Kind := if key = 131072 ∨ key = 131076 then some .dir else none

/-- Two threads rename the same file, one each way between the two directories. The second waits for
the first. -/
theorem tree_operations_never_deadlock_renames :
    let evs : List (Event Nat) := [.call 1 (.create 131072 2), .enter 1,
      .resume ⟨1, 131072, 2, .start⟩, .enter 1, .resume ⟨1, 1, 2, .start⟩, .unlock 1, .unlock 1,
      .call 1 (.rename 131072 131076 1 2), .call 2 (.rename 131076 131072 1 2),
      .enter 1, .resume ⟨1, 131072, 2, .start⟩, .enter 2, .resume ⟨2, 131072, 2, .start⟩,
      .enter 1, .resume ⟨1, 131076, 2, .start⟩]
    (evs.foldl step TreeSys.init).locks.requests = [⟨2, 131072, 2, .waitSecond⟩] ∧
      ∀ S, ¬ Deadlocked (evs.foldl step TreeSys.init) S := by
  intro evs
  exact ⟨by decide +kernel,
    tree_operations_never_deadlock twoDirs evs (by decide +kernel) (by decide +kernel)⟩

/-! ## A directory whose pointer is a node id -/

section OwnLock

/-- The ids that the first `n` creations took, the last one first. -/
def idsTaken : Nat → List Int
  | 0 => []
  | n + 1 => ((n + 1 : Nat) : Int) :: idsTaken n

/-- Thread `0` is alone and has `p` left to do; `n` nodes have been created. -/
def alone (table : Int → Option (FileLockState Nat)) (held : List (Hold Nat)) (p : LockProg) (n : Nat) :
    TreeSys Nat :=
  ⟨⟨table, [], held⟩, Function.update (fun _ => .ret) 0 p, n, idsTaken n⟩

/-- The entry of a key that one call holds at epoch `2`. -/
def heldOnce : FileLockState Nat := ⟨none, 0, false, false, [(2, 1)], 1, 1⟩

variable {table : Int → Option (FileLockState Nat)} {held : List (Hold Nat)} {key parent : Int} {n : Nat}

theorem alone_init : TreeSys.init = alone (fun _ => none) [] .ret 0 := by
  rw [alone, Function.update_eq_self]
  rfl

theorem alone_create (hparent : kind parent = some .dir) (hn : n + 1 < 2 ^ 32) :
    step (alone table held .ret n) (.call 0 (.create parent 2)) =
        alone table held (vfsCreate parent (n + 1 : Nat) 2) (n + 1) ∧
      Enabled kind (alone table held .ret n) (.call 0 (.create parent 2)) := by
  have hid : (alone table held .ret n).newNodeId = n + 1 := Nat.mod_eq_of_lt hn
  refine ⟨?_, by simp [alone], hparent⟩
  simp only [step, callStep, TreeSys.begin, TreeSys.takeNodeId, hid]
  simp only [alone, Function.update_idem]
  rfl

theorem alone_lock (kind : Int → Option Kind) {ok fail : LockProg} (hfree : table key = none) :
    [.enter 0, .resume ⟨0, key, 2, .start⟩].foldl step (alone table held (.lock key 2 ok fail) n) =
        alone (Function.update table key (some heldOnce)) (⟨0, key, 2⟩ :: held) ok n ∧
      Run.AllSteps step (Enabled kind) (alone table held (.lock key 2 ok fail) n)
        [.enter 0, .resume ⟨0, key, 2, .start⟩] := by
  have hsection : lockSection 0 2 .start (FileLockState.new : FileLockState Nat) =
      (.acquired, heldOnce) := rfl
  constructor
  · simp [alone, step, Lock.step, hfree, findOrCreate, resumeRequest, outcome, hsection, proceed]
  · simp [Run.AllSteps, Enabled, alone, step, Lock.step, Prog.isLock]

theorem alone_unlock (kind : Int → Option Kind) {next : LockProg} (hheld : table key = some heldOnce) :
    step (alone table held (.unlock key 2 next) n) (.unlock 0) =
        alone (Function.update table key none) (held.erase ⟨0, key, 2⟩) next n ∧
      Enabled kind (alone table held (.unlock key 2 next) n) (.unlock 0) := by
  have hsection : unlockSection 0 2 heldOnce = some ⟨none, 0, false, false, [], 0, 1⟩ := rfl
  constructor
  · simp [alone, step, Lock.step, hheld, hsection, releaseRef]
  · simp [Enabled, alone, Prog.isUnlock]

theorem alone_wait (kind : Int → Option Kind) {ok fail : LockProg} (hheld : table key = some heldOnce) :
    ([.enter 0, .resume ⟨0, key, 2, .start⟩].foldl step
        (alone table held (.lock key 2 ok fail) n)).locks.requests = [⟨0, key, 2, .waitSecond⟩] ∧
      ([.enter 0, .resume ⟨0, key, 2, .start⟩].foldl step
        (alone table held (.lock key 2 ok fail) n)).locks.held = held ∧
      Run.AllSteps step (Enabled kind) (alone table held (.lock key 2 ok fail) n)
        [.enter 0, .resume ⟨0, key, 2, .start⟩] := by
  have hsection : lockSection 0 2 .start { heldOnce with refcount := heldOnce.refcount + 1 } =
      (.waits .waitSecond, { heldOnce with refcount := heldOnce.refcount + 1 }) := rfl
  refine ⟨?_, ?_, ?_⟩
  · simp [alone, step, Lock.step, hheld, findOrCreate, resumeRequest, hsection]
  · simp [alone, step, Lock.step, hheld, findOrCreate, resumeRequest, hsection]
  · simp [Run.AllSteps, Enabled, alone, step, Lock.step, Prog.isLock]

/-- A `vfs_create` up to the lock of its parent. -/
def lockParent (parent : Int) : List (Event Nat) :=
  .call 0 (.create parent 2) :: [.enter 0, .resume ⟨0, parent, 2, .start⟩]

def lockNewChild (id : Int) : List (Event Nat) :=
  [.enter 0, .resume ⟨0, id, 2, .start⟩] ++ [.unlock 0, .unlock 0]

/-- `n` creates in one directory. -/
def creates (parent : Int) : Nat → List (Event Nat)
  | 0 => []
  | n + 1 => creates parent n ++ (lockParent parent ++ lockNewChild (n + 1 : Nat))

/-- What is left of a `vfs_create` that holds its parent. -/
def childOf (parent id : Int) : LockProg :=
  .lock id 2 (.unlock id 2 (.unlock parent 2 .ret)) (.unlock parent 2 .ret)

theorem lockParent_run (hparent : kind parent = some .dir) (hn : n + 1 < 2 ^ 32) :
    (lockParent parent).foldl step (alone (fun _ => none) [] .ret n) =
        alone (Function.update (fun _ => none) parent (some heldOnce)) [⟨0, parent, 2⟩]
          (childOf parent (n + 1 : Nat)) (n + 1) ∧
      Run.AllSteps step (Enabled kind) (alone (fun _ => none) [] .ret n) (lockParent parent) := by
  constructor
  · rw [lockParent, List.foldl_cons, (alone_create hparent hn).1]
    exact (alone_lock kind rfl).1
  · refine ⟨(alone_create hparent hn).2, ?_⟩
    rw [(alone_create hparent hn).1]
    exact (alone_lock kind rfl).2

theorem lockNewChild_run (kind : Int → Option Kind) (hne : key ≠ parent) :
    (lockNewChild key).foldl step
        (alone (Function.update (fun _ => none) parent (some heldOnce)) [⟨0, parent, 2⟩]
          (childOf parent key) n) = alone (fun _ => none) [] .ret n ∧
      Run.AllSteps step (Enabled kind)
        (alone (Function.update (fun _ => none) parent (some heldOnce)) [⟨0, parent, 2⟩]
          (childOf parent key) n) (lockNewChild key) := by
  have hfree : Function.update (fun _ => none) parent (some heldOnce) key = none :=
    Function.update_of_ne hne _ _
  have hchild : Function.update (Function.update (fun _ => none) parent (some heldOnce)) key
      (some heldOnce) key = some heldOnce := Function.update_self _ _ _
  have hparent : Function.update (Function.update (Function.update (fun _ => none) parent
      (some heldOnce)) key (some heldOnce)) key none parent = some heldOnce := by
    simp [Function.update_of_ne hne.symm]
  rw [lockNewChild, List.foldl_append, Run.allSteps_append, childOf, (alone_lock kind hfree).1]
  refine ⟨?_, (alone_lock kind hfree).2, (alone_unlock kind hchild).2, ?_, trivial⟩
  · rw [List.foldl_cons, (alone_unlock kind hchild).1, List.foldl_cons, (alone_unlock kind hparent).1]
    simp [Function.update_comm hne]
  · rw [(alone_unlock kind hchild).1]
    exact (alone_unlock kind hparent).2

theorem creates_run (hparent : kind parent = some .dir) (hn : n < 2 ^ 32) (hlt : (n : Int) < parent) :
    (creates parent n).foldl step TreeSys.init = alone (fun _ => none) [] .ret n ∧
      Run.AllSteps step (Enabled kind) TreeSys.init (creates parent n) := by
  induction n with
  | zero => exact ⟨alone_init, trivial⟩
  | succ n ih =>
    obtain ⟨hrun, hen⟩ := ih (by omega) (by omega)
    obtain ⟨hrun₁, hen₁⟩ := lockParent_run hparent hn
    obtain ⟨hrun₂, hen₂⟩ := lockNewChild_run kind (n := n + 1) hlt.ne
    rw [creates, List.foldl_append, List.foldl_append, hrun, hrun₁, hrun₂, Run.allSteps_append,
      Run.allSteps_append, hrun, hrun₁]
    exact ⟨rfl, hen, hen₁, hen₂⟩

/-- `n` creates, and another up to the lock of the number of its parent. -/
def createsThenLocks (parent : Int) (n : Nat) : List (Event Nat) :=
  creates parent n ++ (lockParent parent ++ [.enter 0, .resume ⟨0, parent, 2, .start⟩])

theorem own_id_waits (hparent : kind parent = some .dir) (hid : ((n + 1 : Nat) : Int) = parent)
    (hn : n + 1 < 2 ^ 32) :
    Run.AllSteps step (Enabled kind) TreeSys.init (createsThenLocks parent n) ∧
      Deadlocked ((createsThenLocks parent n).foldl step TreeSys.init) {0} := by
  obtain ⟨hrun, hen⟩ := creates_run hparent (by omega) (by omega : (n : Int) < parent)
  obtain ⟨hrun₁, hen₁⟩ := lockParent_run hparent hn
  rw [hid] at hrun₁
  have hown : Function.update (fun _ => none) parent (some heldOnce) parent = some heldOnce :=
    Function.update_self _ _ _
  rw [createsThenLocks, Run.allSteps_append, Run.allSteps_append, List.foldl_append, List.foldl_append, hrun, hrun₁,
    childOf]
  refine ⟨⟨hen, hen₁, (alone_wait kind hown).2.2⟩, ⟨0, rfl⟩, ?_⟩
  rintro t rfl
  refine ⟨⟨0, parent, 2, .waitSecond⟩, ?_, rfl, nofun, ⟨0, parent, 2⟩, ?_, rfl, rfl⟩
  · rw [(alone_wait kind hown).1]
    exact List.mem_cons_self
  · rw [(alone_wait kind hown).2.1]
    exact List.mem_cons_self

/-- A volume with its root directory at the first slot of page `2`. -/
def rootOnly (key : Int) : Option Kind := if key = 131072 then some .dir else none

/-- `131072` creates in the root directory at epoch `2`, by one thread. The last one takes the id
`131072`, which is the pointer of the root directory, and waits for the lock it holds itself. -/
theorem create_waits_for_itself :
    Run.AllSteps step (Enabled rootOnly) TreeSys.init (createsThenLocks 131072 131071) ∧
      Deadlocked ((createsThenLocks 131072 131071).foldl step TreeSys.init) {0} :=
  own_id_waits rfl rfl (by omega)

end OwnLock

end TreeLock
end SphereVFS
