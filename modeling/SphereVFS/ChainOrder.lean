import SphereVFS.Isolation

/-!
# SphereVFS.ChainOrder

The order of a leaf chain and what `vfs_chain_walk` picks from it.

The walk stops at the first entry that counts for the reader. That entry is the newest one, by the
epochs at which entries count, when no entry with an even effective epoch stands above one with a
greater effective epoch. Prepending at a writable epoch, snapshots and soft-deletes keep this order.
A commit of `S` moves the entries of `S` up to the head where they are, and keeps it only if the
entries above them count at the head too, or at a snapshot.
-/

namespace SphereVFS

variable {st st' : State} {rows : List MapperRow} {R S : Int}

/-! ## Ordered chains -/

def Ordered (rows : List MapperRow) (epochs : List Int) : Prop :=
  epochs.Pairwise fun above below =>
    effEpoch rows above % 2 = 0 → effEpoch rows below ≤ effEpoch rows above

/-- The walk finds an entry exactly if one is applicable, and the one it finds has the greatest
effective epoch of the applicable ones and is the newest of those with that epoch. -/
structure PicksNewest {α : Type} (epochOf : α → Int) (rows : List MapperRow) (R : Int)
    (chain : List α) : Prop where
  found : (chainWalk epochOf rows R chain).isSome ↔
    ∃ x ∈ chain, applicable rows R (epochOf x) = true
  newest : ∀ x, chainWalk epochOf rows R chain = some x →
    ∃ newer older, chain = newer ++ x :: older ∧ applicable rows R (epochOf x) = true ∧
      (∀ y ∈ newer, applicable rows R (epochOf y) = true →
        effEpoch rows (epochOf y) < effEpoch rows (epochOf x)) ∧
      ∀ y ∈ older, applicable rows R (epochOf y) = true →
        effEpoch rows (epochOf y) ≤ effEpoch rows (epochOf x)

theorem Ordered.picksNewest {α : Type} {epochOf : α → Int} {chain : List α}
    (h : Ordered rows (chain.map epochOf)) (R : Int) : PicksNewest epochOf rows R chain := by
  constructor
  · rw [chainWalk, List.find?_isSome]
  · intro x hx
    obtain ⟨happ, newer, older, rfl, hskip⟩ := List.find?_eq_some_iff_append.1 hx
    refine ⟨newer, older, rfl, happ, fun y hy hya => ?_, fun y hy hya => ?_⟩
    · exact absurd hya (by simpa using hskip y hy)
    · rw [Ordered, List.map_append, List.map_cons] at h
      have hpair := (List.pairwise_cons.1 (List.pairwise_append.1 h).2.1).1
        (epochOf y) (List.mem_map_of_mem hy)
      -- an entry that counts at an odd epoch is accepted by readers at that epoch only
      rw [applicable_iff] at happ hya
      omega

inductive LeafChain (st : State) : List Int → Prop
  | slot (v : VPtr) (s : SlotNode) (h : st.slots v = some s) :
      LeafChain st (s.chain.map DirContent.epoch)
  | size (file : VPtr) (f : FileNode) (h : st.nodes file = some (.file f)) :
      LeafChain st (f.sizes.map FileSize.epoch)
  | page (pn : VPtr) (n : PageNode) (h : st.pageNodes pn = some n) :
      LeafChain st (n.versions.map VersionPage.epoch)

theorem LeafChain.of_eq {l : List Int} (hl : LeafChain st' l) (hslots : st'.slots = st.slots)
    (hnodes : st'.nodes = st.nodes) (hpages : st'.pageNodes = st.pageNodes) : LeafChain st l := by
  cases hl with
  | slot v s hs => exact .slot v s (hslots ▸ hs)
  | size file f hf => exact .size file f (hnodes ▸ hf)
  | page pn n hn => exact .page pn n (hpages ▸ hn)

def ChainsOrdered (st : State) : Prop :=
  ∀ l, LeafChain st l →
    Ordered st.mapperTable l ∧ ∀ e ∈ l, 0 ≤ e ∧ e ≤ st.currentEpoch

/-! ## What the edits do to a chain -/

/-- A chain after an edit at `epoch`: an old one, a new empty one, or one with an entry of `epoch`
on top. -/
def Grown (st : State) (epoch : Int) (l : List Int) : Prop :=
  LeafChain st l ∨ l = [] ∨ ∃ l₀, (LeafChain st l₀ ∨ l₀ = []) ∧ l = u32 epoch :: l₀

theorem DirEdit.grown {epoch : Int} (h : DirEdit epoch st st') {l : List Int}
    (hl : LeafChain st' l) : Grown st epoch l := by
  cases h with
  | node node id hnew =>
    cases hl with
    | slot v s h => exact .inl (.slot v s h)
    | size file f h =>
      obtain ⟨-, rfl⟩ | ⟨-, h⟩ := update_some_iff.1 h
      · cases hnew
        exact .inr (.inl rfl)
      · exact .inl (.size file f h)
    | page pn n h => exact .inl (.page pn n h)
  | insert dir d childId child name hdir hchild =>
    cases hl with
    | slot v s h =>
      obtain ⟨-, rfl⟩ | ⟨-, h⟩ := update_some_iff.1 h
      · exact .inr (.inr ⟨[], .inr rfl, rfl⟩)
      · exact .inl (.slot v s h)
    | size file f h =>
      obtain ⟨-, h⟩ | ⟨-, h⟩ := update_some_iff.1 h
      · cases h
      · exact .inl (.size file f h)
    | page pn n h => exact .inl (.page pn n h)
  | prepend slot s childId child name hslot hchild =>
    cases hl with
    | slot v s' h =>
      obtain ⟨-, rfl⟩ | ⟨-, h⟩ := update_some_iff.1 h
      · exact .inr (.inr ⟨_, .inl (.slot slot s hslot), rfl⟩)
      · exact .inl (.slot v s' h)
    | size file f h => exact .inl (.size file f h)
    | page pn n h => exact .inl (.page pn n h)
  | reindex dir d ix hdir hix =>
    cases hl with
    | slot v s h => exact .inl (.slot v s h)
    | size file f h =>
      obtain ⟨-, h⟩ | ⟨-, h⟩ := update_some_iff.1 h
      · cases h
      · exact .inl (.size file f h)
    | page pn n h => exact .inl (.page pn n h)
  | bin entries => exact .inl (hl.of_eq rfl rfl rfl)

theorem FileEdit.leafChain (h : FileEdit st st') {l : List Int} (hl : LeafChain st' l) :
    LeafChain st l ∨ l = [] := by
  cases h with
  | cache cache next hcache => exact .inl (hl.of_eq rfl rfl rfl)
  | pad file f contents hf hpages =>
    cases hl with
    | slot v s h => exact .inl (.slot v s h)
    | size file' f' h =>
      obtain ⟨-, h⟩ | ⟨-, h⟩ := update_some_iff.1 h
      · cases h
        exact .inl (.size file f hf)
      · exact .inl (.size file' f' h)
    | page pn n h => exact .inl (.page pn n h)
  | addPage file f contents seg page hf hpage hnone hpages =>
    cases hl with
    | slot v s h => exact .inl (.slot v s h)
    | size file' f' h =>
      obtain ⟨-, h⟩ | ⟨-, h⟩ := update_some_iff.1 h
      · cases h
        exact .inl (.size file f hf)
      · exact .inl (.size file' f' h)
    | page pn n h =>
      obtain ⟨-, rfl⟩ | ⟨-, h⟩ := update_some_iff.1 h
      · exact .inr rfl
      · exact .inl (.page pn n h)

theorem FileEdits.leafChain (h : FileEdits st st') {l : List Int} (hl : LeafChain st' l) :
    LeafChain st l ∨ l = [] := by
  induction h with
  | refl => exact .inl hl
  | tail _ hedit ih =>
    obtain hl | rfl := hedit.leafChain hl
    · exact ih hl
    · exact .inr rfl

theorem WriteEdit.grown {epoch : Int} (h : WriteEdit epoch st st') {l : List Int}
    (hl : LeafChain st' l) : Grown st epoch l := by
  cases h with
  | resolve st' h => exact (h.leafChain hl).imp id .inl
  | inPlace pn n v p hn hv he => exact .inl (hl.of_eq rfl rfl rfl)
  | version pn n p hn =>
    cases hl with
    | slot v s h => exact .inl (.slot v s h)
    | size file f h => exact .inl (.size file f h)
    | page pn' n' h =>
      obtain ⟨-, rfl⟩ | ⟨-, h⟩ := update_some_iff.1 h
      · exact .inr (.inr ⟨_, .inl (.page pn n hn), rfl⟩)
      · exact .inl (.page pn' n' h)
  | lost p => exact .inl (hl.of_eq rfl rfl rfl)
  | size file f n hf hn =>
    cases hl with
    | slot v s h => exact .inl (.slot v s h)
    | size file' f' h =>
      obtain ⟨-, h⟩ | ⟨-, h⟩ := update_some_iff.1 h
      · cases h
        exact .inr (.inr ⟨_, .inl (.size file f hf), rfl⟩)
      · exact .inl (.size file' f' h)
    | page pn n h => exact .inl (.page pn n h)
  | bin entries => exact .inl (hl.of_eq rfl rfl rfl)

/-! ## Steps -/

theorem ordered_nil : Ordered rows [] := List.Pairwise.nil

/-- An entry of a writable epoch may go on top: only an even one has to be the greatest, and the
only even writable epoch is the head. -/
theorem Ordered.cons_writable (hep : EpochWf st) {epoch : Int} (hw : Writable st epoch) {l : List Int}
    (h : Ordered st.mapperTable l) (hle : ∀ e ∈ l, 0 ≤ e ∧ e ≤ st.currentEpoch) :
    Ordered st.mapperTable (epoch :: l) := by
  refine List.pairwise_cons.2 ⟨fun e he heven => ?_, h⟩
  have hrange := effEpoch_range hep.rows (hle e he).1 (hle e he).2
  have hself : effEpoch st.mapperTable epoch = epoch := by
    apply effEpoch_unmapped
    rw [hep.u32_issued hw.issued]
    exact hep.unmapped hw
  rw [hself] at heven ⊢
  obtain rfl | ⟨hodd, -⟩ := hw
  · exact hrange.2
  · omega

theorem ChainsOrdered.grow (hep : EpochWf st) {epoch : Int} (hw : Writable st epoch)
    (hok : ChainsOrdered st) (hhead : st'.currentEpoch = st.currentEpoch)
    (htable : st'.mapperTable = st.mapperTable) (hgrown : ∀ l, LeafChain st' l → Grown st epoch l) :
    ChainsOrdered st' := by
  intro l hl
  rw [hhead, htable]
  have hu := hep.u32_issued hw.issued
  have hrange := hep.u32_range hw
  rw [hu] at hrange
  obtain hl | rfl | ⟨l₀, hl₀, rfl⟩ := hgrown l hl
  · exact hok l hl
  · exact ⟨ordered_nil, by simp⟩
  · have hold : Ordered st.mapperTable l₀ ∧ ∀ e ∈ l₀, 0 ≤ e ∧ e ≤ st.currentEpoch := by
      obtain hl₀ | rfl := hl₀
      · exact hok l₀ hl₀
      · exact ⟨ordered_nil, by simp⟩
    rw [hu]
    refine ⟨hold.1.cons_writable hep hw hold.2, fun e he => ?_⟩
    obtain rfl | he := List.mem_cons.1 he
    · exact hrange
    · exact hold.2 e he

theorem DirEdits.chainsOrdered {epoch : Int} (h : DirEdits epoch st st') (hep : EpochWf st)
    (hw : Writable st epoch) (hok : ChainsOrdered st) : ChainsOrdered st' := by
  -- the edits keep the head and the mapper, so the epoch stays writable
  suffices hall : ChainsOrdered st' ∧ EpochWf st' ∧ Writable st' epoch from hall.1
  induction h with
  | refl => exact ⟨hok, hep, hw⟩
  | tail _ hedit ih =>
    obtain ⟨hok, hep, hw⟩ := ih
    have hsame := hedit.same
    refine ⟨hok.grow hep hw hsame.epoch hsame.table fun l => hedit.grown, hedit.epochWf hep, ?_⟩
    simpa only [Writable, Active, hsame.epoch, hsame.table] using hw

theorem WriteEdits.chainsOrdered {epoch : Int} (h : WriteEdits epoch st st') (hep : EpochWf st)
    (hw : Writable st epoch) (hok : ChainsOrdered st) : ChainsOrdered st' := by
  suffices hall : ChainsOrdered st' ∧ EpochWf st' ∧ Writable st' epoch from hall.1
  induction h with
  | refl => exact ⟨hok, hep, hw⟩
  | tail _ hedit ih =>
    obtain ⟨hok, hep, hw⟩ := ih
    have hkept := hedit.dirsKept
    refine ⟨hok.grow hep hw hkept.epoch hkept.table fun l => hedit.grown, hkept.epochWf hep, ?_⟩
    simpa only [Writable, Active, hkept.epoch, hkept.table] using hw

theorem FileEdits.chainsOrdered (h : FileEdits st st') (hep : EpochWf st) (hok : ChainsOrdered st) :
    ChainsOrdered st' :=
  (h.writeEdits st.currentEpoch).chainsOrdered hep (.inl rfl) hok

theorem EpochMove.leafChain (h : EpochMove st st') {l : List Int} (hl : LeafChain st' l) : LeafChain st l :=
  hl.of_eq h.slots h.nodes h.pageNodes

/-- The commit of `S` finds the chains in order: above an entry of `S`, every entry that counts at
an even epoch counts at the head. -/
def CommitsInOrder (st : State) (S : Int) : Prop :=
  ∀ l, LeafChain st l → l.Pairwise fun above below =>
    below = S → effEpoch st.mapperTable above % 2 = 0 →
      effEpoch st.mapperTable above = st.currentEpoch

theorem Ordered.commit (hep : EpochWf st) (hact : Active st S) {l : List Int}
    (h : Ordered st.mapperTable l) (hle : ∀ e ∈ l, 0 ≤ e ∧ e ≤ st.currentEpoch)
    (hin : l.Pairwise fun above below => below = S → effEpoch st.mapperTable above % 2 = 0 →
      effEpoch st.mapperTable above = st.currentEpoch) :
    Ordered (st.mapperTable ++ [⟨S, st.currentEpoch, true⟩]) l := by
  have hlt := hep.head_lt
  have heff : ∀ e ∈ l, effEpoch (st.mapperTable ++ [⟨S, st.currentEpoch, true⟩]) e =
      if e = S then st.currentEpoch else effEpoch st.mapperTable e := by
    intro e he
    have hrange := hle e he
    rw [effEpoch_append ⟨S, st.currentEpoch, true⟩ hact.2.2.2,
      u32_of_range hrange.1 (by omega)]
    simp
  refine List.Pairwise.imp_of_mem ?_ (List.pairwise_and_iff.2 ⟨h, hin⟩)
  intro above below ha hb hpair heven
  have hra := effEpoch_range hep.rows (hle above ha).1 (hle above ha).2
  have hrb := effEpoch_range hep.rows (hle below hb).1 (hle below hb).2
  rw [heff above ha] at heven ⊢
  rw [heff below hb]
  split at heven <;> split <;> simp_all

theorem Ordered.delete (hep : EpochWf st) (hact : Active st S) {target : Int} {l : List Int}
    (h : Ordered st.mapperTable l) (hle : ∀ e ∈ l, 0 ≤ e ∧ e ≤ st.currentEpoch) :
    Ordered (st.mapperTable ++ [⟨S, target, false⟩]) l := by
  have hlt := hep.head_lt
  have heff : ∀ e ∈ l, effEpoch (st.mapperTable ++ [⟨S, target, false⟩]) e =
      effEpoch st.mapperTable e := by
    intro e he
    have hrange := hle e he
    have hu := u32_of_range hrange.1 (by omega : e < 2 ^ 32)
    rw [effEpoch_append ⟨S, target, false⟩ hact.2.2.2, hu]
    split
    · rename_i heS
      simp only at heS
      rw [effEpoch_unmapped (by rw [hu, heS]; exact hact.2.2.2)]
      simp
    · rfl
  refine List.Pairwise.imp_of_mem ?_ h
  intro above below ha hb hpair
  rw [heff above ha, heff below hb]
  exact hpair

/-- What a run needs to keep the chains in order: valid operations, and commits that find them so. -/
def InOrder (st : State) (op : Op) : Prop :=
  ValidOp st op ∧ ∀ S, op = .commit S → CommitsInOrder st S

theorem Outcome.chainsOrdered {op : Op} (h : Outcome st op st') (hwf : Wf st)
    (hin : ∀ S, op = .commit S → CommitsInOrder st S) (hok : ChainsOrdered st) :
    ChainsOrdered st' := by
  cases h with
  | same => exact hok
  | dir _ epoch _ hop hat hw h => exact h.chainsOrdered hwf.epoch hw hok
  | write _ epoch _ hat hw h => exact h.chainsOrdered hwf.epoch hw hok
  | read _ _ h => exact h.chainsOrdered hwf.epoch hok
  | snapshot hlt =>
    intro l hl
    obtain ⟨hord, hle⟩ := hok l ((snapshot_move st).leafChain hl)
    have hhead := (snapshot_move st).head
    exact ⟨hord, fun e he => ⟨(hle e he).1, by have := (hle e he).2; omega⟩⟩
  | commit S st1 _ h hm =>
    intro l hl
    have hkept := FileEdits.dirsKept h
    obtain ⟨hord, hle⟩ := h.chainsOrdered hwf.epoch hok l (hm.move.leafChain hl)
    rw [hm.table, hm.head]
    refine ⟨hord.commit (h.wf hwf).epoch hm.active hle ?_, hle⟩
    -- the scan before the commit makes empty chains at most
    rw [hkept.table, hkept.epoch]
    obtain hl₀ | rfl := h.leafChain (hm.move.leafChain hl)
    · exact hin S rfl l hl₀
    · exact List.Pairwise.nil
  | delete S _ hm =>
    intro l hl
    obtain ⟨hord, hle⟩ := hok l (hm.move.leafChain hl)
    rw [hm.table, hm.head]
    exact ⟨hord.delete hwf.epoch hm.active hle, hle⟩

theorem bootstrap_chainsOrdered (pageSize segmentSize : Nat) :
    ChainsOrdered (bootstrap pageSize segmentSize) := by
  intro l hl
  cases hl with
  | slot v s h => simp [bootstrap] at h
  | size file f h => cases (bootstrap_node h).2
  | page pn n h => simp [bootstrap] at h

theorem run_chainsOrdered {pageSize segmentSize : Nat} (hp : 0 < pageSize) (hs : 0 < segmentSize)
    {ops : List Op} (h : Run.AllSteps step InOrder (bootstrap pageSize segmentSize) ops) :
    ChainsOrdered (run (bootstrap pageSize segmentSize) ops) := by
  refine (Run.invariant (fun st => Wf st ∧ ChainsOrdered st) ?_
    ⟨bootstrap_wf hp hs, bootstrap_chainsOrdered pageSize segmentSize⟩ h).2
  intro st op hinv hop
  have hout := step_outcome hinv.1 hop.1
  exact ⟨hout.wf hinv.1, hout.chainsOrdered hinv.1 hop.2 hinv.2⟩

/-- **The read rule.** In every volume reached by operations that keep the chains in order, a reader
at the head or at an active snapshot gets from every leaf chain the newest entry that counts for
it. -/
theorem chain_walk_picks_newest {pageSize segmentSize : Nat} (hp : 0 < pageSize)
    (hs : 0 < segmentSize) (ops : List Op)
    (hops : Run.AllSteps step InOrder (bootstrap pageSize segmentSize) ops) (R : Int) :
    let st := run (bootstrap pageSize segmentSize) ops
    Writable st R →
      (∀ v s, st.slots v = some s → PicksNewest DirContent.epoch st.mapperTable R s.chain) ∧
      (∀ file f, st.nodes file = some (.file f) →
        PicksNewest FileSize.epoch st.mapperTable R f.sizes) ∧
      ∀ pn n, st.pageNodes pn = some n →
        PicksNewest VersionPage.epoch st.mapperTable R n.versions := by
  intro st _
  have hord := run_chainsOrdered hp hs hops
  refine ⟨fun v s h => ?_, fun file f h => ?_, fun pn n h => ?_⟩
  · exact (hord _ (.slot v s h)).1.picksNewest R
  · exact (hord _ (.size file f h)).1.picksNewest R
  · exact (hord _ (.page pn n h)).1.picksNewest R

/-- A file made at the head and deleted at a snapshot, and the snapshot committed: its chain holds
the tombstone of the snapshot above the entry of the head. -/
theorem chain_walk_picks_committed :
    let st := run (bootstrap 8192 1024) [.create 1 [97] 0, .snapshot, .delete 1 [97] 1, .commit 1]
    (∀ v s, st.slots v = some s → PicksNewest DirContent.epoch st.mapperTable 2 s.chain) ∧
      (∀ file f, st.nodes file = some (.file f) →
        PicksNewest FileSize.epoch st.mapperTable 2 f.sizes) ∧
      ∀ pn n, st.pageNodes pn = some n →
        PicksNewest VersionPage.epoch st.mapperTable 2 n.versions := by
  have hops : Run.AllSteps step InOrder (bootstrap 8192 1024)
      [.create 1 [97] 0, .snapshot, .delete 1 [97] 1, .commit 1] := by
    refine ⟨⟨.inl rfl, nofun⟩, ⟨?_, nofun⟩, ⟨.inr (by decide +kernel), nofun⟩,
      ⟨⟨by decide, by decide, by decide +kernel⟩, ?_⟩, trivial⟩
    · show (0 : Int) + 2 < 2 ^ 31
      decide
    · rintro S ⟨⟩ l hl
      cases hl with
      | slot v s h =>
        -- the only slot has the entry of the snapshot on top
        have hslots : (run (bootstrap 8192 1024)
            [.create 1 [97] 0, .snapshot, .delete 1 [97] 1]).slots =
            Function.update (Function.update (fun _ => none) 4
              (some ⟨1, [⟨3, 0, 1, 2, some [97]⟩]⟩)) 4
              (some ⟨1, [⟨5, 1, 1, 2, none⟩, ⟨3, 0, 1, 2, some [97]⟩]⟩) := rfl
        obtain ⟨-, rfl⟩ | ⟨hne, h⟩ := update_some_iff.1 ((congrFun hslots v).symm.trans h)
        · simp
        · simp [hne] at h
      | size file f h =>
        obtain ⟨a, b, c, hnodes⟩ : ∃ a b c : DirNode, (run (bootstrap 8192 1024)
            [.create 1 [97] 0, .snapshot, .delete 1 [97] 1]).nodes =
            Function.update (Function.update (Function.update (Function.update (fun _ => none) 1
              (some (.dir a))) 2 (some (.file ⟨1, [], []⟩))) 1 (some (.dir b))) 1
              (some (.dir c)) := ⟨_, _, _, rfl⟩
        have h := (congrFun hnodes file).symm.trans h
        simp only [Function.update_apply] at h
        split at h
        · cases h
        · split at h
          · cases h
            simp
          · cases h
      | page pn n h => cases h
  exact chain_walk_picks_newest (by decide) (by decide) _ hops 2 (.inl (by decide +kernel))

def sizesAt (st : State) (file : VPtr) : Option (List FileSize) :=
  match st.nodes file with
  | some (.file f) => some f.sizes
  | _ => none

theorem sizesAt_eq_some {file : VPtr} {sizes : List FileSize} (h : sizesAt st file = some sizes) :
    ∃ f, st.nodes file = some (.file f) ∧ f.sizes = sizes := by
  rw [sizesAt] at h
  split at h
  · rename_i f hf
    exact ⟨f, hf, Option.some.inj h⟩
  · cases h

/-- A file grows at the snapshot `1` and, by another page, at the head `2`. The commit of `1` at head
`4` finds no conflict, and the size of the snapshot now counts at `4`; the walk at `4` still stops at
the size of head `2` above it. -/
theorem commit_leaves_older_size_on_top :
    let ops : List Op := [.create 1 [97] 0, .snapshot, .write 2 [1] 0 1, .write 2 [1] 8192 2,
      .snapshot, .commit 1]
    let st := run (bootstrap 8192 1024) ops
    Run.AllSteps step ValidOp (bootstrap 8192 1024) ops ∧ Writable st 4 ∧
      ∃ f, st.nodes 2 = some (.file f) ∧ ¬ PicksNewest FileSize.epoch st.mapperTable 4 f.sizes := by
  intro ops st
  have hhead : st.currentEpoch = 4 := by decide +kernel
  have hrows : st.mapperTable = [⟨1, 4, true⟩] := by decide +kernel
  obtain ⟨f, hf, hsizes⟩ : ∃ f, st.nodes 2 = some (.file f) ∧ f.sizes = [⟨2, 8193⟩, ⟨1, 1⟩] := by
    have hsizes : sizesAt st 2 = some [⟨2, 8193⟩, ⟨1, 1⟩] := by decide +kernel
    exact sizesAt_eq_some hsizes
  refine ⟨⟨.inl rfl, ?_, ⟨.inr (by decide +kernel), by decide +kernel⟩,
    ⟨.inl (by decide +kernel), by decide +kernel⟩, ?_,
    ⟨by decide, by decide, by decide +kernel⟩, trivial⟩, .inl hhead.symm, f, hf, ?_⟩
  · show (0 : Int) + 2 < 2 ^ 31
    decide
  · show (2 : Int) + 2 < 2 ^ 31
    decide
  · rw [hrows, hsizes]
    intro hpick
    obtain ⟨newer, older, hsplit, -, -, holder⟩ := hpick.newest ⟨2, 8193⟩ (by decide)
    -- the size of the snapshot is below it and counts at `4`
    have hmem : (⟨1, 1⟩ : FileSize) ∈ older := by
      cases newer with
      | nil =>
        cases hsplit
        simp
      | cons y newer =>
        have htail : [(⟨1, 1⟩ : FileSize)] = newer ++ ⟨2, 8193⟩ :: older := (List.cons.inj hsplit).2
        have hin : (⟨2, 8193⟩ : FileSize) ∈ [(⟨1, 1⟩ : FileSize)] := by rw [htail]; simp
        simp at hin
    exact absurd (holder _ hmem (by decide)) (by decide)

end SphereVFS
