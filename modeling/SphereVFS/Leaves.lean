import SphereVFS.Epoch
import SphereVFS.Lib.Bytes
import SphereVFS.Lib.Linked

/-!
# SphereVFS.Leaves

Version chains in the bytes of the pool. The three kinds of leaves have the epoch and the link at the same
places, so one walk reads the chains of all of them.
-/

namespace SphereVFS

open Bytes

structure Leaf where
  epoch : UInt32
  kindSpecific : UInt32
  primary : UInt64
  secondary : UInt64

/-- What `nodes_write_versionpage` writes. -/
def Leaf.versionpage (epoch : UInt32) (dataPage : UInt64) : Leaf := ⟨epoch, 0, dataPage, 0⟩

/-- What `nodes_write_filesize` writes. -/
def Leaf.filesize (epoch : UInt32) (modifiedAt fileSize : UInt64) : Leaf := ⟨epoch, 0, modifiedAt, fileSize⟩

/-- What `nodes_write_dircontent` writes. -/
def Leaf.dircontent (childNodeId epoch : UInt32) (childPtr namePtr : UInt64) : Leaf :=
  ⟨epoch, childNodeId, childPtr, namePtr⟩

def writeLeaf (slot : Buffer) (l : Leaf) (nextPtr : UInt64) : Buffer :=
  let slot := put slot 0 4 l.epoch.toNat
  let slot := put slot 4 4 l.kindSpecific.toNat
  let slot := put slot 8 8 l.primary.toNat
  let slot := put slot 16 8 l.secondary.toNat
  put slot 24 8 nextPtr.toNat

def readLeaf (slot : Buffer) : Leaf :=
  ⟨.ofNat (get slot 0 4), .ofNat (get slot 4 4), .ofNat (get slot 8 8), .ofNat (get slot 16 8)⟩

def leafNext (slot : Buffer) : UInt64 := .ofNat (get slot 24 8)

theorem readLeaf_write (slot : Buffer) (l : Leaf) (nextPtr : UInt64) :
    readLeaf (writeLeaf slot l nextPtr) = l := by
  simp [readLeaf, writeLeaf, get_put_ne, get_put_mod]

theorem leafNext_write (slot : Buffer) (l : Leaf) (nextPtr : UInt64) :
    leafNext (writeLeaf slot l nextPtr) = nextPtr := by
  simp [leafNext, writeLeaf, get_put_mod]

/-- `vfs_chain_walk`: the leaf that a reader sees, `some none` if the chain ends before, and `none` if the
walk is still going on. -/
def vfsChainWalk (rows : List MapperRow) (readEpoch : Int) (pool : UInt64 → Buffer) :
    Nat → UInt64 → Option (Option Buffer)
  | 0, _ => none
  | fuel + 1, walkVp =>
    if walkVp = 0 then some none
    else if applicable rows readEpoch (get (pool walkVp) 0 4) then some (some (pool walkVp))
    else vfsChainWalk rows readEpoch pool fuel (leafNext (pool walkVp))

structure LeafSlots where
  pool : UInt64 → Buffer
  head : UInt64 → UInt64

structure NewLeaf where
  owner : UInt64
  vp : UInt64
  leaf : Leaf

def LeafSlots.prepend (x : NewLeaf) (s : LeafSlots) : LeafSlots :=
  ⟨Function.update s.pool x.vp (writeLeaf (s.pool x.vp) x.leaf (s.head x.owner)), Function.update s.head x.owner x.vp⟩

theorem vfsChainWalk_chain {pool : UInt64 → Buffer} {rows : List MapperRow} {readEpoch : Int} {vps : List UInt64} :
    ∀ {fuel : Nat} {head : UInt64}, Linked.Chain (fun v => leafNext (pool v)) 0 head vps → vps.length < fuel →
      (vfsChainWalk rows readEpoch pool fuel head).map (Option.map readLeaf) =
        some (chainWalk (fun l => l.epoch.toNat) rows readEpoch (vps.map fun v => readLeaf (pool v))) := by
  induction vps with
  | nil =>
    rintro (_ | fuel) head rfl hfuel
    · cases hfuel
    · rfl
  | cons v vps ih =>
    rintro (_ | fuel) head ⟨rfl, hne, hrest⟩ hfuel
    · cases hfuel
    · have hepoch : (readLeaf (pool head)).epoch.toNat = get (pool head) 0 4 := Nat.mod_eq_of_lt get_lt
      rw [vfsChainWalk, if_neg hne, List.map_cons, chainWalk, List.find?_cons, hepoch]
      cases applicable rows readEpoch (get (pool head) 0 4) with
      | true => rfl
      | false => exact ih hrest (Nat.lt_of_succ_lt_succ hfuel)

theorem leaves_chained (pool : UInt64 → Buffer) (leaves : List NewLeaf) (hne : ∀ x ∈ leaves, x.vp ≠ 0)
    (hnodup : (leaves.map NewLeaf.vp).Nodup) (owner : UInt64) :
    let s := leaves.foldr LeafSlots.prepend ⟨pool, fun _ => 0⟩
    let own := leaves.filter (·.owner = owner)
    Linked.Chain (fun v => leafNext (s.pool v)) 0 (s.head owner) (own.map NewLeaf.vp) ∧
      ∀ x ∈ leaves, readLeaf (s.pool x.vp) = x.leaf := by
  induction leaves with
  | nil => exact ⟨rfl, nofun⟩
  | cons x leaves ih =>
    obtain ⟨hx, hrest⟩ := List.forall_mem_cons.1 hne
    obtain ⟨hnew, hnodup⟩ := List.nodup_cons.1 hnodup
    obtain ⟨hchain, hread⟩ := ih hrest hnodup
    rw [List.foldr_cons]
    generalize leaves.foldr LeafSlots.prepend ⟨pool, fun _ => 0⟩ = s at *
    have hself : (s.prepend x).pool x.vp = writeLeaf (s.pool x.vp) x.leaf (s.head x.owner) :=
      Function.update_self ..
    have hother : ∀ y ∈ leaves, (s.prepend x).pool y.vp = s.pool y.vp := by
      refine fun y hy => Function.update_of_ne (fun h => hnew ?_) ..
      exact h ▸ List.mem_map_of_mem hy
    refine ⟨?_, List.forall_mem_cons.2 ⟨by rw [hself, readLeaf_write], fun y hy => by rw [hother y hy, hread y hy]⟩⟩
    have hnext : ∀ v ∈ (leaves.filter (·.owner = owner)).map NewLeaf.vp,
        leafNext ((s.prepend x).pool v) = leafNext (s.pool v) := by
      intro v hv
      obtain ⟨y, hy, rfl⟩ := List.mem_map.1 hv
      rw [hother y (List.mem_of_mem_filter hy)]
    by_cases howner : x.owner = owner
    · subst howner
      rw [List.filter_cons_of_pos (by simp), show (s.prepend x).head x.owner = x.vp from Function.update_self ..]
      exact hchain.push hx (by rw [hself, leafNext_write]) hnext
    · rw [List.filter_cons_of_neg (by simpa using howner),
        show (s.prepend x).head owner = s.head owner from Function.update_of_ne (Ne.symm howner) ..]
      exact hchain.congr hnext

/-- **Version chains in bytes.** After any new leaves in slots of their own, the last one first in the list,
whatever the slots held before: for every mapper and every epoch the walk over the chain of an owner ends
after at most as many steps as there are leaves. It finds the leaf that the read rule picks from those the owner
was given, the newest first, and nothing if the rule picks none. -/
theorem leaf_chains_read (pool : UInt64 → Buffer) (leaves : List NewLeaf) (hne : ∀ x ∈ leaves, x.vp ≠ 0)
    (hnodup : (leaves.map NewLeaf.vp).Nodup) (rows : List MapperRow) (readEpoch : Int) (owner : UInt64) {fuel : Nat}
    (hfuel : leaves.length < fuel) :
    let s := leaves.foldr LeafSlots.prepend ⟨pool, fun _ => 0⟩
    (vfsChainWalk rows readEpoch s.pool fuel (s.head owner)).map (Option.map readLeaf) = some
      (chainWalk (fun l => l.epoch.toNat) rows readEpoch ((leaves.filter (·.owner = owner)).map NewLeaf.leaf)) := by
  obtain ⟨hchain, hread⟩ := leaves_chained pool leaves hne hnodup owner
  have hlength := List.length_filter_le (fun x : NewLeaf => decide (x.owner = owner)) leaves
  refine (vfsChainWalk_chain hchain (by rw [List.length_map]; omega)).trans ?_
  rw [List.map_map]
  exact congrArg (fun l => some (chainWalk _ rows readEpoch l))
    (List.map_congr_left fun x hx => hread x (List.mem_of_mem_filter hx))

/-- Two versions of a page, and a size of its file between them: a reader at 3 sees the older version, and a
reader at 1 comes to the end of the chain. -/
theorem leaf_chains_read_two :
    let s := [⟨1, 11, .versionpage 4 7⟩, ⟨2, 12, .filesize 4 0 1⟩, ⟨1, 10, .versionpage 2 6⟩].foldr
      LeafSlots.prepend ⟨fun _ _ => 255, fun _ => 0⟩
    (vfsChainWalk [] 3 s.pool 4 (s.head 1)).map (Option.map readLeaf) = some (some (.versionpage 2 6)) ∧
      (vfsChainWalk [] 1 s.pool 4 (s.head 1)).map (Option.map readLeaf) = some none := by
  have hread := fun R => leaf_chains_read (fun _ _ => 255)
    [⟨1, 11, .versionpage 4 7⟩, ⟨2, 12, .filesize 4 0 1⟩, ⟨1, 10, .versionpage 2 6⟩] (by decide) (by decide)
    [] R 1 (Nat.lt_succ_self 3)
  exact ⟨hread 3, hread 1⟩

end SphereVFS
