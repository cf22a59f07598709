import SphereVFS.Fuse
import Mathlib.Data.List.FinRange

/-!
# SphereVFS.FuseDirCache

Listing a directory through FUSE: the listing cache (`fuse_dir_cache.c`) and `fuse_vfs_readdir`.

The cache has a slot for each of up to 32 listings. A slot is found by the hash of the path that asked for it or
by the handle that asked for it, and it is used if it holds the directory that is asked for now. A call of
`readdir` offers `.` and `..` and then the entries of the listing, each with the offset of the next one, until
the filler refuses one; the next call goes on from the offset of the last entry that was accepted.

The mutex and the `memset` of attributes are left out; the counter of the recency order does not wrap.
-/

namespace SphereVFS

/-! ## The cache -/

def fusedirCacheSize : Nat := 32

/-- `fusedir_hash_path`: FNV-1a with 64 bits. -/
def fusedirHashPath (path : Name) : UInt64 :=
  path.foldl (fun h b => (h ^^^ b.toUInt64) * 1099511628211) 14695981039346656037

/-- `FusedirCacheSlot`. `entries = none` is the null pointer, which an empty listing is as well; `count` is the
length of the listing. -/
structure FusedirCacheSlot where
  pathHash : UInt64
  fh : VPtr
  dirVp : VPtr
  entries : Option (List Dirent)
  lastUsed : Nat
  deriving DecidableEq, Repr

def clearSlot : FusedirCacheSlot := ⟨0, 0, 0, none, 0⟩

structure FusedirCache where
  slots : Fin fusedirCacheSize → FusedirCacheSlot
  lruCounter : Nat

def fusedirCacheInit : FusedirCache := ⟨fun _ => clearSlot, 0⟩

def FusedirCache.setSlot (c : FusedirCache) (i : Fin fusedirCacheSize) (s : FusedirCacheSlot) : FusedirCache :=
  { c with slots := Function.update c.slots i s }

def FusedirCache.findSlot (c : FusedirCache) (p : FusedirCacheSlot → Bool) : Option (Fin fusedirCacheSize) :=
  (List.finRange fusedirCacheSize).find? fun i => p (c.slots i)

/-- The test of `find_slot_either`. -/
def FusedirCacheSlot.hasKey (pathHash : UInt64) (fh : VPtr) (s : FusedirCacheSlot) : Bool :=
  s.entries.isSome && (pathHash != 0 && s.pathHash == pathHash || fh != 0 && s.fh == fh)

/-- The slot with the smallest `last_used`. -/
def FusedirCache.oldest (c : FusedirCache) : Fin fusedirCacheSize :=
  (List.finRange fusedirCacheSize).foldl
    (fun o i => if (c.slots i).lastUsed < (c.slots o).lastUsed then i else o) ⟨0, by decide⟩

/-- `acquire_slot`: an empty slot, or the oldest one, cleared. -/
def acquireSlot (c : FusedirCache) : Fin fusedirCacheSize × FusedirCache :=
  match c.findSlot fun s => s.entries.isNone with
  | some i => (i, c)
  | none => (c.oldest, c.setSlot c.oldest clearSlot)

def listingBuffer (l : List Dirent) : Option (List Dirent) := if l = [] then none else some l

/-- `build_slot`, where `listing` is what `vfs_readdir` answers. -/
def buildSlot (c : FusedirCache) (pathHash : UInt64) (fh dirVp : VPtr) (listing : Except Err (List Dirent)) :
    Except Err (List Dirent) × FusedirCache :=
  let (i, c) := acquireSlot c
  let slot := c.slots i
  match listing with
  | .ok l => (.ok l, c.setSlot i
      { slot with pathHash := pathHash, fh := fh, dirVp := dirVp, entries := listingBuffer l })
  | .error _ => (.error .io, c.setSlot i { slot with pathHash := 0, fh := 0, dirVp := 0 })

/-- The rebuild at the end of `get_internal`, under one of the two keys. -/
def rebuildSlot (c : FusedirCache) (pathHash : UInt64) (fh dirVp : VPtr) (listing : Except Err (List Dirent)) :
    Except Err (List Dirent) × FusedirCache :=
  if pathHash ≠ 0 then buildSlot c pathHash 0 dirVp listing else buildSlot c 0 fh dirVp listing

def getInternal (c : FusedirCache) (pathHash : UInt64) (fh dirVp : VPtr) (listing : Except Err (List Dirent)) :
    Except Err (List Dirent) × FusedirCache :=
  match c.findSlot (FusedirCacheSlot.hasKey pathHash fh) with
  | some i =>
    let slot := c.slots i
    if slot.dirVp = dirVp then
      -- a slot without one of the keys gets the one that was asked with
      (.ok (slot.entries.getD []), { c.setSlot i { slot with
          lastUsed := c.lruCounter + 1
          pathHash := if pathHash ≠ 0 ∧ slot.pathHash = 0 then pathHash else slot.pathHash
          fh := if fh ≠ 0 ∧ slot.fh = 0 then fh else slot.fh } with lruCounter := c.lruCounter + 1 })
    else rebuildSlot (c.setSlot i clearSlot) pathHash fh dirVp listing
  | none => rebuildSlot c pathHash fh dirVp listing

def fusedirCacheGet (c : FusedirCache) (path : Name) (dirVp : VPtr) (listing : Except Err (List Dirent)) :
    Except Err (List Dirent) × FusedirCache :=
  getInternal c (fusedirHashPath path) 0 dirVp listing

def fusedirCacheGetFh (c : FusedirCache) (fh dirVp : VPtr) (listing : Except Err (List Dirent)) :
    Except Err (List Dirent) × FusedirCache :=
  getInternal c 0 fh dirVp listing

/-- `fusedir_cache_invalidate_vp`: the first slot that holds the directory. -/
def fusedirCacheInvalidateVp (c : FusedirCache) (vp : VPtr) : FusedirCache :=
  match c.findSlot fun s => s.dirVp == vp && s.entries.isSome with
  | some i => c.setSlot i clearSlot
  | none => c

/-! ## The callback -/

structure FuseDirMount where
  mount : FuseVfsState
  dirCache : FusedirCache

def isRootPath (path : Name) : Bool := path == [] || path == [slash]

/-- The directory that `fuse_vfs_readdir` lists. A path that is not found stands for the root, and so does one
whose hash is `0`. -/
def readdirVp (m : FuseVfsState) (path : Name) (fh : VPtr) : VPtr :=
  let pathHash := if isRootPath path then 0 else fusedirHashPath path
  if fh ≠ 0 then fh
  else if pathHash ≠ 0 then
    match resolveFullPath m.vfs m.epoch path with
    | .ok vp => vp
    | .error _ => m.vfs.root
  else m.vfs.root

/-- The lookup of `fuse_vfs_readdir`: the listing, from the cache or from the volume. -/
def cachedListing (d : FuseDirMount) (path : Name) (fh : VPtr) : Except Err (List Dirent) × FuseDirMount :=
  let dirVp := readdirVp d.mount path fh
  let listing := vfsReaddir d.mount.vfs dirVp d.mount.epoch
  let r :=
    if fh ≠ 0 then fusedirCacheGetFh d.dirCache fh dirVp listing
    else fusedirCacheGet d.dirCache (if isRootPath path then [slash] else path) dirVp listing
  (r.1, { d with dirCache := r.2 })

section Filler

variable {σ : Type}

/-- A call of the filler: whether the buffer was full, and the buffer after it. -/
abbrev Filler (σ : Type) : Type := σ → Name → Int → Bool × σ

/-- What a call of `readdir` did: the entries that were accepted with their offsets, and the one that was
refused, if any. -/
structure Filled (σ : Type) where
  buf : σ
  accepted : List (Name × Int)
  refused : Option (Name × Int)
  deriving DecidableEq

/-- Offers one entry, and goes on with `next` if it was accepted. -/
def offerThen (filler : Filler σ) (buf : σ) (name : Name) (off : Int) (next : σ → Filled σ) : Filled σ :=
  match filler buf name off with
  | (true, buf) => ⟨buf, [], some (name, off)⟩
  | (false, buf) =>
    let r := next buf
    { r with accepted := (name, off) :: r.accepted }

/-- The loop over the entries from index `i` on. -/
def fillEntries (filler : Filler σ) (buf : σ) (i : Nat) : List Dirent → Filled σ
  | [] => ⟨buf, [], none⟩
  | e :: rest => offerThen filler buf e.name (i + 3) fun buf => fillEntries filler buf (i + 1) rest

/-- The end of `fuse_vfs_readdir`: the special entries, then the listing. -/
def fillFrom (filler : Filler σ) (buf : σ) (entries : List Dirent) (offset : Int) : Filled σ :=
  if offset ≤ 0 then
    offerThen filler buf (ascii ".") 1 fun buf =>
      offerThen filler buf (ascii "..") 2 fun buf => fillEntries filler buf 0 entries
  else if offset = 1 then
    offerThen filler buf (ascii "..") 2 fun buf => fillEntries filler buf 0 entries
  else fillEntries filler buf (offset - 2).toNat (entries.drop (offset - 2).toNat)

def fuseVfsReaddir (filler : Filler σ) (buf : σ) (d : FuseDirMount) (path : Name) (fh : VPtr) (offset : Int) :
    Except Errno (Filled σ) × FuseDirMount :=
  let r := cachedListing d path fh
  match r.1 with
  | .ok entries => (.ok (fillFrom filler buf entries offset), r.2)
  | .error e => (.error (vfsErrorToErrno e), r.2)

end Filler

/-! ## What a lookup does -/

section Lookup

variable {c : FusedirCache} {pathHash : UInt64} {fh dirVp : VPtr} {listing : Except Err (List Dirent)}

@[simp] theorem setSlot_self (c : FusedirCache) (i : Fin fusedirCacheSize) (s : FusedirCacheSlot) :
    (c.setSlot i s).slots i = s := Function.update_self ..

theorem setSlot_of_ne (c : FusedirCache) {i j : Fin fusedirCacheSize} (hj : j ≠ i) (s : FusedirCacheSlot) :
    (c.setSlot i s).slots j = c.slots j := Function.update_of_ne hj ..

theorem findSlot_eq_some {p : FusedirCacheSlot → Bool} {i : Fin fusedirCacheSize} (h : c.findSlot p = some i) :
    p (c.slots i) = true := by
  have := List.find?_some h
  exact this

theorem findSlot_eq_none {p : FusedirCacheSlot → Bool} (h : c.findSlot p = none) (i : Fin fusedirCacheSize) :
    ¬ p (c.slots i) = true :=
  List.find?_eq_none.1 h i (List.mem_finRange i)

def FusedirCacheSlot.Used (s : FusedirCacheSlot) : Prop := s.entries.isSome = true

theorem hasKey_iff {s : FusedirCacheSlot} : s.hasKey pathHash fh = true ↔
    s.Used ∧ (pathHash ≠ 0 ∧ s.pathHash = pathHash ∨ fh ≠ 0 ∧ s.fh = fh) := by
  simp [FusedirCacheSlot.hasKey, FusedirCacheSlot.Used]

theorem not_used_clearSlot : ¬ clearSlot.Used := nofun

structure FusedirCache.Fewer (c c' : FusedirCache) : Prop where
  slot : ∀ i, c'.slots i = c.slots i ∨ ¬ (c'.slots i).Used

theorem FusedirCache.Fewer.refl (c : FusedirCache) : c.Fewer c := ⟨fun _ => .inl rfl⟩

theorem FusedirCache.Fewer.trans {c₁ c₂ c₃ : FusedirCache} (h : c₁.Fewer c₂) (h' : c₂.Fewer c₃) : c₁.Fewer c₃ := by
  refine ⟨fun i => ?_⟩
  obtain heq | hnot := h'.slot i
  · rw [heq]
    exact h.slot i
  · exact .inr hnot

theorem FusedirCache.Fewer.setSlot (c : FusedirCache) (i : Fin fusedirCacheSize) {s : FusedirCacheSlot}
    (hs : ¬ s.Used) : c.Fewer (c.setSlot i s) := by
  refine ⟨fun j => ?_⟩
  by_cases hj : j = i
  · subst hj
    exact .inr (by rwa [setSlot_self])
  · exact .inl (setSlot_of_ne c hj s)

theorem FusedirCache.Fewer.used {c c' : FusedirCache} (h : c.Fewer c') {i : Fin fusedirCacheSize}
    (hi : (c'.slots i).Used) : c'.slots i = c.slots i :=
  (h.slot i).resolve_right fun hnot => hnot hi

def FusedirCache.KeysUnique (c : FusedirCache) : Prop :=
  ∀ pathHash fh, pathHash = 0 ∨ fh = 0 → ∀ i j, (c.slots i).hasKey pathHash fh = true →
    (c.slots j).hasKey pathHash fh = true → i = j

theorem keysUnique_init : fusedirCacheInit.KeysUnique := by
  intro pathHash fh _ i j hi
  cases hi

theorem FusedirCache.KeysUnique.fewer {c' : FusedirCache} (h : c.KeysUnique) (hfewer : c.Fewer c') :
    c'.KeysUnique := by
  intro pathHash fh hone i j hi hj
  rw [hfewer.used (hasKey_iff.1 hi).1] at hi
  rw [hfewer.used (hasKey_iff.1 hj).1] at hj
  exact h pathHash fh hone i j hi hj

def builtSlot (pathHash : UInt64) (fh dirVp : VPtr) (l : List Dirent) (lastUsed : Nat) : FusedirCacheSlot :=
  ⟨pathHash, if pathHash ≠ 0 then 0 else fh, dirVp, listingBuffer l, lastUsed⟩

theorem entries_builtSlot {l : List Dirent} {lastUsed : Nat} (h : (builtSlot pathHash fh dirVp l lastUsed).Used) :
    (builtSlot pathHash fh dirVp l lastUsed).entries = some l := by
  cases l with
  | nil => cases h
  | cons e l => rfl

/-- The ways a lookup can go: a slot with the key holds the directory; or no slot with the key is left, and the
listing is read into a slot without one; or there is no listing. -/
inductive GetStep (c : FusedirCache) (pathHash : UInt64) (fh dirVp : VPtr) (listing : Except Err (List Dirent)) :
    Except Err (List Dirent) × FusedirCache → Prop
  | hit (i : Fin fusedirCacheSize) (entries : List Dirent) (counter : Nat)
      (hkey : (c.slots i).hasKey pathHash fh = true) (hdir : (c.slots i).dirVp = dirVp)
      (hentries : (c.slots i).entries = some entries) :
      GetStep c pathHash fh dirVp listing
        (.ok entries, { c.setSlot i { c.slots i with lastUsed := counter } with lruCounter := counter })
  | built (c' : FusedirCache) (i : Fin fusedirCacheSize) (l : List Dirent) (hlisting : listing = .ok l)
      (hmiss : ∀ j, (c.slots j).hasKey pathHash fh = true → (c.slots j).dirVp ≠ dirVp)
      (hfewer : c.Fewer c') (hfree : ¬ (c'.slots i).Used)
      (hnone : ∀ j, ¬ (c'.slots j).hasKey pathHash fh = true) :
      GetStep c pathHash fh dirVp listing
        (.ok l, c'.setSlot i (builtSlot pathHash fh dirVp l (c'.slots i).lastUsed))
  | failed (c' : FusedirCache) (e : Err) (hlisting : listing = .error e)
      (hmiss : ∀ j, (c.slots j).hasKey pathHash fh = true → (c.slots j).dirVp ≠ dirVp) (hfewer : c.Fewer c') :
      GetStep c pathHash fh dirVp listing (.error .io, c')

theorem acquireSlot_spec (c : FusedirCache) :
    c.Fewer (acquireSlot c).2 ∧ ¬ ((acquireSlot c).2.slots (acquireSlot c).1).Used := by
  rw [acquireSlot]
  split
  · rename_i i hfind
    have hnone := findSlot_eq_some hfind
    refine ⟨.refl c, ?_⟩
    rw [FusedirCacheSlot.Used, Option.isSome_eq_false_iff.2 hnone]
    nofun
  · refine ⟨.setSlot c _ not_used_clearSlot, ?_⟩
    rw [setSlot_self]
    exact not_used_clearSlot

theorem rebuildSlot_ok (c : FusedirCache) (pathHash : UInt64) (fh dirVp : VPtr) (l : List Dirent) :
    rebuildSlot c pathHash fh dirVp (.ok l) = (.ok l, (acquireSlot c).2.setSlot (acquireSlot c).1
      (builtSlot pathHash fh dirVp l ((acquireSlot c).2.slots (acquireSlot c).1).lastUsed)) := by
  rw [rebuildSlot, builtSlot]
  split
  · rfl
  · rename_i hzero
    rw [not_not.1 hzero]
    rfl

theorem rebuildSlot_error (c : FusedirCache) (pathHash : UInt64) (fh dirVp : VPtr) (e : Err) :
    rebuildSlot c pathHash fh dirVp (.error e) = (.error .io, (acquireSlot c).2.setSlot (acquireSlot c).1
      { (acquireSlot c).2.slots (acquireSlot c).1 with pathHash := 0, fh := 0, dirVp := 0 }) := by
  rw [rebuildSlot]
  split <;> rfl

theorem rebuildSlot_step {c₀ : FusedirCache} (hfewer : c₀.Fewer c)
    (hmiss : ∀ j, (c₀.slots j).hasKey pathHash fh = true → (c₀.slots j).dirVp ≠ dirVp)
    (hnone : ∀ j, ¬ (c.slots j).hasKey pathHash fh = true) :
    GetStep c₀ pathHash fh dirVp listing (rebuildSlot c pathHash fh dirVp listing) := by
  obtain ⟨hacquired, hfree⟩ := acquireSlot_spec c
  have hfewer' := hfewer.trans hacquired
  have hnone' : ∀ j, ¬ ((acquireSlot c).2.slots j).hasKey pathHash fh = true := by
    intro j hj
    rw [hacquired.used (hasKey_iff.1 hj).1] at hj
    exact hnone j hj
  cases listing with
  | ok l =>
    rw [rebuildSlot_ok]
    exact .built _ _ l rfl hmiss hfewer' hfree hnone'
  | error e =>
    rw [rebuildSlot_error]
    exact .failed _ e rfl hmiss (hfewer'.trans (.setSlot _ _ hfree))

theorem getInternal_step (hc : c.KeysUnique) (hone : pathHash = 0 ∨ fh = 0) (dirVp : VPtr)
    (listing : Except Err (List Dirent)) :
    GetStep c pathHash fh dirVp listing (getInternal c pathHash fh dirVp listing) := by
  rw [getInternal]
  split
  · rename_i i hfind
    have hkey := findSlot_eq_some hfind
    obtain ⟨hused, hmatch⟩ := hasKey_iff.1 hkey
    obtain ⟨entries, hentries⟩ := Option.isSome_iff_exists.1 hused
    dsimp only
    split
    · rename_i hdir
      -- the slot has the key already, and the other key is not given
      have hhash : (if pathHash ≠ 0 ∧ (c.slots i).pathHash = 0 then pathHash else (c.slots i).pathHash) =
          (c.slots i).pathHash := by
        grind
      have hfh : (if fh ≠ 0 ∧ (c.slots i).fh = 0 then fh else (c.slots i).fh) = (c.slots i).fh := by
        grind
      have hget : (c.slots i).entries.getD [] = entries := by rw [hentries, Option.getD_some]
      rw [hhash, hfh, hget]
      exact .hit i entries (c.lruCounter + 1) hkey hdir hentries
    · rename_i hdir
      refine rebuildSlot_step (.setSlot c i not_used_clearSlot) (fun j hj => ?_) fun j hj => ?_
      · rwa [hc pathHash fh hone j i hj hkey]
      by_cases hji : j = i
      · rw [hji, setSlot_self] at hj
        exact not_used_clearSlot (hasKey_iff.1 hj).1
      · rw [setSlot_of_ne c hji] at hj
        exact hji (hc pathHash fh hone j i hj hkey)
  · rename_i hfind
    have hnone := findSlot_eq_none hfind
    exact rebuildSlot_step (.refl c) (fun j hj => absurd hj (hnone j)) hnone

theorem hasKey_builtSlot {l : List Dirent} {lastUsed : Nat} (hone : pathHash = 0 ∨ fh = 0) {h : UInt64} {f : VPtr}
    (hone' : h = 0 ∨ f = 0) (hkey : (builtSlot pathHash fh dirVp l lastUsed).hasKey h f = true) :
    h = pathHash ∧ f = fh := by
  obtain ⟨-, hmatch⟩ := hasKey_iff.1 hkey
  simp only [builtSlot] at hmatch
  grind

theorem FusedirCache.KeysUnique.setSlot (hc : c.KeysUnique) {i : Fin fusedirCacheSize} {s : FusedirCacheSlot}
    (hs : ∀ h f, h = 0 ∨ f = 0 → s.hasKey h f = true → ∀ j, j ≠ i → ¬ (c.slots j).hasKey h f = true) :
    (c.setSlot i s).KeysUnique := by
  intro h f hone a b ha hb
  by_cases hai : a = i <;> by_cases hbi : b = i
  · rw [hai, hbi]
  · rw [hai, setSlot_self] at ha
    rw [setSlot_of_ne c hbi] at hb
    exact absurd hb (hs h f hone ha b hbi)
  · rw [hbi, setSlot_self] at hb
    rw [setSlot_of_ne c hai] at ha
    exact absurd ha (hs h f hone hb a hai)
  · rw [setSlot_of_ne c hai] at ha
    rw [setSlot_of_ne c hbi] at hb
    exact hc h f hone a b ha hb

theorem GetStep.keysUnique {result : Except Err (List Dirent) × FusedirCache}
    (h : GetStep c pathHash fh dirVp listing result) (hc : c.KeysUnique) (hone : pathHash = 0 ∨ fh = 0) :
    result.2.KeysUnique := by
  cases h with
  | hit i entries counter hkey hdir hentries =>
    have := hc.setSlot (i := i) (s := { c.slots i with lastUsed := counter }) fun h f hone' hi j hji hj =>
      hji (hc h f hone' j i hj hi)
    exact this
  | built c' i l hlisting hmiss hfewer hfree hnone =>
    refine (hc.fewer hfewer).setSlot fun h f hone' hkey j _ hj => ?_
    obtain ⟨rfl, rfl⟩ := hasKey_builtSlot hone hone' hkey
    exact hnone j hj
  | failed c' e hlisting hmiss hfewer => exact hc.fewer hfewer

theorem GetStep.ok_of_slot {result : Except Err (List Dirent) × FusedirCache}
    (h : GetStep c pathHash fh dirVp listing result) (hc : c.KeysUnique) (hone : pathHash = 0 ∨ fh = 0)
    {i : Fin fusedirCacheSize} {l : List Dirent} (hkey : (c.slots i).hasKey pathHash fh = true)
    (hdir : (c.slots i).dirVp = dirVp) (hentries : (c.slots i).entries = some l) : result.1 = .ok l := by
  cases h with
  | hit j entries counter hkey' hdir' hentries' =>
    rw [hc pathHash fh hone j i hkey' hkey, hentries] at hentries'
    cases hentries'
    rfl
  | built c' j l' hlisting hmiss => exact absurd hdir (hmiss i hkey)
  | failed c' e hlisting hmiss => exact absurd hdir (hmiss i hkey)

theorem GetStep.ok_of_listing {result : Except Err (List Dirent) × FusedirCache} {l : List Dirent}
    (h : GetStep c pathHash fh dirVp (.ok l) result)
    (hkeys : ∀ i, (c.slots i).hasKey pathHash fh = true → (c.slots i).dirVp = dirVp →
      (c.slots i).entries = some l) : result.1 = .ok l := by
  cases h with
  | hit i entries counter hkey hdir hentries =>
    rw [hkeys i hkey hdir] at hentries
    cases hentries
    rfl
  | built c' j l' hlisting hmiss =>
    cases hlisting
    rfl
  | failed c' e hlisting => cases hlisting

theorem getInternal_again (hc : c.KeysUnique) (hone : pathHash = 0 ∨ fh = 0) {l : List Dirent}
    (h : (getInternal c pathHash fh dirVp listing).1 = .ok l) :
    (getInternal (getInternal c pathHash fh dirVp listing).2 pathHash fh dirVp listing).1 = .ok l := by
  have hfirst := getInternal_step hc hone dirVp listing
  have hunique := hfirst.keysUnique hc hone
  have hsecond := getInternal_step hunique hone dirVp listing
  generalize getInternal c pathHash fh dirVp listing = first at h hfirst hunique hsecond ⊢
  cases hfirst with
  | hit i entries counter hkey hdir hentries =>
    cases h
    have hslot := setSlot_self c i { c.slots i with lastUsed := counter }
    refine hsecond.ok_of_slot hunique hone (i := i) ?_ ?_ ?_
    · exact (congrArg (FusedirCacheSlot.hasKey pathHash fh) hslot).trans hkey
    · exact (congrArg FusedirCacheSlot.dirVp hslot).trans hdir
    · exact (congrArg FusedirCacheSlot.entries hslot).trans hentries
  | built c' i l' hlisting hmiss hfewer hfree hnone =>
    cases h
    subst hlisting
    refine hsecond.ok_of_listing fun j hkey _ => ?_
    by_cases hji : j = i
    · rw [hji, setSlot_self] at hkey ⊢
      exact entries_builtSlot (hasKey_iff.1 hkey).1
    · rw [setSlot_of_ne _ hji] at hkey
      exact absurd hkey (hnone j)
  | failed c' e hlisting => cases h

end Lookup

/-! ## The key of a call -/

/-- The hash that `fuse_vfs_readdir` looks up: none if there is a handle. -/
def lookupHash (path : Name) (fh : VPtr) : UInt64 :=
  if fh ≠ 0 then 0 else fusedirHashPath (if isRootPath path then [slash] else path)

theorem lookupHash_one (path : Name) (fh : VPtr) : lookupHash path fh = 0 ∨ fh = 0 := by
  by_cases hfh : fh = 0
  · exact .inr hfh
  · exact .inl (if_pos hfh)

theorem cachedListing_eq (d : FuseDirMount) (path : Name) (fh : VPtr) :
    cachedListing d path fh =
      let r := getInternal d.dirCache (lookupHash path fh) fh (readdirVp d.mount path fh)
        (vfsReaddir d.mount.vfs (readdirVp d.mount path fh) d.mount.epoch)
      (r.1, { d with dirCache := r.2 }) := by
  by_cases hfh : fh = 0
  · subst hfh
    rfl
  · simp only [cachedListing, lookupHash, if_pos hfh, fusedirCacheGetFh]

theorem cachedListing_step {d : FuseDirMount} (hc : d.dirCache.KeysUnique) (path : Name) (fh : VPtr) :
    GetStep d.dirCache (lookupHash path fh) fh (readdirVp d.mount path fh)
      (vfsReaddir d.mount.vfs (readdirVp d.mount path fh) d.mount.epoch)
      ((cachedListing d path fh).1, (cachedListing d path fh).2.dirCache) := by
  rw [cachedListing_eq]
  exact getInternal_step hc (lookupHash_one path fh) _ _

end SphereVFS
