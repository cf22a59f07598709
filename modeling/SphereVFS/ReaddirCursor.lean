import SphereVFS.FuseDirCache

/-!
# SphereVFS.ReaddirCursor

Reading a directory in several calls.

The offset of an entry is the number of entries up to it, the two special ones included, so that a call offers
what is left of one numbered list. Each call accepts a part from its front, and the next one starts behind that
part. As long as a call that offers anything gets an entry accepted, the calls come to the end of the list, and
together they have accepted it once and in order.
-/

namespace SphereVFS

/-! ## What a call offers -/

/-- The entries of a listing from index `i` on, with their offsets. -/
def numbered (i : Nat) : List Dirent → List (Name × Int)
  | [] => []
  | e :: rest => (e.name, (i : Int) + 3) :: numbered (i + 1) rest

def offers (entries : List Dirent) : List (Name × Int) :=
  (ascii ".", 1) :: (ascii "..", 2) :: numbered 0 entries

theorem numbered_map_fst (i : Nat) (entries : List Dirent) :
    (numbered i entries).map Prod.fst = entries.map Dirent.name := by
  induction entries generalizing i with
  | nil => rfl
  | cons e rest ih => rw [numbered, List.map_cons, List.map_cons, ih]

theorem numbered_drop (i n : Nat) (entries : List Dirent) :
    (numbered i entries).drop n = numbered (i + n) (entries.drop n) := by
  induction n generalizing i entries with
  | zero => rfl
  | succ n ih =>
    cases entries with
    | nil => rfl
    | cons e rest =>
      rw [numbered, List.drop_succ_cons, List.drop_succ_cons, ih, Nat.add_right_comm, Nat.add_assoc]

theorem numbered_snd (i n : Nat) (entries : List Dirent) (e : Name × Int)
    (h : (numbered i entries)[n]? = some e) : e.2 = (i + n : Nat) + 3 := by
  induction n generalizing i entries with
  | zero =>
    cases entries with
    | nil => cases h
    | cons x rest =>
      cases h
      rfl
  | succ n ih =>
    cases entries with
    | nil => cases h
    | cons x rest =>
      rw [numbered, List.getElem?_cons_succ] at h
      rw [ih (i + 1) rest h]
      omega

theorem offers_snd {entries : List Dirent} {n : Nat} {e : Name × Int} (h : (offers entries)[n]? = some e) :
    e.2 = (n : Int) + 1 := by
  match n with
  | 0 =>
    cases h
    rfl
  | 1 =>
    cases h
    rfl
  | n + 2 =>
    rw [offers, List.getElem?_cons_succ, List.getElem?_cons_succ] at h
    rw [numbered_snd 0 n entries e h]
    omega

section Filler

variable {σ : Type} (filler : Filler σ)

def fillList (buf : σ) : List (Name × Int) → Filled σ
  | [] => ⟨buf, [], none⟩
  | e :: rest => offerThen filler buf e.1 e.2 fun buf => fillList buf rest

theorem fillEntries_eq (buf : σ) (i : Nat) (entries : List Dirent) :
    fillEntries filler buf i entries = fillList filler buf (numbered i entries) := by
  induction entries generalizing buf i with
  | nil => rfl
  | cons e rest ih =>
    rw [fillEntries, numbered, fillList]
    simp only [ih]

theorem fillFrom_eq (buf : σ) (entries : List Dirent) (offset : Int) :
    fillFrom filler buf entries offset = fillList filler buf ((offers entries).drop offset.toNat) := by
  rw [fillFrom]
  split
  · rename_i hzero
    have : offset.toNat = 0 := by omega
    rw [this]
    simp only [fillEntries_eq]
    rfl
  split
  · rename_i hone
    rw [hone]
    simp only [fillEntries_eq]
    rfl
  · rename_i hpos hone
    obtain ⟨n, hn⟩ : ∃ n : Nat, offset = n + 2 := ⟨(offset - 2).toNat, by omega⟩
    have htwo : (offset - 2).toNat = n := by omega
    have hall : offset.toNat = n + 2 := by omega
    rw [htwo, hall, fillEntries_eq, offers, List.drop_succ_cons, List.drop_succ_cons, numbered_drop, Nat.zero_add]

theorem fillList_accepted (buf : σ) (l : List (Name × Int)) :
    ∃ k, (fillList filler buf l).accepted = l.take k ∧
      ((fillList filler buf l).refused = none → l.length ≤ k) ∧ k ≤ l.length := by
  induction l generalizing buf with
  | nil => exact ⟨0, rfl, fun _ => Nat.le_refl _, Nat.le_refl _⟩
  | cons e rest ih =>
    rw [fillList, offerThen]
    cases filler buf e.1 e.2 with
    | mk full buf' =>
      cases full with
      | true => exact ⟨0, rfl, nofun, Nat.zero_le _⟩
      | false =>
        obtain ⟨k, haccepted, hall, hk⟩ := ih buf'
        refine ⟨k + 1, ?_, fun hnone => Nat.succ_le_succ (hall hnone), Nat.succ_le_succ hk⟩
        rw [List.take_succ_cons, ← haccepted]

theorem fillFrom_all {filler : Filler σ} {buf : σ} {entries : List Dirent}
    (h : (fillFrom filler buf entries 0).refused = none) :
    (fillFrom filler buf entries 0).accepted.map Prod.fst =
      ascii "." :: ascii ".." :: entries.map Dirent.name := by
  rw [fillFrom_eq] at h ⊢
  obtain ⟨k, haccepted, hall, -⟩ := fillList_accepted filler buf ((offers entries).drop 0)
  rw [Int.toNat_zero] at h ⊢
  rw [haccepted, List.take_of_length_le (hall h), List.drop_zero, offers, List.map_cons, List.map_cons,
    numbered_map_fst]

/-! ## Calls that follow each other -/

abbrev Calls (σ : Type) : Type := Nat → FuseDirMount × σ

variable (path : Name) (fh : VPtr) (calls : Calls σ)

/-- The answer of call `n` at an offset. -/
def answerAt (n : Nat) (offset : Int) : Except Errno (Filled σ) :=
  (fuseVfsReaddir filler (calls n).2 (calls n).1 path fh offset).1

def acceptedOf : Except Errno (Filled σ) → List (Name × Int)
  | .ok f => f.accepted
  | .error _ => []

/-- The offset that call `n` is made with: `0`, then that of the last entry that was accepted. -/
def offsetAt : Nat → Int
  | 0 => 0
  | n + 1 =>
    match (acceptedOf (answerAt filler path fh calls n (offsetAt n))).getLast? with
    | some e => e.2
    | none => offsetAt n

/-- What call `n` accepts. -/
def acceptedAt (n : Nat) : List (Name × Int) :=
  acceptedOf (answerAt filler path fh calls n (offsetAt filler path fh calls n))

def OffersNothing : Except Errno (Filled σ) → Prop
  | .ok f => f.accepted = [] ∧ f.refused = none
  | .error _ => False

def AcceptsOne : Except Errno (Filled σ) → Prop
  | .ok f => f.accepted = [] → f.refused = none
  | .error _ => True

variable {filler path fh calls} {entries : List Dirent}

theorem answerAt_eq (hlisting : ∀ n, (cachedListing (calls n).1 path fh).1 = .ok entries) (n : Nat) (offset : Int) :
    answerAt filler path fh calls n offset =
      .ok (fillList filler (calls n).2 ((offers entries).drop offset.toNat)) := by
  simp only [answerAt, fuseVfsReaddir, hlisting, fillFrom_eq]

theorem getLast_offers {p k : Nat} {e : Name × Int} (hk : k ≤ ((offers entries).drop p).length)
    (h : (((offers entries).drop p).take k).getLast? = some e) : e.2 = (p + k : Nat) := by
  rw [List.getLast?_eq_getElem?, List.length_take, Nat.min_eq_left hk] at h
  cases k with
  | zero => simp at h
  | succ k =>
    rw [Nat.add_sub_cancel, List.getElem?_take_of_lt (Nat.lt_succ_self k), List.getElem?_drop] at h
    rw [offers_snd h]
    omega

variable (filler) in
theorem accepted_upTo (hlisting : ∀ n, (cachedListing (calls n).1 path fh).1 = .ok entries) (n : Nat) :
    ∃ p : Nat, offsetAt filler path fh calls n = p ∧ p ≤ (offers entries).length ∧
      (List.range n).flatMap (acceptedAt filler path fh calls) = (offers entries).take p ∧
      ∃ k, acceptedAt filler path fh calls n = ((offers entries).drop p).take k ∧
        offsetAt filler path fh calls (n + 1) = (p + k : Nat) ∧ p + k ≤ (offers entries).length := by
  -- the part that a call at offset `p` accepts, and the offset after it
  have hcall : ∀ n p : Nat, offsetAt filler path fh calls n = p → p ≤ (offers entries).length →
      ∃ k, acceptedAt filler path fh calls n = ((offers entries).drop p).take k ∧
        offsetAt filler path fh calls (n + 1) = (p + k : Nat) ∧ p + k ≤ (offers entries).length := by
    intro n p hp hle
    obtain ⟨k, haccepted, -, hk⟩ := fillList_accepted filler (calls n).2 ((offers entries).drop p)
    have hanswer : acceptedOf (answerAt filler path fh calls n (offsetAt filler path fh calls n)) =
        ((offers entries).drop p).take k := by
      rw [answerAt_eq hlisting, hp, Int.toNat_natCast, acceptedOf, haccepted]
    have hlength := hk
    rw [List.length_drop] at hlength
    refine ⟨k, hanswer, ?_, by omega⟩
    rw [offsetAt, hanswer]
    cases hlast : (((offers entries).drop p).take k).getLast? with
    | some e => exact getLast_offers hk hlast
    | none =>
      rw [List.getLast?_eq_none_iff, List.take_eq_nil_iff] at hlast
      have hzero : k = 0 := by
        obtain hzero | hnil := hlast
        · exact hzero
        · rw [hnil] at hk
          exact Nat.le_zero.1 hk
      rw [hzero, Nat.add_zero]
      exact hp
  induction n with
  | zero => exact ⟨0, rfl, Nat.zero_le _, rfl, hcall 0 0 rfl (Nat.zero_le _)⟩
  | succ n ih =>
    obtain ⟨p, -, -, hsofar, k, haccepted, hnext, hle⟩ := ih
    refine ⟨p + k, hnext, hle, ?_, hcall (n + 1) (p + k) hnext hle⟩
    rw [List.range_succ, List.flatMap_append, hsofar, List.flatMap_singleton, haccepted, List.take_add]

theorem le_offsetAt (hlisting : ∀ n, (cachedListing (calls n).1 path fh).1 = .ok entries) {n : Nat}
    (hsome : ∀ k < n, acceptedAt filler path fh calls k ≠ []) : (n : Int) ≤ offsetAt filler path fh calls n := by
  induction n with
  | zero => exact Int.le_refl 0
  | succ n ih =>
    have hn := ih fun k hk => hsome k (Nat.lt_succ_of_lt hk)
    obtain ⟨p, hp, -, -, k, haccepted, hnext, -⟩ := accepted_upTo filler hlisting n
    have hpos : k ≠ 0 := by
      rintro rfl
      exact hsome n (Nat.lt_succ_self n) haccepted
    omega

theorem offersNothing_of_accepted_nil (hlisting : ∀ n, (cachedListing (calls n).1 path fh).1 = .ok entries) {n : Nat}
    (hone : AcceptsOne (answerAt filler path fh calls n (offsetAt filler path fh calls n)))
    (hnil : acceptedAt filler path fh calls n = []) :
    OffersNothing (answerAt filler path fh calls n (offsetAt filler path fh calls n)) ∧
      (List.range n).flatMap (acceptedAt filler path fh calls) = offers entries := by
  obtain ⟨p, hp, -, hsofar, -⟩ := accepted_upTo filler hlisting n
  rw [acceptedAt, answerAt_eq hlisting, hp, Int.toNat_natCast] at hnil
  rw [answerAt_eq hlisting, hp, Int.toNat_natCast] at hone ⊢
  have hnone := hone hnil
  refine ⟨⟨hnil, hnone⟩, ?_⟩
  obtain ⟨k, haccepted, hall, -⟩ := fillList_accepted filler (calls n).2 ((offers entries).drop p)
  have hempty : (offers entries).drop p = [] := by
    rw [← List.take_of_length_le (hall hnone), ← haccepted]
    exact hnil
  rw [hsofar, List.take_of_length_le (List.drop_eq_nil_iff.1 hempty)]

variable (filler path fh calls) in
/-- Calls of `readdir` that each go on from the last accepted entry, on a directory with one and the same listing,
come to one that offers nothing; up to it each has accepted something, and together they have accepted `.`, `..`
and every entry of the listing once, in this order. -/
theorem readdir_resumes (hlisting : ∀ n, (cachedListing (calls n).1 path fh).1 = .ok entries)
    (hone : ∀ n, AcceptsOne (answerAt filler path fh calls n (offsetAt filler path fh calls n))) :
    ∃ n, OffersNothing (answerAt filler path fh calls n (offsetAt filler path fh calls n)) ∧
      (∀ k < n, acceptedAt filler path fh calls k ≠ []) ∧
      ((List.range n).flatMap (acceptedAt filler path fh calls)).map Prod.fst =
        ascii "." :: ascii ".." :: entries.map Dirent.name := by
  classical
  have hends : ∃ n, acceptedAt filler path fh calls n = [] := by
    by_contra hnever
    rw [not_exists] at hnever
    have hle := le_offsetAt hlisting (n := (offers entries).length + 1) fun k _ => hnever k
    obtain ⟨p, hp, hbound, -⟩ := accepted_upTo filler hlisting ((offers entries).length + 1)
    omega
  obtain ⟨hnothing, hall⟩ := offersNothing_of_accepted_nil hlisting (hone _) (Nat.find_spec hends)
  refine ⟨Nat.find hends, hnothing, fun k hk => Nat.find_min hends hk, ?_⟩
  rw [hall, offers, List.map_cons, List.map_cons, numbered_map_fst]

/-! ## Calls on one mount -/

variable {d : FuseDirMount} {l : List Dirent}

theorem cachedListing_again (hc : d.dirCache.KeysUnique) (h : (cachedListing d path fh).1 = .ok l) :
    (cachedListing d path fh).2.dirCache.KeysUnique ∧
      (cachedListing (cachedListing d path fh).2 path fh).1 = .ok l := by
  have hone := lookupHash_one path fh
  refine ⟨(cachedListing_step hc path fh).keysUnique hc hone, ?_⟩
  rw [cachedListing_eq] at h ⊢
  rw [cachedListing_eq]
  exact getInternal_again hc hone h

/-- The mount after `n` calls. -/
def mountAfter (d : FuseDirMount) (path : Name) (fh : VPtr) : Nat → FuseDirMount
  | 0 => d
  | n + 1 => (cachedListing (mountAfter d path fh n) path fh).2

theorem mountAfter_listing (hc : d.dirCache.KeysUnique) (h : (cachedListing d path fh).1 = .ok l) (n : Nat) :
    (mountAfter d path fh n).dirCache.KeysUnique ∧ (cachedListing (mountAfter d path fh n) path fh).1 = .ok l := by
  induction n with
  | zero => exact ⟨hc, h⟩
  | succ n ih => exact cachedListing_again ih.1 ih.2

theorem acceptsOne_of_room {n : Nat} (hroom : ∀ name off, (filler (calls n).2 name off).1 = false) (offset : Int) :
    AcceptsOne (answerAt filler path fh calls n offset) := by
  rw [answerAt, fuseVfsReaddir]
  cases (cachedListing (calls n).1 path fh).1 with
  | error e => trivial
  | ok entries =>
    dsimp only
    rw [fillFrom_eq]
    cases (offers entries).drop offset.toNat with
    | nil => exact fun _ => rfl
    | cons e rest =>
      intro hnil
      have hfirst := hroom e.1 e.2
      rw [fillList, offerThen] at hnil
      cases hfill : filler (calls n).2 e.1 e.2 with
      | mk full buf =>
        rw [hfill] at hfirst
        cases (show full = false from hfirst)
        rw [hfill] at hnil
        cases hnil

end Filler

def roomFor : Filler Nat := fun room _ _ => (room == 0, room - 1)

/-- A new volume with the files `a`, `b` and `c`. -/
def threeFiles : FuseDirMount :=
  ⟨(fuseVfsCreate (fuseVfsCreate (fuseVfsCreate (fuseVfsInit (bootstrap 8192 1024) ⟨0, false⟩)
    (ascii "/a")).2 (ascii "/b")).2 (ascii "/c")).2, fusedirCacheInit⟩

/-- The root is read with room for one entry and for two entries in turns. -/
theorem readdir_resumes_in_turns :
    ∃ n, ((List.range n).flatMap (acceptedAt roomFor [slash] 0
      fun n => (mountAfter threeFiles [slash] 0 n, n % 2 + 1))).map Prod.fst =
        [ascii ".", ascii "..", ascii "c", ascii "b", ascii "a"] := by
  have hlisting : (cachedListing threeFiles [slash] 0).1 =
      .ok [⟨8, 3, false, ascii "c"⟩, ⟨5, 2, false, ascii "b"⟩, ⟨2, 1, false, ascii "a"⟩] := by
    decide +kernel
  obtain ⟨n, -, -, hall⟩ := readdir_resumes roomFor [slash] 0
    (fun n => (mountAfter threeFiles [slash] 0 n, n % 2 + 1))
    (fun n => (mountAfter_listing keysUnique_init hlisting n).2) fun n => acceptsOne_of_room (fun _ _ => rfl) _
  exact ⟨n, hall⟩

end SphereVFS
