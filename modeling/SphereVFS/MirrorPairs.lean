import SphereVFS.StorageSteady

/-!
# SphereVFS.MirrorPairs

`mirror_write` on many pages, interleaved with allocations and frees of other pages.

A page is followed from its first write on, if nothing was ever written to its record before. After one
write it has one record; from the second write on it has two, its own and that of its sibling, which
point at each other and hold the last payload and the one before it.
-/

namespace SphereVFS
namespace Storage

open Mirror

/-- The record at `s`: its generation, its link and its payload, with the right checksum. -/
structure RecordOf (crc : Words → UInt32) (d : Disk Words) (s generation : Nat) (link : Int) (w : Words) :
    Prop where
  header : ∃ ph, d.hdr s = some ph ∧ ph.generation = generation ∧ ph.mirrorPage = link ∧ ph.checksum = crc w
  payload : d.pay s = some w

/-- The records of page `p` with home `home` after the writes of `ws`, the newest first. A sibling is one
of the pages `m` with `Sibling m`, with its record at `record m`. -/
def Mirrors (crc : Words → UInt32) (d : Disk Words) (Sibling : Nat → Prop) (record : Nat → Nat) (p home : Nat) :
    List Words → Prop
  | [] => True
  | [w] => RecordOf crc d home 1 (-1) w
  | w :: v :: ws => ∃ m : Nat, Sibling m ∧
    (RecordOf crc d home (ws.length + 2) m w ∧ RecordOf crc d (record m) (ws.length + 1) p v ∨
      RecordOf crc d (record m) (ws.length + 2) p w ∧ RecordOf crc d home (ws.length + 1) m v)

/-! ## Runs -/

inductive MirrorCall where
  | allocate
  | free (page : Nat)
  | write (page : Nat) (payload : Words) (flags : Nat)

/-- The backend, the pages of the client, and for each page that is followed the payloads written to it,
the newest first. -/
structure MirrorSession where
  backend : Backend
  pages : Nat → Option (Option Words)
  written : Nat → Option (List Words)

/-- The payloads of a page after one more write. A page is followed if its record was never written. -/
def oneMore (s : MirrorSession) (page : Nat) (payload : Words) : Option (List Words) :=
  match s.written page with
  | some ws => some (payload :: ws)
  | none =>
    if (s.backend.disk.hdr (physicalOffset s.backend page)).isNone then some [payload] else none

def mirrorStep (crc : Words → UInt32) (s : MirrorSession) : MirrorCall → MirrorSession
  | .allocate =>
    match storageAllocate crc s.backend with
    | (some page, b) => { s with backend := b, pages := Function.update s.pages page (some none) }
    | (none, b) => { s with backend := b }
  | .free page =>
    ⟨storageFree crc s.backend page, Function.update s.pages page none, Function.update s.written page none⟩
  | .write page payload flags =>
    { s with
      backend := (mirrorWrite crc s.backend page (fun _ => payload) flags).2
      written := Function.update s.written page (oneMore s page payload) }

def mirrorRun (crc : Words → UInt32) (s : MirrorSession) (calls : List MirrorCall) : MirrorSession :=
  calls.foldl (mirrorStep crc) s

/-- Pages are freed by the client that has them, and written by the client or as overflow pages. -/
def MirrorCall.Names (s : MirrorSession) : MirrorCall → Bool
  | .allocate => true
  | .free page => decide (2 ≤ page) && (s.pages page).isSome
  | .write page _ _ => decide (page < 2 ^ 31) && ((s.pages page).isSome ||
    (List.range s.backend.overflowCount).any fun i => page == overflowLogical s.backend.pageSize i)

/-- A call names pages it may, and indices stay below `2 ^ 31`. -/
structure MirrorCall.Ok (crc : Words → UInt32) (s : MirrorSession) (c : MirrorCall) : Prop where
  names : c.Names s = true
  pages : (mirrorStep crc s c).backend.totalPages ≤ 2 ^ 31

instance (crc : Words → UInt32) (s : MirrorSession) (c : MirrorCall) : Decidable (c.Ok crc s) :=
  decidable_of_iff (c.Names s = true ∧ (mirrorStep crc s c).backend.totalPages ≤ 2 ^ 31)
    ⟨fun h => ⟨h.1, h.2⟩, fun h => ⟨h.names, h.pages⟩⟩

def newMirrorSession (crc : Words → UInt32) (pageSize : Nat) : MirrorSession :=
  ⟨(newSession crc pageSize).backend, (newSession crc pageSize).pages, fun _ => none⟩

/-! ## One write -/

section Write

variable {crc : Words → UInt32} {d d' : Disk Words} {Sibling Sibling' : Nat → Prop} {record record' : Nat → Nat}
  {p home home' : Nat} {w v : Words} {ws : List Words}

theorem RecordOf.frame {s generation : Nat} {link : Int} (h : RecordOf crc d s generation link w)
    (hhdr : d'.hdr s = d.hdr s) (hpay : d'.pay s = d.pay s) : RecordOf crc d' s generation link w :=
  ⟨by rw [hhdr]; exact h.header, by rw [hpay]; exact h.payload⟩

theorem recordOf_write (d : Disk Words) (s flags generation : Nat) (link : Int) (w : Words) :
    RecordOf crc (d.applyAll (writePageRecord s ⟨flags, crc w, generation, link⟩ w)) s generation link w :=
  ⟨⟨⟨flags, crc w, generation, link⟩, by simp, rfl, rfl, rfl⟩, by simp⟩

theorem Mirrors.frame (h : Mirrors crc d Sibling record p home ws) (hhome : home' = home)
    (hself : d'.hdr home = d.hdr home ∧ d'.pay home = d.pay home)
    (hsib : ∀ m, Sibling m → Sibling' m ∧ record' m = record m ∧ d'.hdr (record m) = d.hdr (record m) ∧
      d'.pay (record m) = d.pay (record m)) : Mirrors crc d' Sibling' record' p home' ws := by
  subst hhome
  match ws, h with
  | [], _ => trivial
  | [w], h => exact RecordOf.frame h hself.1 hself.2
  | w :: v :: ws, ⟨m, hm, h⟩ =>
    obtain ⟨hm', hrec, hhdr, hpay⟩ := hsib m hm
    refine ⟨m, hm', ?_⟩
    rw [hrec]
    exact h.imp (fun h => ⟨h.1.frame hself.1 hself.2, h.2.frame hhdr hpay⟩)
      fun h => ⟨h.1.frame hhdr hpay, h.2.frame hself.1 hself.2⟩

theorem RecordOf.current {s generation : Nat} {link : Int} (h : RecordOf crc d s generation link w) :
    (currentHeader d s).generation = generation ∧ (currentHeader d s).mirrorPage = link ∧
      (currentHeader d s).checksum = crc w ∧ d.hdr s = some (currentHeader d s) := by
  obtain ⟨ph, hph, hgen, hlink, hsum⟩ := h.header
  simp [currentHeader, hph, hgen, hlink, hsum]

theorem recordOf_link {s q flags : Nat} (h : RecordOf crc d home 1 (-1) v) (hne : home ≠ s) :
    RecordOf crc (d.applyAll (writePageRecord s ⟨flags, crc w, 2, (p : Int)⟩ w ++ [.link home (q : Int)]))
        s 2 p w ∧
      RecordOf crc (d.applyAll (writePageRecord s ⟨flags, crc w, 2, (p : Int)⟩ w ++ [.link home (q : Int)]))
        home 1 q v := by
  obtain ⟨ph, hph, hgen, -, hsum⟩ := h.header
  have hpay := h.payload
  refine ⟨⟨⟨⟨flags, crc w, 2, p⟩, ?_, rfl, rfl, rfl⟩, ?_⟩, ⟨⟨{ ph with mirrorPage := q }, ?_, hgen, rfl, hsum⟩, ?_⟩⟩
  · simp [writePageRecord, Disk.apply, hne.symm]
  · simp [writePageRecord, Disk.apply]
  · simp [writePageRecord, Disk.apply, hne, hph]
  · simp [writePageRecord, Disk.apply, hne, hpay]

theorem mirrors_alternate {s n flags : Nat} {ph phSib : PageHeader} {m : Nat} (hne : home ≠ s)
    (hph : d.hdr home = some ph) (hphSib : d.hdr s = some phSib) (hn : n + 1 < 2 ^ 32) {m' : Int}
    (h : RecordOf crc d home n m w ∧ RecordOf crc d s (n - 1) m' v ∨
      RecordOf crc d s n m' w ∧ RecordOf crc d home (n - 1) m v) (hpos : 0 < n) (w' : Words) :
    let d' := d.applyAll (alternateWrites (fun _ => crc w') home s ph phSib flags w')
    RecordOf crc d' home (n + 1) m w' ∧ RecordOf crc d' s n m' w ∨
      RecordOf crc d' s (n + 1) m' w' ∧ RecordOf crc d' home n m w := by
  have hsucc := succ32_of_lt hn
  obtain ⟨h1, h2⟩ | ⟨h1, h2⟩ := h
  · -- the page itself has the newer record
    right
    obtain ⟨ph1, hph1, hgen1, -, -⟩ := h1.header
    obtain ⟨ph2, hph2, hgen2, hlink2, -⟩ := h2.header
    rw [hph] at hph1
    rw [hphSib] at hph2
    cases hph1
    cases hph2
    have hle : ¬ ph.generation ≤ phSib.generation := by omega
    have hgt : ph.generation > phSib.generation := by omega
    have hws : alternateWrites (fun _ => crc w') home s ph phSib flags w' =
        writePageRecord s ⟨flags, crc w', n + 1, m'⟩ w' := by
      simp only [alternateWrites, if_neg hle, if_pos hgt]
      rw [hgen1, hsucc, hlink2]
    rw [hws]
    refine ⟨recordOf_write .., h1.frame ?_ ?_⟩
    · exact Function.update_of_ne hne ..
    · exact Function.update_of_ne hne ..
  · -- the sibling has the newer record
    left
    obtain ⟨ph1, hph1, hgen1, -, -⟩ := h1.header
    obtain ⟨ph2, hph2, hgen2, hlink2, -⟩ := h2.header
    rw [hphSib] at hph1
    rw [hph] at hph2
    cases hph1
    cases hph2
    have hle : ph.generation ≤ phSib.generation := by omega
    have hgt : ¬ ph.generation > phSib.generation := by omega
    have hws : alternateWrites (fun _ => crc w') home s ph phSib flags w' =
        writePageRecord home ⟨flags, crc w', n + 1, m⟩ w' := by
      simp only [alternateWrites, if_pos hle, if_neg hgt]
      rw [hgen1, hsucc, hlink2]
    rw [hws]
    refine ⟨recordOf_write .., h1.frame ?_ ?_⟩
    · exact Function.update_of_ne hne.symm ..
    · exact Function.update_of_ne hne.symm ..

end Write

/-- The records of a page of the backend after the writes of `ws`. -/
def PageMirrors (crc : Words → UInt32) (d : Disk Words) (L : Layout) (p : Nat) (ws : List Words) : Prop :=
  Mirrors crc d (fun m => L.kind m = .sibling p) L.home p (L.home p) ws

section Step

variable {crc : Words → UInt32} {b b' b1 : Backend} {pages : Nat → Option (Option Words)} {L L' L1 : Layout}
  {chain chain1 : List Nat} {p q flags : Nat} {w : Words} {ws : List Words}

theorem PageMirrors.frame {d d' : Disk Words} (h : PageMirrors crc d L p ws) (hhome : L'.home p = L.home p)
    (hkind : ∀ m, L.kind m = .sibling p → L'.kind m = .sibling p ∧ L'.home m = L.home m)
    (hdisk : ∀ s, L.Owns p s → d'.hdr s = d.hdr s ∧ d'.pay s = d.pay s) : PageMirrors crc d' L' p ws := by
  refine Mirrors.frame h hhome (hdisk _ (.inl rfl)) fun m hm => ?_
  obtain ⟨hk, hh⟩ := hkind m hm
  obtain ⟨hhdr, hpay⟩ := hdisk _ (.inr ⟨m, hm, rfl⟩)
  exact ⟨hk, hh, hhdr, hpay⟩

theorem PageMirrors.other {o : Nat} (h : PageMirrors crc b.disk L p ws)
    (hm : Mirrored crc pages b b' L L' o) (hmain : L.Main p) (hpo : p ≠ o)
    (hown : L.kind p = .client → pages p ≠ none) : PageMirrors crc b'.disk L' p ws := by
  have hkind : L'.kind p = L.kind p :=
    (hm.kind p hmain.1).resolve_right fun hc => hown hc.1 hc.2
  refine h.frame (hm.home p hmain.1) (fun m hk => ⟨?_, hm.home m (by simp [hk])⟩)
    (hm.records p hmain hpo hkind)
  rw [← hk]
  exact (hm.kind m (by simp [hk])).resolve_right (by simp [hk])

theorem PageMirrors.write (h : Steady crc b pages L chain) (hmain : L.Main p)
    (hown : L.kind p = .client → pages p ≠ none) (hoff : physicalOffset b p = L.home p)
    (halloc : storageAllocate crc b = (some q, b1)) (ht : Taken crc pages b b1 L L1 q chain chain1)
    (heq : mirrorWrite crc b p (fun _ => w) flags = (true, b')) (hw : WrittenBy b b' L L' b1 L1 p q)
    (hmax : b'.totalPages ≤ 2 ^ 31) (hp : p < 2 ^ 31) (hlen : ws.length + 1 < 2 ^ 32 - 1)
    (hnew : ws = [] → b.disk.hdr (L.home p) = none) (hws : PageMirrors crc b.disk L p ws) :
    PageMirrors crc b'.disk L' p (w :: ws) := by
  obtain ⟨d, hw⟩ := hw
  match ws, hws with
  | [], _ =>
    have hgen : (currentHeader b.disk (L.home p)).generation = 0 := by simp [currentHeader, hnew rfl]
    rw [if_neg fun hs => hs.1 hgen] at hw
    rw [mirrorWrite_first hoff rfl hgen] at heq
    obtain ⟨-, rfl⟩ := Prod.mk.inj heq
    rw [hw.2]
    exact recordOf_write ..
  | [v], hv =>
    have hv : RecordOf crc b.disk (L.home p) 1 (-1) v := hv
    obtain ⟨hgen, hlink, -, -⟩ := hv.current
    have hgen' : (currentHeader b.disk (L.home p)).generation ≠ 0 := by omega
    rw [if_pos ⟨hgen', hlink⟩] at hw
    have ha := ht.alloc
    obtain ⟨hlook, -⟩ := ha.inv.table.entry q ha.entry
    rw [mirrorWrite_second hoff rfl hgen' hlink halloc ha.kept.disk ha.entry] at heq
    obtain ⟨-, rfl⟩ := Prod.mk.inj heq
    have hqlt : q < b1.totalPages := by
      by_contra hle
      have := ha.inv.table.ahead q (Nat.le_of_not_lt hle) (by simp [ha.kind])
      simp [ha.kind] at this
    have hq32 : toInt32 q = q := toInt32_of_lt (by omega) (by simp only at hmax; omega)
    have hp32 : toInt32 p = p := toInt32_of_lt (by omega) (by omega)
    obtain ⟨hk1, hhome1⟩ := ha.ext.used p hmain.1
    have hne : L.home p ≠ L1.home q := by
      intro hh
      have hpq := ha.inv.table.home_inj p q (by rw [hk1]; exact hmain.1) (by simp [ha.kind])
        (hhome1.trans hh)
      subst hpq
      exact hown (hk1 ▸ ha.kind) ha.free
    have htwo : succ32 1 = 2 := by decide
    rw [hw.2]
    simp only [hgen, htwo, hq32, hp32, hlook, ha.kept.disk]
    refine ⟨q, Function.update_self .., .inr ?_⟩
    show RecordOf crc _ (L1.home q) 2 p w ∧ RecordOf crc _ (L1.home p) 1 q v
    rw [hhome1]
    exact recordOf_link hv hne
  | v :: v' :: vs, hv =>
    obtain ⟨m, hm, hv⟩ := hv
    have hrec : ∃ ph phSib, b.disk.hdr (L.home p) = some ph ∧ b.disk.hdr (L.home m) = some phSib ∧
        ph.generation ≠ 0 ∧ ph.mirrorPage = m := by
      obtain ⟨h1, h2⟩ | ⟨h1, h2⟩ := hv
      · obtain ⟨ph, hph, hgen, hlink, -⟩ := h1.header
        obtain ⟨phSib, hphSib, -⟩ := h2.header
        exact ⟨ph, phSib, hph, hphSib, by omega, hlink⟩
      · obtain ⟨phSib, hphSib, -⟩ := h1.header
        obtain ⟨ph, hph, hgen, hlink, -⟩ := h2.header
        exact ⟨ph, phSib, hph, hphSib, by omega, hlink⟩
    obtain ⟨ph, phSib, hph, hphSib, hgen, hlink⟩ := hrec
    have hcur : currentHeader b.disk (L.home p) = ph := by simp [currentHeader, hph]
    have hlook : indirLookup b m = L.home m := h.inv.sibling_look hm
    have hlook0 : indirLookup b m ≠ 0 := (h.inv.table.sibling_live m p hm).1
    have hne : L.home p ≠ L.home m := by
      intro hh
      have hpm := h.inv.table.home_inj p m hmain.1 (by simp [hm]) hh
      exact hmain.2 p (hpm ▸ hm)
    have hnot : ¬ TakesSibling b.disk (L.home p) := by
      rintro ⟨-, hneg⟩
      rw [hcur, hlink] at hneg
      omega
    rw [if_neg hnot] at hw
    rw [mirrorWrite_alternate hoff hcur hgen hlink hlook0 (by rw [hlook, hphSib]), hlook] at heq
    obtain ⟨-, rfl⟩ := Prod.mk.inj heq
    rw [hw.2]
    refine ⟨m, hm, ?_⟩
    simp only [List.length_cons] at hlen
    exact mirrors_alternate (n := vs.length + 2) hne hph hphSib (by omega) hv (by omega) w

/-! ## The invariant -/

/-- The backend between calls: the pages that are followed have the records they should have. -/
structure Paired (crc : Words → UInt32) (s : MirrorSession) (L : Layout) (chain : List Nat) : Prop where
  steady : Steady crc s.backend s.pages L chain
  unwritten : ∀ p, s.pages p ≠ none → s.pages p = some none
  followed : ∀ p ws, s.written p = some ws → ws ≠ [] ∧ (s.pages p ≠ none ∨ L.kind p = .table)
  mirrors : ∀ p ws, s.written p = some ws → ws.length < 2 ^ 32 - 1 → PageMirrors crc s.backend.disk L p ws

theorem Inv.main_of_written (h : Inv crc b pages L) (hp : pages p ≠ none ∨ L.kind p = .table) :
    L.Main p ∧ indirLookup b p ≠ 0 ∧ (L.kind p = .client → pages p ≠ none) := by
  obtain hp | hk := hp
  · exact ⟨h.main_of_client hp, (h.client p hp).2, fun _ => hp⟩
  · exact ⟨by simp [Layout.Main, hk], h.table.table_live p hk, by simp [hk]⟩

theorem PageMirrors.extends (h : PageMirrors crc b.disk L p ws) (hext : L.Extends L')
    (hdisk : b'.disk = b.disk) (hused : L.kind p ≠ .none) : PageMirrors crc b'.disk L' p ws := by
  rw [hdisk]
  refine h.frame (hext.used p hused).2 (fun m hm => ?_) fun _ _ => ⟨rfl, rfl⟩
  obtain ⟨hk, hh⟩ := hext.used m (by simp [hm])
  exact ⟨hk.trans hm, hh⟩

theorem Paired.write {s : MirrorSession} (h : Paired crc s L chain) (hp : p < 2 ^ 31)
    (hwritten : s.pages p ≠ none ∨ L.kind p = .table)
    (hmax : (mirrorStep crc s (.write p w flags)).backend.totalPages ≤ 2 ^ 31) :
    ∃ L' chain', Paired crc (mirrorStep crc s (.write p w flags)) L' chain' := by
  obtain ⟨hmain, hlook, hown⟩ := h.steady.inv.main_of_written hwritten
  have hoff := h.steady.inv.offset hlook
  have hqueue : L.kind p ≠ .queue := by
    obtain hp | hk := hwritten
    · simp [(h.steady.inv.client p hp).1]
    · simp [hk]
  obtain ⟨q, b1, L1, chain1, halloc, ht⟩ := h.steady.queue.allocate h.steady.inv
  obtain ⟨b', L', chain', heq, hm, hw, hs⟩ := h.steady.mirrorWrite_from hmain hoff
    (fun hk => h.unwritten p (hown hk)) (fun hk => absurd hk hqueue) (fun hk => absurd hk hqueue) hmax halloc ht
  simp only [mirrorStep, heq] at hmax ⊢
  have hkeep : ∀ x, s.pages x ≠ none ∨ L.kind x = .table → s.pages x ≠ none ∨ L'.kind x = .table := by
    refine fun x hx => hx.imp_right fun hk => ?_
    rw [← hk]
    exact (hm.kind x (by simp [hk])).resolve_right (by simp [hk])
  refine ⟨L', chain', hs.steady, h.unwritten, fun x ws hx => ?_, fun x ws hx hlen => ?_⟩
  · by_cases hxp : x = p
    · subst hxp
      simp only [Function.update_self, oneMore] at hx
      refine ⟨?_, hkeep x hwritten⟩
      split at hx
      · cases hx
        simp
      · split at hx <;> cases hx
        simp
    · simp only [Function.update_of_ne hxp] at hx
      exact ⟨(h.followed x ws hx).1, hkeep x (h.followed x ws hx).2⟩
  · by_cases hxp : x = p
    · subst hxp
      simp only [Function.update_self, oneMore] at hx
      split at hx
      · next vs hvs =>
        cases hx
        rw [List.length_cons] at hlen
        exact PageMirrors.write h.steady hmain hown hoff halloc ht heq hw hmax hp hlen
          (fun hnil => absurd hnil (h.followed x vs hvs).1) (h.mirrors x vs hvs (by omega))
      · split at hx
        · next hnone =>
          cases hx
          rw [hoff] at hnone
          exact PageMirrors.write h.steady hmain hown hoff halloc ht heq hw hmax hp hlen
            (fun _ => by simpa using hnone) trivial
        · cases hx
    · simp only [Function.update_of_ne hxp] at hx
      obtain ⟨hmainx, -, hownx⟩ := h.steady.inv.main_of_written (h.followed x ws hx).2
      exact (h.mirrors x ws hx hlen).other hm hmainx hxp hownx

theorem mirrorStep_paired {s : MirrorSession} {c : MirrorCall} (h : ∃ L chain, Paired crc s L chain)
    (hok : c.Ok crc s) : ∃ L chain, Paired crc (mirrorStep crc s c) L chain := by
  obtain ⟨L, chain, h⟩ := h
  have hused : ∀ x ws, s.written x = some ws → L.kind x ≠ .none :=
    fun x ws hx => (h.steady.inv.main_of_written (h.followed x ws hx).2).1.1
  cases c with
  | allocate =>
    obtain ⟨q, b1, L1, chain1, halloc, ht⟩ := h.steady.queue.allocate h.steady.inv
    refine ⟨L1, chain1, ?_⟩
    simp only [mirrorStep, halloc]
    refine ⟨h.steady.take ht, fun x hx => ?_, fun x ws hx => ⟨(h.followed x ws hx).1, ?_⟩, fun x ws hx hlen => ?_⟩
    · by_cases hxq : x = q
      · simp [hxq]
      · simp only [Function.update_of_ne hxq] at hx ⊢
        exact h.unwritten x hx
    · refine (h.followed x ws hx).2.imp (fun hp => ?_) fun hk => ?_
      · have hxq : x ≠ q := by
          rintro rfl
          exact hp ht.alloc.free
        simpa [hxq] using hp
      · rw [(ht.alloc.ext.used x (by simp [hk])).1, hk]
    · exact (h.mirrors x ws hx hlen).extends ht.alloc.ext ht.alloc.kept.disk (hused x ws hx)
  | free p =>
    obtain ⟨htwo, hp⟩ : 2 ≤ p ∧ s.pages p ≠ none := by
      simpa [MirrorCall.Names, Option.isSome_iff_ne_none] using hok.names
    obtain ⟨L1, chain1, hg⟩ := h.steady.free htwo hp
    refine ⟨L1, chain1, hg.steady, fun x hx => ?_, fun x ws hx => ?_, fun x ws hx hlen => ?_⟩
    · by_cases hxp : x = p
      · simp [mirrorStep, hxp] at hx
      · simp only [mirrorStep, Function.update_of_ne hxp] at hx ⊢
        exact h.unwritten x hx
    · have hxp : x ≠ p := by
        rintro rfl
        simp [mirrorStep] at hx
      simp only [mirrorStep, Function.update_of_ne hxp] at hx ⊢
      refine ⟨(h.followed x ws hx).1, (h.followed x ws hx).2.imp_right fun hk => ?_⟩
      rw [(hg.ext.used x (by simp [hk])).1, hk]
    · have hxp : x ≠ p := by
        rintro rfl
        simp [mirrorStep] at hx
      simp only [mirrorStep, Function.update_of_ne hxp] at hx
      exact (h.mirrors x ws hx hlen).extends hg.ext hg.disk (hused x ws hx)
  | write p w flags =>
    obtain ⟨hp, hwritten⟩ : p < 2 ^ 31 ∧ (s.pages p ≠ none ∨
        ∃ i < s.backend.overflowCount, p = overflowLogical s.backend.pageSize i) := by
      simpa [MirrorCall.Names, Option.isSome_iff_ne_none] using hok.names
    exact h.write hp (hwritten.imp_right fun hi => (h.steady.inv.table.table_iff p).2 hi) hok.pages

theorem newSession_steady {pageSize : Nat} (hsize : 120 ≤ pageSize) :
    Steady crc (newSession crc pageSize).backend (newSession crc pageSize).pages (newLayout pageSize) [] :=
  ⟨(newSession_healthy hsize).inv, (newSession_healthy hsize).queue, fun _ _ => rfl⟩

/-! ## Reading -/

/-- What the records of a page are after the writes of `ws`, and what reading it gives. -/
structure MirroredPage (crc : Words → UInt32) (b : Backend) (p : Nat) (ws : List Words) : Prop where
  read : ∀ w vs, ws = w :: vs →
    mirrorRead crc (indirLookup b) b.disk (physicalOffset b p) = .ok w
  pair : ∀ w v vs, ws = w :: v :: vs → ∃ m : Nat, indirLookup b m ≠ 0 ∧
    (RecordOf crc b.disk (physicalOffset b p) ws.length m w ∧
        RecordOf crc b.disk (indirLookup b m) (ws.length - 1) p v ∨
      RecordOf crc b.disk (indirLookup b m) ws.length p w ∧
        RecordOf crc b.disk (physicalOffset b p) (ws.length - 1) m v)

theorem RecordOf.checked {d : Disk Words} {s gen : Nat} {link : Int} {ph : PageHeader}
    (h : RecordOf crc d s gen link w) (hph : d.hdr s = some ph) : checkedPayload crc d s ph = some w := by
  obtain ⟨ph', hph', -, -, hsum⟩ := h.header
  rw [hph] at hph'
  cases hph'
  simp [checkedPayload, h.payload, hsum]

theorem readPair_newer {d : Disk Words} {off s n : Nat} {link link' : Int} {v : Words}
    {ph phSib : PageHeader} (hph : d.hdr off = some ph) (hphSib : d.hdr s = some phSib)
    (h : RecordOf crc d off (n + 1) link w ∧ RecordOf crc d s n link' v ∨
      RecordOf crc d s (n + 1) link' w ∧ RecordOf crc d off n link v) :
    readPair crc d off s ph phSib = .ok w := by
  obtain ⟨h1, h2⟩ | ⟨h1, h2⟩ := h
  · have hchecked := h1.checked hph
    obtain ⟨ph1, hph1, hgen1, -⟩ := h1.header
    obtain ⟨ph2, hph2, hgen2, -⟩ := h2.header
    rw [hph] at hph1
    rw [hphSib] at hph2
    cases hph1
    cases hph2
    have hgt : ¬ phSib.generation > ph.generation := by omega
    simp [readPair, hgt, hchecked]
  · have hchecked := h1.checked hphSib
    obtain ⟨ph1, hph1, hgen1, -⟩ := h1.header
    obtain ⟨ph2, hph2, hgen2, -⟩ := h2.header
    rw [hphSib] at hph1
    rw [hph] at hph2
    cases hph1
    cases hph2
    have hgt : phSib.generation > ph.generation := by omega
    simp [readPair, hgt, hchecked]

theorem Paired.page {s : MirrorSession} (h : Paired crc s L chain) (hp : s.written p = some ws)
    (hlen : ws.length < 2 ^ 32 - 1) : MirroredPage crc s.backend p ws := by
  obtain ⟨-, hlook, -⟩ := h.steady.inv.main_of_written (h.followed p ws hp).2
  have hoff := h.steady.inv.offset hlook
  have hws := h.mirrors p ws hp hlen
  constructor
  · rintro w vs rfl
    rw [hoff]
    match vs, hws with
    | [], hw =>
      obtain ⟨⟨ph, hph, -, hlink, hsum⟩, hpay⟩ := (hw : RecordOf crc _ _ 1 (-1) w)
      simp [mirrorRead, hph, hlink, readSingle, hpay, hsum]
    | v :: vs, ⟨m, hm, hw⟩ =>
      have hsib : indirLookup s.backend m = L.home m := h.steady.inv.sibling_look hm
      have hsib0 : indirLookup s.backend m ≠ 0 := (h.steady.inv.table.sibling_live m p hm).1
      obtain ⟨ph, phSib, hph, hphSib, hlink⟩ : ∃ ph phSib, s.backend.disk.hdr (L.home p) = some ph ∧
          s.backend.disk.hdr (L.home m) = some phSib ∧ ph.mirrorPage = m := by
        obtain ⟨h1, h2⟩ | ⟨h1, h2⟩ := hw
        · obtain ⟨ph, hph, -, hlink, -⟩ := h1.header
          obtain ⟨phSib, hphSib, -⟩ := h2.header
          exact ⟨ph, phSib, hph, hphSib, hlink⟩
        · obtain ⟨phSib, hphSib, -⟩ := h1.header
          obtain ⟨ph, hph, -, hlink, -⟩ := h2.header
          exact ⟨ph, phSib, hph, hphSib, hlink⟩
      have hneg : (m : Int) ≠ -1 := by omega
      simp only [mirrorRead, hph, hlink, if_neg hneg, if_neg hsib0]
      rw [hsib, hphSib]
      exact readPair_newer hph hphSib hw
  · rintro w v vs rfl
    obtain ⟨m, hm, hw⟩ := hws
    have hsib : indirLookup s.backend m = L.home m := h.steady.inv.sibling_look hm
    refine ⟨m, (h.steady.inv.table.sibling_live m p hm).1, ?_⟩
    rw [hoff, hsib]
    exact hw

end Step

theorem mirrorRun_paired {crc : Words → UInt32} {pageSize : Nat} (hsize : 120 ≤ pageSize)
    {calls : List MirrorCall}
    (hcalls : Run.AllSteps (mirrorStep crc) (fun s c => c.Ok crc s) (newMirrorSession crc pageSize) calls) :
    ∃ L chain, Paired crc (mirrorRun crc (newMirrorSession crc pageSize) calls) L chain := by
  have hstart : Paired crc (newMirrorSession crc pageSize) (newLayout pageSize) [] := by
    refine ⟨newSession_steady hsize, fun x hx => ?_, fun _ _ hx => (by cases hx), fun _ _ hx => (by cases hx)⟩
    by_cases h1 : x = 1
    · simp [newMirrorSession, newSession, h1]
    · simp [newMirrorSession, newSession, h1] at hx
  exact Run.invariant (fun s => ∃ L chain, Paired crc s L chain)
    (fun _ _ hs hok => mirrorStep_paired hs hok) ⟨_, _, hstart⟩ hcalls

/-- **Mirror alternation.** After any sequence of allocations, frees and `mirror_write`s on pages of the
client and on overflow pages, a page whose record was not written before the first of its `n` writes and
that was not freed since reads as the last payload, and from two writes on its record and that of its
sibling point at each other and hold the last two payloads with generations `n` and `n - 1`. -/
theorem mirror_alternates {crc : Words → UInt32} {pageSize : Nat} (hsize : 120 ≤ pageSize)
    (calls : List MirrorCall)
    (hcalls : Run.AllSteps (mirrorStep crc) (fun s c => c.Ok crc s) (newMirrorSession crc pageSize) calls)
    {p : Nat} {ws : List Words}
    (hp : (mirrorRun crc (newMirrorSession crc pageSize) calls).written p = some ws)
    (hlen : ws.length < 2 ^ 32 - 1) :
    MirroredPage crc (mirrorRun crc (newMirrorSession crc pageSize) calls).backend p ws := by
  obtain ⟨L, chain, h⟩ := mirrorRun_paired hsize hcalls
  exact h.page hp hlen

theorem mirror_alternates_three :
    let s := mirrorRun wordSum (newMirrorSession wordSum 512)
      [.allocate, .allocate, .write 2 (pageOf 10) 0, .write 3 (pageOf 11) 0, .write 2 (pageOf 20) 0,
        .write 3 (pageOf 21) 0, .write 2 (pageOf 30) 0]
    MirroredPage wordSum s.backend 2 [pageOf 30, pageOf 20, pageOf 10] := by
  refine mirror_alternates (Nat.le_of_ble_eq_true rfl) _ ?_ rfl (by decide)
  decide +kernel

end Storage
end SphereVFS
