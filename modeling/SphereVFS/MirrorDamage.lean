import SphereVFS.MirrorPairs

/-!
# SphereVFS.MirrorDamage

Damage to the file that a checksum notices. The copy that is hit is never taken for data, and a page with
two copies is read from the other one. The other pages read as before.
-/

namespace SphereVFS
namespace Storage

open Mirror

/-- The payload of the record at `s` has become another one, with another checksum. -/
structure Damaged (crc : Words → UInt32) (d d' : Disk Words) (s : Nat) : Prop where
  hdr : d'.hdr = d.hdr
  other : ∀ x, x ≠ s → d'.pay x = d.pay x
  payload : ∀ w, d.pay s = some w → ∃ w', d'.pay s = some w' ∧ crc w' ≠ crc w
  missing : d.pay s = none → d'.pay s = none

variable {crc : Words → UInt32} {s x n gen off sib : Nat} {d d' : Disk Words} {w v : Words} {link link' : Int}
  {ph phSib : PageHeader}

theorem Damaged.checked (h : Damaged crc d d' s) (hrec : RecordOf crc d x gen link w)
    (hph : d.hdr x = some ph) : checkedPayload crc d' x ph = if x = s then none else some w := by
  obtain ⟨ph', hph', -, -, hsum⟩ := hrec.header
  rw [hph] at hph'
  cases hph'
  by_cases hx : x = s
  · subst hx
    obtain ⟨w', hpay, hne⟩ := h.payload w hrec.payload
    simp [checkedPayload, hpay, hsum, hne]
  · simp [checkedPayload, h.other x hx, hrec.payload, hsum, hx]

theorem Damaged.untouched (h : Damaged crc d d' s) {indir : Int → Nat} (hoff : off ≠ s)
    (hsib : ∀ ph, d.hdr off = some ph → indir ph.mirrorPage ≠ s) :
    mirrorRead crc indir d' off = mirrorRead crc indir d off := by
  rw [mirrorRead, mirrorRead, h.hdr]
  cases hph : d.hdr off with
  | none => rfl
  | some ph =>
    have hpair : ∀ phSib, readPair crc d' off (indir ph.mirrorPage) ph phSib =
        readPair crc d off (indir ph.mirrorPage) ph phSib :=
      fun phSib => readPair_congr (h.other off hoff) (h.other _ (hsib ph hph))
    simp only [readSingle, h.other off hoff, hpair]

theorem mirrorRead_checked {indir : Int → Nat} (h : mirrorRead crc indir d off = .ok w) :
    ∃ x ph, d.hdr x = some ph ∧ checkedPayload crc d x ph = some w := by
  rw [mirrorRead] at h
  cases hph : d.hdr off with
  | none => simp [hph] at h
  | some ph =>
    have hsingle : readSingle crc d off ph = .ok w →
        ∃ x ph, d.hdr x = some ph ∧ checkedPayload crc d x ph = some w :=
      fun hr => ⟨off, ph, hph, readSingle_ok hr⟩
    simp only [hph] at h
    split at h
    · exact hsingle h
    split at h
    · exact hsingle h
    split at h
    · exact hsingle h
    · rename_i phSib hphSib
      exact (readPair_ok h).elim (fun hc => ⟨off, ph, hph, hc⟩) fun hc => ⟨_, phSib, hphSib, hc⟩

theorem Damaged.other_record (h : Damaged crc d d' s) {indir : Int → Nat}
    (hsum : ∀ ph w, d.hdr s = some ph → d.pay s = some w → ph.checksum = crc w)
    (hread : mirrorRead crc indir d' off = .ok w) : ∃ x, x ≠ s ∧ d.pay x = some w := by
  obtain ⟨x, ph, hph, hchecked⟩ := mirrorRead_checked hread
  obtain ⟨hpay, hw⟩ := checkedPayload_some hchecked
  by_cases hx : x = s
  · subst hx
    rw [h.hdr] at hph
    cases hold : d.pay x with
    | none => simp [h.missing hold] at hpay
    | some v =>
      obtain ⟨w', hpay', hne⟩ := h.payload v hold
      rw [hpay] at hpay'
      cases hpay'
      exact absurd (hw.trans (hsum ph v hph hold)) hne
  · exact ⟨x, hx, by rwa [← h.other x hx]⟩

theorem RecordOf.newer (hnew : RecordOf crc d off (n + 1) link w) (hold : RecordOf crc d sib n link' v)
    (hph : d.hdr off = some ph) (hphSib : d.hdr sib = some phSib) :
    phSib.generation < ph.generation ∧ off ≠ sib := by
  obtain ⟨ph1, hph1, hgen1, -⟩ := hnew.header
  obtain ⟨ph2, hph2, hgen2, -⟩ := hold.header
  rw [hph] at hph1
  rw [hphSib] at hph2
  cases hph1
  cases hph2
  refine ⟨by omega, ?_⟩
  rintro rfl
  rw [hph] at hphSib
  cases hphSib
  omega

section Pair

variable (h : Damaged crc d d' s) (hph : d.hdr off = some ph) (hphSib : d.hdr sib = some phSib)
include h hph hphSib

theorem Damaged.readPair_home (hnew : RecordOf crc d off (n + 1) link w) (hold : RecordOf crc d sib n link' v) :
    readPair crc d' off sib ph phSib = .ok (if off = s then v else w) := by
  obtain ⟨hlt, hne⟩ := hnew.newer hold hph hphSib
  simp only [readPair, Nat.lt_asymm hlt, if_false, if_true, h.checked hnew hph, h.checked hold hphSib]
  by_cases hs : off = s
  · subst hs
    simp [hne.symm]
  · simp [hs]

theorem Damaged.readPair_sibling (hnew : RecordOf crc d sib (n + 1) link' w) (hold : RecordOf crc d off n link v) :
    readPair crc d' off sib ph phSib = .ok (if sib = s then v else w) := by
  obtain ⟨hlt, hne⟩ := hnew.newer hold hphSib hph
  simp only [readPair, hlt, if_true, if_neg hne, h.checked hnew hphSib, h.checked hold hph]
  by_cases hs : sib = s
  · subst hs
    simp [hne.symm]
  · simp [hs]

end Pair

/-- What the page reads as after damage to one record: a single copy is reported, of two the one that is left
is read. -/
structure SurvivesDamage (crc : Words → UInt32) (b : Backend) (p : Nat) (ws : List Words) : Prop where
  single : ∀ w, ws = [w] → ∀ s d', Damaged crc b.disk d' s →
    mirrorRead crc (indirLookup b) d' (physicalOffset b p) = if physicalOffset b p = s then .crcError else .ok w
  pair : ∀ w v vs, ws = w :: v :: vs → ∃ newer, b.disk.pay newer = some w ∧ ∀ s d', Damaged crc b.disk d' s →
    mirrorRead crc (indirLookup b) d' (physicalOffset b p) = .ok (if newer = s then v else w)

theorem Paired.survivesDamage {session : MirrorSession} {L : Layout} {chain : List Nat} {p : Nat} {ws : List Words}
    (h : Paired crc session L chain) (hp : session.written p = some ws) (hlen : ws.length < 2 ^ 32 - 1) :
    SurvivesDamage crc session.backend p ws := by
  obtain ⟨-, hlook, -⟩ := h.steady.inv.main_of_written (h.followed p ws hp).2
  have hoff := h.steady.inv.offset hlook
  have hws := h.mirrors p ws hp hlen
  constructor
  · rintro w rfl s d' hd
    have hrec : RecordOf crc session.backend.disk (L.home p) 1 (-1) w := hws
    obtain ⟨ph, hph, -, hlink, hsum⟩ := hrec.header
    rw [hoff]
    simp only [mirrorRead, hd.hdr, hph, hlink, if_true]
    by_cases hs : L.home p = s
    · subst hs
      obtain ⟨w', hpay, hne⟩ := hd.payload w hrec.payload
      simp [readSingle, hpay, hsum, hne]
    · simp [readSingle, (hd.other _ hs).trans hrec.payload, hsum, hs]
  · rintro w v vs rfl
    obtain ⟨m, hm, hrecs⟩ := hws
    have hsib : indirLookup session.backend m = L.home m := h.steady.inv.sibling_look hm
    have hsib0 : L.home m ≠ 0 := hsib ▸ (h.steady.inv.table.sibling_live m p hm).1
    have hneg : (m : Int) ≠ -1 := by omega
    obtain ⟨hnew, hold⟩ | ⟨hnew, hold⟩ := hrecs
    · obtain ⟨ph, hph, -, hlink, -⟩ := hnew.header
      obtain ⟨phSib, hphSib, -⟩ := hold.header
      refine ⟨L.home p, hnew.payload, fun s d' hd => ?_⟩
      rw [hoff]
      simp only [mirrorRead, hd.hdr, hph, hlink, if_neg hneg, hsib, if_neg hsib0, hphSib]
      exact hd.readPair_home hph hphSib hnew hold
    · obtain ⟨phSib, hphSib, -⟩ := hnew.header
      obtain ⟨ph, hph, -, hlink, -⟩ := hold.header
      refine ⟨L.home m, hnew.payload, fun s d' hd => ?_⟩
      rw [hoff]
      simp only [mirrorRead, hd.hdr, hph, hlink, if_neg hneg, hsib, if_neg hsib0, hphSib]
      exact hd.readPair_sibling hph hphSib hnew hold

/-- What a page reads as after damage to one record, whatever was written to it: as before if no record of the
page was hit, and never as what the damaged record has become. -/
structure DamageNoticed (crc : Words → UInt32) (b : Backend) (p : Nat) : Prop where
  untouched : ∀ s d', Damaged crc b.disk d' s → physicalOffset b p ≠ s →
    (∀ ph, b.disk.hdr (physicalOffset b p) = some ph → indirLookup b ph.mirrorPage ≠ s) →
      mirrorRead crc (indirLookup b) d' (physicalOffset b p) =
        mirrorRead crc (indirLookup b) b.disk (physicalOffset b p)
  other : ∀ s d' w, Damaged crc b.disk d' s →
    (∀ ph v, b.disk.hdr s = some ph → b.disk.pay s = some v → ph.checksum = crc v) →
      mirrorRead crc (indirLookup b) d' (physicalOffset b p) = .ok w → ∃ x, x ≠ s ∧ b.disk.pay x = some w

/-- **Damage is survived.** After any sequence of allocations, frees and `mirror_write`s, let one record of the
file be damaged so that its checksum changes. Every page is read as before if it was not hit, and never as
what the damaged record has become. A page that was written since it came into use, and not freed since, is a
checksum error if its single copy was hit; with two copies it reads as its last payload, or as the one before it
if the last one was hit. -/
theorem damage_survived {pageSize : Nat} (hsize : 120 ≤ pageSize) (calls : List MirrorCall)
    (hcalls : Run.AllSteps (mirrorStep crc) (fun s c => c.Ok crc s) (newMirrorSession crc pageSize) calls)
    (p : Nat) :
    DamageNoticed crc (mirrorRun crc (newMirrorSession crc pageSize) calls).backend p ∧
      ∀ ws, (mirrorRun crc (newMirrorSession crc pageSize) calls).written p = some ws →
        ws.length < 2 ^ 32 - 1 →
          SurvivesDamage crc (mirrorRun crc (newMirrorSession crc pageSize) calls).backend p ws := by
  obtain ⟨L, chain, h⟩ := mirrorRun_paired hsize hcalls
  refine ⟨⟨fun s d' hd => hd.untouched, fun s d' w hd => hd.other_record⟩, fun ws hp hlen => ?_⟩
  exact h.survivesDamage hp hlen

/-- Two pages are written. The second one is freed and given out again, and then both are written again. -/
def reused : List MirrorCall :=
  [.allocate, .allocate, .write 2 (pageOf 10) 0, .write 3 (pageOf 11) 0, .free 3, .allocate,
    .write 2 (pageOf 20) 0, .write 3 (pageOf 21) 0]

section Reused

set_option maxRecDepth 2000

theorem damage_survived_reused :
    let s := mirrorRun wordSum (newMirrorSession wordSum 512) reused
    SurvivesDamage wordSum s.backend 2 [pageOf 20, pageOf 10] ∧ DamageNoticed wordSum s.backend 3 := by
  have hcalls : Run.AllSteps (mirrorStep wordSum) (fun s c => c.Ok wordSum s) (newMirrorSession wordSum 512)
      reused := by decide +kernel
  have h := damage_survived (Nat.le_of_ble_eq_true rfl) _ hcalls
  exact ⟨(h 2).2 _ rfl (by decide), (h 3).1⟩

end Reused

end Storage
end SphereVFS
