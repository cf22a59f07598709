import SphereVFS.Mirror
import SphereVFS.Lib.TwoCopy

/-!
# SphereVFS.MirrorCrash

Crash safety of the mirror protocol over runs of `mirror_write` calls that may each be cut after
any of their `pwrite`s.

`Rep` relates a disk to the two-copy register of `Lib.TwoCopy`: the half with the higher
generation is the newer copy, and a half is intact when its payload matches its checksum. Every
call is one attempt on that register (`sim_runCall`), a read returns what the register reads
(`rep_read`), so the rules of the library for one attempt give the run (`mirror_crash_safe_iff`).

A record that was announced and never stored reads as the zero page once the file reaches beyond it.
In the register its copy is filled before the attempt that makes the file grow.
-/

namespace SphereVFS
namespace Mirror

open TwoCopy

variable {P : Type} (crc : P → UInt32) (indir : Int → Nat) (zero : P)

/-- One `mirror_write` call: `cut = some k` stops it after `k` of its `pwrite`s. -/
structure Call (P : Type) where
  payload : P
  flags : Nat
  sibling : Int
  cut : Option Nat

/-- The `pwrite`s that reach the disk. -/
def reaching (cut : Option Nat) (ws : List (PWrite P)) : List (PWrite P) :=
  match cut with
  | none => ws
  | some k => ws.take k

/-- All `pwrite`s of the call reach the disk. -/
def allReach (cut : Option Nat) (ws : List (PWrite P)) : Bool :=
  match cut with
  | none => true
  | some k => decide (ws.length ≤ k)

/-- The disk, and the payloads a reader may be given: `none` until a write has completed, then
the payload of the last completed call and those of the calls interrupted after it. -/
structure Session (P : Type) where
  disk : Disk P
  allowed : Option (List P)

def runCall (page : Int) (off : Nat) (s : Session P) (c : Call P) : Session P :=
  match mirrorWrites crc indir s.disk page off c.flags c.payload c.sibling with
  | none => ⟨s.disk, s.allowed.map (c.payload :: ·)⟩
  | some ws =>
    ⟨(reaching c.cut ws).foldl (Disk.pwrite zero) s.disk,
      if allReach c.cut ws then some [c.payload] else s.allowed.map (c.payload :: ·)⟩

/-- Once a write has completed, `mirror_read_with_status` succeeds with an allowed payload. -/
def Readable (off : Nat) (s : Session P) : Prop :=
  ∀ A, s.allowed = some A → ∃ p ∈ A, mirrorRead crc indir s.disk off = .ok p

/-- `Readable` in every state of the run. -/
def AllReadable (page : Int) (off : Nat) : Session P → List (Call P) → Prop
  | s, [] => Readable crc indir off s
  | s, c :: cs =>
    Readable crc indir off s ∧ AllReadable page off (runCall crc indir zero page off s c) cs

/-- The half `mirror_write` overwrites and the half it keeps, for a page that has a sibling. -/
def halves (off sibOff : Nat) (ph phSib : PageHeader) : (Nat × PageHeader) × (Nat × PageHeader) :=
  if ph.generation ≤ phSib.generation then ((off, ph), (sibOff, phSib))
  else ((sibOff, phSib), (off, ph))

/-- The condition on a call in the state it starts from: if it is cut between the header and the
payload of a mirrored page, the half it keeps matches its checksum (or the half it overwrites
already holds the payload). -/
def CutSafe (off : Nat) (d : Disk P) (c : Call P) : Prop :=
  c.cut = some 1 → ∀ ph phSib, d.hdr off = some ph → ph.generation ≠ 0 → ph.mirrorPage ≠ -1 →
    d.hdr (indir ph.mirrorPage) = some phSib →
    let hs := halves off (indir ph.mirrorPage) ph phSib
    (checkedPayload crc d hs.2.1 hs.2.2).isSome ∨ d.pay hs.1.1 = some c.payload

def AllCutSafe (page : Int) (off : Nat) : Session P → List (Call P) → Prop
  | _, [] => True
  | s, c :: cs =>
    CutSafe crc indir off s.disk c ∧ AllCutSafe page off (runCall crc indir zero page off s c) cs

/-- What `storage_allocate` gives a page at `off` for its sibling: an index that fits the header's
`int32_t`, with a physical record of its own. -/
structure FreshSibling (off : Nat) (sibling : Int) : Prop where
  nonneg : 0 ≤ sibling
  lt : sibling < 2 ^ 31
  entry : indir sibling ≠ 0
  apart : indir sibling ≠ off

/-! ## The disk represents a two-copy register -/

/-- The record at `off` has header `ph` and, under it, copy `c`. -/
structure CopyAt (d : Disk P) (off : Nat) (ph : PageHeader) (c : Copy P) : Prop where
  hdr : d.hdr off = some ph
  sum : ph.checksum = crc c.claimed
  pay : d.pay off = c.stored

/-- The page at `off` and its sibling, with generations bounded by `n`. The sibling stores something,
and so does the page if the file has to reach beyond it for that. -/
structure Linked (off n : Nat) (d : Disk P) (ph phSib : PageHeader) (c cSib : Copy P) : Prop where
  orig : CopyAt crc d off ph c
  sib : CopyAt crc d (indir ph.mirrorPage) phSib cSib
  written : ph.generation ≠ 0
  orig_le : ph.generation ≤ n
  sib_le : phSib.generation ≤ n
  mirror : ph.mirrorPage ≠ -1
  entry : indir ph.mirrorPage ≠ 0
  apart : indir ph.mirrorPage ≠ off
  orig_stored : off < indir ph.mirrorPage → c.stored.isSome
  sib_stored : cSib.stored.isSome

inductive Rep (off n : Nat) (d : Disk P) : Reg P → Prop
  | blank : (currentHeader d off).generation = 0 → Rep off n d (.blank (d.pay off))
  | single {ph : PageHeader} {c : Copy P} : CopyAt crc d off ph c → ph.generation ≠ 0 →
      ph.generation ≤ n → ph.mirrorPage = -1 → Rep off n d (.single c)
  | sibNewer {ph phSib : PageHeader} {c cSib : Copy P} : Linked crc indir off n d ph phSib c cSib →
      ph.generation < phSib.generation → Rep off n d (.pair cSib c)
  | origNewer {ph phSib : PageHeader} {c cSib : Copy P} : Linked crc indir off n d ph phSib c cSib →
      phSib.generation < ph.generation → Rep off n d (.pair c cSib)

/-- The attempt on the register that a call amounts to. Cutting the second write before the link
leaves an unreachable sibling and changes nothing. -/
def attemptOf (r : Reg P) (c : Call P) : Attempt P :=
  match r, c.cut with
  | _, none => .write c.payload
  | .single _, some k => if 3 ≤ k then .write c.payload else .skip c.payload
  | _, some 0 => .skip c.payload
  | _, some 1 => .tear c.payload
  | _, some _ => .write c.payload

structure Sim (off n : Nat) (s : Session P) (t : State P) : Prop where
  rep : Rep crc indir off n s.disk t.reg
  allowed : s.allowed = t.allowed
  blank : ∀ x, t.reg = .blank x → t.allowed = none

section Proofs

variable {crc indir zero} {page : Int} {off n : Nat} {d : Disk P}

theorem checkedPayload_eq_some (hcrc : Function.Injective crc) {ph : PageHeader} {c : Copy P}
    (h : CopyAt crc d off ph c) {p : P} :
    checkedPayload crc d off ph = some p ↔ c.Intact ∧ c.claimed = p := by
  unfold checkedPayload Copy.Intact
  rw [h.pay, h.sum]
  cases hq : c.stored with
  | none => simp
  | some q =>
    by_cases hc : q = c.claimed
    · subst hc; simp
    · simp [hc, hcrc.ne hc]

theorem checkedPayload_eq_none (hcrc : Function.Injective crc) {ph : PageHeader} {c : Copy P}
    (h : CopyAt crc d off ph c) : checkedPayload crc d off ph = none ↔ ¬ c.Intact := by
  rw [Option.eq_none_iff_forall_ne_some]
  constructor
  · intro hn hi
    exact hn c.claimed ((checkedPayload_eq_some hcrc h).mpr ⟨hi, rfl⟩)
  · intro hi p hp
    exact hi ((checkedPayload_eq_some hcrc h).mp hp).1

theorem readSingle_eq_ok {ph : PageHeader} {p : P} :
    readSingle crc d off ph = .ok p ↔ checkedPayload crc d off ph = some p := by
  unfold readSingle checkedPayload
  cases d.pay off with
  | none => simp
  | some q => by_cases hq : crc q = ph.checksum <;> simp [hq]

theorem readPair_eq_ok {sibOff : Nat} {ph phSib : PageHeader} (hne : sibOff ≠ off) {p : P} :
    readPair crc d off sibOff ph phSib = .ok p ↔
      let nw := if phSib.generation > ph.generation then (sibOff, phSib) else (off, ph)
      let od := if phSib.generation > ph.generation then (off, ph) else (sibOff, phSib)
      checkedPayload crc d nw.1 nw.2 = some p ∨
        (checkedPayload crc d nw.1 nw.2 = none ∧ checkedPayload crc d od.1 od.2 = some p) := by
  unfold readPair
  by_cases hg : phSib.generation > ph.generation
  · simp only [hg, if_true, hne, if_false]
    cases checkedPayload crc d sibOff phSib with
    | some q => simp
    | none => cases checkedPayload crc d off ph <;> simp
  · simp only [hg, if_false, if_true]
    cases checkedPayload crc d off ph with
    | some q => simp
    | none => cases checkedPayload crc d sibOff phSib <;> simp

theorem mirrorRead_linked {ph phSib : PageHeader} {c cSib : Copy P}
    (h : Linked crc indir off n d ph phSib c cSib) :
    mirrorRead crc indir d off = readPair crc d off (indir ph.mirrorPage) ph phSib := by
  simp [mirrorRead, h.orig.hdr, h.mirror, h.entry, h.sib.hdr]

theorem rep_read (hcrc : Function.Injective crc) {r : Reg P} (h : Rep crc indir off n d r)
    (hb : ∀ x, r ≠ .blank x) {p : P} : mirrorRead crc indir d off = .ok p ↔ r.Reads p := by
  cases h with
  | blank _ => exact absurd rfl (hb _)
  | @single ph c hc _ _ hm =>
    have hread : mirrorRead crc indir d off = readSingle crc d off ph := by
      simp [mirrorRead, hc.hdr, hm]
    rw [hread, readSingle_eq_ok, checkedPayload_eq_some hcrc hc, Reg.Reads]
  | sibNewer hl hg =>
    rw [mirrorRead_linked hl, readPair_eq_ok hl.apart]
    simp only [gt_iff_lt, hg, if_true, Reg.Reads]
    rw [checkedPayload_eq_some hcrc hl.sib, checkedPayload_eq_some hcrc hl.orig,
      checkedPayload_eq_none hcrc hl.sib]
  | origNewer hl hg =>
    rw [mirrorRead_linked hl, readPair_eq_ok hl.apart]
    simp only [gt_iff_lt, Nat.not_lt.mpr (Nat.le_of_lt hg), if_false, Reg.Reads]
    rw [checkedPayload_eq_some hcrc hl.sib, checkedPayload_eq_some hcrc hl.orig,
      checkedPayload_eq_none hcrc hl.orig]

/-! ### Effect of the `pwrite`s on the copies -/

/-- The copy in record `o` once the file reaches to `off`. -/
def grown (zero : P) (o off : Nat) (c : Copy P) : Copy P := if o < off then c.fill zero else c

theorem grown_of_some {o : Nat} {c : Copy P} (h : o < off → c.stored.isSome) : grown zero o off c = c := by
  rw [grown]
  split
  · rename_i hlt
    exact Copy.fill_of_some (h hlt)
  · rfl

theorem grown_twice (o off : Nat) (c : Copy P) : grown zero o off (grown zero o off c) = grown zero o off c :=
  grown_of_some fun h => by simp [grown, h, Copy.fill]

theorem CopyAt.grow (zero : P) {o : Nat} {ph : PageHeader} {c : Copy P} (h : CopyAt crc d o ph c) (off : Nat) :
    CopyAt crc (d.grow zero off) o ph (grown zero o off c) := by
  by_cases hlt : o < off
  · rw [grown, if_pos hlt]
    exact ⟨by simp [Disk.grow, h.hdr], h.sum, by simp [Disk.grow, hlt, h.pay, Copy.fill]⟩
  · rw [grown, if_neg hlt]
    exact ⟨by simp [Disk.grow, hlt, h.hdr], h.sum, by simp [Disk.grow, hlt, h.pay]⟩

theorem CopyAt.pwrite_ne (zero : P) {o : Nat} {ph : PageHeader} {c : Copy P} (h : CopyAt crc d o ph c)
    {w : PWrite P} (hne : o ≠ w.off) : CopyAt crc (d.pwrite zero w) o ph (grown zero o w.off c) := by
  refine CopyAt.grow zero ⟨?_, h.sum, ?_⟩ _
  · rw [← h.hdr]
    cases w with
    | payload => rfl
    | header | link => exact Function.update_of_ne hne ..
  · rw [← h.pay]
    cases w with
    | payload => exact Function.update_of_ne hne ..
    | header | link => rfl

theorem CopyAt.pwrite_self (zero : P) {ph : PageHeader} {c : Copy P} {w : PWrite P}
    (h : CopyAt crc (d.apply w) w.off ph c) : CopyAt crc (d.pwrite zero w) w.off ph c := by
  have hgrow := h.grow zero w.off
  rwa [grown_of_some fun hlt => absurd hlt (Nat.lt_irrefl _)] at hgrow

theorem copyAt_header {ph ph' : PageHeader} {c : Copy P} {p : P} (h : CopyAt crc d off ph c)
    (hs : ph'.checksum = crc p) : CopyAt crc (d.pwrite zero (.header off ph')) off ph' ⟨p, c.stored⟩ :=
  CopyAt.pwrite_self zero (w := .header off ph') ⟨by simp [Disk.apply, PWrite.off], hs, h.pay⟩

theorem copyAt_record {ph' : PageHeader} {p : P} (hs : ph'.checksum = crc p) :
    CopyAt crc ((writePageRecord off ph' p).foldl (Disk.pwrite zero) d) off ph' (.full p) := by
  refine CopyAt.pwrite_self zero (w := .payload off p) ⟨?_, hs, ?_⟩
  · simp [Disk.pwrite, Disk.grow, Disk.apply, PWrite.off]
  · simp [Disk.apply, PWrite.off, Copy.full]

theorem CopyAt.record_ne {o : Nat} {ph ph' : PageHeader} {c : Copy P} {p : P} (h : CopyAt crc d o ph c)
    (hne : o ≠ off) :
    CopyAt crc ((writePageRecord off ph' p).foldl (Disk.pwrite zero) d) o ph (grown zero o off c) := by
  rw [← grown_twice]
  exact (h.pwrite_ne zero (w := .header off ph') hne).pwrite_ne zero (w := .payload off p) hne

theorem Rep.mono {m : Nat} {r : Reg P} (hnm : n ≤ m) (h : Rep crc indir off n d r) :
    Rep crc indir off m d r := by
  cases h with
  | blank h => exact .blank h
  | single hc h0 hle hm => exact .single hc h0 (Nat.le_trans hle hnm) hm
  | sibNewer hl hg =>
    exact .sibNewer { hl with orig_le := Nat.le_trans hl.orig_le hnm, sib_le := Nat.le_trans hl.sib_le hnm } hg
  | origNewer hl hg =>
    exact .origNewer { hl with orig_le := Nat.le_trans hl.orig_le hnm, sib_le := Nat.le_trans hl.sib_le hnm } hg

/-- The next generation, written over the older half, makes it the newer one: `sibNewer` turns
into `origNewer`. `c'` is the copy the overwritten record now holds. -/
theorem linked_over_orig {ph phSib : PageHeader} {c c' cSib : Copy P} {d' : Disk P} {flags : Nat}
    {p : P} (h : Linked crc indir off n d ph phSib c cSib) (hn : n + 1 < 2 ^ 32)
    (horig : CopyAt crc d' off { ph with flags := flags, checksum := crc p, generation := succ32 phSib.generation } c')
    (hsib : CopyAt crc d' (indir ph.mirrorPage) phSib (grown zero (indir ph.mirrorPage) off cSib))
    (hstored : off < indir ph.mirrorPage → c'.stored.isSome) : Rep crc indir off (n + 1) d' (.pair c' cSib) := by
  rw [grown_of_some fun _ => h.sib_stored] at hsib
  have hs : succ32 phSib.generation = phSib.generation + 1 := succ32_of_lt (by have := h.sib_le; omega)
  refine .origNewer ⟨horig, hsib, ?_, ?_, ?_, h.mirror, h.entry, h.apart, hstored, h.sib_stored⟩ ?_
  · simp [hs]
  · simpa [hs] using h.sib_le
  · exact Nat.le_succ_of_le h.sib_le
  · simp [hs]

theorem linked_over_sib {ph phSib : PageHeader} {c cSib cSib' : Copy P} {d' : Disk P} {flags : Nat}
    {p : P} (h : Linked crc indir off n d ph phSib c cSib) (hn : n + 1 < 2 ^ 32)
    (horig : CopyAt crc d' off ph (grown zero off (indir ph.mirrorPage) c))
    (hsib : CopyAt crc d' (indir ph.mirrorPage)
      { phSib with flags := flags, checksum := crc p, generation := succ32 ph.generation } cSib')
    (hstored : cSib'.stored.isSome) : Rep crc indir off (n + 1) d' (.pair cSib' c) := by
  rw [grown_of_some h.orig_stored] at horig
  have hs : succ32 ph.generation = ph.generation + 1 := succ32_of_lt (by have := h.orig_le; omega)
  refine .sibNewer ⟨horig, hsib, h.written, ?_, ?_, h.mirror, h.entry, h.apart, h.orig_stored, hstored⟩ ?_
  · exact Nat.le_succ_of_le h.orig_le
  · simpa [hs] using h.orig_le
  · simp [hs]

/-! ### One call is one attempt -/

variable {s : Session P} {c : Call P}

theorem runCall_record {o : Nat} {ph : PageHeader}
    (hw : mirrorWrites crc indir s.disk page off c.flags c.payload c.sibling =
      some (writePageRecord o ph c.payload)) :
    runCall crc indir zero page off s c =
      match c.cut with
      | some 0 => ⟨s.disk, s.allowed.map (c.payload :: ·)⟩
      | some 1 => ⟨s.disk.pwrite zero (.header o ph), s.allowed.map (c.payload :: ·)⟩
      | _ => ⟨(writePageRecord o ph c.payload).foldl (Disk.pwrite zero) s.disk, some [c.payload]⟩ := by
  unfold runCall
  rw [hw]
  rcases c.cut with _ | _ | _ | k <;> simp [reaching, allReach, writePageRecord]

theorem runCall_link {o : Nat} {ph : PageHeader} {m : Int}
    (hw : mirrorWrites crc indir s.disk page off c.flags c.payload c.sibling =
      some (writePageRecord o ph c.payload ++ [.link off m])) :
    runCall crc indir zero page off s c =
      let d := (writePageRecord o ph c.payload).foldl (Disk.pwrite zero) s.disk
      match c.cut with
      | some 0 => ⟨s.disk, s.allowed.map (c.payload :: ·)⟩
      | some 1 => ⟨s.disk.pwrite zero (.header o ph), s.allowed.map (c.payload :: ·)⟩
      | some 2 => ⟨d, s.allowed.map (c.payload :: ·)⟩
      | _ => ⟨d.pwrite zero (.link off m), some [c.payload]⟩ := by
  unfold runCall
  rw [hw]
  rcases c.cut with _ | _ | _ | _ | k <;> simp [reaching, allReach, writePageRecord]

theorem mirrorWrites_linked {ph phSib : PageHeader} {cp cSib : Copy P}
    (h : Linked crc indir off n d ph phSib cp cSib) (flags : Nat) (p : P) (sibling : Int) :
    mirrorWrites crc indir d page off flags p sibling =
      some (alternateWrites crc off (indir ph.mirrorPage) ph phSib flags p) := by
  simp [mirrorWrites, currentHeader, h.orig.hdr, h.written, h.mirror, h.entry, h.sib.hdr]

theorem sim_blank {acc : Option (List P)} (h0 : (currentHeader s.disk off).generation = 0)
    (h : Sim crc indir off n s ⟨.blank (s.disk.pay off), acc⟩) :
    Sim crc indir off (n + 1) (runCall crc indir zero page off s c)
      (State.step ⟨.blank (s.disk.pay off), acc⟩ (attemptOf (.blank (s.disk.pay off)) c)) := by
  have hacc : acc = none := h.blank _ rfl
  have hall : s.allowed = none := h.allowed.trans hacc
  subst hacc
  have hw : mirrorWrites crc indir s.disk page off c.flags c.payload c.sibling =
      some (writePageRecord off ⟨c.flags, crc c.payload, 1, -1⟩ c.payload) := by
    simp [mirrorWrites, h0]
  rw [runCall_record hw]
  have hfull : Rep crc indir off (n + 1)
      ((writePageRecord off ⟨c.flags, crc c.payload, 1, -1⟩ c.payload).foldl (Disk.pwrite zero) s.disk)
      (.single (.full c.payload)) :=
    .single (copyAt_record rfl) (by simp) (by simp) rfl
  rcases hcut : c.cut with _ | _ | _ | k
  · simp only [attemptOf, hcut]
    exact ⟨hfull, rfl, fun _ hr => by cases hr⟩
  · simp only [attemptOf, hcut]
    exact ⟨.blank h0, by simp [State.step, allow, hall], fun _ _ => rfl⟩
  · -- the header alone: generation 1 over whatever the record stored
    simp only [attemptOf, hcut]
    have htorn : CopyAt crc (s.disk.pwrite zero (.header off ⟨c.flags, crc c.payload, 1, -1⟩)) off
        ⟨c.flags, crc c.payload, 1, -1⟩ ⟨c.payload, s.disk.pay off⟩ :=
      CopyAt.pwrite_self zero (w := .header off _) ⟨by simp [Disk.apply, PWrite.off], rfl, rfl⟩
    refine ⟨.single htorn (by simp) (by simp) rfl, ?_, fun _ hr => by cases hr⟩
    simp [State.step, allow, hall]
  · simp only [attemptOf, hcut]
    exact ⟨hfull, rfl, fun _ hr => by cases hr⟩

theorem rep_single_frame {d' : Disk P} {ph : PageHeader} {cp : Copy P} (hc : CopyAt crc d' off ph cp)
    (h0 : ph.generation ≠ 0) (hle : ph.generation ≤ n) (hm : ph.mirrorPage = -1) :
    Rep crc indir off (n + 1) d' (.single cp) := .single hc h0 (Nat.le_succ_of_le hle) hm

/-- The second write. Its `pwrite`s to the sibling may let the file reach beyond the record, whose copy
is then filled. -/
theorem sim_single {acc : Option (List P)} {ph : PageHeader} {cp : Copy P}
    (hc : CopyAt crc s.disk off ph cp) (h0 : ph.generation ≠ 0) (hle : ph.generation ≤ n)
    (hm : ph.mirrorPage = -1) (hall : s.allowed = acc) (hsib : FreshSibling indir off c.sibling)
    (hn : n + 1 < 2 ^ 32) :
    ∃ cp', (cp' = cp ∨ cp' = cp.fill zero) ∧ Sim crc indir off (n + 1) (runCall crc indir zero page off s c)
      (State.step ⟨.single cp', acc⟩ (attemptOf (.single cp') c)) := by
  let phSib : PageHeader := ⟨c.flags, crc c.payload, succ32 ph.generation, toInt32 page⟩
  have hw : mirrorWrites crc indir s.disk page off c.flags c.payload c.sibling =
      some (writePageRecord (indir c.sibling) phSib c.payload ++ [.link off (toInt32 c.sibling)]) := by
    have := hsib.nonneg
    simp [mirrorWrites, currentHeader, hc.hdr, h0, hm, hsib.entry, show ¬ c.sibling < 0 by omega, phSib]
  rw [runCall_link hw, toInt32_of_lt hsib.nonneg hsib.lt]
  have hcases : grown zero off (indir c.sibling) cp = cp ∨ grown zero off (indir c.sibling) cp = cp.fill zero := by
    rw [grown]
    split
    · exact .inr rfl
    · exact .inl rfl
  have hskip : ∀ d' cp', CopyAt crc d' off ph cp' →
      Sim crc indir off (n + 1) ⟨d', s.allowed.map (c.payload :: ·)⟩
        (State.step ⟨.single cp', acc⟩ (.skip c.payload)) := fun d' cp' hd' =>
    ⟨rep_single_frame hd' h0 hle hm, by simp [State.step, allow, hall], fun _ hr => by cases hr⟩
  let d1 := (writePageRecord (indir c.sibling) phSib c.payload).foldl (Disk.pwrite zero) s.disk
  have hne := hsib.apart
  have ho : CopyAt crc d1 off ph (grown zero off (indir c.sibling) cp) := hc.record_ne hne.symm
  have hlink : Sim crc indir off (n + 1) ⟨d1.pwrite zero (.link off c.sibling), some [c.payload]⟩
      (State.step ⟨.single (grown zero off (indir c.sibling) cp), acc⟩ (.write c.payload)) := by
    have hs : succ32 ph.generation = ph.generation + 1 := succ32_of_lt (by omega)
    have hp : CopyAt crc d1 (indir c.sibling) phSib (.full c.payload) := copyAt_record rfl
    have ho' : CopyAt crc (d1.pwrite zero (.link off c.sibling)) off { ph with mirrorPage := c.sibling }
        (grown zero off (indir c.sibling) cp) :=
      CopyAt.pwrite_self zero (w := .link off c.sibling)
        ⟨by simp [Disk.apply, PWrite.off, ho.hdr], ho.sum, ho.pay⟩
    have hp' := hp.pwrite_ne zero (w := .link off c.sibling) hne
    rw [grown_of_some fun _ => rfl] at hp'
    have hm' : c.sibling ≠ -1 := by have := hsib.nonneg; omega
    refine ⟨.sibNewer ⟨ho', hp', h0, Nat.le_succ_of_le hle, ?_, hm', hsib.entry, hne, fun hlt => ?_, rfl⟩ ?_,
      rfl, fun _ hr => by cases hr⟩
    · simpa [phSib, hs] using hle
    · rw [grown, if_pos hlt]
      rfl
    · simp [phSib, hs]
  rcases hcut : c.cut with _ | _ | _ | _ | k
  · exact ⟨_, hcases, by simpa only [attemptOf, hcut] using hlink⟩
  · exact ⟨cp, .inl rfl, by simpa [attemptOf, hcut] using hskip _ _ hc⟩
  · have hhdr : CopyAt crc _ off ph (grown zero off (indir c.sibling) cp) :=
      hc.pwrite_ne zero (w := .header (indir c.sibling) phSib) hne.symm
    exact ⟨_, hcases, by simpa [attemptOf, hcut] using hskip _ _ hhdr⟩
  · exact ⟨_, hcases, by simpa [attemptOf, hcut] using hskip _ _ ho⟩
  · exact ⟨_, hcases, by simpa [attemptOf, hcut] using hlink⟩

theorem sim_pair {acc : Option (List P)} {a b : Copy P} {o : Nat} {ph : PageHeader} (hall : s.allowed = acc)
    (hw : mirrorWrites crc indir s.disk page off c.flags c.payload c.sibling =
      some (writePageRecord o ph c.payload))
    (hsame : Rep crc indir off n s.disk (.pair a b))
    (htear : Rep crc indir off (n + 1) (s.disk.pwrite zero (.header o ph)) (.pair ⟨c.payload, b.stored⟩ a))
    (hfull : Rep crc indir off (n + 1) ((writePageRecord o ph c.payload).foldl (Disk.pwrite zero) s.disk)
      (.pair (.full c.payload) a)) :
    Sim crc indir off (n + 1) (runCall crc indir zero page off s c)
      (State.step ⟨.pair a b, acc⟩ (attemptOf (.pair a b) c)) := by
  rw [runCall_record hw]
  rcases hcut : c.cut with _ | _ | _ | k
  · simp only [attemptOf, hcut]
    exact ⟨hfull, rfl, fun _ hr => by cases hr⟩
  · simp only [attemptOf, hcut]
    exact ⟨hsame.mono (Nat.le_succ n), by simp [State.step, allow, hall], fun _ hr => by cases hr⟩
  · simp only [attemptOf, hcut]
    exact ⟨htear, by simp [State.step, allow, hall], fun _ hr => by cases hr⟩
  · simp only [attemptOf, hcut]
    exact ⟨hfull, rfl, fun _ hr => by cases hr⟩

theorem sim_sibNewer {acc : Option (List P)} {ph phSib : PageHeader} {cp cSib : Copy P}
    (hl : Linked crc indir off n s.disk ph phSib cp cSib) (hg : ph.generation < phSib.generation)
    (hall : s.allowed = acc) (hn : n + 1 < 2 ^ 32) :
    Sim crc indir off (n + 1) (runCall crc indir zero page off s c)
      (State.step ⟨.pair cSib cp, acc⟩ (attemptOf (.pair cSib cp) c)) := by
  let ph' : PageHeader :=
    { ph with flags := c.flags, checksum := crc c.payload, generation := succ32 phSib.generation }
  have hw : mirrorWrites crc indir s.disk page off c.flags c.payload c.sibling =
      some (writePageRecord off ph' c.payload) := by
    rw [mirrorWrites_linked hl]
    simp [alternateWrites, Nat.le_of_lt hg, Nat.not_lt.mpr (Nat.le_of_lt hg), ph']
  refine sim_pair hall hw (.sibNewer hl hg) ?_ ?_
  · exact linked_over_orig hl hn (copyAt_header hl.orig rfl)
      (hl.sib.pwrite_ne zero (w := .header off ph') hl.apart) hl.orig_stored
  · exact linked_over_orig hl hn (copyAt_record rfl) (hl.sib.record_ne hl.apart) fun _ => rfl

theorem sim_origNewer {acc : Option (List P)} {ph phSib : PageHeader} {cp cSib : Copy P}
    (hl : Linked crc indir off n s.disk ph phSib cp cSib) (hg : phSib.generation < ph.generation)
    (hall : s.allowed = acc) (hn : n + 1 < 2 ^ 32) :
    Sim crc indir off (n + 1) (runCall crc indir zero page off s c)
      (State.step ⟨.pair cp cSib, acc⟩ (attemptOf (.pair cp cSib) c)) := by
  let ph' : PageHeader :=
    { phSib with flags := c.flags, checksum := crc c.payload, generation := succ32 ph.generation }
  have hw : mirrorWrites crc indir s.disk page off c.flags c.payload c.sibling =
      some (writePageRecord (indir ph.mirrorPage) ph' c.payload) := by
    rw [mirrorWrites_linked hl]
    simp [alternateWrites, hg, Nat.not_le.mpr hg, ph']
  refine sim_pair hall hw (.origNewer hl hg) ?_ ?_
  · exact linked_over_sib hl hn (hl.orig.pwrite_ne zero (w := .header _ ph') hl.apart.symm)
      (copyAt_header hl.sib rfl) hl.sib_stored
  · exact linked_over_sib hl hn (hl.orig.record_ne hl.apart.symm) (copyAt_record rfl) rfl

theorem cutSafe_linked {ph phSib : PageHeader} {cp cSib : Copy P}
    (hl : Linked crc indir off n d ph phSib cp cSib) :
    CutSafe crc indir off d c ↔
      (c.cut = some 1 →
        (checkedPayload crc d (halves off (indir ph.mirrorPage) ph phSib).2.1
          (halves off (indir ph.mirrorPage) ph phSib).2.2).isSome ∨
        d.pay (halves off (indir ph.mirrorPage) ph phSib).1.1 = some c.payload) := by
  unfold CutSafe
  refine imp_congr_right fun _ => ⟨fun h => ?_, fun h ph' phSib' hph _ _ hsib => ?_⟩
  · exact h ph phSib hl.orig.hdr hl.written hl.mirror hl.sib.hdr
  · rw [hl.orig.hdr] at hph; cases hph
    rw [hl.sib.hdr] at hsib; cases hsib
    exact h

theorem cutSafe_iff (hcrc : Function.Injective crc) {r : Reg P} (h : Rep crc indir off n d r) :
    CutSafe crc indir off d c ↔ r.Safe (attemptOf r c) := by
  have hsome : ∀ {o : Nat} {ph : PageHeader} {cp : Copy P}, CopyAt crc d o ph cp →
      ((checkedPayload crc d o ph).isSome ↔ cp.Intact) := by
    intro o ph cp hc
    rw [← not_iff_not, Bool.not_eq_true, Option.isSome_eq_false_iff, Option.isNone_iff_eq_none,
      checkedPayload_eq_none hcrc hc]
  cases h with
  | blank h0 =>
    refine iff_of_true (fun _ ph _ hph hne => ?_) ?_
    · simp [currentHeader, hph] at h0; exact absurd h0 hne
    · simp only [Reg.Safe]
  | single hc _ _ hm =>
    refine iff_of_true (fun _ ph _ hph _ hne => ?_) (by simp only [Reg.Safe])
    rw [hc.hdr] at hph; cases hph; exact absurd hm hne
  | sibNewer hl hg =>
    rw [cutSafe_linked hl]
    simp only [halves, Nat.le_of_lt hg, if_true, hsome hl.sib, hl.orig.pay]
    rcases hcut : c.cut with _ | _ | _ | k <;> simp [attemptOf, hcut, Reg.Safe]
  | origNewer hl hg =>
    rw [cutSafe_linked hl]
    simp only [halves, Nat.not_le.mpr hg, if_false, hsome hl.orig, hl.sib.pay]
    rcases hcut : c.cut with _ | _ | _ | k <;> simp [attemptOf, hcut, Reg.Safe]

theorem readable_iff (hcrc : Function.Injective crc) {t : State P} (h : Sim crc indir off n s t) :
    Readable crc indir off s ↔ t.Served := by
  unfold Readable State.Served
  rw [h.allowed]
  refine forall_congr' fun A => imp_congr_right fun hA => exists_congr fun p => and_congr_right fun _ => ?_
  refine rep_read hcrc h.rep fun x hx => ?_
  rw [h.blank x hx] at hA
  cases hA

/-- Every call, cut anywhere, is one attempt on the represented register, or on the one whose copy is
filled, and the condition on the call is the one on the attempt. -/
theorem sim_runCall (zero : P) (page : Int) (hcrc : Function.Injective crc) {t : State P} (h : Sim crc indir off n s t)
    (hgood : t.Good) (hsib : FreshSibling indir off c.sibling) (hn : n + 1 < 2 ^ 32) :
    ∃ t₀ : State P, t₀.Good ∧ (CutSafe crc indir off s.disk c ↔ t₀.reg.Safe (attemptOf t₀.reg c)) ∧
      Sim crc indir off (n + 1) (runCall crc indir zero page off s c) (t₀.step (attemptOf t₀.reg c)) := by
  obtain ⟨r, acc⟩ := t
  have hrep := h.rep
  have hsafe := cutSafe_iff (c := c) hcrc hrep
  cases hrep with
  | blank h0 => exact ⟨_, hgood, hsafe, sim_blank h0 h⟩
  | @single ph cp hc h0 hle hm =>
    obtain ⟨cp', hcp', hsim⟩ := sim_single hc h0 hle hm h.allowed hsib hn
    refine ⟨⟨.single cp', acc⟩, ?_, hsafe.trans (by simp only [Reg.Safe]), hsim⟩
    obtain rfl | rfl := hcp'
    · exact hgood
    · exact good_fill hgood zero
  | sibNewer hl hg => exact ⟨_, hgood, hsafe, sim_sibNewer hl hg h.allowed hn⟩
  | origNewer hl hg => exact ⟨_, hgood, hsafe, sim_origNewer hl hg h.allowed hn⟩

theorem allReadable_head {cs : List (Call P)} (h : AllReadable crc indir zero page off s cs) :
    Readable crc indir off s := by
  cases cs with
  | nil => exact h
  | cons c cs => exact h.1

theorem run_iff (hcrc : Function.Injective crc) (page : Int) (cs : List (Call P)) :
    ∀ {n : Nat} {s : Session P} {t : State P}, Sim crc indir off n s t → t.Good →
      (∀ c ∈ cs, FreshSibling indir off c.sibling) → n + cs.length < 2 ^ 32 →
      (AllReadable crc indir zero page off s cs ↔ AllCutSafe crc indir zero page off s cs) := by
  induction cs with
  | nil => intro n s t h hgood _ _; exact iff_of_true ((readable_iff hcrc h).2 hgood.served) trivial
  | cons c cs ih =>
    intro n s t h hgood hsib hn
    have hn' : n + 1 + cs.length < 2 ^ 32 := by simp only [List.length_cons] at hn; omega
    obtain ⟨t₀, hgood₀, hsafe, hstep⟩ :=
      sim_runCall zero page hcrc h hgood (hsib c List.mem_cons_self) (by omega)
    have hrest := fun hs => ih hstep (good_step hgood₀ hs) (fun c' hc' => hsib c' (List.mem_cons_of_mem _ hc')) hn'
    constructor
    · rintro ⟨-, hread⟩
      have hs := safe_of_served hgood₀ ((readable_iff hcrc hstep).1 (allReadable_head hread))
      exact ⟨hsafe.2 hs, (hrest hs).1 hread⟩
    · rintro ⟨hcut, hread⟩
      exact ⟨(readable_iff hcrc h).2 hgood.served, (hrest (hsafe.1 hcut)).2 hread⟩

end Proofs

/-- **The mirror protocol under cuts.** From a page that was never written, over fewer than
`2 ^ 32` calls each cut anywhere: reads succeed at every point, with the last completed payload or
a later interrupted one, exactly when no call is cut between header and payload while the half it
keeps is torn. -/
theorem mirror_crash_safe_iff (hcrc : Function.Injective crc) (page : Int) (off : Nat) (d : Disk P)
    (h0 : (currentHeader d off).generation = 0) (cs : List (Call P)) (hlen : cs.length < 2 ^ 32)
    (hsib : ∀ c ∈ cs, FreshSibling indir off c.sibling) :
    AllReadable crc indir zero page off ⟨d, none⟩ cs ↔ AllCutSafe crc indir zero page off ⟨d, none⟩ cs := by
  have hsim : Sim crc indir off 0 ⟨d, none⟩ ⟨.blank (d.pay off), none⟩ :=
    ⟨.blank h0, rfl, fun _ _ => rfl⟩
  exact run_iff hcrc page cs hsim (good_init _) hsib (by omega)

/-- An indirection table with one sibling page, `3`. -/
def oneSibling : Int → Nat := fun s => if s = 3 then 100 else 0

/-- A call on the page at offset `50` whose sibling, if it needs one, is page `3`. -/
def writeCut (p : UInt32) (cut : Option Nat) : Call UInt32 := ⟨p, 0, 3, cut⟩

/-- One cut between header and payload of a mirrored page is survived. -/
theorem mirror_crash_safe_iff_one_cut :
    AllReadable id oneSibling 0 2 50 ⟨Disk.empty, none⟩
      [writeCut 10 none, writeCut 20 none, writeCut 30 (some 1)] := by
  refine (mirror_crash_safe_iff id oneSibling 0 (fun _ _ h => h) 2 50 Disk.empty rfl _ (by decide) ?_).mpr
    ⟨fun h => (nomatch h), fun h => (nomatch h), fun _ ph phSib hph _ _ hsib => ?_, trivial⟩
  · intro c hc
    have hs : c.sibling = 3 := by
      simp only [List.mem_cons, List.not_mem_nil, or_false] at hc
      rcases hc with rfl | rfl | rfl <;> rfl
    rw [hs]
    exact ⟨by decide, by decide, by decide, by decide⟩
  · cases hph
    cases hsib
    exact .inl (by decide)

/-- Two such cuts in a row destroy both halves: the second call overwrites the half the first one
kept, because the torn half carries the higher generation. -/
theorem two_header_cuts_lose_page :
    let s := [writeCut 10 none, writeCut 20 none, writeCut 30 (some 1), writeCut 40 (some 1)].foldl
      (runCall id oneSibling 0 2 50) ⟨Disk.empty, none⟩
    s.allowed = some [40, 30, 20] ∧ mirrorRead id oneSibling s.disk 50 = .crcError := by
  decide

/-- If the page was cut first of all, its payload reads as zeros, and a cut write of zeros is no loss. -/
example :
    let s := [writeCut 10 (some 1), writeCut 20 none, writeCut 0 (some 1), writeCut 40 (some 1)].foldl
      (runCall id oneSibling 0 2 50) ⟨Disk.empty, none⟩
    s.allowed = some [40, 0, 20] ∧ mirrorRead id oneSibling s.disk 50 = .ok 0 := by
  decide

end Mirror
end SphereVFS
