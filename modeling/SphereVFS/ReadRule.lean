import SphereVFS.Epoch
import Mathlib.Data.List.Find

/-!
# SphereVFS.ReadRule

What the read rule sees when the epochs move.

A row of the mapper sends an odd epoch `S` below the head either to the head of its commit (and
then entries of `S` count there) or to `S - 1` (and then they count for nobody). From that follows
how each event changes what a reader at `R` accepts:

* an entry written at a writable epoch is accepted by readers at that epoch only;
* a new snapshot and the new head accept what the old head accepted;
* a commit of `S` changes the head only, where the entries of `S` are accepted as well;
* a soft-delete changes nobody's view.
-/

namespace SphereVFS

def RowOk (head : Int) (r : MapperRow) : Prop :=
  r.fromEpoch % 2 = 1 ∧ 0 < r.fromEpoch ∧ r.fromEpoch < head ∧
    (r.traversalApply = true → r.toEpoch % 2 = 0 ∧ r.fromEpoch < r.toEpoch ∧ r.toEpoch ≤ head) ∧
    (r.traversalApply = false → r.toEpoch = r.fromEpoch - 1)

/-- No row of the mapper is for the epoch: it was neither committed nor soft-deleted. -/
def Unmapped (rows : List MapperRow) (e : Int) : Prop := ∀ r ∈ rows, r.fromEpoch ≠ e

variable {rows : List MapperRow} {head e R S : Int}

theorem RowOk.mono {r : MapperRow} {head' : Int} (h : RowOk head r) (hle : head ≤ head') :
    RowOk head' r := by
  obtain ⟨hodd, hpos, hlt, happly, hdel⟩ := h
  refine ⟨hodd, hpos, by omega, fun ha => ?_, hdel⟩
  obtain ⟨heven, hfrom, hto⟩ := happly ha
  exact ⟨heven, hfrom, by omega⟩

theorem find_unmapped (h : Unmapped rows (u32 e)) :
    rows.find? (fun r => r.fromEpoch == u32 e) = none := by
  rw [List.find?_eq_none]
  intro r hr
  simpa using h r hr

theorem resolve_unmapped (h : Unmapped rows (u32 e)) : resolve rows e = e := by
  simp [resolve, find_unmapped h]

theorem effEpoch_unmapped (h : Unmapped rows (u32 e)) : effEpoch rows e = e := by
  simp [effEpoch, traversalApply, find_unmapped h]

theorem find_mapped (h : ¬ Unmapped rows (u32 e)) :
    ∃ r ∈ rows, r.fromEpoch = u32 e ∧ rows.find? (fun r => r.fromEpoch == u32 e) = some r := by
  cases hf : rows.find? (fun r => r.fromEpoch == u32 e) with
  | none =>
    rw [List.find?_eq_none] at hf
    exact absurd (fun r hr => by simpa using hf r hr) h
  | some r => exact ⟨r, List.mem_of_find?_eq_some hf, by simpa using List.find?_some hf, rfl⟩

theorem unmapped_of_even (hrows : ∀ r ∈ rows, RowOk head r) (he : e % 2 = 0) : Unmapped rows e := by
  intro r hr hre
  have := (hrows r hr).1
  omega

theorem unmapped_of_head_le (hrows : ∀ r ∈ rows, RowOk head r) (he : head ≤ e) :
    Unmapped rows e := by
  intro r hr hre
  have := (hrows r hr).2.2.1
  omega

theorem resolve_eq_self (hrows : ∀ r ∈ rows, RowOk head r) (h0 : 0 ≤ e) (hlt : e < 2 ^ 32) :
    resolve rows e = e ↔ Unmapped rows e := by
  have hu := u32_of_range h0 hlt
  constructor
  · intro h
    by_contra hm
    obtain ⟨r, hr, hfrom, hf⟩ := find_mapped (e := e) (by rwa [hu])
    simp only [resolve, hf] at h
    obtain ⟨hodd, -, -, happly, hdel⟩ := hrows r hr
    rw [hu] at hfrom
    cases ha : r.traversalApply with
    | true => have := happly ha; omega
    | false => have := hdel ha; omega
  · intro h
    exact resolve_unmapped (by rwa [hu])

theorem effEpoch_range (hrows : ∀ r ∈ rows, RowOk head r) (h0 : 0 ≤ e) (hle : e ≤ head) :
    0 ≤ effEpoch rows e ∧ effEpoch rows e ≤ head := by
  by_cases hm : Unmapped rows (u32 e)
  · rw [effEpoch_unmapped hm]
    exact ⟨h0, hle⟩
  · obtain ⟨r, hr, -, hf⟩ := find_mapped hm
    obtain ⟨-, hpos, -, happly, -⟩ := hrows r hr
    simp only [effEpoch, traversalApply, resolve, hf]
    split
    · rename_i ha
      have := happly ha
      omega
    · exact ⟨h0, hle⟩

/-! ## One more row -/

theorem find_append (row : MapperRow) (h : Unmapped rows row.fromEpoch) :
    (rows ++ [row]).find? (fun r => r.fromEpoch == u32 e) =
      if u32 e = row.fromEpoch then some row else rows.find? (fun r => r.fromEpoch == u32 e) := by
  rw [List.find?_append]
  by_cases he : u32 e = row.fromEpoch
  · rw [if_pos he, find_unmapped (by rwa [he])]
    simp [he]
  · have : ¬ row.fromEpoch = u32 e := fun h => he h.symm
    simp [he, this]

theorem effEpoch_append (row : MapperRow) (h : Unmapped rows row.fromEpoch) :
    effEpoch (rows ++ [row]) e =
      if u32 e = row.fromEpoch then (if row.traversalApply then row.toEpoch else e)
      else effEpoch rows e := by
  simp only [effEpoch, traversalApply, resolve, find_append row h]
  by_cases he : u32 e = row.fromEpoch
  · simp only [if_pos he]
  · simp only [if_neg he]
    rfl

/-! ## Which entries a reader accepts -/

theorem applicable_iff : applicable rows R e = true ↔
    effEpoch rows e = R ∨ effEpoch rows e < R ∧ effEpoch rows e % 2 = 0 := by
  simp [applicable]

theorem applicable_congr {rows' : List MapperRow} {R' e' : Int}
    (h : (effEpoch rows e = R ∨ effEpoch rows e < R ∧ effEpoch rows e % 2 = 0) ↔
      (effEpoch rows' e' = R' ∨ effEpoch rows' e' < R' ∧ effEpoch rows' e' % 2 = 0)) :
    applicable rows R e = applicable rows' R' e' := by
  rw [Bool.eq_iff_iff, applicable_iff, applicable_iff, h]

theorem not_applicable_of_writable (hun : Unmapped rows (u32 e)) (he : e = head ∨ e % 2 = 1)
    (hR : R ≤ head) (hne : R ≠ e) : applicable rows R e = false := by
  rw [Bool.eq_false_iff, ne_eq, applicable_iff, effEpoch_unmapped hun]
  omega

theorem applicable_self (hun : Unmapped rows (u32 e)) : applicable rows e e = true := by
  rw [applicable_iff, effEpoch_unmapped hun]
  exact .inl rfl

theorem applicable_snapshot (hhead : head % 2 = 0) (hle : effEpoch rows e ≤ head)
    (hR : R = head + 1 ∨ R = head + 2) : applicable rows R e = applicable rows head e := by
  apply applicable_congr
  omega

theorem applicable_commit_below (hodd : S % 2 = 1) (hun : Unmapped rows S)
    (h0 : 0 ≤ e) (hlt : e < 2 ^ 32) (hR : R < head) (hne : R ≠ S) :
    applicable (rows ++ [⟨S, head, true⟩]) R e = applicable rows R e := by
  have hu := u32_of_range h0 hlt
  apply applicable_congr
  rw [effEpoch_append ⟨S, head, true⟩ hun, hu]
  split
  · rename_i he
    simp only at he
    -- before the commit the entry counted at `S`, which is odd and not `R`
    rw [effEpoch_unmapped (by rwa [hu, he])]
    simp only [if_true]
    omega
  · rfl

theorem applicable_commit_head (hun : Unmapped rows S) (h0 : 0 ≤ e) (hlt : e < 2 ^ 32) :
    applicable (rows ++ [⟨S, head, true⟩]) head e = (e == S || applicable rows head e) := by
  have hu := u32_of_range h0 hlt
  rw [Bool.eq_iff_iff, Bool.or_eq_true, applicable_iff, applicable_iff,
    effEpoch_append ⟨S, head, true⟩ hun, hu]
  by_cases he : e = S
  · simp [he]
  · simp [he]

theorem effEpoch_eq_odd (hrows : ∀ r ∈ rows, RowOk head r) (hodd : S % 2 = 1)
    (h : effEpoch rows e = S) : e = S := by
  by_cases hm : Unmapped rows (u32 e)
  · rwa [effEpoch_unmapped hm] at h
  · obtain ⟨r, hr, -, hf⟩ := find_mapped hm
    simp only [effEpoch, traversalApply, resolve, hf] at h
    split at h
    · rename_i ha
      have := (hrows r hr).2.2.2.1 ha
      omega
    · exact h

theorem applicable_commit_written (hrows : ∀ r ∈ rows, RowOk head r) (hhead : head % 2 = 0)
    (hlt : S < head) (hodd : S % 2 = 1) (hun : Unmapped rows S) (h0 : 0 ≤ e) (hle : e ≤ head)
    (h32 : head < 2 ^ 32) (hlater : ¬ (S < effEpoch rows e ∧ effEpoch rows e % 2 = 0)) :
    applicable (rows ++ [⟨S, head, true⟩]) head e = applicable rows S e := by
  rw [applicable_commit_head hun h0 (by omega), Bool.eq_iff_iff, Bool.or_eq_true, beq_iff_eq,
    applicable_iff, applicable_iff]
  have hrange := effEpoch_range hrows h0 hle
  by_cases he : e = S
  · subst he
    rw [effEpoch_unmapped (by rwa [u32_of_range h0 (by omega)])]
    simp
  · have hne : effEpoch rows e ≠ S := fun h => he (effEpoch_eq_odd hrows hodd h)
    omega

theorem applicable_delete (hun : Unmapped rows S) {target : Int} (h0 : 0 ≤ e) (hlt : e < 2 ^ 32) :
    applicable (rows ++ [⟨S, target, false⟩]) R e = applicable rows R e := by
  have hu := u32_of_range h0 hlt
  apply applicable_congr
  rw [effEpoch_append ⟨S, target, false⟩ hun, hu]
  split
  · rename_i he
    simp only at he
    rw [effEpoch_unmapped (by rwa [hu, he])]
    simp
  · rfl

/-! ## Chains -/

section Chains

variable {α : Type} {epochOf : α → Int}

theorem chainWalk_congr {rows' : List MapperRow} {R' : Int} {chain : List α}
    (h : ∀ x ∈ chain, applicable rows R (epochOf x) = applicable rows' R' (epochOf x)) :
    chainWalk epochOf rows R chain = chainWalk epochOf rows' R' chain :=
  List.find?_congr h

theorem chainWalk_cons_skip {x : α} {chain : List α}
    (h : applicable rows R (epochOf x) = false) :
    chainWalk epochOf rows R (x :: chain) = chainWalk epochOf rows R chain := by
  simp [chainWalk, h]

theorem chainWalk_cons_take {x : α} {chain : List α}
    (h : applicable rows R (epochOf x) = true) :
    chainWalk epochOf rows R (x :: chain) = some x := by
  simp [chainWalk, h]

theorem mem_of_chainWalk {x : α} {chain : List α} (h : chainWalk epochOf rows R chain = some x) :
    x ∈ chain := List.mem_of_find?_eq_some h

theorem applicable_of_chainWalk {x : α} {chain : List α}
    (h : chainWalk epochOf rows R chain = some x) : applicable rows R (epochOf x) = true := by
  rw [chainWalk] at h
  simpa using List.find?_some h

end Chains

end SphereVFS
