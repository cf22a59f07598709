import SphereVFS.Volume

/-!
# SphereVFS.Namespace

The links each reader sees, over whole runs.

A property of the links that passes to smaller sets of links survives a run if each directory
operation keeps it at its own epoch and each commit keeps it at the head: all other views only
lose links.
-/

namespace SphereVFS

variable {st st' : State} {epoch R : Int} {parent : VPtr} {name : Name}

theorem lists_child_isSome (hwf : DirWf st) {dir slot child : VPtr}
    (h : Lists st R dir slot name child) : (st.nodes child).isSome := by
  obtain ⟨d, dc, hd, hmem, hdc, -, rfl⟩ := h
  obtain ⟨s, hs⟩ := Option.isSome_iff_exists.1 (hwf.slot_some dir d hd slot hmem)
  simp only [visibleEntry, hs] at hdc
  exact hwf.entry_child slot s hs dc (mem_of_chainWalk hdc)

theorem bootstrap_lists {pageSize segmentSize : Nat} {dir slot child : VPtr} :
    ¬ Lists (bootstrap pageSize segmentSize) R dir slot name child := by
  rintro ⟨d, dc, -, -, hdc, -⟩
  simp [visibleEntry, bootstrap] at hdc

theorem listSlot_lists {dir slot : VPtr} {d : DirNode} {entry : Dirent}
    (hd : st.nodes dir = some (.dir d)) (hmem : slot ∈ d.slotList)
    (h : listSlot st R slot = some entry) : Lists st R dir slot entry.name entry.vp := by
  rw [listSlot] at h
  split at h
  · rename_i dc hdc
    obtain ⟨n, hn, rfl⟩ := Option.map_eq_some_iff.1 h
    exact ⟨d, dc, hd, hmem, hdc, hn, rfl⟩
  · cases h

theorem writable_lt {e : Int} (h : Writable st e) : e ≤ st.currentEpoch := by
  obtain rfl | h := h
  · exact Int.le_refl _
  · exact Int.le_of_lt h.2.2.1

theorem views_step {V : Links.Rel VPtr VPtr Name → Prop}
    (hmono : ∀ L M : Links.Rel VPtr VPtr Name, (∀ d s n c, L d s n c → M d s n c) → V M → V L)
    (hwf : Wf st) {op : Op} (hop : ValidOp st op) (hV : ∀ R, Writable st R → V (Lists st R))
    (hdir : ∀ E, op.isDirOp = true → op.epoch = some E → Writable st E → V (Lists (step st op) E))
    (hcommit : ∀ S st1, op = .commit S → FileEdits st st1 →
      Mapped st1 S st1.currentEpoch true (step st op) → V (Lists (step st op) st1.currentEpoch)) :
    ∀ R, Writable (step st op) R → V (Lists (step st op) R) := by
  intro R hR
  have hout := step_outcome hwf hop
  -- a view that the step does not work at has its links from an old view
  have hframe : ∀ R₀, Writable st R₀ → Frame st R₀ (step st op) R → V (Lists (step st op) R) :=
    fun R₀ h₀ hf => hmono _ _ (fun _ _ _ _ => lists_of_frame hf.grow hf.entries) (hV R₀ h₀)
  revert hR hframe hdir hcommit
  generalize step st op = st' at hout ⊢
  intro hdir hcommit hR hframe
  cases hout with
  | same => exact hV R hR
  | dir _ E _ hop hat hw h =>
    have hkeep := h.keeps hwf.epoch hw hwf.dir
    have hR' : Writable st R := by
      simpa only [Writable, Active, hkeep.same.epoch, hkeep.same.table] using hR
    by_cases hne : R = E
    · rw [hne]
      exact hdir E hop hat hw
    · exact hframe R hR' ⟨hkeep.grow, hkeep.entries R (writable_lt hR') hne,
        (h.filesKept hwf.epoch hw hwf.dir).sameFiles R⟩
  | write _ E _ hat hw h =>
    have hkept := (h.keeps hwf.epoch hw hwf.file).kept
    have hR' : Writable st R := by simpa only [Writable, Active, hkept.epoch, hkept.table] using hR
    exact hmono _ _ (fun _ _ _ _ => lists_of_frame (hkept.grow hwf.dir) (hkept.entries R)) (hV R hR')
  | read _ _ h =>
    have hkept := FileEdits.dirsKept h
    have hR' : Writable st R := by simpa only [Writable, Active, hkept.epoch, hkept.table] using hR
    exact hframe R hR' (h.frame hwf R)
  | snapshot hlt =>
    have hhead : (vfsSnapshot st).2.currentEpoch = st.currentEpoch + 2 := rfl
    have heven := hwf.epoch.head_even
    obtain hR | ⟨hodd, hpos, hlt', hun⟩ := hR
    · exact hframe _ (.inl rfl) ((snapshot_move st).frame hwf
        fun e h0 hle => snapshot_rule hwf (.inr (hR.trans hhead)) h0 hle)
    · by_cases hnew : R = st.currentEpoch + 1
      · exact hframe _ (.inl rfl) ((snapshot_move st).frame hwf
          fun e h0 hle => snapshot_rule hwf (.inl hnew) h0 hle)
      · have hR' : Writable st R := .inr ⟨hodd, hpos, by omega, hun⟩
        exact hframe R hR' ((snapshot_move st).frame hwf fun _ _ _ => rfl)
  | commit S st1 _ h hm =>
    have hkept := FileEdits.dirsKept h
    obtain hR | ⟨hodd, hpos, hlt, hun⟩ := hR
    · rw [hR, hm.head]
      exact hcommit S st1 rfl h hm
    · rw [hm.head, hkept.epoch] at hlt
      rw [hm.table, hkept.table] at hun
      have hne : R ≠ S := by
        rintro rfl
        exact hun ⟨R, st1.currentEpoch, true⟩ (by simp) rfl
      have hR' : Writable st R :=
        .inr ⟨hodd, hpos, hlt, fun r hr => hun r (List.mem_append_left _ hr)⟩
      exact hframe R hR' ((h.frame hwf R).trans
        (hm.frame_commit (h.wf hwf) (by rwa [hkept.epoch]) hne))
  | delete S _ hm =>
    have hR' : Writable st R := by
      obtain hR | ⟨hodd, hpos, hlt, hun⟩ := hR
      · exact .inl (hR.trans hm.head)
      · rw [hm.head] at hlt
        rw [hm.table] at hun
        exact .inr ⟨hodd, hpos, hlt, fun r hr => hun r (List.mem_append_left _ hr)⟩
    exact hframe R hR' (hm.frame_delete hwf R)

def SlotFound (st : State) (srcParent : VPtr) (src : Name) (epoch : Int) (child : VPtr) (childId : Nat)
    (slot : VPtr) : Prop :=
  ∃ d, st.nodes srcParent = some (.dir d) ∧ dirchainFindSlotnode st d childId = some slot ∧
    Lists st epoch srcParent slot src child

end SphereVFS
