import SphereVFS.FileFrame
import Mathlib.Data.List.TakeWhile

/-!
# SphereVFS.FilePages

The pages of a file as a map from page numbers to `PageNode`s, and the edits that
`tree_resolve_page` makes to it.

A segment keeps its nodes sorted by page index, so its walk finds a node exactly when there is one.
The edits either leave the map alone (padding with empty segments, the cache) or add one node
without versions where there was none.
-/

namespace SphereVFS

variable {st st' : State} {file : VPtr}

def segPages (contents : List FileContent) (seg : Nat) : List VPtr :=
  match contents[seg]? with
  | some fc => fc.pages
  | none => []

/-- The `PageNode` of a page of a file, by the segment chain. -/
def pageNodeOf (st : State) (file : VPtr) (lp : Nat) : Option VPtr :=
  match st.nodes file with
  | some (.file f) => findPage st (lp % st.segmentSize) (segPages f.contents (lp / st.segmentSize))
  | _ => none

theorem pageNodeOf_file {f : FileNode} (hf : st.nodes file = some (.file f)) (lp : Nat) :
    pageNodeOf st file lp =
      findPage st (lp % st.segmentSize) (segPages f.contents (lp / st.segmentSize)) := by
  simp only [pageNodeOf, hf]

theorem pageNodeOf_not_file (h : ∀ f, st.nodes file ≠ some (.file f)) (lp : Nat) :
    pageNodeOf st file lp = none := by
  rw [pageNodeOf]
  split
  · rename_i f hf
    exact absurd hf (h f)
  · rfl

/-! ## One segment -/

def Sorted (st : State) (pages : List VPtr) : Prop :=
  pages.Pairwise fun a b => pageIdx st a < pageIdx st b

theorem findPage_eq_some {target : Nat} {pages : List VPtr} (hs : Sorted st pages) {v : VPtr} :
    findPage st target pages = some v ↔ v ∈ pages ∧ pageIdx st v = target := by
  induction pages with
  | nil => simp [findPage]
  | cons x xs ih =>
    obtain ⟨hx, hxs⟩ := List.pairwise_cons.1 hs
    by_cases hle : target ≤ pageIdx st x
    · have hfind : findPage st target (x :: xs) = if pageIdx st x = target then some x else none := by
        simp [findPage, hle]
      rw [hfind]
      constructor
      · intro h
        split at h
        · rename_i heq
          cases h
          exact ⟨List.mem_cons_self, heq⟩
        · cases h
      · rintro ⟨hv, rfl⟩
        obtain rfl | hv := List.mem_cons.1 hv
        · simp
        · have := hx v hv
          omega
    · have hfind : findPage st target (x :: xs) = findPage st target xs := by
        simp [findPage, hle]
      rw [hfind, ih hxs]
      constructor
      · rintro ⟨hv, heq⟩
        exact ⟨List.mem_cons_of_mem x hv, heq⟩
      · rintro ⟨hv, rfl⟩
        obtain rfl | hv := List.mem_cons.1 hv
        · exact absurd (Nat.le_refl _) hle
        · exact ⟨hv, rfl⟩

theorem findPage_congr {target : Nat} {pages : List VPtr}
    (h : ∀ v ∈ pages, pageIdx st' v = pageIdx st v) :
    findPage st' target pages = findPage st target pages := by
  have hfind : pages.find? (fun v => decide (target ≤ pageIdx st' v)) =
      pages.find? fun v => decide (target ≤ pageIdx st v) :=
    List.find?_congr fun v hv => by rw [h v hv]
  rw [findPage, findPage, hfind]
  split
  · rename_i v hv
    rw [h v (List.mem_of_find?_eq_some hv)]
  · rfl

theorem mem_insertPage {target : Nat} {pn v : VPtr} {pages : List VPtr} :
    v ∈ insertPage st target pn pages ↔ v = pn ∨ v ∈ pages := by
  have hsplit : v ∈ pages ↔ v ∈ pages.takeWhile (fun v => decide (pageIdx st v < target)) ∨
      v ∈ pages.dropWhile (fun v => decide (pageIdx st v < target)) := by
    rw [← List.mem_append, List.takeWhile_append_dropWhile]
  rw [insertPage, List.mem_append, List.mem_cons, hsplit]
  tauto

theorem le_of_mem_dropWhile {target : Nat} {pages : List VPtr} (hs : Sorted st pages) {v : VPtr}
    (hv : v ∈ pages.dropWhile fun v => decide (pageIdx st v < target)) :
    target ≤ pageIdx st v := by
  induction pages with
  | nil => simp at hv
  | cons x xs ih =>
    obtain ⟨hx, hxs⟩ := List.pairwise_cons.1 hs
    by_cases hlt : pageIdx st x < target
    · rw [List.dropWhile_cons_of_pos (by simpa using hlt)] at hv
      exact ih hxs hv
    · rw [List.dropWhile_cons_of_neg (by simpa using hlt)] at hv
      obtain rfl | hv := List.mem_cons.1 hv
      · omega
      · have := hx v hv
        omega

theorem sorted_insertPage {target : Nat} {pages : List VPtr} {pn : VPtr} (hs : Sorted st pages)
    (hnone : findPage st target pages = none) (hidx : ∀ v ∈ pages, pageIdx st' v = pageIdx st v)
    (hpn : pageIdx st' pn = target) : Sorted st' (insertPage st target pn pages) := by
  have hne : ∀ v ∈ pages, pageIdx st v ≠ target := by
    intro v hv heq
    have := (findPage_eq_some hs).2 ⟨hv, heq⟩
    simp [hnone] at this
  have htake : ∀ v ∈ pages.takeWhile (fun v => decide (pageIdx st v < target)),
      v ∈ pages ∧ pageIdx st v < target := by
    intro v hv
    exact ⟨(List.takeWhile_sublist _).subset hv, by simpa using List.mem_takeWhile_imp hv⟩
  have hdrop : ∀ v ∈ pages.dropWhile (fun v => decide (pageIdx st v < target)),
      v ∈ pages ∧ target < pageIdx st v := by
    intro v hv
    have hmem := (List.dropWhile_sublist _).subset hv
    have hle := le_of_mem_dropWhile hs hv
    have := hne v hmem
    exact ⟨hmem, by omega⟩
  have hsub : ∀ l, l.Sublist pages → Sorted st' l := by
    intro l hl
    refine (hs.sublist hl).imp_of_mem ?_
    intro a b ha hb hab
    rwa [hidx a (hl.subset ha), hidx b (hl.subset hb)]
  rw [insertPage, Sorted, List.pairwise_append, List.pairwise_cons]
  refine ⟨hsub _ (List.takeWhile_sublist _), ⟨?_, hsub _ (List.dropWhile_sublist _)⟩, ?_⟩
  · intro b hb
    rw [hpn, hidx b (hdrop b hb).1]
    exact (hdrop b hb).2
  · intro a ha b hb
    obtain rfl | hb := List.mem_cons.1 hb
    · rw [hpn, hidx a (htake a ha).1]
      exact (htake a ha).2
    · rw [hidx a (htake a ha).1, hidx b (hdrop b hb).1]
      exact Nat.lt_trans (htake a ha).2 (hdrop b hb).2

/-! ## Edits -/

def CacheOk (st : State) (cache : List TcacheEntry) : Prop :=
  ∀ e ∈ cache, e.populated = true → e.gen = st.gcGeneration →
    ∃ file seg, e.key = cacheKey file seg ∧ seg < 2 ^ 20 ∧
      ∀ page < st.segmentSize, e.arr page ≠ 0 →
        pageNodeOf st file (seg * st.segmentSize + page) = some (e.arr page)

/-- The changes `tree_resolve_page` makes. -/
inductive FileEdit (st : State) : State → Prop
  | cache (cache : List TcacheEntry) (next : Nat) (hcache : CacheOk st cache) :
      FileEdit st { st with tcache := cache, tcacheNext := next }
  | pad (file : VPtr) (f : FileNode) (contents : List FileContent)
      (hf : st.nodes file = some (.file f)) (hpages : segPages contents = segPages f.contents) :
      FileEdit st { st with
        nodes := Function.update st.nodes file (some (.file { f with contents := contents })) }
  | addPage (file : VPtr) (f : FileNode) (contents : List FileContent) (seg page : Nat)
      (hf : st.nodes file = some (.file f)) (hpage : page < st.segmentSize)
      (hnone : findPage st page (segPages f.contents seg) = none)
      (hpages : segPages contents = Function.update (segPages f.contents) seg
        (insertPage st page st.nextVp (segPages f.contents seg))) :
      FileEdit st (newPageNode st file f page contents)

theorem FileEdit.const (h : FileEdit st st') :
    st'.pageSize = st.pageSize ∧ st'.segmentSize = st.segmentSize ∧ st'.nextPage = st.nextPage ∧
      st'.data = st.data := by
  cases h <;> exact ⟨rfl, rfl, rfl, rfl⟩

theorem FileEdit.dirsKept (h : FileEdit st st') : DirsKept st st' := by
  cases h with
  | cache => exact .of_nodes_eq rfl rfl rfl rfl rfl rfl (Nat.le_refl _)
  | pad file f contents hf => exact .of_update hf rfl rfl rfl rfl rfl rfl (Nat.le_refl _)
  | addPage file f contents seg page hf =>
    exact .of_update hf rfl rfl rfl rfl rfl rfl (Nat.le_succ _)

end SphereVFS
