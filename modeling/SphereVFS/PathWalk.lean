import SphereVFS.Fuse
import Mathlib.Data.List.Infix

/-!
# SphereVFS.PathWalk

`resolve_full_path` as the number it returns, and what that number is: the node reached by opening
the components of the normalised path one after the other.

Normalisation is lexical: it knows the text of the path and nothing of the volume. The loop of the
source keeps the nodes it passed on a stack, so that two dots take it back to where it came from.
The invariant of the loop is that its stack is the trail of the names that normalisation has left
so far.
-/

namespace SphereVFS

/-! ## The loop -/

/-- The value of an error in `vfs_error_t`. -/
def errCode : Err → Int
  | .io => -1
  | .notFound => -2
  | .alreadyExists => -3
  | .isNotDir => -4
  | .notEmpty => -5
  | .conflict => -6
  | .full => -7
  | .noMem => -8
  | .epoch => -9
  | .nameTooLong => -10

/-- What `vfs_open` returns: a pointer, or the value of an error. -/
def vfsOpenRet (st : State) (parent : VPtr) (name : Name) (epoch : Int) : Int :=
  match vfsOpen st parent name epoch with
  | .ok vp => vp
  | .error e => errCode e

/-- The loop of `resolve_full_path` over the tokens that are left. The top of the stack comes first. -/
def resolveLoop (st : State) (epoch : Int) : List VPtr → List Name → Int
  | stack, [] => walkTop st stack
  | stack, token :: tokens =>
    if token = ascii "." then resolveLoop st epoch stack tokens
    else if token = ascii ".." then resolveLoop st epoch stack.tail tokens
    else if maxPathDepth ≤ stack.length then errCode .io
    else if vfsOpenRet st (walkTop st stack) token epoch ≤ 0 then 0
    else resolveLoop st epoch ((vfsOpenRet st (walkTop st stack) token epoch).toNat :: stack) tokens

/-- What `resolve_full_path` returns: a pointer, 0 for a component that is not found, or the value of an error. -/
def resolveFullPathRet (st : State) (epoch : Int) (path : Name) : Int :=
  if path = [] ∨ path = [slash] then st.root else resolveLoop st epoch [] (pathTokens path)

theorem resolveFullPathRet_eq (st : State) (epoch : Int) (path : Name) :
    resolveFullPathRet st epoch path = resolveLoop st epoch [] (pathTokens path) := by
  rw [resolveFullPathRet]
  split
  · rename_i h
    obtain rfl | rfl := h <;> rfl
  · rfl

/-- The number stands for the result: the pointer itself, or no pointer for an error. -/
def StandsForResult (ret : Int) : Except Err VPtr → Prop
  | .ok vp => ret = vp
  | .error _ => ret ≤ 0

theorem errCode_nonpos (e : Err) : errCode e ≤ 0 := by cases e <;> decide

/-- The walk of `resolveFullPath` is this loop, as long as no entry leads to the null pointer. -/
theorem resolveLoop_walk {st : State} {epoch : Int} (hnull : ∀ dir name, vfsOpen st dir name epoch ≠ .ok 0)
    (tokens : List Name) : ∀ stack : List VPtr,
    StandsForResult (resolveLoop st epoch stack tokens)
      ((tokens.foldlM (walkToken st epoch) stack).map (walkTop st)) := by
  induction tokens with
  | nil => exact fun _ => rfl
  | cons token tokens ih =>
    intro stack
    rw [List.foldlM_cons, walkToken, resolveLoop]
    split_ifs with hdot hdots hdepth hnone
    · exact ih stack
    · exact ih stack.tail
    · exact errCode_nonpos .io
    · cases hopen : vfsOpen st (walkTop st stack) token epoch with
      | error e => exact Int.le_refl 0
      | ok child =>
        have hne : child ≠ 0 := fun h => hnull _ _ (h ▸ hopen)
        simp only [vfsOpenRet, hopen] at hnone
        exact absurd (Int.natCast_pos.2 (Nat.pos_of_ne_zero hne)) (Int.not_lt.2 hnone)
    · rw [vfsOpenRet] at hnone ⊢
      cases hopen : vfsOpen st (walkTop st stack) token epoch with
      | error e => exact absurd (hopen ▸ errCode_nonpos e) hnone
      | ok child => exact ih (child :: stack)

theorem resolveFullPath_ret {st : State} {epoch : Int} (hnull : ∀ dir name, vfsOpen st dir name epoch ≠ .ok 0)
    (path : Name) : StandsForResult (resolveFullPathRet st epoch path) (resolveFullPath st epoch path) := by
  rw [resolveFullPath, resolveFullPathRet]
  split_ifs
  · rfl
  · exact resolveLoop_walk hnull (pathTokens path) []

/-! ## Normalisation -/

def components (path : Name) : List Name := path.splitOn slash

def Ordinary (t : Name) : Prop := t ≠ [] ∧ t ≠ ascii "." ∧ t ≠ ascii ".."

instance Ordinary.decidable (t : Name) : Decidable (Ordinary t) :=
  inferInstanceAs (Decidable (t ≠ [] ∧ t ≠ ascii "." ∧ t ≠ ascii ".."))

def normalStep (names : List Name) (t : Name) : List Name :=
  if t = [] ∨ t = ascii "." then names
  else if t = ascii ".." then names.dropLast
  else names ++ [t]

/-- The names that remain: empty components and dots go, two dots take the name before them along. -/
def normalize (comps : List Name) : List Name := comps.foldl normalStep []

/-- No prefix of the path names a node more than 256 levels below the root. -/
def ShallowPath (path : Name) : Prop :=
  ∀ comps ∈ (components path).inits, (normalize comps).length ≤ maxPathDepth

instance ShallowPath.decidable (path : Name) : Decidable (ShallowPath path) :=
  inferInstanceAs (Decidable (∀ comps ∈ (components path).inits, (normalize comps).length ≤ maxPathDepth))

theorem normalize_snoc (comps : List Name) (t : Name) :
    normalize (comps ++ [t]) = normalStep (normalize comps) t := by
  rw [normalize, List.foldl_append]
  rfl

/-- The node `vfs_open` gives for a name in a directory. -/
def openChild (st : State) (epoch : Int) (dir : VPtr) (name : Name) : Option VPtr :=
  if 0 < vfsOpenRet st dir name epoch then some (vfsOpenRet st dir name epoch).toNat else none

def openAll (st : State) (epoch : Int) (names : List Name) : Option VPtr :=
  names.foldlM (openChild st epoch) st.root

/-- Every ordinary component of `comps`, which come after `before`, is found in the directory reached so far. -/
def ResolvesAfter (st : State) (epoch : Int) (before comps : List Name) : Prop :=
  ∀ pre t post, comps = pre ++ t :: post → Ordinary t →
    ∃ dir ∈ openAll st epoch (normalize (before ++ pre)), openChild st epoch dir t ≠ none

def PathResolves (st : State) (epoch : Int) (path : Name) : Prop := ResolvesAfter st epoch [] (components path)

/-! ## The trail -/

/-- The stack holds the nodes passed on the way down `names`. -/
inductive Trail (st : State) (epoch : Int) : List Name → List VPtr → Prop
  | root : Trail st epoch [] []
  | enter {names : List Name} {stack : List VPtr} {name : Name} {child : VPtr} :
      Trail st epoch names stack → openChild st epoch (walkTop st stack) name = some child →
      Trail st epoch (names ++ [name]) (child :: stack)

section Trail

variable {st : State} {epoch : Int} {names before : List Name} {stack : List VPtr} {t : Name}

theorem Trail.length (h : Trail st epoch names stack) : stack.length = names.length := by
  induction h with
  | root => rfl
  | enter _ _ ih => rw [List.length_cons, ih, List.length_append, List.length_singleton]

theorem Trail.openAll (h : Trail st epoch names stack) :
    SphereVFS.openAll st epoch names = some (walkTop st stack) := by
  induction h with
  | root => rfl
  | enter _ hchild ih =>
    rw [SphereVFS.openAll] at ih ⊢
    rw [List.foldlM_append, ih]
    show openChild st epoch (walkTop st _) _ >>= pure = _
    rw [bind_pure]
    exact hchild

theorem Trail.pop (h : Trail st epoch names stack) : Trail st epoch names.dropLast stack.tail := by
  cases h with
  | root => exact .root
  | enter htrail _ =>
    rw [List.dropLast_concat]
    exact htrail

theorem resolvesAfter_cons {comps : List Name} : ResolvesAfter st epoch before (t :: comps) ↔
    (Ordinary t → ∃ dir ∈ openAll st epoch (normalize before), openChild st epoch dir t ≠ none) ∧
      ResolvesAfter st epoch (before ++ [t]) comps := by
  constructor
  · intro h
    refine ⟨fun ht => ?_, fun pre u post heq hu => ?_⟩
    · have := h [] t comps rfl ht
      rwa [List.append_nil] at this
    · have := h (t :: pre) u post (by rw [heq]; rfl) hu
      rwa [List.append_cons] at this
  · rintro ⟨hfirst, hrest⟩ pre u post heq hu
    cases pre with
    | nil =>
      cases heq
      rw [List.append_nil]
      exact hfirst hu
    | cons v pre =>
      obtain ⟨rfl, hcomps⟩ := List.cons.inj heq
      rw [List.append_cons]
      exact hrest pre u post hcomps hu

def Returns (st : State) (epoch : Int) (before comps : List Name) (ret : Int) : Prop :=
  (ResolvesAfter st epoch before comps →
    ∃ vp : VPtr, openAll st epoch (normalize (before ++ comps)) = some vp ∧ ret = vp) ∧
  (¬ ResolvesAfter st epoch before comps → ret = 0)

theorem Returns.cons {comps : List Name} {ret : Int}
    (hfirst : Ordinary t →
      ∃ dir ∈ openAll st epoch (normalize before), openChild st epoch dir t ≠ none)
    (h : Returns st epoch (before ++ [t]) comps ret) : Returns st epoch before (t :: comps) ret := by
  rw [Returns, resolvesAfter_cons, List.append_cons before t comps]
  exact ⟨fun hr => h.1 hr.2, fun hr => h.2 fun hrest => hr ⟨hfirst, hrest⟩⟩

/-- The loop, by induction on the components: the stack is the trail of what normalisation left. -/
theorem resolveLoop_returns (comps : List Name) : ∀ {before : List Name} {stack : List VPtr},
    Trail st epoch (normalize before) stack →
    (∀ pre ∈ comps.inits, (normalize (before ++ pre)).length ≤ maxPathDepth) →
    Returns st epoch before comps (resolveLoop st epoch stack (comps.filter (· ≠ []))) := by
  induction comps with
  | nil =>
    intro before stack htrail _
    refine ⟨fun _ => ⟨walkTop st stack, ?_, rfl⟩, fun hr => absurd ?_ hr⟩
    · rw [List.append_nil]
      exact htrail.openAll
    · intro pre t post heq
      simp at heq
  | cons t comps ih =>
    intro before stack htrail hdepth
    have hrest : ∀ pre ∈ comps.inits, (normalize (before ++ [t] ++ pre)).length ≤ maxPathDepth := by
      intro pre hpre
      rw [← List.append_cons]
      exact hdepth (t :: pre) (by simpa using hpre)
    have hnext := normalize_snoc before t
    by_cases hempty : t = []
    · rw [normalStep, if_pos (.inl hempty)] at hnext
      rw [List.filter_cons_of_neg (by simpa using hempty)]
      exact (ih (hnext ▸ htrail) hrest).cons fun ht => absurd hempty ht.1
    rw [List.filter_cons_of_pos (by simpa using hempty), resolveLoop]
    split_ifs with hdot hdots hfull hnone
    · rw [normalStep, if_pos (.inr hdot)] at hnext
      exact (ih (hnext ▸ htrail) hrest).cons fun ht => absurd hdot ht.2.1
    · rw [normalStep, if_neg (not_or.2 ⟨hempty, hdot⟩), if_pos hdots] at hnext
      exact (ih (hnext ▸ htrail.pop) hrest).cons fun ht => absurd hdots ht.2.2
    all_goals rw [normalStep, if_neg (not_or.2 ⟨hempty, hdot⟩), if_neg hdots] at hnext
    · -- one more name would be too deep
      have hlen := hdepth [t] ((List.mem_inits _ _).2 ⟨comps, rfl⟩)
      rw [hnext, List.length_append, List.length_singleton, ← htrail.length] at hlen
      omega
    · -- the name is not there
      refine ⟨fun hr => ?_, fun _ => rfl⟩
      obtain ⟨dir, hdir, hchild⟩ := (resolvesAfter_cons.1 hr).1 ⟨hempty, hdot, hdots⟩
      rw [htrail.openAll] at hdir
      cases hdir
      exact absurd (if_neg (Int.not_lt.2 hnone)) hchild
    · have hchild : openChild st epoch (walkTop st stack) t =
          some (vfsOpenRet st (walkTop st stack) t epoch).toNat := if_pos (Int.not_le.1 hnone)
      refine (ih (hnext ▸ htrail.enter hchild) hrest).cons fun _ => ⟨_, htrail.openAll, ?_⟩
      rw [hchild]
      exact Option.some_ne_none _

/-- Whether all components are found can be computed, by recursion on them. -/
instance ResolvesAfter.decidable (st : State) (epoch : Int) : ∀ before comps : List Name,
    Decidable (ResolvesAfter st epoch before comps)
  | _, [] => .isTrue fun _ _ _ heq => by simp at heq
  | before, t :: comps =>
    have := ResolvesAfter.decidable st epoch (before ++ [t]) comps
    decidable_of_iff _ resolvesAfter_cons.symm

end Trail

/-! ## The result -/

/-- `resolve_full_path` normalises and opens. If a component is not found it returns 0, also where two dots
would have taken the component away again. -/
theorem resolve_full_path_normalizes (st : State) (epoch : Int) (path : Name) (hdepth : ShallowPath path) :
    (PathResolves st epoch path → ∃ vp : VPtr, openAll st epoch (normalize (components path)) = some vp ∧
      resolveFullPathRet st epoch path = vp) ∧
    (¬ PathResolves st epoch path → resolveFullPathRet st epoch path = 0) := by
  rw [resolveFullPathRet_eq]
  exact resolveLoop_returns (components path) .root hdepth

/-- A new volume with the directories `/a` and `/a/b`. -/
def twoDirs : State :=
  (vfsMkdir (vfsMkdir (bootstrap 8192 1024) 1 (ascii "a") 0).2 2 (ascii "b") 0).2

/-- One path to `/a/b`, and one that goes through a directory that is not there. -/
theorem resolve_full_path_normalizes_two_dirs :
    (∃ vp : VPtr, openAll twoDirs 0 (normalize (components (ascii "/../a/./b//../b/"))) = some vp ∧
      resolveFullPathRet twoDirs 0 (ascii "/../a/./b//../b/") = vp) ∧
    resolveFullPathRet twoDirs 0 (ascii "/x/../a") = 0 :=
  ⟨(resolve_full_path_normalizes twoDirs 0 _ (by decide +kernel)).1
      (show ResolvesAfter twoDirs 0 [] _ by decide +kernel),
    (resolve_full_path_normalizes twoDirs 0 _ (by decide +kernel)).2
      (show ¬ ResolvesAfter twoDirs 0 [] _ by decide +kernel)⟩

end SphereVFS
