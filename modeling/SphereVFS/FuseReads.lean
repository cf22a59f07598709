import SphereVFS.Fuse
import SphereVFS.AddEffect
import SphereVFS.WriteRead
import SphereVFS.Resolvable

/-!
# SphereVFS.FuseReads

Reading one's own writes through a FUSE mount. A callback is an operation of the volume at its
current epoch, so every run of a mount is a run of the volume, with its invariant. What was created
or written is there again at the next look exactly where the mount looks: at its own epoch. That
epoch is the one that was written as long as no `snapshot` command has moved the other.
-/

namespace SphereVFS

variable {st st' : State} {m m' : FuseVfsState} {path name : Name} {epoch : Int}

/-! ## Lookups after a create -/

structure Created (st : State) (parent : VPtr) (name : Name) (epoch : Int) (vp : VPtr) (st' : State) :
    Prop where
  root : st'.root = st.root
  keep : ∀ dir n child, vfsOpen st dir n epoch = .ok child → vfsOpen st' dir n epoch = .ok child
  found : vfsOpen st' parent name epoch = .ok vp
  node : ∃ id, st'.nodes vp = some (.file ⟨id, [], []⟩)

theorem vfsCreate_created (hwf : Wf st) (he : Writable st epoch) {parent vp : VPtr}
    (h : vfsCreate st parent name epoch = (.ok vp, st')) :
    name ≠ [] ∧ vp = st.nextVp ∧ Created st parent name epoch vp st' := by
  obtain ⟨e, hcall⟩ | ⟨d, e, hne, -, hd, hnone, hcall⟩ := vfsCreate_call st parent name epoch
  all_goals cases hcall.symm.trans h
  refine ⟨hne, rfl, rfl, fun dir n child hchild => addNode_open_other hwf he hd hchild ?_,
    (addNode_added hwf he hd (.file _) hne).opens, freshNodeId st, ?_⟩
  · rintro rfl rfl
    obtain ⟨childId, hfind⟩ := vfsOpen_ok hchild
    simp [hfind] at hnone
  · have hpar : st.nextVp ≠ parent := by
      rintro rfl
      simp [hwf.dir.node_fresh st.nextVp (by lia)] at hd
    simp [addNode, insertEntry, hpar]

/-! ## Paths -/

def pathDepth (path : Name) : Nat :=
  (pathTokens path).foldl
    (fun depth token => if token = ascii "." then depth else if token = ascii ".." then depth - 1
      else depth + 1) 0

/-- A path that names an entry in a directory: its last component is a name, and it is not deeper
than the walk goes. -/
structure NamesEntry (path dirPart name : Name) : Prop where
  split : path = dirPart ++ slash :: name
  last : slash ∉ name
  dot : name ≠ ascii "."
  dots : name ≠ ascii ".."
  depth : pathDepth dirPart < maxPathDepth

theorem NamesEntry.rdropWhile {dirPart : Name} (h : NamesEntry path dirPart name) :
    path.rdropWhile (· != slash) = dirPart ++ [slash] := by
  have hall : ∀ b ∈ name.reverse, (b != slash) = true := by
    intro b hb
    rw [List.mem_reverse] at hb
    simp only [bne_iff_ne]
    rintro rfl
    exact h.last hb
  rw [List.rdropWhile, h.split, List.reverse_append, List.reverse_cons, List.append_assoc,
    List.dropWhile_append_of_pos hall]
  simp

theorem NamesEntry.rtakeWhile {dirPart : Name} (h : NamesEntry path dirPart name) :
    path.rtakeWhile (· != slash) = name := by
  have happ : path.rdropWhile (· != slash) ++ path.rtakeWhile (· != slash) = path :=
    List.rdropWhile_append_rtakeWhile
  rw [h.rdropWhile, List.append_assoc] at happ
  simpa using happ.trans h.split

theorem NamesEntry.tokens {dirPart : Name} (h : NamesEntry path dirPart name) (hne : name ≠ []) :
    pathTokens path = pathTokens dirPart ++ [name] := by
  have hlast : name.splitOn slash = [name] := by
    apply List.splitOnP_eq_singleton
    intro b hb
    simp only [beq_eq_false_iff_ne]
    rintro rfl
    exact h.last hb
  rw [pathTokens, pathTokens, h.split]
  have happ : (dirPart ++ slash :: name).splitOn slash = dirPart.splitOn slash ++ name.splitOn slash :=
    List.splitOnP_append_cons dirPart name (beq_self_eq_true slash)
  rw [happ, hlast, List.filter_append]
  simp [hne]

theorem resolveFullPath_eq (st : State) (epoch : Int) (path : Name) :
    resolveFullPath st epoch path =
      ((pathTokens path).foldlM (walkToken st epoch) []).map (walkTop st) := by
  rw [resolveFullPath]
  split
  · rename_i h
    obtain rfl | rfl := h <;> rfl
  · rfl

theorem walkToken_cases {stack stack' : List VPtr} {token : Name}
    (h : walkToken st epoch stack token = .ok stack') :
    token = ascii "." ∧ stack' = stack ∨
    token ≠ ascii "." ∧ token = ascii ".." ∧ stack' = stack.tail ∨
    token ≠ ascii "." ∧ token ≠ ascii ".." ∧ stack.length < maxPathDepth ∧
      ∃ child, vfsOpen st (walkTop st stack) token epoch = .ok child ∧ stack' = child :: stack := by
  rw [walkToken] at h
  split at h
  · rename_i hdot
    cases h
    exact .inl ⟨hdot, rfl⟩
  rename_i hdot
  split at h
  · rename_i hdots
    cases h
    exact .inr (.inl ⟨hdot, hdots, rfl⟩)
  rename_i hdots
  split at h
  · cases h
  rename_i hdepth
  cases hopen : vfsOpen st (walkTop st stack) token epoch with
  | error e =>
    rw [hopen] at h
    cases h
  | ok child =>
    rw [hopen] at h
    cases h
    exact .inr (.inr ⟨hdot, hdots, Nat.lt_of_not_le hdepth, child, rfl, rfl⟩)

theorem foldlM_cons_ok {α β ε : Type} {f : β → α → Except ε β} {a : α} {l : List α} {b b' : β}
    (h : (a :: l).foldlM f b = .ok b') : ∃ b₁, f b a = .ok b₁ ∧ l.foldlM f b₁ = .ok b' := by
  rw [List.foldlM_cons] at h
  cases hf : f b a with
  | error e =>
    rw [hf] at h
    cases h
  | ok b₁ =>
    rw [hf] at h
    exact ⟨b₁, rfl, h⟩

theorem walk_length {tokens : List Name} {stack stack' : List VPtr}
    (h : tokens.foldlM (walkToken st epoch) stack = .ok stack') :
    stack'.length = tokens.foldl
      (fun depth token => if token = ascii "." then depth else if token = ascii ".." then depth - 1
        else depth + 1) stack.length := by
  induction tokens generalizing stack with
  | nil =>
    cases h
    rfl
  | cons token tokens ih =>
    obtain ⟨stack₁, hstep, h⟩ := foldlM_cons_ok h
    rw [ih h, List.foldl_cons]
    congr 1
    obtain ⟨hdot, rfl⟩ | ⟨hdot, hdots, rfl⟩ | ⟨hdot, hdots, -, child, -, rfl⟩ := walkToken_cases hstep
    · rw [if_pos hdot]
    · rw [if_neg hdot, if_pos hdots, List.length_tail]
    · rw [if_neg hdot, if_neg hdots, List.length_cons]

theorem walk_keep (hroot : st'.root = st.root)
    (hopen : ∀ dir n child, vfsOpen st dir n epoch = .ok child → vfsOpen st' dir n epoch = .ok child)
    {tokens : List Name} {stack stack' : List VPtr}
    (h : tokens.foldlM (walkToken st epoch) stack = .ok stack') :
    tokens.foldlM (walkToken st' epoch) stack = .ok stack' := by
  induction tokens generalizing stack with
  | nil => exact h
  | cons token tokens ih =>
    obtain ⟨stack₁, hstep, h⟩ := foldlM_cons_ok h
    have hstep' : walkToken st' epoch stack token = .ok stack₁ := by
      obtain ⟨hdot, rfl⟩ | ⟨hdot, hdots, rfl⟩ | ⟨hdot, hdots, hdepth, child, hchild, rfl⟩ :=
        walkToken_cases hstep
      · rw [walkToken, if_pos hdot]
      · rw [walkToken, if_neg hdot, if_pos hdots]
      · have hchild' := hopen _ _ _ hchild
        rw [walkTop, ← hroot] at hchild'
        rw [walkToken, if_neg hdot, if_neg hdots, if_neg (Nat.not_le_of_lt hdepth), walkTop, hchild']
        rfl
    rw [List.foldlM_cons, hstep']
    exact ih h

theorem resolve_keep (hroot : st'.root = st.root)
    (hopen : ∀ dir n child, vfsOpen st dir n epoch = .ok child → vfsOpen st' dir n epoch = .ok child)
    {vp : VPtr} (h : resolveFullPath st epoch path = .ok vp) : resolveFullPath st' epoch path = .ok vp := by
  rw [resolveFullPath_eq] at h ⊢
  cases hwalk : (pathTokens path).foldlM (walkToken st epoch) [] with
  | error e =>
    rw [hwalk] at h
    cases h
  | ok stack =>
    rw [hwalk] at h
    cases h
    rw [walk_keep hroot hopen hwalk]
    simp only [Except.map, walkTop, hroot]

theorem NamesEntry.parent {dirPart n : Name} {parent : VPtr} (h : NamesEntry path dirPart name)
    (hp : parentAndName m path = (.ok parent, n)) :
    n = name ∧ resolveFullPath m.vfs m.epoch dirPart = .ok parent := by
  rw [parentAndName, h.rdropWhile, List.dropLast_concat, h.rtakeWhile] at hp
  split at hp
  · rename_i hnil
    cases hp
    rw [h.split, hnil]
    exact ⟨rfl, rfl⟩
  · obtain ⟨hres, rfl⟩ := Prod.mk.inj hp
    exact ⟨rfl, hres⟩

theorem NamesEntry.resolve {dirPart : Name} {parent vp : VPtr} (h : NamesEntry path dirPart name)
    (hne : name ≠ []) (hparent : resolveFullPath st epoch dirPart = .ok parent)
    (hopen : vfsOpen st parent name epoch = .ok vp) : resolveFullPath st epoch path = .ok vp := by
  rw [resolveFullPath_eq] at hparent ⊢
  cases hwalk : (pathTokens dirPart).foldlM (walkToken st epoch) [] with
  | error e =>
    rw [hwalk] at hparent
    cases hparent
  | ok stack =>
    rw [hwalk] at hparent
    obtain rfl : walkTop st stack = parent := Except.ok.inj hparent
    have hdepth : stack.length < maxPathDepth := by
      rw [walk_length hwalk]
      exact h.depth
    have hlast : walkToken st epoch stack name = .ok (vp :: stack) := by
      rw [walkToken, if_neg h.dot, if_neg h.dots, if_neg (Nat.not_le_of_lt hdepth), hopen]
      rfl
    rw [h.tokens hne, List.foldlM_append, hwalk]
    show ((List.foldlM (walkToken st epoch) stack [name]).map (walkTop st)) = _
    rw [List.foldlM_cons, hlast]
    rfl

/-! ## What is seen -/

/-- After a create: the path shows an empty file, which the new handle reads. -/
structure CreateSeen (m' : FuseVfsState) (path : Name) (fh : Nat) : Prop where
  attr : fuseVfsGetattr m' path = .ok ⟨false, 0⟩
  handle : ∀ forWriting, fuseVfsOpen m' path forWriting = .ok fh
  read : ∀ size offset, 0 < size → (fuseVfsRead m' path size offset fh).1 = .ok []

/-- After a write: the path shows the larger of the two sizes, and the handle reads the data in the
range of the write and what the head had before it elsewhere. -/
structure WriteSeen (m m' : FuseVfsState) (path : Name) (buf : List UInt8) (offset fh : Nat) : Prop where
  attr : fuseVfsGetattr m' path = .ok ⟨false, max (vfsFileSize m.vfs fh m.vfs.currentEpoch)
    ((offset + buf.length : Nat) : Int)⟩
  handle : ∀ forWriting, fuseVfsOpen m' path forWriting = .ok fh
  range : (fuseVfsRead m' path buf.length offset fh).1 = .ok buf
  rest : ∀ i : Nat, (i : Int) < vfsFileSize m.vfs fh m.vfs.currentEpoch →
    i < offset ∨ offset + buf.length ≤ i →
    (fuseVfsRead m' path 1 i fh).1 =
      (vfsRead m.vfs fh i 1 m.vfs.currentEpoch).1.mapError vfsErrorToErrno

/-- Reading one's own writes: a create or write that succeeds is seen right after it. A write is on
a path if the path leads to the file of its handle at the head. -/
def ReadsOwnWrite (vfsGc : State → Except Err Unit × State) (m : FuseVfsState) : Callback → Prop
  | .create path => ∀ fh m', fuseVfsCreate m path = (.ok fh, m') → CreateSeen m' path fh
  | .write path buf offset fh => ∀ n m', isCtl path fh = false →
    resolveFullPath m.vfs m.vfs.currentEpoch path = .ok fh →
    fuseVfsWrite vfsGc m path buf offset fh = (.ok n, m') → WriteSeen m m' path buf offset fh
  | _ => True

def RefusedOrIssued (st : State) (epoch : Int) : Prop :=
  0 < epoch → epoch % 2 = 1 → epoch < st.currentEpoch

/-- A command of the control file other than `gc`, with epochs as `ValidOp` has them. -/
structure CommandOk (m : FuseVfsState) (cmd : List UInt8) : Prop where
  notGc : cmd ≠ ascii "gc"
  snapshot : cmd = ascii "snapshot" → m.vfs.currentEpoch + 2 < 2 ^ 31
  commit : (ascii "commit ").isPrefixOf cmd = true → RefusedOrIssued m.vfs (atoll (cmd.drop 7))
  delete : (ascii "delete-snapshot ").isPrefixOf cmd = true →
    RefusedOrIssued m.vfs (atoll (cmd.drop 16))

/-- What is asked of a callback. Creates and writes come while the mount looks at the epoch that is
written; a create has a path that the walk can take; a write keeps its pages. -/
def CallbackOk (m : FuseVfsState) : Callback → Prop
  | .create path => m.epoch = m.vfs.currentEpoch ∧ m.vfs.nextVp < 2 ^ 63 ∧ path ≠ vfsCtlPath ∧
    ∃ dirPart name, NamesEntry path dirPart name
  | .truncate _ size _ => size.toNat ≤ maxSize m.vfs
  | .write path buf offset fh =>
    if isCtl path fh then CommandOk m (ctlLine buf)
    else m.epoch = m.vfs.currentEpoch ∧ offset + buf.length ≤ maxSize m.vfs ∧
      ∀ lp, offset / m.vfs.pageSize ≤ lp → lp ≤ (offset + buf.length - 1) / m.vfs.pageSize →
        KeepsPage m.vfs fh buf offset m.vfs.currentEpoch lp
  | _ => True

/-! ## One callback -/

theorem atParent_ok {α : Type} {op : State → VPtr → Name → Int → Except Err α × State} {r : α}
    (h : atParent op m path = (.ok r, m')) :
    m.readonly = false ∧ ∃ parent name st', parentAndName m path = (.ok parent, name) ∧
      op m.vfs parent name m.vfs.currentEpoch = (.ok r, st') ∧ m' = { m with vfs := st' } := by
  rw [atParent] at h
  split at h
  · cases h
  rename_i hro
  split at h
  · cases h
  · rename_i parent name hparent
    cases hop : op m.vfs parent name m.vfs.currentEpoch with
    | mk result st' =>
      rw [hop] at h
      cases result with
      | error e => cases h
      | ok r' =>
        cases h
        exact ⟨by simpa using hro, parent, name, st', hparent, hop, rfl⟩

theorem attr_of_resolve {vp : VPtr} (hres : resolveFullPath m.vfs m.epoch path = .ok vp)
    (hdir : isDir m.vfs vp = false) (hpath : ¬(path = [] ∨ path = [slash])) (hctl : path ≠ vfsCtlPath) :
    fuseVfsGetattr m path = .ok ⟨false, vfsFileSize m.vfs vp m.epoch⟩ := by
  simp [fuseVfsGetattr, hpath, hctl, hres, hdir]

theorem open_of_resolve {vp : VPtr} (hres : resolveFullPath m.vfs m.epoch path = .ok vp)
    (hdir : isDir m.vfs vp = false) (hctl : path ≠ vfsCtlPath) (hro : m.readonly = false)
    (forWriting : Bool) : fuseVfsOpen m path forWriting = .ok vp := by
  simp [fuseVfsOpen, hctl, hres, hdir, hro]

theorem NamesEntry.not_root {dirPart : Name} (h : NamesEntry path dirPart name) (hne : name ≠ []) :
    ¬(path = [] ∨ path = [slash]) := by
  rw [h.split]
  rintro (h | h)
  · simp at h
  · rw [List.append_eq_singleton_iff] at h
    simp [hne] at h

theorem create_seen (hwf : Wf m.vfs) (hok : CallbackOk m (.create path)) {fh : Nat}
    (h : fuseVfsCreate m path = (.ok fh, m')) : CreateSeen m' path fh := by
  obtain ⟨hhead, hvp, hctl, dirPart, name, hentry⟩ := hok
  obtain ⟨hro, parent, name', st', hparent, hcreate, rfl⟩ := atParent_ok h
  obtain ⟨rfl, hdirPart⟩ := hentry.parent hparent
  rw [← hhead] at hcreate
  obtain ⟨hne, rfl, hcreated⟩ := vfsCreate_created hwf (.inl hhead) hcreate
  have hres : resolveFullPath st' m.epoch path = .ok m.vfs.nextVp :=
    hentry.resolve hne (resolve_keep hcreated.root hcreated.keep hdirPart) hcreated.found
  obtain ⟨id, hnode⟩ := hcreated.node
  have hdir : isDir st' m.vfs.nextVp = false := by simp [isDir, hnode]
  have hsize : vfsFileSize st' m.vfs.nextVp m.epoch = 0 := by
    simp [vfsFileSize, hnode, sizechainGet, chainWalk]
  refine ⟨?_, open_of_resolve hres hdir hctl hro, ?_⟩
  · rw [attr_of_resolve hres hdir (hentry.not_root hne) hctl]
    dsimp only
    rw [hsize]
  · intro size offset hpos
    have hfh : m.vfs.nextVp ≠ ctlFhSentinel := by
      have : (2 : Nat) ^ 63 < ctlFhSentinel := by decide
      lia
    have hread : (vfsRead st' m.vfs.nextVp offset size m.epoch).1 = .ok [] := by
      rw [vfsRead, if_neg (by omega), hsize, if_pos (by omega)]
    simp only [fuseVfsRead, isCtl, beq_eq_false_iff_ne.2 hctl, beq_eq_false_iff_ne.2 hfh, Bool.or_self,
      Bool.false_eq_true, if_false, hread]
    rfl

theorem vfsWrite_ok_file {file : VPtr} {data : List UInt8} {offset : Int} {n : Nat}
    (h : vfsWrite st file data offset epoch = (.ok n, st')) :
    data ≠ [] ∧ ∃ f, st.nodes file = some (.file f) := by
  rw [vfsWrite] at h
  split at h
  · cases h
  rename_i hargs
  split at h
  · cases h
  split at h
  · rename_i f hf
    exact ⟨fun hnil => hargs (.inl hnil), f, hf⟩
  · cases h

theorem fuseVfsWrite_ok {vfsGc : State → Except Err Unit × State} {buf : List UInt8}
    {offset fh n : Nat} (hctl : isCtl path fh = false)
    (h : fuseVfsWrite vfsGc m path buf offset fh = (.ok n, m')) :
    m.readonly = false ∧ ∃ st', vfsWrite m.vfs fh buf offset m.vfs.currentEpoch = (.ok n, st') ∧
      m' = { m with vfs := st' } := by
  rw [fuseVfsWrite] at h
  split at h
  · cases h
  rename_i hro
  rw [hctl, if_neg Bool.false_ne_true] at h
  rcases hw : vfsWrite m.vfs fh buf offset m.vfs.currentEpoch with ⟨result, st'⟩
  rw [hw] at h
  cases result with
  | error e => cases h
  | ok n' =>
    cases h
    exact ⟨by simpa using hro, st', rfl, rfl⟩

theorem write_seen {vfsGc : State → Except Err Unit × State} (hwf : Wf m.vfs)
    (hroot : isDir m.vfs m.vfs.root = true) {buf : List UInt8} {offset fh n : Nat}
    (hctl : isCtl path fh = false) (hok : CallbackOk m (.write path buf offset fh))
    (hpath : resolveFullPath m.vfs m.vfs.currentEpoch path = .ok fh)
    (h : fuseVfsWrite vfsGc m path buf offset fh = (.ok n, m')) : WriteSeen m m' path buf offset fh := by
  simp only [CallbackOk, hctl, Bool.false_eq_true, if_false] at hok
  obtain ⟨hhead, hrange, hkeep⟩ := hok
  obtain ⟨hro, st', hwrite, rfl⟩ := fuseVfsWrite_ok hctl h
  obtain ⟨hne, f, hf⟩ := vfsWrite_ok_file hwrite
  obtain ⟨hctlPath, hctlFh⟩ : path ≠ vfsCtlPath ∧ fh ≠ ctlFhSentinel := by simpa [isCtl] using hctl
  obtain ⟨st₁, hwrite', hiff⟩ := vfsWrite_readsBack_iff hwf (.inl rfl) hf hne hrange
  obtain rfl : st₁ = st' := by
    rw [hwrite] at hwrite'
    exact (Prod.mk.inj hwrite').2.symm
  have hback := hiff.2 hkeep
  -- no directory changes, so the path leads where it led
  have hkept : DirsKept m.vfs st₁ := by
    have := vfsWrite_dirsKept m.vfs fh buf offset m.vfs.currentEpoch
    rwa [hwrite] at this
  have hres : resolveFullPath st₁ m.epoch path = .ok fh := by
    rw [hhead]
    exact resolve_keep hkept.root (fun dir n child hc => (hkept.lookup dir n _).trans hc) hpath
  obtain ⟨f', hf'⟩ := hkept.files fh f hf
  have hdir : isDir st₁ fh = false := by simp [isDir, hf']
  have hnotRoot : ¬(path = [] ∨ path = [slash]) := by
    intro hp
    rw [resolveFullPath, if_pos hp] at hpath
    rw [Except.ok.inj hpath, isDir, hf] at hroot
    cases hroot
  have hread : ∀ size off : Nat, (fuseVfsRead { m with vfs := st₁ } path size off fh).1 =
      (vfsRead st₁ fh off size m.vfs.currentEpoch).1.mapError vfsErrorToErrno := by
    intro size off
    simp only [fuseVfsRead, hctl, Bool.false_eq_true, if_false, hhead]
  refine ⟨?_, open_of_resolve hres hdir hctlPath hro, ?_, ?_⟩
  · rw [attr_of_resolve hres hdir hnotRoot hctlPath]
    dsimp only
    rw [hhead, hback.size]
  · rw [hread, hback.range]
    rfl
  · intro i hi hout
    rw [hread]
    exact congrArg (Except.mapError vfsErrorToErrno) (hback.rest i hi hout)

/-! ## Runs -/

def IsStep (st st' : State) : Prop := st' = st ∨ ∃ op, ValidOp st op ∧ st' = step st op

theorem IsStep.wf (h : IsStep st st') (hwf : Wf st) (hroot : isDir st st.root = true) :
    Wf st' ∧ isDir st' st'.root = true := by
  obtain rfl | ⟨op, hop, rfl⟩ := h
  · exact ⟨hwf, hroot⟩
  · exact ⟨step_wf hwf hop, (step_outcome hwf hop).root hwf hroot⟩

theorem atParent_isStep {α : Type} {op : State → VPtr → Name → Int → Except Err α × State}
    (hop : ∀ parent name, IsStep m.vfs (op m.vfs parent name m.vfs.currentEpoch).2) (path : Name) :
    IsStep m.vfs (atParent op m path).2.vfs := by
  rw [atParent]
  split
  · exact .inl rfl
  split
  · exact .inl rfl
  · rename_i parent name _
    exact hop parent name

theorem rename_isStep (m : FuseVfsState) (src dst : Name) :
    IsStep m.vfs (fuseVfsRename m src dst).2.vfs := by
  rw [fuseVfsRename]
  split
  · exact .inl rfl
  split
  · rename_i srcParent srcName dstParent dstName _ _
    exact .inr ⟨.rename srcParent srcName dstParent dstName m.vfs.currentEpoch, .inl rfl, rfl⟩
  · exact .inl rfl

theorem truncate_isStep {size : Int} (hsize : size.toNat ≤ maxSize m.vfs) (path : Name) (fh : Nat) :
    IsStep m.vfs (fuseVfsTruncate m path size fh).2.vfs := by
  rw [fuseVfsTruncate]
  split
  · exact .inl rfl
  dsimp only
  split
  · exact .inl rfl
  · rename_i vp _
    exact .inr ⟨.truncate vp size m.vfs.currentEpoch, ⟨.inl rfl, hsize⟩, rfl⟩

theorem read_isStep (m : FuseVfsState) (path : Name) (size offset fh : Nat) :
    IsStep m.vfs (fuseVfsRead m path size offset fh).2.vfs := by
  rw [fuseVfsRead]
  split
  · exact .inl rfl
  · exact .inr ⟨.read fh offset size m.epoch, trivial, rfl⟩

theorem commit_isStep {e : Int} (hpos : 0 < e) (h : RefusedOrIssued st e) :
    IsStep st (vfsCommit st e).2 := by
  by_cases hodd : e % 2 = 1
  · exact .inr ⟨.commit e, ⟨hodd, hpos, h hpos hodd⟩, rfl⟩
  · left
    rw [vfsCommit, if_pos (by rw [Int.tmod_eq_emod_of_nonneg (by omega)]; omega)]

theorem delete_isStep {e : Int} (hpos : 0 < e) (h : RefusedOrIssued st e) :
    IsStep st (vfsDeleteSnapshot st e).2 := by
  by_cases hodd : e % 2 = 1
  · exact .inr ⟨.deleteSnapshot e, ⟨hodd, hpos, h hpos hodd⟩, rfl⟩
  · left
    rw [vfsDeleteSnapshot, if_pos (by rw [Int.tmod_eq_emod_of_nonneg (by omega)]; omega)]

section Step

variable (vfsGc : State → Except Err Unit × State)

theorem ctlDispatch_isStep {cmd : List UInt8} (h : CommandOk m cmd) :
    IsStep m.vfs (ctlDispatch vfsGc m cmd).vfs := by
  rw [ctlDispatch]
  split
  · rename_i hcmd
    exact .inr ⟨.snapshot, h.snapshot hcmd, rfl⟩
  split
  · rename_i hcmd
    dsimp only
    split
    · exact .inl rfl
    · exact commit_isStep (by omega) (h.commit hcmd)
  split
  · rename_i hcmd
    dsimp only
    split
    · exact .inl rfl
    · exact delete_isStep (by omega) (h.delete hcmd)
  split
  · rename_i hcmd
    exact absurd hcmd h.notGc
  · exact .inl rfl

theorem fuseStep_isStep {c : Callback} (h : CallbackOk m c) : IsStep m.vfs (fuseStep vfsGc m c).vfs := by
  cases c with
  | create path =>
    exact atParent_isStep (fun parent name => .inr ⟨.create parent name _, .inl rfl, rfl⟩) path
  | mkdir path =>
    exact atParent_isStep (fun parent name => .inr ⟨.mkdir parent name _, .inl rfl, rfl⟩) path
  | unlink path =>
    exact atParent_isStep (fun parent name => .inr ⟨.delete parent name _, .inl rfl, rfl⟩) path
  | rmdir path =>
    exact atParent_isStep (fun parent name => .inr ⟨.rmdir parent name _, .inl rfl, rfl⟩) path
  | rename src dst => exact rename_isStep m src dst
  | truncate path size fh => exact truncate_isStep h path fh
  | read path size offset fh => exact read_isStep m path size offset fh
  | write path buf offset fh =>
    rw [CallbackOk] at h
    rw [fuseStep, fuseVfsWrite]
    split
    · exact .inl rfl
    by_cases hctl : isCtl path fh = true
    · rw [if_pos hctl] at h ⊢
      rw [fuseVfsCtlWrite]
      split
      · exact .inl rfl
      · exact ctlDispatch_isStep vfsGc h
    · rw [if_neg hctl] at h ⊢
      exact .inr ⟨.write fh buf offset m.vfs.currentEpoch, ⟨.inl rfl, h.2.1⟩, rfl⟩

theorem fuseStep_seen {c : Callback} (hwf : Wf m.vfs) (hroot : isDir m.vfs m.vfs.root = true)
    (h : CallbackOk m c) : ReadsOwnWrite vfsGc m c := by
  cases c with
  | create path => exact fun fh m' hcall => create_seen hwf h hcall
  | write path buf offset fh => exact fun n m' hctl hpath hcall => write_seen hwf hroot hctl h hpath hcall
  | mkdir | unlink | rmdir | rename | truncate | read => trivial

theorem fuseRun_seen {cs : List Callback} (hwf : Wf m.vfs) (hroot : isDir m.vfs m.vfs.root = true)
    (h : Run.AllSteps (fuseStep vfsGc) CallbackOk m cs) :
    Run.AllSteps (fuseStep vfsGc) (ReadsOwnWrite vfsGc) m cs := by
  induction cs generalizing m with
  | nil => trivial
  | cons c cs ih =>
    obtain ⟨hwf', hroot'⟩ := (fuseStep_isStep vfsGc h.1).wf hwf hroot
    exact ⟨fuseStep_seen vfsGc hwf hroot h.1, ih hwf' hroot' h.2⟩

end Step

theorem remount_wf (hwf : Wf st) : Wf (remount st) where
  epoch := ⟨hwf.epoch.head_even, hwf.epoch.head_nonneg, hwf.epoch.head_lt,
    fun r hr => hwf.epoch.rows r ((hwf.epoch.chain r).1 hr), fun _ => Iff.rfl⟩
  dir := ⟨hwf.dir.node_fresh, hwf.dir.slot_fresh, hwf.dir.slot_some, hwf.dir.slot_nodup,
    hwf.dir.slot_dir, hwf.dir.index, hwf.dir.entry_epoch, hwf.dir.entry_child⟩
  file := hwf.file.of_cache rfl rfl rfl rfl rfl (Nat.le_refl _) (Int.le_refl _) fun _ e he hpop => by
    -- no slot of the new cache is in use
    rw [List.eq_of_mem_replicate he] at hpop
    cases hpop

/-- **FUSE read-your-writes.** A volume reached by valid operations is mounted read-write at its
head, and callbacks are made on it one at a time. As long as each create and write comes while the
mount's epoch is the head, on a path the walk can take and on pages the write keeps, every create
and every write that succeeds is seen right after it, in the attributes and through a handle. -/
theorem fuse_reads_own_writes {pageSize segmentSize : Nat} (hp : 0 < pageSize) (hs : 0 < segmentSize)
    (ops : List Op) (hops : Run.AllSteps step ValidOp (bootstrap pageSize segmentSize) ops)
    (vfsGc : State → Except Err Unit × State) (cs : List Callback)
    (hcs : Run.AllSteps (fuseStep vfsGc) CallbackOk
      (fuseVfsInit (run (bootstrap pageSize segmentSize) ops)
        ⟨(run (bootstrap pageSize segmentSize) ops).currentEpoch, false⟩) cs) :
    Run.AllSteps (fuseStep vfsGc) (ReadsOwnWrite vfsGc)
      (fuseVfsInit (run (bootstrap pageSize segmentSize) ops)
        ⟨(run (bootstrap pageSize segmentSize) ops).currentEpoch, false⟩) cs := by
  obtain ⟨hwf, hroot⟩ := reachable_root hp hs hops
  exact fuseRun_seen vfsGc (remount_wf hwf) hroot hcs

theorem keepsPage_empty {file : VPtr} {data : List UInt8} {offset lp : Nat}
    (hnone : inPlaceVersion epoch (pageVersions st file lp) = none)
    (hfound : foundInCache st file (offset / st.pageSize) lp = false)
    (hsize : vfsFileSize st file epoch = 0) : KeepsPage st file data offset epoch lp := by
  rw [KeepsPage, hnone]
  dsimp only
  rw [hfound, if_neg Bool.false_ne_true]
  intro i _ hlt _
  rw [hsize] at hlt
  omega

theorem fuse_reads_own_writes_new_file :
    let vfsGc : State → Except Err Unit × State := fun st => (.ok (), st)
    let m := fuseVfsInit (bootstrap 8192 1024) ⟨0, false⟩
    let cs : List Callback := [.create (ascii "/a"), .write (ascii "/a") [1, 2] 0 2]
    Run.AllSteps (fuseStep vfsGc) (ReadsOwnWrite vfsGc) m cs := by
  refine fuse_reads_own_writes (by decide) (by decide) [] trivial _ _ ⟨?_, ?_, trivial⟩
  · exact ⟨rfl, by decide +kernel, by decide +kernel, [], [97],
      ⟨by decide +kernel, by decide, by decide +kernel, by decide +kernel, by decide +kernel⟩⟩
  · rw [CallbackOk, if_neg (by decide +kernel)]
    refine ⟨by decide +kernel, by decide +kernel, fun lp hlo hhi => ?_⟩
    obtain rfl : lp = 0 := Nat.le_zero.1 (hhi.trans (by decide +kernel))
    exact keepsPage_empty (by decide +kernel) (by decide +kernel) (by decide +kernel)

/-- A snapshot is taken through the control file. The next create goes to head `2`, and the mount
still looks at head `0`. -/
theorem snapshot_command_hides_create :
    let vfsGc : State → Except Err Unit × State := fun st => (.ok (), st)
    let m := fuseVfsInit (bootstrap 8192 1024) ⟨0, false⟩
    let cs : List Callback := [.write vfsCtlPath (ascii "snapshot\n") 0 ctlFhSentinel]
    let m1 := cs.foldl (fuseStep vfsGc) m
    let r := fuseVfsCreate m1 (ascii "/a")
    r.1.toOption = some 2 ∧ fuseVfsGetattr r.2 (ascii "/a") = .error .enoent := by
  constructor
  · decide +kernel
  · decide +kernel

end SphereVFS
