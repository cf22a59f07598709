import SphereVFS.WriteRead
import SphereVFS.Lib.Splice

/-!
# SphereVFS.FileBytes

A file at one epoch as a byte string.

`vfs_write` and `vfs_truncate` act on the bytes that a reader at their epoch sees like `Splice.write`
and `Splice.resize`, if every page of every write is one that the write gets right (`KeepsPage`) and
the bytes between the old end and a write behind it are zero. `vfs_truncate` does not clear what it
cuts off, so the second part is not what the code makes sure of.
-/

namespace SphereVFS

variable {st st' : State} {file : VPtr} {f : FileNode} {epoch : Int} {data s : List UInt8}
  {offset : Nat}

/-- Readers of the file at the epoch see the byte string `s`. -/
structure Holds (st : State) (file : VPtr) (epoch : Int) (s : List UInt8) : Prop where
  size : vfsFileSize st file epoch = s.length
  read : ∀ offset count : Nat, 0 < count →
    (vfsRead st file offset count epoch).1 = .ok ((s.drop offset).take count)

def content (st : State) (file : VPtr) (epoch : Int) : List UInt8 :=
  (List.range (vfsFileSize st file epoch).toNat).map (fileByte st epoch file)

theorem holds_iff (hwf : Wf st) (he : Writable st epoch) :
    Holds st file epoch s ↔ vfsFileSize st file epoch = s.length ∧
      ∀ x < s.length, fileByte st epoch file x = s.getD x 0 := by
  have hspec : ∀ offset count : Nat, 0 < count → vfsFileSize st file epoch = s.length →
      (vfsRead st file offset count epoch).1 = .ok ((List.range
        (min count (s.length - offset))).map fun k => fileByte st epoch file (offset + k)) := by
    intro offset count hcount hsize
    rw [(vfsRead_spec hwf.file file hcount epoch).2, hwf.epoch.resolve_writable he, hsize, readCount]
    rfl
  constructor
  · rintro ⟨hsize, hread⟩
    refine ⟨hsize, fun x hx => ?_⟩
    have hone := hread x 1 Nat.one_pos
    rw [hspec x 1 Nat.one_pos hsize, Except.ok.injEq, show min 1 (s.length - x) = 1 by omega] at hone
    have hget := congrArg (fun l => l.getD 0 0) hone
    simpa [List.getD_eq_getElem?_getD, List.getElem?_take_of_lt] using hget
  · rintro ⟨hsize, hbyte⟩
    refine ⟨hsize, fun offset count hcount => ?_⟩
    rw [hspec offset count hcount hsize, Except.ok.injEq]
    refine Splice.ext_getD 0 (by simp) fun k hk => ?_
    rw [List.length_map, List.length_range] at hk
    rw [Splice.getD_take (by omega)]
    have hx := hbyte (offset + k) (by omega)
    rw [List.getD_eq_getElem?_getD] at hx
    simpa [List.getD_eq_getElem?_getD, hk] using hx

theorem holds_content (hwf : Wf st) (he : Writable st epoch) (hf : st.nodes file = some (.file f)) :
    Holds st file epoch (content st file epoch) := by
  have hnn : 0 ≤ vfsFileSize st file epoch := by
    simp only [vfsFileSize, hf]
    omega
  rw [holds_iff hwf he, content, List.length_map, List.length_range]
  refine ⟨by omega, fun x hx => ?_⟩
  simp [List.getD_eq_getElem?_getD, hx]

/-! ## A write -/

/-- The byte at position `x` below the range of a write, as the write leaves it: on the first page of
the range it comes from the page that the data is laid over. -/
def gapByte (st : State) (file : VPtr) (offset : Nat) (epoch : Int) (x : Nat) : UInt8 :=
  if x / st.pageSize = offset / st.pageSize then
    match writeBase st epoch file (x / st.pageSize) (cacheHit st file (x / st.pageSize)) with
    | some base => base (x % st.pageSize)
    | none => fileByte st epoch file x
  else fileByte st epoch file x

/-- A write that acts on the byte string: each page of the range is one it gets right, and the gap
between the old end and the range is zero. -/
structure WriteClean (st : State) (file : VPtr) (data : List UInt8) (offset : Nat) (epoch : Int) :
    Prop where
  pages : ∀ lp, offset / st.pageSize ≤ lp → lp ≤ (offset + data.length - 1) / st.pageSize →
    KeepsPage st file data offset epoch lp
  gap : ∀ x : Nat, vfsFileSize st file epoch ≤ x → x < offset → gapByte st file offset epoch x = 0

theorem written_gapByte (hpp : 0 < st.pageSize) (hps : st'.pageSize = st.pageSize) (hne : data ≠ [])
    (hview : ViewWritten st file data offset epoch st') {x : Nat} (hx : x < offset) :
    fileByte st' epoch file x = gapByte st file offset epoch x := by
  have hlen : 0 < data.length := List.length_pos_iff.2 hne
  have hle : x / st.pageSize ≤ offset / st.pageSize := Nat.div_le_div_right (by omega)
  have hlast : offset / st.pageSize ≤ (offset + data.length - 1) / st.pageSize :=
    Nat.div_le_div_right (by omega)
  rw [fileByte, hps, hview _ _ (Nat.mod_lt x hpp), gapByte]
  by_cases hpage : x / st.pageSize = offset / st.pageSize
  · have hpos : x / st.pageSize * st.pageSize + x % st.pageSize = x := Nat.div_add_mod' x st.pageSize
    rw [if_pos (by omega), if_pos hpage, ← hpage, foundInCache_self, writtenByte, hpos]
    cases writeBase st epoch file (x / st.pageSize) (cacheHit st file (x / st.pageSize)) with
    | some base => exact if_neg (by omega)
    | none => rfl
  · rw [if_neg (by omega), if_neg hpage]
    rfl

structure Ready (st : State) (file : VPtr) (epoch : Int) : Prop where
  wf : Wf st
  writable : Writable st epoch
  isFile : ∃ f, st.nodes file = some (.file f)

theorem Ready.edits (h : Ready st file epoch) (hedits : WriteEdits epoch st st') :
    Ready st' file epoch ∧ maxSize st' = maxSize st := by
  obtain ⟨hwf, he, f, hf⟩ := h
  have hkeep := hedits.keeps hwf.epoch he hwf.file
  refine ⟨⟨⟨hkeep.kept.epochWf hwf.epoch, hkeep.kept.dirWf hwf.dir, hkeep.fileWf⟩,
    he.kept hkeep.kept, hkeep.kept.files file f hf⟩, ?_⟩
  rw [maxSize, maxSize, hkeep.pageSize, hkeep.segmentSize]

theorem Ready.write_ok (h : Ready st file epoch) (data : List UInt8) (offset : Nat) (hne : data ≠ [])
    (hrange : offset + data.length ≤ maxSize st) :
    ∃ st', vfsWrite st file data offset epoch = (.ok data.length, st') ∧ Ready st' file epoch ∧
      maxSize st' = maxSize st ∧ st'.pageSize = st.pageSize ∧
      vfsFileSize st' file epoch = max (vfsFileSize st file epoch) ((offset + data.length : Nat) : Int) ∧
      ViewWritten st file data offset epoch st' := by
  obtain ⟨hwf, he, f, hf⟩ := id h
  obtain ⟨st', hcall, -, -, hps, hsize, hview⟩ := vfsWrite_ok hwf he hf hne hrange
  have hready : Ready st' file epoch ∧ maxSize st' = maxSize st := by
    obtain hsame | ⟨-, hedits⟩ := vfsWrite_cases hwf.epoch hwf.file he.issued file data offset
      (by rwa [Int.toNat_natCast])
    · rw [hcall] at hsame
      obtain rfl : st' = st := hsame
      exact ⟨h, rfl⟩
    · rw [hcall] at hedits
      exact h.edits hedits
  exact ⟨st', hcall, hready.1, hready.2, hps, hsize, hview⟩

theorem vfsWrite_holds_iff (h : Ready st file epoch) (hs : Holds st file epoch s) (hne : data ≠ [])
    (hrange : offset + data.length ≤ maxSize st) :
    ∃ st', vfsWrite st file data offset epoch = (.ok data.length, st') ∧ Ready st' file epoch ∧
      maxSize st' = maxSize st ∧
      (Holds st' file epoch (Splice.write 0 s offset data) ↔ WriteClean st file data offset epoch) := by
  obtain ⟨hwf, he, f, hf⟩ := id h
  obtain ⟨hsize, hold⟩ := (holds_iff hwf he).1 hs
  obtain ⟨st', hcall, hready, hmax, hps, hsize', hview⟩ := h.write_ok data offset hne hrange
  refine ⟨st', hcall, hready, hmax, ?_⟩
  have hpages := written_bytes_iff hwf.file.page_pos hps hview
  have hgap : ∀ x < offset, fileByte st' epoch file x = gapByte st file offset epoch x :=
    fun x hx => written_gapByte hwf.file.page_pos hps hne hview hx
  have hlength : vfsFileSize st' file epoch = (Splice.write 0 s offset data).length := by
    rw [Splice.length_write, hsize', hsize]
    omega
  rw [holds_iff hready.wf hready.writable, and_iff_right hlength, Splice.length_write]
  simp only [Splice.getD_write]
  constructor
  · intro hnew
    refine ⟨hpages.1 ⟨fun x hx => ?_, fun x hlt hx => ?_⟩, fun x hlo hx => ?_⟩
    · rw [InRange] at hx
      rw [hnew x (by omega), if_pos hx]
    · rw [hsize] at hlt
      rw [InRange] at hx
      rw [hnew x (by omega), if_neg hx, hold x (by omega)]
    · rw [hsize] at hlo
      rw [← hgap x hx, hnew x (by omega), if_neg (by omega), List.getD_eq_default _ _ (by omega)]
  · intro hclean x hx
    obtain ⟨hin, hout⟩ := hpages.2 hclean.pages
    split
    · rename_i hr
      exact hin x hr
    · rename_i hr
      by_cases hlt : x < s.length
      · rw [hout x (by rw [hsize]; omega) hr, hold x hlt]
      · rw [hgap x (by omega), hclean.gap x (by rw [hsize]; omega) (by omega),
          List.getD_eq_default _ _ (by omega)]

/-! ## Truncating -/

/-- Every `vfs_write` that the grow loop makes starts in a state with `P`. -/
def GrowSteps (P : State → List UInt8 → Nat → Prop) (file : VPtr) (epoch : Int) :
    Nat → State → (off remaining : Nat) → Prop
  | 0, _, _, _ => True
  | n + 1, st, off, remaining =>
    remaining ≠ 0 →
      P st (List.replicate (min remaining 8192) 0) off ∧
      GrowSteps P file epoch n (vfsWrite st file (List.replicate (min remaining 8192) 0) off epoch).2
        (off + min remaining 8192) (remaining - min remaining 8192)

theorem growLoop_rule {P : State → List UInt8 → Nat → Prop} {n : Nat} (I : State → Nat → Prop)
    (limit : Nat) (hstep : ∀ st off k, 0 < k → off + k ≤ limit → I st off →
      P st (List.replicate k 0) off →
        ∃ st', vfsWrite st file (List.replicate k 0) off epoch = (.ok k, st') ∧ I st' (off + k))
    {off remaining : Nat} (hn : remaining ≤ n) (hlimit : off + remaining ≤ limit) (hI : I st off)
    (hP : GrowSteps P file epoch n st off remaining) :
    ∃ st', growLoop file epoch n st off remaining = (.ok (), st') ∧ I st' (off + remaining) := by
  induction n generalizing st off remaining with
  | zero =>
    obtain rfl : remaining = 0 := by omega
    exact ⟨st, rfl, hI⟩
  | succ n ih =>
    rw [growLoop]
    split
    · rename_i hzero
      subst hzero
      exact ⟨st, rfl, hI⟩
    · rename_i hpos
      obtain ⟨hone, hrest⟩ := hP hpos
      obtain ⟨st1, hcall, hI1⟩ := hstep st off (min remaining 8192) (by omega) (by omega) hI hone
      rw [hcall] at hrest
      have hloop := ih (by omega) (by omega) hI1 hrest
      rw [show off + min remaining 8192 + (remaining - min remaining 8192) = off + remaining by
        omega] at hloop
      simpa only [hcall] using hloop

theorem Holds.shrunk (hs : Holds st file epoch s) (h : Ready st file epoch) {n : Nat}
    (hn : n ≤ s.length) (hmax : n ≤ maxSize st) (bin : List BinEntry) :
    Ready { prependSize st file epoch n with bin := bin } file epoch ∧
      Holds { prependSize st file epoch n with bin := bin } file epoch (Splice.resize 0 s n) := by
  obtain ⟨hwf, he, f, hf⟩ := id h
  have hedits : WriteEdits epoch st { prependSize st file epoch n with bin := bin } :=
    (prependSize_edits hf hmax).tail (.bin _)
  have hready := (h.edits hedits).1
  obtain ⟨hsize, hview⟩ := prependSize_reads hwf.epoch he hf n
  have hps : (prependSize st file epoch n).pageSize = st.pageSize := by
    simp only [prependSize, hf]
  refine ⟨hready, (holds_iff hready.wf hready.writable).2 ⟨?_, fun x hx => ?_⟩⟩
  · rw [Splice.length_resize]
    exact hsize
  · rw [Splice.length_resize] at hx
    rw [Splice.getD_resize, if_pos hx, ← ((holds_iff hwf he).1 hs).2 x (by omega)]
    show fileByte (prependSize st file epoch n) epoch file x = fileByte st epoch file x
    rw [fileByte, hview, hps]
    rfl

theorem Holds.grown (hs : Holds st file epoch (Splice.resize 0 s offset)) (h : Ready st file epoch)
    (hoff : s.length ≤ offset) {k : Nat} (hk : 0 < k) (hrange : offset + k ≤ maxSize st)
    (hclean : WriteClean st file (List.replicate k 0) offset epoch) :
    ∃ st', vfsWrite st file (List.replicate k 0) offset epoch = (.ok k, st') ∧ Ready st' file epoch ∧
      maxSize st' = maxSize st ∧ Holds st' file epoch (Splice.resize 0 s (offset + k)) := by
  have hne : List.replicate k (0 : UInt8) ≠ [] := by
    rw [Ne, List.replicate_eq_nil_iff]
    omega
  obtain ⟨st', hcall, hready, hmax, hiff⟩ := vfsWrite_holds_iff h hs hne
    (by rwa [List.length_replicate])
  have hend : Splice.write 0 (Splice.resize 0 s offset) _ (List.replicate k (0 : UInt8)) = _ :=
    Splice.write_end (Splice.resize 0 s offset) k
  rw [Splice.length_resize, Splice.resize_resize hoff] at hend
  rw [List.length_replicate] at hcall
  rw [hend] at hiff
  exact ⟨st', hcall, hready, hmax, hiff.2 hclean⟩

theorem vfsTruncate_holds (h : Ready st file epoch) (hs : Holds st file epoch s) {n : Nat}
    (hn : n ≤ maxSize st)
    (hgrow : GrowSteps (fun st data off => WriteClean st file data off epoch) file epoch
      (n - s.length) st s.length (n - s.length)) :
    ∃ st', vfsTruncate st file n epoch = (.ok (), st') ∧ Ready st' file epoch ∧
      Holds st' file epoch (Splice.resize 0 s n) := by
  obtain ⟨hwf, he, f, hf⟩ := id h
  have hcheck := hwf.epoch.check_of_writable he
  rw [vfsTruncate, if_neg (by omega), if_neg (by simp [hcheck])]
  simp only [hf, hs.size]
  obtain hlt | rfl | hgt := Nat.lt_trichotomy n s.length
  · rw [if_neg (by omega), if_pos (by omega), Int.toNat_natCast]
    have hcut := hs.shrunk h (Nat.le_of_lt hlt) hn
      ((prependSize st file epoch n).bin ++ [.noop file n])
    exact ⟨_, rfl, hcut⟩
  · rw [if_pos rfl, Splice.resize_self]
    exact ⟨st, rfl, h, hs⟩
  · rw [if_neg (by omega), if_neg (by omega)]
    have hsub : ((n : Int) - s.length).toNat = n - s.length := by omega
    rw [hsub, Int.toNat_natCast]
    -- the loop has filled the string up to its offset
    obtain ⟨st', hcall, hready, -, -, hholds⟩ := growLoop_rule
      (fun st' off => Ready st' file epoch ∧ maxSize st' = maxSize st ∧ s.length ≤ off ∧
        Holds st' file epoch (Splice.resize 0 s off)) (maxSize st)
      (by
        rintro st1 off k hk hlimit ⟨hready, hmax, hoff, hholds⟩ hclean
        obtain ⟨st2, hcall, hready2, hmax2, hholds2⟩ :=
          hholds.grown hready hoff hk (hmax ▸ hlimit) hclean
        exact ⟨st2, hcall, hready2, hmax2.trans hmax, by omega, hholds2⟩)
      (Nat.le_refl _) (by omega) ⟨h, rfl, Nat.le_refl _, by rwa [Splice.resize_self]⟩ hgrow
    rw [show s.length + (n - s.length) = n by omega] at hholds
    exact ⟨st', hcall, hready, hholds⟩

theorem Ready.truncate_ok (h : Ready st file epoch) {n : Nat} (hn : n ≤ maxSize st) :
    ∃ st', vfsTruncate st file n epoch = (.ok (), st') ∧ vfsFileSize st' file epoch = n := by
  obtain ⟨hwf, he, f, hf⟩ := id h
  obtain ⟨size, hsize⟩ : ∃ size : Nat, vfsFileSize st file epoch = size := by simp [vfsFileSize, hf]
  rw [vfsTruncate, if_neg (by omega), if_neg (by simp [hwf.epoch.check_of_writable he])]
  simp only [hf, hsize]
  obtain hlt | rfl | hgt := Nat.lt_trichotomy n size
  · rw [if_neg (by omega), if_pos (by omega), Int.toNat_natCast]
    exact ⟨_, rfl, (prependSize_reads hwf.epoch he hf n).1⟩
  · rw [if_pos rfl]
    exact ⟨st, rfl, hsize⟩
  · rw [if_neg (by omega), if_neg (by omega), show ((n : Int) - size).toNat = n - size by omega]
    have hsteps : ∀ n st off remaining, GrowSteps (fun _ _ _ => True) file epoch n st off remaining := by
      intro n
      induction n with
      | zero => exact fun _ _ _ => trivial
      | succ n ih => exact fun _ _ _ _ => ⟨trivial, ih _ _ _⟩
    obtain ⟨st', hcall, -, -, hsize'⟩ := growLoop_rule (fun st' off => Ready st' file epoch ∧
        maxSize st' = maxSize st ∧ vfsFileSize st' file epoch = off) (maxSize st) (by
      rintro st1 off k hk hlimit ⟨hready, hmax, hsize1⟩ -
      obtain ⟨st2, hcall, hready2, hmax2, -, hsize2, -⟩ := hready.write_ok
        (List.replicate k 0) off (by simp; omega) (by simpa [hmax] using hlimit)
      rw [List.length_replicate] at hcall hsize2
      exact ⟨st2, hcall, hready2, hmax2.trans hmax, by omega⟩)
      (Nat.le_refl (n - size)) (by omega) ⟨h, rfl, hsize⟩ (hsteps _ st size _)
    exact ⟨st', hcall, by omega⟩

/-! ## Sequences of calls -/

inductive FileCall where
  | write (data : List UInt8) (offset : Nat)
  | truncate (newSize : Nat)

def fileStep (file : VPtr) (epoch : Int) (st : State) : FileCall → State
  | .write data offset => (vfsWrite st file data offset epoch).2
  | .truncate newSize => (vfsTruncate st file newSize epoch).2

def CallSucceeds (file : VPtr) (epoch : Int) (st : State) : FileCall → Prop
  | .write data offset => (vfsWrite st file data offset epoch).1 = .ok data.length
  | .truncate newSize => (vfsTruncate st file newSize epoch).1 = .ok ()

def posixStep (s : List UInt8) : FileCall → List UInt8
  | .write data offset => Splice.write 0 s offset data
  | .truncate newSize => Splice.resize 0 s newSize

/-- The call stays within the addressable size, and each write, those of `vfs_truncate` included,
starts in a state where it is clean. -/
def CleanCall (file : VPtr) (epoch : Int) (st : State) : FileCall → Prop
  | .write data offset => data ≠ [] ∧ offset + data.length ≤ maxSize st ∧
      WriteClean st file data offset epoch
  | .truncate newSize => newSize ≤ maxSize st ∧
      GrowSteps (fun st data off => WriteClean st file data off epoch) file epoch
        (newSize - (vfsFileSize st file epoch).toNat) st (vfsFileSize st file epoch).toNat
        (newSize - (vfsFileSize st file epoch).toNat)

theorem fileStep_holds (h : Ready st file epoch) (hs : Holds st file epoch s) {call : FileCall}
    (hclean : CleanCall file epoch st call) :
    CallSucceeds file epoch st call ∧ Ready (fileStep file epoch st call) file epoch ∧
      Holds (fileStep file epoch st call) file epoch (posixStep s call) := by
  cases call with
  | write data offset =>
    obtain ⟨hne, hrange, hclean⟩ := hclean
    obtain ⟨st', hcall, hready, -, hiff⟩ := vfsWrite_holds_iff h hs hne hrange
    rw [CallSucceeds, fileStep, hcall]
    exact ⟨rfl, hready, hiff.2 hclean⟩
  | truncate newSize =>
    obtain ⟨hrange, hgrow⟩ := hclean
    rw [hs.size, Int.toNat_natCast] at hgrow
    obtain ⟨st', hcall, hready, hholds⟩ := vfsTruncate_holds h hs hrange hgrow
    rw [CallSucceeds, fileStep, hcall]
    exact ⟨rfl, hready, hholds⟩

theorem fileRun_holds (h : Ready st file epoch) (hs : Holds st file epoch s) {calls : List FileCall}
    (hclean : Run.AllSteps (fileStep file epoch) (CleanCall file epoch) st calls) :
    Run.AllSteps (fileStep file epoch) (CallSucceeds file epoch) st calls ∧
      Holds (calls.foldl (fileStep file epoch) st) file epoch (calls.foldl posixStep s) := by
  induction calls generalizing st s with
  | nil => exact ⟨trivial, hs⟩
  | cons call calls ih =>
    obtain ⟨hok, hready, hholds⟩ := fileStep_holds h hs hclean.1
    obtain ⟨hoks, hfinal⟩ := ih hready hholds hclean.2
    exact ⟨⟨hok, hoks⟩, hfinal⟩

/-- **A file at one epoch is a byte string.** In a volume reached by valid operations, take a file
and a writable epoch, and any sequence of writes and truncations of the file at the epoch. If each
write is clean in the state it starts from, all calls succeed, and reads of the file at the epoch
return what the same calls make of its byte string. -/
theorem file_is_byte_string {pageSize segmentSize : Nat} (hp : 0 < pageSize) (hs : 0 < segmentSize)
    (ops : List Op) (hops : Run.AllSteps step ValidOp (bootstrap pageSize segmentSize) ops)
    (file : VPtr) (f : FileNode)
    (hf : (run (bootstrap pageSize segmentSize) ops).nodes file = some (.file f)) (epoch : Int)
    (he : Writable (run (bootstrap pageSize segmentSize) ops) epoch) (calls : List FileCall)
    (hcalls : Run.AllSteps (fileStep file epoch) (CleanCall file epoch)
      (run (bootstrap pageSize segmentSize) ops) calls) :
    let st := run (bootstrap pageSize segmentSize) ops
    Holds st file epoch (content st file epoch) ∧
      Run.AllSteps (fileStep file epoch) (CallSucceeds file epoch) st calls ∧
      Holds (calls.foldl (fileStep file epoch) st) file epoch
        (calls.foldl posixStep (content st file epoch)) := by
  have hwf := reachable_wf hp hs hops
  have hcontent := holds_content hwf he hf
  exact ⟨hcontent, fileRun_holds ⟨hwf, he, f, hf⟩ hcontent hcalls⟩

theorem file_is_byte_string_gap :
    let st := run (bootstrap 8192 1024) [.create 1 [97] 0]
    Holds ([.write [1] 0, .write [2] 3, .truncate 3].foldl (fileStep 2 0) st) 2 0 [1, 0, 0] := by
  have hpage : ∀ {lp n : Nat}, n < 8192 → lp ≤ n / 8192 → lp = 0 := by
    intro lp n hn hlp
    rw [Nat.div_eq_of_lt hn] at hlp
    omega
  have hfirst : CleanCall 2 0 (run (bootstrap 8192 1024) [.create 1 [97] 0]) (.write [1] 0) := by
    refine ⟨by decide, by decide +kernel, fun lp _ hhi => ?_,
      fun x _ hx => absurd hx (Nat.not_lt_zero x)⟩
    obtain rfl := hpage (by decide) hhi
    intro i _ hsize
    have hempty : vfsFileSize (run (bootstrap 8192 1024) [.create 1 [97] 0]) 2 0 = 0 := by
      decide +kernel
    omega
  have hsecond : CleanCall 2 0 (run (bootstrap 8192 1024) [.create 1 [97] 0, .write 2 [1] 0 0])
      (.write [2] 3) := by
    refine ⟨by decide, by decide +kernel, fun lp _ hhi => ?_, fun x hlo hx => ?_⟩
    · obtain rfl := hpage (by decide) hhi
      exact .inl rfl
    · have hone : vfsFileSize (run (bootstrap 8192 1024) [.create 1 [97] 0, .write 2 [1] 0 0]) 2 0 =
          1 := by decide +kernel
      obtain rfl | rfl : x = 1 ∨ x = 2 := by omega
      all_goals decide +kernel
  have hthird : CleanCall 2 0 (run (bootstrap 8192 1024)
      [.create 1 [97] 0, .write 2 [1] 0 0, .write 2 [2] 3 0]) (.truncate 3) := by
    have hfour : vfsFileSize (run (bootstrap 8192 1024)
        [.create 1 [97] 0, .write 2 [1] 0 0, .write 2 [2] 3 0]) 2 0 = 4 := by decide +kernel
    rw [CleanCall, hfour]
    exact ⟨by decide +kernel, trivial⟩
  have hempty : content (run (bootstrap 8192 1024) [.create 1 [97] 0]) 2 0 = [] := by decide +kernel
  have hstring := file_is_byte_string (by decide) (by decide) [.create 1 [97] 0] ⟨.inl rfl, trivial⟩ 2
    _ rfl 0 (.inl rfl) [.write [1] 0, .write [2] 3, .truncate 3] ⟨hfirst, hsecond, hthird, trivial⟩
  dsimp only at hstring
  rw [hempty] at hstring
  exact hstring.2.2

/-- Two bytes are written, the second is cut off, and a byte is written behind the end: the byte that
was cut off is back in the gap. -/
theorem cut_byte_in_gap :
    let st := run (bootstrap 8192 1024) [.create 1 [97] 0]
    let calls : List FileCall := [.write [1, 2] 0, .truncate 1, .write [3] 2]
    Run.AllSteps step ValidOp (bootstrap 8192 1024) [.create 1 [97] 0] ∧ Writable st 0 ∧
      Run.AllSteps (fileStep 2 0) (CallSucceeds 2 0) st calls ∧
      calls.foldl posixStep (content st 2 0) = [1, 0, 3] ∧
      (vfsRead (calls.foldl (fileStep 2 0) st) 2 0 3 0).1.toOption = some [1, 2, 3] := by
  refine ⟨⟨.inl rfl, trivial⟩, .inl rfl, ⟨rfl, rfl, rfl, trivial⟩, ?_, ?_⟩
  all_goals decide +kernel

end SphereVFS
