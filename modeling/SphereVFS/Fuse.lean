import SphereVFS.MapperTable
import Mathlib.Data.List.DropRight

/-!
# SphereVFS.Fuse

`fuse_vfs.c` and `fuse_vfs_ctl.c`: a volume mounted through FUSE.

The mount keeps an epoch of its own, given when it is mounted and never changed. Paths are resolved
and files are read and measured at that epoch. Every callback that changes the volume takes the
current epoch of the volume instead, which the `snapshot` command of the control file moves.

A path is a byte string; the empty one also stands for the null pointer. A file handle is the
virtual pointer of its node. Locks and time stamps are left out, and so is the listing cache, which
only `readdir` uses. The collector behind the `gc` command is a parameter.
-/

namespace SphereVFS

def ascii (s : String) : List UInt8 := s.toUTF8.toList

/-- The byte `'/'`. -/
def slash : UInt8 := 47

/-! ## Errors -/

/-- The `errno` values the callbacks return, negated. -/
inductive Errno where
  | eio
  | enoent
  | eexist
  | enotdir
  | enotempty
  | ebusy
  | enospc
  | enomem
  | einval
  | enametoolong
  | erofs
  | eisdir
  deriving DecidableEq, Repr

def vfsErrorToErrno : Err → Errno
  | .io => .eio
  | .notFound => .enoent
  | .alreadyExists => .eexist
  | .isNotDir => .enotdir
  | .notEmpty => .enotempty
  | .conflict => .ebusy
  | .full => .enospc
  | .noMem => .enomem
  | .epoch => .einval
  | .nameTooLong => .enametoolong

def vfsErrorString : Err → String
  | .io => "I/O error"
  | .notFound => "Not found"
  | .alreadyExists => "Already exists"
  | .isNotDir => "Not a directory"
  | .notEmpty => "Directory not empty"
  | .conflict => "Conflict"
  | .full => "No space left"
  | .noMem => "Out of memory"
  | .epoch => "Epoch not writable"
  | .nameTooLong => "Name too long"

/-! ## The mount -/

/-- `fuse_vfs_opts`: what the mount command says. -/
structure FuseVfsOpts where
  epoch : Int
  readonly : Bool

/-- `fuse_vfs_state_t`. `ctlBuf` is the response of the control file. -/
structure FuseVfsState where
  vfs : State
  epoch : Int
  readonly : Bool
  ctlBuf : List UInt8

/-- `fuse_vfs_init` on the file of a volume. -/
def fuseVfsInit (st : State) (opts : FuseVfsOpts) : FuseVfsState :=
  ⟨remount st, opts.epoch, opts.readonly, []⟩

/-! ## Paths -/

def maxPathDepth : Nat := 256

/-- The tokens `strtok_r` gives for the separator `/`: never empty. -/
def pathTokens (path : Name) : List Name := (path.splitOn slash).filter (· ≠ [])

def walkTop (st : State) (stack : List VPtr) : VPtr := stack.headD st.root

def walkToken (st : State) (epoch : Int) (stack : List VPtr) (token : Name) : Except Err (List VPtr) :=
  if token = ascii "." then .ok stack
  else if token = ascii ".." then .ok stack.tail
  else if maxPathDepth ≤ stack.length then .error .io
  else (vfsOpen st (walkTop st stack) token epoch).map (· :: stack)

def resolveFullPath (st : State) (epoch : Int) (path : Name) : Except Err VPtr :=
  if path = [] ∨ path = [slash] then .ok st.root
  else ((pathTokens path).foldlM (walkToken st epoch) []).map (walkTop st)

/-- The start of create, unlink, mkdir and rmdir: the parent directory, and the name in it. What
stands before the last slash is resolved, unless that is nothing. -/
def parentAndName (m : FuseVfsState) (path : Name) : Except Err VPtr × Name :=
  let dirPart := (path.rdropWhile (· != slash)).dropLast
  if dirPart = [] then (.ok m.vfs.root, path.drop 1)
  else (resolveFullPath m.vfs m.epoch dirPart, path.rtakeWhile (· != slash))

/-! ## The control file -/

def vfsCtlPath : Name := ascii "/.vfsctl"

/-- `FUSE_VFS_CTL_FH_SENTINEL`. -/
def ctlFhSentinel : Nat := 2 ^ 64 - 1

def isCtl (path : Name) (fh : Nat) : Bool := path == vfsCtlPath || fh == ctlFhSentinel

def isSpace (b : UInt8) : Bool := b == 32 || (9 ≤ b && b ≤ 13)

def digits (s : List UInt8) : Nat :=
  (s.takeWhile fun b => 48 ≤ b && b ≤ 57).foldl (fun n b => 10 * n + (b.toNat - 48)) 0

/-- `atoll`, where the value fits. -/
def atoll (s : List UInt8) : Int :=
  match s.dropWhile isSpace with
  | 45 :: rest => -(digits rest : Int)
  | 43 :: rest => digits rest
  | rest => digits rest

/-- The command `fuse_vfs_ctl_write` makes of its buffer: at most 128 bytes, without blanks at
either end, up to the first zero byte. -/
def ctlLine (buf : List UInt8) : List UInt8 :=
  let isBlank := fun b : UInt8 => b == 32 || b == 9
  let line := (buf.take 128).rdropWhile fun b => b == 10 || b == 13 || isBlank b
  (line.dropWhile isBlank).takeWhile (· != 0)

section Commands

variable (vfsGc : State → Except Err Unit × State)

/-- The response to a command that reports success or a `vfs_error_string`. -/
def ctlReport : Except Err Unit → String
  | .ok _ => "ok\n"
  | .error e => "ERR " ++ vfsErrorString e ++ "\n"

/-- The response to `commit`, which has a word of its own for a conflict. -/
def ctlReportCommit : Except Err Unit → String
  | .error .conflict => "conflict\n"
  | r => ctlReport r

def ctlDispatch (m : FuseVfsState) (cmd : List UInt8) : FuseVfsState :=
  if cmd = ascii "snapshot" then
    let r := vfsSnapshot m.vfs
    { m with vfs := r.2, ctlBuf := ascii (toString r.1 ++ "\n") }
  else if (ascii "commit ").isPrefixOf cmd then
    let epoch := atoll (cmd.drop 7)
    if epoch ≤ 0 then { m with ctlBuf := ascii "ERR invalid epoch\n" }
    else
      let r := vfsCommit m.vfs epoch
      { m with vfs := r.2, ctlBuf := ascii (ctlReportCommit r.1) }
  else if (ascii "delete-snapshot ").isPrefixOf cmd then
    let epoch := atoll (cmd.drop 16)
    if epoch ≤ 0 then { m with ctlBuf := ascii "ERR invalid epoch\n" }
    else
      let r := vfsDeleteSnapshot m.vfs epoch
      { m with vfs := r.2, ctlBuf := ascii (ctlReport r.1) }
  else if cmd = ascii "gc" then
    let r := vfsGc m.vfs
    { m with vfs := r.2, ctlBuf := ascii (ctlReport r.1) }
  else { m with ctlBuf := ascii "ERR unknown command: '" ++ cmd ++ ascii "'\n" }

/-- `fuse_vfs_ctl_write`. Its `-EINVAL` is no code that `vfs_error_to_errno` knows, and comes out
as `-EIO`. -/
def fuseVfsCtlWrite (m : FuseVfsState) (buf : List UInt8) (offset : Nat) :
    Except Errno Nat × FuseVfsState :=
  if offset ≠ 0 then (.error .eio, m) else (.ok buf.length, ctlDispatch vfsGc m (ctlLine buf))

end Commands

def fuseVfsCtlRead (m : FuseVfsState) (size offset : Nat) : List UInt8 :=
  (m.ctlBuf.drop offset).take size

/-! ## Looking at the mount -/

/-- The part of `struct stat` that depends on the volume. -/
structure Attr where
  isDir : Bool
  size : Int
  deriving DecidableEq, Repr

def rootAttr : Attr := ⟨true, 0⟩

/-- `fuse_vfs_getattr` without a file handle. -/
def fuseVfsGetattr (m : FuseVfsState) (path : Name) : Except Errno Attr :=
  if path = [] ∨ path = [slash] then .ok rootAttr
  else if path = vfsCtlPath then .ok ⟨false, m.ctlBuf.length⟩
  else
    match resolveFullPath m.vfs m.epoch path with
    | .error e => .error (vfsErrorToErrno e)
    | .ok vp => .ok (if isDir m.vfs vp then rootAttr else ⟨false, vfsFileSize m.vfs vp m.epoch⟩)

/-- `fuse_vfs_open` on a path. -/
def fuseVfsOpen (m : FuseVfsState) (path : Name) (forWriting : Bool) : Except Errno Nat :=
  if path = vfsCtlPath then if m.readonly && forWriting then .error .erofs else .ok ctlFhSentinel
  else
    match resolveFullPath m.vfs m.epoch path with
    | .error e => .error (vfsErrorToErrno e)
    | .ok vp =>
      if isDir m.vfs vp then .error .eisdir
      else if m.readonly && forWriting then .error .erofs
      else .ok vp

def fuseVfsRead (m : FuseVfsState) (path : Name) (size offset fh : Nat) :
    Except Errno (List UInt8) × FuseVfsState :=
  if isCtl path fh then (.ok (fuseVfsCtlRead m size offset), m)
  else
    let r := vfsRead m.vfs fh offset size m.epoch
    (r.1.mapError vfsErrorToErrno, { m with vfs := r.2 })

/-! ## Changing the volume -/

/-- The common body of create, unlink, mkdir and rmdir: an operation on a name in a directory. The
directory is looked up at the epoch of the mount, the operation runs at that of the volume. -/
def atParent {α : Type} (op : State → VPtr → Name → Int → Except Err α × State) (m : FuseVfsState)
    (path : Name) : Except Errno α × FuseVfsState :=
  if m.readonly then (.error .erofs, m)
  else
    match parentAndName m path with
    | (.error _, _) => (.error .enoent, m)
    | (.ok parent, name) =>
      let r := op m.vfs parent name m.vfs.currentEpoch
      (r.1.mapError vfsErrorToErrno, { m with vfs := r.2 })

/-- `fuse_vfs_create`; the result is the new handle. -/
def fuseVfsCreate : FuseVfsState → Name → Except Errno VPtr × FuseVfsState := atParent vfsCreate

def fuseVfsMkdir : FuseVfsState → Name → Except Errno VPtr × FuseVfsState := atParent vfsMkdir

def fuseVfsUnlink : FuseVfsState → Name → Except Errno Unit × FuseVfsState := atParent vfsDelete

def fuseVfsRmdir : FuseVfsState → Name → Except Errno Unit × FuseVfsState := atParent vfsRmdir

/-- One of the two paths of a rename: its directory and its name. A path without a slash, and a
directory that is not found, are both `-ENOENT`. -/
def renameEnd (m : FuseVfsState) (path : Name) : Option (VPtr × Name) :=
  if slash ∈ path then
    let dirPart := (path.rdropWhile (· != slash)).dropLast
    let name := path.rtakeWhile (· != slash)
    if dirPart = [] then some (m.vfs.root, name)
    else (resolveFullPath m.vfs m.epoch dirPart).toOption.map (·, name)
  else none

def fuseVfsRename (m : FuseVfsState) (src dst : Name) : Except Errno Unit × FuseVfsState :=
  if m.readonly then (.error .erofs, m)
  else
    match renameEnd m src, renameEnd m dst with
    | some (srcParent, srcName), some (dstParent, dstName) =>
      let r := vfsRename m.vfs srcParent srcName dstParent dstName m.vfs.currentEpoch
      (r.1.mapError vfsErrorToErrno, { m with vfs := r.2 })
    | _, _ => (.error .enoent, m)

def fuseVfsTruncate (m : FuseVfsState) (path : Name) (size : Int) (fh : Nat) :
    Except Errno Unit × FuseVfsState :=
  if m.readonly then (.error .erofs, m)
  else
    let target := if path = [] then .ok fh else resolveFullPath m.vfs m.epoch path
    match target with
    | .error e => (.error (vfsErrorToErrno e), m)
    | .ok vp =>
      let r := vfsTruncate m.vfs vp size m.vfs.currentEpoch
      (r.1.mapError vfsErrorToErrno, { m with vfs := r.2 })

section Callbacks

variable (vfsGc : State → Except Err Unit × State)

def fuseVfsWrite (m : FuseVfsState) (path : Name) (buf : List UInt8) (offset fh : Nat) :
    Except Errno Nat × FuseVfsState :=
  if m.readonly then (.error .erofs, m)
  else if isCtl path fh then fuseVfsCtlWrite vfsGc m buf offset
  else
    let r := vfsWrite m.vfs fh buf offset m.vfs.currentEpoch
    (r.1.mapError vfsErrorToErrno, { m with vfs := r.2 })

/-- The callbacks that change the volume; a read changes the segment cache. A command is a write
on the control file. -/
inductive Callback where
  | create (path : Name)
  | mkdir (path : Name)
  | unlink (path : Name)
  | rmdir (path : Name)
  | rename (src dst : Name)
  | truncate (path : Name) (size : Int) (fh : Nat)
  | read (path : Name) (size offset fh : Nat)
  | write (path : Name) (buf : List UInt8) (offset fh : Nat)

def fuseStep (m : FuseVfsState) : Callback → FuseVfsState
  | .create path => (fuseVfsCreate m path).2
  | .mkdir path => (fuseVfsMkdir m path).2
  | .unlink path => (fuseVfsUnlink m path).2
  | .rmdir path => (fuseVfsRmdir m path).2
  | .rename src dst => (fuseVfsRename m src dst).2
  | .truncate path size fh => (fuseVfsTruncate m path size fh).2
  | .read path size offset fh => (fuseVfsRead m path size offset fh).2
  | .write path buf offset fh => (fuseVfsWrite vfsGc m path buf offset fh).2

end Callbacks

end SphereVFS
