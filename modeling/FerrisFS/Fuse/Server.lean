import FerrisFS.Fuse.FormatV1

/-!
# Serving FUSE requests

The other requests of `fuse/formats/fuse_format_v1.rs`, and all of them as one type. `FuseFFS`
holds a lock on the device and the format from the arrival of a request to its reply, so that
a mounted filesystem serves one request after the other. What is the same for every request,
and what no request looks at, is left out: users, permissions, open flags and lock owners.
-/

namespace FerrisFS

open Lib

/-- All error numbers in replies: `link` may answer `EPERM`, `mknod` and `create` `ENOSYS`. -/
inductive ReplyErrno where
  | errno (e : Errno)
  | EPERM
  | ENOSYS
  deriving DecidableEq

namespace FormatV1

/-- Writes to the device what it has cached. A memory device has nothing cached. -/
def flush : FsM Unit := onDevice (pure ())

end FormatV1

namespace Fuse

def S_IFMT : UInt32 := 0o170000
def S_IFREG : UInt32 := 0o100000

def getattr (ino : Nat) : FsM (Except Errno FileAttr) := do
  let inodeInd ← toV1InodeNumber ino
  match ← Prog.attempt (FormatV1.getInode inodeInd) with
  | .error _ => pure (.error .ENOENT)
  | .ok inode => do
    let attr ← fileAttrFromInode inode ino
    pure (.ok attr)

/-! ## Directories -/

/-- The file handle of a directory is its inode number. -/
def opendir (ino : Nat) : FsM (Except Errno Nat) := do
  let inodeInd ← toV1InodeNumber ino
  match ← Prog.attempt (FormatV1.getInode inodeInd) with
  | .error _ => pure (.error .ENOENT)
  | .ok inode =>
    if inode.fileType ≠ .directory then pure (.error .ENOTDIR) else pure (.ok inodeInd)

def mkdir (parent : Nat) (name : Str) (now : UInt64) : FsM (Except Errno Entry) := do
  let parentInodeInd ← toV1InodeNumber parent
  if ¬ Path.validUtf8 name [] then pure (.error Errno.EIO)
  else do
    match ← Prog.attempt (FormatV1.createChild .directory name parentInodeInd now) with
    | .error _ => pure (.error Errno.EIO)
    | .ok (inode, entryInodeNumber) => do
      let entryIno ← fromV1InodeNumber entryInodeNumber
      let attr ← fileAttrFromInode inode entryIno
      pure (.ok ⟨1, attr, 0⟩)

/-- The common body of `fsync` and `fsyncdir`: everything is flushed. -/
def sync : FsM Reply := do
  match ← Prog.attempt FormatV1.flush with
  | .error _ => pure (.error Errno.EIO)
  | .ok _ => pure (.ok ())

def fsyncdir : FsM Reply := sync

/-- An open directory has no state of its own. -/
def releasedir : FsM Reply := pure (.ok ())

/-- Permissions are not implemented, every access is allowed. -/
def access : FsM Reply := pure (.ok ())

/-! ## Files -/

def mknod (parent : Nat) (name : Str) (mode : UInt32) (now : UInt64) :
    FsM (Except ReplyErrno Entry) := do
  let parentInodeInd ← toV1InodeNumber parent
  if ¬ Path.validUtf8 name [] then pure (.error (.errno Errno.EIO))
  else if mode &&& S_IFMT ≠ S_IFREG then pure (.error .ENOSYS)
  else do
    match ← Prog.attempt (FormatV1.createChild .file name parentInodeInd now) with
    | .error _ => pure (.error (.errno Errno.EIO))
    | .ok (inode, entryInodeNumber) => do
      let entryIno ← fromV1InodeNumber entryInodeNumber
      let attr ← fileAttrFromInode inode entryIno
      pure (.ok ⟨1, attr, 0⟩)

/-- Another name for the file, in the directory `newparent`. -/
def link (ino newparent : Nat) (newname : Str) (now : UInt64) :
    FsM (Except ReplyErrno Entry) := do
  let dstParentInodeInd ← toV1InodeNumber newparent
  let tgtInodeInd ← toV1InodeNumber ino
  match ← Prog.attempt (FormatV1.getInode tgtInodeInd) with
  | .error _ => pure (.error (.errno .ENOENT))
  | .ok tgtInode => do
    if tgtInode.fileType = .directory then pure (.error .EPERM)
    else do
      match ← Prog.attempt (FormatV1.getInode dstParentInodeInd) with
      | .error _ => pure (.error (.errno .ENOENT))
      | .ok dstParentInode => do
        if dstParentInode.fileType ≠ .directory then pure (.error (.errno .ENOTDIR))
        else do
          if ¬ Path.validUtf8 newname [] then Prog.abort
          match ← Prog.attempt (FormatV1.createChildHardlink tgtInode tgtInodeInd newname
              dstParentInode dstParentInodeInd now) with
          | .error _ => pure (.error (.errno Errno.EIO))
          | .ok _ => do
            -- `create_child_hardlink` has counted the link in the inode it was given
            let attr ← fileAttrFromInode { tgtInode with links := tgtInode.links + 1 } ino
            pure (.ok ⟨1, attr, 0⟩)

/-- Create a file and open it. The file stays when it cannot be opened. -/
def create (parent : Nat) (name : Str) (mode : UInt32) (now : UInt64) :
    FsM (Except ReplyErrno (Entry × Nat)) := do
  let parentInodeInd ← toV1InodeNumber parent
  if ¬ Path.validUtf8 name [] then pure (.error (.errno Errno.EIO))
  else if mode &&& S_IFMT ≠ S_IFREG then pure (.error .ENOSYS)
  else do
    match ← Prog.attempt (FormatV1.createChild .file name parentInodeInd now) with
    | .error _ => pure (.error (.errno Errno.EIO))
    | .ok (inode, inodeInd) => do
      let entryIno ← fromV1InodeNumber inodeInd
      let attr ← fileAttrFromInode inode entryIno
      match ← Prog.attempt (FormatV1.openFileFromInode inodeInd) with
      | .error _ => pure (.error (.errno .ENOENT))
      | .ok id => pure (.ok (⟨1, attr, 0⟩, id))

/-- Nothing is buffered in a handle. -/
def flush : FsM Reply := pure (.ok ())

def release (fh : Nat) : FsM Reply := do
  match ← Prog.attempt (FormatV1.closeFile (fh % U32)) with
  | .error _ => pure (.error Errno.EIO)
  | .ok _ => pure (.ok ())

def fsync : FsM Reply := sync

/-! ## Requests -/

/-- The requests. `now` is what the clock answers. -/
inductive Request where
  | getattr (ino : Nat)
  | setattr (ino : Nat) (mode : Option UInt32) (size : Option UInt64)
      (mtime : Option TimeOrNow) (ctime : Option Int64) (now : UInt64)
  | opendir (ino : Nat)
  | readdir (ino offset : Nat) (full : ReplyDirectory)
  | mkdir (parent : Nat) (name : Str) (now : UInt64)
  | lookup (parent : Nat) (name : List UInt8)
  | rmdir (parent : Nat) (name : Str) (now : UInt64)
  | fsyncdir
  | releasedir
  | readlink (ino : Nat)
  | symlink (parent : Nat) (linkName target : Str) (now now' : UInt64)
  | access
  | mknod (parent : Nat) (name : Str) (mode : UInt32) (now : UInt64)
  | unlink (parent : Nat) (name : Str) (now : UInt64)
  | link (ino newparent : Nat) (newname : Str) (now : UInt64)
  | rename (parent : Nat) (name : Str) (newparent : Nat) (newname : Str) (flags : Nat)
      (now now' : UInt64)
  | create (parent : Nat) (name : Str) (mode : UInt32) (now : UInt64)
  | openIno (ino : Nat)
  | read (fh : Nat) (offset : UInt64) (size : Nat)
  | write (fh : Nat) (offset : UInt64) (data : List UInt8) (now : UInt64)
  | flush
  | release (fh : Nat)
  | fsync

/-- What a request is answered with. -/
inductive Response where
  | error (e : ReplyErrno)
  | ok
  | attr (attr : FileAttr)
  | entry (entry : Entry)
  | opened (fh : Nat)
  | created (entry : Entry) (fh : Nat)
  | data (bytes : List UInt8)
  | directory (items : List DirItem)
  | written (n : Nat)

/-- The reply of a handler as an answer. -/
def answer {ε α : Type} (err : ε → ReplyErrno) (f : α → Response) (m : FsM (Except ε α)) :
    FsM Response := do
  match ← m with
  | .error e => pure (.error (err e))
  | .ok a => pure (f a)

def serve : Request → FsM Response
  | .getattr ino => answer .errno .attr (getattr ino)
  | .setattr ino mode size mtime ctime now =>
      answer .errno .attr (setattr ino mode size mtime ctime now)
  | .opendir ino => answer .errno .opened (opendir ino)
  | .readdir ino offset full => answer .errno .directory (readdir ino offset full)
  | .mkdir parent name now => answer .errno .entry (mkdir parent name now)
  | .lookup parent name => answer .errno .entry (lookup parent name)
  | .rmdir parent name now => answer .errno (fun _ => .ok) (rmdir parent name now)
  | .fsyncdir => answer .errno (fun _ => .ok) fsyncdir
  | .releasedir => answer .errno (fun _ => .ok) releasedir
  | .readlink ino => answer .errno .data (readlink ino)
  | .symlink parent linkName target now now' =>
      answer .errno .entry (symlink parent linkName target now now')
  | .access => answer .errno (fun _ => .ok) access
  | .mknod parent name mode now => answer id .entry (mknod parent name mode now)
  | .unlink parent name now => answer .errno (fun _ => .ok) (unlink parent name now)
  | .link ino newparent newname now => answer id .entry (link ino newparent newname now)
  | .rename parent name newparent newname flags now now' =>
      answer .errno (fun _ => .ok) (rename parent name newparent newname flags now now')
  | .create parent name mode now =>
      answer id (fun r => .created r.1 r.2) (create parent name mode now)
  | .openIno ino => answer .errno .opened (openIno ino)
  | .read fh offset size => answer .errno .data (read fh offset size)
  | .write fh offset data now => answer .errno .written (write fh offset data now)
  | .flush => answer .errno (fun _ => .ok) flush
  | .release fh => answer .errno (fun _ => .ok) (release fh)
  | .fsync => answer .errno (fun _ => .ok) fsync

end Fuse

end FerrisFS
