import FerrisFS.V1.Format

/-!
# The FUSE face of the version 1 format

`rename`, `symlink`, `readlink`, `readdir`, `lookup`, `rmdir`, `unlink`, `setattr`, `open`,
`read` and `write` of `fuse/formats/fuse_format_v1.rs`. A request is answered with what it
asks for or with an error number; what is printed on the way is left out. Names come as the
bytes of an `OsStr`, inode numbers are FUSE's, with the root at 1.
-/

namespace FerrisFS

open Lib

/-- The error numbers in replies. -/
inductive Errno where
  | EINVAL
  | ENOENT
  | ENOTDIR
  | EIO
  deriving DecidableEq

/-- What a request without a result is answered with. -/
abbrev Reply := Except Errno Unit

namespace Fuse

def RENAME_NOREPLACE : Nat := 1
def RENAME_EXCHANGE : Nat := 2

/-- `(ino.0 - 1) as u32`. -/
def v1InodeNumber (ino : Nat) : Nat := (ino - 1) % U32

/-- Inode number 0 panics. -/
def toV1InodeNumber (ino : Nat) : FsM Nat := do
  let _ ← Prog.checkedSub ino 1
  pure (v1InodeNumber ino)

/-- Move a file or directory: a hard link in the new place, then the old name is
deleted. -/
def rename (parent : Nat) (name : Str) (newparent : Nat) (newname : Str) (flags : Nat)
    (now now' : UInt64) : FsM Reply := do
  if flags = RENAME_EXCHANGE then pure (.error .EINVAL)
  else if flags ≠ RENAME_NOREPLACE then pure (.error .EINVAL)
  else do
    let srcParentInodeInd ← toV1InodeNumber parent
    let dstParentInodeInd ← toV1InodeNumber newparent
    -- get the source inode
    match ← Prog.attempt (FormatV1.getDirEntryInode srcParentInodeInd name) with
    | .error _ => pure (.error .ENOENT)
    | .ok none => pure (.error .ENOENT)
    | .ok (some srcInodeInd) => do
      -- create a hard link in the new location
      match ← Prog.attempt (FormatV1.getInode srcInodeInd) with
      | .error _ => pure (.error .ENOENT)
      | .ok srcInode => do
        match ← Prog.attempt (FormatV1.getInode dstParentInodeInd) with
        | .error _ => pure (.error .ENOENT)
        | .ok dstParentInode => do
          if dstParentInode.fileType ≠ .directory then pure (.error .ENOTDIR)
          else do
            if ¬ Path.validUtf8 newname [] then Prog.abort
            match ← Prog.attempt (FormatV1.createChildHardlink srcInode srcInodeInd newname
                dstParentInode dstParentInodeInd now) with
            | .error _ => pure (.error Errno.EIO)
            | .ok _ => do
              -- unlink from the previous location
              if ¬ Path.validUtf8 name [] then pure (.error Errno.EIO)
              else do
                match ← Prog.attempt
                    (FormatV1.deleteChild name srcParentInodeInd none now') with
                | .error _ => pure (.error Errno.EIO)
                | .ok _ => pure (.ok ())

/-! ## Symlinks -/

inductive FuseFileType where
  | regularFile
  | directory
  | symlink
  deriving DecidableEq

def myToFuseFileType : FileType → FuseFileType
  | .file => .regularFile
  | .directory => .directory
  | .symlink => .symlink
  | .unknown => .regularFile

/-- Times are seconds since the epoch. -/
structure FileAttr where
  ino : Nat
  size : Nat
  blocks : Nat
  atime : Nat
  mtime : Nat
  ctime : Nat
  crtime : Nat
  kind : FuseFileType
  perm : Nat
  nlink : Nat
  uid : Nat
  gid : Nat
  rdev : Nat
  blksize : Nat
  flags : Nat

/-- What `lookup` and the calls that create something are answered with. -/
structure Entry where
  ttl : Nat
  attr : FileAttr
  generation : Nat

/-- `UNIX_EPOCH + Duration::from_secs(secs)`; a `SystemTime` counts its seconds in an
`i64`. -/
def systemTime (secs : Nat) : FsM Nat := Prog.checkedAdd (2 ^ 63) 0 secs

def fromV1InodeNumber (inode : Nat) : FsM Nat := add32 inode 1

def fileAttrFromInode (inode : INode) (ino : Nat) : FsM FileAttr := do
  let modified ← systemTime inode.modified
  let created ← systemTime inode.created
  pure
    { ino := ino
      size := inode.size
      blocks := inode.size / 512
      atime := modified
      mtime := modified
      ctime := created
      crtime := created
      kind := myToFuseFileType inode.fileType
      perm := 0o755
      nlink := inode.links
      uid := 1
      gid := 2
      rdev := 0
      blksize := BLOCK_SIZE
      flags := 0 }

/-- The target is checked only after the link was created. -/
def symlink (parent : Nat) (linkName target : Str) (now now' : UInt64) :
    FsM (Except Errno Entry) := do
  let parentInodeInd ← toV1InodeNumber parent
  if ¬ Path.validUtf8 linkName [] then pure (.error Errno.EIO)
  else do
    match ← Prog.attempt (FormatV1.createChild .symlink linkName parentInodeInd now) with
    | .error _ => pure (.error Errno.EIO)
    | .ok (inode, entryInodeNumber) => do
      let entryIno ← fromV1InodeNumber entryInodeNumber
      if ¬ Path.validUtf8 target [] then Prog.abort
      match ← Prog.attempt (FormatV1.writeSymlink inode entryInodeNumber target now') with
      | .error _ => pure (.error Errno.EIO)
      | .ok _ => do
        -- `write_symlink` has changed the inode it was given
        let inode := { inode with modified := now'.toNat, size := target.length }
        let attr ← fileAttrFromInode inode entryIno
        pure (.ok ⟨1, attr, 0⟩)

def readlink (ino : Nat) : FsM (Except Errno (List UInt8)) := do
  let inodeInd ← toV1InodeNumber ino
  match ← Prog.attempt (FormatV1.readSymlink inodeInd Block.zero) with
  | .error _ => pure (.error .ENOENT)
  | .ok (read, buf) => do
    if read > BLOCK_SIZE then Prog.abort
    pure (.ok (buf.slice 0 read))

/-! ## Directories -/

/-- An entry in a directory listing, with the offset of the entry after it. -/
structure DirItem where
  ino : Nat
  offset : Nat
  kind : FuseFileType
  name : List UInt8
  deriving DecidableEq

/-- A `ReplyDirectory`: the items it holds decide whether it has room for another one.
`add` stores an item that fits and returns true for one that does not. -/
abbrev ReplyDirectory := List DirItem → DirItem → Bool

/-- The loop of `readdir` from the `i`-th entry on. The name is the whole array. -/
def addEntries (full : ReplyDirectory) : List DirEntry → Nat → List DirItem → FsM (List DirItem)
  | [], _, reply => pure reply
  | entry :: rest, i, reply => do
    let ino ← fromV1InodeNumber entry.inode
    let item : DirItem := ⟨ino, i + 1, myToFuseFileType entry.fileType, entry.name⟩
    if full reply item then pure reply
    else addEntries full rest (i + 1) (reply ++ [item])

/-- The contents of a directory, from the entry at `offset` on. -/
def readdir (ino offset : Nat) (full : ReplyDirectory) : FsM (Except Errno (List DirItem)) := do
  let inodeInd ← toV1InodeNumber ino
  match ← Prog.attempt (FormatV1.getInode inodeInd) with
  | .error _ => pure (.error .ENOENT)
  | .ok inode => do
    if inode.fileType ≠ .directory then pure (.error .ENOTDIR)
    else do
      match ← Prog.attempt (FormatV1.getDirectoryFromInode inode inodeInd) with
      | .error _ => pure (.error .ENOENT)
      | .ok (_, entries) => do
        let reply ← addEntries full (entries.drop offset) offset []
        pure (.ok reply)

def lookup (parent : Nat) (name : List UInt8) : FsM (Except Errno Entry) := do
  let parentInodeInd ← toV1InodeNumber parent
  match ← Prog.attempt (FormatV1.getDirEntryInode parentInodeInd name) with
  | .error _ => pure (.error .ENOENT)
  | .ok none => pure (.error .ENOENT)
  | .ok (some entryInodeInd) => do
    match ← Prog.attempt (FormatV1.getInode entryInodeInd) with
    | .error _ => pure (.error .ENOENT)
    | .ok inode => do
      let ino ← fromV1InodeNumber entryInodeInd
      let attr ← fileAttrFromInode inode ino
      pure (.ok ⟨1, attr, 0⟩)

/-- The common body of `rmdir` and `unlink`. -/
def removeChild (fileType : FileType) (parent : Nat) (name : Str) (now : UInt64) : FsM Reply := do
  let parentInodeInd ← toV1InodeNumber parent
  if ¬ Path.validUtf8 name [] then pure (.error Errno.EIO)
  else do
    match ← Prog.attempt
        (FormatV1.deleteChild name parentInodeInd (some fileType) now) with
    | .error _ => pure (.error Errno.EIO)
    | .ok _ => pure (.ok ())

def rmdir (parent : Nat) (name : Str) (now : UInt64) : FsM Reply :=
  removeChild .directory parent name now

def unlink (parent : Nat) (name : Str) (now : UInt64) : FsM Reply :=
  removeChild .file parent name now

/-! ## Files -/

/-- Times are seconds since the epoch, as an `i64`. -/
inductive TimeOrNow where
  | now
  | specificTime (time : Int64)

/-- `duration_since(UNIX_EPOCH).unwrap().as_secs()`: a time before the epoch panics. -/
def secsSinceEpoch (time : Int64) : FsM Nat := do
  if time.toInt < 0 then Prog.abort
  pure time.toInt.toNat

def newModified (mtime : Option TimeOrNow) (now : UInt64) (inode : INode) : FsM Nat :=
  match mtime with
  | some .now => pure now.toNat
  | some (.specificTime time) => secsSinceEpoch time
  | none => pure inode.modified

def newCreated (ctime : Option Int64) (inode : INode) : FsM Nat :=
  match ctime with
  | some time => secsSinceEpoch time
  | none => pure inode.created

/-- The new size is only noted in the inode; its blocks stay as they are. -/
def setattr (ino : Nat) (mode : Option UInt32) (size : Option UInt64) (mtime : Option TimeOrNow)
    (ctime : Option Int64) (now : UInt64) : FsM (Except Errno FileAttr) := do
  let inodeInd ← toV1InodeNumber ino
  match ← Prog.attempt (FormatV1.getInode inodeInd) with
  | .error _ => pure (.error .ENOENT)
  | .ok inode => do
    let permissions := (mode.map fun mode => mode.toNat % U16).getD inode.permissions
    if size.isSome ∧ inode.fileType ≠ .file then pure (.error .ENOENT)
    else do
      let size := (size.map UInt64.toNat).getD inode.size
      let modified ← newModified mtime now inode
      let created ← newCreated ctime inode
      let inode := { inode with
        permissions := permissions, size := size, modified := modified, created := created }
      match ← Prog.attempt (FormatV1.writeInode inodeInd inode) with
      | .error _ => pure (.error .ENOENT)
      | .ok _ => do
        let attr ← fileAttrFromInode inode ino
        pure (.ok attr)

/-- `open`, with the file handle that it replies. -/
def openIno (ino : Nat) : FsM (Except Errno Nat) := do
  let inodeInd ← toV1InodeNumber ino
  match ← Prog.attempt (FormatV1.openFileFromInode inodeInd) with
  | .error _ => pure (.error .ENOENT)
  | .ok id => pure (.ok id)

def read (fh : Nat) (offset : UInt64) (size : Nat) : FsM (Except Errno (List UInt8)) := do
  match ← Prog.attempt (FormatV1.seek (fh % U32) (.start offset)) with
  | .error _ => pure (.error .ENOENT)
  | .ok _ => do
    match ← Prog.attempt (FormatV1.read (fh % U32) size) with
    | .error _ => pure (.error .ENOENT)
    | .ok buf => pure (.ok buf)

/-- The reply is the number of bytes that were written, as a `u32`. -/
def write (fh : Nat) (offset : UInt64) (data : List UInt8) (now : UInt64) :
    FsM (Except Errno Nat) := do
  match ← Prog.attempt (FormatV1.seek (fh % U32) (.start offset)) with
  | .error _ => pure (.error .ENOENT)
  | .ok _ => do
    match ← Prog.attempt (FormatV1.write (fh % U32) data now) with
    | .error _ => pure (.error .ENOENT)
    | .ok wrote => pure (.ok (wrote % U32))

end Fuse

end FerrisFS
