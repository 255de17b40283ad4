import FerrisFS.V1.Superblock
import FerrisFS.V1.Bitmap
import FerrisFS.V1.Directory

/-!
# The version 1 format

`formats/v1/format.rs` without the integrity checker: formatting, mounting and
the filesystem operations. Arithmetic overflow panics, as in a build with
overflow checks; the blocks under `debug_assertions`, which print, are left out.
With them the `entry.print()` at the end of `create` and `create_hardlink`
unwraps `from_utf8` on the stored name, and so panics for a name that was cut
inside a character. The clock is an argument: `now` is what `SystemTime::now`
answers in that call.

`create` and `create_child`, `create_hardlink` and `create_child_hardlink`,
`delete` and `delete_child` share their bodies in the source by copy; here
`createIn`, `linkIn` and `unlink` are those bodies.
-/

namespace FerrisFS

open Lib

/-- What an open file handle refers to. -/
structure FileMetadata where
  inode : Nat
  offset : Nat
  deriving DecidableEq

structure FormatV1 where
  superblock : Superblock
  inodeAllocator : BitmapAllocator
  blockAllocator : BitmapAllocator
  inodeHandler : INodeTableHandler
  directoryHandler : DirectoryHandler
  nextFileId : Nat
  openFiles : Nat → Option FileMetadata

/-- A mounted filesystem with its device. -/
structure FFS where
  device : MemoryDevice
  format : FormatV1

/-- Programs on a mounted filesystem. -/
abbrev FsM := Prog FSError FFS

/-- Run a device operation. -/
def onDevice {α : Type} (m : DevM α) : FsM α :=
  Prog.zoom FFS.device (fun d s => { s with device := d }) m

def getFormat : FsM FormatV1 := fun s => .ok s.format s

def modifyFormat (f : FormatV1 → FormatV1) : FsM Unit :=
  Prog.modify fun s => { s with format := f s.format }

/-- Serialize the superblock into a zeroed buffer and write it to block 0. -/
def writeSuperblock : FsM Unit := do
  let f ← getFormat
  onDevice (writeBlock 0 (f.superblock.serialize Block.zero))

inductive SeekFrom where
  | start (offset : UInt64)
  | fromEnd (offset : Int64)
  | current (offset : Int64)

namespace FormatV1

def INODE_DENSITY : Nat := 1 * 1024

/-! ## Formatting and mounting -/

/-- `u32::div_ceil`. -/
def divCeil (a b : Nat) : Nat := (a + (b - 1)) / b

/-- `Superblock::new`. -/
def newSuperblock {σ : Type} (totalBlocks inodeBitmapBlocks blockBitmapBlocks inodeTableBlocks :
    Nat) : Prog FSError σ Superblock := do
  let blockBitmapStart ← add32 1 inodeBitmapBlocks
  let inodeTableStart ← add32 blockBitmapStart blockBitmapBlocks
  let dataStart ← add32 inodeTableStart inodeTableBlocks
  let freeInodes ← mul32 inodeTableBlocks INode.inodesPerBlock
  let freeData ← Prog.checkedSub totalBlocks dataStart
  pure
    { magic := MAGIC
      version := 1
      blockSize := BLOCK_SIZE
      totalBlocks := totalBlocks
      inodeBitmapStart := 1
      inodeBitmapBlocks := inodeBitmapBlocks
      blockBitmapStart := blockBitmapStart
      blockBitmapBlocks := blockBitmapBlocks
      inodeTableStart := inodeTableStart
      inodeTableBlocks := inodeTableBlocks
      dataStart := dataStart
      rootInode := 0
      freeInodes := freeInodes
      freeData := freeData }

/-- Write the same buffer to each of the blocks. -/
def fillBlocks (buf : Block) : List Nat → DevM Unit
  | [] => pure ()
  | i :: rest => do
    writeBlock i buf
    fillBlocks buf rest

def format (now : UInt64) : DevM Unit := do
  let device ← Prog.get
  let blocks := device.blockCount
  let bitsPerBlock := 8 * BLOCK_SIZE
  let bytes ← mul32 BLOCK_SIZE blocks
  let inodeCount := divCeil bytes INODE_DENSITY
  let inodeTableBlocks := divCeil inodeCount INode.inodesPerBlock
  let inodeBitmapBlocks := divCeil inodeTableBlocks bitsPerBlock
  let blockBitmapBlocks := divCeil blocks bitsPerBlock
  let sb ← newSuperblock blocks inodeBitmapBlocks blockBitmapBlocks inodeTableBlocks
  -- create root node
  let inodeHandler : INodeTableHandler := ⟨sb.inodeTableStart, inodeTableBlocks, sb.dataStart⟩
  let directoryHandler : DirectoryHandler := ⟨sb.dataStart, sb.rootInode⟩
  let root ← inodeHandler.addBlock (INode.empty .directory (U16 - 1) now.toNat) 0 []
  let root := { root with size := BLOCK_SIZE * root.blocks }
  -- zero inode bitmap and data bitmap
  fillBlocks Block.zero (List.range' (sb.inodeBitmapStart + 1) sb.inodeBitmapBlocks)
  fillBlocks Block.zero (List.range' (sb.blockBitmapStart + 1) sb.blockBitmapBlocks)
  -- root directory
  let buf := Block.zero.splice 0 [1]
  writeBlock sb.inodeBitmapStart buf
  writeBlock sb.blockBitmapStart buf
  let freeData ← Prog.checkedSub sb.freeData 1
  let freeInodes ← Prog.checkedSub sb.freeInodes 1
  let sb := { sb with freeData := freeData, freeInodes := freeInodes }
  inodeHandler.writeInode 0 root
  directoryHandler.writeDirectoryWithInode (newDirectory 0 0) root inodeHandler
  writeBlock 0 (sb.serialize buf)

def mount : DevM FormatV1 := do
  let buf ← readBlock 0
  let sb := Superblock.deserialize buf
  if sb.magic ≠ MAGIC then Prog.fail (.invalidMagic MAGIC sb.magic)
  let dataBlocks ← Prog.checkedSub sb.totalBlocks sb.inodeBitmapBlocks
  let dataBlocks ← Prog.checkedSub dataBlocks sb.inodeTableBlocks
  let dataBlocks ← Prog.checkedSub dataBlocks sb.blockBitmapBlocks
  let dataBlocks ← Prog.checkedSub dataBlocks 1
  let inodes ← mul32 sb.inodeTableBlocks INode.inodesPerBlock
  pure
    { superblock := sb
      inodeAllocator := BitmapAllocator.new sb.inodeBitmapStart sb.inodeBitmapBlocks inodes
      blockAllocator := BitmapAllocator.new sb.blockBitmapStart sb.blockBitmapBlocks dataBlocks
      inodeHandler := ⟨sb.inodeTableStart, sb.inodeTableBlocks, sb.dataStart⟩
      directoryHandler := ⟨sb.dataStart, sb.rootInode⟩
      nextFileId := 0
      openFiles := fun _ => none }

/-! ## Allocation -/

/-- Allocates inodes and data blocks, all of them or none. The cached counts are
checked first; when the bitmap then yields fewer, the count is overwritten with
what was found. -/
def allocate (inodes data : Nat) : FsM (List Nat × List Nat) := do
  let f ← getFormat
  let sb := f.superblock
  if sb.freeInodes < inodes then
    Prog.fail (.storageFull .inodeTableFull inodes sb.freeInodes)
  if sb.freeData < data then
    Prog.fail (.storageFull .dataRegionFull data sb.freeData)
  let inodeInds ← onDevice (f.inodeAllocator.findFree inodes)
  let dataInds ← onDevice (f.blockAllocator.findFree data)
  if inodeInds.length < inodes then do
    modifyFormat fun f => { f with superblock := { sb with freeInodes := inodeInds.length } }
    Prog.fail (.storageFull .inodeTableFull inodes inodeInds.length)
  if dataInds.length < data then do
    modifyFormat fun f => { f with superblock := { sb with freeData := dataInds.length } }
    Prog.fail (.storageFull .dataRegionFull data dataInds.length)
  let inodeAllocator ← onDevice (f.inodeAllocator.allocate inodeInds)
  modifyFormat fun f => { f with inodeAllocator := inodeAllocator }
  let blockAllocator ← onDevice (f.blockAllocator.allocate dataInds)
  modifyFormat fun f => { f with blockAllocator := blockAllocator }
  let freeData ← Prog.checkedSub sb.freeData data
  let freeInodes ← Prog.checkedSub sb.freeInodes inodes
  modifyFormat fun f =>
    { f with superblock := { sb with freeData := freeData, freeInodes := freeInodes } }
  writeSuperblock
  pure (inodeInds, dataInds)

/-! ## Creating files, directories, symlinks and hard links -/

/-- Put the entry into the parent: at the place `can_fit` found, or in a new
block, taken with its pointer blocks from `fresh`. -/
def writeEntry (parentInode : INode) (entry : DirEntry) (fit : Option (Nat × Nat))
    (fresh : List Nat) : FsM INode := do
  let f ← getFormat
  match fit with
  | none => do
    let entryBlock ← Prog.unwrap fresh[0]?
    let count := INodeTableHandler.blocksNecessaryToGrow parentInode
    if fresh.length < 1 + count then Prog.abort
    let parentInode ←
      onDevice (f.inodeHandler.addBlock parentInode entryBlock ((fresh.drop 1).take count))
    onDevice (f.directoryHandler.addEntryGrow entry entryBlock)
    let size ← Prog.checkedAdd U64 parentInode.size BLOCK_SIZE
    pure { parentInode with size := size }
  | some (entryBlock, entryOffset) => do
    onDevice (f.directoryHandler.addEntryHere entry entryBlock entryOffset)
    pure parentInode

/-- Content blocks of a new inode. -/
def fileBlocks : FileType → Nat
  | .directory => 1
  | .symlink => 1
  | _ => 0

/-- The new inode, with its first content block if the type has one. -/
def newInode (fileType : FileType) (allocatedData : List Nat) (now : UInt64) : FsM INode := do
  let f ← getFormat
  let inode := INode.empty fileType (U16 - 1) now.toNat
  if fileType = .directory ∨ fileType = .symlink then do
    let block ← Prog.unwrap allocatedData[0]?
    let inode ← onDevice (f.inodeHandler.addBlock inode block [])
    pure { inode with size := if fileType = .directory then BLOCK_SIZE * inode.blocks else 0 }
  else pure inode

/-- The common body of `create` and `create_child`, from the name collision check
on. -/
def createIn (parentInodeInd : Nat) (parentInode : INode) (fileType : FileType)
    (filename : Str) (onExists : DirEntry → FSError) (now : UInt64) : FsM (INode × Nat) := do
  let f ← getFormat
  let entry := DirEntry.new INVALID_ADDRESS fileType filename
  let existing ←
    onDevice (f.directoryHandler.findEntry parentInode f.inodeHandler entry.name)
  match existing with
  | some (e, _, _) => Prog.fail (onExists e)
  | none => do
    if fileType = .unknown then Prog.abort
    let fit ← onDevice (f.directoryHandler.canFit parentInode f.inodeHandler entry)
    let dataToAlloc :=
      if fit.isSome then fileBlocks fileType
      else fileBlocks fileType + 1 + INodeTableHandler.blocksNecessaryToGrow parentInode
    let (allocatedInodes, allocatedData) ← allocate 1 dataToAlloc
    let inodeIndex ← Prog.unwrap allocatedInodes[0]?
    let inode ← newInode fileType allocatedData now
    onDevice (f.inodeHandler.writeInode inodeIndex inode)
    if fileType = .directory then
      onDevice (f.directoryHandler.writeDirectoryWithInode
        (newDirectory inodeIndex parentInodeInd) inode f.inodeHandler)
    let parentInode ← writeEntry parentInode { entry with inode := inodeIndex } fit
      (allocatedData.drop (fileBlocks fileType))
    onDevice (f.inodeHandler.writeInode parentInodeInd
      { parentInode with modified := now.toNat })
    pure (inode, inodeIndex)

/-- Creates an empty directory/file/symlink. -/
def create (path : Str) (fileType : FileType) (now : UInt64) : FsM (INode × Nat) := do
  if fileType = .unknown then Prog.fail (.invalidInput .unknownFileType)
  let (parent, filename) ← Prog.unwrap (Path.split path)
  let f ← getFormat
  let r ← onDevice
    (f.directoryHandler.resolve parent f.superblock.rootInode f.inodeHandler true)
  createIn r.targetInodeIndex r.targetInode fileType filename
    (fun _ => .alreadyExists path) now

/-- Creates an empty directory/file/symlink as children of the given inode. -/
def createChild (fileType : FileType) (filename : Str) (parentInodeInd : Nat) (now : UInt64) :
    FsM (INode × Nat) := do
  let f ← getFormat
  let allocated ← onDevice (f.inodeAllocator.isAllocated parentInodeInd)
  if ¬ allocated then Prog.fail (.directoryDoesNotExist (natStr parentInodeInd))
  let parentInode ← onDevice (f.inodeHandler.readInode parentInodeInd)
  if parentInode.fileType ≠ .directory then
    Prog.fail (.notADirectory (natStr parentInodeInd))
  createIn parentInodeInd parentInode fileType filename
    (fun e => .alreadyExists (natStr e.inode)) now

/-- Overwrites the contents of the symlink. A target longer than a block panics. -/
def writeSymlink (inode : INode) (index : Nat) (target : Str) (now : UInt64) :
    FsM Unit := do
  let f ← getFormat
  let dataBlock ← add32 f.superblock.dataStart (inode.direct 0)
  if target.length > BLOCK_SIZE then Prog.abort
  onDevice (writeBlock dataBlock (Block.zero.splice 0 target))
  onDevice (f.inodeHandler.writeInode index
    { inode with modified := now.toNat, size := target.length })

/-- Points the symlink at `path` to another target. -/
def editSymlink (path target : Str) (now : UInt64) : FsM Unit := do
  let f ← getFormat
  let r ← onDevice (f.directoryHandler.resolve (Path.components path)
    f.superblock.rootInode f.inodeHandler false)
  if r.targetInode.fileType ≠ .symlink then Prog.fail (.notASymlink path)
  writeSymlink r.targetInode r.targetInodeIndex target now

def createFile (path : Str) (now : UInt64) : FsM Unit := do
  let _ ← create path .file now

def createDirectory (path : Str) (now : UInt64) : FsM Unit := do
  let _ ← create path .directory now

def createSymlink (path target : Str) (now now' : UInt64) : FsM Unit := do
  let (inode, index) ← create path .symlink now
  writeSymlink inode index target now'

/-- The common body of `create_hardlink` and `create_child_hardlink`, from the
name collision check on. -/
def linkIn (inode : INode) (inodeInd : Nat) (dst filename : Str) (parentInode : INode)
    (parentInodeInd : Nat) (now : UInt64) : FsM Unit := do
  let f ← getFormat
  let entry := DirEntry.new inodeInd .file filename
  let existing ←
    onDevice (f.directoryHandler.findEntry parentInode f.inodeHandler entry.name)
  if existing.isSome then Prog.fail (.alreadyExists dst)
  let fit ← onDevice (f.directoryHandler.canFit parentInode f.inodeHandler entry)
  let dataToAlloc :=
    if fit.isSome then 0 else 1 + INodeTableHandler.blocksNecessaryToGrow parentInode
  let (_, allocatedData) ← allocate 0 dataToAlloc
  let parentInode ← writeEntry parentInode entry fit allocatedData
  let links ← Prog.checkedAdd U16 inode.links 1
  onDevice (f.inodeHandler.writeInode inodeInd { inode with links := links })
  onDevice (f.inodeHandler.writeInode parentInodeInd
    { parentInode with modified := now.toNat })

def createHardlink (src dst : Str) (now : UInt64) : FsM Unit := do
  let f ← getFormat
  let source ← onDevice (f.directoryHandler.resolve (Path.components src)
    f.superblock.rootInode f.inodeHandler true)
  if source.targetInode.fileType ≠ .file then Prog.fail (.notAFile src)
  let (parent, filename) ← Prog.unwrap (Path.split dst)
  let destination ← onDevice
    (f.directoryHandler.resolve parent f.superblock.rootInode f.inodeHandler true)
  linkIn source.targetInode source.targetInodeIndex dst filename destination.targetInode
    destination.targetInodeIndex now

/-- The inodes are the caller's: it has read them with `get_inode`. -/
def createChildHardlink (inode : INode) (inodeInd : Nat) (dst : Str) (dstParentInode : INode)
    (dstParentInodeInd : Nat) (now : UInt64) : FsM Unit := do
  let (_, filename) ← Prog.unwrap (Path.split dst)
  linkIn inode inodeInd dst filename dstParentInode dstParentInodeInd now

/-! ## Deleting -/

/-- The callback of the emptiness check: stop at a name other than `.` and `..`. -/
def emptyCallback : DirectoryHandler.Callback Bool := fun entry _ _ empty =>
  if entry.isFree then some (empty, false)
  else if entry.nameLen > 2 ∨ entry.name.getD 0 0 ≠ dot ∨
      (entry.nameLen = 2 ∧ entry.name.getD 1 0 ≠ dot) then
    some (false, true)
  else some (empty, false)

/-- The content blocks of an inode, in order. -/
def collectBlocks (h : INodeTableHandler) (inode : INode) : List Nat → DevM (List Nat)
  | [] => pure []
  | i :: rest => do
    let block ← h.getBlock inode i
    let blocks ← collectBlocks h inode rest
    pure (block :: blocks)

/-- The common body of `delete` and `delete_child`, from the emptiness check on:
drop one link or deallocate, then free the directory entry. -/
def unlink (fileInode : INode) (fileInodeInd : Nat) (parentInode : INode)
    (parentInodeInd entryBlock entryOffset : Nat) (notEmpty : FSError) (now : UInt64) :
    FsM Unit := do
  let f ← getFormat
  if fileInode.fileType = .directory then do
    let empty ←
      onDevice (f.directoryHandler.iterate fileInode f.inodeHandler emptyCallback true)
    if ¬ empty then Prog.fail notEmpty
  if fileInode.links > 1 then
    -- if the file has multiple links, just decrement the counter
    onDevice (f.inodeHandler.writeInode fileInodeInd
      { fileInode with links := fileInode.links - 1 })
  else do
    let dataToDealloc ←
      onDevice (collectBlocks f.inodeHandler fileInode (List.range fileInode.blocks))
    onDevice (f.blockAllocator.deallocate dataToDealloc)
    onDevice (f.inodeAllocator.deallocate [fileInodeInd])
    let freeData ← add32 f.superblock.freeData dataToDealloc.length
    let freeInodes ← add32 f.superblock.freeInodes 1
    modifyFormat fun f => { f with
      superblock := { f.superblock with freeData := freeData, freeInodes := freeInodes } }
    writeSuperblock
  let _ ← onDevice (f.directoryHandler.freeRegion entryBlock entryOffset)
  onDevice (f.inodeHandler.writeInode parentInodeInd
    { parentInode with modified := now.toNat })

def delete (path : Str) (now : UInt64) : FsM Unit := do
  let f ← getFormat
  let r ← onDevice (f.directoryHandler.resolve (Path.components path)
    f.superblock.rootInode f.inodeHandler false)
  if r.targetInodeIndex = f.superblock.rootInode then Prog.fail (.deletingRoot path)
  let parentInode ← onDevice (f.inodeHandler.readInode r.parentInodeIndex)
  unlink r.targetInode r.targetInodeIndex parentInode r.parentInodeIndex
    r.dirEntryBlockIndex r.dirEntryOffset (.directoryNotEmpty path) now

/-- The error for a child of another type than the caller asked for. -/
def typeError (fileType : FileType) (parentInodeInd : Nat) : FSError :=
  match fileType with
  | .directory => .notADirectory (natStr parentInodeInd)
  | .file => .notAFile (natStr parentInodeInd)
  | .symlink => .notASymlink (natStr parentInodeInd)
  | .unknown => .invalidInput .unknownFileType

def deleteChild (filename : Str) (parentInodeInd : Nat) (fileType : Option FileType)
    (now : UInt64) : FsM Unit := do
  if filename = [dot] ∨ filename = [dot, dot] then
    Prog.fail (.invalidInput .fileIsSelfOrParent)
  let f ← getFormat
  let allocated ← onDevice (f.inodeAllocator.isAllocated parentInodeInd)
  if ¬ allocated then Prog.fail (.directoryDoesNotExist (natStr parentInodeInd))
  let parentInode ← onDevice (f.inodeHandler.readInode parentInodeInd)
  if parentInode.fileType ≠ .directory then
    Prog.fail (.notADirectory (natStr parentInodeInd))
  let existing ← onDevice (f.directoryHandler.findEntry parentInode f.inodeHandler filename)
  match existing with
  | none => Prog.fail (.doesNotExist (natStr parentInodeInd))
  | some (dirEntry, entryBlock, entryOffset) => do
    let fileInode ← onDevice (f.inodeHandler.readInode dirEntry.inode)
    match fileType with
    | some t =>
      if t ≠ fileInode.fileType then Prog.fail (typeError t parentInodeInd)
    | none => pure ()
    unlink fileInode dirEntry.inode parentInode parentInodeInd entryBlock entryOffset
      (.directoryNotEmpty (natStr parentInodeInd)) now

/-! ## Looking around -/

/-- If the file exists, returns true and its type, otherwise false and nothing. -/
def fileExists (path : Str) : FsM (Bool × Option FileType) := do
  let f ← getFormat
  let res ← Prog.attempt (onDevice (f.directoryHandler.resolve (Path.components path)
    f.superblock.rootInode f.inodeHandler true))
  match res with
  | .ok r => pure (true, some r.targetInode.fileType)
  | .error (.doesNotExist _) => pure (false, none)
  | .error e => Prog.fail e

/-- The inode and the entries of the directory at `path`. -/
def getDirectory (path : Str) (includeFree : Bool) : FsM (Nat × List DirEntry) := do
  let f ← getFormat
  let r ← onDevice (f.directoryHandler.resolve (Path.components path)
    f.superblock.rootInode f.inodeHandler true)
  if r.targetInode.fileType ≠ .directory then Prog.fail (.notADirectory path)
  let entries ←
    onDevice (f.directoryHandler.getEntries r.targetInode f.inodeHandler includeFree)
  pure (r.targetInodeIndex, entries)

/-- Names and types of the entries. A name longer than its array panics, and one that
is not UTF-8 is a `todo!()`. -/
def contentEntries : List DirEntry → FsM (List (Str × FileType))
  | [] => pure []
  | e :: rest => do
    if e.nameLen > DirEntry.MAX_NAME then Prog.abort
    if ¬ Path.validUtf8 (e.name.take e.nameLen) [] then Prog.abort
    let entries ← contentEntries rest
    pure ((e.name.take e.nameLen, e.fileType) :: entries)

def getDirectoryContent (path : Str) : FsM (List (Str × FileType)) := do
  let (_, entries) ← getDirectory path false
  contentEntries entries

/-! ## Inodes -/

def getInode (index : Nat) : FsM INode := do
  let f ← getFormat
  let allocated ← onDevice (f.inodeAllocator.isAllocated index)
  if ¬ allocated then Prog.fail (.doesNotExist (natStr index))
  onDevice (f.inodeHandler.readInode index)

def writeInode (inodeInd : Nat) (inode : INode) : FsM Unit := do
  let f ← getFormat
  let allocated ← onDevice (f.inodeAllocator.isAllocated inodeInd)
  if ¬ allocated then Prog.fail (.doesNotExist (natStr inodeInd))
  onDevice (f.inodeHandler.writeInode inodeInd inode)

/-- The entries of a directory that the caller has read already. -/
def getDirectoryFromInode (inode : INode) (inodeInd : Nat) : FsM (Nat × List DirEntry) := do
  if inode.fileType ≠ .directory then
    Prog.fail (.notADirectory [117, 110, 107, 110, 111, 119, 110])
  let f ← getFormat
  let entries ← onDevice (f.directoryHandler.getEntries inode f.inodeHandler false)
  pure (inodeInd, entries)

/-- The inode that the directory names `name`. -/
def getDirEntryInode (dirInodeInd : Nat) (name : List UInt8) : FsM (Option Nat) := do
  let f ← getFormat
  let allocated ← onDevice (f.inodeAllocator.isAllocated dirInodeInd)
  if ¬ allocated then Prog.fail (.doesNotExist (natStr dirInodeInd))
  let dirInode ← onDevice (f.inodeHandler.readInode dirInodeInd)
  let entry ← onDevice (f.directoryHandler.findEntry dirInode f.inodeHandler name)
  pure (entry.map fun e => e.1.inode)

/-- The target of a symlink, in a buffer of one block. An empty symlink leaves the buffer
alone. -/
def readSymlink (inodeInd : Nat) (buf : Block) : FsM (Nat × Block) := do
  let f ← getFormat
  let allocated ← onDevice (f.inodeAllocator.isAllocated inodeInd)
  if ¬ allocated then Prog.fail (.doesNotExist (natStr inodeInd))
  let inode ← onDevice (f.inodeHandler.readInode inodeInd)
  if inode.fileType ≠ .symlink then Prog.fail (.notASymlink (natStr inodeInd))
  if inode.size = 0 then pure (0, buf)
  else do
    let buf ← onDevice (readBlock (inode.direct 0))
    pure (inode.size, buf)

/-! ## Open files -/

def openFile (path : Str) : FsM Nat := do
  let f ← getFormat
  let r ← onDevice (f.directoryHandler.resolve (Path.components path)
    f.superblock.rootInode f.inodeHandler true)
  if r.targetInode.fileType ≠ .file then Prog.fail (.notAFile path)
  let next ← add32 f.nextFileId 1
  modifyFormat fun f => { f with
    nextFileId := next
    openFiles := Function.update f.openFiles f.nextFileId (some ⟨r.targetInodeIndex, 0⟩) }
  pure f.nextFileId

/-- `open_file` for a caller that knows the inode. -/
def openFileFromInode (fileInodeInd : Nat) : FsM Nat := do
  let f ← getFormat
  let allocated ← onDevice (f.inodeAllocator.isAllocated fileInodeInd)
  if ¬ allocated then Prog.fail (.doesNotExist (natStr fileInodeInd))
  let fileInode ← onDevice (f.inodeHandler.readInode fileInodeInd)
  if fileInode.fileType ≠ .file then Prog.fail (.notAFile (natStr fileInodeInd))
  let next ← add32 f.nextFileId 1
  modifyFormat fun f => { f with
    nextFileId := next
    openFiles := Function.update f.openFiles f.nextFileId (some ⟨fileInodeInd, 0⟩) }
  pure f.nextFileId

def closeFile (id : Nat) : FsM Unit :=
  modifyFormat fun f => { f with openFiles := Function.update f.openFiles id none }

/-- The handle's metadata, or the error for a handle that is not open. -/
def handle (id : Nat) : FsM FileMetadata := do
  let f ← getFormat
  match f.openFiles id with
  | some m => pure m
  | none => Prog.fail (.fileNotOpen id)

def setOffset (id : Nat) (m : FileMetadata) (offset : Nat) : FsM Unit :=
  modifyFormat fun f => { f with
    openFiles := Function.update f.openFiles id (some { m with offset := offset }) }

/-- The address check of `read` and `write` on one content block. -/
def checkAddress (inode : INode) (block blockInd maxIndex : Nat) : FsM Unit := do
  if blockInd = INVALID_ADDRESS then
    Prog.fail (.invalidINode (.invalidDirect (block % U16) blockInd) inode.size inode.blocks)
  if blockInd > maxIndex then
    Prog.fail
      (.invalidINode (.directOOB (block % U16) blockInd maxIndex) inode.size inode.blocks)

/-- The loop of `read`; every round reads at least one byte, so `len` rounds and
the last test suffice. -/
def readLoop (id : Nat) (inode : INode) (len : Nat) :
    Nat → Nat → Nat → List UInt8 → FsM (List UInt8)
  | 0, _, _, out => pure out
  | fuel + 1, block, inBlockOffset, out => do
    let m ← handle id
    if out.length < len ∧ m.offset < inode.size then do
      let f ← getFormat
      let blockInd ← onDevice (f.inodeHandler.getBlock inode block)
      checkAddress inode block blockInd f.blockAllocator.maxIndex
      let address ← add32 f.superblock.dataStart blockInd
      let buf ← onDevice (readBlock address)
      let toRead := min (min (BLOCK_SIZE - inBlockOffset) (len - out.length))
        (inode.size - m.offset)
      setOffset id m (m.offset + toRead)
      readLoop id inode len fuel (block + 1) 0 (out ++ buf.slice inBlockOffset toRead)
    else pure out

/-- Returns the bytes that were read, at most `len`. -/
def read (id len : Nat) : FsM (List UInt8) := do
  let m ← handle id
  if len = 0 then pure []
  else do
    let f ← getFormat
    let inode ← onDevice (f.inodeHandler.readInode m.inode)
    if inode.blocks * BLOCK_SIZE < inode.size then
      Prog.fail (.invalidINode .sizeGreaterThanAllocatedRegion inode.size inode.blocks)
    readLoop id inode len (len + 1) ((m.offset / BLOCK_SIZE) % U32) (m.offset % BLOCK_SIZE) []

/-- Zero the given data blocks. -/
def zeroBlocks (dataStart : Nat) : List Nat → DevM Unit
  | [] => pure ()
  | i :: rest => do
    let address ← add32 dataStart i
    writeBlock address Block.zero
    zeroBlocks dataStart rest

/-- The growth part of `write`: the pointer blocks, then as many data blocks as
the device yields, zeroed and added to the inode. -/
def growForWrite (inode : INode) (finalBlock : Nat) : FsM INode := do
  let f ← getFormat
  let toAllocData ← add32 (finalBlock - inode.blocks) 1
  let toAllocMeta := INodeTableHandler.blocksNecessaryToGrowN inode toAllocData
  -- allocate metadata
  let metadataInds ← onDevice (f.blockAllocator.findFree toAllocMeta)
  if metadataInds.length < toAllocMeta then
    Prog.fail (.storageFull .dataRegionFull toAllocMeta metadataInds.length)
  let blockAllocator ← onDevice (f.blockAllocator.allocate metadataInds)
  modifyFormat fun f => { f with blockAllocator := blockAllocator }
  -- allocate data, for now assume that no operation can fail
  let dataInds ← onDevice (blockAllocator.findFree toAllocData)
  if dataInds = [] then do
    -- return only if empty, we still want to write all we can
    onDevice (blockAllocator.deallocate metadataInds)
    Prog.fail (.storageFull .dataRegionFull toAllocData dataInds.length)
  let blockAllocator ← onDevice (blockAllocator.allocate dataInds)
  modifyFormat fun f => { f with blockAllocator := blockAllocator }
  -- zero all new blocks, since any write could fail
  onDevice (zeroBlocks f.superblock.dataStart dataInds)
  let inode ← onDevice (f.inodeHandler.addBlocks inode dataInds metadataInds)
  let used ← add32 dataInds.length toAllocMeta
  let freeData ← Prog.checkedSub f.superblock.freeData used
  modifyFormat fun f => { f with superblock := { f.superblock with freeData := freeData } }
  pure inode

/-- The loop of `write`; `rest` is the part of the buffer not yet written. Every
round writes at least one byte. -/
def writeLoop (id : Nat) (inode : INode) :
    Nat → Nat → Nat → Block → List UInt8 → Nat → FsM Nat
  | 0, _, _, _, _, wrote => pure wrote
  | fuel + 1, block, inBlockOffset, deviceBuf, rest, wrote =>
    if rest ≠ [] ∧ block < inode.blocks then do
      let f ← getFormat
      let m ← handle id
      let blockInd ← onDevice (f.inodeHandler.getBlock inode block)
      checkAddress inode block blockInd f.blockAllocator.maxIndex
      let address ← add32 f.superblock.dataStart blockInd
      let toWrite := min (BLOCK_SIZE - inBlockOffset) rest.length
      -- first and last writes might start/end inside a block, we must read the rest
      let deviceBuf ← if toWrite < BLOCK_SIZE then onDevice (readBlock address)
        else pure deviceBuf
      let deviceBuf := deviceBuf.splice inBlockOffset (rest.take toWrite)
      onDevice (writeBlock address deviceBuf)
      setOffset id m (m.offset + toWrite)
      writeLoop id inode fuel (block + 1) 0 deviceBuf (rest.drop toWrite) (wrote + toWrite)
    else pure wrote

/-- Returns the number of bytes written. -/
def write (id : Nat) (buf : List UInt8) (now : UInt64) : FsM Nat := do
  let m ← handle id
  if buf = [] then pure 0
  else do
    let f ← getFormat
    let inode ← onDevice (f.inodeHandler.readInode m.inode)
    let last ← Prog.checkedAdd U64 m.offset buf.length
    let finalBlock := ((last - 1) / BLOCK_SIZE) % U32
    let allocated : Bool := decide (finalBlock ≥ inode.blocks)
    let inode ← if allocated then growForWrite inode finalBlock else pure inode
    let wrote ← writeLoop id inode (buf.length + 1) ((m.offset / BLOCK_SIZE) % U32)
      (m.offset % BLOCK_SIZE) Block.zero buf 0
    let m ← handle id
    onDevice (f.inodeHandler.writeInode m.inode
      { inode with size := max inode.size m.offset, modified := now.toNat })
    if allocated then writeSuperblock
    pure wrote

/-- `x as i64` of a `u64`. -/
def toI64 (x : Nat) : Int := if x < 2 ^ 63 then x else (x : Int) - 2 ^ 64

/-- `(base as i64 + offset).max(0) as u64`: an `i64` overflow panics. -/
def seekSum {σ : Type} (base : Nat) (offset : Int64) : Prog FSError σ Nat :=
  let sum := toI64 base + offset.toInt
  if -2 ^ 63 ≤ sum ∧ sum < 2 ^ 63 then pure (max sum 0).toNat else Prog.abort

def seek (id : Nat) (pos : SeekFrom) : FsM Nat := do
  let m ← handle id
  let f ← getFormat
  let offset ← match pos with
    | .start offset => pure offset.toNat
    | .fromEnd offset => do
      let inode ← onDevice (f.inodeHandler.readInode m.inode)
      seekSum inode.size offset
    | .current offset => seekSum m.offset offset
  setOffset id m offset
  pure offset

/-- Reduces the size of the file; no block is deallocated. -/
def truncate (id : Nat) (size : UInt64) (now : UInt64) : FsM Unit := do
  let m ← handle id
  let f ← getFormat
  let inode ← onDevice (f.inodeHandler.readInode m.inode)
  if size.toNat < inode.size then
    onDevice (f.inodeHandler.writeInode m.inode
      { inode with modified := now.toNat, size := size.toNat })

end FormatV1

end FerrisFS
