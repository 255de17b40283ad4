import FerrisFS.V1.Format

/-!
# The integrity checker

`formats/v1/integrity_checker_errors.rs`, `iterate_block_unchecked` of the
directory handler and `check_integrity` with its helpers. The checker does not
change the device: what it carries along is the list of errors, the inodes and
blocks it has visited, and the children it has still to look at.
-/

namespace FerrisFS

open Lib

/-! ## Errors -/

inductive UnallocatedDataData where
  | inode (ind : Nat)
  | data (ind inode : Nat)
  deriving DecidableEq, Repr

inductive InvalidDirectoryEntryData where
  /-- unknown file type, sign of corruption -/
  | fileTypeUnknown (dirInode entryInode block offset : Nat)
  /-- the last entry in the block overflows in the next block -/
  | overflow (dirInode entryInode block offset : Nat)
  /-- name_len greater than the maximum, or not what the record length says -/
  | nameOverflow (dirInode entryInode block offset nameLen : Nat)
  /-- two adjacent free regions are not allowed, even if not problematic -/
  | adjacentFree (dirInode block firstOffset firstSize secondSize : Nat)
  /-- inode pointer is INVALID_ADDRESS -/
  | invalidAddress
  /-- inode pointer points out of the addressable region -/
  | outOfBoundsAddress
  deriving DecidableEq, Repr

inductive InvalidDirectoryStructureData where
  | missingSelf
  | missingParent
  deriving DecidableEq, Repr

inductive UnreachableDataData where
  | inode (ind : Nat)
  | data (ind : Nat)
  deriving DecidableEq, Repr

inductive InconsistentMetadataData where
  | freeInodes (actual expected : Nat)
  | freeData (actual expected : Nat)
  deriving DecidableEq, Repr

inductive InvalidInodeData where
  /-- unknown file type, sign of corruption -/
  | fileTypeUnknown (inode : Nat)
  /-- pointer is INVALID_ADDRESS -/
  | invalidAddress (inode directInd : Nat)
  /-- pointer points out of the addressable region -/
  | outOfBoundsAddress (inode directInd : Nat)
  deriving DecidableEq, Repr

inductive V1IntegrityError where
  /-- block that is referenced but marked as free -/
  | unallocatedData (reason : UnallocatedDataData)
  /-- data block that is in the direct/indirect of two or more inodes -/
  | doubleReference (block : Nat)
  /-- structurally wrong directory entry -/
  | invalidDirectoryEntry (reason : InvalidDirectoryEntryData)
  /-- structurally wrong directory (missing . or .. as first two entries) -/
  | invalidDirectoryStructure (reason : InvalidDirectoryStructureData)
  /-- allocated blocks that cannot be accessed with a filename -/
  | unreachableData (reason : UnreachableDataData)
  /-- stuff like free_inodes in the superblock doesn't match the evidence -/
  | inconsistentMetadata (reason : InconsistentMetadataData)
  /-- structurally wrong inode -/
  | invalidInode (reason : InvalidInodeData)
  /-- the inode and the dir entry disagree on the file type -/
  | mismatchedFileType (actual expected : FileType) (inode : Nat)
  deriving DecidableEq, Repr

/-! ## Visited inodes and blocks -/

/-- The bits of the byte vector, in order, and how many of them are set. -/
structure IntegrityCheckerBitmap where
  bitmap : List Bool
  count : Nat
  deriving DecidableEq

namespace IntegrityCheckerBitmap

/-- `bits.div_ceil(8)` bytes. -/
def new (bits : Nat) : IntegrityCheckerBitmap :=
  ⟨List.replicate (8 * FormatV1.divCeil bits 8) false, 0⟩

/-- A bit past the last byte panics. -/
def visited {σ : Type} (v : IntegrityCheckerBitmap) (bit : Nat) : Prog FSError σ Bool :=
  Prog.unwrap v.bitmap[bit]?

/-- Returns whether it was already visited or not. -/
def visit {σ : Type} (v : IntegrityCheckerBitmap) (bit : Nat) :
    Prog FSError σ (Bool × IntegrityCheckerBitmap) := do
  let seen ← v.visited bit
  if seen then pure (true, v)
  else pure (false, ⟨v.bitmap.set bit true, v.count + 1⟩)

end IntegrityCheckerBitmap

/-! ## Directory blocks -/

namespace DirectoryHandler

/-- The loop of `iterate_block_unchecked`. Offsets grow with each record of a length
other than zero, so `BLOCK_SIZE` rounds suffice for these. A record of length zero at
which the callback does not stop is parsed again and again; the source never leaves
the loop, and here it is a panic. -/
def iterateUnchecked {σ α : Type} (callback : Callback α) (buf : Block) (block : Nat) :
    Nat → Nat → α → Prog FSError σ α
  | 0, _, _ => Prog.abort
  | fuel + 1, offset, acc =>
    if offset < BLOCK_SIZE then do
      let parsed ← DirEntry.deserialize buf offset
      let res ← Prog.unwrap (callback parsed block offset acc)
      if res.2 then pure res.1
      else iterateUnchecked callback buf block fuel (offset + parsed.recordLen) res.1
    else pure acc

/-- Iterates over the entries in the provided block, without checking if the last entry
overflows to the next block. -/
def iterateBlockUnchecked {α : Type} (h : DirectoryHandler) (block : Nat)
    (callback : Callback α) (acc : α) : DevM α := do
  let absolute ← add32 block h.dataStart
  let buf ← readBlock absolute
  iterateUnchecked callback buf block (BLOCK_SIZE + 1) 0 acc

end DirectoryHandler

namespace FormatV1

/-- What the walk over a directory block has captured. -/
structure EntryScan where
  errors : List V1IntegrityError
  childDirs : List Nat
  childOthers : List Nat
  count : Nat
  lastEntryFree : Bool
  lastEntryOffset : Nat
  lastEntrySize : Nat

/-- The first two entries of a directory must be itself and its parent. -/
def structureErrors (entry : DirEntry) (first : Bool) (count : Nat) : List V1IntegrityError :=
  if first = true ∧ count = 0 then
    if entry.nameLen ≠ 1 ∨ entry.name.getD 0 0 ≠ dot then
      [.invalidDirectoryStructure .missingSelf]
    else []
  else if first = true ∧ count = 1 then
    if entry.nameLen ≠ 2 ∨ entry.name.getD 0 0 ≠ dot ∨ entry.name.getD 1 0 ≠ dot then
      [.invalidDirectoryStructure .missingParent]
    else []
  else []

/-- Invalid addresses of the inode pointer. The first case is never met: such an entry
is free. -/
def pointerErrors (entry : DirEntry) (maxIndex : Nat) : List V1IntegrityError :=
  if entry.isFree then []
  else if entry.inode = INVALID_ADDRESS then [.invalidDirectoryEntry .invalidAddress]
  else if entry.inode > maxIndex then [.invalidDirectoryEntry .outOfBoundsAddress]
  else []

/-- `DirEntry::min_record_len` in `u16`; an overflow panics. -/
def minRecordLen16 (nameLen : Nat) : Option Nat :=
  if 4 + 1 + 2 + 2 + 1 * nameLen + 3 < U16 then some (DirEntry.minRecordLen nameLen) else none

/-- The callback of `check_integrity_entries_in_block`. -/
def checkEntry (f : FormatV1) (first : Bool) (dirInode : Nat) :
    DirectoryHandler.Callback EntryScan := fun entry block offset s => do
  let typeErrors : List V1IntegrityError :=
    if entry.fileType = .unknown then
      [.invalidDirectoryEntry (.fileTypeUnknown dirInode entry.inode block offset)]
    else []
  let addressErrors := pointerErrors entry f.inodeAllocator.maxIndex
  -- record overflows to next block
  let overflows := entry.recordLen + offset > BLOCK_SIZE
  let overflowErrors : List V1IntegrityError :=
    if overflows then
      [.invalidDirectoryEntry (.overflow dirInode entry.inode block offset)]
    else []
  -- record is taking up more or less than the necessary space, or two consecutive free regions
  let misfits ←
    if entry.isFree then some false
    else (minRecordLen16 entry.nameLen).map fun len => decide (entry.recordLen ≠ len)
  let sizeErrors : List V1IntegrityError :=
    if misfits then
      [.invalidDirectoryEntry
        (.nameOverflow dirInode entry.inode block offset entry.nameLen)]
    else if entry.isFree ∧ s.lastEntryFree = true then
      [.invalidDirectoryEntry
        (.adjacentFree dirInode block s.lastEntryOffset s.lastEntrySize entry.recordLen)]
    else []
  let nameErrors : List V1IntegrityError :=
    if entry.nameLen > DirEntry.MAX_NAME then
      [.invalidDirectoryEntry
        (.nameOverflow dirInode entry.inode block offset entry.nameLen)]
    else []
  -- add valid-enough children
  let child := ¬ entry.isFree ∧ addressErrors = []
  let isDir := entry.fileType = .directory
  let special := first = true ∧ (s.count = 0 ∨ s.count = 1)
  some
    ({ errors := s.errors ++ typeErrors ++ structureErrors entry first s.count ++ addressErrors ++
        overflowErrors ++ sizeErrors ++ nameErrors
       childDirs :=
        if child ∧ isDir ∧ ¬ special then s.childDirs ++ [entry.inode] else s.childDirs
       childOthers := if child ∧ ¬ isDir then s.childOthers ++ [entry.inode] else s.childOthers
       count := s.count + 1
       lastEntryFree := entry.isFree
       lastEntryOffset := offset
       lastEntrySize := entry.recordLen },
      decide (overflows ∨ misfits = true))

/-- Checks that the entries in the given block are well formatted. Returns the errors and
the children with those found so far. -/
def checkIntegrityEntriesInBlock (f : FormatV1) (block : Nat) (first : Bool) (dirInode : Nat)
    (childDirs childOthers : List Nat) :
    DevM (List V1IntegrityError × List Nat × List Nat) := do
  let scan ← f.directoryHandler.iterateBlockUnchecked block (checkEntry f first dirInode)
    ⟨[], childDirs, childOthers, 0, false, 0, BLOCK_SIZE⟩
  pure (scan.errors, scan.childDirs, scan.childOthers)

/-! ## Inodes -/

/-- Checks that the inode is allocated and marks it as visited. -/
def checkIntegrityInodeAllocation (f : FormatV1) (inodeInd : Nat)
    (visitedInodes : IntegrityCheckerBitmap) :
    DevM (List V1IntegrityError × IntegrityCheckerBitmap) := do
  let allocated ← f.inodeAllocator.isAllocated inodeInd
  if ¬ allocated then pure ([.unallocatedData (.inode inodeInd)], visitedInodes)
  else do
    let (_, visitedInodes) ← visitedInodes.visit inodeInd
    pure ([], visitedInodes)

/-- Invalid addresses among the blocks of an inode. -/
def blockErrors (inodeInd i blockInd maxIndex : Nat) : List V1IntegrityError :=
  if blockInd = INVALID_ADDRESS then [.invalidInode (.invalidAddress inodeInd i)]
  else if blockInd > maxIndex then [.invalidInode (.outOfBoundsAddress inodeInd i)]
  else []

/-- The loop of `check_integrity_inode` over the content blocks. -/
def checkInodeBlocks (f : FormatV1) (inode : INode) (inodeInd : Nat) :
    List Nat → IntegrityCheckerBitmap → DevM (List V1IntegrityError × IntegrityCheckerBitmap)
  | [], visitedBlocks => pure ([], visitedBlocks)
  | i :: rest, visitedBlocks => do
    let blockInd ← f.inodeHandler.getBlock inode i
    let allocated ← f.blockAllocator.isAllocated blockInd
    let (seen, visitedBlocks) ← visitedBlocks.visit blockInd
    let (errors, visitedBlocks) ← checkInodeBlocks f inode inodeInd rest visitedBlocks
    pure (blockErrors inodeInd i blockInd f.blockAllocator.maxIndex ++
      (if ¬ allocated then [.unallocatedData (.data blockInd inodeInd)] else []) ++
      (if seen then [.doubleReference blockInd] else []) ++ errors, visitedBlocks)

/-- Checks that the content of the inode is valid. -/
def checkIntegrityInode (f : FormatV1) (inodeInd : Nat) (visitedBlocks : IntegrityCheckerBitmap)
    (expectedType : FileType) : DevM (List V1IntegrityError × IntegrityCheckerBitmap) := do
  let inode ← f.inodeHandler.readInode inodeInd
  let (errors, visitedBlocks) ←
    checkInodeBlocks f inode inodeInd (List.range inode.blocks) visitedBlocks
  pure ((if inode.fileType = .unknown then [.invalidInode (.fileTypeUnknown inodeInd)] else []) ++
    (if inode.fileType ≠ expectedType then
      [.mismatchedFileType inode.fileType .directory inodeInd] else []) ++ errors, visitedBlocks)

/-! ## The walk over the tree -/

/-- What has been visited. -/
structure Visited where
  inodes : IntegrityCheckerBitmap
  blocks : IntegrityCheckerBitmap
  deriving DecidableEq

/-- What the loop over a directory's blocks has gathered. -/
structure DirectoryScan where
  errors : List V1IntegrityError
  blocks : IntegrityCheckerBitmap
  childDirs : List Nat
  childOthers : List Nat

/-- The loop of `check_integrity_recursive` over the blocks of the directory. -/
def checkDirectoryBlocks (f : FormatV1) (dirInode : INode) (dirInodeInd : Nat) :
    List Nat → DirectoryScan → DevM DirectoryScan
  | [], s => pure s
  | i :: rest, s => do
    let blockInd ← f.inodeHandler.getBlock dirInode i
    let errors := s.errors ++ blockErrors dirInodeInd i blockInd f.blockAllocator.maxIndex
    let allocated ← f.blockAllocator.isAllocated blockInd
    if ¬ allocated then
      -- do NOT parse unallocated directory data blocks, they might be garbage
      checkDirectoryBlocks f dirInode dirInodeInd rest
        { s with errors := errors ++ [.unallocatedData (.data blockInd dirInodeInd)] }
    else do
      let (seen, blocks) ← s.blocks.visit blockInd
      let errors := errors ++ if seen then [.doubleReference blockInd] else []
      let (entryErrors, childDirs, childOthers) ← checkIntegrityEntriesInBlock f blockInd
        (i = 0) dirInodeInd s.childDirs s.childOthers
      checkDirectoryBlocks f dirInode dirInodeInd rest
        ⟨errors ++ entryErrors, blocks, childDirs, childOthers⟩

/-- Runs a check on each of the children. -/
def checkChildren (check : Nat → Visited → DevM (List V1IntegrityError × Visited)) :
    List Nat → Visited → DevM (List V1IntegrityError × Visited)
  | [], v => pure ([], v)
  | inodeInd :: rest, v => do
    let (errors, v) ← check inodeInd v
    let (errors', v) ← checkChildren check rest v
    pure (errors ++ errors', v)

/-- A child that its entry does not call a directory. -/
def checkOther (f : FormatV1) (inodeInd : Nat) (v : Visited) :
    DevM (List V1IntegrityError × Visited) := do
  let (errors, inodes) ← checkIntegrityInodeAllocation f inodeInd v.inodes
  let (errors', blocks) ← checkIntegrityInode f inodeInd v.blocks .file
  pure (errors ++ errors', ⟨inodes, blocks⟩)

/-- The file type of an inode that a directory is expected in. -/
def directoryErrors (fileType : FileType) (dirInodeInd : Nat) : List V1IntegrityError :=
  if fileType = .unknown then [.invalidInode (.fileTypeUnknown dirInodeInd)]
  else if fileType ≠ .directory then [.mismatchedFileType fileType .directory dirInodeInd]
  else []

/-- Checks the directory and, recursively, all its children. The walk does not look at
what it has visited, so directories that form a cycle make it recurse until the stack
is used up. That is a panic, and it happens exactly when the directories on the path
outnumber the inodes: one of them is on the path twice. -/
def checkIntegrityRecursive (f : FormatV1) :
    Nat → Nat → Visited → DevM (List V1IntegrityError × Visited)
  | 0, _, _ => Prog.abort
  | depth + 1, dirInodeInd, v => do
    let (errors, inodes) ← checkIntegrityInodeAllocation f dirInodeInd v.inodes
    let dirInode ← f.inodeHandler.readInode dirInodeInd
    let scan ← checkDirectoryBlocks f dirInode dirInodeInd (List.range dirInode.blocks)
      ⟨errors ++ directoryErrors dirInode.fileType dirInodeInd, v.blocks, [], []⟩
    let (otherErrors, v) ← checkChildren (checkOther f) scan.childOthers ⟨inodes, scan.blocks⟩
    let (dirErrors, v) ←
      checkChildren (checkIntegrityRecursive f depth) scan.childDirs v
    pure (scan.errors ++ otherErrors ++ dirErrors, v)

/-! ## The check -/

/-- The allocated indices that were not visited. -/
def unreachable (a : BitmapAllocator) (visited : IntegrityCheckerBitmap)
    (error : Nat → V1IntegrityError) : List Nat → DevM (List V1IntegrityError)
  | [] => pure []
  | i :: rest => do
    let allocated ← a.isAllocated i
    let lost ← if allocated then do
        let seen ← visited.visited i
        pure (!seen)
      else pure false
    let errors ← unreachable a visited error rest
    pure (if lost then error i :: errors else errors)

/-- The search for them is made only if the counts differ. -/
def findUnreachable (differ : Bool) (a : BitmapAllocator) (visited : IntegrityCheckerBitmap)
    (error : Nat → V1IntegrityError) (count : Nat) : DevM (List V1IntegrityError) :=
  if differ then unreachable a visited error (List.range count) else pure []

/-- The cached counts of the superblock against those of the bitmaps. -/
def metadataErrors (sb : Superblock) (freeInodes freeBlocks : Nat) : List V1IntegrityError :=
  (if sb.freeInodes ≠ freeInodes then
    [.inconsistentMetadata (.freeInodes sb.freeInodes freeInodes)] else []) ++
  (if sb.freeData ≠ freeBlocks then
    [.inconsistentMetadata (.freeData sb.freeData freeBlocks)] else [])

/-- `check_integrity` on the device, with the format `f` mounted. -/
def checkDevice (f : FormatV1) : DevM (List V1IntegrityError) := do
  let sb := f.superblock
  -- count the set bits in the bitmap
  let allocatedInodes ← f.inodeAllocator.countAllocated
  let allocatedBlocks ← f.blockAllocator.countAllocated
  let inodeCount ← mul32 sb.inodeTableBlocks INode.inodesPerBlock
  let freeInodes ← Prog.checkedSub inodeCount allocatedInodes
  let blockCount ← Prog.checkedSub sb.totalBlocks sb.dataStart
  let freeBlocks ← Prog.checkedSub blockCount allocatedBlocks
  -- validate root entries recursively, iterating over every file and directory
  let (errors, visited) ← checkIntegrityRecursive f (f.inodeAllocator.maxIndex + 1) sb.rootInode
    ⟨.new f.inodeAllocator.maxIndex, .new f.blockAllocator.maxIndex⟩
  -- validate bitmaps: find the allocated bits that are not visited
  let lostInodes ← findUnreachable (allocatedInodes > visited.inodes.count) f.inodeAllocator
    visited.inodes (fun i => .unreachableData (.inode i)) inodeCount
  let lostBlocks ← findUnreachable (allocatedBlocks ≠ visited.blocks.count) f.blockAllocator
    visited.blocks (fun i => .unreachableData (.data i)) blockCount
  pure (metadataErrors sb freeInodes freeBlocks ++ errors ++ lostInodes ++ lostBlocks)

def checkIntegrity : FsM (List V1IntegrityError) := do
  let f ← getFormat
  onDevice (checkDevice f)

end FormatV1

end FerrisFS
