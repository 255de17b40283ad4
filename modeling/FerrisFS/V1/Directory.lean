import FerrisFS.V1.INode
import FerrisFS.V1.Path

/-!
# Directory records and the directory handler

`formats/v1/directory.rs` and `formats/v1/directory_handler.rs`: the records of
a directory block, the walk over them, insertion and removal, and path
resolution.
-/

namespace FerrisFS

open Lib

structure DirEntry where
  inode : Nat
  fileType : FileType
  /-- length of the entry on the device (or of the free region) -/
  recordLen : Nat
  nameLen : Nat
  /-- `[u8; MAX_NAME]`: the name, padded with zeros -/
  name : List UInt8
  deriving DecidableEq

namespace DirEntry

def MAX_NAME : Nat := 64

def minRecordLen (nameLen : Nat) : Nat := ((4 + 1 + 2 + 2 + 1 * nameLen + 3) >>> 2) <<< 2

def minFreeSize : Nat := ((4 + 2 + 3) >>> 2) <<< 2

/-- The first bytes of `bytes` in a zeroed array of `MAX_NAME`. -/
def padName (bytes : List UInt8) : List UInt8 :=
  bytes.take MAX_NAME ++ List.replicate (MAX_NAME - bytes.length) 0

def new (inode : Nat) (fileType : FileType) (name : Str) : DirEntry where
  inode := inode
  fileType := fileType
  recordLen := minRecordLen (min name.length MAX_NAME)
  nameLen := min name.length MAX_NAME
  name := padName name

/-- A free region, of size at least `min_free_size`. -/
def free (size : Nat) : DirEntry where
  inode := INVALID_ADDRESS
  fileType := .file
  recordLen := max size minFreeSize
  nameLen := 0
  name := padName []

def isFree (e : DirEntry) : Bool := e.inode == INVALID_ADDRESS

/-- The written fields, before the zero fill. -/
def fields (e : DirEntry) : List UInt8 :=
  leBytes 4 e.inode ++ (leBytes 2 e.recordLen ++
    (if e.isFree then [] else leBytes 2 e.nameLen ++ (e.fileType.toByte :: e.name.take e.nameLen)))

/-- The bytes of the whole record. -/
def bytes (e : DirEntry) : List UInt8 :=
  e.fields ++ List.replicate (e.recordLen - e.fields.length) 0

/-- Panics if the name is longer than its array, the fields do not fit in
`record_len`, or the record does not fit in the block. -/
def serialize {σ : Type} (e : DirEntry) (buf : Block) (offset : Nat) : Prog FSError σ Block :=
  if (e.isFree ∨ e.nameLen ≤ MAX_NAME) ∧ e.fields.length ≤ e.recordLen ∧
      offset + e.recordLen ≤ BLOCK_SIZE then
    pure (buf.splice offset e.bytes)
  else Prog.abort

/-- The record that starts at `offset`, whose nine header bytes are in the block. -/
def ofBytes (buf : Block) (offset : Nat) : DirEntry :=
  let nameLen := leNat (buf.slice (offset + 6) 2)
  { inode := buf.u32 offset
    recordLen := leNat (buf.slice (offset + 4) 2)
    nameLen := nameLen
    fileType := FileType.ofByte (buf.byte (offset + 8))
    name := padName (buf.slice (offset + 9)
      (min (min nameLen (BLOCK_SIZE - (offset + 9))) MAX_NAME)) }

/-- Panics when the nine header bytes do not lie in the block. -/
def deserialize {σ : Type} (buf : Block) (offset : Nat) : Prog FSError σ DirEntry :=
  if offset + 9 ≤ BLOCK_SIZE then pure (ofBytes buf offset) else Prog.abort

end DirEntry

/-- `Directory::new`: the entries of a new directory. -/
def newDirectory (inode parent : Nat) : List DirEntry :=
  let selfEntry := DirEntry.new inode .directory [dot]
  let parentEntry := DirEntry.new parent .directory [dot, dot]
  [selfEntry, parentEntry,
    DirEntry.free (BLOCK_SIZE - selfEntry.recordLen - parentEntry.recordLen)]

structure ResolutionResult where
  targetInode : INode
  targetInodeIndex : Nat
  parentInodeIndex : Nat
  dirEntry : DirEntry
  dirEntryBlockIndex : Nat
  dirEntryOffset : Nat

/-- Handles the data blocks of a directory. -/
structure DirectoryHandler where
  dataStart : Nat
  rootInodeInd : Nat
  deriving DecidableEq

namespace DirectoryHandler

/-! ## The walk over the records -/

/-- What `iterate` calls on each record with its block and offset: it updates
what it has captured and says whether to stop, or panics. -/
abbrev Callback (α : Type) := DirEntry → Nat → Nat → α → Option (α × Bool)

/-- The records of one block from `offset` on. An ill-formed record is reported
after the callback has seen it. Offsets grow, so `BLOCK_SIZE` rounds suffice. -/
def iterateBlock {σ α : Type} (callback : Callback α) (buf : Block) (relBlock : Nat) :
    Nat → Nat → α → Prog FSError σ (α × Bool)
  | 0, _, acc => pure (acc, false)
  | fuel + 1, offset, acc =>
    if offset < BLOCK_SIZE then do
      let parsed ← DirEntry.deserialize buf offset
      let res ← Prog.unwrap (callback parsed relBlock offset acc)
      if offset + parsed.recordLen > BLOCK_SIZE then
        Prog.fail (.invalidDir .entriesOverfillBlock relBlock offset)
      if parsed.recordLen = 0 then
        Prog.fail (.invalidDirEntry .zeroLength relBlock offset)
      if res.2 then pure (res.1, true)
      else iterateBlock callback buf relBlock fuel (offset + parsed.recordLen) res.1
    else pure (acc, false)

/-- The loop of `iterate` over the directory's content blocks. -/
def iterateBlocks {α : Type} (h : DirectoryHandler) (dirInode : INode)
    (inodeHandler : INodeTableHandler) (callback : Callback α) : List Nat → α → DevM α
  | [], acc => pure acc
  | block :: rest, acc => do
    let relBlock ← inodeHandler.getBlock dirInode block
    let absolute ← add32 relBlock h.dataStart
    let buf ← readBlock absolute
    let (acc, stop) ← iterateBlock callback buf relBlock BLOCK_SIZE 0 acc
    if stop then pure acc else iterateBlocks h dirInode inodeHandler callback rest acc

def iterate {α : Type} (h : DirectoryHandler) (dirInode : INode)
    (inodeHandler : INodeTableHandler) (callback : Callback α) (acc : α) : DevM α :=
  iterateBlocks h dirInode inodeHandler callback (List.range dirInode.blocks) acc

/-- The callback of `find_entry`; `entry.name[0..entry.name_len]` panics on a
name longer than its array. -/
def findCallback (name : List UInt8) : Callback (Option (DirEntry × Nat × Nat)) :=
  fun entry block offset res =>
    if entry.isFree then some (res, false)
    else if entry.nameLen > DirEntry.MAX_NAME then none
    else if entry.name.take entry.nameLen = name then some (some (entry, block, offset), true)
    else some (res, false)

def findEntry (h : DirectoryHandler) (dirInode : INode) (inodeHandler : INodeTableHandler)
    (name : List UInt8) : DevM (Option (DirEntry × Nat × Nat)) :=
  h.iterate dirInode inodeHandler (findCallback name) none

/-- The callback of `can_fit`: the first free region that is big enough. It panics when
the `u16` sum that the region is compared with overflows. -/
def fitCallback (toInsert : DirEntry) : Callback (Option (Nat × Nat)) :=
  fun entry block offset res =>
    if entry.isFree then
      if toInsert.recordLen + DirEntry.minFreeSize < U16 then
        if entry.recordLen ≥ toInsert.recordLen + DirEntry.minFreeSize ∨
            entry.recordLen = toInsert.recordLen then
          some (some (block, offset), true)
        else some (res, false)
      else none
    else some (res, false)

def canFit (h : DirectoryHandler) (dir : INode) (inodeHandler : INodeTableHandler)
    (toInsert : DirEntry) : DevM (Option (Nat × Nat)) :=
  h.iterate dir inodeHandler (fitCallback toInsert) none

def getEntries (h : DirectoryHandler) (dir : INode) (inodeHandler : INodeTableHandler)
    (includeFree : Bool) : DevM (List DirEntry) :=
  h.iterate dir inodeHandler (fun entry _ _ res =>
    if includeFree || !entry.isFree then some (res ++ [entry], false)
    else some (res, false)) []

/-! ## Writing records -/

/-- First pass of `write_directory_with_inode`: the layout check. -/
def checkLayout {σ : Type} : List DirEntry → Nat → Nat → Prog FSError σ (Nat × Nat)
  | [], block, offset => pure (block, offset)
  | e :: rest, block, offset => do
    if offset + e.recordLen > BLOCK_SIZE then
      Prog.fail (.invalidInput (.dirEntriesOverfillBlock block offset e.recordLen))
    if offset + e.recordLen = BLOCK_SIZE then checkLayout rest (block + 1) 0
    else checkLayout rest block (offset + e.recordLen)

/-- Second pass: the writes. -/
def writeLayout (h : DirectoryHandler) (inode : INode) (inodeHandler : INodeTableHandler) :
    List DirEntry → Block → Nat → Nat → DevM Unit
  | [], _, _, _ => pure ()
  | e :: rest, buf, block, offset => do
    let buf ← e.serialize buf offset
    if offset + e.recordLen = BLOCK_SIZE then do
      let rel ← inodeHandler.getBlock inode block
      let addr ← add32 h.dataStart rel
      writeBlock addr buf
      writeLayout h inode inodeHandler rest Block.zero (block + 1) 0
    else writeLayout h inode inodeHandler rest buf block (offset + e.recordLen)

/-- Writes the directory entries in the order provided. More than twelve blocks
are a `todo!()`. -/
def writeDirectoryWithInode (h : DirectoryHandler) (entries : List DirEntry) (inode : INode)
    (inodeHandler : INodeTableHandler) : DevM Unit := do
  let (block, offset) ← checkLayout entries 0 0
  if offset ≠ 0 then
    Prog.fail (.invalidInput (.dirEntriesUnderfillBlock block offset))
  if block > 12 then Prog.abort
  h.writeLayout inode inodeHandler entries Block.zero 0 0

/-- The size check of `add_entry_here`: the region is either as big as the new entry or big
enough to store also a new free entry. -/
def validateFreeRegion (freeRegion entry : DirEntry) (block offset : Nat) : DevM Unit :=
  if freeRegion.recordLen ≠ entry.recordLen then do
    let required ← Prog.checkedAdd U16 entry.recordLen DirEntry.minFreeSize
    if freeRegion.recordLen < required then
      Prog.fail (.dirFreeRegionTooSmall block offset freeRegion.recordLen required)
  else pure ()

def addEntryHere (h : DirectoryHandler) (entry : DirEntry) (block freeRegionOffset : Nat) :
    DevM Unit := do
  let addr ← add32 h.dataStart block
  let buf ← readBlock addr
  let freeRegion ← DirEntry.deserialize buf freeRegionOffset
  if ¬ freeRegion.isFree then Prog.fail (.dirEntryNotFree block freeRegionOffset)
  validateFreeRegion freeRegion entry block freeRegionOffset
  -- move it forward (if not fully utilized)
  let freeRegion := { freeRegion with recordLen := freeRegion.recordLen - entry.recordLen }
  let buf ←
    if freeRegion.recordLen > DirEntry.minFreeSize then do
      let offset ← Prog.checkedAdd U16 freeRegionOffset entry.recordLen
      freeRegion.serialize buf offset
    else pure buf
  let buf ← entry.serialize buf freeRegionOffset
  writeBlock addr buf

def addEntryGrow (h : DirectoryHandler) (entry : DirEntry) (block : Nat) : DevM Unit := do
  let remainder ← Prog.checkedSub BLOCK_SIZE entry.recordLen
  if remainder ≠ 0 ∧ remainder < DirEntry.minFreeSize then
    Prog.fail (.dirFreeRegionTooSmall block 0 remainder DirEntry.minFreeSize)
  let buf ← entry.serialize Block.zero 0
  let buf ←
    if remainder > 0 then (DirEntry.free remainder).serialize buf entry.recordLen
    else pure buf
  let addr ← add32 h.dataStart block
  writeBlock addr buf

/-- The search of `free_region` for the entry that ends where `offset` starts. A
zero-length record before `offset` makes the source loop forever; the walk that
found `offset` has already rejected such a block, and here it is a panic. -/
def findPrev {σ : Type} (buf : Block) (block offset : Nat) :
    Nat → Nat → Prog FSError σ (Option (DirEntry × Nat))
  | 0, _ => Prog.abort
  | fuel + 1, prev =>
    if prev < offset then do
      let parsed ← DirEntry.deserialize buf prev
      let stop ← Prog.checkedAdd U16 prev parsed.recordLen
      if stop > offset then
        Prog.fail (.invalidInput (.offsetNotAtDirEntryStart block offset))
      if stop = offset then pure (some (parsed, prev))
      else findPrev buf block offset fuel stop
    else pure none

/-- Where the freed region starts, and the length it has before the record itself:
a free record in front of it is merged. -/
def regionStart (offset : Nat) : Option (DirEntry × Nat) → Nat × Nat
  | some (e, prevOffset) => if e.isFree then (prevOffset, e.recordLen) else (offset, 0)
  | none => (offset, 0)

/-- Marks the region as free, merging it with adjacent free regions, and returns
the length of the freed record. -/
def freeRegion (h : DirectoryHandler) (block offset : Nat) : DevM Nat := do
  let addr ← add32 h.dataStart block
  let buf ← readBlock addr
  let prev ← findPrev buf block offset (BLOCK_SIZE + 1) 0
  let (start, size) := regionStart offset prev
  let toFree ← DirEntry.deserialize buf offset
  let size ← Prog.checkedAdd U16 size toFree.recordLen
  let nextOffset := offset + toFree.recordLen
  let next ←
    if nextOffset < BLOCK_SIZE then do
      let nextEntry ← DirEntry.deserialize buf nextOffset
      pure (if nextEntry.isFree then nextEntry.recordLen else 0)
    else pure 0
  let size ← Prog.checkedAdd U16 size next
  let buf ← (DirEntry.free size).serialize buf start
  writeBlock addr buf
  pure toFree.recordLen

/-! ## Path resolution -/

/-- The target of a symlink, and the directory it is relative to. A target that
does not fit its block, is not UTF-8 or is empty panics. -/
def symlinkTarget (h : DirectoryHandler) (inode : INode) (parentInd : Nat) :
    DevM (List Component × Nat) := do
  let addr ← add32 h.dataStart (inode.direct 0)
  let buf ← readBlock addr
  if inode.size > BLOCK_SIZE then Prog.abort
  let target := buf.slice 0 inode.size
  if ¬ Path.validUtf8 target [] then Prog.abort
  let first ← Prog.unwrap target.head?
  pure (Path.components target, if first = slash then h.rootInodeInd else parentInd)

/-- Where the walk over the components stands. -/
structure Cursor where
  inode : INode
  inodeInd : Nat
  parentInd : Nat
  entry : DirEntry
  entryBlock : Nat
  entryOffset : Nat
  progress : Str

def Cursor.result (c : Cursor) : ResolutionResult :=
  ⟨c.inode, c.inodeInd, c.parentInd, c.entry, c.entryBlock, c.entryOffset⟩

/-- One component of the path: look it up in the current directory and move
there, through `follow` if it is a symlink to be followed. -/
def resolveComponent (h : DirectoryHandler) (inodeHandler : INodeTableHandler)
    (follow : List Component → Nat → DevM ResolutionResult) (resolveFinalSymlink : Bool)
    (it : Nat) (comp : Component) (isFinal : Bool) (c : Cursor) : DevM Cursor := do
  let progress := Path.join c.progress comp
  let found ← h.findEntry c.inode inodeHandler (Path.componentBytes comp)
  match found with
  | none => Prog.fail (.doesNotExist progress)
  | some (entry, entryBlock, entryOffset) => do
    if entry.inode = INVALID_ADDRESS then
      Prog.fail (.invalidDirEntry .invalidINode entryBlock entryOffset)
    let inode ← inodeHandler.readInode entry.inode
    if inode.fileType = .symlink ∧ (¬ isFinal ∨ resolveFinalSymlink) then do
      if it ≥ 40 then Prog.fail (.maximumSymlinkDepthReached progress 40)
      if inode.size = 0 ∨ inode.blocks = 0 then Prog.fail (.emptySymlink progress)
      -- here current inode index is still the parent's
      let (target, src) ← h.symlinkTarget inode c.inodeInd
      let res ← follow target src
      if res.targetInode.fileType ≠ .directory ∧ ¬ isFinal then
        Prog.fail (.notADirectory progress)
      pure ⟨res.targetInode, res.targetInodeIndex, res.parentInodeIndex, entry,
        res.dirEntryBlockIndex, res.dirEntryOffset, progress⟩
    else if inode.fileType ≠ .directory ∧ ¬ isFinal then Prog.fail (.notADirectory progress)
    else pure ⟨inode, entry.inode, c.inodeInd, entry, entryBlock, entryOffset, progress⟩

/-- The component loop. -/
def resolveLoop (h : DirectoryHandler) (inodeHandler : INodeTableHandler)
    (follow : List Component → Nat → DevM ResolutionResult) (resolveFinalSymlink : Bool)
    (it : Nat) : List Component → Cursor → DevM Cursor
  | [], c => pure c
  | comp :: rest, c =>
    -- comp can be CurDir or RootDir only at the start of the path
    if comp = .curDir ∨ comp = .rootDir then
      resolveLoop h inodeHandler follow resolveFinalSymlink it rest c
    else do
      let c ← h.resolveComponent inodeHandler follow resolveFinalSymlink it comp rest.isEmpty c
      resolveLoop h inodeHandler follow resolveFinalSymlink it rest c

/-- `_resolve`. `fuel` counts the symlink expansions that may still be nested;
`it + fuel = 41` in every call, and `it ≥ 40` is refused before the next one. -/
def resolveFrom (h : DirectoryHandler) (inodeHandler : INodeTableHandler) :
    (fuel it : Nat) → (resolveFinalSymlink : Bool) → List Component → Nat →
    DevM ResolutionResult
  | 0, _, _, _, _ => Prog.abort
  | fuel + 1, it, resolveFinalSymlink, path, src => do
    let cur ← inodeHandler.readInode src
    if path = [] ∨ path = [.curDir] then
      pure ⟨cur, src, src, DirEntry.free 0, 0, 0⟩
    else if path = [.rootDir] then do
      let root ← inodeHandler.readInode h.rootInodeInd
      pure ⟨root, h.rootInodeInd, h.rootInodeInd, DirEntry.free 0, 0, 0⟩
    else do
      let c ← h.resolveLoop inodeHandler
        (fun target src => resolveFrom h inodeHandler fuel (it + 1) true target src)
        resolveFinalSymlink it path ⟨cur, src, src, DirEntry.free 0, 0, 0, []⟩
      pure c.result

def resolve (h : DirectoryHandler) (path : List Component) (src : Nat)
    (inodeHandler : INodeTableHandler) (resolveFinalSymlink : Bool) : DevM ResolutionResult :=
  h.resolveFrom inodeHandler 41 0 resolveFinalSymlink path src

end DirectoryHandler

end FerrisFS
