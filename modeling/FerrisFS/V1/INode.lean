import FerrisFS.Device.Memory

/-!
# Inodes and the inode table

`formats/v1/inode.rs` and `formats/v1/inode_handler.rs`: the record of a file,
its place in the inode table, and the pointer tree that addresses its content
blocks.
-/

namespace FerrisFS

open Lib

/-- Metadata for each file, directory or symlink. -/
@[ext] structure INode where
  /-- bytes actually used by the file -/
  size : Nat
  fileType : FileType
  permissions : Nat
  /-- relative addresses of data blocks associated with the file -/
  direct : Fin 12 → Nat
  /-- relative address of a data block containing direct addresses -/
  indirect : Nat
  /-- relative address of a data block containing indirect addresses -/
  double : Nat
  created : Nat
  modified : Nat
  /-- number of directory entries pointing to this file -/
  links : Nat
  /-- number of blocks associated with this file -/
  blocks : Nat

/-- There is a first direct address. -/
instance instNeZeroTwelve : NeZero 12 := ⟨by decide⟩

namespace INode

def DIRECT_COUNT : Nat := 12
def INDIRECT_COUNT : Nat := BLOCK_SIZE / 4
def DOUBLE_COUNT : Nat := INDIRECT_COUNT * INDIRECT_COUNT
def MAX_BLOCKS : Nat := DIRECT_COUNT + INDIRECT_COUNT + DOUBLE_COUNT
def MAX_SIZE : Nat := MAX_BLOCKS * BLOCK_SIZE

def onDiskSize : Nat := 96
def inodesPerBlock : Nat := BLOCK_SIZE / onDiskSize

def empty (fileType : FileType) (permissions created : Nat) : INode where
  size := 0
  fileType := fileType
  permissions := permissions
  direct := fun _ => INVALID_ADDRESS
  indirect := INVALID_ADDRESS
  double := INVALID_ADDRESS
  created := created
  modified := created
  links := 1
  blocks := 0

/-- The serialized fields, in order. -/
def bytes (n : INode) : List UInt8 :=
  leBytes 8 n.size ++ ([n.fileType.toByte, 0] ++ (leBytes 2 n.permissions ++
    (leBytes 2 n.links ++ ([0, 0] ++ (leBytes 4 n.blocks ++
    ((List.ofFn n.direct).flatMap (leBytes 4) ++ (leBytes 4 n.indirect ++
    (leBytes 4 n.double ++ (leBytes 8 n.created ++ leBytes 8 n.modified)))))))))

def serialize (n : INode) (buf : Block) : Block := buf.splice 0 n.bytes

def deserialize (buf : Block) : INode where
  size := leNat (buf.slice 0 8)
  fileType := FileType.ofByte (buf.byte 8)
  permissions := leNat (buf.slice 10 2)
  links := leNat (buf.slice 12 2)
  blocks := buf.u32 16
  direct := fun i => buf.u32 (20 + 4 * i)
  indirect := buf.u32 68
  double := buf.u32 72
  created := leNat (buf.slice 76 8)
  modified := leNat (buf.slice 84 8)

end INode

/-- Manages the contents of the whole table of inodes. -/
structure INodeTableHandler where
  inodeTableStart : Nat
  inodeTableBlocks : Nat
  dataStart : Nat
  deriving DecidableEq

namespace INodeTableHandler

def writeInode (h : INodeTableHandler) (index : Nat) (inode : INode) : DevM Unit := do
  let max ← mul32 h.inodeTableBlocks INode.inodesPerBlock
  if index ≥ max then Prog.fail (.invalidInput (.inodeIndexOOB index max))
  let inodeBlock ← add32 h.inodeTableStart (index / INode.inodesPerBlock)
  let offset := index % INode.inodesPerBlock
  let buf := inode.serialize Block.zero
  let block ← readBlock inodeBlock
  writeBlock inodeBlock
    (block.splice (offset * INode.onDiskSize) (buf.slice 0 INode.onDiskSize))

def readInode (h : INodeTableHandler) (index : Nat) : DevM INode := do
  let max ← mul32 h.inodeTableBlocks INode.inodesPerBlock
  if index ≥ max then Prog.fail (.invalidInput (.inodeIndexOOB index max))
  let inodeBlock ← add32 h.inodeTableStart (index / INode.inodesPerBlock)
  let offset := index % INode.inodesPerBlock
  let block ← readBlock inodeBlock
  let buf := Block.zero.splice 0 (block.slice (offset * INode.onDiskSize) INode.onDiskSize)
  pure (INode.deserialize buf)

/-- Pointer blocks needed by an inode of `blocks` content blocks. -/
def metadataBlocks (blocks : Nat) : Nat :=
  if blocks ≤ INode.DIRECT_COUNT then 0
  else if blocks ≤ INode.DIRECT_COUNT + INode.INDIRECT_COUNT then 1
  else
    1 + 1 + (blocks - INode.DIRECT_COUNT - INode.INDIRECT_COUNT + (INode.INDIRECT_COUNT - 1)) /
      INode.INDIRECT_COUNT

def blocksNecessaryToGrowN (inode : INode) (n : Nat) : Nat :=
  metadataBlocks (inode.blocks + n) - metadataBlocks inode.blocks

def blocksNecessaryToGrow (inode : INode) : Nat := blocksNecessaryToGrowN inode 1

/-- Puts the block at `index` of the indirect region. Returns the inode and the
next unused position of the pool. -/
def writeIndirect (h : INodeTableHandler) (inode : INode) (block : Nat) (pool : List Nat)
    (poolIndex index : Nat) : DevM (INode × Nat) := do
  let (indirect, poolIndex) ←
    if index = 0 then do
      -- first usage of the indirect block, assign a new metadata block to the inode
      if pool = [] then
        Prog.fail (.invalidInput (.notEnoughAllocatedBlocks 1 pool.length))
      let fresh ← Prog.unwrap pool[poolIndex]?
      pure (fresh, poolIndex + 1)
    else pure (inode.indirect, poolIndex)
  let addr ← add32 indirect h.dataStart
  let buf ← readBlock addr
  writeBlock addr (buf.splice (index * 4) (leBytes 4 block))
  pure ({ inode with indirect := indirect }, poolIndex)

/-- Puts the block at `index` of the double indirect region. -/
def writeDoubleIndirect (h : INodeTableHandler) (inode : INode) (block : Nat)
    (pool : List Nat) (poolIndex index : Nat) : DevM (INode × Nat) := do
  let indirectOffset := (index / INode.INDIRECT_COUNT) * 4
  let directOffset := (index % INode.INDIRECT_COUNT) * 4
  let (double, poolIndex) ←
    if index = 0 then do
      -- first usage of the double indirect block, assign a new metadata block to the inode
      if pool.length < 2 then
        Prog.fail (.invalidInput (.notEnoughAllocatedBlocks 2 pool.length))
      let fresh ← Prog.unwrap pool[poolIndex]?
      pure (fresh, poolIndex + 1)
    else pure (inode.double, poolIndex)
  let doubleAddr ← add32 double h.dataStart
  let buf ← readBlock doubleAddr
  let (indirect, poolIndex) ←
    if directOffset = 0 then do
      -- new indirect within the double indirect
      if pool = [] then
        Prog.fail (.invalidInput (.notEnoughAllocatedBlocks 1 pool.length))
      let fresh ← Prog.unwrap pool[poolIndex]?
      pure (fresh, poolIndex + 1)
    else pure (buf.u32 indirectOffset, poolIndex)
  let addr ← add32 indirect h.dataStart
  let buf ← readBlock addr
  writeBlock addr (buf.splice directOffset (leBytes 4 block))
  -- update the double indirect after the indirect write succeeded
  if directOffset = 0 then
    let buf ← readBlock doubleAddr
    writeBlock doubleAddr (buf.splice indirectOffset (leBytes 4 indirect))
  pure ({ inode with double := double }, poolIndex)

/-- Records `block` as the content block after the last one. -/
def placeBlock (h : INodeTableHandler) (inode : INode) (block : Nat) (pool : List Nat)
    (poolIndex : Nat) : DevM (INode × Nat) := do
  let index := inode.blocks
  let (inode, poolIndex) ←
    if hi : index < INode.DIRECT_COUNT then
      pure ({ inode with direct := Function.update inode.direct ⟨index, hi⟩ block }, poolIndex)
    else if index < INode.DIRECT_COUNT + INode.INDIRECT_COUNT then
      h.writeIndirect inode block pool poolIndex (index - INode.DIRECT_COUNT)
    else if index < INode.DIRECT_COUNT + INode.INDIRECT_COUNT + INode.DOUBLE_COUNT then
      h.writeDoubleIndirect inode block pool poolIndex
        (index - INode.DIRECT_COUNT - INode.INDIRECT_COUNT)
    else Prog.fail (.maxINodeSize (index + 1) INode.MAX_BLOCKS)
  pure ({ inode with blocks := inode.blocks + 1 }, poolIndex)

/-- The loop of `add_blocks`. -/
def placeBlocks (h : INodeTableHandler) (pool : List Nat) :
    List Nat → INode → Nat → DevM (INode × Nat)
  | [], inode, poolIndex => pure (inode, poolIndex)
  | block :: rest, inode, poolIndex => do
    let (inode, poolIndex) ← h.placeBlock inode block pool poolIndex
    placeBlocks h pool rest inode poolIndex

def addBlocks (h : INodeTableHandler) (inode : INode) (blocks pool : List Nat) :
    DevM INode := do
  if blocks = [] then pure inode
  else do
    let newCount := inode.blocks + blocks.length
    if newCount > INode.MAX_BLOCKS then
      Prog.fail (.maxINodeSize newCount INode.MAX_BLOCKS)
    let required := blocksNecessaryToGrowN inode blocks.length
    if pool.length < required then
      Prog.fail (.invalidInput (.notEnoughAllocatedBlocks required pool.length))
    let (inode, _) ← h.placeBlocks pool blocks inode 0
    pure inode

def addBlock (h : INodeTableHandler) (inode : INode) (block : Nat) (pool : List Nat) :
    DevM INode := do
  if inode.blocks ≥ INode.MAX_BLOCKS then
    Prog.fail (.maxINodeSize (inode.blocks + 1) INode.MAX_BLOCKS)
  let (inode, _) ← h.placeBlock inode block pool 0
  pure inode

/-- The `index`-th address in the pointer block `indirect`. `resolve_double` has
the same body. -/
def resolveIndirect (h : INodeTableHandler) (indirect index : Nat) : DevM Nat := do
  let addr ← add32 h.dataStart indirect
  let buf ← readBlock addr
  pure (buf.u32 (index * 4))

def resolveDouble (h : INodeTableHandler) (double index : Nat) : DevM Nat :=
  h.resolveIndirect double index

/-- The relative address of the `index`-th content block. -/
def getBlock (h : INodeTableHandler) (inode : INode) (index : Nat) : DevM Nat := do
  if index ≥ INode.MAX_BLOCKS then
    Prog.fail (.invalidInput (.inodeBlockIndexOOB index INode.MAX_BLOCKS))
  if index ≥ inode.blocks then
    Prog.fail (.invalidInput (.indexOOB index inode.blocks))
  if hi : index < INode.DIRECT_COUNT then pure (inode.direct ⟨index, hi⟩)
  else
    let index := index - INode.DIRECT_COUNT
    if index < INode.INDIRECT_COUNT then h.resolveIndirect inode.indirect index
    else
      let index := index - INode.INDIRECT_COUNT
      if index < INode.DOUBLE_COUNT then do
        let indirect ← h.resolveDouble inode.double (index / INode.INDIRECT_COUNT)
        h.resolveIndirect indirect (index % INode.INDIRECT_COUNT)
      else Prog.fail (.invalidInput (.inodeBlockIndexOOB index INode.MAX_BLOCKS))

end INodeTableHandler

end FerrisFS
