import FerrisFS.Device.Memory

/-!
# The bitmap allocator

`formats/v1/bitmap_allocator.rs`. The nested loops of `find_free` and
`count_allocated` are three recursions, one per level (bits of a byte, bytes of
a block, blocks of the bitmap); `Scan` is what a level tells the one around it.
-/

namespace FerrisFS

open Lib

structure BitmapAllocator where
  /-- first block where the bitmap resides -/
  start : Nat
  /-- number of blocks dedicated to the bitmap -/
  size : Nat
  /-- 1 past the highest value that may be returned by allocate -/
  maxIndex : Nat
  /-- index of the last allocation, future allocations will start looking from here -/
  lastAlloc : Nat
  deriving DecidableEq

/-- How a level of `find_free` ends: it runs out of positions, it has collected
the requested number, or it meets an index at or past `max_index`. -/
inductive Scan where
  | next (res : List Nat)
  | done (res : List Nat)
  | stop (res : List Nat)

def Scan.res : Scan → List Nat
  | .next res => res
  | .done res => res
  | .stop res => res

namespace BitmapAllocator

def new (start size maxIndex : Nat) : BitmapAllocator := ⟨start, size, maxIndex, 0⟩

/-- Panics when the index is no `u32`. -/
def getIndex {σ : Type} (bitmapBlock byteInBlock bitInByte : Nat) : Prog FSError σ Nat :=
  add32 ((byteInBlock + bitmapBlock * BLOCK_SIZE) * 8) bitInByte

def unpackIndex (index : Nat) : Nat × Nat × Nat :=
  let byteIndex := index / 8
  (byteIndex / BLOCK_SIZE, byteIndex % BLOCK_SIZE, index % 8)

def isAllocated (a : BitmapAllocator) (block : Nat) : DevM Bool :=
  if block > a.maxIndex then pure false
  else do
    let (bitmapBlock, byte, bit) := unpackIndex block
    let addr ← add32 a.start bitmapBlock
    let buf ← readBlock addr
    pure (((buf.byte byte).toNat &&& (1 <<< bit)) != 0)

/-- The bits of one byte: `el` is the byte shifted down to the current position. -/
def scanBits (maxIndex num offset : Nat) : List Nat → Nat → List Nat → Scan
  | [], _, res => .next res
  | pos :: rest, el, res =>
    if offset + pos ≥ maxIndex then .stop res
    else if el &&& 1 = 0 then
      if (res ++ [offset + pos]).length = num then .done (res ++ [offset + pos])
      else scanBits maxIndex num offset rest (el >>> 1) (res ++ [offset + pos])
    else scanBits maxIndex num offset rest (el >>> 1) res

/-- The bytes of bitmap block `i`. -/
def scanBytes (maxIndex num i : Nat) (buf : Block) : List Nat → List Nat → DevM Scan
  | [], res => pure (.next res)
  | j :: rest, res =>
    if buf.byte j = 255 then scanBytes maxIndex num i buf rest res
    else do
      let offset ← getIndex i j 0
      match scanBits maxIndex num offset (List.range 8) (buf.byte j).toNat res with
      | .next res => scanBytes maxIndex num i buf rest res
      | r => pure r

/-- The bitmap blocks in the given order; `lo` and `hi` bound the bytes that are
read of each. -/
def scanBlocks (a : BitmapAllocator) (num : Nat) (lo hi : Nat → Nat) :
    List Nat → List Nat → DevM Scan
  | [], res => pure (.next res)
  | i :: rest, res => do
    let addr ← add32 i a.start
    let buf ← readBlock addr
    let r ← scanBytes a.maxIndex num i buf (List.range' (lo i) (hi i - lo i)) res
    match r with
    | .next res => scanBlocks a num lo hi rest res
    | r => pure r

def findFree (a : BitmapAllocator) (num : Nat) : DevM (List Nat) :=
  if num = 0 then pure []
  else do
    let (startBlock, startByte, _) := unpackIndex a.lastAlloc
    let first ← scanBlocks a num (fun i => if i = startBlock then startByte else 0)
      (fun _ => BLOCK_SIZE) (List.range' startBlock (a.size - startBlock)) []
    match first with
    | .done res => pure res
    | first =>
      -- if we couldn't find enough blocks, restart
      let second ← scanBlocks a num (fun _ => 0)
        (fun i => if i = startBlock then startByte else BLOCK_SIZE)
        (List.range startBlock) first.res
      pure second.res

/-- The loop of `modify`: `buf` holds bitmap block `cached`, not yet written. -/
def modifyLoop (a : BitmapAllocator) (op : Nat → Nat → Nat) :
    List Nat → Nat → Block → DevM (Nat × Block)
  | [], cached, buf => pure (cached, buf)
  | b :: rest, cached, buf => do
    let (bitmapBlock, byteInBlock, bitInByte) := unpackIndex b
    let buf ←
      if bitmapBlock ≠ cached then do
        if cached ≠ INVALID_ADDRESS then
          let addr ← add32 cached a.start
          writeBlock addr buf
        let addr ← add32 bitmapBlock a.start
        readBlock addr
      else pure buf
    let byte := op (buf.byte byteInBlock).toNat bitInByte
    modifyLoop a op rest bitmapBlock (buf.splice byteInBlock [UInt8.ofNat byte])

def modify (a : BitmapAllocator) (blocks : List Nat) (op : Nat → Nat → Nat) : DevM Unit :=
  if blocks = [] then pure ()
  else do
    let (cached, buf) ← modifyLoop a op blocks INVALID_ADDRESS Block.zero
    if cached ≠ INVALID_ADDRESS then
      let addr ← add32 cached a.start
      writeBlock addr buf

/-- `*byte |= 1 << bit`. -/
def setBit (byte bit : Nat) : Nat := byte ||| (1 <<< bit)

/-- `*byte &= !(1 << bit)`. -/
def clearBit (byte bit : Nat) : Nat := byte &&& (255 ^^^ (1 <<< bit))

/-- Marks the indices as allocated and returns the allocator with its new
`last_alloc`. -/
def allocate (a : BitmapAllocator) (blocks : List Nat) : DevM BitmapAllocator :=
  match blocks.getLast? with
  | none => pure a
  | some last => do
    a.modify blocks setBit
    pure { a with lastAlloc := last }

def deallocate (a : BitmapAllocator) (blocks : List Nat) : DevM Unit :=
  a.modify blocks clearBit

/-- The bits of one byte in `count_allocated`; the flag is the `break 'outer`. -/
def countBits (maxIndex offset : Nat) : List Nat → Nat → Nat → Nat × Bool
  | [], _, count => (count, false)
  | pos :: rest, el, count =>
    if offset + pos ≥ maxIndex then (count, true)
    else countBits maxIndex offset rest (el >>> 1)
      (if el &&& 1 ≠ 0 then count + 1 else count)

def countBytes (maxIndex i : Nat) (buf : Block) : List Nat → Nat → DevM (Nat × Bool)
  | [], count => pure (count, false)
  | j :: rest, count =>
    if buf.byte j = 0 then countBytes maxIndex i buf rest count
    else do
      let offset ← getIndex i j 0
      match countBits maxIndex offset (List.range 8) (buf.byte j).toNat count with
      | (count, false) => countBytes maxIndex i buf rest count
      | r => pure r

def countBlocks (a : BitmapAllocator) : List Nat → Nat → DevM Nat
  | [], count => pure count
  | i :: rest, count => do
    let addr ← add32 i a.start
    let buf ← readBlock addr
    let r ← countBytes a.maxIndex i buf (List.range BLOCK_SIZE) count
    match r with
    | (count, false) => countBlocks a rest count
    | (count, true) => pure count

def countAllocated (a : BitmapAllocator) : DevM Nat := countBlocks a (List.range a.size) 0

end BitmapAllocator

end FerrisFS
