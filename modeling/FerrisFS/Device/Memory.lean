import FerrisFS.Error
import FerrisFS.Lib.Bytes

/-!
# Blocks and the memory device

`device/block_device.rs` and `device/memory_device.rs`: a device is a vector of
256-byte blocks, and the only way a read or a write fails is an index at or past
`block_count`.
-/

namespace FerrisFS

open Lib

/-- `[u8; BLOCK_SIZE]`. -/
@[ext] structure Block where
  bytes : List UInt8
  size : bytes.length = BLOCK_SIZE
  deriving DecidableEq

namespace Block

def zero : Block := ⟨List.replicate BLOCK_SIZE 0, List.length_replicate⟩

instance : Inhabited Block := ⟨zero⟩

/-- `buf[off..off + n]`, for a range that lies in the block. -/
def slice (b : Block) (off n : Nat) : List UInt8 := Lib.slice b.bytes off n

/-- `buf[off..off + bs.len()].copy_from_slice(bs)`. The uses below are guarded:
a range that does not lie in the block panics before it gets here. -/
def splice (b : Block) (off : Nat) (bs : List UInt8) : Block :=
  if h : off + bs.length ≤ BLOCK_SIZE then
    ⟨Lib.splice b.bytes off bs, by rw [splice_length (by rw [b.size]; exact h), b.size]⟩
  else b

/-- `buf[i]`. -/
def byte (b : Block) (i : Nat) : UInt8 := b.bytes.getD i 0

/-- The little-endian `u32` at `off`. -/
def u32 (b : Block) (off : Nat) : Nat := leNat (b.slice off 4)

theorem splice_bytes {b : Block} {off : Nat} {bs : List UInt8}
    (h : off + bs.length ≤ BLOCK_SIZE) : (b.splice off bs).bytes = Lib.splice b.bytes off bs := by
  simp [splice, h]

theorem slice_splice_self {b : Block} {off : Nat} {bs : List UInt8}
    (h : off + bs.length ≤ BLOCK_SIZE) : (b.splice off bs).slice off bs.length = bs := by
  rw [slice, splice_bytes h]
  exact Lib.slice_splice_self (by rw [b.size]; exact h)

theorem slice_splice_of_disjoint {b : Block} {off : Nat} {bs : List UInt8} {o n : Nat}
    (h : off + bs.length ≤ BLOCK_SIZE) (hd : o + n ≤ off ∨ off + bs.length ≤ o) :
    (b.splice off bs).slice o n = b.slice o n := by
  rw [slice, splice_bytes h]
  exact Lib.slice_splice_of_disjoint (by rw [b.size]; exact h) hd

theorem byte_splice {b : Block} {j i : Nat} {x : UInt8} (h : j < BLOCK_SIZE) :
    (b.splice j [x]).byte i = if i = j then x else b.byte i := by
  have hfit : j + [x].length ≤ BLOCK_SIZE := h
  have hlen : j + [x].length ≤ b.bytes.length := by
    rw [b.size]
    exact hfit
  rw [byte, splice_bytes hfit, List.getD_eq_getElem?_getD, splice_getElem? hlen]
  by_cases hij : i = j
  · simp [hij]
  · rw [if_neg (by simp only [List.length_singleton]; omega), if_neg hij, byte,
      List.getD_eq_getElem?_getD]

/-- A zeroed buffer after a write at its start. -/
theorem zero_splice_bytes {bs : List UInt8} (h : bs.length ≤ BLOCK_SIZE) :
    (zero.splice 0 bs).bytes = bs ++ List.replicate (BLOCK_SIZE - bs.length) 0 := by
  rw [splice_bytes (by omega)]
  simp only [Lib.splice, zero, List.take_zero, List.nil_append, Nat.zero_add,
    List.drop_replicate]

end Block

/-- Represents a storage system stored in memory. -/
structure MemoryDevice where
  blocks : List Block
  deriving DecidableEq

/-- Programs on the device. -/
abbrev DevM := Prog FSError MemoryDevice

namespace MemoryDevice

def empty (blocks : Nat) : MemoryDevice := ⟨List.replicate blocks Block.zero⟩

/-- `self.blocks.len() as u32`. -/
def blockCount (d : MemoryDevice) : Nat := d.blocks.length % U32

/-- `self.blocks[block]`. -/
def block (d : MemoryDevice) (block : Nat) : Block := d.blocks.getD block Block.zero

def setBlock (d : MemoryDevice) (block : Nat) (buf : Block) : MemoryDevice :=
  ⟨d.blocks.set block buf⟩

end MemoryDevice

def readBlock (block : Nat) : DevM Block := fun d =>
  if block ≥ d.blockCount then
    .err (.invalidInput (.blockIndexOOB block d.blockCount)) d
  else .ok (d.block block) d

def writeBlock (block : Nat) (buf : Block) : DevM Unit := fun d =>
  if block ≥ d.blockCount then
    .err (.invalidInput (.blockIndexOOB block d.blockCount)) d
  else .ok () (d.setBlock block buf)

/-- `u32` addition: an overflow panics. -/
abbrev add32 {σ : Type} (a b : Nat) : Prog FSError σ Nat := Prog.checkedAdd U32 a b

/-- `u32` multiplication: an overflow panics. -/
def mul32 {σ : Type} (a b : Nat) : Prog FSError σ Nat :=
  if a * b < U32 then pure (a * b) else Prog.abort

theorem mul32_of_lt {σ : Type} {a b : Nat} {s : σ} (h : a * b < U32) :
    (mul32 a b : Prog FSError σ Nat) s = .ok (a * b) s := by
  rw [mul32, if_pos h]
  rfl

theorem mul32_of_ge {σ : Type} {a b : Nat} {s : σ} (h : ¬ a * b < U32) :
    (mul32 a b : Prog FSError σ Nat) s = .panic := by
  rw [mul32, if_neg h]
  rfl

/-! ## What reads and writes do -/

namespace MemoryDevice

variable {d : MemoryDevice} {i j : Nat} {b : Block}

@[simp] theorem setBlock_length (d : MemoryDevice) (i : Nat) (b : Block) :
    (d.setBlock i b).blocks.length = d.blocks.length := by
  simp [setBlock]

@[simp] theorem setBlock_blockCount (d : MemoryDevice) (i : Nat) (b : Block) :
    (d.setBlock i b).blockCount = d.blockCount := by
  simp [blockCount]

theorem lt_length_of_lt_blockCount (h : i < d.blockCount) : i < d.blocks.length :=
  Nat.lt_of_lt_of_le h (Nat.mod_le _ _)

theorem block_setBlock (h : i < d.blockCount) :
    (d.setBlock i b).block j = if j = i then b else d.block j := by
  have hi := lt_length_of_lt_blockCount h
  simp only [block, setBlock, List.getD_eq_getElem?_getD, List.getElem?_set]
  by_cases hij : i = j
  · subst hij
    simp [hi]
  · simp [hij, Ne.symm hij]

@[simp] theorem setBlock_setBlock (d : MemoryDevice) (i : Nat) (b b' : Block) :
    (d.setBlock i b).setBlock i b' = d.setBlock i b' := by
  simp [setBlock]

end MemoryDevice

variable {d : MemoryDevice} {i : Nat} {b : Block}

theorem readBlock_of_lt (h : i < d.blockCount) : readBlock i d = .ok (d.block i) d := by
  simp [readBlock, Nat.not_le.mpr h]

theorem writeBlock_of_lt (h : i < d.blockCount) :
    writeBlock i b d = .ok () (d.setBlock i b) := by
  simp [writeBlock, Nat.not_le.mpr h]

end FerrisFS
