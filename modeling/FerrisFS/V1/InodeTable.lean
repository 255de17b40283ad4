import FerrisFS.V1.View

/-!
# The inode table as an array

`write_inode` and `read_inode` on any device, formatted or not: a record is read back
as it was written, its neighbours and every byte around it stay, and an index past the
table is refused before the device is touched.
-/

namespace FerrisFS

open Lib

namespace INodeTableHandler

variable {h : INodeTableHandler} {d d' : MemoryDevice} {i j : Nat} {v : INode}

/-- The number of records of the table. -/
def capacity (h : INodeTableHandler) : Nat := h.inodeTableBlocks * INode.inodesPerBlock

/-- The block that holds record `i`. -/
def blockOf (h : INodeTableHandler) (i : Nat) : Nat :=
  h.inodeTableStart + i / INode.inodesPerBlock

/-- Byte `b` of block `k` belongs to record `i`. -/
def InRecord (h : INodeTableHandler) (i k b : Nat) : Prop :=
  k = h.blockOf i ∧ i % 2 * 96 ≤ b ∧ b < i % 2 * 96 + 96

/-- The block of record `i` with `v` in its place. -/
def patched (v : INode) (i : Nat) (block : Block) : Block :=
  block.splice (i % INode.inodesPerBlock * INode.onDiskSize)
    ((v.serialize Block.zero).slice 0 INode.onDiskSize)

/-- `d'` is `d` after the store of `v` at index `i`. -/
structure StoredAt (h : INodeTableHandler) (i : Nat) (v : INode) (d d' : MemoryDevice) : Prop where
  same : h.readInode i d' = .ok v d'
  other : ∀ j < h.capacity, j ≠ i → (h.readInode j d').answer? = (h.readInode j d).answer?
  length : d'.blocks.length = d.blocks.length
  frame : ∀ k b, ¬ h.InRecord i k b → (d'.block k).byte b = (d.block k).byte b

/-! ## What the two calls do -/

theorem mul32_capacity (hcap : h.capacity < U32) :
    (mul32 h.inodeTableBlocks INode.inodesPerBlock : DevM Nat) d = .ok h.capacity d :=
  mul32_of_lt hcap

theorem readInode_of_lt (hcap : h.capacity < U32) (hi : i < h.capacity)
    (hadd : h.blockOf i < U32) (hlt : h.blockOf i < d.blockCount) :
    h.readInode i d = .ok (d.inodeAt h.inodeTableStart i) d := by
  rw [readInode, Prog.bind_of_ok (mul32_capacity hcap), if_neg (Nat.not_le.mpr hi)]
  exact (Prog.bind_of_ok (Prog.checkedAdd_of_lt hadd) _).trans
    (Prog.bind_of_ok (readBlock_of_lt hlt) _)

/-- An index past the table is refused. -/
theorem readInode_of_ge (hcap : h.capacity < U32) (hi : h.capacity ≤ i) :
    h.readInode i d = .err (.invalidInput (.inodeIndexOOB i h.capacity)) d := by
  rw [readInode, Prog.bind_of_ok (mul32_capacity hcap), if_pos hi]
  rfl

/-- A table that reaches past the device. -/
theorem readInode_of_outside (hcap : h.capacity < U32) (hi : i < h.capacity)
    (hadd : h.blockOf i < U32) (hge : ¬ h.blockOf i < d.blockCount) :
    h.readInode i d =
      .err (.invalidInput (.blockIndexOOB (h.blockOf i) d.blockCount)) d := by
  have hread : readBlock (h.blockOf i) d =
      .err (.invalidInput (.blockIndexOOB (h.blockOf i) d.blockCount)) d :=
    if_pos (Nat.not_lt.mp hge)
  rw [readInode, Prog.bind_of_ok (mul32_capacity hcap), if_neg (Nat.not_le.mpr hi)]
  exact (Prog.bind_of_ok (Prog.checkedAdd_of_lt hadd) _).trans (Prog.bind_of_err hread _)

theorem readInode_of_overflow (hcap : h.capacity < U32) (hi : i < h.capacity)
    (hadd : ¬ h.blockOf i < U32) : h.readInode i d = .panic := by
  rw [readInode, Prog.bind_of_ok (mul32_capacity hcap), if_neg (Nat.not_le.mpr hi)]
  exact Prog.bind_of_panic (Prog.checkedAdd_of_ge hadd) _

/-- The size of the table overflows. -/
theorem readInode_of_huge (hcap : ¬ h.capacity < U32) : h.readInode i d = .panic :=
  Prog.bind_of_panic (mul32_of_ge hcap) _

theorem writeInode_of_ge (hcap : h.capacity < U32) (hi : h.capacity ≤ i) :
    h.writeInode i v d = .err (.invalidInput (.inodeIndexOOB i h.capacity)) d := by
  rw [writeInode, Prog.bind_of_ok (mul32_capacity hcap), if_pos hi]
  rfl

/-- What a write that succeeds has checked, and what it did. -/
theorem of_writeInode_ok (hrun : h.writeInode i v d = .ok () d') :
    h.capacity < U32 ∧ i < h.capacity ∧ h.blockOf i < U32 ∧ h.blockOf i < d.blockCount ∧
      d' = d.setBlock (h.blockOf i) (patched v i (d.block (h.blockOf i))) := by
  obtain ⟨max, s₁, hmul, hrun⟩ := Prog.of_ok_bind hrun
  unfold mul32 at hmul
  split at hmul
  · rename_i hcap
    cases hmul
    obtain ⟨hi, hrun⟩ := Prog.of_ok_guard hrun
    obtain ⟨k, s₂, hadd, hrun⟩ := Prog.of_ok_bind hrun
    unfold add32 Prog.checkedAdd at hadd
    split at hadd
    · rename_i hlt
      cases hadd
      obtain ⟨block, s₃, hread, hwrite⟩ := Prog.of_ok_bind hrun
      by_cases hk : h.blockOf i < d.blockCount
      · cases (readBlock_of_lt hk).symm.trans hread
        cases (writeBlock_of_lt hk).symm.trans hwrite
        exact ⟨hcap, Nat.not_le.mp hi, hlt, hk, rfl⟩
      · have herr : readBlock (h.blockOf i) d =
            .err (.invalidInput (.blockIndexOOB (h.blockOf i) d.blockCount)) d :=
          if_pos (Nat.not_lt.mp hk)
        cases herr.symm.trans hread
    · cases hadd
  · cases hmul

/-! ## The bytes around a record -/

theorem patch_length (v : INode) :
    ((v.serialize Block.zero).slice 0 INode.onDiskSize).length = 96 := by
  rw [Geom.serialize_slice, List.length_append, v.bytes_length]
  rfl

theorem patched_byte {block : Block} {b : Nat}
    (hb : ¬ (i % 2 * 96 ≤ b ∧ b < i % 2 * 96 + 96)) :
    (patched v i block).byte b = block.byte b := by
  have hlen := patch_length v
  have hoff : i % INode.inodesPerBlock * INode.onDiskSize = i % 2 * 96 := rfl
  have hfit : i % 2 * 96 + ((v.serialize Block.zero).slice 0 INode.onDiskSize).length ≤
      BLOCK_SIZE := by
    rw [hlen]
    simp only [BLOCK_SIZE]
    omega
  rw [patched, hoff, Block.byte, Block.splice_bytes hfit, List.getD_eq_getElem?_getD,
    splice_getElem? (by rw [block.size]; exact hfit), hlen, if_neg hb, Block.byte,
    List.getD_eq_getElem?_getD]

/-- What a read answers depends on the record and on the number of blocks. -/
theorem readInode_congr (hd : d'.blockCount = d.blockCount)
    (hj : d'.inodeAt h.inodeTableStart j = d.inodeAt h.inodeTableStart j) :
    (h.readInode j d').answer? = (h.readInode j d).answer? := by
  by_cases hcap : h.capacity < U32
  · by_cases hlt : j < h.capacity
    · by_cases hadd : h.blockOf j < U32
      · by_cases hk : h.blockOf j < d.blockCount
        · rw [readInode_of_lt hcap hlt hadd hk, readInode_of_lt hcap hlt hadd (hd.symm ▸ hk), hj]
          rfl
        · rw [readInode_of_outside hcap hlt hadd hk,
            readInode_of_outside hcap hlt hadd (hd.symm ▸ hk), hd]
          rfl
      · rw [readInode_of_overflow hcap hlt hadd, readInode_of_overflow hcap hlt hadd]
    · rw [readInode_of_ge hcap (Nat.not_lt.mp hlt), readInode_of_ge hcap (Nat.not_lt.mp hlt)]
      rfl
  · rw [readInode_of_huge hcap, readInode_of_huge hcap]

/-- A write that succeeds changes one record of the array. -/
theorem storedAt_of_write (hv : v.InRange) (hrun : h.writeInode i v d = .ok () d') :
    h.StoredAt i v d d' := by
  obtain ⟨hcap, hi, hadd, hlt, rfl⟩ := of_writeInode_ok hrun
  have hrec : ∀ j, (d.setBlock (h.blockOf i) (patched v i (d.block (h.blockOf i)))).inodeAt
      h.inodeTableStart j = if j = i then v else d.inodeAt h.inodeTableStart j :=
    fun j => Geom.inodeAt_setBlock hlt hv
  exact
    { same := by
        rw [readInode_of_lt hcap hi hadd (by rw [MemoryDevice.setBlock_blockCount]; exact hlt),
          hrec, if_pos rfl]
      other := by
        intro j _ hji
        exact readInode_congr (MemoryDevice.setBlock_blockCount _ _ _) (by rw [hrec, if_neg hji])
      length := MemoryDevice.setBlock_length _ _ _
      frame := by
        intro k b hkb
        rw [MemoryDevice.block_setBlock hlt]
        split
        · rename_i hk
          subst hk
          exact patched_byte fun hb => hkb ⟨rfl, hb⟩
        · rfl }

end INodeTableHandler

/-- The inode table is an array of records. -/
theorem inode_table_array (h : INodeTableHandler) (d : MemoryDevice) (v : INode)
    (hv : v.InRange) (i : Nat) (hi : i < U32) :
    (∀ d', h.writeInode i v d = .ok () d' → h.StoredAt i v d d') ∧
      (h.capacity ≤ i → ∃ e, h.writeInode i v d = .err e d ∧ h.readInode i d = .err e d) := by
  constructor
  · intro d' hrun
    exact INodeTableHandler.storedAt_of_write hv hrun
  · intro hge
    have hcap : h.capacity < U32 := Nat.lt_of_le_of_lt hge hi
    exact ⟨_, INodeTableHandler.writeInode_of_ge hcap hge,
      INodeTableHandler.readInode_of_ge hcap hge⟩

/-- Both records of a table of one block. -/
theorem inode_table_array_second : ∃ d', INodeTableHandler.writeInode ⟨1, 1, 2⟩ 1
    (INode.empty .symlink 7 9) (MemoryDevice.empty 2) = .ok () d' ∧
      INodeTableHandler.StoredAt ⟨1, 1, 2⟩ 1 (INode.empty .symlink 7 9)
        (MemoryDevice.empty 2) d' := by
  have hv : (INode.empty .symlink 7 9).InRange := by
    constructor <;> simp [INode.empty, INVALID_ADDRESS]
  have harray := inode_table_array ⟨1, 1, 2⟩ (MemoryDevice.empty 2) (INode.empty .symlink 7 9)
    hv 1 (by decide)
  have hrun : ∃ d', INodeTableHandler.writeInode ⟨1, 1, 2⟩ 1 (INode.empty .symlink 7 9)
      (MemoryDevice.empty 2) = .ok () d' := ⟨_, rfl⟩
  obtain ⟨d', hrun⟩ := hrun
  exact ⟨d', hrun, harray.1 d' hrun⟩

end FerrisFS
