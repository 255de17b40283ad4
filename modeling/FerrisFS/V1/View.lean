import FerrisFS.V1.Bitmap
import FerrisFS.V1.INode
import FerrisFS.Lib.Refine
import Mathlib.Logic.Function.Basic
import Mathlib.Data.List.OfFn

/-!
# The device as the format sees it

`Geom` is the layout that `format` computes; `View` is what a device with that
layout holds: the two bitmaps, the inode table and the data region. The regions
are disjoint, so a write to one of them is an update of one field of the view.
-/

namespace FerrisFS

open Lib

/-! ## The inode record and its bytes -/

namespace INode

/-- Every field fits its place on the device. -/
structure InRange (n : INode) : Prop where
  size : n.size < 2 ^ 64
  permissions : n.permissions < 2 ^ 16
  links : n.links < 2 ^ 16
  blocks : n.blocks < 2 ^ 32
  direct : ∀ i, n.direct i < 2 ^ 32
  indirect : n.indirect < 2 ^ 32
  double : n.double < 2 ^ 32
  created : n.created < 2 ^ 64
  modified : n.modified < 2 ^ 64

theorem bytes_length (n : INode) : n.bytes.length = 92 := by
  simp [bytes]

/-- Reading back the bytes of an inode. -/
theorem deserialize_of_bytes {n : INode} {buf : Block} {rest : List UInt8}
    (h : n.InRange) (hb : buf.bytes = n.bytes ++ rest) : deserialize buf = n := by
  have field : ∀ (pre mid post : List UInt8) {off w : Nat}, buf.bytes = pre ++ (mid ++ post) →
      off = pre.length → w = mid.length → buf.slice off w = mid := by
    intro pre mid post off w heq ho hw
    rw [Block.slice, heq]
    exact slice_append_mid ho hw
  set dir := (List.ofFn n.direct).flatMap (leBytes 4) with hdir
  have hdirLen : dir.length = 48 := by
    simp [hdir]
  set ty : List UInt8 := [n.fileType.toByte, 0] with hty
  simp only [bytes, List.append_assoc, ← hdir, ← hty] at hb
  have hsize : buf.slice 0 8 = leBytes 8 n.size :=
    field [] _ _ hb rfl (by simp)
  have hperm : buf.slice 10 2 = leBytes 2 n.permissions :=
    field (leBytes 8 n.size ++ ty) _ _ (by simp only [List.append_assoc]; exact hb)
      (by simp [hty]) (by simp)
  have hlinks : buf.slice 12 2 = leBytes 2 n.links :=
    field (leBytes 8 n.size ++ (ty ++ leBytes 2 n.permissions)) _ _
      (by simp only [List.append_assoc]; exact hb) (by simp [hty]) (by simp)
  have hblocks : buf.slice 16 4 = leBytes 4 n.blocks :=
    field (leBytes 8 n.size ++ (ty ++ (leBytes 2 n.permissions ++ (leBytes 2 n.links ++
      [0, 0])))) _ _ (by simp only [List.append_assoc]; exact hb) (by simp [hty]) (by simp)
  set head := leBytes 8 n.size ++ (ty ++ (leBytes 2 n.permissions ++ (leBytes 2 n.links ++
    ([0, 0] ++ leBytes 4 n.blocks)))) with hhead
  have hheadLen : head.length = 20 := by
    simp [hhead, hty]
  have htail : buf.bytes = head ++ (dir ++ (leBytes 4 n.indirect ++ (leBytes 4 n.double ++
      (leBytes 8 n.created ++ (leBytes 8 n.modified ++ rest))))) := by
    rw [hb]
    simp [hhead]
  have hind : buf.slice 68 4 = leBytes 4 n.indirect :=
    field (head ++ dir) _ _ (by simp only [List.append_assoc]; exact htail)
      (by simp [hheadLen, hdirLen]) (by simp)
  have hdouble : buf.slice 72 4 = leBytes 4 n.double :=
    field (head ++ (dir ++ leBytes 4 n.indirect)) _ _
      (by simp only [List.append_assoc]; exact htail) (by simp [hheadLen, hdirLen]) (by simp)
  have hcreated : buf.slice 76 8 = leBytes 8 n.created :=
    field (head ++ (dir ++ (leBytes 4 n.indirect ++ leBytes 4 n.double))) _ _
      (by simp only [List.append_assoc]; exact htail) (by simp [hheadLen, hdirLen]) (by simp)
  have hmodified : buf.slice 84 8 = leBytes 8 n.modified :=
    field (head ++ (dir ++ (leBytes 4 n.indirect ++ (leBytes 4 n.double ++
      leBytes 8 n.created)))) _ _ (by simp only [List.append_assoc]; exact htail)
      (by simp [hheadLen, hdirLen]) (by simp)
  have hdirect : ∀ i : Fin 12, buf.slice (20 + 4 * i) 4 = leBytes 4 (n.direct i) := by
    intro i
    have hoff : 20 + 4 * (i : Nat) - head.length = 4 * i := by omega
    rw [Block.slice, htail, slice_append_right (by omega), hoff, hdir,
      slice_flatMap_leBytes _ i (by rw [List.length_ofFn]; exact i.isLt), List.getElem_ofFn]
  have htype : buf.byte 8 = n.fileType.toByte := by
    rw [Block.byte, hb, List.getD_eq_getElem?_getD, List.getElem?_append_right (by simp)]
    simp [hty]
  ext
  · simp only [deserialize, hsize]
    exact leNat_leBytes h.size
  · simp only [deserialize, htype, FileType.ofByte_toByte]
  · simp only [deserialize, hperm]
    exact leNat_leBytes h.permissions
  · rename_i i
    simp only [deserialize, Block.u32, hdirect i]
    exact leNat_leBytes (h.direct i)
  · simp only [deserialize, Block.u32, hind]
    exact leNat_leBytes h.indirect
  · simp only [deserialize, Block.u32, hdouble]
    exact leNat_leBytes h.double
  · simp only [deserialize, hcreated]
    exact leNat_leBytes h.created
  · simp only [deserialize, hmodified]
    exact leNat_leBytes h.modified
  · simp only [deserialize, hlinks]
    exact leNat_leBytes h.links
  · simp only [deserialize, Block.u32, hblocks]
    exact leNat_leBytes h.blocks

theorem inRange_deserialize (buf : Block) : (deserialize buf).InRange := by
  have bound : ∀ off w, leNat (buf.slice off w) < 256 ^ w := by
    intro off w
    refine Nat.lt_of_lt_of_le (leNat_lt _) (Nat.pow_le_pow_right (by decide) ?_)
    simp only [Block.slice, Lib.slice, List.length_take]
    omega
  exact
    { size := bound 0 8
      permissions := bound 10 2
      links := bound 12 2
      blocks := bound 16 4
      direct := fun i => bound (20 + 4 * i) 4
      indirect := bound 68 4
      double := bound 72 4
      created := bound 76 8
      modified := bound 84 8 }

end INode

/-! ## The layout -/

/-- The layout of a formatted device. -/
structure Geom where
  totalBlocks : Nat
  inodeBitmapBlocks : Nat
  blockBitmapBlocks : Nat
  inodeTableBlocks : Nat
  hasData : 1 + inodeBitmapBlocks + blockBitmapBlocks + inodeTableBlocks < totalBlocks
  small : totalBlocks < 2 ^ 24
  inodeBitmap_pos : 0 < inodeBitmapBlocks
  inodeTable_pos : 0 < inodeTableBlocks
  blockBitmap_covers : totalBlocks ≤ 2048 * blockBitmapBlocks
  bitmaps_indexed : 2048 * (inodeBitmapBlocks + blockBitmapBlocks) ≤ 2 ^ 32

namespace Geom

variable (g : Geom)

def blockBitmapStart : Nat := 1 + g.inodeBitmapBlocks
def inodeTableStart : Nat := g.blockBitmapStart + g.blockBitmapBlocks
def dataStart : Nat := g.inodeTableStart + g.inodeTableBlocks

/-- Number of data blocks. -/
def cap : Nat := g.totalBlocks - g.dataStart

/-- Number of slots of the inode table. -/
def inodes : Nat := g.inodeTableBlocks * 2

theorem dataStart_add_cap : g.dataStart + g.cap = g.totalBlocks := by
  have := g.hasData
  simp only [cap, dataStart, inodeTableStart, blockBitmapStart]
  omega

theorem cap_pos : 0 < g.cap := by
  have := g.hasData
  simp only [cap, dataStart, inodeTableStart, blockBitmapStart]
  omega

theorem cap_le_bits : g.cap ≤ 2048 * g.blockBitmapBlocks :=
  Nat.le_trans (Nat.sub_le _ _) g.blockBitmap_covers

theorem cap_lt : g.cap < 2 ^ 24 :=
  Nat.lt_of_le_of_lt (Nat.sub_le _ _) g.small

end Geom

/-! ## The view of a device -/

/-- Bit `i` of the bitmap that starts at block `start`. -/
def MemoryDevice.bitAt (d : MemoryDevice) (start i : Nat) : Bool :=
  ((d.block (start + i / 8 / BLOCK_SIZE)).byte (i / 8 % BLOCK_SIZE)).toNat.testBit (i % 8)

/-- Slot `i` of the inode table that starts at block `start`. -/
def MemoryDevice.inodeAt (d : MemoryDevice) (start i : Nat) : INode :=
  INode.deserialize (Block.zero.splice 0
    ((d.block (start + i / INode.inodesPerBlock)).slice
      (i % INode.inodesPerBlock * INode.onDiskSize) INode.onDiskSize))

/-- The contents of the data region. -/
abbrev Region := Nat → Block

/-- What a device holds, region by region; outside its range a region is blank. -/
@[ext] structure View where
  ibit : Nat → Bool
  dbit : Nat → Bool
  ino : Nat → INode
  data : Region

namespace Geom

variable (g : Geom)

def view (d : MemoryDevice) : View where
  ibit i := decide (i < 2048 * g.inodeBitmapBlocks) && d.bitAt 1 i
  dbit i := decide (i < 2048 * g.blockBitmapBlocks) && d.bitAt g.blockBitmapStart i
  ino i := if i < g.inodes then d.inodeAt g.inodeTableStart i else INode.empty .file 0 0
  data i := if i < g.cap then d.block (g.dataStart + i) else Block.zero

/-- `d` is a device of this layout that holds `v`. -/
def Holds (d : MemoryDevice) (v : View) : Prop := d.blockCount = g.totalBlocks ∧ g.view d = v

variable {g} {d d' : MemoryDevice} {v : View}

theorem holds_self (h : d.blockCount = g.totalBlocks) : g.Holds d (g.view d) := ⟨h, rfl⟩

/-! Each region is read off its own blocks. -/

theorem view_ibit_congr (h : ∀ k, 1 ≤ k → k < g.blockBitmapStart → d'.block k = d.block k) :
    (g.view d').ibit = (g.view d).ibit := by
  funext i
  by_cases hi : i < 2048 * g.inodeBitmapBlocks
  · have hk : 1 + i / 8 / BLOCK_SIZE < g.blockBitmapStart := by
      simp only [blockBitmapStart, BLOCK_SIZE]
      omega
    simp only [view, MemoryDevice.bitAt, h _ (Nat.le_add_right _ _) hk]
  · simp only [view, hi, decide_false, Bool.false_and]

theorem view_dbit_congr
    (h : ∀ k, g.blockBitmapStart ≤ k → k < g.inodeTableStart → d'.block k = d.block k) :
    (g.view d').dbit = (g.view d).dbit := by
  funext i
  by_cases hi : i < 2048 * g.blockBitmapBlocks
  · have hk : g.blockBitmapStart + i / 8 / BLOCK_SIZE < g.inodeTableStart := by
      simp only [inodeTableStart, BLOCK_SIZE]
      omega
    simp only [view, MemoryDevice.bitAt, h _ (Nat.le_add_right _ _) hk]
  · simp only [view, hi, decide_false, Bool.false_and]

theorem view_ino_congr
    (h : ∀ k, g.inodeTableStart ≤ k → k < g.dataStart → d'.block k = d.block k) :
    (g.view d').ino = (g.view d).ino := by
  funext i
  by_cases hi : i < g.inodes
  · have hk : g.inodeTableStart + i / INode.inodesPerBlock < g.dataStart := by
      simp only [inodes] at hi
      simp only [dataStart, INode.inodesPerBlock, INode.onDiskSize, BLOCK_SIZE]
      omega
    simp only [view, hi, if_true, MemoryDevice.inodeAt, h _ (Nat.le_add_right _ _) hk]
  · simp only [view, hi, if_false]

theorem view_data_congr
    (h : ∀ k, g.dataStart ≤ k → k < g.totalBlocks → d'.block k = d.block k) :
    (g.view d').data = (g.view d).data := by
  funext i
  by_cases hi : i < g.cap
  · have hk : g.dataStart + i < g.totalBlocks := by
      have := g.dataStart_add_cap
      omega
    simp only [view, hi, if_true, h _ (Nat.le_add_right _ _) hk]
  · simp only [view, hi, if_false]

/-! ## Reads and writes, region by region -/

theorem Holds.data_lt (h : g.Holds d v) {b : Nat} (hb : b < g.cap) :
    g.dataStart + b < d.blockCount := by
  rw [h.1, ← g.dataStart_add_cap]
  omega

theorem runs_readData {b : Nat} (hb : b < g.cap) :
    Prog.Runs g.Holds (readBlock (g.dataStart + b)) v (v.data b) v := by
  intro d hd
  refine ⟨d, ?_, hd⟩
  rw [readBlock_of_lt (hd.data_lt hb), ← hd.2]
  simp only [view, hb, if_true]

theorem runs_writeData {b : Nat} {buf : Block} (hb : b < g.cap) :
    Prog.Runs g.Holds (writeBlock (g.dataStart + b) buf) v ()
      { v with data := Function.update v.data b buf } := by
  intro d hd
  have hlt := hd.data_lt hb
  refine ⟨d.setBlock (g.dataStart + b) buf, writeBlock_of_lt hlt, ?_, ?_⟩
  · rw [MemoryDevice.setBlock_blockCount]
    exact hd.1
  rw [← hd.2]
  have hframe : ∀ k, k < g.dataStart →
      (d.setBlock (g.dataStart + b) buf).block k = d.block k := by
    intro k hk
    rw [MemoryDevice.block_setBlock hlt, if_neg (by omega)]
  ext1
  · exact view_ibit_congr fun k _ hk => hframe k (by
      simp only [dataStart, inodeTableStart]; omega)
  · exact view_dbit_congr fun k _ hk => hframe k (by simp only [dataStart]; omega)
  · exact view_ino_congr fun k _ hk => hframe k hk
  · funext i
    simp only [view, Function.update_apply, MemoryDevice.block_setBlock hlt,
      Nat.add_left_cancel_iff]
    by_cases hi : i = b
    · simp [hi, hb]
    · simp [hi]

/-- Block 0 holds the superblock, which is in no region. -/
theorem runs_writeZero {buf : Block} : Prog.Runs g.Holds (writeBlock 0 buf) v () v := by
  intro d hd
  have hlt : 0 < d.blockCount := by
    rw [hd.1]
    exact Nat.lt_of_le_of_lt (Nat.zero_le _) g.hasData
  refine ⟨d.setBlock 0 buf, writeBlock_of_lt hlt, ?_, ?_⟩
  · rw [MemoryDevice.setBlock_blockCount]
    exact hd.1
  rw [← hd.2]
  have hframe : ∀ k, 1 ≤ k → (d.setBlock 0 buf).block k = d.block k := by
    intro k hk
    rw [MemoryDevice.block_setBlock hlt, if_neg (by omega)]
  ext1
  · exact view_ibit_congr fun k hk _ => hframe k hk
  · exact view_dbit_congr fun k hk _ => hframe k (by
      simp only [blockBitmapStart] at hk; omega)
  · exact view_ino_congr fun k hk _ => hframe k (by
      simp only [inodeTableStart, blockBitmapStart] at hk; omega)
  · exact view_data_congr fun k hk _ => hframe k (by
      simp only [dataStart, inodeTableStart, blockBitmapStart] at hk; omega)

/-- The handler of this layout's inode table. -/
def inodeHandler (g : Geom) : INodeTableHandler :=
  ⟨g.inodeTableStart, g.inodeTableBlocks, g.dataStart⟩

/-- The block of slot `i` lies in the table. -/
theorem Holds.slot_lt (h : g.Holds d v) {i : Nat} (hi : i < g.inodes) :
    g.inodeTableStart + i / INode.inodesPerBlock < d.blockCount ∧
      g.inodeTableStart + i / INode.inodesPerBlock < g.dataStart := by
  have h2 : g.inodeTableStart + i / INode.inodesPerBlock < g.dataStart := by
    simp only [inodes] at hi
    simp only [dataStart, INode.inodesPerBlock, INode.onDiskSize, BLOCK_SIZE]
    omega
  have := g.dataStart_add_cap
  exact ⟨by rw [h.1]; omega, h2⟩

theorem slot_small {i : Nat} (hi : i < g.inodes) :
    g.inodeTableStart + i / INode.inodesPerBlock < U32 := by
  have hs := g.small
  have ht := g.hasData
  simp only [inodes] at hi
  simp only [inodeTableStart, blockBitmapStart, INode.inodesPerBlock, INode.onDiskSize,
    BLOCK_SIZE, U32]
  omega

/-- The number of inodes is a `u32`. -/
theorem mul32_inodes {σ : Type} (s : σ) :
    (mul32 g.inodeHandler.inodeTableBlocks INode.inodesPerBlock : Prog FSError σ Nat) s =
      .ok g.inodes s := by
  have hs := g.small
  have ht := g.hasData
  rw [mul32, if_pos]
  · rfl
  · simp only [inodeHandler, U32, INode.inodesPerBlock, INode.onDiskSize, BLOCK_SIZE]
    omega

theorem runs_mul32_inodes {R : MemoryDevice → View → Prop} : Prog.Runs R
    (mul32 g.inodeHandler.inodeTableBlocks INode.inodesPerBlock) v g.inodes v :=
  fun d hd => ⟨d, mul32_inodes d, hd⟩

theorem not_ge_inodes {i : Nat} :
    ¬ i ≥ g.inodeHandler.inodeTableBlocks * INode.inodesPerBlock ↔ i < g.inodes := by
  simp [inodeHandler, inodes, INode.inodesPerBlock, INode.onDiskSize, BLOCK_SIZE]

theorem runs_readInode {i : Nat} (hi : i < g.inodes) :
    Prog.Runs g.Holds (g.inodeHandler.readInode i) v (v.ino i) v := by
  refine runs_mul32_inodes.bind (Prog.Runs.guard (not_ge_inodes.mpr hi) ?_)
  refine (Prog.Runs.checkedAdd (slot_small hi)).bind ?_
  intro d hd
  refine ⟨d, ?_, hd⟩
  rw [Prog.bind_of_ok (readBlock_of_lt (hd.slot_lt hi).1), ← hd.2]
  simp only [view, hi, if_true, MemoryDevice.inodeAt, Prog.pure_apply]

/-- A failing read of the table leaves everything as it is. -/
theorem wpr_readInode {i : Nat} {Q : INode → View → Prop} {E : FSError → View → Prop}
    (hQ : i < g.inodes → Q (v.ino i) v) (hE : ∀ e, E e v) :
    Prog.wpr g.Holds (g.inodeHandler.readInode i) Q E v := by
  by_cases hi : i < g.inodes
  · exact (runs_readInode hi).wpr (hQ hi)
  · exact runs_mul32_inodes.seq
      (Prog.wpr_guard (fun _ => hE _) fun hn => absurd (not_ge_inodes.mp hn) hi)

/-- The bytes `write_inode` stores. -/
theorem serialize_slice (n : INode) :
    (n.serialize Block.zero).slice 0 INode.onDiskSize = n.bytes ++ List.replicate 4 0 := by
  have hlen := n.bytes_length
  rw [Block.slice, INode.serialize, Block.zero_splice_bytes (by rw [hlen]; decide), Lib.slice,
    List.drop_zero, INode.onDiskSize, List.take_append, hlen,
    List.take_of_length_le (by omega), List.take_replicate]
  rfl

/-- Writing slot `i` changes that slot and no other. -/
theorem inodeAt_setBlock {d : MemoryDevice} {start i j : Nat} {n : INode}
    (hlt : start + i / INode.inodesPerBlock < d.blockCount) (hn : n.InRange) :
    (d.setBlock (start + i / INode.inodesPerBlock)
      ((d.block (start + i / INode.inodesPerBlock)).splice
        (i % INode.inodesPerBlock * INode.onDiskSize)
        ((n.serialize Block.zero).slice 0 INode.onDiskSize))).inodeAt start j =
      if j = i then n else d.inodeAt start j := by
  have hlen : ((n.serialize Block.zero).slice 0 INode.onDiskSize).length = 96 := by
    rw [serialize_slice, List.length_append, n.bytes_length]
    rfl
  have hfit : i % INode.inodesPerBlock * INode.onDiskSize +
      ((n.serialize Block.zero).slice 0 INode.onDiskSize).length ≤ BLOCK_SIZE := by
    rw [hlen]
    simp only [INode.inodesPerBlock, INode.onDiskSize, BLOCK_SIZE]
    omega
  simp only [MemoryDevice.inodeAt, MemoryDevice.block_setBlock hlt, Nat.add_left_cancel_iff]
  by_cases hblk : j / INode.inodesPerBlock = i / INode.inodesPerBlock
  · simp only [hblk, if_true]
    by_cases hji : j = i
    · subst hji
      simp only [if_true]
      have hread : ((d.block (start + j / INode.inodesPerBlock)).splice
          (j % INode.inodesPerBlock * INode.onDiskSize)
          ((n.serialize Block.zero).slice 0 INode.onDiskSize)).slice
          (j % INode.inodesPerBlock * INode.onDiskSize) INode.onDiskSize =
            n.bytes ++ List.replicate 4 0 := by
        have hself := (d.block (start + j / INode.inodesPerBlock)).slice_splice_self hfit
        rw [hlen] at hself
        rw [← serialize_slice]
        exact hself
      have hzero := @Block.zero_splice_bytes (n.bytes ++ List.replicate 4 0)
        (by rw [List.length_append, n.bytes_length]; decide)
      rw [List.append_assoc] at hzero
      rw [hread, INode.deserialize_of_bytes hn hzero]
    · have hother : ((d.block (start + i / INode.inodesPerBlock)).splice
          (i % INode.inodesPerBlock * INode.onDiskSize)
          ((n.serialize Block.zero).slice 0 INode.onDiskSize)).slice
          (j % INode.inodesPerBlock * INode.onDiskSize) INode.onDiskSize =
            (d.block (start + i / INode.inodesPerBlock)).slice
              (j % INode.inodesPerBlock * INode.onDiskSize) INode.onDiskSize := by
        refine Block.slice_splice_of_disjoint hfit ?_
        rw [hlen]
        simp only [INode.inodesPerBlock, INode.onDiskSize, BLOCK_SIZE] at hblk ⊢
        omega
      simp only [hji, if_false, hother]
  · have hji : j ≠ i := fun h => hblk (by rw [h])
    simp only [hblk, hji, if_false]

theorem runs_writeInode {i : Nat} {n : INode} (hi : i < g.inodes) (hn : n.InRange) :
    Prog.Runs g.Holds (g.inodeHandler.writeInode i n) v ()
      { v with ino := Function.update v.ino i n } := by
  refine runs_mul32_inodes.bind (Prog.Runs.guard (not_ge_inodes.mpr hi) ?_)
  refine (Prog.Runs.checkedAdd (slot_small hi)).bind ?_
  intro d hd
  obtain ⟨hlt, htab⟩ := hd.slot_lt hi
  have hpos := Nat.zero_le (i / INode.inodesPerBlock)
  refine ⟨d.setBlock (g.inodeTableStart + i / INode.inodesPerBlock)
      ((d.block (g.inodeTableStart + i / INode.inodesPerBlock)).splice
        (i % INode.inodesPerBlock * INode.onDiskSize)
        ((n.serialize Block.zero).slice 0 INode.onDiskSize)), ?_, ?_, ?_⟩
  · exact (Prog.bind_of_ok (readBlock_of_lt hlt) _).trans (writeBlock_of_lt hlt)
  · rw [MemoryDevice.setBlock_blockCount]
    exact hd.1
  rw [← hd.2]
  ext1
  · refine view_ibit_congr fun k _ hk => ?_
    rw [MemoryDevice.block_setBlock hlt, if_neg (by simp only [inodeTableStart]; omega)]
  · refine view_dbit_congr fun k _ hk => ?_
    rw [MemoryDevice.block_setBlock hlt, if_neg (by omega)]
  · funext j
    simp only [view, inodeAt_setBlock hlt hn, Function.update_apply]
    by_cases hj : j = i
    · simp [hj, hi]
    · simp [hj]
  · refine view_data_congr fun k hk _ => ?_
    rw [MemoryDevice.block_setBlock hlt, if_neg (by omega)]

theorem view_ino_inRange (h : g.Holds d v) (i : Nat) : (v.ino i).InRange := by
  rw [← h.2]
  simp only [view]
  split
  · exact INode.inRange_deserialize _
  · constructor <;> simp [INode.empty, INVALID_ADDRESS]

end Geom

end FerrisFS
