import FerrisFS.V1.Mount
import Mathlib.Algebra.Order.Floor.Div

/-!
# The layout of the documentation

`docs/format-v1.md` derives the regions from the number of blocks. `format` evaluates
the same formulas on `u32`s: outside of 5 to 2^24 - 1 blocks one of the operations has
no result, and nothing is checked before.
-/

namespace FerrisFS

open Lib FormatV1

/-- The layout of a device of `n` blocks as documented, in exact integers, with the root
directory in inode 0 and data block 0. -/
structure Superblock.Documented (sb : Superblock) (n : Nat) : Prop where
  totalBlocks : sb.totalBlocks = n
  inodeTableBlocks : sb.inodeTableBlocks = CeilDiv.ceilDiv (CeilDiv.ceilDiv (256 * n) 1024) 2
  inodeBitmapBlocks : sb.inodeBitmapBlocks = CeilDiv.ceilDiv sb.inodeTableBlocks 2048
  blockBitmapBlocks : sb.blockBitmapBlocks = CeilDiv.ceilDiv n 2048
  inodeBitmapStart : sb.inodeBitmapStart = 1
  blockBitmapStart : sb.blockBitmapStart = sb.inodeBitmapStart + sb.inodeBitmapBlocks
  inodeTableStart : sb.inodeTableStart = sb.blockBitmapStart + sb.blockBitmapBlocks
  dataStart : sb.dataStart = sb.inodeTableStart + sb.inodeTableBlocks
  freeInodes : (sb.freeInodes : Int) = sb.inodeTableBlocks * 2 - 1
  freeData : (sb.freeData : Int) = n - sb.dataStart - 1

/-- `format` refuses the device, or writes the documented layout. -/
def FormatsExactly (now : UInt64) (d : MemoryDevice) : Prop :=
  (∃ e d', FormatV1.format now d = .err e d') ∨
    ∃ d', FormatV1.format now d = .ok () d' ∧
      (Superblock.deserialize (d'.block 0)).Documented d.blockCount

variable {d : MemoryDevice} {now : UInt64}

/-- The superblock of a layout is the documented one. -/
theorem documented_ofCount {n : Nat} (h5 : 5 ≤ n) (hsmall : n < 2 ^ 24) :
    ((Geom.ofCount n h5 hsmall).superblock ((Geom.ofCount n h5 hsmall).inodes - 1)
      ((Geom.ofCount n h5 hsmall).cap - 1)).Documented n where
  totalBlocks := rfl
  inodeTableBlocks := rfl
  inodeBitmapBlocks := rfl
  blockBitmapBlocks := rfl
  inodeBitmapStart := rfl
  blockBitmapStart := rfl
  inodeTableStart := rfl
  dataStart := rfl
  freeInodes := by
    have hpos := (Geom.ofCount n h5 hsmall).inodeTable_pos
    simp only [Geom.superblock, Geom.inodes]
    omega
  freeData := by
    have hcap := (Geom.ofCount n h5 hsmall).dataStart_add_cap
    have hpos := (Geom.ofCount n h5 hsmall).cap_pos
    have htotal : (Geom.ofCount n h5 hsmall).totalBlocks = n := rfl
    simp only [Geom.superblock]
    omega

theorem formatsExactly_of_range (h5 : 5 ≤ d.blockCount) (hsmall : d.blockCount < 2 ^ 24) :
    FormatsExactly now d := by
  obtain ⟨d', hformat, hfresh⟩ := format_ok h5 hsmall now
  refine .inr ⟨d', hformat, ?_⟩
  obtain ⟨g, hg⟩ : ∃ g, g = Geom.ofCount d.blockCount h5 hsmall := ⟨_, rfl⟩
  have hdoc := documented_ofCount h5 hsmall
  rw [← hg] at hfresh hdoc
  have hread : Superblock.deserialize (d'.block 0) = g.superblock (g.inodes - 1) (g.cap - 1) := by
    have hsmall := g.small
    have hdata := g.hasData
    have hcap := g.cap_lt
    have hinodes : g.inodes = g.inodeTableBlocks * 2 := rfl
    rw [hfresh.superblock]
    exact Superblock.deserialize_serialize (by decide : MAGIC < 2 ^ 64)
      (Geom.superblock_words (by omega) (by omega)) _
  rw [hread]
  exact hdoc

/-- A run that neither returns nor fails. -/
theorem format_panics (h : ¬ (5 ≤ d.blockCount ∧ d.blockCount < 2 ^ 24)) :
    FormatV1.format now d = .panic := by
  have hwp : Prog.wp (FormatV1.format now) (fun _ _ => False) (fun _ _ => False) d := by
    refine Prog.wp_bind.mpr ?_
    change Prog.wp (mul32 BLOCK_SIZE d.blockCount >>= _) _ _ d
    refine Prog.wp_bind.mpr (Prog.wp_ite (fun hmul => ?_) fun _ => trivial)
    have hlt : d.blockCount < 2 ^ 24 := by
      simp only [BLOCK_SIZE, U32] at hmul
      omega
    have h5 : d.blockCount < 5 := by
      by_contra hn
      exact h ⟨by omega, hlt⟩
    refine Prog.wp_bind.mpr ?_
    refine Prog.wp_bind.mpr (Prog.wp_checkedAdd fun _ => ?_)
    refine Prog.wp_bind.mpr (Prog.wp_checkedAdd fun _ => ?_)
    refine Prog.wp_bind.mpr (Prog.wp_checkedAdd fun _ => ?_)
    refine Prog.wp_bind.mpr (Prog.wp_ite (fun _ => ?_) fun _ => trivial)
    refine Prog.wp_bind.mpr (Prog.wp_checkedSub fun hle => ?_)
    have h4 : d.blockCount = 4 := by
      simp only [divCeil, BLOCK_SIZE, INODE_DENSITY, INode.inodesPerBlock, INode.onDiskSize] at hle
      omega
    rw [h4]
    -- the metadata fill the device, and no data block is left for the root directory
    change Prog.wp (fillBlocks Block.zero [2] >>= fun _ => fillBlocks Block.zero [3] >>= fun _ =>
      writeBlock 1 (Block.zero.splice 0 [1]) >>= fun _ =>
        writeBlock 2 (Block.zero.splice 0 [1]) >>= fun _ => Prog.checkedSub 0 1 >>= _) _ _ d
    obtain ⟨d₁, hfill₁, hcount₁, -⟩ := fillBlocks_spec Block.zero [2] d (by simp; omega)
    obtain ⟨d₂, hfill₂, hcount₂, -⟩ := fillBlocks_spec Block.zero [3] d₁ (by simp; omega)
    refine Prog.wp_bind.mpr ((Prog.wp_of_ok hfill₁).mpr ?_)
    refine Prog.wp_bind.mpr ((Prog.wp_of_ok hfill₂).mpr ?_)
    refine Prog.wp_bind.mpr ((Prog.wp_of_ok (writeBlock_of_lt (by omega))).mpr ?_)
    refine Prog.wp_bind.mpr ((Prog.wp_of_ok (writeBlock_of_lt ?_)).mpr ?_)
    · rw [MemoryDevice.setBlock_blockCount]
      omega
    · exact Prog.wp_bind.mpr (Prog.wp_checkedSub fun hsub => absurd hsub (by decide))
  exact Prog.panic_of_wp hwp

/-- Formatting is exact from 5 to 2^24 - 1 blocks. -/
theorem formats_exactly_iff (now : UInt64) (d : MemoryDevice) :
    FormatsExactly now d ↔ 5 ≤ d.blockCount ∧ d.blockCount < 2 ^ 24 := by
  constructor
  · intro h
    by_contra hout
    rcases h with ⟨e, d', hrun⟩ | ⟨d', hrun, -⟩
    · rw [format_panics hout] at hrun
      cases hrun
    · rw [format_panics hout] at hrun
      cases hrun
  · intro h
    exact formatsExactly_of_range h.1 h.2

/-- Four blocks hold the metadata and no data block: the count of free blocks is 0, and
the root directory is subtracted from it. -/
theorem formats_four : ¬ FormatsExactly 0 (MemoryDevice.empty 4) := by
  have hcount : (MemoryDevice.empty 4).blockCount = 4 := by decide
  intro h
  rcases h with ⟨e, d', hrun⟩ | ⟨d', hrun, -⟩
  · rw [format_panics (by omega)] at hrun
    cases hrun
  · rw [format_panics (by omega)] at hrun
    cases hrun

end FerrisFS
