import FerrisFS.V1.Mount
import Mathlib.Data.List.Perm.Subperm

/-!
# The geometry of a formatted device

`format` lays the regions out one after the other. The block bitmap has a bit for
every data block, but the inode bitmap is sized from the number of table blocks and
not from the number of inodes, which is twice that: from 8193 blocks on it is too
small, and the bits of the last inodes lie in the block bitmap.
-/

namespace FerrisFS

open Lib FormatV1

namespace Superblock

/-- The regions follow one another inside the device, and the bitmaps hold enough
bits. -/
structure Laid (sb : Superblock) (blocks : Nat) : Prop where
  total : sb.totalBlocks = blocks
  inodeBitmap : sb.inodeBitmapStart = 1
  blockBitmap : sb.blockBitmapStart = sb.inodeBitmapStart + sb.inodeBitmapBlocks
  inodeTable : sb.inodeTableStart = sb.blockBitmapStart + sb.blockBitmapBlocks
  data : sb.dataStart = sb.inodeTableStart + sb.inodeTableBlocks
  inside : sb.dataStart < blocks
  inodeBits : sb.inodeTableBlocks * 2 ≤ 8 * BLOCK_SIZE * sb.inodeBitmapBlocks
  blockBits : sb.totalBlocks - sb.dataStart ≤ 8 * BLOCK_SIZE * sb.blockBitmapBlocks

end Superblock

namespace BitmapAllocator

/-- `k` is a block of the bitmap. -/
def Own (a : BitmapAllocator) (k : Nat) : Prop := a.start ≤ k ∧ k < a.start + a.size

/-- On every device of `blocks` blocks, whatever it holds, the calls on indices below
`max_index` read and write only blocks of the bitmap. -/
structure Local (a : BitmapAllocator) (blocks : Nat) : Prop where
  isAllocated : ∀ (d d' : MemoryDevice) (i : Nat), d.blockCount = blocks → d'.blockCount = blocks →
    i < a.maxIndex → (∀ k, a.Own k → d'.block k = d.block k) →
    (a.isAllocated i d').value? = (a.isAllocated i d).value?
  allocate : ∀ (d d' : MemoryDevice) (l : List Nat), d.blockCount = blocks →
    (∀ i ∈ l, i < a.maxIndex) → (a.allocate l d).state? = some d' →
    ∀ k, ¬ a.Own k → d'.block k = d.block k
  deallocate : ∀ (d d' : MemoryDevice) (l : List Nat), d.blockCount = blocks →
    (∀ i ∈ l, i < a.maxIndex) → (a.deallocate l d).state? = some d' →
    ∀ k, ¬ a.Own k → d'.block k = d.block k

variable {a : BitmapAllocator} {blocks : Nat}

theorem own_or_outside {k : Nat} (h : ¬ a.Own k) : k < a.start ∨ a.start + a.size ≤ k := by
  unfold Own at h
  omega

/-- A bitmap with a bit for every index. -/
theorem local_of_bits (hfits : a.start + a.size ≤ blocks) (hsmall : blocks < U32)
    (hbits : a.maxIndex ≤ 2048 * a.size) : a.Local blocks where
  isAllocated := by
    intro d d' i hd hd' hi hsame
    have hblk : i / 8 / BLOCK_SIZE < a.size := by
      simp only [BLOCK_SIZE]
      omega
    have hrun : ∀ d₁ : MemoryDevice, d₁.blockCount = blocks →
        a.isAllocated i d₁ = .ok (d₁.bitAt a.start i) d₁ := by
      intro d₁ hd₁
      exact isAllocated_eq ⟨hd₁ ▸ hfits, hd₁ ▸ hsmall⟩ (by omega) (by omega)
    rw [hrun d hd, hrun d' hd', MemoryDevice.bitAt, MemoryDevice.bitAt,
      hsame _ ⟨Nat.le_add_right _ _, Nat.add_lt_add_left hblk _⟩]
    rfl
  allocate := by
    intro d d' l hd hl hstate k hk
    have hw : a.Within d := ⟨hd ▸ hfits, hd ▸ hsmall⟩
    have hlt : ∀ i ∈ l, i < 2048 * a.size := fun i hi => Nat.lt_of_lt_of_le (hl i hi) hbits
    unfold allocate at hstate
    cases hlast : l.getLast? with
    | none =>
      rw [hlast] at hstate
      cases hstate
      rfl
    | some x =>
      rw [hlast] at hstate
      change ((a.modify l setBit >>= _) d).state? = some d' at hstate
      rw [Prog.bind_of_ok (modify_eq hw hlt)] at hstate
      cases hstate
      exact (foldl_touch_of_outside (own_or_outside hk) l d hw hlt).1
  deallocate := by
    intro d d' l hd hl hstate k hk
    have hw : a.Within d := ⟨hd ▸ hfits, hd ▸ hsmall⟩
    have hlt : ∀ i ∈ l, i < 2048 * a.size := fun i hi => Nat.lt_of_lt_of_le (hl i hi) hbits
    rw [deallocate, modify_eq hw hlt] at hstate
    cases hstate
    exact (foldl_touch_of_outside (own_or_outside hk) l d hw hlt).1

/-- The allocator hands out `n` different indices below `max_index` that are clear on
the device, and marks them. -/
def HandsOut (a : BitmapAllocator) (n : Nat) (d : MemoryDevice) : Prop :=
  ∃ l a' d', a.findFree n d = .ok l d ∧ l.length = n ∧ l.Nodup ∧
    (∀ i ∈ l, i < a.maxIndex ∧ d.bitAt a.start i = false) ∧ a.allocate l d = .ok a' d' ∧
    ∀ i ∈ l, d'.bitAt a.start i = true

end BitmapAllocator

/-- What the layout of a freshly formatted and mounted device is to be. -/
structure GoodGeometry (blocks : Nat) (f : FormatV1) (d : MemoryDevice) : Prop where
  laid : f.superblock.Laid blocks
  inodes : f.inodeAllocator.Local blocks
  data : f.blockAllocator.Local blocks
  handsOut : f.inodeAllocator.HandsOut f.superblock.freeInodes d

namespace Geom

variable {g : Geom} {gaps : Bool} {d : MemoryDevice} {t : St} {now : UInt64}

/-- The table has 2048 inodes for each block of the inode bitmap at most. -/
theorem bits_iff {n : Nat} (h5 : 5 ≤ n) (hsmall : n < 2 ^ 24) :
    (ofCount n h5 hsmall).inodes ≤ 2048 * (ofCount n h5 hsmall).inodeBitmapBlocks ↔ n ≤ 8192 := by
  simp only [inodes, ofCount, divCeil, BLOCK_SIZE, INODE_DENSITY, INode.inodesPerBlock,
    INode.onDiskSize]
  omega

theorem laid (hbits : g.inodes ≤ 2048 * g.inodeBitmapBlocks) (fi fd : Nat) :
    (g.superblock fi fd).Laid g.totalBlocks where
  total := rfl
  inodeBitmap := rfl
  blockBitmap := rfl
  inodeTable := rfl
  data := rfl
  inside := g.hasData
  inodeBits := hbits
  blockBits := g.cap_le_bits

theorem local_inodes (hbits : g.inodes ≤ 2048 * g.inodeBitmapBlocks) (last : Nat) :
    (g.inodeAllocator last).Local g.totalBlocks := by
  have hsmall := g.small
  have hdata := g.hasData
  have hu : U32 = 2 ^ 32 := rfl
  exact BitmapAllocator.local_of_bits (by simp only [inodeAllocator]; omega) (by omega) hbits

theorem local_data (last : Nat) : (g.blockAllocator last).Local g.totalBlocks := by
  have hsmall := g.small
  have hdata := g.hasData
  have hu : U32 = 2 ^ 32 := rfl
  exact BitmapAllocator.local_of_bits (by simp only [blockAllocator, blockBitmapStart]; omega)
    (by omega) g.cap_le_bits

/-- In the initial state every inode but the root is found free. -/
theorem handsOut (hd : g.Holds d t.toView) (hi : g.Initial now t)
    (hbits : g.inodes ≤ 2048 * g.inodeBitmapBlocks) :
    (g.inodeAllocator 0).HandsOut (g.inodes - 1) d := by
  have hpos : 0 < 2048 * g.inodeBitmapBlocks := by
    have := g.inodeBitmap_pos
    omega
  have hbit : ∀ {d₁ : MemoryDevice} {v : View}, g.Holds d₁ v → ∀ i < g.inodes,
      v.ibit i = d₁.bitAt 1 i := by
    intro d₁ v hv i hlt
    rw [← hv.2]
    simp only [view, Nat.lt_of_lt_of_le hlt hbits, decide_true, Bool.true_and]
  obtain ⟨l, hl⟩ : ∃ l, l = (g.inodeAllocator 0).pick (d.bitAt 1) (g.inodes - 1) := ⟨_, rfl⟩
  have hmem : ∀ i ∈ l, i < g.inodes ∧ d.bitAt 1 i = false := by
    intro i hi'
    rw [hl] at hi'
    exact (BitmapAllocator.mem_pick hi').2
  have hfind : (g.inodeAllocator 0).findFree (g.inodes - 1) d = .ok l d := by
    rw [hl]
    exact BitmapAllocator.findFree_eq hd.inodeBitmap inodes_indexed hpos _
  obtain ⟨d', halloc, hd'⟩ := runs_allocate_inode
    (fun i hi' => Nat.lt_of_lt_of_le (hmem i hi').1 hbits) d hd
  refine ⟨l, _, d', hfind, ?_, hl ▸ BitmapAllocator.pick_nodup, hmem, halloc, fun i hi' => ?_⟩
  · have hsub : List.range' 1 (g.inodes - 1) ⊆ (g.inodeAllocator 0).visible.filter fun p =>
        decide (p < (g.inodeAllocator 0).maxIndex) && !d.bitAt 1 p := by
      intro p hp
      rw [List.mem_range'_1] at hp
      have hlt : p < g.inodes := by omega
      have hclear : d.bitAt 1 p = false := by
        rw [← hbit hd p hlt]
        by_contra hset
        have := (hi.ibit p).mp (by simpa using hset)
        omega
      refine List.mem_filter.mpr ⟨BitmapAllocator.mem_visible.mpr (.inl ⟨?_, ?_⟩), ?_⟩
      · simp [inodeAllocator]
      · exact Nat.lt_of_lt_of_le hlt hbits
      · have hmax : p < (g.inodeAllocator 0).maxIndex := hlt
        simp [hclear, hmax]
    have hle := (List.subperm_of_subset List.nodup_range' hsub).length_le
    rw [List.length_range'] at hle
    rw [hl, BitmapAllocator.pick, List.length_take, Nat.min_eq_left hle]
  · have hset : setBits t.ibit l true i = true := by simp [setBits, hi']
    rw [← hset]
    exact (hbit hd' i (hmem i hi').1).symm

end Geom

/-- A device of 5 to 2^24 - 1 blocks is formatted and mounted with a good geometry
exactly when it has no more than 8192 blocks. -/
theorem good_geometry_iff (d : MemoryDevice) (now : UInt64) (h5 : 5 ≤ d.blockCount)
    (hsmall : d.blockCount < 2 ^ 24) : ∃ d' f, FormatV1.format now d = .ok () d' ∧
      FormatV1.mount d' = .ok f d' ∧
      (GoodGeometry d.blockCount f d' ↔ d.blockCount ≤ 8192) := by
  obtain ⟨d', hformat, hfresh⟩ := format_ok h5 hsmall now
  obtain ⟨t, hmount, hd', hinit⟩ := Geom.mount_fresh hfresh
  refine ⟨d', _, hformat, hmount, ?_⟩
  rw [← Geom.bits_iff h5 hsmall]
  constructor
  · exact fun h => h.laid.inodeBits
  · intro hbits
    exact
      { laid := Geom.laid hbits _ _
        inodes := Geom.local_inodes hbits _
        data := Geom.local_data _
        handsOut := by
          have hout := Geom.handsOut hd' hinit hbits
          rw [← hinit.freeInodes, ← hinit.lastInode] at hout
          exact hout }

theorem good_geometry_five : ∃ d' f, FormatV1.format 0 (MemoryDevice.empty 5) = .ok () d' ∧
    FormatV1.mount d' = .ok f d' ∧ GoodGeometry 5 f d' := by
  obtain ⟨d', f, hformat, hmount, hiff⟩ :=
    good_geometry_iff (MemoryDevice.empty 5) 0 (by decide) (by decide)
  exact ⟨d', f, hformat, hmount, hiff.mpr (by decide)⟩

/-- From 8193 blocks on the table has 2050 inodes and the bitmap 2048 bits. -/
theorem good_geometry_fails : ∃ d' f, FormatV1.format 0 (MemoryDevice.empty 8193) = .ok () d' ∧
    FormatV1.mount d' = .ok f d' ∧ ¬ GoodGeometry 8193 f d' := by
  have hcount : (MemoryDevice.empty 8193).blockCount = 8193 := by
    rw [MemoryDevice.blockCount, MemoryDevice.empty, List.length_replicate]
    rfl
  obtain ⟨d', hformat, hfresh⟩ := format_ok (d := MemoryDevice.empty 8193) (by omega) (by omega) 0
  obtain ⟨t, hmount, -, -⟩ := Geom.mount_fresh hfresh
  refine ⟨d', _, hformat, hmount, fun h => ?_⟩
  have hbits := (Geom.bits_iff (by omega) (by omega)).mp h.laid.inodeBits
  omega

end FerrisFS
