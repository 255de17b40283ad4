import FerrisFS.Device.Memory

/-!
# The superblock

`formats/v1/superblock.rs`.
-/

namespace FerrisFS

open Lib

structure Superblock where
  magic : Nat
  version : Nat
  blockSize : Nat
  totalBlocks : Nat
  inodeBitmapStart : Nat
  inodeBitmapBlocks : Nat
  blockBitmapStart : Nat
  blockBitmapBlocks : Nat
  inodeTableStart : Nat
  inodeTableBlocks : Nat
  dataStart : Nat
  rootInode : Nat
  freeInodes : Nat
  freeData : Nat
  deriving DecidableEq

namespace Superblock

/-- The serialized fields, in order. -/
def bytes (s : Superblock) : List UInt8 :=
  leBytes 8 s.magic ++ (leBytes 4 s.version ++ (leBytes 4 s.blockSize ++
    (leBytes 4 s.totalBlocks ++ (leBytes 4 s.inodeBitmapStart ++
    (leBytes 4 s.inodeBitmapBlocks ++ (leBytes 4 s.blockBitmapStart ++
    (leBytes 4 s.blockBitmapBlocks ++ (leBytes 4 s.inodeTableStart ++
    (leBytes 4 s.inodeTableBlocks ++ (leBytes 4 s.dataStart ++
    (leBytes 4 s.rootInode ++ (leBytes 4 s.freeInodes ++ leBytes 4 s.freeData))))))))))))

def serialize (s : Superblock) (buf : Block) : Block := buf.splice 0 s.bytes

def deserialize (buf : Block) : Superblock where
  magic := leNat (buf.slice 0 8)
  version := buf.u32 8
  blockSize := buf.u32 12
  totalBlocks := buf.u32 16
  inodeBitmapStart := buf.u32 20
  inodeBitmapBlocks := buf.u32 24
  blockBitmapStart := buf.u32 28
  blockBitmapBlocks := buf.u32 32
  inodeTableStart := buf.u32 36
  inodeTableBlocks := buf.u32 40
  dataStart := buf.u32 44
  rootInode := buf.u32 48
  freeInodes := buf.u32 52
  freeData := buf.u32 56

/-- The fields after the magic number. -/
def words (s : Superblock) : List Nat :=
  [s.version, s.blockSize, s.totalBlocks, s.inodeBitmapStart, s.inodeBitmapBlocks,
    s.blockBitmapStart, s.blockBitmapBlocks, s.inodeTableStart, s.inodeTableBlocks, s.dataStart,
    s.rootInode, s.freeInodes, s.freeData]

theorem bytes_eq (s : Superblock) :
    s.bytes = leBytes 8 s.magic ++ s.words.flatMap (leBytes 4) := by
  simp [bytes, words]

/-- Reading back what was written, over any buffer. -/
theorem deserialize_serialize {s : Superblock} (hmagic : s.magic < 2 ^ 64)
    (hwords : ∀ w ∈ s.words, w < 2 ^ 32) (buf : Block) : deserialize (s.serialize buf) = s := by
  have hlen : s.bytes.length = 60 := by simp [bytes]
  have hbytes : (s.serialize buf).bytes =
      leBytes 8 s.magic ++ (s.words.flatMap (leBytes 4) ++ buf.bytes.drop 60) := by
    rw [serialize, Block.splice_bytes (by rw [hlen]; decide), splice, hlen, bytes_eq]
    simp
  have hm : leNat ((s.serialize buf).slice 0 8) = s.magic := by
    have hslice : (s.serialize buf).slice 0 8 = leBytes 8 s.magic := by
      rw [Block.slice, hbytes]
      exact slice_append_mid (a := []) rfl (leBytes_length 8 s.magic).symm
    rw [hslice]
    exact leNat_leBytes hmagic
  have hword : ∀ i (hi : i < s.words.length), (s.serialize buf).u32 (8 + 4 * i) = s.words[i] := by
    intro i hi
    have hoff : 8 + 4 * i - (leBytes 8 s.magic).length = 4 * i := by
      rw [leBytes_length]
      omega
    rw [Block.u32, Block.slice, hbytes, slice_append_right (by rw [leBytes_length]; omega), hoff,
      slice_flatMap_leBytes _ i hi]
    exact leNat_leBytes (hwords _ (List.getElem_mem hi))
  have hw : ∀ i (hi : i < 13), (s.serialize buf).u32 (8 + 4 * i) = s.words[i] :=
    fun i hi => hword i hi
  unfold deserialize
  rw [hm, hw 0 (by decide), hw 1 (by decide), hw 2 (by decide), hw 3 (by decide),
    hw 4 (by decide), hw 5 (by decide), hw 6 (by decide), hw 7 (by decide), hw 8 (by decide),
    hw 9 (by decide), hw 10 (by decide), hw 11 (by decide), hw 12 (by decide)]
  rfl

end Superblock

end FerrisFS
