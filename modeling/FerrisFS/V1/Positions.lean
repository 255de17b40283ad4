import FerrisFS.V1.Leaks
import FerrisFS.V1.Sessions

/-!
# Positions in a file

`seek` computes with `i64`, and `write` keeps the low 32 bits of its block numbers. Both are
exact up to some size; past it a seek may panic or go elsewhere, and a write may reach the
low blocks of the file.
-/

namespace FerrisFS

open Lib INodeTableHandler FormatV1

/-- The bytes from `offset` on have become `bs`, and no other has changed. Past the last
block there are zeros. -/
structure Overwrites (old new : List UInt8) (offset : Nat) (bs : List UInt8) : Prop where
  inside : ∀ j < bs.length, new[offset + j]? = bs[j]?
  outside : ∀ p, p < offset ∨ offset + bs.length ≤ p → new.getD p 0 = old.getD p 0

namespace Overwrites

variable {old : List UInt8} {offset k : Nat} {bs : List UInt8}

theorem getD_append_zeros (old : List UInt8) (k p : Nat) :
    (old ++ List.replicate k 0).getD p 0 = old.getD p 0 := by
  rw [List.getD_eq_getElem?_getD, List.getD_eq_getElem?_getD, List.getElem?_append]
  split
  · rfl
  · rw [List.getElem?_replicate, List.getElem?_eq_none (by omega)]
    split <;> rfl

theorem nil : Overwrites old (old ++ List.replicate k 0) offset [] where
  inside j hj := by cases hj
  outside p _ := getD_append_zeros old k p

theorem splice (h : offset + bs.length ≤ (old ++ List.replicate k 0).length) :
    Overwrites old (Lib.splice (old ++ List.replicate k 0) offset bs) offset bs where
  inside j hj := by
    rw [splice_getElem? h, if_pos (by omega), Nat.add_sub_cancel_left]
  outside p hp := by
    rw [List.getD_eq_getElem?_getD, splice_getElem? h, if_neg (by omega),
      ← List.getD_eq_getElem?_getD]
    exact getD_append_zeros old k p

end Overwrites

namespace FFS

/-- The bytes in the blocks of inode `i`. -/
def bytes (s : FFS) (i : Nat) : List UInt8 := (s.view.ino i).fileBytes s.view.data

/-- The position that a seek names. -/
def seekTarget (s : FFS) (m : FileMetadata) : SeekFrom → Int
  | .start offset => offset.toNat
  | .current offset => m.offset + offset.toInt
  | .fromEnd offset => (s.view.ino m.inode).size + offset.toInt

/-- `write` fails and leaves the file as it was, or changes exactly the bytes from the
position on that it reports. -/
def WriteExact (s : FFS) (id : Nat) (m : FileMetadata) (buf : List UInt8) (now : UInt64) :
    Prop :=
  match write id buf now s with
  | .ok n s' => n ≤ buf.length ∧
      Overwrites (s.bytes m.inode) (s'.bytes m.inode) m.offset (buf.take n) ∧
      (0 < n → m.offset + n ≤ (s'.view.ino m.inode).size)
  | .err _ s' => s'.view.ino m.inode = s.view.ino m.inode ∧ s'.bytes m.inode = s.bytes m.inode
  | .panic => False

/-- Each of the seeks sets the position it names, or zero when that is negative, or fails,
and the write after them is exact. -/
def PositionsExact (id : Nat) (buf : List UInt8) (now : UInt64) : List SeekFrom → FFS → Prop
  | [], s => ∀ m, s.format.openFiles id = some m → s.WriteExact id m buf now
  | pos :: ps, s =>
    match seek id pos s with
    | .ok r s' => (∀ m, s.format.openFiles id = some m → (r : Int) = max 0 (s.seekTarget m pos) ∧
        s'.format.openFiles id = some { m with offset := r }) ∧ PositionsExact id buf now ps s'
    | .err _ s' => PositionsExact id buf now ps s'
    | .panic => False

/-- The sum, where `i64` has both summands and the sum. -/
def exactSum (base : Nat) (offset : Int64) : Option Nat :=
  if base < 2 ^ 63 ∧ (base : Int) + offset.toInt < 2 ^ 63 then
    some (max 0 ((base : Int) + offset.toInt)).toNat
  else none

/-- Where a seek leads in a file of the given size, if its sum is in range. -/
def seekNext (size offset : Nat) : SeekFrom → Option Nat
  | .start offset => some offset.toNat
  | .current d => exactSum offset d
  | .fromEnd d => exactSum size d

def seekAll (size : Nat) : Nat → List SeekFrom → Option Nat
  | offset, [] => some offset
  | offset, pos :: ps => (seekNext size offset pos).bind fun o => seekAll size o ps

/-- How many blocks the file has when the bytes are written, if the write gets there. -/
def blocksAfter (s : FFS) (m : FileMetadata) (len : Nat) : Option Nat :=
  let blocks := (s.view.ino m.inode).blocks
  if finalBlock m len < blocks then some blocks
  else if (s.metas m len).length = s.metaBlocks m len ∧ s.datas m len ≠ [] ∧
      blocks + (s.datas m len).length ≤ INode.MAX_BLOCKS then
    some (blocks + (s.datas m len).length)
  else none

/-- Nothing overflows, and the write starts below `2 ^ 40`, or does not come to a block. -/
structure WriteFits (s : FFS) (m : FileMetadata) (len : Nat) : Prop where
  position : m.offset + len < U64
  need : (s.view.ino m.inode).blocks ≤ finalBlock m len → s.needBlocks m len < U32
  count : (s.view.ino m.inode).blocks ≤ finalBlock m len → s.blocksAfter m len ≠ none →
    (s.datas m len).length + (s.metas m len).length ≤ s.format.superblock.freeData
  placed : m.offset < 2 ^ 40 ∨
    ∀ b ∈ s.blocksAfter m len, b ≤ m.offset / BLOCK_SIZE % U32

instance {s : FFS} {m : FileMetadata} {len : Nat} : Decidable (s.WriteFits m len) :=
  decidable_of_iff (_ ∧ _ ∧ _ ∧ _)
    ⟨fun h => ⟨h.1, h.2.1, h.2.2.1, h.2.2.2⟩,
      fun h => ⟨h.position, h.need, h.count, h.placed⟩⟩

end FFS

namespace Geom

variable {g : Geom} {s s' : FFS} {t t' : St} {id len need : Nat} {m : FileMetadata}

/-! ## Seeking -/

/-- The sum of the code is the exact one where it is in range. -/
theorem seekValue_exact_iff {base r : Nat} {offset : Int64} :
    seekValue base offset = some r ∧ (r : Int) = max 0 ((base : Int) + offset.toInt) ↔
      FFS.exactSum base offset = some r := by
  have hlo := offset.le_toInt
  have hhi := offset.toInt_lt
  rw [seekValue, FFS.exactSum, toI64]
  by_cases hbase : base < 2 ^ 63
  · rw [if_pos hbase]
    by_cases hsum : (base : Int) + offset.toInt < 2 ^ 63
    · rw [if_pos ⟨by omega, hsum⟩, if_pos ⟨hbase, hsum⟩, max_comm]
      constructor
      · exact fun h => h.1
      · intro h
        refine ⟨h, ?_⟩
        have := Option.some.inj h
        omega
    · rw [if_neg fun h => hsum h.2, if_neg fun h => hsum h.2]
      simp
  · have hnone : ¬ (base < 2 ^ 63 ∧ (base : Int) + offset.toInt < 2 ^ 63) := fun h => hbase h.1
    rw [if_neg hbase, if_neg hnone]
    constructor
    · intro h
      obtain ⟨hvalue, hr⟩ := h
      split at hvalue
      · have := Option.some.inj hvalue
        omega
      · cases hvalue
    · intro h
      cases h

theorem seekPosition_exact_iff (hs : g.Rep s t) {pos : SeekFrom} {r : Nat} :
    seekPosition t m pos = some r ∧ (r : Int) = max 0 (s.seekTarget m pos) ↔
      FFS.seekNext (t.ino m.inode).size m.offset pos = some r := by
  cases pos with
  | start offset =>
      constructor
      · exact fun h => h.1
      · intro h
        cases h
        exact ⟨rfl, (max_eq_right (Int.natCast_nonneg _)).symm⟩
  | current d => exact seekValue_exact_iff
  | fromEnd d =>
      rw [FFS.seekTarget, hs.view_eq]
      exact seekValue_exact_iff

theorem Usable.withOffset (hu : g.Usable t m.inode) (x : Nat) :
    g.Usable (t.withOffset id m x) m.inode where
  cursors := ⟨hu.cursors.lastInode, hu.cursors.lastData⟩
  lt := hu.lt
  inRange := hu.inRange
  mapped := hu.mapped
  nodup := hu.nodup
  marked := hu.marked

/-! ## Writing -/

theorem Growth.count_rep {metas datas : List Nat} (hs : g.Rep s t)
    (h : g.Growth t (t.ino m.inode)
      (FFS.finalBlock m len - (t.ino m.inode).blocks + 1) metas datas) :
    (s.datas m len).length + (s.metas m len).length ≤ s.format.superblock.freeData ↔
      datas.length + metas.length ≤ t.freeData := by
  rw [h.datas_rep hs, h.metas_rep hs, hs.2]
  exact Iff.rfl

theorem Growth.blocksAfter {metas datas : List Nat} (hs : g.Rep s t)
    (hfinal : ¬ FFS.finalBlock m len < (t.ino m.inode).blocks)
    (h : g.Growth t (t.ino m.inode)
      (FFS.finalBlock m len - (t.ino m.inode).blocks + 1) metas datas) :
    s.blocksAfter m len =
      if datas ≠ [] ∧ (t.ino m.inode).blocks + datas.length ≤ INode.MAX_BLOCKS then
        some ((t.ino m.inode).blocks + datas.length)
      else none := by
  have hmetas : (s.metas m len).length = s.metaBlocks m len := by
    rw [h.metas_rep hs, h.metas_length, FFS.metaBlocks, hs.view_eq, FFS.finalBlock]
  have hview : s.view.ino m.inode = t.ino m.inode := by rw [hs.view_eq]
  simp only [FFS.blocksAfter, hview, if_neg hfinal, hmetas, true_and, h.datas_rep hs]

theorem Prepared.blocksAfter {metas datas : List Nat} {data₁ : Region} {n₁ : INode}
    (hs : g.Rep s t)
    (h : g.Prepared t (t.ino m.inode) (FFS.finalBlock m len) metas datas data₁ n₁) :
    s.blocksAfter m len = some n₁.blocks := by
  rw [h.grows.blocks]
  cases h with
  | enough hfinal =>
      have hview : s.view.ino m.inode = t.ino m.inode := by rw [hs.view_eq]
      simp only [FFS.blocksAfter, hview, if_pos hfinal, List.length_nil, Nat.add_zero]
  | grown hfinal hg hne hmax => rw [hg.blocksAfter hs hfinal, if_pos ⟨hne, hmax⟩]

theorem blockPosition_eq {offset : Nat} (h : offset < 2 ^ 40) :
    BLOCK_SIZE * (offset / BLOCK_SIZE % U32) + offset % BLOCK_SIZE = offset := by
  have hbs : BLOCK_SIZE = 256 := rfl
  have hu : U32 = 4294967296 := rfl
  rw [hbs, hu]
  omega

section

variable {buf : List UInt8} {now : UInt64} {metas datas : List Nat} {data₁ data' : Region}
  {n₁ : INode} {k : Nat}

theorem Wrote.bytes_eq (hs' : g.Rep s' t')
    (hw : g.Wrote t id m buf now metas datas data₁ n₁ data' k t') :
    s'.bytes m.inode = splice (n₁.fileBytes data₁)
      (BLOCK_SIZE * (m.offset / BLOCK_SIZE % U32) + m.offset % BLOCK_SIZE) (buf.take k) := by
  rw [← hw.bytes, FFS.bytes, hs'.view_eq, hw.ino_self, hw.data_eq]
  rfl

/-- The bytes go where they should when the block number is not cut, or when there is
nothing to write. -/
theorem Wrote.overwrites_iff (hs : g.Rep s t) (hs' : g.Rep s' t') (hu : g.Usable t m.inode)
    (hw : g.Wrote t id m buf now metas datas data₁ n₁ data' k t') :
    Overwrites (s.bytes m.inode) (s'.bytes m.inode) m.offset (buf.take k) ↔
      m.offset < 2 ^ 40 ∨ n₁.blocks ≤ m.offset / BLOCK_SIZE % U32 := by
  have hbs : BLOCK_SIZE = 256 := rfl
  have hold : s.bytes m.inode = (t.ino m.inode).fileBytes t.data := by
    rw [FFS.bytes, hs.view_eq]
  have hmid : n₁.fileBytes data₁ =
      s.bytes m.inode ++ List.replicate (BLOCK_SIZE * datas.length) 0 := by
    rw [hold]
    exact hw.prepared.fileBytes_eq hu.nodup hu.marked
  have hlength : (n₁.fileBytes data₁).length = BLOCK_SIZE * n₁.blocks := INode.fileBytes_length
  have hbuf : 0 < buf.length := List.length_pos_iff.mpr hw.nonempty
  have hcount := hw.count
  have htake : (buf.take k).length = k := by
    rw [List.length_take]
    omega
  rw [hw.bytes_eq hs']
  constructor
  · intro h
    by_contra hnot
    -- the file ends below `2 ^ 40`, and yet a byte was written
    have hle := hw.prepared.blocks_le hu.mapped.blocks_le
    have hmax : INode.MAX_BLOCKS = 4172 := rfl
    have hpos : BLOCK_SIZE * (m.offset / BLOCK_SIZE % U32) + m.offset % BLOCK_SIZE + k ≤
        (n₁.fileBytes data₁).length := by
      rw [hlength, hcount, hbs]
      rw [hbs] at hnot
      omega
    have hk : 0 < k := by
      rw [hcount, hbs]
      rw [hbs] at hnot
      omega
    have hinside := h.inside 0 (by omega)
    rw [List.getElem?_eq_none, List.getElem?_eq_getElem (by omega)] at hinside
    · cases hinside
    · rw [splice_length (by omega), hlength, hbs]
      omega
  · intro h
    by_cases hk : k = 0
    · have hsame : splice (n₁.fileBytes data₁) (BLOCK_SIZE * (m.offset / BLOCK_SIZE % U32) +
          m.offset % BLOCK_SIZE) [] = n₁.fileBytes data₁ := by
        simp [splice]
      rw [hk, List.take_zero, hsame, hmid]
      exact .nil
    · have hlow : m.offset < 2 ^ 40 := by
        refine h.resolve_right fun hle => hk ?_
        rw [hcount, hbs]
        rw [hbs] at hle
        omega
      rw [blockPosition_eq hlow] at hcount ⊢
      rw [hmid] at hlength ⊢
      exact .splice (by omega)

theorem Wrote.fits_iff (hs : g.Rep s t)
    (hw : g.Wrote t id m buf now metas datas data₁ n₁ data' k t') :
    s.WriteFits m buf.length ↔
      m.offset < 2 ^ 40 ∨ n₁.blocks ≤ m.offset / BLOCK_SIZE % U32 := by
  have hafter : s.blocksAfter m buf.length = some n₁.blocks := hw.prepared.blocksAfter hs
  have hblocks : (s.view.ino m.inode).blocks = (t.ino m.inode).blocks := by rw [hs.view_eq]
  constructor
  · intro h
    have hplaced := h.placed
    rw [hafter] at hplaced
    exact hplaced.imp_right fun hb => hb n₁.blocks rfl
  · intro h
    refine ⟨hw.last_lt, fun hfinal => ?_, fun hfinal _ => ?_, ?_⟩
    · cases hw.prepared with
      | enough hlt =>
          rw [hblocks] at hfinal
          exact absurd hlt (Nat.not_lt.mpr hfinal)
      | grown _ hg =>
          rw [FFS.needBlocks, hblocks]
          exact hg.need_lt
    · cases hw.prepared with
      | enough hlt =>
          rw [hblocks] at hfinal
          exact absurd hlt (Nat.not_lt.mpr hfinal)
      | grown _ hg _ _ _ hcount => exact (hg.count_rep hs).mpr hcount
    · rw [hafter]
      refine h.imp_right fun hle b hb => ?_
      cases hb
      exact hle

end

/-- A write that fails changes nothing of the file. -/
theorem WriteFailed.unchanged {err : FSError} (hs : g.Rep s t) (hs' : g.Rep s' t')
    (hopen : t.openFiles id = some m) (hu : g.Usable t m.inode)
    (hf : g.WriteFailed t id len err t') :
    s'.view.ino m.inode = s.view.ino m.inode ∧ s'.bytes m.inode = s.bytes m.inode := by
  rw [FFS.bytes, FFS.bytes, hs.view_eq, hs'.view_eq]
  cases hf with
  | closed => exact ⟨rfl, rfl⟩
  | grow hopen' _ _ _ hf =>
      rw [hopen] at hopen'
      cases hopen'
      cases hf with
      | short => exact ⟨rfl, rfl⟩
      | empty => exact ⟨rfl, rfl⟩
      | @tooLarge metas datas hg _ _ =>
          have hsame : ∀ b ∈ t.owned m.inode, zeroed t.data datas b = t.data b := by
            intro b hb
            refine zeroed_of_not_mem fun hd => ?_
            have hclear := hg.fresh.clear b (List.mem_append_right _ hd)
            rw [hu.marked b hb] at hclear
            cases hclear
          refine ⟨rfl, INode.fileBytes_congr ?_ ?_⟩
          · exact fun b hb => hsame b (List.mem_append_right _ hb)
          · exact fun b hb => hsame b (List.mem_append_left _ hb)

theorem WriteFailed.fits {err : FSError} (hs : g.Rep s t) (hopen : t.openFiles id = some m)
    (hf : g.WriteFailed t id len err t') : s.WriteFits m len := by
  cases hf with
  | closed hnone =>
      rw [hopen] at hnone
      cases hnone
  | grow hopen' _ hlast hfinal hf =>
      rw [hopen] at hopen'
      cases hopen'
      have hview : s.view.ino m.inode = t.ino m.inode := by rw [hs.view_eq]
      -- none of the failures leads to a write
      have hafter : s.blocksAfter m len = none := by
        cases hf with
        | short _ hshort =>
            have hmetas : (s.metas m len).length ≠ s.metaBlocks m len := by
              rw [FFS.metas, FFS.metaBlocks, hs.view_eq, hs.2]
              exact Nat.ne_of_lt hshort
            have hfinal : ¬ FFS.finalBlock m len < (t.ino m.inode).blocks := hfinal
            simp only [FFS.blocksAfter, hview, if_neg hfinal, hmetas, false_and, if_false]
        | empty hg =>
            rw [hg.blocksAfter hs hfinal]
            exact if_neg fun h => h.1 rfl
        | tooLarge hg _ hmax =>
            rw [hg.blocksAfter hs hfinal]
            exact if_neg fun h => Nat.not_lt.mpr h.2 hmax
      have hneed : s.needBlocks m len < U32 := by
        rw [FFS.needBlocks, hview]
        cases hf with
        | short hneed => exact hneed
        | empty hg => exact hg.need_lt
        | tooLarge hg => exact hg.need_lt
      refine ⟨hlast, fun _ => hneed, fun _ h => absurd hafter h, .inr ?_⟩
      rw [hafter]
      intro b hb
      cases hb

theorem WritePanics.not_fits (hs : g.Rep s t) (hopen : t.openFiles id = some m)
    (hp : g.WritePanics t id len) : ¬ s.WriteFits m len := by
  intro h
  cases hp with
  | position hopen' _ hlast =>
      rw [hopen] at hopen'
      cases hopen'
      exact hlast h.position
  | grow hopen' _ hfinal hp =>
      rw [hopen] at hopen'
      cases hopen'
      have hview : s.view.ino m.inode = t.ino m.inode := by rw [hs.view_eq]
      have hfinal' : (s.view.ino m.inode).blocks ≤ FFS.finalBlock m len := by
        rw [hview]
        exact Nat.not_lt.mp hfinal
      cases hp with
      | need hneed =>
          have := h.need hfinal'
          rw [FFS.needBlocks, hview] at this
          exact hneed this
      | count hg hne hmax hcount =>
          refine hcount ((hg.count_rep hs).mp (h.count hfinal' ?_))
          rw [hg.blocksAfter hs hfinal, if_pos ⟨hne, hmax⟩]
          simp

theorem writeExact_iff (hs : g.Rep s t) (hopen : t.openFiles id = some m)
    (hu : g.Usable t m.inode) (buf : List UInt8) (now : UInt64) :
    s.WriteExact id m buf now ↔ buf = [] ∨ s.WriteFits m buf.length := by
  have hspec := @wpa_write g t id buf now (hu.handle hopen) s hs
  rw [FFS.WriteExact]
  cases hrun : write id buf now s with
  | ok k s' =>
      rw [hrun] at hspec
      obtain ⟨t', hs', ⟨hnil, rfl, rfl⟩ | ⟨m', metas, datas, data₁, n₁, data', hw⟩⟩ := hspec
      · refine iff_of_true ⟨Nat.zero_le _, ?_, fun h => absurd h (Nat.lt_irrefl 0)⟩ (.inl hnil)
        have hsame : s'.bytes m.inode = s.bytes m.inode ++ List.replicate 0 0 := by
          rw [FFS.bytes, FFS.bytes, hs'.view_eq, hs.view_eq, List.replicate_zero, List.append_nil]
        rw [hsame]
        exact .nil
      · have hm := hw.opened
        rw [hopen] at hm
        cases hm
        have hk : k ≤ buf.length := by
          rw [hw.count]
          exact Nat.min_le_left _ _
        have hsize : m.offset + k ≤ (s'.view.ino m.inode).size := by
          rw [hs'.view_eq, hw.ino_self]
          exact Nat.le_max_right _ _
        have hover := hw.overwrites_iff hs hs' hu
        have hfits := hw.fits_iff hs
        constructor
        · exact fun h => .inr (hfits.mpr (hover.mp h.2.1))
        · intro h
          exact ⟨hk, hover.mpr (hfits.mp (h.resolve_left hw.nonempty)), fun _ => hsize⟩
  | err e s' =>
      rw [hrun] at hspec
      obtain ⟨t', hs', hf⟩ := hspec
      exact iff_of_true (hf.unchanged hs hs' hopen hu) (.inr (hf.fits hs hopen))
  | panic =>
      rw [hrun] at hspec
      refine iff_of_false (fun h => h) fun h => ?_
      rcases h with hnil | hfits
      · rw [hnil] at hspec
        cases hspec with
        | position _ hne => exact hne rfl
        | grow _ hne => exact hne rfl
      · exact WritePanics.not_fits hs hopen hspec hfits

/-- What a write finds does not depend on the position of the handle. -/
theorem writeFits_withOffset {x : Nat} {m' : FileMetadata} (hs : g.Rep s t)
    (hs' : g.Rep s' (t.withOffset id m x)) : s'.WriteFits m' len ↔ s.WriteFits m' len := by
  have hview : s'.view = s.view := by
    rw [hs'.view_eq, hs.view_eq]
    rfl
  have halloc : s'.format.blockAllocator = s.format.blockAllocator := by
    rw [hs'.2, hs.2]
    rfl
  have hfree : s'.format.superblock.freeData = s.format.superblock.freeData := by
    rw [hs'.2, hs.2]
    rfl
  have hmetas : s'.metas m' len = s.metas m' len := by
    rw [FFS.metas, FFS.metas, FFS.metaBlocks, FFS.metaBlocks, hview, halloc]
  have hdatas : s'.datas m' len = s.datas m' len := by
    rw [FFS.datas, FFS.datas, FFS.needBlocks, FFS.needBlocks, hmetas, hview, halloc]
  have hafter : s'.blocksAfter m' len = s.blocksAfter m' len := by
    rw [FFS.blocksAfter, FFS.blocksAfter, hmetas, hdatas, FFS.metaBlocks, FFS.metaBlocks, hview]
  have hneed : s'.needBlocks m' len = s.needBlocks m' len := by
    rw [FFS.needBlocks, FFS.needBlocks, hview]
  constructor
  · intro h
    obtain ⟨hposition, hneed', hcount, hplaced⟩ := h
    rw [hview, hneed] at hneed'
    rw [hview, hafter, hdatas, hmetas, hfree] at hcount
    rw [hafter] at hplaced
    exact ⟨hposition, hneed', hcount, hplaced⟩
  · intro h
    obtain ⟨hposition, hneed', hcount, hplaced⟩ := h
    rw [← hview, ← hneed] at hneed'
    rw [← hview, ← hafter, ← hdatas, ← hmetas, ← hfree] at hcount
    rw [← hafter] at hplaced
    exact ⟨hposition, hneed', hcount, hplaced⟩

/-- Positions are exact exactly when the sums of all the seeks stay below `2 ^ 63`, no number
of the write overflows, and the write starts below `2 ^ 40` or comes to no block. -/
theorem positionsExact_iff (id : Nat) (buf : List UInt8) (now : UInt64) (ps : List SeekFrom)
    (hs : g.Rep s t) (hopen : s.format.openFiles id = some m) (hu : g.Usable t m.inode) :
    FFS.PositionsExact id buf now ps s ↔
      ∃ offset, FFS.seekAll (s.view.ino m.inode).size m.offset ps = some offset ∧
        (buf = [] ∨ s.WriteFits { m with offset := offset } buf.length) := by
  induction ps generalizing s t m with
  | nil =>
      have hopen' : t.openFiles id = some m := hs.openFiles_eq ▸ hopen
      have hwrite := Geom.writeExact_iff hs hopen' hu buf now
      constructor
      · intro h
        exact ⟨m.offset, rfl, hwrite.mp (h m hopen)⟩
      · intro h m' hm'
        obtain ⟨offset, hoffset, h⟩ := h
        rw [hopen] at hm'
        cases hm'
        cases hoffset
        exact hwrite.mpr h
  | cons pos ps ih =>
      have hopen' : t.openFiles id = some m := hs.openFiles_eq ▸ hopen
      have hspec := @Geom.wpa_seek g t id (hu.handle hopen') pos s hs
      have hexact := fun r => @Geom.seekPosition_exact_iff g s t m hs pos r
      have hsize : (s.view.ino m.inode).size = (t.ino m.inode).size := by rw [hs.view_eq]
      rw [FFS.PositionsExact, FFS.seekAll, hsize]
      cases hrun : seek id pos s with
      | ok r s' =>
          rw [hrun] at hspec
          obtain ⟨_, hs', m', hm', hr, rfl⟩ := hspec
          rw [hopen'] at hm'
          cases hm'
          have hopened : s'.format.openFiles id = some { m with offset := r } := by
            rw [hs'.2]
            exact St.withOffset_openFiles r
          have hrest := ih hs' hopened (hu.withOffset r)
          have hsize' : (s'.view.ino m.inode).size = (t.ino m.inode).size := by
            rw [hs'.view_eq]
            rfl
          simp only [hsize', Geom.writeFits_withOffset hs hs'] at hrest
          constructor
          · intro h
            obtain ⟨htarget, h⟩ := h
            rw [(hexact r).mp ⟨hr, (htarget m hopen).1⟩]
            exact hrest.mp h
          · intro h
            cases hnext : FFS.seekNext (t.ino m.inode).size m.offset pos with
            | none =>
                rw [hnext] at h
                obtain ⟨_, h, -⟩ := h
                cases h
            | some r' =>
                obtain ⟨hr', htarget⟩ := (hexact r').mpr hnext
                rw [hr] at hr'
                cases hr'
                rw [hnext] at h
                refine ⟨fun m' hm' => ?_, hrest.mpr h⟩
                rw [hopen] at hm'
                cases hm'
                exact ⟨htarget, hopened⟩
      | err e s' =>
          rw [hrun] at hspec
          obtain ⟨_, -, -, hnone⟩ := hspec
          rw [hopen'] at hnone
          cases hnone
      | panic =>
          rw [hrun] at hspec
          obtain ⟨m', hm', hnone⟩ := hspec
          rw [hopen'] at hm'
          cases hm'
          refine iff_of_false (fun h => h) fun h => ?_
          cases hnext : FFS.seekNext (t.ino m.inode).size m.offset pos with
          | none =>
              rw [hnext] at h
              obtain ⟨_, h, -⟩ := h
              cases h
          | some r' =>
              obtain ⟨hr', -⟩ := (hexact r').mpr hnext
              rw [hnone] at hr'
              cases hr'

end Geom

/-- In every state that a session reaches, the positions of a handle are exact exactly when
the sums of all the seeks stay below `2 ^ 63`, no number of the write overflows, and the write
starts below `2 ^ 40` or comes to no block. -/
theorem positions_exact_iff {d : MemoryDevice} {s₀ s : FFS} {now : UInt64} {m : FileMetadata}
    (hstart : start now d = some s₀) (hsession : Session s₀ s) (id : Nat) (buf : List UInt8)
    (now' : UInt64) (ps : List SeekFrom) (hopen : s.format.openFiles id = some m) :
    FFS.PositionsExact id buf now' ps s ↔
      ∃ offset, FFS.seekAll (s.view.ino m.inode).size m.offset ps = some offset ∧
        (buf = [] ∨ s.WriteFits { m with offset := offset } buf.length) := by
  obtain ⟨g, t, hs, ht⟩ := Geom.steady_of_start hstart hsession
  have hopen' : t.openFiles id = some m := hs.openFiles_eq ▸ hopen
  exact Geom.positionsExact_iff id buf now' ps hs hopen (ht.usable (ht.handled id m hopen').1)

/-- Five bytes on, three before the end of an empty file, and a byte is written at its
start. -/
theorem positions_exact_small : ∃ s₀ s : FFS, start 0 (MemoryDevice.empty 14) = some s₀ ∧
    Session s₀ s ∧ FFS.PositionsExact 0 [1] 0 [.current 5, .fromEnd (-3)] s := by
  have hfacts : ((start 0 (MemoryDevice.empty 14)).bind
      (checked (fun s op => op.Tame s) [.createFile [47, 97] 0, .openFile [47, 97]])).any
        (fun s => decide (s.Opened ⟨1, 0⟩ ∧ (s.view.ino 1).size = 0 ∧
          s.WriteFits ⟨1, 0⟩ 1)) = true := by
    decide +kernel
  obtain ⟨s, hs, hfacts⟩ := (Option.any_eq_true _ _).mp hfacts
  obtain ⟨s₀, hstart, hchecked⟩ := Option.bind_eq_some_iff.mp hs
  obtain ⟨hopened, hsize, hfits⟩ := decide_eq_true_eq.mp hfacts
  have hsession : Session s₀ s := .of_run (run_of_checked hchecked) fun _ _ hop => hop.careful
  refine ⟨s₀, s, hstart, hsession, (positions_exact_iff hstart hsession 0 [1] 0
    [.current 5, .fromEnd (-3)] hopened.opened).mpr ⟨0, ?_, .inr hfits⟩⟩
  rw [hsize]
  decide

/-- A byte written at `2 ^ 40` of a file of one block goes to position 0. -/
theorem positions_wrap : ∃ s₀ s : FFS, start 0 (MemoryDevice.empty 14) = some s₀ ∧
    Session s₀ s ∧ s.format.openFiles 0 = some ⟨1, 2 ^ 40⟩ ∧
    ¬ FFS.PositionsExact 0 [9] 0 [] s := by
  have hfacts : ((start 0 (MemoryDevice.empty 14)).bind
      (checked (fun s op => op.Tame s) [.createFile [47, 97] 0, .openFile [47, 97],
        .write 0 [7] 0, .seek 0 (.start (2 ^ 40))])).any
        (fun s => decide (s.Opened ⟨1, 2 ^ 40⟩ ∧ ¬ s.WriteFits ⟨1, 2 ^ 40⟩ 1)) = true := by
    decide +kernel
  obtain ⟨s, hs, hfacts⟩ := (Option.any_eq_true _ _).mp hfacts
  obtain ⟨s₀, hstart, hchecked⟩ := Option.bind_eq_some_iff.mp hs
  obtain ⟨hopened, hfits⟩ := decide_eq_true_eq.mp hfacts
  have hrun := run_of_checked hchecked
  have hsession : Session s₀ s := .of_run hrun fun _ _ hop => hop.careful
  obtain ⟨g, t, -, hst, h, hh⟩ := Geom.tame_run hstart hrun
  have hopen : t.openFiles 0 = some ⟨1, 2 ^ 40⟩ := hst.openFiles_eq ▸ hopened.opened
  have hu := h.usable (hh 0 _ hopen).1
  refine ⟨s₀, s, hstart, hsession, hopened.opened, fun hexact => ?_⟩
  rcases (Geom.writeExact_iff hst hopen hu [9] 0).mp (hexact _ hopened.opened) with hnil | hfit
  · cases hnil
  · exact hfits hfit

end FerrisFS
