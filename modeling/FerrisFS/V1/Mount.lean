import FerrisFS.V1.Files

/-!
# Formatting and mounting

A formatted device holds a root directory and nothing else, whatever was on it
before, and `mount` reads its layout back from the superblock.
-/

namespace FerrisFS

open Lib DirectoryHandler INodeTableHandler FormatV1

namespace Geom

section OfCount

variable {n : Nat}

theorem ofCount_hasData (h5 : 5 ≤ n) (hsmall : n < 2 ^ 24) :
    1 + divCeil (divCeil (divCeil (BLOCK_SIZE * n) INODE_DENSITY) INode.inodesPerBlock)
      (8 * BLOCK_SIZE) + divCeil n (8 * BLOCK_SIZE) +
      divCeil (divCeil (BLOCK_SIZE * n) INODE_DENSITY) INode.inodesPerBlock < n := by
  simp only [divCeil, BLOCK_SIZE, INODE_DENSITY, INode.inodesPerBlock, INode.onDiskSize]
  omega

theorem ofCount_inodeTable_pos (h5 : 5 ≤ n) :
    0 < divCeil (divCeil (BLOCK_SIZE * n) INODE_DENSITY) INode.inodesPerBlock := by
  simp only [divCeil, BLOCK_SIZE, INODE_DENSITY, INode.inodesPerBlock, INode.onDiskSize]
  omega

theorem ofCount_inodeBitmap_pos (h5 : 5 ≤ n) :
    0 < divCeil (divCeil (divCeil (BLOCK_SIZE * n) INODE_DENSITY) INode.inodesPerBlock)
      (8 * BLOCK_SIZE) := by
  simp only [divCeil, BLOCK_SIZE, INODE_DENSITY, INode.inodesPerBlock, INode.onDiskSize]
  omega

theorem ofCount_covered (n : Nat) : n ≤ 2048 * divCeil n (8 * BLOCK_SIZE) := by
  simp only [divCeil, BLOCK_SIZE]
  omega

theorem ofCount_indexed (hsmall : n < 2 ^ 24) :
    2048 * (divCeil (divCeil (divCeil (BLOCK_SIZE * n) INODE_DENSITY) INode.inodesPerBlock)
      (8 * BLOCK_SIZE) + divCeil n (8 * BLOCK_SIZE)) ≤ 2 ^ 32 := by
  simp only [divCeil, BLOCK_SIZE, INODE_DENSITY, INode.inodesPerBlock, INode.onDiskSize]
  omega

end OfCount

/-- The layout `format` chooses for a device of `n` blocks. -/
def ofCount (n : Nat) (h5 : 5 ≤ n) (hsmall : n < 2 ^ 24) : Geom where
  totalBlocks := n
  inodeBitmapBlocks :=
    divCeil (divCeil (divCeil (BLOCK_SIZE * n) INODE_DENSITY) INode.inodesPerBlock) (8 * BLOCK_SIZE)
  blockBitmapBlocks := divCeil n (8 * BLOCK_SIZE)
  inodeTableBlocks := divCeil (divCeil (BLOCK_SIZE * n) INODE_DENSITY) INode.inodesPerBlock
  hasData := ofCount_hasData h5 hsmall
  small := hsmall
  inodeBitmap_pos := ofCount_inodeBitmap_pos h5
  inodeTable_pos := ofCount_inodeTable_pos h5
  blockBitmap_covers := ofCount_covered n
  bitmaps_indexed := ofCount_indexed hsmall

/-- What a freshly formatted and mounted filesystem is. -/
structure Initial (g : Geom) (now : UInt64) (t : St) : Prop where
  ibit : ∀ i, t.ibit i = true ↔ i = 0
  dbit : ∀ b, t.dbit b = true ↔ b = 0
  root : t.ino 0 = firstNode .directory 0 now
  inRange : ∀ i, (t.ino i).InRange
  data : t.data 0 = Block.newDir 0 0
  freeInodes : t.freeInodes = g.inodes - 1
  freeData : t.freeData = g.cap - 1
  lastInode : t.lastInode = 0
  lastData : t.lastData = 0
  openFiles : t.openFiles = fun _ => none

end Geom

/-! ## Formatting -/

theorem fillBlocks_spec (buf : Block) : ∀ (l : List Nat) (d : MemoryDevice),
    (∀ i ∈ l, i < d.blockCount) → ∃ d', fillBlocks buf l d = .ok () d' ∧
      d'.blockCount = d.blockCount ∧ ∀ k, d'.block k = if k ∈ l then buf else d.block k
  | [], d, _ => ⟨d, rfl, rfl, fun k => by simp⟩
  | i :: rest, d, h => by
      have hi := h i List.mem_cons_self
      obtain ⟨d', hok, hcount, hblock⟩ := fillBlocks_spec buf rest (d.setBlock i buf)
        fun j hj => by
          rw [MemoryDevice.setBlock_blockCount]
          exact h j (List.mem_cons_of_mem _ hj)
      refine ⟨d', ?_, by rw [hcount, MemoryDevice.setBlock_blockCount], fun k => ?_⟩
      · unfold fillBlocks
        rw [Prog.bind_of_ok (writeBlock_of_lt hi), hok]
      · rw [hblock k, MemoryDevice.block_setBlock hi]
        by_cases hk : k ∈ rest <;> by_cases hki : k = i <;> simp [hk, hki]

/-- The first block of a new bitmap. -/
def firstBits : Block := Block.zero.splice 0 [1]

theorem zero_byte (i : Nat) : Block.zero.byte i = 0 := by
  simp only [Block.byte, Block.zero, List.getD_eq_getElem?_getD, List.getElem?_replicate]
  split <;> rfl

theorem firstBits_byte (i : Nat) : firstBits.byte i = if i = 0 then 1 else 0 := by
  rw [firstBits, Block.byte_splice (by decide), zero_byte]

/-- A bitmap of which only the first bit is set. -/
theorem bitAt_first {d : MemoryDevice} {start size i : Nat} (hi : i < 2048 * size)
    (h0 : d.block start = firstBits)
    (hrest : ∀ k, start < k → k < start + size → d.block k = Block.zero) :
    d.bitAt start i = decide (i = 0) := by
  have hbs : BLOCK_SIZE = 256 := rfl
  unfold MemoryDevice.bitAt
  by_cases hb : i / 8 / BLOCK_SIZE = 0
  · rw [hb, Nat.add_zero, h0, firstBits_byte]
    by_cases hbyte : i / 8 % BLOCK_SIZE = 0
    · rw [if_pos hbyte]
      have hlt : i < 8 := by
        rw [hbs] at hb hbyte
        omega
      exact (by decide : ∀ i < 8, (UInt8.toNat 1).testBit (i % 8) = decide (i = 0)) i hlt
    · rw [if_neg hbyte]
      have hne : i ≠ 0 := by
        rintro rfl
        exact hbyte rfl
      simp [hne]
  · rw [hrest _ (Nat.lt_add_of_pos_right (Nat.pos_of_ne_zero hb)) (by rw [hbs]; omega), zero_byte]
    have hne : i ≠ 0 := by
      rintro rfl
      exact hb rfl
    simp [hne]

namespace Geom

/-- The bitmaps after `format`: the first bit of each is set. -/
structure Blank (g : Geom) (d : MemoryDevice) : Prop where
  count : d.blockCount = g.totalBlocks
  inode : d.block 1 = firstBits
  inodes : ∀ k, 1 < k → k < g.blockBitmapStart → d.block k = Block.zero
  block : d.block g.blockBitmapStart = firstBits
  blocks : ∀ k, g.blockBitmapStart < k → k < g.inodeTableStart → d.block k = Block.zero

variable {g : Geom} {gaps : Bool} {d : MemoryDevice}

theorem Blank.ibit (h : g.Blank d) (i : Nat) : (g.view d).ibit i = true ↔ i = 0 := by
  have hpos := g.inodeBitmap_pos
  by_cases hi : i < 2048 * g.inodeBitmapBlocks
  · simp only [view, hi, decide_true, Bool.true_and]
    rw [bitAt_first hi h.inode h.inodes]
    simp
  · simp only [view, hi, decide_false, Bool.false_and]
    constructor
    · intro hf
      cases hf
    · rintro rfl
      omega

theorem Blank.dbit (h : g.Blank d) (i : Nat) : (g.view d).dbit i = true ↔ i = 0 := by
  have hpos : 0 < g.blockBitmapBlocks := by
    have h1 := g.blockBitmap_covers
    have h2 := g.hasData
    omega
  by_cases hi : i < 2048 * g.blockBitmapBlocks
  · simp only [view, hi, decide_true, Bool.true_and]
    rw [bitAt_first hi h.block h.blocks]
    simp
  · simp only [view, hi, decide_false, Bool.false_and]
    constructor
    · intro hf
      cases hf
    · rintro rfl
      omega

end Geom

namespace Geom

/-- What `format` leaves on a device of any contents. -/
structure Fresh (g : Geom) (now : UInt64) (d : MemoryDevice) : Prop where
  count : d.blockCount = g.totalBlocks
  superblock : d.block 0 = (g.superblock (g.inodes - 1) (g.cap - 1)).serialize firstBits
  ibit : ∀ i, (g.view d).ibit i = true ↔ i = 0
  dbit : ∀ b, (g.view d).dbit b = true ↔ b = 0
  root : (g.view d).ino 0 = firstNode .directory 0 now
  data : (g.view d).data 0 = Block.newDir 0 0

variable {g : Geom} {gaps : Bool} {d : MemoryDevice} {now : UInt64}

/-- The last part of `format`: the root inode, the root directory and the superblock. -/
theorem runs_root (now : UInt64) (hblank : g.Blank d) :
    ∃ d', (do
        g.inodeHandler.writeInode 0 (firstNode .directory 0 now)
        g.directoryHandler.writeDirectoryWithInode (newDirectory 0 0) (firstNode .directory 0 now)
          g.inodeHandler
        writeBlock 0 ((g.superblock (g.inodes - 1) (g.cap - 1)).serialize firstBits) : DevM Unit)
        d = .ok () d' ∧ g.Fresh now d' := by
  have hinodes : 0 < g.inodes := Nat.mul_pos g.inodeTable_pos (by decide)
  have hnode : (firstNode .directory 0 now).InRange := firstNode_inRange (by decide)
  have hmapped : ∀ data, (firstNode .directory 0 now).Mapped g data := by
    intro data
    refine ⟨(by decide : 1 ≤ INode.MAX_BLOCKS), fun b hb => ?_⟩
    have howned : (firstNode .directory 0 now).owned data = [0] := rfl
    rw [howned, List.mem_singleton] at hb
    rw [hb]
    exact g.cap_pos
  obtain ⟨d₁, hok₁, hd₁⟩ := runs_writeInode hinodes hnode d (holds_self hblank.count)
  obtain ⟨d₂, hok₂, hd₂⟩ := runs_writeNewDirectory (by decide : 0 < INVALID_ADDRESS)
    (by decide : 0 < INVALID_ADDRESS) (Nat.one_pos : 0 < (firstNode .directory 0 now).blocks)
    (hmapped _) d₁ hd₁
  have hlt : 0 < d₂.blockCount := by
    rw [hd₂.1]
    exact Nat.lt_of_le_of_lt (Nat.zero_le _) g.hasData
  obtain ⟨d₃, hok₃, hd₃⟩ := runs_writeZero d₂ hd₂
  rw [writeBlock_of_lt hlt] at hok₃
  cases hok₃
  refine ⟨_, (Prog.bind_of_ok hok₁ _).trans
    ((Prog.bind_of_ok hok₂ _).trans (writeBlock_of_lt hlt)), ?_⟩
  have hview := hd₃.2
  exact
    { count := hd₃.1
      superblock := by rw [MemoryDevice.block_setBlock hlt, if_pos rfl]
      ibit := fun i => by rw [hview]; exact hblank.ibit i
      dbit := fun b => by rw [hview]; exact hblank.dbit b
      root := by
        rw [hview]
        simp only [Function.update_self]
      data := by
        have hfirst : ∀ data, (firstNode .directory 0 now).blockAt data 0 = 0 := fun _ => rfl
        rw [hview]
        simp only [hfirst, Function.update_self] }

end Geom

theorem format_ok {d : MemoryDevice} (h5 : 5 ≤ d.blockCount) (hsmall : d.blockCount < 2 ^ 24)
    (now : UInt64) : ∃ d', FormatV1.format now d = .ok () d' ∧
      (Geom.ofCount d.blockCount h5 hsmall).Fresh now d' := by
  obtain ⟨g, hg⟩ : ∃ g, g = Geom.ofCount d.blockCount h5 hsmall := ⟨_, rfl⟩
  have htotal : g.totalBlocks = d.blockCount := by rw [hg]; rfl
  have hitb : divCeil (divCeil (BLOCK_SIZE * d.blockCount) INODE_DENSITY) INode.inodesPerBlock =
      g.inodeTableBlocks := by rw [hg]; rfl
  have hibb : divCeil g.inodeTableBlocks (8 * BLOCK_SIZE) = g.inodeBitmapBlocks := by rw [hg]; rfl
  have hbbb : divCeil d.blockCount (8 * BLOCK_SIZE) = g.blockBitmapBlocks := by rw [hg]; rfl
  rw [← hg]
  have hdata := g.hasData
  have hbound := g.small
  have hipos := g.inodeBitmap_pos
  have hinodes : 1 ≤ g.inodes := Nat.mul_pos g.inodeTable_pos (by decide)
  have hmul : (mul32 BLOCK_SIZE d.blockCount : DevM Nat) d = .ok (BLOCK_SIZE * d.blockCount) d := by
    rw [mul32, if_pos (by simp only [BLOCK_SIZE, U32]; omega)]
    rfl
  have hnew : (newSuperblock d.blockCount g.inodeBitmapBlocks g.blockBitmapBlocks
      g.inodeTableBlocks : DevM Superblock) d = .ok (g.superblock g.inodes g.cap) d := by
    rw [newSuperblock, Prog.bind_of_ok (Prog.checkedAdd_of_lt (by simp only [U32]; omega)),
      Prog.bind_of_ok (Prog.checkedAdd_of_lt (by simp only [U32]; omega)),
      Prog.bind_of_ok (Prog.checkedAdd_of_lt (by simp only [U32]; omega))]
    have hfree : (mul32 g.inodeTableBlocks INode.inodesPerBlock : DevM Nat) d =
        .ok g.inodes d := by
      rw [mul32, if_pos]
      · rfl
      · simp only [U32, INode.inodesPerBlock, INode.onDiskSize, BLOCK_SIZE]
        omega
    rw [Prog.bind_of_ok hfree, Prog.bind_of_ok (Prog.checkedSub_of_le (by omega)), ← htotal]
    rfl
  have hbbs : g.blockBitmapStart = 1 + g.inodeBitmapBlocks := rfl
  have hits : g.inodeTableStart = g.blockBitmapStart + g.blockBitmapBlocks := rfl
  obtain ⟨d₁, hfill₁, hcount₁, hblock₁⟩ := fillBlocks_spec Block.zero
    (List.range' (1 + 1) g.inodeBitmapBlocks) d (by
      intro i hi
      rw [List.mem_range'_1] at hi
      omega)
  obtain ⟨d₂, hfill₂, hcount₂, hblock₂⟩ := fillBlocks_spec Block.zero
    (List.range' (g.blockBitmapStart + 1) g.blockBitmapBlocks) d₁ (by
      intro i hi
      rw [List.mem_range'_1] at hi
      omega)
  have hlt₁ : 1 < d₂.blockCount := by omega
  have hlt₂ : g.blockBitmapStart < (d₂.setBlock 1 firstBits).blockCount := by
    rw [MemoryDevice.setBlock_blockCount]
    omega
  have hblank : g.Blank ((d₂.setBlock 1 firstBits).setBlock g.blockBitmapStart firstBits) := by
    have hblock : ∀ k, ((d₂.setBlock 1 firstBits).setBlock g.blockBitmapStart firstBits).block k =
        if k = g.blockBitmapStart then firstBits else if k = 1 then firstBits else d₂.block k := by
      intro k
      rw [MemoryDevice.block_setBlock hlt₂, MemoryDevice.block_setBlock hlt₁]
    refine ⟨?_, ?_, fun k hk hk' => ?_, ?_, fun k hk hk' => ?_⟩
    · rw [MemoryDevice.setBlock_blockCount, MemoryDevice.setBlock_blockCount]
      omega
    · rw [hblock, if_neg (by omega), if_pos rfl]
    · rw [hblock, if_neg (by omega), if_neg (by omega), hblock₂, hblock₁,
        if_neg (by rw [List.mem_range'_1]; omega), if_pos (by rw [List.mem_range'_1]; omega)]
    · rw [hblock, if_pos rfl]
    · rw [hblock, if_neg (by omega), if_neg (by omega), hblock₂,
        if_pos (by rw [List.mem_range'_1]; omega)]
  obtain ⟨d₃, hroot, hfresh⟩ := Geom.runs_root now hblank
  refine ⟨d₃, ?_, hfresh⟩
  unfold FormatV1.format
  change (mul32 BLOCK_SIZE d.blockCount >>= _) d = _
  rw [Prog.bind_of_ok hmul]
  dsimp only
  rw [hitb, hibb, hbbb, Prog.bind_of_ok hnew]
  -- `add_block` on a new inode does not touch the device
  change (fillBlocks Block.zero (List.range' (1 + 1) g.inodeBitmapBlocks) >>= _) d = _
  rw [Prog.bind_of_ok hfill₁]
  change (fillBlocks Block.zero (List.range' (g.blockBitmapStart + 1) g.blockBitmapBlocks) >>= _)
    d₁ = _
  rw [Prog.bind_of_ok hfill₂]
  refine (Prog.bind_of_ok (writeBlock_of_lt hlt₁) _).trans ?_
  refine (Prog.bind_of_ok (writeBlock_of_lt hlt₂) _).trans ?_
  refine (Prog.bind_of_ok (Prog.checkedSub_of_le g.cap_pos) _).trans ?_
  refine (Prog.bind_of_ok (Prog.checkedSub_of_le hinodes) _).trans ?_
  exact hroot

/-! ## Mounting -/

namespace Geom

/-- The state in which a device with the given free counts is mounted. -/
def mounted (g : Geom) (d : MemoryDevice) (freeInodes freeData : Nat) : St where
  toView := g.view d
  freeInodes := freeInodes
  freeData := freeData
  lastInode := 0
  lastData := 0
  nextFileId := 0
  openFiles := fun _ => none

variable {g : Geom} {gaps : Bool} {d : MemoryDevice} {now : UInt64}

theorem superblock_words {fi fd : Nat} (hfi : fi < 2 ^ 32) (hfd : fd < 2 ^ 32) :
    ∀ w ∈ (g.superblock fi fd).words, w < 2 ^ 32 := by
  have hdata := g.hasData
  have hsmall := g.small
  simp only [Superblock.words, superblock, dataStart, inodeTableStart, blockBitmapStart, BLOCK_SIZE,
    List.mem_cons, List.not_mem_nil, or_false, forall_eq_or_imp, forall_eq]
  omega

/-- `mount` takes the layout and the counts from the superblock in block 0. -/
theorem mount_of_superblock (hcount : d.blockCount = g.totalBlocks) {fi fd : Nat}
    (hread : Superblock.deserialize (d.block 0) = g.superblock fi fd) :
    FormatV1.mount d = .ok (g.format (g.mounted d fi fd)) d := by
  have hdata := g.hasData
  have hsmall := g.small
  have hlt : 0 < d.blockCount := by omega
  have hmul : (mul32 g.inodeTableBlocks INode.inodesPerBlock : DevM Nat) d = .ok g.inodes d := by
    rw [mul32, if_pos]
    · rfl
    · simp only [U32, INode.inodesPerBlock, INode.onDiskSize, BLOCK_SIZE]
      omega
  have hcap : g.totalBlocks - g.inodeBitmapBlocks - g.inodeTableBlocks - g.blockBitmapBlocks - 1 =
      g.cap := by
    simp only [cap, dataStart, inodeTableStart, blockBitmapStart]
    omega
  unfold FormatV1.mount
  rw [Prog.bind_of_ok (readBlock_of_lt hlt)]
  dsimp only
  rw [hread]
  change ((Prog.checkedSub g.totalBlocks g.inodeBitmapBlocks : DevM Nat) >>= _) d = _
  rw [Prog.bind_of_ok (Prog.checkedSub_of_le (by omega))]
  refine (Prog.bind_of_ok (Prog.checkedSub_of_le (b := g.inodeTableBlocks) (by omega)) _).trans ?_
  refine (Prog.bind_of_ok (Prog.checkedSub_of_le (b := g.blockBitmapBlocks) (by omega)) _).trans ?_
  refine (Prog.bind_of_ok (Prog.checkedSub_of_le (b := 1) (by omega)) _).trans ?_
  refine (Prog.bind_of_ok hmul _).trans ?_
  rw [hcap]
  rfl

theorem mount_ok (hcount : d.blockCount = g.totalBlocks) {fi fd : Nat} {buf : Block}
    (hsb : d.block 0 = (g.superblock fi fd).serialize buf) (hfi : fi < 2 ^ 32)
    (hfd : fd < 2 ^ 32) : FormatV1.mount d = .ok (g.format (g.mounted d fi fd)) d := by
  apply mount_of_superblock hcount
  rw [hsb]
  exact Superblock.deserialize_serialize (by decide : MAGIC < 2 ^ 64) (superblock_words hfi hfd) buf

/-- What a freshly formatted and mounted filesystem is. -/
theorem Fresh.initial (h : g.Fresh now d) :
    g.Initial now (g.mounted d (g.inodes - 1) (g.cap - 1)) where
  ibit := h.ibit
  dbit := h.dbit
  root := h.root
  inRange i := view_ino_inRange (holds_self h.count) i
  data := h.data
  freeInodes := rfl
  freeData := rfl
  lastInode := rfl
  lastData := rfl
  openFiles := rfl

namespace Initial

variable {t : St}

theorem content (h : g.Initial now t) : t.content 0 = [0] := by
  rw [View.content, h.root]
  rfl

theorem owned (h : g.Initial now t) : t.owned 0 = [0] := by
  rw [View.owned, h.root]
  rfl

/-- The only records are `.` and `..` of the root. -/
theorem rec_cases (h : g.Initial now t) {p : Nat} {k : Nat × Nat} {e : DirEntry}
    (hr : t.Rec p k e) : p = 0 ∧ (e = DirEntry.new 0 .directory [dot] ∨
      e = DirEntry.new 0 .directory [dot, dot]) := by
  obtain rfl := (h.ibit p).mp hr.live
  have hk : k.1 ∈ t.content 0 := hr.block
  rw [h.content, List.mem_singleton] at hk
  have hs := hr.slot
  rw [hk, h.data, Block.newDir_slots (by decide) (by decide)] at hs
  simp only [List.mem_cons, Prod.mk.injEq, Slot.live.injEq, reduceCtorEq, and_false,
    List.not_mem_nil, or_false] at hs
  rcases hs with ⟨-, he⟩ | ⟨-, he⟩
  · exact ⟨rfl, .inl he⟩
  · exact ⟨rfl, .inr he⟩

theorem no_edge (h : g.Initial now t) {p i : Nat} {k : Nat × Nat} : ¬ t.graph.edge p k i := by
  rintro ⟨e, hr, h1, h2, -⟩
  obtain ⟨-, rfl | rfl⟩ := h.rec_cases hr
  · exact h1 rfl
  · exact h2 rfl

theorem graph (h : g.Initial now t) : t.graph.Sound 0 where
  root_live := (h.ibit 0).mpr rfl
  root_dir := by
    show (t.ino 0).fileType = .directory
    rw [h.root, firstNode_fileType]
  target_live he := (h.no_edge he).elim
  target_ne_root he := (h.no_edge he).elim
  target_ne_self he := (h.no_edge he).elim
  count := by
    intro i _ l _ hl
    cases l with
    | nil => exact Nat.zero_le _
    | cons x l => exact (h.no_edge (hl x List.mem_cons_self)).elim
  dir_links i hi _ := by
    obtain rfl := (h.ibit i).mp hi
    show (t.ino 0).links = 1
    rw [h.root, firstNode_links]
  up_root := by
    rintro q ⟨k, e, hr, -, rfl⟩
    obtain ⟨-, rfl | rfl⟩ := h.rec_cases hr <;> rfl
  up_edge _ he := (h.no_edge he).elim

theorem inv (h : g.Initial now t) : g.Inv gaps t where
  cursors := by
    have h1 := g.inodeBitmap_pos
    have h2 := g.blockBitmap_covers
    have h3 := g.hasData
    exact ⟨by rw [h.lastInode]; omega, by rw [h.lastData]; omega⟩
  inRange := h.inRange
  owning :=
    { ibit_lt := by
        intro i hi
        rw [(h.ibit i).mp hi]
        exact Nat.mul_pos g.inodeTable_pos (by decide)
      mapped := by
        intro i hi
        obtain rfl := (h.ibit i).mp hi
        refine ⟨?_, fun b hb => ?_⟩
        · rw [h.root]
          exact (by decide : 1 ≤ INode.MAX_BLOCKS)
        · have hb : b ∈ t.owned 0 := hb
          rw [h.owned, List.mem_singleton] at hb
          rw [hb]
          exact g.cap_pos
      owns :=
        { nodup := by
            intro i hi
            rw [(h.ibit i).mp hi, h.owned]
            exact List.nodup_singleton 0
          disjoint := by
            intro i j hi hj hij
            exact absurd (((h.ibit i).mp hi).trans ((h.ibit j).mp hj).symm) hij
          marked := by
            intro i hi b hb
            rw [(h.ibit i).mp hi, h.owned, List.mem_singleton] at hb
            exact (h.dbit b).mpr hb } }
  tidy := by
    intro p hp _ b hb
    rw [(h.ibit p).mp hp, h.content, List.mem_singleton] at hb
    rw [hb, h.data]
    exact (TidyLayout.newDir (by decide) (by decide)).1
  graph := h.graph
  self := by
    intro p k e hr hl
    obtain ⟨rfl, rfl | rfl⟩ := h.rec_cases hr <;> rfl

end Initial

/-- Mounting a formatted device. -/
theorem Fresh.mount (h : g.Fresh now d) :
    FormatV1.mount d = .ok (g.format (g.mounted d (g.inodes - 1) (g.cap - 1))) d := by
  have hsmall := g.small
  have hdata := g.hasData
  have hcap := g.cap_lt
  have hinodes : g.inodes = g.inodeTableBlocks * 2 := rfl
  exact mount_ok h.count h.superblock (by omega) (by omega)

/-- A device that was formatted and mounted is in its initial state. -/
theorem mount_fresh (h : g.Fresh now d) :
    ∃ t, FormatV1.mount d = .ok (g.format t) d ∧ g.Holds d t.toView ∧ g.Initial now t :=
  ⟨_, h.mount, holds_self h.count, h.initial⟩

end Geom

/-- Only devices of 5 to 2^24 - 1 blocks can be formatted. -/
theorem blockCount_of_format {d d' : MemoryDevice} {now : UInt64}
    (h : FormatV1.format now d = .ok () d') : 5 ≤ d.blockCount ∧ d.blockCount < 2 ^ 24 := by
  have hwp : Prog.wp (FormatV1.format now) (fun _ _ => 5 ≤ d.blockCount ∧ d.blockCount < 2 ^ 24)
      (fun _ _ => True) d := by
    have hany : ∀ {α β : Type} (m : DevM α) (f : α → DevM β) (Q : β → MemoryDevice → Prop)
        (s : MemoryDevice), (∀ a s', Prog.wp (f a) Q (fun _ _ => True) s') →
        Prog.wp (m >>= f) Q (fun _ _ => True) s := by
      intro α β m f Q s hf
      exact Prog.wp_seq (Prog.wp_of_forall (Q := fun _ _ => True) (E := fun _ _ => True)
        (fun _ _ => trivial) fun _ _ => trivial) (fun a s' _ => hf a s') fun _ _ h => h
    refine Prog.wp_bind.mpr ?_
    change Prog.wp (mul32 BLOCK_SIZE d.blockCount >>= _) _ _ d
    refine Prog.wp_bind.mpr (Prog.wp_ite (fun hmul => ?_) fun _ => trivial)
    have hlt : d.blockCount < 2 ^ 24 := by
      simp only [BLOCK_SIZE, U32] at hmul
      omega
    refine Prog.wp_bind.mpr ?_
    refine Prog.wp_bind.mpr (Prog.wp_checkedAdd fun _ => ?_)
    refine Prog.wp_bind.mpr (Prog.wp_checkedAdd fun _ => ?_)
    refine Prog.wp_bind.mpr (Prog.wp_checkedAdd fun _ => ?_)
    refine Prog.wp_bind.mpr (Prog.wp_ite (fun _ => ?_) fun _ => trivial)
    refine Prog.wp_bind.mpr (Prog.wp_checkedSub fun hle => ?_)
    refine hany _ _ _ _ fun _ _ => hany _ _ _ _ fun _ _ => hany _ _ _ _ fun _ _ => ?_
    refine hany _ _ _ _ fun _ _ => hany _ _ _ _ fun _ _ => ?_
    refine Prog.wp_bind.mpr (Prog.wp_checkedSub fun hpos => ?_)
    refine Prog.wp_of_forall (fun _ _ => ⟨?_, hlt⟩) fun _ _ => trivial
    simp only [divCeil, BLOCK_SIZE, INODE_DENSITY, INode.inodesPerBlock, INode.onDiskSize]
      at hle hpos
    omega
  exact hwp.of_ok h

end FerrisFS
