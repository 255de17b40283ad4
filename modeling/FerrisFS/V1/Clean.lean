import FerrisFS.V1.Integrity
import FerrisFS.V1.Mount

/-!
# A formatted device is clean

Whatever a device held, once it is formatted and mounted each bitmap has its first
bit set and no other, the root lists itself twice, and the integrity checker has
nothing to report.
-/

namespace FerrisFS

open Lib DirectoryHandler INodeTableHandler FormatV1

namespace DirectoryHandler

variable {α σ : Type}

/-- On a block that its records fill, the unchecked walk folds the callback over them. -/
theorem iterateUnchecked_of_fold {callback : Callback α} {buf : Block} {block : Nat} {s : σ}
    {r : α × Bool} : ∀ {fuel off : Nat} {acc : α},
      foldRecords callback block (buf.recordsFrom fuel off) acc = some r →
      buf.stopFrom fuel off = BLOCK_SIZE →
      iterateUnchecked callback buf block (fuel + 1) off acc s = .ok r.1 s := by
  intro fuel
  induction fuel with
  | zero =>
      intro off acc hfold hstop
      cases hfold
      exact congrFun (if_neg (by rw [← hstop]; exact Nat.lt_irrefl off)) s
  | succ fuel ih =>
      intro off acc hfold hstop
      by_cases hs : buf.Sound off
      · have hlt : off < BLOCK_SIZE := by
          have := hs.1
          omega
        simp only [Block.recordsFrom, Block.stopFrom, hs, if_true, foldRecords] at hfold hstop
        refine (congrFun (if_pos hlt) s).trans ?_
        have hparse : (DirEntry.deserialize buf off : Prog FSError σ DirEntry) s =
            .ok (DirEntry.ofBytes buf off) s := congrFun (if_pos hs.1) s
        refine (Prog.bind_of_ok hparse _).trans ?_
        cases hcb : callback (DirEntry.ofBytes buf off) block off acc with
        | none =>
            rw [hcb] at hfold
            cases hfold
        | some res =>
            obtain ⟨acc', stop⟩ := res
            rw [hcb] at hfold
            refine (Prog.bind_of_ok (rfl : (Prog.unwrap (some (acc', stop)) :
              Prog FSError σ (α × Bool)) s = .ok (acc', stop) s) _).trans ?_
            cases stop with
            | true =>
                cases hfold
                rfl
            | false => exact ih hfold hstop
      · simp only [Block.recordsFrom, Block.stopFrom, hs, if_false] at hfold hstop
        cases hfold
        exact congrFun (if_neg (by rw [← hstop]; exact Nat.lt_irrefl off)) s

end DirectoryHandler

namespace FormatV1

variable {f : FormatV1} {first : Bool} {dir block off : Nat} {e : DirEntry} {s : EntryScan}

/-- A record in order passes: the scan goes on, with one more child unless it is one of
the first two. -/
theorem checkEntry_live (hfree : e.isFree = false) (htype : e.fileType ≠ .unknown)
    (hinode : e.inode ≤ f.inodeAllocator.maxIndex)
    (hlen : e.recordLen = DirEntry.minRecordLen e.nameLen) (hname : e.nameLen ≤ DirEntry.MAX_NAME)
    (hfits : e.recordLen + off ≤ BLOCK_SIZE) (hplace : structureErrors e first s.count = []) :
    checkEntry f first dir e block off s = some
      (⟨s.errors,
        if e.fileType = .directory ∧ ¬ (first = true ∧ (s.count = 0 ∨ s.count = 1)) then
          s.childDirs ++ [e.inode] else s.childDirs,
        if e.fileType ≠ .directory then s.childOthers ++ [e.inode] else s.childOthers,
        s.count + 1, false, off, e.recordLen⟩, false) := by
  have hvalid : e.inode ≠ INVALID_ADDRESS := by
    simpa [DirEntry.isFree] using hfree
  have hpointer : pointerErrors e f.inodeAllocator.maxIndex = [] := by
    simp [pointerErrors, hvalid, Nat.not_lt.mpr hinode]
  have hmin : minRecordLen16 e.nameLen = some e.recordLen := by
    have hmax : DirEntry.MAX_NAME = 64 := rfl
    rw [minRecordLen16, if_pos (by simp only [U16]; omega), hlen]
  simp [checkEntry, hfree, htype, hpointer, hmin, hplace, Nat.not_lt.mpr hname,
    Nat.not_lt.mpr hfits]

/-- A free region in order passes. -/
theorem checkEntry_free (hfree : e.isFree = true) (htype : e.fileType ≠ .unknown)
    (hname : e.nameLen ≤ DirEntry.MAX_NAME) (hfits : e.recordLen + off ≤ BLOCK_SIZE)
    (hplace : structureErrors e first s.count = []) (hlast : s.lastEntryFree = false) :
    checkEntry f first dir e block off s = some
      (⟨s.errors, s.childDirs, s.childOthers, s.count + 1, true, off, e.recordLen⟩, false) := by
  simp [checkEntry, pointerErrors, hfree, htype, hplace, hlast, Nat.not_lt.mpr hname,
    Nat.not_lt.mpr hfits]

end FormatV1

namespace Geom

variable {g : Geom} {v : View} {t : St} {now : UInt64} {d : MemoryDevice}

theorem runs_iterateBlockUnchecked {α : Type} {callback : Callback α} {b : Nat} {acc : α}
    {r : α × Bool} (hb : b < g.cap) (hfull : (v.data b).Complete)
    (hfold : foldRecords callback b (v.data b).records acc = some r) :
    Prog.Runs g.Holds (g.directoryHandler.iterateBlockUnchecked b callback acc) v r.1 v := by
  have hsmall : b + g.dataStart < U32 := by
    have := ptr_small hb
    omega
  refine (Prog.Runs.checkedAdd hsmall).bind ?_
  rw [Nat.add_comm]
  refine (runs_readData hb).bind ?_
  intro d hd
  exact ⟨d, iterateUnchecked_of_fold hfold hfull, hd⟩

theorem runs_isAllocated_data {b last : Nat} (hb : b < g.cap) :
    Prog.Runs g.Holds ((g.blockAllocator last).isAllocated b) v (v.dbit b) v := by
  intro d hd
  have hbits : b < 2048 * g.blockBitmapBlocks := Nat.lt_of_lt_of_le hb g.cap_le_bits
  refine ⟨d, ?_, hd⟩
  rw [BitmapAllocator.isAllocated_eq hd.blockBitmap (Nat.le_of_lt hb) hbits, ← hd.2]
  show Outcome.ok (d.bitAt g.blockBitmapStart b) d = .ok (_ && d.bitAt g.blockBitmapStart b) d
  rw [decide_eq_true hbits, Bool.true_and]

theorem runs_isAllocated_inode {i last : Nat} (hi : i < g.inodes)
    (hbits : i < 2048 * g.inodeBitmapBlocks) :
    Prog.Runs g.Holds ((g.inodeAllocator last).isAllocated i) v (v.ibit i) v := by
  intro d hd
  refine ⟨d, ?_, hd⟩
  rw [BitmapAllocator.isAllocated_eq hd.inodeBitmap (Nat.le_of_lt hi) hbits, ← hd.2]
  show Outcome.ok (d.bitAt 1 i) d = .ok (_ && d.bitAt 1 i) d
  rw [decide_eq_true hbits, Bool.true_and]

end Geom

/-! ## The first bits -/

theorem filter_range_zero {n : Nat} {p : Nat → Bool} (hn : 0 < n)
    (hp : ∀ i < n, p i = true ↔ i = 0) : (List.range n).filter p = [0] := by
  obtain ⟨k, rfl⟩ : ∃ k, n = k + 1 := ⟨n - 1, by omega⟩
  rw [List.range_succ_eq_map, List.filter_cons_of_pos ((hp 0 hn).mpr rfl),
    List.filter_eq_nil_iff.mpr]
  intro i hi hpi
  obtain ⟨j, hj, rfl⟩ := List.mem_map.mp hi
  rw [List.mem_range] at hj
  exact Nat.succ_ne_zero j ((hp (j + 1) (by omega)).mp hpi)

namespace Geom

variable {g : Geom} {v : View} {t : St} {now : UInt64} {d : MemoryDevice}

theorem Initial.allocated_inodes (h : g.Initial now t) (hd : g.Holds d t.toView) (last : Nat) :
    (g.inodeAllocator last).allocated d = [0] := by
  have hpos := g.inodeBitmap_pos
  have hinodes : 0 < g.inodes := Nat.mul_pos g.inodeTable_pos (by decide)
  apply filter_range_zero
  · show 0 < 2048 * g.inodeBitmapBlocks
    omega
  · intro i hi
    have hbit := h.ibit i
    rw [← hd.2] at hbit
    have hi' : i < 2048 * g.inodeBitmapBlocks := hi
    simp only [view, hi', decide_true, Bool.true_and] at hbit
    simp only [inodeAllocator, Bool.and_eq_true, hbit]
    constructor
    · intro hb
      exact hb.2
    · rintro rfl
      exact ⟨decide_eq_true hinodes, rfl⟩

theorem Initial.allocated_data (h : g.Initial now t) (hd : g.Holds d t.toView) (last : Nat) :
    (g.blockAllocator last).allocated d = [0] := by
  have hcap := g.cap_pos
  have hbits := g.cap_le_bits
  apply filter_range_zero
  · show 0 < 2048 * g.blockBitmapBlocks
    omega
  · intro i hi
    have hbit := h.dbit i
    rw [← hd.2] at hbit
    have hi' : i < 2048 * g.blockBitmapBlocks := hi
    simp only [view, hi', decide_true, Bool.true_and] at hbit
    simp only [blockAllocator, Bool.and_eq_true, hbit]
    constructor
    · intro hb
      exact hb.2
    · rintro rfl
      exact ⟨decide_eq_true hcap, rfl⟩

/-! ## The root -/

/-- The records of a new root pass the check. -/
theorem foldRecords_root (f : FormatV1) : ∃ r,
    foldRecords (checkEntry f true 0) 0 (Block.newDir 0 0).records
      ⟨[], [], [], 0, false, 0, BLOCK_SIZE⟩ = some r ∧
    r.1.errors = [] ∧ r.1.childDirs = [] ∧ r.1.childOthers = [] := by
  rw [newDir_records]
  simp only [foldRecords]
  rw [checkEntry_live rfl (by decide) (Nat.zero_le _) rfl (by decide) (by decide) rfl]
  dsimp only
  rw [checkEntry_live rfl (by decide) (Nat.zero_le _) rfl (by decide) (by decide) rfl]
  dsimp only
  rw [checkEntry_free rfl (by decide) (by decide) (by decide) rfl rfl]
  exact ⟨_, rfl, rfl, rfl, rfl⟩

/-! ## The check -/

/-- The bitmap in which only the first bit has been visited. -/
def onlyFirst (n : Nat) : IntegrityCheckerBitmap :=
  ⟨(IntegrityCheckerBitmap.new n).bitmap.set 0 true, 1⟩

theorem runs_visit_first {n : Nat} (hn : 0 < n) :
    Prog.Runs g.Holds ((IntegrityCheckerBitmap.new n).visit 0) v (false, onlyFirst n) v := by
  have hlt : 0 < 8 * divCeil n 8 := by
    simp only [divCeil]
    omega
  have hget : (IntegrityCheckerBitmap.new n).bitmap[0]? = some false := by
    show (List.replicate (8 * divCeil n 8) false)[0]? = some false
    rw [List.getElem?_replicate, if_pos hlt]
  intro d hd
  refine ⟨d, ?_, hd⟩
  unfold IntegrityCheckerBitmap.visit IntegrityCheckerBitmap.visited
  rw [hget]
  rfl

namespace Initial

theorem runs_inodeAllocation (h : g.Initial now t) :
    Prog.Runs g.Holds (checkIntegrityInodeAllocation (g.format t) 0 (.new g.inodes)) t.toView
      ([], onlyFirst g.inodes) t.toView := by
  have hinodes : 0 < g.inodes := Nat.mul_pos g.inodeTable_pos (by decide)
  have hbits : 0 < 2048 * g.inodeBitmapBlocks := Nat.mul_pos (by decide) g.inodeBitmap_pos
  refine (runs_isAllocated_inode hinodes hbits).bind ?_
  rw [(h.ibit 0).mpr rfl]
  exact Prog.Runs.guard (by decide) ((runs_visit_first hinodes).bind (Prog.Runs.pure _ _))

theorem runs_entries (h : g.Initial now t) :
    Prog.Runs g.Holds (checkIntegrityEntriesInBlock (g.format t) 0 true 0 [] []) t.toView
      ([], [], []) t.toView := by
  obtain ⟨r, hfold, herrors, hdirs, hothers⟩ := foldRecords_root (g.format t)
  rw [← h.data] at hfold
  have hfull : (t.data 0).Complete := by
    rw [h.data]
    exact newDir_complete
  refine (runs_iterateBlockUnchecked g.cap_pos hfull hfold).bind ?_
  rw [herrors, hdirs, hothers]
  exact Prog.Runs.pure _ _

theorem runs_directoryBlocks (h : g.Initial now t) :
    Prog.Runs g.Holds (checkDirectoryBlocks (g.format t) (firstNode .directory 0 now) 0 [0]
        ⟨[], .new g.cap, [], []⟩) t.toView
      ⟨[], onlyFirst g.cap, [], []⟩ t.toView := by
  have hget : Prog.Runs g.Holds (g.inodeHandler.getBlock (firstNode .directory 0 now) 0) t.toView
      0 t.toView := fun d hd => ⟨d, rfl, hd⟩
  refine hget.bind ?_
  refine (runs_isAllocated_data g.cap_pos).bind ?_
  rw [(h.dbit 0).mpr rfl]
  refine Prog.Runs.guard (by decide) ((runs_visit_first g.cap_pos).bind ?_)
  exact h.runs_entries.bind (Prog.Runs.pure _ _)

/-- The walk over a tree that is the root alone. -/
theorem runs_recursive (h : g.Initial now t) (depth : Nat) :
    Prog.Runs g.Holds (checkIntegrityRecursive (g.format t) (depth + 1) 0
        ⟨.new g.inodes, .new g.cap⟩) t.toView
      ([], ⟨onlyFirst g.inodes, onlyFirst g.cap⟩) t.toView := by
  refine h.runs_inodeAllocation.bind ?_
  refine (runs_readInode (Nat.mul_pos g.inodeTable_pos (by decide))).bind ?_
  rw [h.root]
  exact h.runs_directoryBlocks.bind (Prog.Runs.pure _ _)

theorem runs_countInodes (h : g.Initial now t) (last : Nat) :
    Prog.Runs g.Holds (g.inodeAllocator last).countAllocated t.toView 1 t.toView := by
  intro d hd
  refine ⟨d, ?_, hd⟩
  rw [BitmapAllocator.countAllocated_eq hd.inodeBitmap inodes_indexed, h.allocated_inodes hd]
  rfl

theorem runs_countData (h : g.Initial now t) (last : Nat) :
    Prog.Runs g.Holds (g.blockAllocator last).countAllocated t.toView 1 t.toView := by
  intro d hd
  refine ⟨d, ?_, hd⟩
  rw [BitmapAllocator.countAllocated_eq hd.blockBitmap blocks_indexed, h.allocated_data hd]
  rfl

theorem runs_checkDevice (h : g.Initial now t) :
    Prog.Runs g.Holds (checkDevice (g.format t)) t.toView [] t.toView := by
  have hstart : g.dataStart + g.cap = g.totalBlocks := g.dataStart_add_cap
  have hcap := g.cap_pos
  have hinodes : 0 < g.inodes := Nat.mul_pos g.inodeTable_pos (by decide)
  have hmul : Prog.Runs g.Holds (mul32 g.inodeTableBlocks INode.inodesPerBlock) t.toView
      g.inodes t.toView := by
    have hsmall := g.small
    have hdata := g.hasData
    refine Prog.Runs.branch ?_ (Prog.Runs.pure _ _)
    simp only [U32, INode.inodesPerBlock, INode.onDiskSize, BLOCK_SIZE]
    omega
  have hle : g.dataStart ≤ g.totalBlocks := by omega
  have hblocks : g.totalBlocks - g.dataStart = g.cap := rfl
  refine (h.runs_countInodes _).bind ?_
  refine (h.runs_countData _).bind ?_
  refine hmul.bind ?_
  refine (Prog.Runs.checkedSub (by omega : 1 ≤ g.inodes)).bind ?_
  refine (Prog.Runs.checkedSub hle).bind ?_
  refine (Prog.Runs.checkedSub (by omega : 1 ≤ g.totalBlocks - g.dataStart)).bind ?_
  refine (h.runs_recursive g.inodes).bind ?_
  refine (Prog.Runs.pure [] _).bind ?_
  refine (Prog.Runs.pure [] _).bind ?_
  have hmeta : metadataErrors (g.format t).superblock (g.inodes - 1)
      (g.totalBlocks - g.dataStart - 1) = [] := by
    have hi : (g.format t).superblock.freeInodes = g.inodes - 1 := h.freeInodes
    have hd : (g.format t).superblock.freeData = g.totalBlocks - g.dataStart - 1 := h.freeData
    simp [metadataErrors, hi, hd]
  rw [hmeta]
  exact Prog.Runs.pure _ _

/-- The root directory lists itself, as itself and as its parent. -/
theorem runs_getDirectory (h : g.Initial now t) :
    Prog.Runs g.Rep (getDirectory [slash] false) t
      (0, [DirEntry.new 0 .directory [dot], DirEntry.new 0 .directory [dot, dot]]) t := by
  have hinodes : 0 < g.inodes := Nat.mul_pos g.inodeTable_pos (by decide)
  have hinv : g.Inv false t := h.inv
  have hmapped := hinv.mapped ((h.ibit 0).mpr rfl)
  have hresolve : Prog.Runs g.Holds (g.directoryHandler.resolve (Path.components [slash]) 0
      g.inodeHandler true) t.toView ⟨t.ino 0, 0, 0, DirEntry.free 0, 0, 0⟩ t.toView := by
    refine (runs_readInode hinodes).bind ?_
    refine Prog.Runs.guard (by decide) ?_
    refine Prog.Runs.branch rfl ?_
    exact (runs_readInode hinodes).bind (Prog.Runs.pure _ _)
  have hfull : ∀ b ∈ (t.ino 0).content t.data, (t.data b).Complete := by
    intro b hb
    have hb : b ∈ t.content 0 := hb
    rw [h.content, List.mem_singleton] at hb
    rw [hb, h.data]
    exact newDir_complete
  have hentries : (t.ino 0).entries t.data =
      [DirEntry.new 0 .directory [dot], DirEntry.new 0 .directory [dot, dot]] := by
    show (t.content 0).flatMap (fun b => (t.data b).entries) = _
    rw [h.content, List.flatMap_singleton, h.data, Block.entries, newDir_records]
    decide
  refine runs_getFormat.bind ?_
  refine (runs_onDevice hresolve).bind ?_
  refine Prog.Runs.guard ?_ ?_
  · rw [h.root]
    exact fun hne => hne rfl
  refine (runs_onDevice (runs_getEntries hmapped hfull)).bind ?_
  rw [hentries]
  exact Prog.Runs.pure _ _

end Initial

end Geom

/-- A clean empty filesystem: each bitmap has its first bit set and no other that
stands for an index, the counts agree with that, the root lists itself twice, and the
integrity checker reports nothing. -/
structure FFS.Clean (s : FFS) : Prop where
  inodeBitmap : s.format.inodeAllocator.allocated s.device = [0]
  blockBitmap : s.format.blockAllocator.allocated s.device = [0]
  freeInodes : s.format.superblock.freeInodes +
    (s.format.inodeAllocator.allocated s.device).length = s.format.inodeAllocator.maxIndex
  freeData : s.format.superblock.freeData +
    (s.format.blockAllocator.allocated s.device).length = s.format.blockAllocator.maxIndex
  root : (getDirectory [slash] false s).value? =
    some (0, [DirEntry.new 0 .directory [dot], DirEntry.new 0 .directory [dot, dot]])
  integrity : (checkIntegrity s).value? = some []

theorem Geom.Initial.clean {g : Geom} {t : St} {now : UInt64} {s : FFS} (h : g.Initial now t)
    (hs : g.Rep s t) : s.Clean := by
  have hinodes : 0 < g.inodes := Nat.mul_pos g.inodeTable_pos (by decide)
  have hcap := g.cap_pos
  have hialloc : s.format.inodeAllocator.allocated s.device = [0] := by
    rw [hs.2]
    exact h.allocated_inodes hs.1 _
  have hdalloc : s.format.blockAllocator.allocated s.device = [0] := by
    rw [hs.2]
    exact h.allocated_data hs.1 _
  refine ⟨hialloc, hdalloc, ?_, ?_, ?_, ?_⟩
  · rw [hialloc, hs.2]
    show t.freeInodes + 1 = g.inodes
    rw [h.freeInodes]
    omega
  · rw [hdalloc, hs.2]
    show t.freeData + 1 = g.cap
    rw [h.freeData]
    omega
  · obtain ⟨s', hok, -⟩ := h.runs_getDirectory s hs
    rw [hok]
    rfl
  · have hrun : Prog.Runs g.Rep checkIntegrity t [] t :=
      runs_getFormat.bind (runs_onDevice h.runs_checkDevice)
    obtain ⟨s', hok, -⟩ := hrun s hs
    rw [hok]
    rfl

/-- Formatting and mounting a device of 5 to 2^24 - 1 blocks succeeds and gives a clean
empty filesystem, whatever the device held. -/
theorem format_clean (d : MemoryDevice) (now : UInt64) (h5 : 5 ≤ d.blockCount)
    (hsmall : d.blockCount < 2 ^ 24) : ∃ d' f, FormatV1.format now d = .ok () d' ∧
      FormatV1.mount d' = .ok f d' ∧ FFS.Clean ⟨d', f⟩ := by
  obtain ⟨d', hformat, hfresh⟩ := format_ok h5 hsmall now
  obtain ⟨t, hmount, hd', hinit⟩ := Geom.mount_fresh hfresh
  exact ⟨d', _, hformat, hmount, hinit.clean ⟨hd', rfl⟩⟩

/-- A device that is full of ones. -/
theorem format_clean_ones : ∃ d' f,
    FormatV1.format 0 ⟨List.replicate 9 (Block.zero.splice 0 (List.replicate 256 255))⟩ =
        .ok () d' ∧
      FormatV1.mount d' = .ok f d' ∧ FFS.Clean ⟨d', f⟩ :=
  format_clean ⟨List.replicate 9 (Block.zero.splice 0 (List.replicate 256 255))⟩ 0 (by decide)
    (by decide)

end FerrisFS
