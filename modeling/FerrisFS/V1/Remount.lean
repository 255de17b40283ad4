import FerrisFS.V1.Runs

/-!
# The superblock on the device

Operations change the free counts in memory and store them piecemeal. `Mounted`
says what stays of a mounted filesystem whatever the state of its contents: the
layout, and, between operations, that block 0 holds the superblock in memory. No
other write goes to block 0, so a fresh mount finds what the running instance
knows.
-/

namespace FerrisFS

open Lib Lib.Prog DirectoryHandler INodeTableHandler FormatV1

/-! ## Writes away from block 0 -/

/-- The device has `n` blocks, of which the first holds `b`. -/
def Headed (n : Nat) (b : Block) (d : MemoryDevice) : Prop := d.blockCount = n ∧ d.block 0 = b

/-- A program that does not write to block 0. -/
abbrev Skirts {α : Type} (m : DevM α) : Prop := Confined (fun _ => True) (0 < ·) m

theorem anywhere {start : Nat} : ∀ k, start ≤ k → True := fun _ _ => trivial

/-- No region starts at block 0, so programs that work on the regions leave it alone. -/
theorem Skirts.headed {α : Type} {m : DevM α} (h : Skirts m) (n : Nat) (b : Block) :
    Maintains (Headed n b) m := by
  apply Composed.maintains h
  intro α m hm d hd
  cases hm with
  | read _ => exact Maintains.of_readOnly (readOnly_readBlock _) d hd
  | @write i buf hi =>
      by_cases hlt : i < d.blockCount
      · rw [wp_of_ok (writeBlock_of_lt hlt)]
        constructor
        · rw [MemoryDevice.setBlock_blockCount]
          exact hd.1
        · rw [MemoryDevice.block_setBlock hlt, if_neg (by omega)]
          exact hd.2
      · simp [wp, writeBlock, Nat.not_lt.mp hlt]

/-! ## The mounted format -/

namespace Geom

/-- A mounted filesystem of this layout; if `synced`, block 0 is up to date. -/
structure Mounted (g : Geom) (synced : Bool) (s : FFS) : Prop where
  count : s.device.blockCount = g.totalBlocks
  format : ∃ t : St, s.format = g.format t ∧ t.freeInodes < 2 ^ 32 ∧ t.freeData < 2 ^ 32
  superblock : synced = true → Superblock.deserialize (s.device.block 0) = s.format.superblock

variable {g : Geom} {gaps : Bool} {synced : Bool} {α β : Type}

theorem data_pos (g : Geom) : ∀ k, g.dataStart ≤ k → 0 < k := by
  intro k hk
  simp only [dataStart, inodeTableStart, blockBitmapStart] at hk
  omega

theorem table_pos (g : Geom) : ∀ k, g.inodeTableStart ≤ k → 0 < k := by
  intro k hk
  simp only [inodeTableStart, blockBitmapStart] at hk
  omega

theorem one_pos : ∀ k, 1 ≤ k → 0 < k := fun _ hk => hk

theorem blockBitmap_pos (g : Geom) : ∀ k, g.blockBitmapStart ≤ k → 0 < k := by
  intro k hk
  simp only [blockBitmapStart] at hk
  omega

theorem Mounted.unsynced {s : FFS} (h : g.Mounted synced s) : g.Mounted false s :=
  ⟨h.count, h.format, fun hf => by cases hf⟩

theorem Mounted.withDevice {s : FFS} (h : g.Mounted synced s) {d : MemoryDevice}
    (hd : Headed s.device.blockCount (s.device.block 0) d) :
    g.Mounted synced { s with device := d } where
  count := hd.1.trans h.count
  format := h.format
  superblock hs := by
    show Superblock.deserialize (d.block 0) = _
    rw [hd.2]
    exact h.superblock hs

theorem mounted_headed {m : DevM α} (h : ∀ n b, Maintains (Headed n b) m) :
    Maintains (g.Mounted synced) (onDevice m) := by
  intro s hs
  apply wp_zoom.mpr
  apply wp_mono (h _ _ s.device ⟨rfl, rfl⟩)
  · intro a d hd
    exact hs.withDevice hd
  · intro e d _
    trivial

theorem mounted_onDevice {m : DevM α} (h : Skirts m) :
    Maintains (g.Mounted synced) (onDevice m) :=
  mounted_headed h.headed

theorem mounted_read {m : DevM α} (h : ReadOnly m) :
    Maintains (g.Mounted synced) (onDevice m) :=
  mounted_headed fun _ _ => Maintains.of_readOnly h

/-- Device operations whose result matters. -/
theorem mounted_onDevice_bind {m : DevM α} {f : α → FsM β} {P : α → Prop}
    (hm : ∀ n b d, Headed n b d → wp m (fun a d' => Headed n b d' ∧ P a) (fun _ _ => True) d)
    (hf : ∀ a, P a → Maintains (g.Mounted synced) (f a)) :
    Maintains (g.Mounted synced) (onDevice m >>= f) := by
  intro s hs
  apply wp_bind.mpr
  apply wp_zoom.mpr
  apply wp_mono (hm _ _ s.device ⟨rfl, rfl⟩)
  · intro a d hd
    exact hf a hd.2 _ (hs.withDevice hd.1)
  · intro e d _
    trivial

theorem mounted_getFormat {f : FormatV1 → FsM β}
    (h : ∀ t : St, t.freeInodes < 2 ^ 32 → t.freeData < 2 ^ 32 →
      Maintains (g.Mounted synced) (f (g.format t))) :
    Maintains (g.Mounted synced) (getFormat >>= f) := by
  intro s hs
  obtain ⟨t, hfmt, hfi, hfd⟩ := hs.format
  show wp (f s.format) _ _ s
  rw [hfmt]
  exact h t hfi hfd s hs

/-- A change of the format that the superblock has no part in. -/
theorem mounted_modifyFormat {f : FormatV1 → FormatV1}
    (h : ∀ t : St, ∃ t' : St, f (g.format t) = g.format t' ∧ t'.freeInodes = t.freeInodes ∧
      t'.freeData = t.freeData) : Maintains (g.Mounted synced) (modifyFormat f) := by
  intro s hs
  obtain ⟨t, hfmt, hfi, hfd⟩ := hs.format
  obtain ⟨t', hf, hfi', hfd'⟩ := h t
  show g.Mounted synced { s with format := f s.format }
  refine ⟨hs.count, ⟨t', by rw [← hf, ← hfmt], by omega, by omega⟩, fun hsync => ?_⟩
  have hold := hs.superblock hsync
  show Superblock.deserialize (s.device.block 0) = (f s.format).superblock
  rw [hold, hfmt, hf]
  show g.superblock _ _ = g.superblock _ _
  rw [hfi', hfd']

/-- New counts. Block 0 is behind until it is written. -/
theorem Mounted.setCounts {f : FormatV1 → FormatV1} {s : FFS} (hs : g.Mounted synced s)
    (h : ∀ t : St, t.freeInodes < 2 ^ 32 → t.freeData < 2 ^ 32 → ∃ t' : St,
      f (g.format t) = g.format t' ∧ t'.freeInodes < 2 ^ 32 ∧ t'.freeData < 2 ^ 32) :
    g.Mounted false { s with format := f s.format } := by
  obtain ⟨t, hfmt, hfi, hfd⟩ := hs.format
  obtain ⟨t', hf, hfi', hfd'⟩ := h t hfi hfd
  exact ⟨hs.count, ⟨t', by rw [← hf, ← hfmt], hfi', hfd'⟩, fun hsync => by cases hsync⟩

theorem mounted_setCounts {f : FormatV1 → FormatV1}
    (h : ∀ t : St, t.freeInodes < 2 ^ 32 → t.freeData < 2 ^ 32 → ∃ t' : St,
      f (g.format t) = g.format t' ∧ t'.freeInodes < 2 ^ 32 ∧ t'.freeData < 2 ^ 32) :
    Maintains (g.Mounted false) (modifyFormat f) :=
  fun _ hs => hs.setCounts h

theorem Mounted.words {s : FFS} (h : g.Mounted synced s) (buf : Block) :
    Superblock.deserialize (s.format.superblock.serialize buf) = s.format.superblock := by
  obtain ⟨t, hfmt, hfi, hfd⟩ := h.format
  rw [hfmt]
  exact Superblock.deserialize_serialize (by decide : MAGIC < 2 ^ 64) (superblock_words hfi hfd) buf

theorem wp_writeSuperblock {s : FFS} (hs : g.Mounted synced s) :
    wp writeSuperblock (fun _ s' => g.Mounted true s') (fun _ _ => True) s := by
  have hlt : 0 < s.device.blockCount := by
    rw [hs.count]
    exact Nat.lt_of_le_of_lt (Nat.zero_le _) g.hasData
  show wp (onDevice (writeBlock 0 (s.format.superblock.serialize Block.zero))) _ _ s
  apply wp_zoom.mpr
  rw [wp_of_ok (writeBlock_of_lt hlt)]
  constructor
  · show (s.device.setBlock 0 _).blockCount = _
    rw [MemoryDevice.setBlock_blockCount]
    exact hs.count
  · exact hs.format
  · intro _
    show Superblock.deserialize ((s.device.setBlock 0 _).block 0) = _
    rw [MemoryDevice.block_setBlock hlt, if_pos rfl]
    exact hs.words _

/-- Counts are changed and stored. -/
theorem mounted_store {f : FormatV1 → FormatV1} {k : Unit → FsM β}
    (h : ∀ t : St, t.freeInodes < 2 ^ 32 → t.freeData < 2 ^ 32 → ∃ t' : St,
      f (g.format t) = g.format t' ∧ t'.freeInodes < 2 ^ 32 ∧ t'.freeData < 2 ^ 32)
    (hk : Maintains (g.Mounted true) (k ())) :
    Maintains (g.Mounted true) (modifyFormat f >>= fun _ => writeSuperblock >>= k) := by
  intro s hs
  show wp (writeSuperblock >>= k) _ _ { s with format := f s.format }
  apply wp_seq (wp_writeSuperblock (hs.setCounts h))
  · intro _ s' hs'
    exact hk s' hs'
  · intro _ _ he
    exact he

/-! ## Allocation -/

/-- Allocators only move. -/
theorem headed_allocate {a : BitmapAllocator} (hstart : ∀ k, a.start ≤ k → 0 < k)
    (blocks : List Nat) (n : Nat) (b : Block) (d : MemoryDevice) (hd : Headed n b d) :
    wp (a.allocate blocks)
      (fun a' d' => Headed n b d' ∧ ∃ last, a' = { a with lastAlloc := last })
      (fun _ _ => True) d := by
  unfold BitmapAllocator.allocate
  split
  · exact ⟨hd, a.lastAlloc, rfl⟩
  · rename_i last _
    apply wp_seq (Skirts.headed (Confined.modify anywhere hstart _ _) n b d hd)
    · intro _ d' hd'
      exact ⟨hd', last, rfl⟩
    · intro _ _ _
      trivial

theorem mounted_allocate (inodes data : Nat) :
    Maintains (g.Mounted true) (FormatV1.allocate inodes data) := by
  apply mounted_getFormat
  intro t hfi hfd
  apply Maintains.failIf
  apply Maintains.failIf
  apply Maintains.bind (mounted_onDevice (Confined.findFree anywhere _))
  intro inodeInds
  apply Maintains.bind (mounted_onDevice (Confined.findFree anywhere _))
  intro dataInds
  -- the failing branches overwrite a count in memory, and end in an error
  have hfail : ∀ {f : FormatV1 → FormatV1} {e : FSError} {k : Unit → FsM (List Nat × List Nat)},
      Maintains (g.Mounted true) (modifyFormat f >>= fun _ => Prog.fail e >>= k) :=
    fun s _ => trivial
  apply Maintains.ite
  · intro _
    exact hfail
  intro _
  apply Maintains.ite
  · intro _
    exact hfail
  intro _
  apply mounted_onDevice_bind (headed_allocate one_pos _)
  rintro inodeAllocator ⟨lastInode, rfl⟩
  apply Maintains.bind (mounted_modifyFormat fun t => ⟨{ t with lastInode := lastInode },
    rfl, rfl, rfl⟩)
  intro _
  apply mounted_onDevice_bind (headed_allocate g.blockBitmap_pos _)
  rintro blockAllocator ⟨lastData, rfl⟩
  apply Maintains.bind (mounted_modifyFormat fun t => ⟨{ t with lastData := lastData },
    rfl, rfl, rfl⟩)
  intro _
  apply Maintains.checkedSub
  intro _
  apply Maintains.checkedSub
  intro _
  apply mounted_store
  · intro t' _ _
    exact ⟨{ t' with freeInodes := t.freeInodes - inodes, freeData := t.freeData - data }, rfl,
      by dsimp only; omega, by dsimp only; omega⟩
  · exact Maintains.pure _

/-! ## Creating and deleting -/

theorem mounted_writeEntry (parent : INode) (e : DirEntry) (fit : Option (Nat × Nat))
    (fresh : List Nat) : Maintains (g.Mounted synced) (writeEntry parent e fit fresh) := by
  apply mounted_getFormat
  intro t _ _
  match fit with
  | none =>
      apply Maintains.unwrap
      intro entryBlock _
      apply Maintains.abortIf
      apply Maintains.bind (mounted_onDevice (Confined.addBlock anywhere g.data_pos _ _ _))
      intro parent
      apply Maintains.bind (mounted_onDevice (Confined.addEntryGrow g.data_pos _ _))
      intro _
      apply Maintains.checkedAdd
      intro _
      exact Maintains.pure _
  | some (entryBlock, entryOffset) =>
      apply Maintains.bind
        (mounted_onDevice (Confined.addEntryHere anywhere g.data_pos _ _ _))
      intro _
      exact Maintains.pure _

theorem mounted_newInode (ft : FileType) (ds : List Nat) (now : UInt64) :
    Maintains (g.Mounted synced) (newInode ft ds now) := by
  apply mounted_getFormat
  intro t _ _
  apply Maintains.ite
  · intro _
    apply Maintains.unwrap
    intro block _
    apply Maintains.bind (mounted_onDevice (Confined.addBlock anywhere g.data_pos _ _ _))
    intro node
    exact Maintains.pure _
  · intro _
    exact Maintains.pure _

theorem mounted_createIn (p : Nat) (node : INode) (ft : FileType) (name : Str)
    (onExists : DirEntry → FSError) (now : UInt64) :
    Maintains (g.Mounted true) (createIn p node ft name onExists now) := by
  apply mounted_getFormat
  intro t _ _
  apply Maintains.bind (mounted_read (readOnly_findEntry _ _ _ _))
  intro existing
  match existing with
  | some (e, _, _) => exact Maintains.fail _
  | none =>
    apply Maintains.abortIf
    apply Maintains.bind (mounted_read (readOnly_canFit _ _ _ _))
    intro fit
    apply Maintains.bind (mounted_allocate _ _)
    intro taken
    apply Maintains.unwrap
    intro index _
    apply Maintains.bind (mounted_newInode _ _ _)
    intro inode
    apply Maintains.bind (mounted_onDevice (Confined.writeInode anywhere g.table_pos _ _))
    intro _
    have hrest : Maintains (g.Mounted true) (do
        let parentInode ← writeEntry node
          { DirEntry.new INVALID_ADDRESS ft name with inode := index } fit
          (taken.2.drop (fileBlocks ft))
        onDevice (g.inodeHandler.writeInode p { parentInode with modified := now.toNat })
        pure (inode, index) : FsM (INode × Nat)) := by
      apply Maintains.bind (mounted_writeEntry _ _ _ _)
      intro parent
      exact Maintains.bind
        (mounted_onDevice (Confined.writeInode anywhere g.table_pos _ _))
        fun _ => Maintains.pure _
    apply Maintains.ite
    · intro _
      exact Maintains.bind
        (mounted_onDevice (Confined.writeDirectoryWithInode anywhere g.data_pos _ _))
        fun _ => hrest
    · intro _
      exact hrest

theorem mounted_create (path : Str) (ft : FileType) (now : UInt64) :
    Maintains (g.Mounted true) (create path ft now) := by
  apply Maintains.failIf
  apply Maintains.unwrap
  intro split _
  apply mounted_getFormat
  intro t _ _
  apply Maintains.bind (mounted_read (readOnly_resolve _ _ _ _ _))
  intro r
  exact mounted_createIn _ _ _ _ _ _

theorem mounted_createChild (ft : FileType) (name : Str) (p : Nat) (now : UInt64) :
    Maintains (g.Mounted true) (createChild ft name p now) := by
  apply mounted_getFormat
  intro t _ _
  apply Maintains.bind (mounted_read (readOnly_isAllocated _ _))
  intro allocated
  apply Maintains.failIf
  apply Maintains.bind (mounted_read (readOnly_readInode _ _))
  intro parent
  apply Maintains.failIf
  exact mounted_createIn _ _ _ _ _ _

theorem mounted_writeSymlink (node : INode) (i : Nat) (target : Str) (now : UInt64) :
    Maintains (g.Mounted synced) (writeSymlink node i target now) := by
  apply mounted_getFormat
  intro t _ _
  apply Maintains.checkedAdd
  intro _
  apply Maintains.abortIf
  apply Maintains.bind
    (mounted_onDevice (Confined.writeBlock _ (g.data_pos _ (Nat.le_add_right _ _))))
  intro _
  exact mounted_onDevice (Confined.writeInode anywhere g.table_pos _ _)

theorem mounted_editSymlink (path target : Str) (now : UInt64) :
    Maintains (g.Mounted synced) (editSymlink path target now) := by
  apply mounted_getFormat
  intro t _ _
  apply Maintains.bind (mounted_read (readOnly_resolve _ _ _ _ _))
  intro r
  apply Maintains.failIf
  exact mounted_writeSymlink _ _ _ _

theorem mounted_linkIn (node : INode) (i : Nat) (dst name : Str) (parent : INode) (p : Nat)
    (now : UInt64) : Maintains (g.Mounted true) (linkIn node i dst name parent p now) := by
  apply mounted_getFormat
  intro t _ _
  apply Maintains.bind (mounted_read (readOnly_findEntry _ _ _ _))
  intro existing
  apply Maintains.failIf
  apply Maintains.bind (mounted_read (readOnly_canFit _ _ _ _))
  intro fit
  apply Maintains.bind (mounted_allocate _ _)
  intro taken
  apply Maintains.bind (mounted_writeEntry _ _ _ _)
  intro parent
  apply Maintains.checkedAdd
  intro _
  apply Maintains.bind (mounted_onDevice (Confined.writeInode anywhere g.table_pos _ _))
  intro _
  exact mounted_onDevice (Confined.writeInode anywhere g.table_pos _ _)

theorem mounted_createHardlink (src dst : Str) (now : UInt64) :
    Maintains (g.Mounted true) (createHardlink src dst now) := by
  apply mounted_getFormat
  intro t _ _
  apply Maintains.bind (mounted_read (readOnly_resolve _ _ _ _ _))
  intro source
  apply Maintains.failIf
  apply Maintains.unwrap
  intro split _
  apply Maintains.bind (mounted_read (readOnly_resolve _ _ _ _ _))
  intro destination
  exact mounted_linkIn _ _ _ _ _ _ _

theorem mounted_unlink (node : INode) (i : Nat) (parent : INode) (p block offset : Nat)
    (notEmpty : FSError) (now : UInt64) :
    Maintains (g.Mounted true) (unlink node i parent p block offset notEmpty now) := by
  apply mounted_getFormat
  intro t hfi hfd
  have hfree : Maintains (g.Mounted true) (do
      let _ ← onDevice (g.directoryHandler.freeRegion block offset)
      onDevice (g.inodeHandler.writeInode p { parent with modified := now.toNat }) : FsM Unit) := by
    apply Maintains.bind (mounted_onDevice (Confined.freeRegion anywhere g.data_pos _ _))
    intro _
    exact mounted_onDevice (Confined.writeInode anywhere g.table_pos _ _)
  have hdrop : Maintains (g.Mounted true) (do
      if node.links > 1 then
        onDevice (g.inodeHandler.writeInode i { node with links := node.links - 1 })
      else do
        let dataToDealloc ←
          onDevice (collectBlocks g.inodeHandler node (List.range node.blocks))
        onDevice ((g.format t).blockAllocator.deallocate dataToDealloc)
        onDevice ((g.format t).inodeAllocator.deallocate [i])
        let freeData ← add32 t.freeData dataToDealloc.length
        let freeInodes ← add32 t.freeInodes 1
        modifyFormat fun f => { f with
          superblock := { f.superblock with freeData := freeData, freeInodes := freeInodes } }
        writeSuperblock
      let _ ← onDevice (g.directoryHandler.freeRegion block offset)
      onDevice (g.inodeHandler.writeInode p { parent with modified := now.toNat }) :
        FsM Unit) := by
    apply Maintains.ite
    · intro _
      exact Maintains.bind
        (mounted_onDevice (Confined.writeInode anywhere g.table_pos _ _)) fun _ => hfree
    · intro _
      apply Maintains.bind (mounted_onDevice (Confined.collectBlocks anywhere _ _))
      intro dataToDealloc
      apply Maintains.bind
        (mounted_onDevice (Confined.modify anywhere g.blockBitmap_pos _ _))
      intro _
      apply Maintains.bind (mounted_onDevice (Confined.modify anywhere one_pos _ _))
      intro _
      apply Maintains.checkedAdd
      intro hdata
      apply Maintains.checkedAdd
      intro hinodes
      apply mounted_store
      · intro t' _ _
        exact ⟨{ t' with
          freeInodes := t.freeInodes + 1, freeData := t.freeData + dataToDealloc.length }, rfl,
          hinodes, hdata⟩
      · exact hfree
  apply Maintains.ite
  · intro _
    apply Maintains.bind (mounted_read (readOnly_iterateBlocks _ _ _ _ _ _))
    intro empty
    apply Maintains.failIf
    exact hdrop
  · intro _
    exact hdrop

theorem mounted_delete (path : Str) (now : UInt64) :
    Maintains (g.Mounted true) (delete path now) := by
  apply mounted_getFormat
  intro t _ _
  apply Maintains.bind (mounted_read (readOnly_resolve _ _ _ _ _))
  intro r
  apply Maintains.failIf
  apply Maintains.bind (mounted_read (readOnly_readInode _ _))
  intro parent
  exact mounted_unlink _ _ _ _ _ _ _ _

theorem mounted_deleteChild (name : Str) (p : Nat) (ty : Option FileType) (now : UInt64) :
    Maintains (g.Mounted true) (deleteChild name p ty now) := by
  apply Maintains.failIf
  apply mounted_getFormat
  intro t _ _
  apply Maintains.bind (mounted_read (readOnly_isAllocated _ _))
  intro allocated
  apply Maintains.failIf
  apply Maintains.bind (mounted_read (readOnly_readInode _ _))
  intro parent
  apply Maintains.failIf
  apply Maintains.bind (mounted_read (readOnly_findEntry _ _ _ _))
  intro existing
  match existing with
  | none => exact Maintains.fail _
  | some (e, block, offset) =>
    apply Maintains.bind (mounted_read (readOnly_readInode _ _))
    intro node
    match ty with
    | none => exact mounted_unlink _ _ _ _ _ _ _ _
    | some x =>
      apply Maintains.failIf
      exact mounted_unlink _ _ _ _ _ _ _ _

theorem mounted_getInode (i : Nat) : Maintains (g.Mounted synced) (getInode i) := by
  apply mounted_getFormat
  intro t _ _
  apply Maintains.bind (mounted_read (readOnly_isAllocated _ _))
  intro allocated
  apply Maintains.failIf
  exact mounted_read (readOnly_readInode _ _)

/-! ## Open files -/

theorem mounted_handle (id : Nat) : Maintains (g.Mounted synced) (handle id) := by
  apply mounted_getFormat
  intro t _ _
  split
  · exact Maintains.pure _
  · exact Maintains.fail _

theorem mounted_setOffset (id : Nat) (m : FileMetadata) (offset : Nat) :
    Maintains (g.Mounted synced) (setOffset id m offset) :=
  mounted_modifyFormat fun t => ⟨{ t with
    openFiles := Function.update t.openFiles id (some { m with offset := offset }) },
    rfl, rfl, rfl⟩

theorem mounted_openFile (path : Str) : Maintains (g.Mounted synced) (openFile path) := by
  apply mounted_getFormat
  intro t _ _
  apply Maintains.bind (mounted_read (readOnly_resolve _ _ _ _ _))
  intro r
  apply Maintains.failIf
  apply Maintains.checkedAdd
  intro _
  apply Maintains.bind (mounted_modifyFormat fun t' => ⟨{ t' with
    nextFileId := t.nextFileId + 1
    openFiles := Function.update t'.openFiles t'.nextFileId (some ⟨r.targetInodeIndex, 0⟩) },
    rfl, rfl, rfl⟩)
  intro _
  exact Maintains.pure _

theorem mounted_closeFile (id : Nat) : Maintains (g.Mounted synced) (closeFile id) :=
  mounted_modifyFormat fun t => ⟨t.closed id, rfl, rfl, rfl⟩

theorem mounted_checkAddress (node : INode) (block blockInd maxIndex : Nat) :
    Maintains (g.Mounted synced) (checkAddress node block blockInd maxIndex) := by
  apply Maintains.failIf
  apply Maintains.ite
  · intro _
    exact Maintains.fail _
  · intro _
    exact Maintains.pure _

theorem mounted_readLoop (id : Nat) (node : INode) (len : Nat) :
    ∀ (fuel block inBlockOffset : Nat) (out : List UInt8),
      Maintains (g.Mounted synced) (readLoop id node len fuel block inBlockOffset out)
  | 0, _, _, _ => Maintains.pure _
  | fuel + 1, block, inBlockOffset, out => by
      apply Maintains.bind (mounted_handle _)
      intro m
      apply Maintains.ite
      · intro _
        apply mounted_getFormat
        intro t _ _
        apply Maintains.bind (mounted_read (readOnly_getBlock _ _ _))
        intro blockInd
        apply Maintains.bind (mounted_checkAddress _ _ _ _)
        intro _
        apply Maintains.checkedAdd
        intro _
        apply Maintains.bind (mounted_read (readOnly_readBlock _))
        intro buf
        apply Maintains.bind (mounted_setOffset _ _ _)
        intro _
        exact mounted_readLoop id node len fuel _ _ _
      · intro _
        exact Maintains.pure _

theorem mounted_readFile (id len : Nat) :
    Maintains (g.Mounted synced) (FormatV1.read id len) := by
  apply Maintains.bind (mounted_handle _)
  intro m
  apply Maintains.ite
  · intro _
    exact Maintains.pure _
  · intro _
    apply mounted_getFormat
    intro t _ _
    apply Maintains.bind (mounted_read (readOnly_readInode _ _))
    intro node
    apply Maintains.failIf
    exact mounted_readLoop _ _ _ _ _ _ _

theorem mounted_seekSum (base : Nat) (offset : Int64) :
    Maintains (g.Mounted synced) (seekSum base offset) :=
  Maintains.ite (fun _ => Maintains.pure _) fun _ => Maintains.abort

theorem mounted_seek (id : Nat) (pos : SeekFrom) :
    Maintains (g.Mounted synced) (seek id pos) := by
  apply Maintains.bind (mounted_handle _)
  intro m
  apply mounted_getFormat
  intro t _ _
  have hrest : ∀ offset, Maintains (g.Mounted synced)
      (setOffset id m offset >>= fun _ => pure offset) := by
    intro offset
    exact Maintains.bind (mounted_setOffset _ _ _) fun _ => Maintains.pure _
  match pos with
  | .start offset => exact hrest _
  | .current offset => exact Maintains.bind (mounted_seekSum _ _) hrest
  | .fromEnd offset =>
      apply Maintains.bind (mounted_read (readOnly_readInode _ _))
      intro node
      exact Maintains.bind (mounted_seekSum _ _) hrest

theorem mounted_truncate (id : Nat) (size now : UInt64) :
    Maintains (g.Mounted synced) (truncate id size now) := by
  apply Maintains.bind (mounted_handle _)
  intro m
  apply mounted_getFormat
  intro t _ _
  apply Maintains.bind (mounted_read (readOnly_readInode _ _))
  intro node
  apply Maintains.ite
  · intro _
    exact mounted_onDevice (Confined.writeInode anywhere g.table_pos _ _)
  · intro _
    exact Maintains.pure _

/-- The growth part of `write` changes the count in memory only. -/
theorem mounted_growForWrite (node : INode) (finalBlock : Nat) :
    Maintains (g.Mounted false) (growForWrite node finalBlock) := by
  apply mounted_getFormat
  intro t hfi hfd
  apply Maintains.checkedAdd
  intro _
  apply Maintains.bind (mounted_onDevice (Confined.findFree anywhere _))
  intro metas
  apply Maintains.failIf
  apply mounted_onDevice_bind (headed_allocate g.blockBitmap_pos _)
  rintro blockAllocator ⟨lastMeta, rfl⟩
  apply Maintains.bind (mounted_modifyFormat fun t => ⟨{ t with lastData := lastMeta },
    rfl, rfl, rfl⟩)
  intro _
  apply Maintains.bind (mounted_onDevice (Confined.findFree anywhere _))
  intro datas
  apply Maintains.ite
  · intro _
    apply Maintains.bind
      (mounted_onDevice (Confined.modify anywhere g.blockBitmap_pos _ _))
    intro _ s _
    trivial
  intro _
  apply mounted_onDevice_bind (headed_allocate g.blockBitmap_pos _)
  rintro blockAllocator ⟨lastData, rfl⟩
  apply Maintains.bind (mounted_modifyFormat fun t => ⟨{ t with lastData := lastData },
    rfl, rfl, rfl⟩)
  intro _
  apply Maintains.bind (mounted_onDevice (Confined.zeroBlocks g.data_pos _))
  intro _
  apply Maintains.bind (mounted_onDevice (Confined.addBlocks anywhere g.data_pos _ _ _))
  intro node
  apply Maintains.checkedAdd
  intro _
  apply Maintains.checkedSub
  intro _
  apply Maintains.bind (mounted_setCounts ?_) fun _ => Maintains.pure _
  intro t' hfi' _
  refine ⟨{ t' with freeData := t.freeData - _ }, rfl, hfi', ?_⟩
  dsimp only
  omega

theorem mounted_writeLoop (id : Nat) (node : INode) :
    ∀ (fuel block inBlockOffset : Nat) (buf : Block) (rest : List UInt8) (wrote : Nat),
      Maintains (g.Mounted synced) (writeLoop id node fuel block inBlockOffset buf rest wrote)
  | 0, _, _, _, _, _ => Maintains.pure _
  | fuel + 1, block, inBlockOffset, buf, rest, wrote => by
      apply Maintains.ite
      · intro _
        apply mounted_getFormat
        intro t _ _
        apply Maintains.bind (mounted_handle _)
        intro m
        apply Maintains.bind (mounted_read (readOnly_getBlock _ _ _))
        intro blockInd
        apply Maintains.bind (mounted_checkAddress _ _ _ _)
        intro _
        apply Maintains.checkedAdd
        intro _
        have hrest : ∀ deviceBuf : Block, Maintains (g.Mounted synced) (do
            onDevice (writeBlock (g.dataStart + blockInd) deviceBuf)
            setOffset id m (m.offset + min (BLOCK_SIZE - inBlockOffset) rest.length)
            writeLoop id node fuel (block + 1) 0 deviceBuf
              (rest.drop (min (BLOCK_SIZE - inBlockOffset) rest.length))
              (wrote + min (BLOCK_SIZE - inBlockOffset) rest.length) : FsM Nat) := by
          intro deviceBuf
          apply Maintains.bind
            (mounted_onDevice (Confined.writeBlock _ (g.data_pos _ (Nat.le_add_right _ _))))
          intro _
          apply Maintains.bind (mounted_setOffset _ _ _)
          intro _
          exact mounted_writeLoop id node fuel _ _ _ _ _
        apply Maintains.ite
        · intro _
          exact Maintains.bind (mounted_read (readOnly_readBlock _)) fun _ => hrest _
        · intro _
          exact hrest _
      · intro _
        exact Maintains.pure _

/-- `write` stores the count again whenever it has changed it. -/
theorem mounted_write (id : Nat) (buf : List UInt8) (now : UInt64) :
    Maintains (g.Mounted true) (FormatV1.write id buf now) := by
  apply Maintains.bind (mounted_handle _)
  intro m
  apply Maintains.ite
  · intro _
    exact Maintains.pure _
  intro _
  apply mounted_getFormat
  intro t _ _
  apply Maintains.bind (mounted_read (readOnly_readInode _ _))
  intro node
  apply Maintains.checkedAdd
  intro _
  -- block 0 may be behind only if it is written at the end
  have hbody : ∀ (allocated : Bool) (node : INode) (s : FFS), g.Mounted (!allocated) s →
      wp (do
        let wrote ← writeLoop id node (buf.length + 1) ((m.offset / BLOCK_SIZE) % U32)
          (m.offset % BLOCK_SIZE) Block.zero buf 0
        let m ← handle id
        onDevice (g.inodeHandler.writeInode m.inode
          { node with size := max node.size m.offset, modified := now.toNat })
        if allocated then writeSuperblock
        pure wrote : FsM Nat) (fun _ s' => g.Mounted true s') (fun _ _ => True) s := by
    intro allocated node s hs
    apply wp_seq (mounted_writeLoop _ _ _ _ _ _ _ _ s hs) ?_ fun _ _ he => he
    intro wrote s hs
    apply wp_seq (mounted_handle _ s hs) ?_ fun _ _ he => he
    intro m s hs
    apply wp_seq (mounted_onDevice (Confined.writeInode anywhere g.table_pos _ _) s hs)
      ?_ fun _ _ he => he
    intro _ s hs
    cases allocated with
    | false => exact hs
    | true => exact wp_seq (wp_writeSuperblock hs) (fun _ _ hs => hs) fun _ _ he => he
  intro s hs
  apply wp_ite
  · intro halloc
    rw [halloc]
    apply wp_seq (mounted_growForWrite _ _ s hs.unsynced) ?_ fun _ _ he => he
    intro node s hs
    exact hbody true node s hs
  · intro halloc
    rw [Bool.not_eq_true] at halloc
    rw [halloc]
    exact hbody false node s hs

theorem mounted_ignoreResult {m : FsM α} (h : Maintains (g.Mounted true) m) :
    Maintains (g.Mounted true) (ignoreResult m) :=
  Maintains.bind h fun _ => Maintains.pure _

theorem mounted_exec (op : Op) : Maintains (g.Mounted true) op.exec := by
  cases op with
  | createFile path now => exact mounted_ignoreResult (mounted_create _ _ _)
  | createDirectory path now => exact mounted_ignoreResult (mounted_create _ _ _)
  | createSymlink path target now now' =>
      exact Maintains.bind (mounted_create _ _ _) fun _ => mounted_writeSymlink _ _ _ _
  | createHardlink src dst now => exact mounted_createHardlink _ _ _
  | delete path now => exact mounted_delete _ _
  | createChild ft name p now => exact mounted_ignoreResult (mounted_createChild _ _ _ _)
  | createChildHardlink i dst p now =>
      apply Maintains.bind (mounted_getInode _)
      intro source
      apply Maintains.bind (mounted_getInode _)
      intro parent
      apply Maintains.unwrap
      intro split _
      exact mounted_linkIn _ _ _ _ _ _ _
  | deleteChild name p ty now => exact mounted_deleteChild _ _ _ _
  | openFile path => exact mounted_ignoreResult (mounted_openFile _)
  | closeFile id => exact mounted_closeFile _
  | seek id pos => exact mounted_ignoreResult (mounted_seek _ _)
  | read id len => exact mounted_ignoreResult (mounted_readFile _ _)
  | write id buf now => exact mounted_ignoreResult (mounted_write _ _ _)
  | truncate id size now => exact mounted_truncate _ _ _

end Geom

/-! ## Two instances over one device -/

namespace Geom

variable {g : Geom} {gaps : Bool} {ids : List (Nat × Nat)} {α β : Type} {V : α → β → Prop}

/-- Two instances of one layout that see the same device. Each pair in `ids` is a
handle of either instance, with the same position in the same file. -/
structure Twins (g : Geom) (ids : List (Nat × Nat)) (s s' : FFS) : Prop where
  device : s'.device = s.device
  left : ∃ t : St, s.format = g.format t
  right : ∃ t : St, s'.format = g.format t
  handles : ∀ p ∈ ids, ∃ m, s.format.openFiles p.1 = some m ∧ s'.format.openFiles p.2 = some m

theorem twins_onDevice (m : DevM α) : Mirrors (g.Twins ids) Eq (onDevice m) (onDevice m) := by
  intro s s' h
  have hput : ∀ d : MemoryDevice,
      g.Twins ids { s with device := d } { s' with device := d } := fun d =>
    ⟨rfl, h.left, h.right, h.handles⟩
  unfold onDevice Prog.zoom
  rw [h.device]
  cases m s.device with
  | ok a d => exact .ok rfl (hput d)
  | err e d => exact .err (hput d)
  | panic => exact .panic

theorem twins_getFormat {f : FormatV1 → FsM α} {f' : FormatV1 → FsM β}
    (h : ∀ t t' : St, Mirrors (g.Twins ids) V (f (g.format t)) (f' (g.format t'))) :
    Mirrors (g.Twins ids) V (getFormat >>= f) (getFormat >>= f') := by
  intro s s' hs
  obtain ⟨t, ht⟩ := hs.left
  obtain ⟨t', ht'⟩ := hs.right
  show Prog.Matched _ V (f s.format s) (f' s'.format s')
  rw [ht, ht']
  exact h t t' s s' hs

theorem twins_fileExists (path : Str) :
    Mirrors (g.Twins ids) Eq (fileExists path) (fileExists path) := by
  apply twins_getFormat
  intro t t'
  apply Mirrors.bind (Mirrors.attempt (twins_onDevice _))
  intro res res' heq
  rw [heq]
  split
  · exact Mirrors.pure rfl
  · exact Mirrors.pure rfl
  · exact Mirrors.fail _

theorem twins_contentEntries : ∀ entries : List DirEntry,
    Mirrors (g.Twins ids) Eq (contentEntries entries) (contentEntries entries)
  | [] => Mirrors.pure rfl
  | e :: rest => by
      apply Mirrors.abortIf
      apply Mirrors.abortIf
      apply Mirrors.bind (twins_contentEntries rest)
      intro a b heq
      rw [heq]
      exact Mirrors.pure rfl

theorem twins_getDirectoryContent (path : Str) :
    Mirrors (g.Twins ids) Eq (getDirectoryContent path) (getDirectoryContent path) := by
  have hdir : Mirrors (g.Twins ids) Eq (getDirectory path false) (getDirectory path false) := by
    apply twins_getFormat
    intro t t'
    apply Mirrors.bind (twins_onDevice _)
    intro r r' heq
    rw [heq]
    apply Mirrors.failIf
    apply Mirrors.bind (twins_onDevice _)
    intro entries entries' heq
    rw [heq]
    exact Mirrors.pure rfl
  apply Mirrors.bind hdir
  intro a b heq
  rw [heq]
  exact twins_contentEntries _

/-! ### Reading through two handles -/

variable {id id' : Nat}

theorem handle_of_open {s : FFS} {m : FileMetadata} (h : s.format.openFiles id = some m) :
    handle id s = .ok m s := by
  unfold handle
  rw [bind_apply]
  simp only [getFormat, h]
  rfl

theorem twins_handle : Mirrors (g.Twins [(id, id')]) Eq (handle id) (handle id') := by
  intro s s' hs
  obtain ⟨m, hm, hm'⟩ := hs.handles (id, id') (List.mem_singleton_self _)
  rw [handle_of_open hm, handle_of_open hm']
  exact .ok rfl hs

theorem twins_setOffset (m : FileMetadata) (offset : Nat) :
    Mirrors (g.Twins [(id, id')]) Eq (setOffset id m offset) (setOffset id' m offset) := by
  intro s s' hs
  obtain ⟨t, ht⟩ := hs.left
  obtain ⟨t', ht'⟩ := hs.right
  apply Prog.Matched.ok rfl
  refine ⟨hs.device, ⟨t.withOffset id m offset, ?_⟩, ⟨t'.withOffset id' m offset, ?_⟩, ?_⟩
  · dsimp only
    rw [ht]
    rfl
  · dsimp only
    rw [ht']
    rfl
  · intro p hp
    rw [List.mem_singleton] at hp
    rw [hp]
    exact ⟨{ m with offset := offset }, Function.update_self .., Function.update_self ..⟩

theorem twins_checkAddress (node : INode) (block blockInd maxIndex : Nat) :
    Mirrors (g.Twins ids) Eq (checkAddress node block blockInd maxIndex)
      (checkAddress node block blockInd maxIndex) := by
  apply Mirrors.failIf
  apply Mirrors.ite
  · intro _
    exact Mirrors.fail _
  · intro _
    exact Mirrors.pure rfl

theorem twins_readLoop (node : INode) (len : Nat) :
    ∀ (fuel block inBlockOffset : Nat) (out : List UInt8),
      Mirrors (g.Twins [(id, id')]) Eq (readLoop id node len fuel block inBlockOffset out)
        (readLoop id' node len fuel block inBlockOffset out)
  | 0, _, _, _ => Mirrors.pure rfl
  | fuel + 1, block, inBlockOffset, out => by
      apply Mirrors.bind twins_handle
      intro m m' hm
      rw [hm]
      apply Mirrors.ite
      · intro _
        apply twins_getFormat
        intro t t'
        apply Mirrors.bind (twins_onDevice _)
        intro blockInd blockInd' hind
        rw [hind]
        apply Mirrors.bind (twins_checkAddress _ _ _ _)
        intro _ _ _
        apply Mirrors.bind (Mirrors.checkedAdd _ _ _)
        intro address address' haddr
        rw [haddr]
        apply Mirrors.bind (twins_onDevice _)
        intro buf buf' hbuf
        rw [hbuf]
        apply Mirrors.bind (twins_setOffset _ _)
        intro _ _ _
        exact twins_readLoop node len fuel _ _ _
      · intro _
        exact Mirrors.pure rfl

theorem twins_readFile (len : Nat) :
    Mirrors (g.Twins [(id, id')]) Eq (FormatV1.read id len) (FormatV1.read id' len) := by
  apply Mirrors.bind twins_handle
  intro m m' hm
  rw [hm]
  apply Mirrors.ite
  · intro _
    exact Mirrors.pure rfl
  · intro _
    apply twins_getFormat
    intro t t'
    apply Mirrors.bind (twins_onDevice _)
    intro node node' hnode
    rw [hnode]
    apply Mirrors.failIf
    exact twins_readLoop _ _ _ _ _ _

theorem twins_seekSum (base : Nat) (offset : Int64) :
    Mirrors (g.Twins ids) Eq (seekSum base offset) (seekSum base offset) :=
  Mirrors.ite (fun _ => Mirrors.pure rfl) fun _ => Mirrors.abort

theorem twins_seek (pos : SeekFrom) :
    Mirrors (g.Twins [(id, id')]) Eq (seek id pos) (seek id' pos) := by
  apply Mirrors.bind twins_handle
  intro m m' hm
  rw [hm]
  apply twins_getFormat
  intro t t'
  have hrest : ∀ a b : Nat, a = b → Mirrors (g.Twins [(id, id')]) Eq
      (setOffset id m' a >>= fun _ => pure a) (setOffset id' m' b >>= fun _ => pure b) := by
    intro a b heq
    rw [heq]
    apply Mirrors.bind (twins_setOffset _ _)
    intro _ _ _
    exact Mirrors.pure rfl
  match pos with
  | .start offset => exact hrest _ _ rfl
  | .current offset => exact Mirrors.bind (twins_seekSum _ _) hrest
  | .fromEnd offset =>
      apply Mirrors.bind (twins_onDevice _)
      intro node node' hnode
      rw [hnode]
      exact Mirrors.bind (twins_seekSum _ _) hrest

end Geom

/-- Reads all of an open file: go to its end to learn its size, and read that many
bytes from the start. -/
def readAll (id : Nat) : FsM (List UInt8) := do
  let size ← seek id (.fromEnd 0)
  let _ ← seek id (.start 0)
  FormatV1.read id size

/-- Reads a whole file. -/
def readWhole (path : Str) : FsM (List UInt8) := do
  let id ← openFile path
  let bytes ← readAll id
  closeFile id
  pure bytes

theorem answer?_readAll_close (id : Nat) (s : FFS) :
    Outcome.answer? ((readAll id >>= fun bytes => closeFile id >>= fun _ => pure bytes) s) =
      Outcome.answer? (readAll id s) := by
  rw [bind_apply]
  cases readAll id s <;> rfl

namespace Geom

variable {g : Geom}

theorem twins_readAll {id id' : Nat} :
    Mirrors (g.Twins [(id, id')]) Eq (readAll id) (readAll id') := by
  apply Mirrors.bind (twins_seek _)
  intro size size' hsize
  rw [hsize]
  apply Mirrors.bind (twins_seek _)
  intro _ _ _
  exact twins_readFile _

/-- How `open_file` goes on once the path is resolved. -/
theorem openFile_eq (path : Str) (t : St) (d : MemoryDevice) :
    openFile path ⟨d, g.format t⟩ =
      match g.directoryHandler.resolve (Path.components path) 0 g.inodeHandler true d with
      | .ok r d' =>
          if r.targetInode.fileType ≠ .file then .err (.notAFile path) ⟨d', g.format t⟩
          else if t.nextFileId + 1 < U32 then
            .ok t.nextFileId ⟨d', g.format (t.opened r.targetInodeIndex)⟩
          else .panic
      | .err e d' => .err e ⟨d', g.format t⟩
      | .panic => .panic := by
  show ((onDevice (g.directoryHandler.resolve (Path.components path) 0 g.inodeHandler true) >>= _) :
    FsM Nat) ⟨d, g.format t⟩ = _
  rw [bind_apply, onDevice, Prog.zoom]
  dsimp only
  cases g.directoryHandler.resolve (Path.components path) 0 g.inodeHandler true d with
  | ok r d' =>
      dsimp only
      by_cases hfile : r.targetInode.fileType ≠ .file
      · rw [if_pos hfile, if_pos hfile]
        rfl
      · rw [if_neg hfile, if_neg hfile]
        by_cases hid : t.nextFileId + 1 < U32
        · rw [if_pos hid]
          exact bind_of_ok (checkedAdd_of_lt hid) _
        · rw [if_neg hid]
          show (Prog.checkedAdd U32 t.nextFileId 1 >>= _ : FsM Nat) _ = _
          rw [bind_apply, Prog.checkedAdd, if_neg hid]
          rfl
  | err e d' => rfl
  | panic => rfl

/-- Both instances read the same, as long as they have file ids left. -/
theorem twins_readWhole (path : Str) {t t' : St} {d : MemoryDevice}
    (hid : t.nextFileId + 1 < U32) (hid' : t'.nextFileId + 1 < U32) :
    Outcome.answer? (readWhole path ⟨d, g.format t⟩) =
      Outcome.answer? (readWhole path ⟨d, g.format t'⟩) := by
  unfold readWhole
  rw [bind_apply, bind_apply, openFile_eq, openFile_eq]
  cases g.directoryHandler.resolve (Path.components path) 0 g.inodeHandler true d with
  | ok r d' =>
      dsimp only
      by_cases hfile : r.targetInode.fileType ≠ .file
      · rw [if_pos hfile, if_pos hfile]
        rfl
      · rw [if_neg hfile, if_neg hfile, if_pos hid, if_pos hid']
        dsimp only
        rw [answer?_readAll_close, answer?_readAll_close]
        apply Prog.Matched.answer?
        apply twins_readAll
        refine ⟨rfl, ⟨_, rfl⟩, ⟨_, rfl⟩, ?_⟩
        intro p hp
        rw [List.mem_singleton] at hp
        rw [hp]
        exact ⟨⟨r.targetInodeIndex, 0⟩, Function.update_self .., Function.update_self ..⟩
  | err e d' => rfl
  | panic => rfl

/-- An instance without file ids left answers no read. -/
theorem readWhole_spent (path : Str) {t t' : St} {d : MemoryDevice}
    {a : Except FSError (List UInt8)} (hid' : t'.nextFileId + 1 < U32)
    (h : Outcome.answer? (readWhole path ⟨d, g.format t⟩) = some a) :
    Outcome.answer? (readWhole path ⟨d, g.format t'⟩) = some a := by
  by_cases hid : t.nextFileId + 1 < U32
  · rw [← twins_readWhole path hid hid']
    exact h
  · unfold readWhole at h ⊢
    rw [bind_apply, openFile_eq] at h
    rw [bind_apply, openFile_eq]
    revert h
    cases g.directoryHandler.resolve (Path.components path) 0 g.inodeHandler true d with
    | ok r d' =>
        dsimp only
        by_cases hfile : r.targetInode.fileType ≠ .file
        · rw [if_pos hfile, if_pos hfile]
          exact fun h => h
        · rw [if_neg hfile, if_neg hid]
          intro h
          cases h
    | err e d' => exact fun h => h
    | panic => exact fun h => h

end Geom

/-! ## Remounting -/

/-- The calls of a session. -/
inductive Call where
  | operation (op : Op)
  | editSymlink (path target : Str) (now : UInt64)

def Call.exec : Call → FsM Unit
  | .operation op => op.exec
  | .editSymlink path target now => FormatV1.editSymlink path target now

/-- The state after the calls, if they all return. -/
def session : List Call → FFS → Option FFS
  | [], s => some s
  | call :: rest, s =>
      match call.exec s with
      | .ok _ s' => session rest s'
      | _ => none

/-- The instance `s'` answers as the instance `s` does. A whole-file read needs a file
id; an instance that has handed out all of them does not answer. -/
structure Agrees (s s' : FFS) : Prop where
  device : s'.device = s.device
  freeInodes : s'.format.superblock.freeInodes = s.format.superblock.freeInodes
  freeData : s'.format.superblock.freeData = s.format.superblock.freeData
  fileExists : ∀ path, (fileExists path s').answer? = (fileExists path s).answer?
  getDirectoryContent : ∀ path,
    (getDirectoryContent path s').answer? = (getDirectoryContent path s).answer?
  wholeFile : ∀ path a, (readWhole path s).answer? = some a → (readWhole path s').answer? = some a
  wholeFile_eq : s.format.nextFileId + 1 < U32 →
    ∀ path, (readWhole path s').answer? = (readWhole path s).answer?

namespace Geom

variable {g : Geom} {gaps : Bool} {s s' : FFS}

theorem mounted_session : ∀ {calls : List Call} {s : FFS}, g.Mounted true s →
    session calls s = some s' → g.Mounted true s'
  | [], s, hs, h => by
      cases h
      exact hs
  | call :: rest, s, hs, h => by
      unfold session at h
      split at h
      · rename_i s₁ hcall
        have hs₁ : g.Mounted true s₁ := by
          cases call with
          | operation op => exact (mounted_exec op).of_ok hs hcall
          | editSymlink path target now => exact (mounted_editSymlink _ _ _).of_ok hs hcall
        exact mounted_session hs₁ h
      · cases h

theorem mounted_start {now : UInt64} {d : MemoryDevice} (h : start now d = some s) :
    ∃ g : Geom, g.Mounted true s := by
  obtain ⟨g, -, hfresh, hfmt⟩ := start_fresh h
  have hsmall := g.small
  have hdata := g.hasData
  have hcap := g.cap_lt
  have hinodes : g.inodes = g.inodeTableBlocks * 2 := rfl
  refine ⟨g, hfresh.count, ⟨_, hfmt, ?_, ?_⟩, ?_⟩
  · show g.inodes - 1 < 2 ^ 32
    omega
  · show g.cap - 1 < 2 ^ 32
    omega
  · intro _
    rw [hfresh.superblock, hfmt]
    exact Superblock.deserialize_serialize (by decide : MAGIC < 2 ^ 64)
      (superblock_words (by omega) (by omega)) _

theorem Mounted.agrees (h : g.Mounted true s) :
    ∃ f, FormatV1.mount s.device = .ok f s.device ∧ Agrees s ⟨s.device, f⟩ := by
  obtain ⟨t, hfmt, hfi, hfd⟩ := h.format
  have hsb := h.superblock rfl
  rw [hfmt] at hsb
  refine ⟨_, mount_of_superblock h.count hsb, ?_⟩
  obtain ⟨d, f⟩ := s
  cases hfmt
  have htwins : g.Twins [] ⟨d, g.format (g.mounted d t.freeInodes t.freeData)⟩ ⟨d, g.format t⟩ :=
    ⟨rfl, ⟨_, rfl⟩, ⟨_, rfl⟩, fun p hp => by cases hp⟩
  exact
    { device := rfl
      freeInodes := rfl
      freeData := rfl
      fileExists := fun path => (twins_fileExists path _ _ htwins).answer?
      getDirectoryContent := fun path => (twins_getDirectoryContent path _ _ htwins).answer?
      wholeFile := fun path a ha => readWhole_spent path (by decide : (0 : Nat) + 1 < U32) ha
      wholeFile_eq := fun hid path => twins_readWhole path (by decide : (0 : Nat) + 1 < U32) hid }

end Geom

/-- After any session of calls that all returned, block 0 is the superblock in memory,
and a fresh mount of the device answers as the running instance does. -/
theorem remount {now : UInt64} {d : MemoryDevice} {calls : List Call} {s₀ s : FFS}
    (hstart : start now d = some s₀) (hcalls : session calls s₀ = some s) :
    Superblock.deserialize (s.device.block 0) = s.format.superblock ∧
      ∃ f, FormatV1.mount s.device = .ok f s.device ∧ Agrees s ⟨s.device, f⟩ := by
  obtain ⟨g, hs₀⟩ := Geom.mounted_start hstart
  have hs := Geom.mounted_session hs₀ hcalls
  exact ⟨hs.superblock rfl, hs.agrees⟩

/-- A file is created and written, a symlink is made, edited and deleted. -/
theorem remount_edit_delete : ∃ s₀ s, start 0 (MemoryDevice.empty 14) = some s₀ ∧
    session [.operation (.createFile [47, 97] 0), .operation (.openFile [47, 97]),
      .operation (.write 0 [1, 2, 3] 0), .operation (.createSymlink [47, 98] [97] 0 0),
      .editSymlink [47, 98] [47, 97] 0, .operation (.delete [47, 98] 0)] s₀ = some s ∧
    Superblock.deserialize (s.device.block 0) = s.format.superblock ∧
      ∃ f, FormatV1.mount s.device = .ok f s.device ∧ Agrees s ⟨s.device, f⟩ := by
  have hrun : ((start 0 (MemoryDevice.empty 14)).bind
      (session [.operation (.createFile [47, 97] 0), .operation (.openFile [47, 97]),
        .operation (.write 0 [1, 2, 3] 0), .operation (.createSymlink [47, 98] [97] 0 0),
        .editSymlink [47, 98] [47, 97] 0, .operation (.delete [47, 98] 0)])).isSome = true := by
    decide +kernel
  obtain ⟨s, hs⟩ := Option.isSome_iff_exists.mp hrun
  obtain ⟨s₀, hstart, hcalls⟩ := Option.bind_eq_some_iff.mp hs
  exact ⟨s₀, s, hstart, hcalls, remount hstart hcalls⟩

end FerrisFS
