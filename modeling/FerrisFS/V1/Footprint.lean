import FerrisFS.Lib.Invariance
import FerrisFS.V1.Integrity

/-!
# Which blocks an operation can touch

The handlers compute the addresses of blocks from what they read in inodes and
pointer blocks, which may be anything. Still, an address is the start of a region plus
something, and an overflow panics, so that the inode table is read and written from
`inode_table_start` on and contents from `data_start` on. `Confined P W m`: all `m`
does to the device is to read blocks in `P` and to write blocks in `W`.
-/

namespace FerrisFS

open Lib Lib.Prog DirectoryHandler INodeTableHandler FormatV1

inductive Access (P W : Nat → Prop) : ∀ α : Type, DevM α → Prop where
  | read {i : Nat} (hi : P i) : Access P W Block (readBlock i)
  | write {i : Nat} (buf : Block) (hi : W i) : Access P W Unit (writeBlock i buf)

abbrev Confined (P W : Nat → Prop) {α : Type} (m : DevM α) : Prop := Composed (Access P W) m

theorem readOnly_readBlock (b : Nat) : Prog.ReadOnly (readBlock b) := by
  intro d
  unfold Prog.wp readBlock
  split <;> rename_i h <;> split at h <;> cases h <;> rfl

namespace Confined

variable {P W : Nat → Prop}

theorem readBlock {i : Nat} (hi : P i) : Confined P W (readBlock i) := .atom (.read hi)

theorem writeBlock {i : Nat} (buf : Block) (hi : W i) : Confined P W (writeBlock i buf) :=
  .atom (.write buf hi)

theorem mul32 (a b : Nat) : Confined P W (mul32 a b) :=
  Composed.ite (fun _ => .pure _) fun _ => .abort

/-- A program that writes nowhere. -/
theorem readOnly {α : Type} {m : DevM α} (h : Confined P (fun _ => False) m) :
    Prog.ReadOnly m := by
  apply Composed.readOnly h
  intro α m hm
  cases hm with
  | read _ => exact readOnly_readBlock _
  | write _ hi => exact hi.elim

/-! ## The inode table and the pointer tree -/

section Inode

variable {h : INodeTableHandler} (hr : ∀ k, h.inodeTableStart ≤ k → P k)

include hr

theorem readInode (i : Nat) : Confined P W (h.readInode i) := by
  refine Composed.bind (mul32 _ _) fun _ => ?_
  apply Composed.failIf
  apply Composed.checkedAdd
  exact Composed.bind (readBlock (hr _ (Nat.le_add_right _ _))) fun _ => .pure _

theorem writeInode (hw : ∀ k, h.inodeTableStart ≤ k → W k) (i : Nat) (node : INode) :
    Confined P W (h.writeInode i node) := by
  refine Composed.bind (mul32 _ _) fun _ => ?_
  apply Composed.failIf
  apply Composed.checkedAdd
  apply Composed.bind (readBlock (hr _ (Nat.le_add_right _ _)))
  intro block
  exact writeBlock _ (hw _ (Nat.le_add_right _ _))

end Inode

section Tree

variable {h : INodeTableHandler} (hr : ∀ k, h.dataStart ≤ k → P k)

include hr

theorem resolveIndirect (p i : Nat) : Confined P W (h.resolveIndirect p i) := by
  apply Composed.checkedAdd
  exact Composed.bind (readBlock (hr _ (Nat.le_add_right _ _))) fun _ => .pure _

theorem getBlock (node : INode) (i : Nat) : Confined P W (h.getBlock node i) := by
  apply Composed.failIf
  apply Composed.failIf
  apply Composed.dite
  · intro _
    exact .pure _
  intro _
  apply Composed.ite
  · intro _
    exact resolveIndirect hr _ _
  intro _
  apply Composed.ite
  · intro _
    exact Composed.bind (resolveIndirect hr _ _) fun _ => resolveIndirect hr _ _
  · intro _
    exact .fail _

theorem collectBlocks (node : INode) : ∀ (is : List Nat),
    Confined P W (FormatV1.collectBlocks h node is)
  | [] => .pure _
  | _ :: rest =>
      Composed.bind (getBlock hr _ _) fun _ =>
        Composed.bind (collectBlocks node rest) fun _ => .pure _

variable (hw : ∀ k, h.dataStart ≤ k → W k)

include hw

theorem writeIndirect (node : INode) (block : Nat) (pool : List Nat) (poolIndex index : Nat) :
    Confined P W (h.writeIndirect node block pool poolIndex index) := by
  have hrest : ∀ indirect poolIndex, Confined P W (do
      let addr ← add32 indirect h.dataStart
      let buf ← FerrisFS.readBlock addr
      FerrisFS.writeBlock addr (buf.splice (index * 4) (leBytes 4 block))
      pure ({ node with indirect := indirect }, poolIndex) : DevM (INode × Nat)) := by
    intro indirect poolIndex
    apply Composed.checkedAdd
    apply Composed.bind (readBlock (hr _ (Nat.le_add_left _ _)))
    intro buf
    exact Composed.bind (writeBlock _ (hw _ (Nat.le_add_left _ _))) fun _ => .pure _
  apply Composed.ite
  · intro _
    apply Composed.failIf
    apply Composed.bind (Composed.unwrap _)
    intro fresh
    exact hrest _ _
  · intro _
    exact hrest _ _

theorem writeDoubleIndirect (node : INode) (block : Nat) (pool : List Nat)
    (poolIndex index : Nat) :
    Confined P W (h.writeDoubleIndirect node block pool poolIndex index) := by
  -- `double` and `indirect` are the pointer blocks in use, fresh or not
  have hstore : ∀ double poolIndex indirect doubleAddr, h.dataStart ≤ doubleAddr →
      Confined P W (do
        let addr ← add32 indirect h.dataStart
        let buf ← FerrisFS.readBlock addr
        FerrisFS.writeBlock addr (buf.splice (index % INode.INDIRECT_COUNT * 4) (leBytes 4 block))
        if index % INode.INDIRECT_COUNT * 4 = 0 then
          let buf ← FerrisFS.readBlock doubleAddr
          FerrisFS.writeBlock doubleAddr
            (buf.splice (index / INode.INDIRECT_COUNT * 4) (leBytes 4 indirect))
        pure ({ node with double := double }, poolIndex) : DevM (INode × Nat)) := by
    intro double poolIndex indirect doubleAddr hle
    apply Composed.checkedAdd
    apply Composed.bind (readBlock (hr _ (Nat.le_add_left _ _)))
    intro buf
    apply Composed.bind (writeBlock _ (hw _ (Nat.le_add_left _ _)))
    intro _
    apply Composed.ite
    · intro _
      apply Composed.bind (readBlock (hr _ hle))
      intro buf
      exact Composed.bind (writeBlock _ (hw _ hle)) fun _ => .pure _
    · intro _
      exact .pure _
  have hinner : ∀ double poolIndex, Confined P W (do
      let doubleAddr ← add32 double h.dataStart
      let buf ← FerrisFS.readBlock doubleAddr
      let r ←
        if index % INode.INDIRECT_COUNT * 4 = 0 then do
          if pool = [] then
            Prog.fail (.invalidInput (.notEnoughAllocatedBlocks 1 pool.length))
          let fresh ← Prog.unwrap pool[poolIndex]?
          pure (fresh, poolIndex + 1)
        else pure (buf.u32 (index / INode.INDIRECT_COUNT * 4), poolIndex)
      let addr ← add32 r.1 h.dataStart
      let buf ← FerrisFS.readBlock addr
      FerrisFS.writeBlock addr (buf.splice (index % INode.INDIRECT_COUNT * 4) (leBytes 4 block))
      if index % INode.INDIRECT_COUNT * 4 = 0 then
        let buf ← FerrisFS.readBlock doubleAddr
        FerrisFS.writeBlock doubleAddr
          (buf.splice (index / INode.INDIRECT_COUNT * 4) (leBytes 4 r.1))
      pure ({ node with double := double }, r.2) : DevM (INode × Nat)) := by
    intro double poolIndex
    apply Composed.checkedAdd
    apply Composed.bind (readBlock (hr _ (Nat.le_add_left _ _)))
    intro buf
    apply Composed.ite
    · intro _
      apply Composed.failIf
      apply Composed.bind (Composed.unwrap _)
      intro fresh
      exact hstore _ _ _ _ (Nat.le_add_left _ _)
    · intro _
      exact hstore _ _ _ _ (Nat.le_add_left _ _)
  apply Composed.ite
  · intro _
    apply Composed.failIf
    apply Composed.bind (Composed.unwrap _)
    intro fresh
    exact hinner _ _
  · intro _
    exact hinner _ _

theorem placeBlock (node : INode) (block : Nat) (pool : List Nat) (poolIndex : Nat) :
    Confined P W (h.placeBlock node block pool poolIndex) := by
  apply Composed.dite
  · intro _
    exact .pure _
  intro _
  apply Composed.ite
  · intro _
    exact Composed.bind (writeIndirect hr hw _ _ _ _ _) fun _ => .pure _
  intro _
  apply Composed.ite
  · intro _
    exact Composed.bind (writeDoubleIndirect hr hw _ _ _ _ _) fun _ => .pure _
  · intro _
    exact Composed.bind (.fail _) fun _ => .pure _

theorem placeBlocks (pool : List Nat) : ∀ (blocks : List Nat) (node : INode) (poolIndex : Nat),
    Confined P W (h.placeBlocks pool blocks node poolIndex)
  | [], _, _ => .pure _
  | _ :: rest, _, _ =>
      Composed.bind (placeBlock hr hw _ _ _ _) fun _ => placeBlocks pool rest _ _

theorem addBlocks (node : INode) (blocks pool : List Nat) :
    Confined P W (h.addBlocks node blocks pool) := by
  apply Composed.ite
  · intro _
    exact .pure _
  · intro _
    apply Composed.failIf
    apply Composed.failIf
    exact Composed.bind (placeBlocks hr hw _ _ _ _) fun _ => .pure _

theorem addBlock (node : INode) (block : Nat) (pool : List Nat) :
    Confined P W (h.addBlock node block pool) := by
  apply Composed.failIf
  exact Composed.bind (placeBlock hr hw _ _ _ _) fun _ => .pure _

end Tree

/-! ## Directory blocks -/

section Records

variable {σ : Type} {A : ∀ α : Type, Prog FSError σ α → Prop}

theorem deserialize (buf : Block) (offset : Nat) :
    Composed A (DirEntry.deserialize buf offset : Prog FSError σ DirEntry) :=
  Composed.ite (fun _ => .pure _) fun _ => .abort

theorem serialize (e : DirEntry) (buf : Block) (offset : Nat) :
    Composed A (e.serialize buf offset : Prog FSError σ Block) :=
  Composed.ite (fun _ => .pure _) fun _ => .abort

theorem iterateBlock {α : Type} (callback : Callback α) (buf : Block) (rel : Nat) :
    ∀ (fuel offset : Nat) (acc : α), Composed A
      (DirectoryHandler.iterateBlock callback buf rel fuel offset acc : Prog FSError σ (α × Bool))
  | 0, _, _ => .pure _
  | fuel + 1, offset, acc => by
      apply Composed.ite
      · intro _
        apply Composed.bind (deserialize _ _)
        intro parsed
        apply Composed.bind (Composed.unwrap _)
        intro res
        apply Composed.failIf
        apply Composed.failIf
        apply Composed.ite
        · intro _
          exact .pure _
        · intro _
          exact iterateBlock callback buf rel fuel _ _
      · intro _
        exact .pure _

theorem findPrev (buf : Block) (block offset : Nat) : ∀ (fuel prev : Nat), Composed A
    (DirectoryHandler.findPrev buf block offset fuel prev :
      Prog FSError σ (Option (DirEntry × Nat)))
  | 0, _ => .abort
  | fuel + 1, prev => by
      apply Composed.ite
      · intro _
        apply Composed.bind (deserialize _ _)
        intro parsed
        apply Composed.checkedAdd
        apply Composed.failIf
        apply Composed.ite
        · intro _
          exact .pure _
        · intro _
          exact findPrev buf block offset fuel _
      · intro _
        exact .pure _

theorem checkLayout : ∀ (entries : List DirEntry) (block offset : Nat), Composed A
    (DirectoryHandler.checkLayout entries block offset : Prog FSError σ (Nat × Nat))
  | [], _, _ => .pure _
  | _ :: rest, _, _ => by
      apply Composed.failIf
      apply Composed.ite
      · intro _
        exact checkLayout rest _ _
      · intro _
        exact checkLayout rest _ _

end Records

section Directory

variable {h : DirectoryHandler} {ih : INodeTableHandler} (hr : ∀ k, h.dataStart ≤ k → P k)

include hr

theorem symlinkTarget (node : INode) (p : Nat) : Confined P W (h.symlinkTarget node p) := by
  apply Composed.checkedAdd
  apply Composed.bind (readBlock (hr _ (Nat.le_add_right _ _)))
  intro buf
  apply Composed.abortIf
  apply Composed.abortIf
  exact Composed.bind (Composed.unwrap _) fun _ => .pure _

theorem addEntryHere (hw : ∀ k, h.dataStart ≤ k → W k) (e : DirEntry) (block offset : Nat) :
    Confined P W (h.addEntryHere e block offset) := by
  apply Composed.checkedAdd
  apply Composed.bind (readBlock (hr _ (Nat.le_add_right _ _)))
  intro buf
  apply Composed.bind (deserialize _ _)
  intro region
  apply Composed.failIf
  have hrest : ∀ buf, Confined P W (do
      let buf ← e.serialize buf offset
      FerrisFS.writeBlock (h.dataStart + block) buf : DevM Unit) := by
    intro buf
    apply Composed.bind (serialize _ _ _)
    intro buf
    exact writeBlock _ (hw _ (Nat.le_add_right _ _))
  refine Composed.bind ?_ fun _ => ?_
  · apply Composed.ite
    · intro _
      apply Composed.checkedAdd
      exact Composed.ite (fun _ => .fail _) fun _ => .pure _
    · intro _
      exact .pure _
  apply Composed.ite
  · intro _
    apply Composed.checkedAdd
    exact Composed.bind (serialize _ _ _) hrest
  · intro _
    exact hrest _

omit hr in
theorem addEntryGrow (hw : ∀ k, h.dataStart ≤ k → W k) (e : DirEntry) (block : Nat) :
    Confined P W (h.addEntryGrow e block) := by
  apply Composed.checkedSub
  apply Composed.failIf
  apply Composed.bind (serialize _ _ _)
  intro buf
  have hrest : ∀ buf, Confined P W (do
      let addr ← add32 h.dataStart block
      FerrisFS.writeBlock addr buf : DevM Unit) := by
    intro buf
    apply Composed.checkedAdd
    exact writeBlock _ (hw _ (Nat.le_add_right _ _))
  apply Composed.ite
  · intro _
    exact Composed.bind (serialize _ _ _) hrest
  · intro _
    exact hrest _

theorem freeRegion (hw : ∀ k, h.dataStart ≤ k → W k) (block offset : Nat) :
    Confined P W (h.freeRegion block offset) := by
  apply Composed.checkedAdd
  apply Composed.bind (readBlock (hr _ (Nat.le_add_right _ _)))
  intro buf
  apply Composed.bind (findPrev _ _ _ _ _)
  intro prev
  apply Composed.bind (deserialize _ _)
  intro toFree
  apply Composed.checkedAdd
  have hrest : ∀ next, Confined P W (do
      let size ← Prog.checkedAdd U16 ((regionStart offset prev).2 + toFree.recordLen) next
      let buf ← (DirEntry.free size).serialize buf (regionStart offset prev).1
      FerrisFS.writeBlock (h.dataStart + block) buf
      pure toFree.recordLen : DevM Nat) := by
    intro next
    apply Composed.checkedAdd
    apply Composed.bind (serialize _ _ _)
    intro buf
    exact Composed.bind (writeBlock _ (hw _ (Nat.le_add_right _ _))) fun _ => .pure _
  apply Composed.ite
  · intro _
    exact Composed.bind (deserialize _ _) fun _ => hrest _
  · intro _
    exact hrest _

variable (hi : ∀ k, ih.dataStart ≤ k → P k)

include hi

theorem iterateBlocks {α : Type} (node : INode) (callback : Callback α) :
    ∀ (blocks : List Nat) (acc : α), Confined P W (h.iterateBlocks node ih callback blocks acc)
  | [], _ => .pure _
  | _ :: rest, _ => by
      apply Composed.bind (getBlock hi _ _)
      intro rel
      apply Composed.checkedAdd
      apply Composed.bind (readBlock (hr _ (Nat.le_add_left _ _)))
      intro buf
      apply Composed.bind (iterateBlock _ _ _ _ _ _)
      intro res
      apply Composed.ite
      · intro _
        exact .pure _
      · intro _
        exact iterateBlocks node callback rest _

theorem findEntry (node : INode) (name : List UInt8) :
    Confined P W (h.findEntry node ih name) :=
  iterateBlocks hr hi _ _ _ _

theorem canFit (node : INode) (e : DirEntry) : Confined P W (h.canFit node ih e) :=
  iterateBlocks hr hi _ _ _ _

omit hr in
theorem writeLayout (hw : ∀ k, h.dataStart ≤ k → W k) (node : INode) :
    ∀ (entries : List DirEntry) (buf : Block) (block offset : Nat),
      Confined P W (h.writeLayout node ih entries buf block offset)
  | [], _, _, _ => .pure _
  | _ :: rest, _, _, _ => by
      apply Composed.bind (serialize _ _ _)
      intro buf
      apply Composed.ite
      · intro _
        apply Composed.bind (getBlock hi _ _)
        intro rel
        apply Composed.checkedAdd
        apply Composed.bind (writeBlock _ (hw _ (Nat.le_add_right _ _)))
        intro _
        exact writeLayout hw node rest _ _ _
      · intro _
        exact writeLayout hw node rest _ _ _

omit hr in
theorem writeDirectoryWithInode (hw : ∀ k, h.dataStart ≤ k → W k) (entries : List DirEntry)
    (node : INode) : Confined P W (h.writeDirectoryWithInode entries node ih) := by
  apply Composed.bind (checkLayout _ _ _)
  intro place
  apply Composed.failIf
  apply Composed.abortIf
  exact writeLayout hi hw _ _ _ _ _

/-! ## Path resolution -/

variable (ht : ∀ k, ih.inodeTableStart ≤ k → P k)

include ht

theorem resolveComponent {follow : List Component → Nat → DevM ResolutionResult}
    (hfollow : ∀ target src, Confined P W (follow target src)) (final : Bool) (it : Nat)
    (comp : Component) (last : Bool) (c : Cursor) :
    Confined P W (h.resolveComponent ih follow final it comp last c) := by
  apply Composed.bind (findEntry hr hi _ _)
  intro found
  match found with
  | none => exact .fail _
  | some (entry, entryBlock, entryOffset) =>
      apply Composed.failIf
      apply Composed.bind (readInode ht _)
      intro inode
      apply Composed.ite
      · intro _
        apply Composed.failIf
        apply Composed.failIf
        apply Composed.bind (symlinkTarget hr _ _)
        intro target
        apply Composed.bind (hfollow _ _)
        intro res
        exact Composed.failIf (.pure _)
      · intro _
        exact Composed.ite (fun _ => .fail _) fun _ => .pure _

theorem resolveLoop {follow : List Component → Nat → DevM ResolutionResult}
    (hfollow : ∀ target src, Confined P W (follow target src)) (final : Bool) (it : Nat) :
    ∀ (comps : List Component) (c : Cursor),
      Confined P W (h.resolveLoop ih follow final it comps c)
  | [], _ => .pure _
  | _ :: rest, _ => by
      apply Composed.ite
      · intro _
        exact resolveLoop hfollow final it rest _
      · intro _
        apply Composed.bind (resolveComponent hr hi ht hfollow _ _ _ _ _)
        intro c
        exact resolveLoop hfollow final it rest c

theorem resolveFrom : ∀ (fuel it : Nat) (final : Bool) (path : List Component) (src : Nat),
    Confined P W (h.resolveFrom ih fuel it final path src)
  | 0, _, _, _, _ => .abort
  | fuel + 1, it, final, path, src => by
      apply Composed.bind (readInode ht _)
      intro cur
      apply Composed.ite
      · intro _
        exact .pure _
      intro _
      apply Composed.ite
      · intro _
        exact Composed.bind (readInode ht _) fun _ => .pure _
      · intro _
        apply Composed.bind _ fun _ => .pure _
        apply resolveLoop hr hi ht
        intro target src
        exact resolveFrom fuel (it + 1) true target src

theorem resolve (path : List Component) (src : Nat) (final : Bool) :
    Confined P W (h.resolve path src ih final) :=
  resolveFrom hr hi ht _ _ _ _ _

end Directory

/-! ## Bitmaps -/

section Bitmap

variable {a : BitmapAllocator} (hr : ∀ k, a.start ≤ k → P k)

include hr

theorem isAllocated (i : Nat) : Confined P W (a.isAllocated i) := by
  apply Composed.ite
  · intro _
    exact .pure _
  · intro _
    apply Composed.checkedAdd
    exact Composed.bind (readBlock (hr _ (Nat.le_add_right _ _))) fun _ => .pure _

omit hr in
theorem scanBytes (maxIndex num i : Nat) (buf : Block) : ∀ bytes res : List Nat,
    Confined P W (BitmapAllocator.scanBytes maxIndex num i buf bytes res)
  | [], _ => .pure _
  | _ :: rest, _ => by
      apply Composed.ite
      · intro _
        exact scanBytes maxIndex num i buf rest _
      · intro _
        apply Composed.checkedAdd
        split
        · exact scanBytes maxIndex num i buf rest _
        · exact .pure _

theorem scanBlocks (num : Nat) (lo hi : Nat → Nat) : ∀ (blocks res : List Nat),
    Confined P W (a.scanBlocks num lo hi blocks res)
  | [], _ => .pure _
  | _ :: rest, _ => by
      apply Composed.checkedAdd
      apply Composed.bind (readBlock (hr _ (Nat.le_add_left _ _)))
      intro buf
      apply Composed.bind (scanBytes _ _ _ _ _ _)
      intro r
      split
      · exact scanBlocks num lo hi rest _
      · exact .pure _

theorem findFree (num : Nat) : Confined P W (a.findFree num) := by
  apply Composed.ite
  · intro _
    exact .pure _
  · intro _
    apply Composed.bind (scanBlocks hr _ _ _ _ _)
    intro first
    split
    · exact .pure _
    · exact Composed.bind (scanBlocks hr _ _ _ _ _) fun _ => .pure _

variable (hw : ∀ k, a.start ≤ k → W k)

include hw

theorem modifyLoop (op : Nat → Nat → Nat) : ∀ (blocks : List Nat) (cached : Nat) (buf : Block),
    Confined P W (a.modifyLoop op blocks cached buf)
  | [], _, _ => .pure _
  | _ :: rest, cached, buf => by
      apply Composed.ite
      · intro _
        apply Composed.ite
        · intro _
          apply Composed.checkedAdd
          apply Composed.bind (writeBlock _ (hw _ (Nat.le_add_left _ _)))
          intro _
          apply Composed.checkedAdd
          exact Composed.bind (readBlock (hr _ (Nat.le_add_left _ _))) fun _ =>
            modifyLoop op rest _ _
        · intro _
          apply Composed.checkedAdd
          exact Composed.bind (readBlock (hr _ (Nat.le_add_left _ _))) fun _ =>
            modifyLoop op rest _ _
      · intro _
        exact modifyLoop op rest _ _

theorem modify (op : Nat → Nat → Nat) (blocks : List Nat) :
    Confined P W (a.modify blocks op) := by
  apply Composed.ite
  · intro _
    exact .pure _
  · intro _
    apply Composed.bind (modifyLoop hr hw _ _ _ _)
    intro last
    apply Composed.ite
    · intro _
      apply Composed.checkedAdd
      exact writeBlock _ (hw _ (Nat.le_add_left _ _))
    · intro _
      exact .pure _

end Bitmap

/-! ## Contents of files -/

theorem zeroBlocks {dataStart : Nat} (hw : ∀ k, dataStart ≤ k → W k) : ∀ (ds : List Nat),
    Confined P W (FormatV1.zeroBlocks dataStart ds)
  | [] => .pure _
  | _ :: rest => by
      apply Composed.checkedAdd
      exact Composed.bind (writeBlock _ (hw _ (Nat.le_add_right _ _))) fun _ =>
        zeroBlocks hw rest

end Confined

/-! ## What the checker runs -/

/-- Reads of blocks in `P`, and the questions the checker asks the allocators. -/
inductive Probe (P : Nat → Prop) (f : FormatV1) : ∀ α : Type, DevM α → Prop where
  | read {k : Nat} (hk : P k) : Probe P f Block (readBlock k)
  | inode (i : Nat) : Probe P f Bool (f.inodeAllocator.isAllocated i)
  | data (i : Nat) : Probe P f Bool (f.blockAllocator.isAllocated i)
  | countInodes : Probe P f Nat f.inodeAllocator.countAllocated
  | countData : Probe P f Nat f.blockAllocator.countAllocated

abbrev Probes (P : Nat → Prop) (f : FormatV1) {α : Type} (m : DevM α) : Prop :=
  Composed (Probe P f) m

namespace Probes

variable {P : Nat → Prop} {f : FormatV1}

theorem of_confined {α : Type} {m : DevM α} (h : Confined P (fun _ => False) m) :
    Probes P f m := by
  apply Composed.mono h
  intro α m hm
  cases hm with
  | read hk => exact .read hk
  | write _ hk => exact hk.elim

theorem visit (v : IntegrityCheckerBitmap) (bit : Nat) : Probes P f (v.visit bit) := by
  apply Composed.bind (Composed.unwrap _)
  intro seen
  exact Composed.ite (fun _ => .pure _) fun _ => .pure _

theorem iterateUnchecked {α : Type} (callback : Callback α) (buf : Block) (block : Nat) :
    ∀ (fuel offset : Nat) (acc : α),
      Probes P f (DirectoryHandler.iterateUnchecked callback buf block fuel offset acc)
  | 0, _, _ => .abort
  | fuel + 1, offset, acc => by
      apply Composed.ite
      · intro _
        apply Composed.bind (Confined.deserialize _ _)
        intro parsed
        apply Composed.bind (Composed.unwrap _)
        intro res
        apply Composed.ite
        · intro _
          exact .pure _
        · intro _
          exact iterateUnchecked callback buf block fuel _ _
      · intro _
        exact .pure _

theorem inodeAllocation (i : Nat) (v : IntegrityCheckerBitmap) :
    Probes P f (checkIntegrityInodeAllocation f i v) := by
  apply Composed.bind (.atom (.inode i))
  intro allocated
  apply Composed.ite
  · intro _
    exact .pure _
  · intro _
    exact Composed.bind (visit _ _) fun _ => .pure _

theorem children {check : Nat → Visited → DevM (List V1IntegrityError × Visited)}
    (hcheck : ∀ i v, Probes P f (check i v)) : ∀ (is : List Nat) (v : Visited),
      Probes P f (checkChildren check is v)
  | [], _ => .pure _
  | _ :: rest, _ =>
      Composed.bind (hcheck _ _) fun _ =>
        Composed.bind (children hcheck rest _) fun _ => .pure _

theorem unreachable {a : BitmapAllocator} (ha : ∀ i, Probe P f Bool (a.isAllocated i))
    (v : IntegrityCheckerBitmap) (error : Nat → V1IntegrityError) : ∀ (is : List Nat),
      Probes P f (FormatV1.unreachable a v error is)
  | [] => .pure _
  | i :: rest => by
      have hrest : ∀ lost : Bool, Probes P f (do
          let errors ← FormatV1.unreachable a v error rest
          pure (if lost then error i :: errors else errors)) := fun lost =>
        Composed.bind (unreachable ha v error rest) fun _ => .pure _
      apply Composed.bind (.atom (ha i))
      intro allocated
      apply Composed.ite
      · intro _
        exact Composed.bind (Composed.unwrap _) fun _ => hrest _
      · intro _
        exact hrest _

variable (hi : ∀ k, f.inodeHandler.dataStart ≤ k → P k)

include hi

theorem inodeBlocks (node : INode) (i : Nat) : ∀ (is : List Nat) (v : IntegrityCheckerBitmap),
    Probes P f (checkInodeBlocks f node i is v)
  | [], _ => .pure _
  | _ :: rest, _ => by
      apply Composed.bind (of_confined (Confined.getBlock hi _ _))
      intro block
      apply Composed.bind (.atom (.data _))
      intro allocated
      apply Composed.bind (visit _ _)
      intro res
      exact Composed.bind (inodeBlocks node i rest _) fun _ => .pure _

variable (hd : ∀ k, f.directoryHandler.dataStart ≤ k → P k)

include hd

omit hi in
theorem entriesInBlock (block : Nat) (first : Bool) (dir : Nat) (dirs others : List Nat) :
    Probes P f (checkIntegrityEntriesInBlock f block first dir dirs others) := by
  apply Composed.bind
  · apply Composed.checkedAdd
    apply Composed.bind (.atom (.read (hd _ (Nat.le_add_left _ _))))
    intro buf
    exact iterateUnchecked _ _ _ _ _ _
  · intro scan
    exact .pure _

theorem directoryBlocks (node : INode) (i : Nat) : ∀ (is : List Nat) (s : DirectoryScan),
    Probes P f (checkDirectoryBlocks f node i is s)
  | [], _ => .pure _
  | _ :: rest, _ => by
      apply Composed.bind (of_confined (Confined.getBlock hi _ _))
      intro block
      apply Composed.bind (.atom (.data _))
      intro allocated
      apply Composed.ite
      · intro _
        exact directoryBlocks node i rest _
      · intro _
        apply Composed.bind (visit _ _)
        intro res
        apply Composed.bind (entriesInBlock hd _ _ _ _ _)
        intro scan
        exact directoryBlocks node i rest _

variable (ht : ∀ k, f.inodeHandler.inodeTableStart ≤ k → P k)

include ht

omit hd in
theorem other (i : Nat) (v : Visited) : Probes P f (checkOther f i v) := by
  apply Composed.bind (inodeAllocation _ _)
  intro res
  apply Composed.bind
  · apply Composed.bind (of_confined (Confined.readInode ht _))
    intro inode
    exact Composed.bind (inodeBlocks hi _ _ _ _) fun _ => .pure _
  · intro res'
    exact .pure _

theorem recursive : ∀ (depth i : Nat) (v : Visited),
    Probes P f (checkIntegrityRecursive f depth i v)
  | 0, _, _ => .abort
  | depth + 1, _, _ => by
      apply Composed.bind (inodeAllocation _ _)
      intro res
      apply Composed.bind (of_confined (Confined.readInode ht _))
      intro inode
      apply Composed.bind (directoryBlocks hi hd _ _ _ _)
      intro scan
      apply Composed.bind (children (other hi ht) _ _)
      intro others
      apply Composed.bind (children (recursive depth) _ _)
      intro dirs
      exact .pure _

theorem check : Probes P f (checkDevice f) := by
  apply Composed.bind (.atom .countInodes)
  intro allocatedInodes
  apply Composed.bind (.atom .countData)
  intro allocatedBlocks
  apply Composed.bind (Composed.ite (fun _ => .pure _) fun _ => .abort)
  intro inodeCount
  apply Composed.checkedSub
  apply Composed.checkedSub
  apply Composed.checkedSub
  apply Composed.bind (recursive hi hd ht _ _ _)
  intro res
  apply Composed.bind (Composed.ite (fun _ => unreachable .inode _ _ _) fun _ => .pure _)
  intro lostInodes
  apply Composed.bind (Composed.ite (fun _ => unreachable .data _ _ _) fun _ => .pure _)
  intro lostBlocks
  exact .pure _

end Probes

end FerrisFS
