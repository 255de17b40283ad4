import FerrisFS.Fuse.FormatV1
import FerrisFS.V1.Inspect
import FerrisFS.V1.Siblings
import FerrisFS.V1.Tails

/-!
# Reading symlinks back

`write_symlink` and resolution add `data_start` to the block number of a symlink,
`read_symlink` does not: it reads the block of that number from the start of the device.
-/

namespace FerrisFS

open Lib Lib.Prog DirectoryHandler INodeTableHandler FormatV1

/-! ## What creating leaves of the inode bitmap -/

namespace Geom

variable {α β : Type} {g : Geom} {s s' : FFS} {t : St} {i : Nat} {n : INode} {target : Str}
  {now : UInt64}

/-- The filesystem is mounted, and the inode `i` is marked. -/
def Marked (g : Geom) (i : Nat) (s : FFS) : Prop :=
  ∃ t, g.Rep s t ∧ t.CursorsIn g ∧ t.ibit i = true

namespace Marked

theorem writeBlock {k : Nat} (buf : Block) (hk : g.Away k) :
    Maintains (fun d => d.blockCount = g.totalBlocks ∧ (g.view d).ibit i = true)
      (FerrisFS.writeBlock k buf) := by
  intro d hd
  by_cases hlt : k < d.blockCount
  · refine (wp_of_ok (writeBlock_of_lt hlt)).mpr ?_
    have hibit : (g.view (d.setBlock k buf)).ibit = (g.view d).ibit := by
      refine view_ibit_congr fun j h1 hj => ?_
      rw [MemoryDevice.block_setBlock hlt, if_neg]
      rintro rfl
      rcases hk with rfl | hk
      · omega
      · simp only [inodeTableStart] at hk
        omega
    show (d.setBlock k buf).blockCount = _ ∧ _
    rw [MemoryDevice.setBlock_blockCount, hibit]
    exact hd
  · have hrun : FerrisFS.writeBlock k buf d =
        .err (.invalidInput (.blockIndexOOB k d.blockCount)) d := if_pos (Nat.not_lt.mp hlt)
    rw [Prog.wp, hrun]
    trivial

theorem away {m : DevM α} (hm : Confined g.Away g.Away m) :
    Maintains (g.Marked i) (FerrisFS.onDevice m) := by
  intro s hs
  obtain ⟨t, hs, hc, hi⟩ := hs
  have hdev := hm.maintains (I := fun d => d.blockCount = g.totalBlocks ∧
    (g.view d).ibit i = true) (by
      intro α m hm
      cases hm with
      | read _ => exact .of_readOnly (readOnly_readBlock _)
      | write buf hk => exact writeBlock buf hk)
  refine wp_zoom.mpr (wp_mono (hdev s.device ⟨hs.1.1, by rw [hs.1.2]; exact hi⟩) ?_
    fun _ _ he => he)
  intro a d hd
  exact ⟨{ t with toView := g.view d }, ⟨holds_self hd.1, hs.2⟩, ⟨hc.lastInode, hc.lastData⟩, hd.2⟩

theorem getFormat {f : FormatV1 → FsM α} (h : ∀ t, Maintains (g.Marked i) (f (g.format t))) :
    Maintains (g.Marked i) (getFormat >>= f) := by
  intro s hs
  obtain ⟨t, hs, hi⟩ := hs
  refine wp_getFormat ?_
  rw [hs.2]
  exact h t s ⟨t, hs, hi⟩

theorem writeInode (j : Nat) (node : INode) :
    Maintains (g.Marked i) (FerrisFS.onDevice (g.inodeHandler.writeInode j node)) :=
  away (Confined.writeInode g.table_away g.table_away j node)

theorem writeEntry (parent : INode) (entry : DirEntry) (fit : Option (Nat × Nat))
    (fresh : List Nat) : Maintains (g.Marked i) (writeEntry parent entry fit fresh) := by
  apply getFormat
  intro t
  match fit with
  | none =>
      apply Maintains.unwrap
      intro entryBlock _
      apply Maintains.abortIf
      apply Maintains.bind (away (Confined.addBlock g.data_away g.data_away _ _ _))
      intro parent
      apply Maintains.bind (away (Confined.addEntryGrow g.data_away _ _))
      intro _
      exact Maintains.checkedAdd fun _ => Maintains.pure _
  | some (entryBlock, entryOffset) =>
      apply Maintains.bind (away (Confined.addEntryHere g.data_away g.data_away _ _ _))
      intro _
      exact Maintains.pure _

end Marked

/-- What creating a symlink leaves, whatever the state: the new inode is marked. -/
theorem wp_createIn_marked (hs : g.Rep s t) (hc : t.CursorsIn g) {p : Nat} {node : INode}
    {name : Str} {onExists : DirEntry → FSError} :
    wp (createIn p node .symlink name onExists now)
      (fun r s' => g.Marked r.2 s' ∧ ∃ b < 2 ^ 32, r.1 = firstNode .symlink b now)
      (fun _ _ => True) s := by
  refine wp_getFormat ?_
  refine wp_seq (wp_readOnly (readOnly_findEntry _ _ _ _)) ?_ fun _ _ _ => trivial
  intro existing s₁ hfind
  obtain ⟨rfl, -⟩ := hfind
  match existing with
  | some (e, b, off) => trivial
  | none =>
    refine wp_assert fun _ => ?_
    refine wp_seq (wp_readOnly (readOnly_canFit _ _ _ _)) ?_ fun _ _ _ => trivial
    intro fit s₂ hfit
    obtain ⟨rfl, -⟩ := hfit
    refine wp_seq (wpr_allocate hc _ hs) ?_ fun _ _ _ => trivial
    intro r s₃ halloc
    obtain ⟨t₃, hs₃, hall⟩ := halloc
    obtain ⟨is, ds⟩ := r
    refine wp_bind.mpr (wp_unwrap fun i hi => ?_)
    have hds : fileBlocks .symlink ≤ ds.length := by
      rw [hall.data_length]
      split <;> omega
    have hfreshInodes : g.FreshInodes t is := by
      rw [show is = _ from hall.inodes_eq]
      exact fresh_pickInodes hc
    have hfreshData : g.FreshData t ds := by
      rw [show ds = _ from hall.data_eq]
      exact fresh_pickData
    have hb : ds.headD 0 < 2 ^ 32 := hfreshData.head_lt
    -- the bit is set, and nothing that follows writes to the bitmap
    have hmark : t₃.CursorsIn g ∧ t₃.ibit i = true := by
      rw [hall.state]
      refine ⟨cursorsIn_taken hc hfreshInodes hfreshData, ?_⟩
      show setBits t.ibit is true i = true
      rw [setBits, if_pos (List.mem_of_getElem? hi)]
    refine wp_seq (R := fun a s' => a = firstNode .symlink (ds.headD 0) now ∧ g.Marked i s')
      (F := fun _ _ => True) ?_ ?_ fun _ _ _ => trivial
    · obtain ⟨s₄, hrun, hs₄⟩ := (runs_newInode hds) _ hs₃
      exact (wp_of_ok hrun).mpr ⟨rfl, t₃, hs₄, hmark⟩
    · intro node s₄ hnode
      obtain ⟨rfl, hmark⟩ := hnode
      rw [hs.2]
      refine wp_seq (Marked.writeInode i _ _ hmark) ?_ fun _ _ _ => trivial
      intro _ s₅ hmark
      refine wp_ite (fun hdir => FileType.noConfusion hdir) fun _ => ?_
      refine wp_seq (Marked.writeEntry _ _ _ _ _ hmark) ?_ fun _ _ _ => trivial
      intro parent s₆ hmark
      refine wp_seq (Marked.writeInode p _ _ hmark) ?_ fun _ _ _ => trivial
      intro _ s₇ hmark
      exact ⟨hmark, _, hb, rfl⟩

theorem wp_create_marked (hs : g.Rep s t) (hc : t.CursorsIn g) {path : Str} :
    wp (create path .symlink now)
      (fun r s' => g.Marked r.2 s' ∧ ∃ b < 2 ^ 32, r.1 = firstNode .symlink b now)
      (fun _ _ => True) s := by
  unfold create
  rw [if_neg (by decide)]
  refine wp_bind.mpr (wp_unwrap fun split _ => ?_)
  obtain ⟨parent, name⟩ := split
  refine wp_getFormat ?_
  refine wp_seq (wp_readOnly (readOnly_resolve _ _ _ _ _)) ?_ fun _ _ _ => trivial
  intro r s₁ hr
  obtain ⟨rfl, -⟩ := hr
  exact wp_createIn_marked hs hc

theorem wp_createChild_marked (hs : g.Rep s t) (hc : t.CursorsIn g) {name : Str} {p : Nat} :
    wp (createChild .symlink name p now)
      (fun r s' => g.Marked r.2 s' ∧ ∃ b < 2 ^ 32, r.1 = firstNode .symlink b now)
      (fun _ _ => True) s := by
  refine wp_getFormat ?_
  refine wp_seq (wp_readOnly (readOnly_isAllocated _ _)) ?_ fun _ _ _ => trivial
  intro allocated s₁ hr
  obtain ⟨rfl, -⟩ := hr
  refine wp_guard (fun _ => trivial) fun _ => ?_
  refine wp_seq (wp_readOnly (readOnly_readInode _ _)) ?_ fun _ _ _ => trivial
  intro node s₁ hr
  obtain ⟨rfl, -⟩ := hr
  refine wp_guard (fun _ => trivial) fun _ => ?_
  exact wp_createIn_marked hs hc

/-! ## Storing a target -/

/-- The state after the target was written into the symlink `i`, whose inode was `n`. -/
def stored (t : St) (n : INode) (i : Nat) (target : Str) (now : UInt64) : St :=
  { t with
    ino := Function.update t.ino i { n with modified := now.toNat, size := target.length }
    data := Function.update t.data (n.direct 0) (Block.zero.splice 0 target) }

/-- A write beyond the data region fails. -/
theorem wp_writeData (hs : g.Rep s t) {b : Nat} {buf : Block} :
    wp (onDevice (writeBlock (g.dataStart + b) buf))
      (fun _ s' => b < g.cap ∧ g.Rep s' { t with data := Function.update t.data b buf })
      (fun _ _ => True) s := by
  by_cases hb : b < g.cap
  · obtain ⟨s', hrun, hs'⟩ := runs_onDevice (@runs_writeData g t.toView b buf hb) s hs
    exact (wp_of_ok hrun).mpr ⟨hb, hs'⟩
  · have hcount := hs.1.1
    rw [← g.dataStart_add_cap] at hcount
    have hrun : writeBlock (g.dataStart + b) buf s.device =
        .err (.invalidInput (.blockIndexOOB (g.dataStart + b) s.device.blockCount)) s.device :=
      if_pos (by omega)
    refine wp_zoom.mpr ?_
    rw [Prog.wp, hrun]
    trivial

/-- A call of `write_symlink`, in any state. -/
theorem wp_writeSymlink_any (hs : g.Rep s t) (hn : n.InRange) :
    wp (writeSymlink n i target now)
      (fun _ s' => i < g.inodes ∧ n.direct 0 < g.cap ∧ target.length ≤ BLOCK_SIZE ∧
        g.Rep s' (stored t n i target now)) (fun _ _ => True) s := by
  refine wp_getFormat ?_
  rw [hs.2]
  refine wp_bind.mpr (wp_checkedAdd fun _ => ?_)
  refine wp_assert fun hlen => ?_
  refine wp_seq (wp_writeData hs) ?_ fun _ _ _ => trivial
  intro _ s₁ hs₁
  obtain ⟨hb, hs₁⟩ := hs₁
  by_cases hi : i < g.inodes
  · have hr : ({ n with modified := now.toNat, size := target.length } : INode).InRange :=
      { hn with
        modified := now.toNat_lt
        size := by
          simp only [BLOCK_SIZE] at hlen
          dsimp only
          omega }
    obtain ⟨s₂, hrun, hs₂⟩ := runs_onDevice (runs_writeInode hi hr) s₁ hs₁
    exact (wp_of_ok hrun).mpr ⟨hi, hb, Nat.not_lt.mp hlen, hs₂⟩
  · have hrun : wp (g.inodeHandler.writeInode i
        { n with modified := now.toNat, size := target.length }) (fun _ _ => False)
        (fun _ _ => True) s₁.device :=
      wp_bind.mpr ((wp_of_ok (mul32_inodes _)).mpr
        (wp_guard (fun _ => trivial) fun hlt => absurd (not_ge_inodes.mp hlt) hi))
    exact wp_zoom.mpr (wp_mono hrun (fun _ _ hf => hf.elim) fun _ _ _ => trivial)

end Geom

/-! ## Reading it back -/

namespace FFS

/-- `is_allocated` says so of the inode `i`. -/
def Allocated (s : FFS) (i : Nat) : Prop :=
  (s.format.inodeAllocator.isAllocated i s.device).value? = some true

/-- `read_symlink` gives the target back, whatever the buffer held. -/
def ReadsBack (s : FFS) (i : Nat) (target : Str) : Prop :=
  ∀ buf, ∃ buf', readSymlink i buf s = .ok (target.length, buf') s ∧
    buf'.slice 0 target.length = target

/-- The bytes that resolution reads as the target of the symlink `i`. -/
def Follows (s : FFS) (i : Nat) (target : Str) : Prop :=
  ∃ n, s.format.inodeHandler.readInode i s.device = .ok n s.device ∧ n.fileType = .symlink ∧
    n.size = target.length ∧
    (s.device.block (s.format.directoryHandler.dataStart + n.direct 0)).slice 0 n.size = target

/-- The block whose number on the device is the block number of the symlink in the data
region begins with the target. -/
def Unshifted (s : FFS) (i : Nat) (target : Str) : Prop :=
  (s.device.block ((s.view.ino i).direct 0)).slice 0 target.length = target

end FFS

/-- Calls that create the symlink `i` with this target. -/
inductive Makes (s : FFS) (target : Str) : Nat → FFS → Prop where
  | create {path now now' n i s₁ s'} (h : create path .symlink now s = .ok (n, i) s₁)
      (hcall : createSymlink path target now now' s = .ok () s') : Makes s target i s'
  | fuse {parent name now now' n i s₁ entry s'}
      (h : createChild .symlink name (Fuse.v1InodeNumber parent) now s = .ok (n, i) s₁)
      (hcall : Fuse.symlink parent name target now now' s = .ok (.ok entry) s') :
      Makes s target i s'

/-- Calls that store the target in the symlink `i`. -/
inductive Stores (s : FFS) (target : Str) : Nat → FFS → Prop where
  | make {i s'} (h : Makes s target i s') : Stores s target i s'
  | edit {path now r s'} (hr : s.resolve (Path.components path) false = some r)
      (hcall : editSymlink path target now s = .ok () s') :
      Stores s target r.targetInodeIndex s'

/-- A call that stores a target in a symlink. -/
def Edits (s s' : FFS) : Prop := ∃ target i, Stores s target i s'

namespace Geom

variable {g : Geom} {s s' : FFS} {t : St} {i : Nat} {target : Str}

/-- The symlink `i` holds the target. -/
structure Holding (g : Geom) (t : St) (i : Nat) (target : Str) : Prop where
  lt : i < g.inodes
  symlink : (t.ino i).fileType = .symlink
  size : (t.ino i).size = target.length
  block_lt : (t.ino i).direct 0 < g.cap
  target : (t.data ((t.ino i).direct 0)).slice 0 target.length = target

theorem holding_stored {n : INode} {now : UInt64} (hi : i < g.inodes) (hb : n.direct 0 < g.cap)
    (hlen : target.length ≤ BLOCK_SIZE) (hn : n.fileType = .symlink) :
    g.Holding (stored t n i target now) i target := by
  refine ⟨hi, ?_, ?_, ?_, ?_⟩
  · simp [stored, hn]
  · simp [stored]
  · simpa [stored] using hb
  · simp only [stored, Function.update_self]
    rw [Block.slice, Block.zero_splice_bytes hlen, Lib.slice, List.drop_zero,
      List.take_left]

theorem toV1InodeNumber_ok {ino p : Nat} (h : Fuse.toV1InodeNumber ino s = .ok p s') :
    p = Fuse.v1InodeNumber ino ∧ s' = s := by
  have hwp : wp (Fuse.toV1InodeNumber ino) (fun p s' => p = Fuse.v1InodeNumber ino ∧ s' = s)
      (fun _ _ => True) s := wp_bind.mpr (wp_checkedSub fun _ => ⟨rfl, rfl⟩)
  exact hwp.of_ok h

theorem readOnly_fileAttr (n : INode) (ino : Nat) : ReadOnly (Fuse.fileAttrFromInode n ino) :=
  .bind (.checkedAdd _ _ _) fun _ => .bind (.checkedAdd _ _ _) fun _ => .pure _

/-- A FUSE `symlink` that replies with an entry has written the target. -/
theorem write_of_symlink {parent : Nat} {name : Str} {now now' : UInt64} {n : INode} {s₁ : FFS}
    {entry : Fuse.Entry}
    (h : createChild .symlink name (Fuse.v1InodeNumber parent) now s = .ok (n, i) s₁)
    (hcall : Fuse.symlink parent name target now now' s = .ok (.ok entry) s') :
    writeSymlink n i target now' s₁ = .ok () s' := by
  obtain ⟨p, s₂, hp, hrest⟩ := of_ok_bind hcall
  clear hcall
  obtain ⟨rfl, rfl⟩ := toV1InodeNumber_ok hp
  split at hrest
  · cases hrest
  obtain ⟨r, s₃, hr, hreply⟩ := of_ok_bind hrest
  clear hrest
  cases r with
  | error e => cases h.symm.trans (of_ok_attempt hr)
  | ok x =>
    cases h.symm.trans (of_ok_attempt hr)
    obtain ⟨ino, s₄, hino, hwrite⟩ := of_ok_bind hreply
    clear hreply
    obtain rfl := (ReadOnly.checkedAdd _ _ _).of_ok hino
    split at hwrite
    · cases hwrite
    obtain ⟨r', s₅, hw, hattr⟩ := of_ok_bind hwrite
    cases r' with
    | error e => cases hattr
    | ok x =>
      obtain ⟨attr, s₆, hread, hlast⟩ := of_ok_bind hattr
      obtain rfl := (readOnly_fileAttr _ _).of_ok hread
      cases hlast
      exact of_ok_attempt hw

/-- A new symlink holds its target, and its inode is allocated. -/
theorem holding_of_makes (hs : g.Rep s t) (hc : t.CursorsIn g) (h : Makes s target i s') :
    ∃ t', g.Rep s' t' ∧ t'.CursorsIn g ∧ g.Holding t' i target ∧ t'.ibit i = true := by
  have hstore : ∀ {n : INode} {s₁ : FFS} {now now' : UInt64},
      (g.Marked i s₁ ∧ ∃ b < 2 ^ 32, n = firstNode .symlink b now) →
      writeSymlink n i target now' s₁ = .ok () s' →
      ∃ t', g.Rep s' t' ∧ t'.CursorsIn g ∧ g.Holding t' i target ∧ t'.ibit i = true := by
    intro n s₁ now now' hn hrun
    obtain ⟨⟨t₁, hs₁, hc₁, hbit⟩, b, hb, rfl⟩ := hn
    obtain ⟨hi, hcap, hlen, hs'⟩ := (wp_writeSymlink_any hs₁ (firstNode_inRange hb)).of_ok hrun
    exact ⟨_, hs', ⟨hc₁.lastInode, hc₁.lastData⟩,
      holding_stored hi hcap hlen firstNode_fileType, hbit⟩
  cases h with
  | create h hcall =>
      rw [createSymlink, bind_of_ok h] at hcall
      exact hstore ((wp_create_marked hs hc).of_ok h) hcall
  | fuse h hcall =>
      exact hstore ((wp_createChild_marked hs hc).of_ok h) (write_of_symlink h hcall)

/-- Whatever call stores the target, the symlink holds it afterwards. -/
theorem holding_of_stores (hs : g.Rep s t) (hc : t.CursorsIn g) (h : Stores s target i s') :
    ∃ t', g.Rep s' t' ∧ t'.CursorsIn g ∧ g.Holding t' i target := by
  cases h with
  | make h =>
      obtain ⟨t', hs', hc', hhold, -⟩ := holding_of_makes hs hc h
      exact ⟨t', hs', hc', hhold⟩
  | @edit path now r _ hr hcall =>
      obtain ⟨f, s₁, hf, hrest⟩ := of_ok_bind hcall
      cases hf
      obtain ⟨r', s₁, hr', hwrite⟩ := of_ok_bind hrest
      obtain ⟨rfl, hr'⟩ := (wp_readOnly (readOnly_resolve _ _ _ _ _)).of_ok hr'
      obtain rfl : r' = r := Option.some.inj (hr'.symm.trans hr)
      obtain ⟨hsym, hwrite⟩ := of_ok_guard hwrite
      have hrange : r'.targetInode.InRange := by
        rw [resolve_inode hs hr]
        exact view_ino_inRange hs.1 _
      obtain ⟨hi, hcap, hlen, hs'⟩ := (wp_writeSymlink_any hs hrange).of_ok hwrite
      exact ⟨_, hs', ⟨hc.lastInode, hc.lastData⟩, holding_stored hi hcap hlen (not_not.mp hsym)⟩

/-- After any number of stored targets the filesystem is still mounted. -/
theorem rep_of_stored (hs : g.Rep s t) (hc : t.CursorsIn g) (h : Relation.ReflTransGen Edits s s') :
    ∃ t', g.Rep s' t' ∧ t'.CursorsIn g := by
  induction h with
  | refl => exact ⟨t, hs, hc⟩
  | tail _ h ih =>
      obtain ⟨t₁, hs₁, hc₁⟩ := ih
      obtain ⟨target, i, h⟩ := h
      obtain ⟨t', hs', hc', -⟩ := holding_of_stores hs₁ hc₁ h
      exact ⟨t', hs', hc'⟩

theorem Holding.readInode_eq (h : g.Holding t i target) (hs : g.Rep s t) :
    s.format.inodeHandler.readInode i s.device = .ok (t.ino i) s.device := by
  obtain ⟨d, hread, -⟩ := runs_readInode h.lt s.device hs.1
  obtain rfl := (readOnly_readInode _ _).of_ok hread
  rw [hs.2]
  exact hread

theorem Holding.follows (h : g.Holding t i target) (hs : g.Rep s t) : s.Follows i target := by
  obtain ⟨d, hdata, -⟩ := runs_readData h.block_lt s.device hs.1
  rw [readBlock_of_lt (hs.1.data_lt h.block_lt)] at hdata
  refine ⟨_, h.readInode_eq hs, h.symlink, h.size, ?_⟩
  rw [hs.2, h.size]
  show (s.device.block (g.dataStart + (t.ino i).direct 0)).slice 0 target.length = target
  rw [(Outcome.ok.inj hdata).1]
  exact h.target

/-- `read_symlink` reads the block of the symlink's number, counted from the start of the
device. -/
theorem Holding.readSymlink_eq (h : g.Holding t i target) (hs : g.Rep s t) (hne : target ≠ [])
    (ha : s.Allocated i) (buf : Block) :
    readSymlink i buf s = .ok (target.length, s.device.block ((s.view.ino i).direct 0)) s := by
  have hread : (s.format.inodeHandler.readInode i s.device).value? = some (t.ino i) :=
    congrArg Outcome.value? (h.readInode_eq hs)
  have hlt : (t.ino i).direct 0 < s.device.blockCount :=
    Nat.lt_of_le_of_lt (Nat.le_add_left _ _) (hs.1.data_lt h.block_lt)
  have hblock : onDevice (readBlock ((t.ino i).direct 0)) s =
      .ok (s.device.block ((t.ino i).direct 0)) s := zoom_of_ok (readBlock_of_lt hlt)
  have hpos : (t.ino i).size ≠ 0 := by
    rw [h.size]
    simpa using hne
  refine (bind_of_ok (onDevice_of_value (readOnly_isAllocated _ _) ha) _).trans ?_
  refine (bind_of_ok (onDevice_of_value (readOnly_readInode _ _) hread) _).trans ?_
  rw [if_neg (not_not.mpr h.symlink), if_neg hpos, hs.view_eq, ← h.size]
  exact bind_of_ok hblock _

theorem v1InodeNumber_succ (hi : i < g.inodes) : Fuse.v1InodeNumber (i + 1) = i := by
  have hs := g.small
  have ht := g.hasData
  apply Nat.mod_eq_of_lt
  simp only [inodes] at hi
  simp only [U32]
  omega

/-- The reply to a FUSE `readlink` comes from the same block. -/
theorem Holding.readlink_eq (h : g.Holding t i target) (hs : g.Rep s t) (hne : target ≠ [])
    (ha : s.Allocated i) :
    Fuse.readlink (i + 1) s =
      .ok (.ok ((s.device.block ((s.view.ino i).direct 0)).slice 0 target.length)) s := by
  have hlen : ¬ target.length > BLOCK_SIZE := by
    rw [Nat.not_lt, ← h.target]
    refine Nat.le_trans (List.length_take_le' _ _) ?_
    rw [List.drop_zero, Block.size]
  have hino : Fuse.toV1InodeNumber (i + 1) s = .ok i s := by
    refine (bind_of_ok (checkedSub_of_le (Nat.le_add_left 1 i)) _).trans ?_
    rw [v1InodeNumber_succ h.lt]
    rfl
  have hread : attempt (readSymlink i Block.zero) s =
      .ok (.ok (target.length, s.device.block ((s.view.ino i).direct 0))) s := by
    rw [attempt, h.readSymlink_eq hs hne ha]
  refine (bind_of_ok hino _).trans ((bind_of_ok hread _).trans ?_)
  dsimp only
  rw [if_neg hlen]
  rfl

end Geom

/-- `read_symlink` answers for allocated inodes only. -/
theorem allocated_of_readSymlink {s s' : FFS} {i : Nat} {buf : Block} {r : Nat × Block}
    (h : readSymlink i buf s = .ok r s') : s.Allocated i := by
  obtain ⟨f, s₁, hf, h⟩ := of_ok_bind h
  cases hf
  obtain ⟨allocated, s₁, halloc, h⟩ := of_ok_bind h
  obtain ⟨rfl, ha⟩ := (Geom.wp_readOnly (readOnly_isAllocated _ _)).of_ok halloc
  obtain ⟨hc, -⟩ := of_ok_guard h
  rw [FFS.Allocated, ha]
  simpa using hc

/-- After a target was stored, resolution follows it, while `read_symlink` gives it back
exactly when the inode is allocated, as that of a new symlink is, and the block whose
number on the device is that of the symlink in the data region begins with the target. -/
theorem symlink_reads_back_iff {g : Geom} {s s₁ s' : FFS} {t : St} (hs : g.Rep s t)
    (hc : t.CursorsIn g) (hedits : Relation.ReflTransGen Edits s s₁) {target : Str} {i : Nat}
    (hlen : 1 ≤ target.length) (h : Stores s₁ target i s') :
    s'.Follows i target ∧ (Makes s₁ target i s' → s'.Allocated i) ∧
      (s'.ReadsBack i target ↔ s'.Allocated i ∧ s'.Unshifted i target) ∧
      (s'.ReadsBack i target → Fuse.readlink (i + 1) s' = .ok (.ok target) s') := by
  obtain ⟨t₁, hs₁, hc₁⟩ := Geom.rep_of_stored hs hc hedits
  obtain ⟨t', hs', -, hhold⟩ := Geom.holding_of_stores hs₁ hc₁ h
  have hne : target ≠ [] := List.length_pos_iff.mp hlen
  refine ⟨hhold.follows hs', ?_, ?_⟩
  · intro hmake
    obtain ⟨t'', hs'', -, hhold', hbit⟩ := Geom.holding_of_makes hs₁ hc₁ hmake
    exact hs''.isAllocated hbit hhold'.lt
  have hback : s'.ReadsBack i target → s'.Allocated i ∧ s'.Unshifted i target := by
    intro hback
    obtain ⟨buf, hrun, htarget⟩ := hback Block.zero
    have ha := allocated_of_readSymlink hrun
    cases (hhold.readSymlink_eq hs' hne ha Block.zero).symm.trans hrun
    exact ⟨ha, htarget⟩
  refine ⟨⟨hback, ?_⟩, ?_⟩
  · intro hcond buf
    exact ⟨_, hhold.readSymlink_eq hs' hne hcond.1 buf, hcond.2⟩
  · intro h
    obtain ⟨ha, hblock⟩ := hback h
    rw [hhold.readlink_eq hs' hne ha, hblock]

/-- The five blocks of the file `/1` begin behind the metadata, so that its first block has
the number of the block of the symlink `/2`; it begins with the target. -/
theorem symlink_reads_back_shifted : ∃ s₀ s s', start 0 (MemoryDevice.empty 14) = some s₀ ∧
    Run (fun s op => op.Tame s) s₀ s ∧ Makes s [47, 97] 2 s' ∧ s'.ReadsBack 2 [47, 97] := by
  have hcalls : ((start 0 (MemoryDevice.empty 14)).bind
      (checked (fun s op => op.Tame s) [.createFile [47, 49] 0, .openFile [47, 49],
        .write 0 (47 :: 97 :: List.replicate 1023 0) 0])).any (fun s =>
        (create [47, 50] .symlink 0 s).value?.any (fun x => x.2 == 2) &&
        (createSymlink [47, 50] [47, 97] 0 0 s).value?.isSome &&
        (createSymlink [47, 50] [47, 97] 0 0 s).state?.any fun s' =>
          (s'.device.block ((s'.view.ino 2).direct 0)).slice 0 2 == [47, 97]) = true := by
    decide +kernel
  obtain ⟨s, hs, hfinal⟩ := (Option.any_eq_true _ _).mp hcalls
  obtain ⟨s₀, hstart, hchecked⟩ := Option.bind_eq_some_iff.mp hs
  simp only [Bool.and_eq_true, beq_iff_eq, Option.any_eq_true, Option.isSome_iff_exists,
    Outcome.value?_eq_some] at hfinal
  obtain ⟨⟨⟨⟨n, i⟩, ⟨s₁, hcreate⟩, rfl⟩, _, s', hcall⟩, s'', hs'', hblock⟩ := hfinal
  rw [hcall] at hs''
  cases hs''
  have hrun := run_of_checked hchecked
  obtain ⟨g, t, -, hrep, h, -⟩ := Geom.tame_run hstart hrun
  have hmake : Makes s [47, 97] 2 s' := .create hcreate hcall
  obtain ⟨-, halloc, hback, -⟩ :=
    symlink_reads_back_iff hrep h.cursors .refl (by decide) (.make hmake)
  exact ⟨s₀, s, s', hstart, hrun, hmake, hback.mpr ⟨halloc hmake, hblock⟩⟩

/-- On a new filesystem `read_symlink` finds the inode bitmap in place of the target. -/
theorem symlink_reads_other : ∃ s₀ s', start 0 (MemoryDevice.empty 14) = some s₀ ∧
    Makes s₀ [47, 97] 1 s' ∧ s'.Follows 1 [47, 97] ∧ ¬ s'.ReadsBack 1 [47, 97] := by
  have hcalls : (start 0 (MemoryDevice.empty 14)).any (fun s =>
      (create [47, 115] .symlink 0 s).value?.any (fun x => x.2 == 1) &&
      (createSymlink [47, 115] [47, 97] 0 0 s).value?.isSome &&
      (createSymlink [47, 115] [47, 97] 0 0 s).state?.any fun s' =>
        (readSymlink 1 Block.zero s').value?.any fun x => x.2.slice 0 2 != [47, 97]) = true := by
    decide +kernel
  obtain ⟨s, hstart, hfinal⟩ := (Option.any_eq_true _ _).mp hcalls
  simp only [Bool.and_eq_true, beq_iff_eq, bne_iff_ne, Option.any_eq_true,
    Option.isSome_iff_exists, Outcome.value?_eq_some] at hfinal
  obtain ⟨⟨⟨⟨n, i⟩, ⟨s₁, hcreate⟩, rfl⟩, _, s', hcall⟩, s'', hs'', r, ⟨s₂, hread⟩, hother⟩ := hfinal
  rw [hcall] at hs''
  cases hs''
  obtain ⟨g, t, -, hrep, hinit⟩ := Geom.start_initial hstart
  have hinv : g.Inv false t := hinit.inv
  have hmake : Makes s [47, 97] 1 s' := .create hcreate hcall
  obtain ⟨t', hs', -, hhold, -⟩ := Geom.holding_of_makes hrep hinv.cursors hmake
  refine ⟨s, s', hstart, hmake, hhold.follows hs', fun hback => ?_⟩
  obtain ⟨buf, hrun, htarget⟩ := hback Block.zero
  cases hread.symm.trans hrun
  exact hother htarget

end FerrisFS
