import FerrisFS.Fuse.Lookup
import FerrisFS.Fuse.Server
import FerrisFS.System.Store
import FerrisFS.System.Upright

/-!
# What requests do

Beside looking, a request calls operations on names, stores the target of a symlink or sets
attributes of an inode. `Fair` is what a request has to meet so that these calls keep the
filesystem sound.
-/

namespace FerrisFS

open Lib DirectoryHandler INodeTableHandler FormatV1 Fuse

/-- One change. With `gaps` unset no call leaves a remainder that the walk stumbles over, with
`resizes` unset no size is set. -/
inductive Moves (gaps resizes : Bool) (s : FFS) : FFS → Prop where
  | names {op s'} (hop : op.Names) (hok : op.Careful s) (hroom : op.Roomy gaps s)
      (hdirs : op.IntoDirs s) (hstep : Step s op s') : Moves gaps resizes s s'
  | stored {i target now s'} (hlive : s.view.ibit i = true)
      (hsym : (s.view.ino i).fileType = .symlink)
      (hrun : writeSymlink (s.view.ino i) i target now s = .ok () s') : Moves gaps resizes s s'
  | attributes {i n s'} (hlive : s.view.ibit i = true) (hn : n.InRange)
      (hlike : (s.view.ino i).Like n) (hsize : resizes = true ∧ n.fileType = .file ∨
        n.size = (s.view.ino i).size)
      (hrun : writeInode i n s = .ok () s') : Moves gaps resizes s s'

abbrev Moved (gaps resizes : Bool) : FFS → FFS → Prop :=
  Relation.ReflTransGen (Moves gaps resizes)

/-- The inode bitmap has a bit for the inode. -/
def FFS.HasBit (s : FFS) (i : Nat) : Prop := i < 2048 * s.format.superblock.inodeBitmapBlocks

instance {s : FFS} {i : Nat} : Decidable (s.HasBit i) := inferInstanceAs (Decidable (_ < _))

/-- A name for something new. -/
structure FFS.Creatable (gaps : Bool) (s : FFS) (ft : FileType) (parent : Nat) (name : Str)
    (now : UInt64) : Prop where
  hasBit : s.HasBit (v1InodeNumber parent)
  notDot : name ≠ [dot]
  notDots : name ≠ [dot, dot]
  roomy : (Op.createChild ft name (v1InodeNumber parent) now).Roomy gaps s

/-- The inode that `rename` moves is no directory, and neither the new name leaves a
remainder nor is an open file deallocated when the old one goes. -/
structure FFS.Movable (gaps : Bool) (s : FFS) (p : Nat) (name : Str) (q : Nat) (newname : Str)
    (i : Nat) (now now' : UInt64) : Prop where
  hasBit : s.HasBit i
  leaf : (s.view.ino i).fileType ≠ .directory
  roomy : (Op.createChildHardlink i newname q now).Roomy gaps s
  keeps : ∀ s', Step s (.createChildHardlink i newname q now) s' →
    (Op.deleteChild name p none now').Keeps s'

/-- What the sender of a request answers for. -/
def Fuse.Request.Fair (gaps : Bool) (s : FFS) : Request → Prop
  | .setattr ino .. => s.HasBit (v1InodeNumber ino)
  | .mkdir parent name now => s.Creatable gaps .directory parent name now
  | .symlink parent name _ now _ => s.Creatable gaps .symlink parent name now
  | .mknod parent name _ now | .create parent name _ now => s.Creatable gaps .file parent name now
  | .rmdir parent .. => s.HasBit (v1InodeNumber parent)
  | .unlink parent name now => s.HasBit (v1InodeNumber parent) ∧
      (Op.deleteChild name (v1InodeNumber parent) (some .file) now).Keeps s
  | .link ino newparent newname now => s.HasBit (v1InodeNumber ino) ∧
      s.HasBit (v1InodeNumber newparent) ∧ (Op.createChildHardlink (v1InodeNumber ino) newname
        (v1InodeNumber newparent) now).Roomy gaps s
  | .rename parent name newparent newname _ now now' => s.HasBit (v1InodeNumber parent) ∧
      s.HasBit (v1InodeNumber newparent) ∧ ∀ e b off,
        s.findEntry (v1InodeNumber parent) name = some (some (e, b, off)) →
        s.Movable gaps (v1InodeNumber parent) name (v1InodeNumber newparent) newname e.inode now
          now'
  | .openIno ino => s.HasBit (v1InodeNumber ino)
  | _ => True

/-- An allocated directory. -/
def View.IsDir (v : View) (i : Nat) : Prop :=
  v.ibit i = true ∧ (v.ino i).fileType = .directory

namespace Geom

variable {g : Geom} {gaps resizes : Bool} {s s' : FFS} {t t' : St} {i p : Nat} {name : Str}
  {now : UInt64} {op : Op}

/-! ## What is kept -/

/-- What a change keeps. -/
theorem upright_of_moves (hs : g.Rep s t) (h : g.Upright gaps t)
    (hm : Moves gaps resizes s s') : ∃ t', g.Rep s' t' ∧ g.Upright gaps t' := by
  cases hm with
  | names hop hok hroom hdirs hstep => exact upright_of_step hs h hok hroom hstep
  | @stored i target now _ hlive hsym hrun =>
      rw [hs.view_eq] at hlive hsym hrun
      have hmem := @INode.direct_mem _ t.data (h.targeted i hlive hsym)
      obtain ⟨t', hs', rfl, hlen⟩ := (wpr_writeSymlink h.toInv hlive hmem).of_ok hs hrun
      exact ⟨_, hs', h.withTarget hlive hsym hlen⟩
  | @attributes i n _ hlive hn hlike hsize hrun =>
      rw [hs.view_eq] at hlive hlike
      exact ⟨_, writeInode_ok hs (h.lt hlive) hn hrun, h.withNode hlike hn⟩

theorem upright_of_moved (hs : g.Rep s t) (h : g.Upright gaps t)
    (hm : Moved gaps resizes s s') : ∃ t', g.Rep s' t' ∧ g.Upright gaps t' := by
  induction hm with
  | refl => exact ⟨t, hs, h⟩
  | tail _ hmove ih =>
      obtain ⟨t₁, hs₁, h₁⟩ := ih
      exact upright_of_moves hs₁ h₁ hmove

/-! ## What the operations check -/

theorem live_of_allocated (hs : g.Rep s t) (hi : i < g.inodes)
    (hbit : i < 2048 * g.inodeBitmapBlocks) (h : s.isAllocated i = some true) :
    t.ibit i = true := by
  obtain ⟨d, hd, -⟩ := (@runs_isAllocated_inode g t.toView i t.lastInode hi hbit) s.device hs.1
  rw [FFS.isAllocated, hs.2] at h
  have hvalue : ((g.inodeAllocator t.lastInode).isAllocated i s.device).value? = some true := h
  rw [hd] at hvalue
  exact Option.some.inj hvalue

/-- Only inodes of the table can be read. -/
theorem wp_readInode_lt (hs : g.Rep s t) :
    Prog.wp (onDevice (s.format.inodeHandler.readInode i))
      (fun n s' => s' = s ∧ n = t.ino i ∧ i < g.inodes) (fun _ s' => s' = s) s := by
  have hspec : Prog.wpr g.Holds (g.inodeHandler.readInode i)
      (fun n v' => v' = t.toView ∧ n = t.ino i ∧ i < g.inodes) (fun _ v' => v' = t.toView)
      t.toView := wpr_readInode (fun hi => ⟨rfl, rfl, hi⟩) fun _ => rfl
  rw [hs.2]
  refine Prog.wp_mono (wp_reader hs (readOnly_readInode _ _) hspec) ?_ fun _ _ he => he
  intro n s' hn
  exact ⟨hn.1, hn.2.2⟩

/-- A check of the bit: behind it an inode of the table is allocated. -/
theorem wp_allocated {α : Type} {e : FSError} {m : FsM α} {Q : α → FFS → Prop}
    {E : FSError → FFS → Prop} (hs : g.Rep s t) (hbit : i < 2048 * g.inodeBitmapBlocks)
    (hsame : ∀ e, E e s) (h : (i < g.inodes → t.ibit i = true) → Prog.wp m Q E s) :
    Prog.wp (do
      let allocated ← onDevice (s.format.inodeAllocator.isAllocated i)
      if ¬ allocated then Prog.fail e
      m) Q E s := by
  refine Prog.wp_seq (wp_readOnly (readOnly_isAllocated _ _)) ?_ fun e _ he => he ▸ hsame e
  intro allocated s' hallocated
  obtain ⟨rfl, hallocated⟩ := hallocated
  refine Prog.wp_guard (fun _ => hsame _) fun htrue => h fun hi => ?_
  have htrue : allocated = true := not_not.mp htrue
  subst htrue
  exact live_of_allocated hs hi hbit hallocated

theorem wp_getInode_live (hs : g.Rep s t) (hbit : i < 2048 * g.inodeBitmapBlocks) :
    Prog.wp (getInode i) (fun n s' => s' = s ∧ t.ibit i = true ∧ n = t.ino i)
      (fun _ s' => s' = s) s := by
  refine wp_getFormat (wp_allocated hs hbit (fun _ => rfl) fun hlive => ?_)
  refine Prog.wp_mono (wp_readInode_lt hs) ?_ fun _ _ he => he
  intro n s' hn
  exact ⟨hn.1, hlive hn.2.2, hn.2.1⟩

/-- A child is created in an allocated directory, or nothing is done. -/
theorem wp_createChild_aimed {ft : FileType} (hs : g.Rep s t)
    (hbit : p < 2048 * g.inodeBitmapBlocks) :
    Prog.wp (createChild ft name p now) (fun _ _ => t.IsDir p)
      (fun _ s' => s' = s ∨ t.IsDir p) s := by
  refine wp_getFormat (wp_allocated hs hbit (fun _ => .inl rfl) fun hlive => ?_)
  refine Prog.wp_seq (wp_readInode_lt hs) ?_ fun _ _ he => .inl he
  intro n s' hn
  obtain ⟨rfl, rfl, hp⟩ := hn
  refine Prog.wp_guard (fun _ => .inl rfl) fun hdir => ?_
  have hthis : t.IsDir p := ⟨hlive hp, not_not.mp hdir⟩
  exact Prog.wp_of_forall (fun _ _ => hthis) fun _ _ => .inr hthis

/-- A child is deleted from an allocated directory, and it has the type that was asked for,
or nothing is done. -/
theorem wp_deleteChild_aimed {ty : Option FileType} (hs : g.Rep s t)
    (hbit : p < 2048 * g.inodeBitmapBlocks) :
    Prog.wp (deleteChild name p ty now)
      (fun _ _ => t.IsDir p ∧ ∃ e b off, s.findEntry p name = some (some (e, b, off)) ∧
        ∀ x ∈ ty, (t.ino e.inode).fileType = x)
      (fun _ s' => s' = s ∨ t.IsDir p ∧ ∃ e b off,
        s.findEntry p name = some (some (e, b, off)) ∧ ∀ x ∈ ty, (t.ino e.inode).fileType = x)
      s := by
  refine Prog.wp_guard (fun _ => .inl rfl) fun _ => ?_
  refine wp_getFormat (wp_allocated hs hbit (fun _ => .inl rfl) fun hlive => ?_)
  refine Prog.wp_seq (wp_readInode_lt hs) ?_ fun _ _ he => .inl he
  intro n s' hn
  obtain ⟨rfl, rfl, hp⟩ := hn
  refine Prog.wp_guard (fun _ => .inl rfl) fun hdir => ?_
  have hisDir : t.IsDir p := ⟨hlive hp, not_not.mp hdir⟩
  refine Prog.wp_seq (wp_readOnly (readOnly_findEntry _ _ _ _)) ?_ fun _ _ he => .inl he
  intro found s' hfound
  obtain ⟨rfl, hfound⟩ := hfound
  cases found with
  | none => exact .inl rfl
  | some x =>
    obtain ⟨e, b, off⟩ := x
    have hfind : s'.findEntry p name = some (some (e, b, off)) := by
      rw [FFS.findEntry, hs.view_eq]
      exact hfound
    refine Prog.wp_seq (wp_inode hs) ?_ fun _ _ he => .inl he
    intro n s₁ hn
    obtain ⟨rfl, rfl⟩ := hn
    cases ty with
    | none =>
      have hthis : t.IsDir p ∧ ∃ e b off, s₁.findEntry p name = some (some (e, b, off)) ∧
          ∀ x ∈ (none : Option FileType), (t.ino e.inode).fileType = x :=
        ⟨hisDir, e, b, off, hfind, fun _ hx => by cases hx⟩
      exact Prog.wp_of_forall (fun _ _ => hthis) fun _ _ => .inr hthis
    | some x =>
      refine Prog.wp_guard (fun _ => .inl rfl) fun htype => ?_
      have hthis : t.IsDir p ∧ ∃ e b off, s₁.findEntry p name = some (some (e, b, off)) ∧
          ∀ y ∈ some x, (t.ino e.inode).fileType = y := by
        refine ⟨hisDir, e, b, off, hfind, fun y hy => ?_⟩
        cases hy
        exact (not_not.mp htype).symm
      exact Prog.wp_of_forall (fun _ _ => hthis) fun _ _ => .inr hthis

/-! ## Calls on names -/

theorem Rep.hasBit (hs : g.Rep s t) (h : s.HasBit i) : i < 2048 * g.inodeBitmapBlocks := by
  rw [FFS.HasBit, hs.2] at h
  exact h

theorem state?_ignoreResult {α : Type} (m : FsM α) (s : FFS) :
    (ignoreResult m s).state? = (m s).state? := by
  rw [ignoreResult, Prog.bind_apply]
  cases m s <;> rfl

/-- Creating a child is one change at most. -/
theorem moved_createChild {ft : FileType} {parent : Nat} (hs : g.Rep s t)
    (hc : s.Creatable gaps ft parent name now)
    (hstate : (createChild ft name (v1InodeNumber parent) now s).state? = some s') :
    Moved gaps resizes s s' := by
  have haimed : Prog.wp (createChild ft name (v1InodeNumber parent) now)
      (fun _ s' => s' = s ∨ t.IsDir (v1InodeNumber parent))
      (fun _ s' => s' = s ∨ t.IsDir (v1InodeNumber parent)) s :=
    Prog.wp_mono (wp_createChild_aimed hs (hs.hasBit hc.hasBit)) (fun _ _ h => .inr h)
      fun _ _ he => he
  rcases haimed.of_state hstate with rfl | ⟨hlive, hdir⟩
  · exact .refl
  rw [← hs.view_eq] at hlive hdir
  have hstep : Step s (.createChild ft name (v1InodeNumber parent) now) s' :=
    (state?_ignoreResult _ s).trans hstate
  have hnames : (Op.createChild ft name (v1InodeNumber parent) now).Names := trivial
  refine .single (.names hnames ⟨⟨hlive, hc.notDot, hc.notDots⟩, ?_⟩ hc.roomy ?_ hstep)
  · intro i hdel
    cases hdel
  · intro p e he
    cases he with
    | create h =>
        cases h
        exact hdir
    | link h => cases h

/-- Deleting a child is one change at most, if it is a directory or deallocates no open file. -/
theorem moved_deleteChild {ty : Option FileType} (hs : g.Rep s t) (h : g.Upright gaps t)
    (hbit : p < 2048 * g.inodeBitmapBlocks)
    (hkeeps : ty = some .directory ∨ (Op.deleteChild name p ty now).Keeps s)
    (hstate : (deleteChild name p ty now s).state? = some s') : Moved gaps resizes s s' := by
  have haimed : Prog.wp (deleteChild name p ty now)
      (fun _ s' => s' = s ∨ t.IsDir p ∧ ∃ e b off,
        s.findEntry p name = some (some (e, b, off)) ∧ ∀ x ∈ ty, (t.ino e.inode).fileType = x)
      (fun _ s' => s' = s ∨ t.IsDir p ∧ ∃ e b off,
        s.findEntry p name = some (some (e, b, off)) ∧ ∀ x ∈ ty, (t.ino e.inode).fileType = x)
      s := Prog.wp_mono (wp_deleteChild_aimed hs hbit) (fun _ _ h => .inr h) fun _ _ he => he
  rcases haimed.of_state hstate with rfl | ⟨⟨hlive, -⟩, e, b, off, hfind, htype⟩
  · exact .refl
  rw [← hs.view_eq] at hlive
  have hnames : (Op.deleteChild name p ty now).Names := trivial
  refine .single (.names hnames ⟨hlive, ?_⟩ ?_ ?_ hstate)
  · rcases hkeeps with rfl | hkeeps
    · -- open files are no directories
      intro i hdel _ id m hm heq
      cases hdel with
      | child hf =>
          cases hf.symm.trans hfind
          rw [hs.openFiles_eq] at hm
          have hfile := (h.handled id m hm).2
          rw [heq, htype _ rfl] at hfile
          cases hfile
    · exact hkeeps
  · right
    intro p e fit he
    cases he with
    | create h => cases h
    | link h => cases h
  · intro p e he
    cases he with
    | create h => cases h
    | link h => cases h

/-- Linking a child is one change at most. -/
theorem moved_createChildHardlink {q : Nat} {newname : Str} (hs : g.Rep s t)
    (hi : t.ibit i = true) (hleaf : (t.ino i).fileType ≠ .directory) (hq : t.IsDir q)
    (hroom : (Op.createChildHardlink i newname q now).Roomy gaps s)
    (hstep : Step s (.createChildHardlink i newname q now) s') : Moved gaps resizes s s' := by
  have hsane : (Op.createChildHardlink i newname q now).Sane s := by
    rw [Op.Sane, hs.view_eq]
    exact ⟨hi, hq.1, hleaf⟩
  have hnames : (Op.createChildHardlink i newname q now).Names := trivial
  refine .single (.names hnames ⟨hsane, ?_⟩ hroom ?_ hstep)
  · intro i hdel
    cases hdel
  · intro p e he
    cases he with
    | create h => cases h
    | link h =>
        cases h
        rw [hs.view_eq]
        exact hq.2

/-- The caller of `create_child_hardlink` has read both inodes. -/
theorem exec_createChildHardlink {q : Nat} {newname : Str} {n n' : INode}
    (hi : getInode i s = .ok n s) (hq : getInode q s = .ok n' s) :
    (Op.createChildHardlink i newname q now).exec s =
      createChildHardlink n i newname n' q now s :=
  (Prog.bind_of_ok hi _).trans (Prog.bind_of_ok hq _)

/-! ## Requests that change something -/

/-- A new child and the inode it is reported with. -/
theorem created_of_createChild {ft : FileType} {n : INode} (hs : g.Rep s t)
    (h : g.Inv gaps t) (hbit : p < 2048 * g.inodeBitmapBlocks)
    (hrun : createChild ft name p now s = .ok (n, i) s') :
    ∃ t' fit ds n' data', g.Rep s' t' ∧ t.IsDir p ∧ s.canFit p (newEntry ft name) = some fit ∧
      n = firstNode ft (ds.headD 0) now ∧ g.Created t p ft name now fit i ds n' data' t' := by
  have hdir : t.IsDir p := (wp_createChild_aimed hs hbit).of_ok hrun
  have hp := h.lt hdir.1
  have hread : (s.format.inodeHandler.readInode p s.device).value? = some (t.ino p) := by
    obtain ⟨d, hd, -⟩ := runs_readInode hp s.device hs.1
    rw [hs.2]
    show ((g.inodeHandler.readInode p) s.device).value? = _
    rw [hd]
    rfl
  rw [createChild_eq (hs.isAllocated hdir.1 hp) hread hdir.2] at hrun
  obtain ⟨t', fit, ds, n', data', hs', hfit, hn, hc⟩ := (wp_createIn hs h hdir.1).of_ok hrun
  exact ⟨t', fit, ds, n', data', hs', hdir, hfit, hn, hc⟩

theorem fromV1InodeNumber_ok {ino : Nat} (h : fromV1InodeNumber i s = .ok ino s') :
    ino = i + 1 ∧ s' = s := by
  unfold fromV1InodeNumber add32 at h
  have hwp : Prog.wp (Prog.checkedAdd U32 i 1) (fun ino s' => ino = i + 1 ∧ s' = s)
      (fun (_ : FSError) (_ : FFS) => True) s := Prog.wp_checkedAdd fun _ => ⟨rfl, rfl⟩
  exact hwp.of_ok h

/-- A new inode is reported under its FUSE number. -/
theorem reported {α : Type} {n : INode} {f : FileAttr → α} {r : α}
    (h : (do
      let entryIno ← fromV1InodeNumber i
      let attr ← fileAttrFromInode n entryIno
      pure (f attr) : FsM α) s = .ok r s') :
    s' = s ∧ ∃ attr, fileAttrFromInode n (i + 1) s = .ok attr s ∧ r = f attr := by
  obtain ⟨ino, s₁, hino, hrest⟩ := Prog.of_ok_bind h
  obtain ⟨rfl, rfl⟩ := fromV1InodeNumber_ok hino
  obtain ⟨attr, s₂, hattr, hlast⟩ := Prog.of_ok_bind hrest
  obtain rfl := (readOnly_fileAttr _ _).of_ok hattr
  cases hlast
  exact ⟨rfl, attr, hattr, rfl⟩

theorem moved_mkdir {parent : Nat} {r : Except Errno Entry} (hs : g.Rep s t)
    (hc : s.Creatable gaps .directory parent name now)
    (hrun : mkdir parent name now s = .ok r s') : Moved gaps resizes s s' := by
  obtain ⟨q, s₁, hq, hrest⟩ := Prog.of_ok_bind hrun
  clear hrun
  obtain ⟨rfl, rfl⟩ := toV1InodeNumber_ok hq
  split at hrest
  · cases hrest
    exact .refl
  obtain ⟨r', s₂, hattempt, hreply⟩ := Prog.of_ok_bind hrest
  clear hrest
  have hmoved : Moved gaps resizes s₁ s₂ :=
    moved_createChild hs hc (Prog.state?_of_attempt hattempt)
  cases r' with
  | error e =>
      cases hreply
      exact hmoved
  | ok x =>
      obtain ⟨rfl, -⟩ := reported hreply
      exact hmoved

theorem moved_mknod {parent : Nat} {mode : UInt32} {r : Except ReplyErrno Entry} (hs : g.Rep s t)
    (hc : s.Creatable gaps .file parent name now)
    (hrun : mknod parent name mode now s = .ok r s') : Moved gaps resizes s s' := by
  obtain ⟨q, s₁, hq, hrest⟩ := Prog.of_ok_bind hrun
  clear hrun
  obtain ⟨rfl, rfl⟩ := toV1InodeNumber_ok hq
  split at hrest
  · cases hrest
    exact .refl
  split at hrest
  · cases hrest
    exact .refl
  obtain ⟨r', s₂, hattempt, hreply⟩ := Prog.of_ok_bind hrest
  clear hrest
  have hmoved : Moved gaps resizes s₁ s₂ :=
    moved_createChild hs hc (Prog.state?_of_attempt hattempt)
  cases r' with
  | error e =>
      cases hreply
      exact hmoved
  | ok x =>
      obtain ⟨rfl, -⟩ := reported hreply
      exact hmoved

theorem moved_removeChild {ft : FileType} {parent : Nat} {r : Reply} (hs : g.Rep s t)
    (h : g.Upright gaps t) (hbit : s.HasBit (v1InodeNumber parent))
    (hkeeps : ft = .directory ∨
      (Op.deleteChild name (v1InodeNumber parent) (some ft) now).Keeps s)
    (hrun : removeChild ft parent name now s = .ok r s') : Moved gaps resizes s s' := by
  obtain ⟨q, s₁, hq, hrest⟩ := Prog.of_ok_bind hrun
  clear hrun
  obtain ⟨rfl, rfl⟩ := toV1InodeNumber_ok hq
  split at hrest
  · cases hrest
    exact .refl
  obtain ⟨r', s₂, hattempt, hreply⟩ := Prog.of_ok_bind hrest
  clear hrest
  have hkeeps' : some ft = some .directory ∨ _ := hkeeps.imp_left (congrArg some)
  have hmoved : Moved gaps resizes s₁ s₂ :=
    moved_deleteChild hs h (hs.hasBit hbit) hkeeps' (Prog.state?_of_attempt hattempt)
  cases r' with
  | error e =>
      cases hreply
      exact hmoved
  | ok x =>
      cases hreply
      exact hmoved

/-- A symlink is created, and then its target is stored. -/
theorem moved_symlink {parent : Nat} {target : Str} {now' : UInt64} {r : Except Errno Entry}
    (hs : g.Rep s t) (h : g.Upright gaps t) (hc : s.Creatable gaps .symlink parent name now)
    (hrun : symlink parent name target now now' s = .ok r s') : Moved gaps resizes s s' := by
  obtain ⟨q, s₁, hq, hrest⟩ := Prog.of_ok_bind hrun
  clear hrun
  obtain ⟨rfl, rfl⟩ := toV1InodeNumber_ok hq
  split at hrest
  · cases hrest
    exact .refl
  obtain ⟨r', s₂, hattempt, hreply⟩ := Prog.of_ok_bind hrest
  clear hrest
  have hmoved : Moved gaps resizes s₁ s₂ :=
    moved_createChild hs hc (Prog.state?_of_attempt hattempt)
  have hend := Prog.of_ok_attempt hattempt
  cases r' with
  | error e =>
      cases hreply
      exact hmoved
  | ok x =>
    obtain ⟨n, i⟩ := x
    obtain ⟨t₂, fit, ds, n', data', hs₂, hdir, -, rfl, hcr⟩ :=
      created_of_createChild hs h.toInv (hs.hasBit hc.hasBit) hend
    obtain ⟨t₂', hs₂', h₂⟩ := upright_of_moved hs h hmoved
    obtain rfl := hs₂'.unique hs₂
    obtain ⟨ino, s₃, hino, hentry⟩ := Prog.of_ok_bind hreply
    obtain ⟨-, rfl⟩ := fromV1InodeNumber_ok hino
    split at hentry
    · cases hentry
    obtain ⟨r'', s₄, hwrite, hdone⟩ := Prog.of_ok_bind hentry
    have hlive : t₂'.ibit i = true := hcr.ibit_iff.mpr (.inr rfl)
    have hnode : t₂'.ino i = firstNode .symlink (ds.headD 0) now :=
      hcr.ino_new h.toIntact hdir.1
    have hsym : (t₂'.ino i).fileType = .symlink := by
      rw [hnode]
      exact firstNode_fileType
    rw [← hnode] at hwrite
    have hstored := Prog.of_ok_attempt hwrite
    cases r'' with
    | error e =>
        have hmem := @INode.direct_mem _ t₂'.data (h₂.targeted i hlive hsym)
        obtain ⟨_, -, hf⟩ := (wpr_writeSymlink h₂.toInv hlive hmem).of_err hs₂ hstored
        exact hf.elim
    | ok u =>
        obtain ⟨attr, s₅, hattr, hlast⟩ := Prog.of_ok_bind hdone
        obtain rfl := (readOnly_fileAttr _ _).of_ok hattr
        cases hlast
        have hok : writeSymlink (t₂'.ino i) i target now' s₃ = .ok () s' := hstored
        rw [← hs₂.view_eq] at hlive hsym hok
        exact hmoved.tail (.stored hlive hsym hok)

/-- A link is another name for something that is no directory. -/
theorem moved_link {ino newparent : Nat} {newname : Str} {r : Except ReplyErrno Entry}
    (hs : g.Rep s t) (hino : s.HasBit (v1InodeNumber ino))
    (hparent : s.HasBit (v1InodeNumber newparent))
    (hroom : (Op.createChildHardlink (v1InodeNumber ino) newname (v1InodeNumber newparent)
      now).Roomy gaps s)
    (hrun : link ino newparent newname now s = .ok r s') : Moved gaps resizes s s' := by
  obtain ⟨q, s₁, hq, hrest⟩ := Prog.of_ok_bind hrun
  clear hrun
  obtain ⟨rfl, rfl⟩ := toV1InodeNumber_ok hq
  obtain ⟨i, s₁, hi, hget⟩ := Prog.of_ok_bind hrest
  clear hrest
  obtain ⟨rfl, rfl⟩ := toV1InodeNumber_ok hi
  obtain ⟨r₁, s₂, hattempt, hparentGet⟩ := Prog.of_ok_bind hget
  clear hget
  have hend := Prog.of_ok_attempt hattempt
  cases r₁ with
  | error e =>
      cases hparentGet
      cases (wp_getInode_live hs (hs.hasBit hino)).of_err hend
      exact .refl
  | ok n =>
    obtain ⟨rfl, hlive, rfl⟩ := (wp_getInode_live hs (hs.hasBit hino)).of_ok hend
    dsimp only at hparentGet
    split at hparentGet
    · cases hparentGet
      exact .refl
    rename_i hleaf
    obtain ⟨r₂, s₃, hattempt', hlink⟩ := Prog.of_ok_bind hparentGet
    clear hparentGet
    have hend' := Prog.of_ok_attempt hattempt'
    cases r₂ with
    | error e =>
        cases hlink
        cases (wp_getInode_live hs (hs.hasBit hparent)).of_err hend'
        exact .refl
    | ok n' =>
      obtain ⟨rfl, hplive, rfl⟩ := (wp_getInode_live hs (hs.hasBit hparent)).of_ok hend'
      dsimp only at hlink
      split at hlink
      · cases hlink
        exact .refl
      rename_i hpdir
      split at hlink
      · cases hlink
      obtain ⟨r₃, s₄, hattempt'', hreply⟩ := Prog.of_ok_bind hlink
      clear hlink
      have hstep : Step s₃ (.createChildHardlink (v1InodeNumber ino) newname
          (v1InodeNumber newparent) now) s₄ := by
        rw [Step, exec_createChildHardlink hend hend']
        exact Prog.state?_of_attempt hattempt''
      have hmoved : Moved gaps resizes s₃ s₄ :=
        moved_createChildHardlink hs hlive hleaf ⟨hplive, not_not.mp hpdir⟩ hroom hstep
      cases r₃ with
      | error e =>
          cases hreply
          exact hmoved
      | ok u =>
          obtain ⟨attr, s₅, hattr, hlast⟩ := Prog.of_ok_bind hreply
          obtain rfl := (readOnly_fileAttr _ _).of_ok hattr
          cases hlast
          exact hmoved

/-- A move is a link under the new name, and then the old name is deleted. -/
theorem moved_rename {parent newparent flags : Nat} {newname : Str} {now' : UInt64} {r : Reply}
    (hs : g.Rep s t) (h : g.Upright gaps t)
    (hparent : s.HasBit (v1InodeNumber parent)) (hnewparent : s.HasBit (v1InodeNumber newparent))
    (hmovable : ∀ e b off, s.findEntry (v1InodeNumber parent) name = some (some (e, b, off)) →
      s.Movable gaps (v1InodeNumber parent) name (v1InodeNumber newparent) newname e.inode now
        now')
    (hrun : rename parent name newparent newname flags now now' s = .ok r s') :
    Moved gaps resizes s s' := by
  unfold rename at hrun
  split at hrun
  · cases hrun
    exact .refl
  split at hrun
  · cases hrun
    exact .refl
  obtain ⟨p, s₁, hp, hrest⟩ := Prog.of_ok_bind hrun
  clear hrun
  obtain ⟨rfl, rfl⟩ := toV1InodeNumber_ok hp
  obtain ⟨q, s₁, hq, hfind⟩ := Prog.of_ok_bind hrest
  clear hrest
  obtain ⟨rfl, rfl⟩ := toV1InodeNumber_ok hq
  obtain ⟨r₁, s₂, hattempt, hget⟩ := Prog.of_ok_bind hfind
  clear hfind
  have hend := Prog.of_ok_attempt hattempt
  cases r₁ with
  | error e =>
      cases hget
      cases (wp_getDirEntryInode hs).of_err hend
      exact .refl
  | ok o =>
    obtain ⟨rfl, -, found, hfound, rfl⟩ := (wp_getDirEntryInode hs).of_ok hend
    match found with
    | none =>
      cases hget
      exact .refl
    | some (e, b, off) =>
      have hmove := hmovable e b off hfound
      obtain ⟨r₂, s₃, hattempt₂, hparentGet⟩ := Prog.of_ok_bind hget
      clear hget
      have hend₂ := Prog.of_ok_attempt hattempt₂
      cases r₂ with
      | error e =>
          cases hparentGet
          cases (wp_getInode_live hs (hs.hasBit hmove.hasBit)).of_err hend₂
          exact .refl
      | ok n =>
        obtain ⟨rfl, hlive, rfl⟩ := (wp_getInode_live hs (hs.hasBit hmove.hasBit)).of_ok hend₂
        obtain ⟨r₃, s₄, hattempt₃, hlink⟩ := Prog.of_ok_bind hparentGet
        clear hparentGet
        have hend₃ := Prog.of_ok_attempt hattempt₃
        cases r₃ with
        | error e =>
            cases hlink
            cases (wp_getInode_live hs (hs.hasBit hnewparent)).of_err hend₃
            exact .refl
        | ok n' =>
          obtain ⟨rfl, hqlive, rfl⟩ := (wp_getInode_live hs (hs.hasBit hnewparent)).of_ok hend₃
          dsimp only at hlink
          split at hlink
          · cases hlink
            exact .refl
          rename_i hqdir
          split at hlink
          · cases hlink
          obtain ⟨r₄, s₅, hattempt₄, hdelete⟩ := Prog.of_ok_bind hlink
          clear hlink
          have hstep : Step s₄ (.createChildHardlink e.inode newname (v1InodeNumber newparent)
              now) s₅ := by
            rw [Step, exec_createChildHardlink hend₂ hend₃]
            exact Prog.state?_of_attempt hattempt₄
          have hleaf := hmove.leaf
          rw [hs.view_eq] at hleaf
          have hmoved : Moved gaps resizes s₄ s₅ :=
            moved_createChildHardlink hs hlive hleaf ⟨hqlive, not_not.mp hqdir⟩ hmove.roomy hstep
          cases r₄ with
          | error e =>
              cases hdelete
              exact hmoved
          | ok u =>
            dsimp only at hdelete
            split at hdelete
            · cases hdelete
              exact hmoved
            obtain ⟨r₅, s₆, hattempt₅, hreply⟩ := Prog.of_ok_bind hdelete
            obtain ⟨t₅, hs₅, h₅⟩ := upright_of_moved hs h hmoved
            have hdeleted : Moved gaps resizes s₅ s₆ :=
              moved_deleteChild hs₅ h₅ (hs.hasBit hparent) (.inr (hmove.keeps s₅ hstep))
                (Prog.state?_of_attempt hattempt₅)
            cases r₅ with
            | error e =>
                cases hreply
                exact hmoved.trans hdeleted
            | ok u =>
                cases hreply
                exact hmoved.trans hdeleted

/-- Writing back an inode that is in use does not fail. -/
theorem writeInode_live {n : INode} (hs : g.Rep s t) (ho : g.Owning t) (hlive : t.ibit i = true)
    (hn : n.InRange) : ∃ s', writeInode i n s = .ok () s' := by
  obtain ⟨s', hrun, -⟩ := runs_onDevice (runs_writeInode (ho.ibit_lt i hlive) hn) s hs
  refine ⟨s', (Prog.bind_of_ok rfl _).trans ((isAllocated_bind hs ho hlive).trans ?_)⟩
  refine (congrFun (if_neg (by decide)) s).trans ?_
  rw [hs.2]
  exact hrun

theorem moved_setattr {ino : Nat} {mode : Option UInt32} {size : Option UInt64}
    {mtime : Option TimeOrNow} {ctime : Option Int64} {r : Except Errno FileAttr}
    (hs : g.Rep s t) (h : g.Upright gaps t) (hbit : s.HasBit (v1InodeNumber ino))
    (hsize : resizes = true ∨ size = none)
    (hrun : setattr ino mode size mtime ctime now s = .ok r s') : Moved gaps resizes s s' := by
  obtain ⟨q, s₁, hq, hrest⟩ := Prog.of_ok_bind hrun
  clear hrun
  obtain ⟨rfl, rfl⟩ := toV1InodeNumber_ok hq
  obtain ⟨r₁, s₂, hattempt, hset⟩ := Prog.of_ok_bind hrest
  clear hrest
  have hend := Prog.of_ok_attempt hattempt
  cases r₁ with
  | error e =>
      cases hset
      cases (wp_getInode_live hs (hs.hasBit hbit)).of_err hend
      exact .refl
  | ok n =>
    obtain ⟨rfl, hlive, rfl⟩ := (wp_getInode_live hs (hs.hasBit hbit)).of_ok hend
    have hrange := h.inRange (v1InodeNumber ino)
    dsimp only at hset
    split at hset
    · cases hset
      exact .refl
    rename_i hnot
    obtain ⟨modified, s₃, hmodified, htimes⟩ := Prog.of_ok_bind hset
    obtain ⟨hmod, rfl⟩ := newModified_ok hrange hmodified
    obtain ⟨created, s₄, hcreated, hnode⟩ := Prog.of_ok_bind htimes
    obtain ⟨hcre, rfl⟩ := newCreated_ok hrange hcreated
    obtain ⟨r₂, s₅, hattempt₂, hreply⟩ := Prog.of_ok_bind hnode
    have hwrite := Prog.of_ok_attempt hattempt₂
    have hn : ({ t.ino (v1InodeNumber ino) with
        permissions :=
          (mode.map fun mode => mode.toNat % U16).getD (t.ino (v1InodeNumber ino)).permissions
        size := (size.map UInt64.toNat).getD (t.ino (v1InodeNumber ino)).size
        modified := modified, created := created } : INode).InRange :=
      { hrange with
        size := by
          cases size with
          | none => exact hrange.size
          | some size => exact size.toNat_lt
        permissions := by
          cases mode with
          | none => exact hrange.permissions
          | some mode => exact Nat.mod_lt _ (by decide)
        modified := hmod
        created := hcre }
    cases r₂ with
    | error e =>
        obtain ⟨s', hok⟩ := writeInode_live hs h.owning hlive hn
        cases hok.symm.trans hwrite
    | ok u =>
      obtain ⟨attr, s₆, hattr, hlast⟩ := Prog.of_ok_bind hreply
      obtain rfl := (readOnly_fileAttr _ _).of_ok hattr
      cases hlast
      refine .single (.attributes (i := v1InodeNumber ino) ?_ hn ?_ ?_ hwrite)
      · rw [hs.view_eq]
        exact hlive
      · rw [hs.view_eq]
        exact ⟨rfl, rfl, rfl, rfl, rfl, rfl⟩
      · rw [hs.view_eq]
        cases size with
        | none => exact .inr rfl
        | some size =>
            refine .inl ⟨hsize.resolve_right (Option.some_ne_none _), ?_⟩
            by_contra hfile
            exact hnot ⟨rfl, hfile⟩

end Geom

end FerrisFS
