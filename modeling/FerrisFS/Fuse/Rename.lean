import FerrisFS.Fuse.FormatV1
import FerrisFS.V1.Inspect
import FerrisFS.V1.Siblings

/-!
# Rename

FUSE `rename` makes a hard link and deletes the old name. The new record is typed as a
file whatever it names, and nothing is undone when the second step fails, so only the
move of a regular file to a new name comes out right.
-/

namespace FerrisFS

open Lib DirectoryHandler INodeTableHandler FormatV1

namespace View

/-- Directories and link counts are as before. -/
structure SameDirs (t t' : View) : Prop where
  ibit : t'.ibit = t.ibit
  records : ∀ d k e, t'.Rec d k e ↔ t.Rec d k e
  links : ∀ i, (t'.ino i).links = (t.ino i).links

theorem SameDirs.refl (t : View) : t.SameDirs t := ⟨rfl, fun _ _ _ => Iff.rfl, fun _ => rfl⟩

/-- `e` has moved from `name` in `p` to `newname` in `q`. -/
structure Arrived (t t' : View) (q : Nat) (newname : Str) (e e' : DirEntry) : Prop where
  entry : t'.Entry q newname e'
  inode : e'.inode = e.inode
  fileType : e'.fileType = (t'.ino e.inode).fileType
  links : (t'.ino e.inode).links = (t.ino e.inode).links
  up : (t'.ino e.inode).fileType = .directory → t'.graph.up e.inode q

/-- The move of `name` in `p` to `newname` in `q`, which was not taken. -/
structure Moved (t t' : View) (p : Nat) (name : Str) (q : Nat) (newname : Str) : Prop where
  vacant : ∀ e, ¬ t.Entry q newname e
  gone : ∀ e, ¬ t'.Entry p name e
  arrived : ∃ e e', t.Entry p name e ∧ t.Arrived t' q newname e e'
  reach : ∀ i, t.Reach i → t'.Reach i
  acyclic : t'.graph.Acyclic

end View

/-- `rename` without replacement moves or does nothing. -/
def FFS.RenamesRight (s : FFS) (parent : Nat) (name : Str) (newparent : Nat) (newname : Str)
    (now now' : UInt64) : Prop :=
  match Fuse.rename parent name newparent newname Fuse.RENAME_NOREPLACE now now' s with
  | .ok (.ok _) s' => s.view.Moved s'.view (Fuse.v1InodeNumber parent) name
      (Fuse.v1InodeNumber newparent) newname
  | .ok (.error _) s' => s.view.SameDirs s'.view
  | _ => True

/-! ## When the code does -/

/-- What `is_allocated` answers in the inode bitmap. -/
def FFS.isAllocated (s : FFS) (i : Nat) : Option Bool :=
  (s.format.inodeAllocator.isAllocated i s.device).value?

/-- The checks before the link pass: `name` in `p` is `e`, and `q` is a directory. -/
structure FFS.Aimed (s : FFS) (p : Nat) (name : Str) (q : Nat) (newname : Str) (e : DirEntry)
    (base : Str) : Prop where
  parent : s.isAllocated p = some true
  found : ∃ b off, s.findEntry p name = some (some (e, b, off))
  source : s.isAllocated e.inode = some true
  newparent : s.isAllocated q = some true
  dir : (s.view.ino q).fileType = .directory
  utf8 : Path.validUtf8 newname [] = true
  split : ∃ pre, Path.split newname = some (pre, base)

/-- The link can be made: no name is in its way, and there is room for its record. -/
structure FFS.Linkable (s : FFS) (i q : Nat) (base : Str) (fit : Option (Nat × Nat)) : Prop where
  vacant : s.findEntry q (DirEntry.new i .file base).name = some none
  fits : s.canFit q (DirEntry.new i .file base) = some fit
  counted : Needs (s.view.ino q) fit ≤ s.format.superblock.freeData
  room : ∃ ds, s.findData (Needs (s.view.ino q) fit) = some ds ∧
    ds.length = Needs (s.view.ino q) fit
  grows : fit = none → (s.view.ino q).blocks < INode.MAX_BLOCKS
  links : (s.view.ino i).links + 1 < U16

/-- A regular file moves from a directory to a new name, and its record fits. -/
structure FFS.PlainMove (s : FFS) (p : Nat) (name : Str) (q : Nat) (newname : Str)
    (e : DirEntry) (base : Str) (fit : Option (Nat × Nat)) : Prop where
  dir : (s.view.ino p).fileType = .directory
  file : (s.view.ino e.inode).fileType = .file
  named : name ≠ [dot] ∧ name ≠ [dot, dot]
  utf8 : Path.validUtf8 name [] = true
  whole : base = newname ∧ newname.length ≤ DirEntry.MAX_NAME
  fresh : ∀ x, ¬ s.view.Entry q newname x
  snug : Entered.Snug s.view.data (DirEntry.new e.inode .file base) fit

/-- A move that gets as far as the link is a plain one, between allocated inodes. -/
def FFS.SafeMove (s : FFS) (p : Nat) (name : Str) (q : Nat) (newname : Str) : Prop :=
  ∀ e base, s.Aimed p name q newname e base →
    (s.view.ibit p = true ∧ s.view.ibit e.inode = true ∧ s.view.ibit q = true) ∧
    ∀ fit, s.Linkable e.inode q base fit → s.PlainMove p name q newname e base fit

namespace Geom

variable {g : Geom} {gaps : Bool} {s s' : FFS} {t t' : St} {p q i : Nat} {name newname : Str}
  {now now' : UInt64}

/-! ## The two steps -/

/-- Looking a name up in a well-formed directory does not fail. -/
theorem wp_lookup_tidy (hs : g.Rep s t) (h : g.Intact false t) (name : List UInt8)
    (hp : t.ibit p = true) (hdir : (t.ino p).fileType = .directory) :
    Prog.wp (onDevice (s.format.directoryHandler.findEntry (t.ino p) s.format.inodeHandler name))
      (fun r s' => s' = s ∧
        (∀ e b off, r = some (e, b, off) → t.Rec p (b, off) e ∧ e.label = name) ∧
        (r = none → ∀ k e, t.Rec p k e → e.label ≠ name))
      (fun _ _ => False) s := by
  have hm := h.mapped hp
  have hfail : Prog.wp (onDevice (g.directoryHandler.findEntry (t.ino p) g.inodeHandler name))
      (fun _ _ => True) (fun _ _ => False) s := by
    refine Prog.wp_zoom.mpr (Prog.wp_mono
      (wpr_iterate_tidy hm (h.tidy p hp hdir) s.device hs.1) (fun _ _ _ => trivial) ?_)
    intro e d he
    obtain ⟨_, -, he⟩ := he
    exact he
  have hlook := wp_reader hs (readOnly_findEntry _ _ _ _) (wpr_lookup (h.mapped hp) name hp hdir)
  have habsent := wp_reader hs (readOnly_findEntry _ _ _ _) (wpr_absent h hp name)
  rw [hs.2]
  refine Prog.wp_mono (Prog.wp_and hfail (Prog.wp_and hlook habsent)) ?_ fun _ _ he => he.1
  intro r s' hr
  obtain ⟨-, ⟨hs', -, hfound⟩, -, -, hnone⟩ := hr
  exact ⟨hs', hfound, hnone.1⟩

/-- `delete_child` drops the record it finds; it fails when there is none, or when that
is a directory. -/
theorem wp_deleteChild_intact (hs : g.Rep s t) (h : g.Intact false t) (hp : t.ibit p = true)
    (hdir : (t.ino p).fileType = .directory) (hname : name ≠ [dot] ∧ name ≠ [dot, dot])
    (htarget : ∀ k e, t.Rec p k e → e.label = name → t.ibit e.inode = true) :
    Prog.wp (deleteChild name p none now)
      (fun _ s' => ∃ t' k e b', g.Rep s' t' ∧ t.Rec p k e ∧ e.label = name ∧
        (g.Unlinked false t e.inode p k e now b' t' ∨
          g.Removed false t e.inode p k e now b' t'))
      (fun _ s' => g.Rep s' t ∧ ((∀ k e, t.Rec p k e → e.label ≠ name) ∨
        ∃ k e, t.Rec p k e ∧ e.label = name ∧ (t.ino e.inode).fileType = .directory)) s := by
  have hread : (s.format.inodeHandler.readInode p s.device).value? = some (t.ino p) := by
    obtain ⟨d, hd, -⟩ := runs_readInode (h.lt hp) s.device hs.1
    rw [hs.2]
    show (g.inodeHandler.readInode p s.device).value? = _
    rw [hd]
    rfl
  refine Prog.wp_congr (deleteChild_eq hname (hs.isAllocated hp (h.lt hp)) hread hdir) ?_
  refine Prog.wp_seq (wp_lookup_tidy hs h name hp hdir) ?_ fun _ _ he => he.elim
  intro existing s' hexisting
  obtain ⟨rfl, hfound, hnone⟩ := hexisting
  match existing with
  | none => exact ⟨hs, .inl (hnone rfl)⟩
  | some (e, b, off) =>
    obtain ⟨hrec, hlabel⟩ := hfound e b off rfl
    have hlive := htarget _ e hrec hlabel
    have hnamed : e.label ≠ [dot] ∧ e.label ≠ [dot, dot] := hlabel ▸ hname
    refine Prog.wp_bind.mpr ?_
    obtain ⟨d, hd, -⟩ := runs_readInode (h.lt hlive) s'.device hs.1
    have hinode : onDevice (s'.format.inodeHandler.readInode e.inode) s' =
        .ok (t.ino e.inode) s' := by
      refine onDevice_of_value (readOnly_readInode _ _) ?_
      rw [hs.2]
      show (g.inodeHandler.readInode e.inode s'.device).value? = _
      rw [hd]
      rfl
    rw [Prog.wp_of_ok hinode]
    refine Prog.wp_mono (Prog.wp_and (wpr_unlink h hrec rfl hlive hnamed.1
      (fun hl => absurd hl hnamed.2) s' hs) (wp_unlink_refused hs h hrec hlive hnamed)) ?_ ?_
    · intro _ s₁ hok
      obtain ⟨⟨t', hs₁, b', hu⟩, -⟩ := hok
      exact ⟨t', (b, off), e, b', hs₁, hrec, hlabel, hu⟩
    · intro _ s₁ herr
      obtain ⟨⟨t', hs₁, rfl⟩, hdirectory, -⟩ := herr
      exact ⟨hs₁, .inr ⟨_, e, hrec, hlabel, hdirectory⟩⟩

/-- A look-up that leaves the answer to the caller. -/
theorem wp_getDirEntryInode (hs : g.Rep s t) :
    Prog.wp (getDirEntryInode p name)
      (fun r s' => s' = s ∧ s.isAllocated p = some true ∧
        ∃ found, s.findEntry p name = some found ∧ r = found.map fun e => e.1.inode)
      (fun _ s' => s' = s) s := by
  refine wp_getFormat ?_
  refine Prog.wp_seq (wp_readOnly (readOnly_isAllocated _ _)) ?_ fun _ _ he => he
  intro allocated s' hallocated
  obtain ⟨rfl, hallocated⟩ := hallocated
  refine Prog.wp_guard (fun _ => rfl) fun htrue => ?_
  have htrue : allocated = true := not_not.mp htrue
  subst htrue
  refine Prog.wp_seq (wp_inode hs) ?_ fun _ _ he => he
  intro n s₁ hn
  obtain ⟨rfl, rfl⟩ := hn
  refine Prog.wp_seq (wp_readOnly (readOnly_findEntry _ _ _ _)) ?_ fun _ _ he => he
  intro found s₂ hfound
  obtain ⟨rfl, hfound⟩ := hfound
  refine ⟨rfl, hallocated, found, ?_, rfl⟩
  rw [FFS.findEntry, hs.view_eq]
  exact hfound

theorem wp_getInode_value (hs : g.Rep s t) :
    Prog.wp (getInode i) (fun n s' => s' = s ∧ s.isAllocated i = some true ∧ n = t.ino i)
      (fun _ s' => s' = s) s := by
  refine wp_getFormat ?_
  refine Prog.wp_seq (wp_readOnly (readOnly_isAllocated _ _)) ?_ fun _ _ he => he
  intro allocated s' hallocated
  obtain ⟨rfl, hallocated⟩ := hallocated
  refine Prog.wp_guard (fun _ => rfl) fun htrue => ?_
  have htrue : allocated = true := not_not.mp htrue
  subst htrue
  refine Prog.wp_mono (wp_inode hs) ?_ fun _ _ he => he
  intro n s₁ hn
  exact ⟨hn.1, hallocated, hn.2⟩

/-- A link that fails leaves the directories alone. -/
theorem LinkFailed.sameDirs (hf : g.LinkFailed t i q name t') : t.SameDirs t'.toView := by
  cases hf with
  | unchanged => exact .refl _
  | full _ ha =>
      cases ha with
      | refused => exact .refl _
      | inodes => exact .refl _
      | data => exact .refl _
  | @stuck ds _ _ _ =>
      have hibit : (t.taken [] ds).ibit = t.ibit := setBits_nil t.ibit true
      refine ⟨hibit, fun d k e => ?_, fun _ => rfl⟩
      have hsame : t.Same (t.taken [] ds).toView d := ⟨rfl, fun _ _ => rfl⟩
      exact hsame.rec_iff (by rw [hibit])

/-- What a link that was made says about the state before. -/
theorem Linked.linkable {fit : Option (Nat × Nat)} {ds : List Nat} {n' : INode}
    {data' : Region} (hs : g.Rep s t) (h : g.Intact gaps t)
    (hvacant : s.findEntry q (DirEntry.new i .file name).name = some none)
    (hfits : s.canFit q (DirEntry.new i .file name) = some fit)
    (hk : g.Linked t i q name now fit ds n' data' t') : s.Linkable i q name fit := by
  have hview := hs.view_eq
  refine ⟨hvacant, hfits, ?_, ⟨ds, ?_, ?_⟩, ?_, ?_⟩
  · rw [hview, hs.2]
    exact hk.alloc.data_le
  · rw [hview, hs.findData h.cursors, hk.alloc.data_eq]
  · rw [hview]
    exact hk.alloc.data_length
  · intro hnone
    subst hnone
    rw [hview]
    cases hk.entered with
    | grow hmax => exact hmax
  · rw [hview]
    exact hk.links_lt

/-! ## A move -/

section Move

variable {t₁ t₂ : St} {k : Nat × Nat} {e : DirEntry} {fit : Option (Nat × Nat)} {ds : List Nat}
  {n' : INode} {data' : Region} {b' : Block}

/-- The records after a link and the removal of an old record. -/
theorem rec_moved (h : g.Intact false t) (hi : t.ibit i = true) (hq : t.ibit q = true)
    (hqdir : (t.ino q).fileType = .directory) (hrec : t.Rec p k e)
    (hk : g.Linked t i q newname now fit ds n' data' t₁)
    (hsnug : Entered.Snug t.data (DirEntry.new i .file newname) fit)
    (hu : g.Unlinked false t₁ i p k e now' b' t₂) {d : Nat} {k' : Nat × Nat} {x : DirEntry} :
    t₂.Rec d k' x ↔ (t.Rec d k' x ∧ ¬ (d = p ∧ k' = k)) ∨
      (d = q ∧ k' = Entered.place fit ds ∧ x = DirEntry.new i .file newname) := by
  have hroom : Entered.Roomy false t.data (DirEntry.new i .file newname) fit := .inr hsnug
  have h₁ := hk.intact h hi hq hroom
  obtain ⟨hnew, hfree⟩ := hk.rec_new h hi hq hroom hqdir
  have hcut : t₂.Rec d k' x ↔ t₁.Rec d k' x ∧ ¬ (d = p ∧ k' = k) := by
    constructor
    · intro hr
      exact (hu.cut.rec_iff h₁ hr.live).mp hr
    · intro hr
      refine (hu.cut.rec_iff h₁ ?_).mpr hr
      rw [hu.ibit_eq]
      exact hr.1.live
  rw [hcut]
  constructor
  · intro hr
    obtain ⟨hr, hne⟩ := hr
    rcases hk.rec_cases h hi hq hroom hr with ⟨hr, -⟩ | ⟨hd, -, hplace, hx⟩
    · exact .inl ⟨hr, hne⟩
    · exact .inr ⟨hd, hplace, hx⟩
  · intro hr
    rcases hr with ⟨hr, hne⟩ | ⟨rfl, rfl, rfl⟩
    · exact ⟨hk.rec_old h hi hq hsnug hr, hne⟩
    · refine ⟨hnew, fun hsame => ?_⟩
      obtain ⟨rfl, rfl⟩ := hsame
      exact hfree e hrec

/-- A file that is linked and unlinked has moved. -/
theorem moved (h : g.Intact false t) (hwf : g.WellFormed t) (htree : t.Tree)
    (hunique : t.UniqueNames) (hq : t.ibit q = true)
    (hqdir : (t.ino q).fileType = .directory) (hrec : t.Rec p k e)
    (hfile : (t.ino e.inode).fileType = .file)
    (hnamed : newname ≠ [dot] ∧ newname ≠ [dot, dot])
    (hlen : newname.length ≤ DirEntry.MAX_NAME) (hfresh : ∀ x, ¬ t.Entry q newname x)
    (hk : g.Linked t e.inode q newname now fit ds n' data' t₁)
    (hsnug : Entered.Snug t.data (DirEntry.new e.inode .file newname) fit)
    (hu : g.Unlinked false t₁ e.inode p k e now' b' t₂) :
    t.Moved t₂.toView p e.label q newname := by
  have hlive := (hwf.typed hrec).1
  have hmoved : ∀ {d k' x}, t₂.Rec d k' x ↔ (t.Rec d k' x ∧ ¬ (d = p ∧ k' = k)) ∨
      (d = q ∧ k' = Entered.place fit ds ∧ x = DirEntry.new e.inode .file newname) :=
    rec_moved h hlive hq hqdir hrec hk hsnug hu
  have hlabel : (DirEntry.new e.inode .file newname).label = newname := by
    rw [DirEntry.label_new]
    exact List.take_of_length_le hlen
  have hleaf : (t.ino e.inode).fileType ≠ .directory := by
    rw [hfile]
    decide
  have hip : e.inode ≠ p := by
    intro heq
    rw [heq] at hleaf
    exact hleaf hrec.dir
  have hiq : e.inode ≠ q := by
    intro heq
    rw [heq] at hleaf
    exact hleaf hqdir
  have htype : ∀ j, (t₂.ino j).fileType = (t.ino j).fileType := fun j =>
    (hu.cut.fileType j).trans (hk.fileType j)
  have hedge : ∀ {d k' j}, t₂.graph.edge d k' j → t.graph.edge d k' j ∨ j = e.inode := by
    intro d k' j hedge
    obtain ⟨x, hr, hd, hdd, rfl⟩ := hedge
    rcases hmoved.mp hr with ⟨hr, -⟩ | ⟨-, -, rfl⟩
    · exact .inl ⟨x, hr, hd, hdd, rfl⟩
    · exact .inr rfl
  have hnew : t₂.graph.edge q (Entered.place fit ds) e.inode := by
    refine ⟨_, hmoved.mpr (.inr ⟨rfl, rfl, rfl⟩), ?_, ?_, rfl⟩
    · rw [hlabel]
      exact hnamed.1
    · rw [hlabel]
      exact hnamed.2
  refine ⟨hfresh, ?_, ⟨e, DirEntry.new e.inode .file newname, ⟨k, hrec, rfl⟩, ?_⟩, ?_, ?_⟩
  · intro x hx
    obtain ⟨k', hr, hl⟩ := hx
    rcases hmoved.mp hr with ⟨hr, hne⟩ | ⟨rfl, -, rfl⟩
    · -- names are unique, so this is the record that went
      by_cases hpp : k' = k
      · exact hne ⟨rfl, hpp⟩
      · exact hpp (hunique hr hrec hl)
    · rw [hlabel] at hl
      exact hfresh e ⟨k, hrec, hl.symm⟩
  · refine ⟨⟨_, hmoved.mpr (.inr ⟨rfl, rfl, rfl⟩), hlabel⟩, rfl, ?_, ?_, ?_⟩
    · rw [htype, hfile]
      rfl
    · rw [hu.ino_target hip, hk.ino_target hiq]
      exact Nat.add_sub_cancel _ _
    · intro hdir
      rw [htype] at hdir
      exact absurd hdir hleaf
  · intro j hj
    refine Lib.Namespace.Reach.moveLeaf (N := t.graph) (i := e.inode) hleaf ?_ ?_
      (htree.reach q hq hqdir) hqdir hnew hj
    · intro d k' j hedge
      obtain ⟨x, hr, -⟩ := hedge
      exact hr.dir
    · intro d k' j hedge
      obtain ⟨x, hr, hd, hdd, rfl⟩ := hedge
      by_cases hsame : d = p ∧ k' = k
      · obtain ⟨rfl, rfl⟩ := hsame
        exact .inr (by rw [hr.unique hrec])
      · exact .inl ⟨x, hmoved.mpr (.inl ⟨hr, hsame⟩), hd, hdd, rfl⟩
  · have hacyclic : t.graph.Acyclic := htree.acyclic fun hr => (hwf.typed hr).1
    apply hacyclic.mono
    intro d j hstep
    obtain ⟨hdir, k', he⟩ := hstep
    have hdir : (t.ino j).fileType = .directory := (htype j).symm.trans hdir
    rcases hedge he with he | rfl
    · exact ⟨hdir, k', he⟩
    · exact absurd hdir hleaf

end Move

/-- The second half of `rename`, from the state after the link. -/
theorem wp_deleteMoved (hs : g.Rep s t) (hwf : g.WellFormed t) (htree : t.Tree)
    (hlinks : ∀ i, t.ibit i = true → (t.ino i).fileType ≠ .directory → t.LinksExact i)
    (hunique : t.UniqueNames) {e : DirEntry} {k : Nat × Nat} {fit : Option (Nat × Nat)}
    {ds : List Nat} {n' : INode} {data' : Region} {t₁ : St} (hs₁ : g.Rep s' t₁)
    (hrec : t.Rec p k e) (hq : t.ibit q = true) (hqdir : (t.ino q).fileType = .directory)
    (hfile : (t.ino e.inode).fileType = .file)
    (hname : e.label ≠ [dot] ∧ e.label ≠ [dot, dot])
    (hnew : newname ≠ [dot] ∧ newname ≠ [dot, dot])
    (hlen : newname.length ≤ DirEntry.MAX_NAME) (hfresh : ∀ x, ¬ t.Entry q newname x)
    (hk : g.Linked t e.inode q newname now fit ds n' data' t₁)
    (hsnug : Entered.Snug t.data (DirEntry.new e.inode .file newname) fit) :
    Prog.wp (deleteChild e.label p none now')
      (fun _ s₂ => s.view.Moved s₂.view p e.label q newname) (fun _ _ => False) s' := by
  have h := hwf.intact hs
  have hlive := (hwf.typed hrec).1
  have hroom : Entered.Roomy false t.data (DirEntry.new e.inode .file newname) fit :=
    .inr hsnug
  have h₁ := hk.intact h hlive hq hroom
  have hiq : e.inode ≠ q := by
    intro heq
    rw [heq, hqdir] at hfile
    cases hfile
  -- the record is still there, and no other has its name
  have hstill := hk.rec_old h hlive hq hsnug hrec
  have honly : ∀ k' x, t₁.Rec p k' x → x.label = e.label → x = e ∧ k' = k := by
    intro k' x hr hl
    rcases hk.rec_cases h hlive hq hroom hr with ⟨hr, -⟩ | ⟨rfl, -, -, rfl⟩
    · have hkk := hunique hr hrec hl
      subst hkk
      exact ⟨hr.unique hrec, rfl⟩
    · rw [DirEntry.label_new, List.take_of_length_le hlen] at hl
      exact absurd ⟨k, hrec, hl.symm⟩ (hfresh e)
  have htype : (t₁.ino e.inode).fileType = .file := (hk.fileType _).trans hfile
  have hcount : 1 < (t₁.ino e.inode).links := by
    obtain ⟨l, -, hmem, hlength⟩ := hlinks e.inode hlive (by rw [hfile]; decide)
    have hpos : 0 < l.length := List.length_pos_of_mem ((hmem p k).mpr ⟨e, hrec, rfl⟩)
    rw [hk.ino_target hiq]
    show 1 < (t.ino e.inode).links + 1
    omega
  refine Prog.wp_mono (wp_deleteChild_intact hs₁ h₁ (hk.ibit_eq ▸ hrec.live)
    ((hk.fileType p).trans hrec.dir) hname ?_) ?_ ?_
  · intro k' x hr hl
    obtain ⟨rfl, -⟩ := honly k' x hr hl
    rw [hk.ibit_eq]
    exact hlive
  · intro _ s₂ hok
    obtain ⟨t₂, k', x, b', hs₂, hr, hl, hu⟩ := hok
    obtain ⟨rfl, rfl⟩ := honly k' x hr hl
    rcases hu with hu | hu
    · rw [hs.view_eq, hs₂.view_eq]
      exact moved h hwf htree hunique hq hqdir hrec hfile hnew hlen hfresh hk hsnug hu
    · have hlast := hu.last
      omega
  · intro _ s₂ herr
    obtain ⟨-, hnone | ⟨k', x, hr, hl, hdir⟩⟩ := herr
    · exact hnone k e hstill rfl
    · obtain ⟨rfl, -⟩ := honly k' x hr hl
      rw [htype] at hdir
      cases hdir

variable (now') in
/-- The link and the removal, from the checks on. -/
theorem wp_move (hs : g.Rep s t) (hwf : g.WellFormed t) (htree : t.Tree)
    (hlinks : ∀ i, t.ibit i = true → (t.ino i).fileType ≠ .directory → t.LinksExact i)
    (hunique : t.UniqueNames) (hsafe : s.SafeMove p name q newname) {e : DirEntry} {base : Str}
    (ha : s.Aimed p name q newname e base) :
    Prog.wp (linkIn (t.ino e.inode) e.inode newname base (t.ino q) q now)
      (fun _ s₁ => Path.validUtf8 name [] = true ∧ Prog.wp (deleteChild name p none now')
        (fun _ s₂ => s.view.Moved s₂.view p name q newname) (fun _ _ => False) s₁)
      (fun _ s₁ => s.view.SameDirs s₁.view) s := by
  have h := hwf.intact hs
  have hview := hs.view_eq
  obtain ⟨⟨hp, hi, hq⟩, hplain⟩ := hsafe e base ha
  rw [hview] at hp hi hq
  refine Prog.wp_mono (wp_linkIn_intact hs h hi hq) ?_ ?_
  · intro _ s₁ hok
    obtain ⟨t₁, fit, ds, n', data', hs₁, hvacant, hfits, hk⟩ := hok
    obtain ⟨hdir, hfile, hnamed, hutf8, ⟨rfl, hlen⟩, hfresh, hsnug⟩ :=
      hplain fit (hk.linkable hs h hvacant hfits)
    rw [hview] at hdir hfile hfresh hsnug
    have hqdir : (t.ino q).fileType = .directory := by
      have := ha.dir
      rwa [hview] at this
    obtain ⟨b, off, hfound⟩ := ha.found
    -- the record that was found is the one that goes
    have hrec : t.Rec p (b, off) e ∧ e.label = name := by
      rw [FFS.findEntry, hview] at hfound
      obtain ⟨s₂, hrun⟩ := Outcome.value?_eq_some.mp hfound
      have hlook := wp_lookup_tidy hs h name hp hdir
      have hrun : onDevice (s.format.directoryHandler.findEntry (t.ino p)
          s.format.inodeHandler name) s = .ok (some (e, b, off)) s :=
        onDevice_of_value (readOnly_findEntry _ _ _ _) hfound
      exact (hlook.of_ok hrun).2.1 e b off rfl
    obtain ⟨hrec, rfl⟩ := hrec
    obtain ⟨pre, hsplit⟩ := ha.split
    obtain ⟨-, -, hnew⟩ := Path.proper_split hsplit
    exact ⟨hutf8, wp_deleteMoved hs hwf htree hlinks hunique hs₁ hrec hq hqdir hfile hnamed hnew
      hlen hfresh hk hsnug⟩
  · intro _ s₁ herr
    obtain ⟨t₁, hs₁, rfl | ⟨fit, -, hf⟩⟩ := herr
    · rw [hview, hs₁.view_eq]
      exact .refl _
    · rw [hview, hs₁.view_eq]
      exact hf.sameDirs

theorem wp_rename (hs : g.Rep s t) (hwf : g.WellFormed t) (htree : t.Tree)
    (hlinks : ∀ i, t.ibit i = true → (t.ino i).fileType ≠ .directory → t.LinksExact i)
    (hunique : t.UniqueNames) {parent newparent : Nat}
    (hsafe : s.SafeMove (Fuse.v1InodeNumber parent) name (Fuse.v1InodeNumber newparent) newname) :
    Prog.wp (Fuse.rename parent name newparent newname Fuse.RENAME_NOREPLACE now now')
      (fun r s' => match r with
        | .ok _ => s.view.Moved s'.view (Fuse.v1InodeNumber parent) name
            (Fuse.v1InodeNumber newparent) newname
        | .error _ => s.view.SameDirs s'.view)
      (fun _ _ => True) s := by
  have hview := hs.view_eq
  refine Prog.wp_ite (fun heq => absurd heq (by decide)) fun _ => ?_
  refine Prog.wp_ite (fun hne => absurd rfl hne) fun _ => ?_
  refine Prog.wp_bind.mpr (Prog.wp_bind.mpr (Prog.wp_checkedSub fun _ => ?_))
  refine Prog.wp_bind.mpr (Prog.wp_bind.mpr (Prog.wp_checkedSub fun _ => ?_))
  refine Prog.wp_bind.mpr (Prog.wp_attempt (Prog.wp_mono (wp_getDirEntryInode hs) ?_ ?_))
  swap
  · intro _ s' hs'
    subst hs'
    exact .refl _
  intro r s' hr
  obtain ⟨rfl, hparent, found, hfound, rfl⟩ := hr
  match found with
  | none => exact .refl _
  | some (e, b, off) =>
    refine Prog.wp_bind.mpr (Prog.wp_attempt (Prog.wp_mono (wp_getInode_value hs) ?_ ?_))
    swap
    · intro _ s' hs'
      subst hs'
      exact .refl _
    intro n s₁ hn
    obtain ⟨rfl, hsource, rfl⟩ := hn
    refine Prog.wp_bind.mpr (Prog.wp_attempt (Prog.wp_mono (wp_getInode_value hs) ?_ ?_))
    swap
    · intro _ s' hs'
      subst hs'
      exact .refl _
    intro n s₂ hn
    obtain ⟨rfl, hnewparent, rfl⟩ := hn
    refine Prog.wp_ite (fun _ => .refl _) fun hdir => ?_
    have hdir := not_not.mp hdir
    refine Prog.wp_assert fun hutf8 => ?_
    have hutf8 := not_not.mp hutf8
    refine Prog.wp_bind.mpr (Prog.wp_attempt (Prog.wp_bind.mpr (Prog.wp_unwrap ?_)))
    intro split hsplit
    obtain ⟨pre, base⟩ := split
    have ha : s₂.Aimed (Fuse.v1InodeNumber parent) name (Fuse.v1InodeNumber newparent) newname
        e base := by
      refine ⟨hparent, ⟨b, off, hfound⟩, hsource, hnewparent, ?_, hutf8, pre, hsplit⟩
      rw [hview]
      exact hdir
    refine Prog.wp_mono (wp_move now' hs hwf htree hlinks hunique hsafe ha) ?_ ?_
    · intro _ s₃ hok
      obtain ⟨hname, hdelete⟩ := hok
      refine Prog.wp_ite (fun hno => absurd hname hno) fun _ => ?_
      refine Prog.wp_bind.mpr (Prog.wp_attempt (Prog.wp_mono hdelete ?_ fun _ _ he => he.elim))
      intro _ s₄ hmoved
      exact hmoved
    · intro _ s₃ hsame
      exact hsame

end Geom

/-- `rename` moves or does nothing when what it links is a regular file, under a whole and
new name that fits. -/
theorem rename_right {g : Geom} {s : FFS} {t : St} (hs : g.Rep s t) (hwf : g.WellFormed t)
    (htree : t.Tree)
    (hlinks : ∀ i, t.ibit i = true → (t.ino i).fileType ≠ .directory → t.LinksExact i)
    (hunique : t.UniqueNames) (parent : Nat) (name : Str) (newparent : Nat) (newname : Str)
    (now now' : UInt64)
    (hsafe : s.SafeMove (Fuse.v1InodeNumber parent) name (Fuse.v1InodeNumber newparent) newname) :
    s.RenamesRight parent name newparent newname now now' := by
  have hwp := @Geom.wp_rename g s t name newname now now' hs hwf htree hlinks hunique parent
    newparent hsafe
  unfold FFS.RenamesRight
  unfold Prog.wp at hwp
  cases hrun : Fuse.rename parent name newparent newname Fuse.RENAME_NOREPLACE now now' s with
  | ok r s' =>
      rw [hrun] at hwp
      cases r with
      | ok u => exact hwp
      | error e => exact hwp
  | err e s' => trivial
  | panic => trivial

/-! ## Two moves in the root -/

/-- What there is to decide about the move of `/a` to `/b`. -/
structure FFS.MoveFacts (s : FFS) : Prop where
  shallow : s.Shallow
  found : ((s.findEntry 0 [97]).join.any fun x => x.1.inode == 1) = true
  live : s.view.ibit 0 = true ∧ s.view.ibit 1 = true
  types : (s.view.ino 0).fileType = .directory ∧ (s.view.ino 1).fileType = .file
  fresh : ∀ x ∈ s.records, x.dir = 0 → x.entry.label ≠ [98]
  snug : ∀ fit ∈ s.canFit 0 (DirEntry.new 1 .file [98]),
    Entered.Snug s.view.data (DirEntry.new 1 .file [98]) fit
  reply : (Fuse.rename 1 [97] 1 [98] Fuse.RENAME_NOREPLACE 0 0 s).value? = some (.ok ())

set_option synthInstance.maxSize 1024 in
instance {s : FFS} : Decidable s.MoveFacts :=
  decidable_of_iff (_ ∧ _ ∧ _ ∧ _ ∧ _ ∧ _ ∧ _)
    ⟨fun h => ⟨h.1, h.2.1, h.2.2.1, h.2.2.2.1, h.2.2.2.2.1, h.2.2.2.2.2.1, h.2.2.2.2.2.2⟩,
      fun h => ⟨h.shallow, h.found, h.live, h.types, h.fresh, h.snug, h.reply⟩⟩

theorem FFS.MoveFacts.safe {s : FFS} (h : s.MoveFacts) (hb : s.Bounded) :
    s.SafeMove 0 [97] 0 [98] := by
  intro e base ha
  obtain ⟨b, off, hfound⟩ := ha.found
  have he : e.inode = 1 := by
    have := h.found
    rw [hfound] at this
    exact beq_iff_eq.mp this
  have hbase : base = [98] := by
    obtain ⟨pre, hsplit⟩ := ha.split
    have : Path.split [98] = some ([], [98]) := by decide
    rw [this] at hsplit
    cases hsplit
    rfl
  subst hbase
  rw [he]
  refine ⟨⟨h.live.1, h.live.2, h.live.1⟩, fun fit hlink => ?_⟩
  refine ⟨h.types.1, ?_, by decide, by decide, ⟨rfl, by decide⟩, ?_, ?_⟩
  · rw [he]
    exact h.types.2
  · intro x hx
    obtain ⟨k, hr, hl⟩ := hx
    exact h.fresh _ (FFS.mem_records_of_rec hb hr) rfl hl
  · rw [he]
    exact h.snug fit hlink.fits

/-- The file `/a` moves to `/b`. -/
theorem rename_right_file : ∃ (g : Geom) (s : FFS) (t : St), g.Rep s t ∧ g.WellFormed t ∧
    t.Tree ∧ s.SafeMove 0 [97] 0 [98] ∧
    (Fuse.rename 1 [97] 1 [98] Fuse.RENAME_NOREPLACE 0 0 s).value? = some (.ok ()) ∧
    s.RenamesRight 1 [97] 1 [98] 0 0 := by
  have hfacts : ((start 0 (MemoryDevice.empty 14)).bind
      (checked (fun s op => op.Tame s) [.createFile [47, 97] 0])).any
        (fun s => decide s.MoveFacts) = true := by
    decide +kernel
  obtain ⟨s, hs, hfacts⟩ := (Option.any_eq_true _ _).mp hfacts
  obtain ⟨s₀, hstart, hchecked⟩ := Option.bind_eq_some_iff.mp hs
  have hf : s.MoveFacts := decide_eq_true_eq.mp hfacts
  obtain ⟨g, t, -, hst, h, -⟩ := Geom.tame_run hstart (run_of_checked hchecked)
  obtain ⟨hwf, htree, hlinks, hunique⟩ := h.toIntact.shallow hst hf.shallow
  have hsafe := hf.safe ((hwf.intact hst).bounded hst)
  exact ⟨g, s, t, hst, hwf, htree, hsafe, hf.reply,
    rename_right hst hwf htree hlinks hunique 1 [97] 1 [98] 0 0 hsafe⟩

/-- Every record called `e` in the root is typed as a file, and names inode 1. -/
def FFS.MistypedAsFile (s : FFS) : Prop :=
  0 < s.format.inodeAllocator.maxIndex ∧ (s.view.ino 1).fileType = .directory ∧
    ∀ x ∈ s.records, x.dir = 0 → x.entry.label = [101] → x.entry.inode = 1 ∧
      x.entry.fileType = .file

set_option synthInstance.maxSize 1024 in
instance {s : FFS} : Decidable s.MistypedAsFile := inferInstanceAs (Decidable (_ ∧ _ ∧ _))

/-- The empty directory `/d` is moved to `/e`: the answer is ok, and the new record says
that it is a file. -/
theorem rename_directory : ∃ (g : Geom) (s : FFS) (t : St), g.Rep s t ∧ g.WellFormed t ∧
    t.Tree ∧ (∀ i, t.ibit i = true → (t.ino i).fileType ≠ .directory → t.LinksExact i) ∧
    t.UniqueNames ∧ ¬ s.RenamesRight 1 [100] 1 [101] 0 0 := by
  have hfacts : ((start 0 (MemoryDevice.empty 14)).bind
      (checked (fun s op => op.Tame s) [.createDirectory [47, 100] 0])).any
        (fun s => decide s.Shallow &&
          (Fuse.rename 1 [100] 1 [101] Fuse.RENAME_NOREPLACE 0 0 s).passes fun r s' =>
            r.isOk && decide s'.MistypedAsFile) = true := by
    decide +kernel
  obtain ⟨s, hs, hfacts⟩ := (Option.any_eq_true _ _).mp hfacts
  obtain ⟨s₀, hstart, hchecked⟩ := Option.bind_eq_some_iff.mp hs
  simp only [Bool.and_eq_true, decide_eq_true_eq] at hfacts
  obtain ⟨hshallow, hfacts⟩ := hfacts
  obtain ⟨g, t, -, hst, h, -⟩ := Geom.tame_run hstart (run_of_checked hchecked)
  obtain ⟨hwf, htree, hlinks, hunique⟩ := h.toIntact.shallow hst hshallow
  refine ⟨g, s, t, hst, hwf, htree, hlinks, hunique, fun hright => ?_⟩
  unfold FFS.RenamesRight at hright
  obtain ⟨r, s', hrun, hmoved⟩ := Outcome.passes_iff.mp hfacts
  rw [hrun] at hright
  obtain ⟨hr, hmistyped⟩ := Bool.and_eq_true_iff.mp hmoved
  cases r with
  | error e => cases hr
  | ok u =>
    obtain ⟨hpos, hdir, hfile⟩ := decide_eq_true_eq.mp hmistyped
    obtain ⟨e, e', -, ha⟩ := hright.arrived
    obtain ⟨k, hr, hlabel⟩ := ha.entry
    obtain ⟨hinode, htype⟩ := hfile _ (FFS.mem_records_of_lt hpos hr) rfl hlabel
    have hone : e.inode = 1 := ha.inode.symm.trans hinode
    have htypes := ha.fileType
    rw [hone, hdir] at htypes
    exact FileType.noConfusion (htype.symm.trans htypes)

end FerrisFS
