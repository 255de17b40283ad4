import FerrisFS.Fuse.Moves

/-!
# Runs of requests

A mounted filesystem answers one request after the other. Most requests only read; what the
others change is put together from calls, so that a run of fair requests keeps what a session
keeps.
-/

namespace FerrisFS

open Lib Lib.Prog DirectoryHandler INodeTableHandler FormatV1 Fuse

/-! ## Requests that only read -/

theorem readOnly_onDevice {α : Type} {m : DevM α} (h : ReadOnly m) : ReadOnly (onDevice m) :=
  .zoom (fun _ => rfl) h

theorem readOnly_getFormat : ReadOnly getFormat := fun _ => rfl

/-- The bit of an inode is checked before it is read. -/
theorem readOnly_getInode (i : Nat) : ReadOnly (getInode i) :=
  .bind readOnly_getFormat fun _ => .bind (readOnly_onDevice (readOnly_isAllocated _ _)) fun _ =>
    .guard fun _ => readOnly_onDevice (readOnly_readInode _ _)

theorem readOnly_getDirEntryInode (p : Nat) (name : List UInt8) :
    ReadOnly (getDirEntryInode p name) :=
  .bind readOnly_getFormat fun _ => .bind (readOnly_onDevice (readOnly_isAllocated _ _)) fun _ =>
    .guard fun _ => .bind (readOnly_onDevice (readOnly_readInode _ _)) fun _ =>
      .bind (readOnly_onDevice (readOnly_findEntry _ _ _ _)) fun _ => .pure _

theorem readOnly_getDirectoryFromInode (n : INode) (i : Nat) :
    ReadOnly (getDirectoryFromInode n i) := by
  unfold getDirectoryFromInode
  exact .guard fun _ => .bind readOnly_getFormat fun _ =>
    .bind (readOnly_onDevice (readOnly_iterateBlocks _ _ _ _ _ _)) fun _ => .pure _

theorem readOnly_readSymlink (i : Nat) (buf : Block) : ReadOnly (readSymlink i buf) :=
  .bind readOnly_getFormat fun _ => .bind (readOnly_onDevice (readOnly_isAllocated _ _)) fun _ =>
    .guard fun _ => .bind (readOnly_onDevice (readOnly_readInode _ _)) fun _ =>
      .guard fun _ => .ite (.pure _) (.bind (readOnly_onDevice (readOnly_readBlock _)) fun _ =>
        .pure _)

theorem readOnly_toV1InodeNumber (ino : Nat) : ReadOnly (toV1InodeNumber ino) :=
  .bind (.checkedSub _ _) fun _ => .pure _

theorem readOnly_getattr (ino : Nat) : ReadOnly (getattr ino) := by
  refine .bind (readOnly_toV1InodeNumber ino) fun i => .bind (.attempt (readOnly_getInode i)) ?_
  intro r
  cases r with
  | error e => exact .pure _
  | ok n => exact .bind (Geom.readOnly_fileAttr n ino) fun _ => .pure _

theorem readOnly_opendir (ino : Nat) : ReadOnly (opendir ino) := by
  refine .bind (readOnly_toV1InodeNumber ino) fun i => .bind (.attempt (readOnly_getInode i)) ?_
  intro r
  cases r with
  | error e => exact .pure _
  | ok n => exact .ite (.pure _) (.pure _)

theorem readOnly_addEntries (full : ReplyDirectory) (es : List DirEntry) (i : Nat)
    (reply : List DirItem) : ReadOnly (addEntries full es i reply) := by
  induction es generalizing i reply with
  | nil => exact .pure _
  | cons e rest ih =>
      exact .bind (.checkedAdd _ _ _) fun ino => .ite (.pure _) (ih _ _)

theorem readOnly_readdir (ino offset : Nat) (full : ReplyDirectory) :
    ReadOnly (readdir ino offset full) := by
  refine .bind (readOnly_toV1InodeNumber ino) fun i => .bind (.attempt (readOnly_getInode i)) ?_
  intro r
  cases r with
  | error e => exact .pure _
  | ok n =>
      refine .ite (.pure _) (.bind (.attempt (readOnly_getDirectoryFromInode n i)) ?_)
      intro r'
      cases r' with
      | error e => exact .pure _
      | ok x => exact .bind (readOnly_addEntries _ _ _ _) fun _ => .pure _

theorem readOnly_lookup (parent : Nat) (name : List UInt8) : ReadOnly (lookup parent name) := by
  refine .bind (readOnly_toV1InodeNumber parent) fun p =>
    .bind (.attempt (readOnly_getDirEntryInode p name)) ?_
  intro r
  match r with
  | .error e => exact .pure _
  | .ok none => exact .pure _
  | .ok (some i) =>
      refine .bind (.attempt (readOnly_getInode i)) ?_
      intro r'
      cases r' with
      | error e => exact .pure _
      | ok n =>
          exact .bind (.checkedAdd _ _ _) fun _ =>
            .bind (Geom.readOnly_fileAttr n _) fun _ => .pure _

theorem readOnly_readlink (ino : Nat) : ReadOnly (readlink ino) := by
  refine .bind (readOnly_toV1InodeNumber ino) fun i =>
    .bind (.attempt (readOnly_readSymlink i Block.zero)) ?_
  intro r
  match r with
  | .error e => exact .pure _
  | .ok (len, buf) => exact .assert fun _ => .pure _

theorem readOnly_sync : ReadOnly sync := by
  refine .bind (.attempt (readOnly_onDevice (.pure _))) ?_
  intro r
  cases r with
  | error e => exact .pure _
  | ok u => exact .pure _

namespace Geom

variable {g : Geom} {gaps resizes : Bool} {s s' : FFS} {t t' : St} {i : Nat} {now : UInt64}
  {op : Op}

/-! ## Requests on handles -/

/-- Calls on handles are careful, and enter nothing. -/
theorem upright_of_handle (hs : g.Rep s t) (h : g.Upright gaps t)
    (hop : op.OnHandle ∨ ∃ id, op = .closeFile id) (hstep : Step s op s') :
    ∃ t', g.Rep s' t' ∧ g.Upright gaps t' := by
  have hnames : ¬ op.Names := by
    rcases hop with hop | ⟨id, rfl⟩
    · cases op <;> first | exact fun h => h | exact hop.elim
    · exact fun h => h
  have hsane : op.Sane s := by
    cases op <;> first | trivial | exact (hnames trivial).elim
  refine upright_of_step hs h ⟨hsane, fun i hdel => ?_⟩ (.inr fun p e fit he => ?_) hstep
  · exact (hnames (names_of_deletes hdel)).elim
  · cases he with
    | create hc => exact (hnames (names_of_creates hc)).elim
    | link hl => exact (hnames (names_of_links hl)).elim

theorem upright_of_attempt {α : Type} {m : FsM α} {r : Except FSError α} (op : Op)
    (hs : g.Rep s t) (h : g.Upright gaps t) (hop : op.OnHandle) (hexec : op.exec = ignoreResult m)
    (hrun : Prog.attempt m s = .ok r s') : ∃ t', g.Rep s' t' ∧ g.Upright gaps t' := by
  refine upright_of_handle hs h (.inl hop) ?_
  rw [Step, hexec, state?_ignoreResult]
  exact Prog.state?_of_attempt hrun

theorem upright_of_read {fh size : Nat} {offset : UInt64} {r : Except Errno (List UInt8)}
    (hs : g.Rep s t) (h : g.Upright gaps t) (hrun : Fuse.read fh offset size s = .ok r s') :
    ∃ t', g.Rep s' t' ∧ g.Upright gaps t' := by
  obtain ⟨r₁, s₁, hseek, hrest⟩ := of_ok_bind hrun
  obtain ⟨t₁, hs₁, h₁⟩ :=
    upright_of_attempt (.seek (fh % U32) (.start offset)) hs h trivial rfl hseek
  cases r₁ with
  | error e =>
      cases hrest
      exact ⟨t₁, hs₁, h₁⟩
  | ok p =>
      obtain ⟨r₂, s₂, hread, hreply⟩ := of_ok_bind hrest
      have hend := upright_of_attempt (.read (fh % U32) size) hs₁ h₁ trivial rfl hread
      cases r₂ <;> (cases hreply; exact hend)

theorem upright_of_write {fh : Nat} {offset : UInt64} {data : List UInt8} {r : Except Errno Nat}
    (hs : g.Rep s t) (h : g.Upright gaps t)
    (hrun : Fuse.write fh offset data now s = .ok r s') :
    ∃ t', g.Rep s' t' ∧ g.Upright gaps t' := by
  obtain ⟨r₁, s₁, hseek, hrest⟩ := of_ok_bind hrun
  obtain ⟨t₁, hs₁, h₁⟩ :=
    upright_of_attempt (.seek (fh % U32) (.start offset)) hs h trivial rfl hseek
  cases r₁ with
  | error e =>
      cases hrest
      exact ⟨t₁, hs₁, h₁⟩
  | ok p =>
      obtain ⟨r₂, s₂, hwrite, hreply⟩ := of_ok_bind hrest
      have hend := upright_of_attempt (.write (fh % U32) data now) hs₁ h₁ trivial rfl hwrite
      cases r₂ <;> (cases hreply; exact hend)

theorem upright_of_release {fh : Nat} {r : Reply} (hs : g.Rep s t) (h : g.Upright gaps t)
    (hrun : release fh s = .ok r s') : ∃ t', g.Rep s' t' ∧ g.Upright gaps t' := by
  obtain ⟨r₁, s₁, hclose, hreply⟩ := of_ok_bind hrun
  have hstep : Step s (.closeFile (fh % U32)) s₁ := Prog.state?_of_attempt hclose
  have hend := upright_of_handle hs h (.inr ⟨fh % U32, rfl⟩) hstep
  cases r₁ <;> (cases hreply; exact hend)

/-- A file that is opened is an allocated one. -/
theorem wp_openFileFromInode_live (hs : g.Rep s t) (hbit : i < 2048 * g.inodeBitmapBlocks) :
    wp (openFileFromInode i) (fun id s' => t.IsFile i ∧ id = t.nextFileId ∧ g.Rep s' (t.opened i))
      (fun _ s' => s' = s) s := by
  have hfile : wp (openFileFromInode i) (fun id _ => t.IsFile i ∧ id = t.nextFileId)
      (fun _ _ => True) s := by
    refine wp_getFormat (wp_allocated hs hbit (fun _ => trivial) fun hlive => ?_)
    refine wp_seq (wp_readInode_lt hs) ?_ fun _ _ _ => trivial
    intro n s' hn
    obtain ⟨rfl, rfl, hi⟩ := hn
    refine wp_guard (fun _ => trivial) fun hfile => ?_
    refine wp_bind.mpr (wp_checkedAdd fun _ => wp_bind.mpr ?_)
    refine ⟨⟨hlive hi, not_not.mp hfile⟩, ?_⟩
    rw [hs.2]
    rfl
  refine wp_mono (wp_and hfile (wp_openFileFromInode hs)) ?_ fun _ _ he => he.2
  intro id s' hend
  exact ⟨hend.1.1, hend.1.2, hend.2⟩

theorem upright_of_openFile {r : Except FSError Nat} (hs : g.Rep s t) (h : g.Upright gaps t)
    (hbit : i < 2048 * g.inodeBitmapBlocks)
    (hrun : Prog.attempt (openFileFromInode i) s = .ok r s') :
    ∃ t', g.Rep s' t' ∧ g.Upright gaps t' := by
  have hend := Prog.of_ok_attempt hrun
  cases r with
  | error e =>
      cases (wp_openFileFromInode_live hs hbit).of_err hend
      exact ⟨t, hs, h⟩
  | ok id =>
      obtain ⟨hfile, -, hs'⟩ := (wp_openFileFromInode_live hs hbit).of_ok hend
      exact ⟨_, hs', h.opened hfile.1 hfile.2⟩

theorem upright_of_openIno {ino : Nat} {r : Except Errno Nat} (hs : g.Rep s t)
    (h : g.Upright gaps t) (hbit : s.HasBit (v1InodeNumber ino))
    (hrun : openIno ino s = .ok r s') : ∃ t', g.Rep s' t' ∧ g.Upright gaps t' := by
  obtain ⟨q, s₁, hq, hrest⟩ := of_ok_bind hrun
  clear hrun
  obtain ⟨rfl, rfl⟩ := toV1InodeNumber_ok hq
  obtain ⟨r₁, s₂, hopen, hreply⟩ := of_ok_bind hrest
  have hend := upright_of_openFile hs h (hs.hasBit hbit) hopen
  cases r₁ <;> (cases hreply; exact hend)

/-- `create` makes a file as `mknod` does, and then opens it. -/
theorem upright_of_create {parent : Nat} {name : Str} {mode : UInt32}
    {r : Except ReplyErrno (Entry × Nat)} (hs : g.Rep s t) (h : g.Upright gaps t)
    (hc : s.Creatable gaps .file parent name now)
    (hrun : create parent name mode now s = .ok r s') : ∃ t', g.Rep s' t' ∧ g.Upright gaps t' := by
  obtain ⟨q, s₁, hq, hrest⟩ := of_ok_bind hrun
  clear hrun
  obtain ⟨rfl, rfl⟩ := toV1InodeNumber_ok hq
  split at hrest
  · cases hrest
    exact ⟨t, hs, h⟩
  split at hrest
  · cases hrest
    exact ⟨t, hs, h⟩
  obtain ⟨r₁, s₂, hattempt, hopen⟩ := of_ok_bind hrest
  clear hrest
  have hmoved : Moved gaps false s₁ s₂ :=
    moved_createChild hs hc (Prog.state?_of_attempt hattempt)
  have hend := Prog.of_ok_attempt hattempt
  obtain ⟨t₂, hs₂, h₂⟩ := upright_of_moved hs h hmoved
  cases r₁ with
  | error e =>
      cases hopen
      exact ⟨t₂, hs₂, h₂⟩
  | ok x =>
    obtain ⟨n, i⟩ := x
    obtain ⟨t₂', fit, ds, n', data', hs₂', hdir, -, rfl, hcr⟩ :=
      created_of_createChild hs h.toInv (hs.hasBit hc.hasBit) hend
    obtain rfl := hs₂'.unique hs₂
    obtain ⟨ino, s₃, hino, hattr⟩ := of_ok_bind hopen
    obtain ⟨-, rfl⟩ := fromV1InodeNumber_ok hino
    obtain ⟨attr, s₄, hread, hattempt'⟩ := of_ok_bind hattr
    obtain rfl := (readOnly_fileAttr _ _).of_ok hread
    obtain ⟨r₂, s₅, hfile, hreply⟩ := of_ok_bind hattempt'
    have hbit := hs₂.ibit_lt (hcr.ibit_iff.mpr (.inr rfl))
    have hopened := upright_of_openFile hs₂ h₂ hbit hfile
    cases r₂ <;> (cases hreply; exact hopened)

/-! ## One request -/

/-- The handler's outcome is the answer's. -/
theorem of_answer {ε α : Type} {err : ε → ReplyErrno} {f : α → Response} {m : FsM (Except ε α)}
    {a : Response} (h : answer err f m s = .ok a s') : ∃ r, m s = .ok r s' ∧ match r with
      | .error e => a = .error (err e)
      | .ok x => a = f x := by
  obtain ⟨r, s₁, hm, hreply⟩ := of_ok_bind h
  cases r with
  | error e =>
      cases hreply
      exact ⟨_, hm, rfl⟩
  | ok x =>
      cases hreply
      exact ⟨_, hm, rfl⟩

/-- An answered request leaves the filesystem as it should be. -/
theorem upright_of_serve {req : Request} {a : Response} (hs : g.Rep s t) (h : g.Upright gaps t)
    (hfair : req.Fair gaps s) (hserve : serve req s = .ok a s') :
    ∃ t', g.Rep s' t' ∧ g.Upright gaps t' := by
  have hread : ∀ {ε α : Type} {m : FsM (Except ε α)} {r : Except ε α}, ReadOnly m →
      m s = .ok r s' → ∃ t', g.Rep s' t' ∧ g.Upright gaps t' := by
    intro ε α m r hro hrun
    obtain rfl := hro.of_ok hrun
    exact ⟨t, hs, h⟩
  have hmoved : Moved gaps true s s' → ∃ t', g.Rep s' t' ∧ g.Upright gaps t' :=
    upright_of_moved hs h
  cases req with
  | getattr ino =>
      obtain ⟨r, hrun, -⟩ := of_answer hserve
      exact hread (readOnly_getattr ino) hrun
  | setattr ino mode size mtime ctime now =>
      obtain ⟨r, hrun, -⟩ := of_answer hserve
      exact hmoved (moved_setattr hs h hfair (.inl rfl) hrun)
  | opendir ino =>
      obtain ⟨r, hrun, -⟩ := of_answer hserve
      exact hread (readOnly_opendir ino) hrun
  | readdir ino offset full =>
      obtain ⟨r, hrun, -⟩ := of_answer hserve
      exact hread (readOnly_readdir ino offset full) hrun
  | mkdir parent name now =>
      obtain ⟨r, hrun, -⟩ := of_answer hserve
      exact hmoved (moved_mkdir hs hfair hrun)
  | lookup parent name =>
      obtain ⟨r, hrun, -⟩ := of_answer hserve
      exact hread (readOnly_lookup parent name) hrun
  | rmdir parent name now =>
      obtain ⟨r, hrun, -⟩ := of_answer hserve
      exact hmoved (moved_removeChild hs h hfair (.inl rfl) hrun)
  | fsyncdir =>
      obtain ⟨r, hrun, -⟩ := of_answer hserve
      exact hread readOnly_sync hrun
  | releasedir =>
      obtain ⟨r, hrun, -⟩ := of_answer hserve
      exact hread (.pure _) hrun
  | readlink ino =>
      obtain ⟨r, hrun, -⟩ := of_answer hserve
      exact hread (readOnly_readlink ino) hrun
  | symlink parent linkName target now now' =>
      obtain ⟨r, hrun, -⟩ := of_answer hserve
      exact hmoved (moved_symlink hs h hfair hrun)
  | access =>
      obtain ⟨r, hrun, -⟩ := of_answer hserve
      exact hread (.pure _) hrun
  | mknod parent name mode now =>
      obtain ⟨r, hrun, -⟩ := of_answer hserve
      exact hmoved (moved_mknod hs hfair hrun)
  | unlink parent name now =>
      obtain ⟨r, hrun, -⟩ := of_answer hserve
      exact hmoved (moved_removeChild hs h hfair.1 (.inr hfair.2) hrun)
  | link ino newparent newname now =>
      obtain ⟨r, hrun, -⟩ := of_answer hserve
      exact hmoved (moved_link hs hfair.1 hfair.2.1 hfair.2.2 hrun)
  | rename parent name newparent newname flags now now' =>
      obtain ⟨r, hrun, -⟩ := of_answer hserve
      exact hmoved (moved_rename hs h hfair.1 hfair.2.1 hfair.2.2 hrun)
  | create parent name mode now =>
      obtain ⟨r, hrun, -⟩ := of_answer hserve
      exact upright_of_create hs h hfair hrun
  | openIno ino =>
      obtain ⟨r, hrun, -⟩ := of_answer hserve
      exact upright_of_openIno hs h hfair hrun
  | read fh offset size =>
      obtain ⟨r, hrun, -⟩ := of_answer hserve
      exact upright_of_read hs h hrun
  | write fh offset data now =>
      obtain ⟨r, hrun, -⟩ := of_answer hserve
      exact upright_of_write hs h hrun
  | flush =>
      obtain ⟨r, hrun, -⟩ := of_answer hserve
      exact hread (.pure _) hrun
  | release fh =>
      obtain ⟨r, hrun, -⟩ := of_answer hserve
      exact upright_of_release hs h hrun
  | fsync =>
      obtain ⟨r, hrun, -⟩ := of_answer hserve
      exact hread readOnly_sync hrun

end Geom

/-- The states that answered requests lead to from `s`. -/
inductive Served (ok : FFS → Request → Prop) (s : FFS) : FFS → Prop where
  | nil : Served ok s s
  | snoc {s' s'' : FFS} {req : Request} {a : Response} (h : Served ok s s') (hok : ok s' req)
      (hserve : serve req s' = .ok a s'') : Served ok s s''

theorem Geom.upright_of_served {g : Geom} {gaps : Bool} {s s' : FFS} {t : St}
    (h : Served (fun s req => req.Fair gaps s) s s') (hs : g.Rep s t) (ht : g.Upright gaps t) :
    ∃ t', g.Rep s' t' ∧ g.Upright gaps t' := by
  induction h with
  | nil => exact ⟨t, hs, ht⟩
  | snoc _ hfair hserve ih =>
      obtain ⟨t₁, hs₁, h₁⟩ := ih
      exact upright_of_serve hs₁ h₁ hfair hserve

/-! ## Concrete runs -/

section

variable {gaps : Bool} {s : FFS} {ft : FileType} {parent : Nat} {name : Str} {now : UInt64}

instance {op : Op} : Decidable (op.Roomy gaps s) :=
  inferInstanceAs (Decidable (gaps = true ∨ op.Snug s))

instance : Decidable (s.Creatable gaps ft parent name now) :=
  decidable_of_iff (s.HasBit (v1InodeNumber parent) ∧ name ≠ [dot] ∧ name ≠ [dot, dot] ∧
      (Op.createChild ft name (v1InodeNumber parent) now).Roomy gaps s)
    ⟨fun h => ⟨h.1, h.2.1, h.2.2.1, h.2.2.2⟩,
      fun h => ⟨h.hasBit, h.notDot, h.notDots, h.roomy⟩⟩

end

/-- Requests that delete nothing and link nothing, and are fair. -/
def Fuse.Request.plain (gaps : Bool) (s : FFS) : Request → Bool
  | .mkdir parent name now => decide (s.Creatable gaps .directory parent name now)
  | .symlink parent name _ now _ => decide (s.Creatable gaps .symlink parent name now)
  | .mknod parent name _ now => decide (s.Creatable gaps .file parent name now)
  | .create parent name _ now => decide (s.Creatable gaps .file parent name now)
  | .openIno ino => decide (s.HasBit (v1InodeNumber ino))
  | .getattr _ | .readdir _ _ _ | .lookup _ _ | .readlink _ | .read _ _ _ | .write _ _ _ _
  | .release _ => true
  | _ => false

theorem Fuse.Request.fair_of_plain {gaps : Bool} {s : FFS} {req : Request}
    (h : req.plain gaps s = true) : req.Fair gaps s := by
  cases req with
  | mkdir => exact (of_decide_eq_true h : s.Creatable gaps _ _ _ _)
  | symlink => exact (of_decide_eq_true h : s.Creatable gaps _ _ _ _)
  | mknod => exact (of_decide_eq_true h : s.Creatable gaps _ _ _ _)
  | create => exact (of_decide_eq_true h : s.Creatable gaps _ _ _ _)
  | openIno => exact (of_decide_eq_true h : s.HasBit _)
  | setattr => cases h
  | rmdir => cases h
  | unlink => cases h
  | link => cases h
  | rename => cases h
  | _ => trivial

/-- The state after the requests, if each of them is as wanted and answered. -/
def answered (ok : FFS → Request → Bool) : List Request → FFS → Option FFS
  | [], s => some s
  | req :: rest, s =>
      if ok s req then
        match serve req s with
        | .ok _ s' => answered ok rest s'
        | _ => none
      else none

theorem Served.imp {ok ok' : FFS → Request → Prop} {s s' : FFS} (h : Served ok s s')
    (hok : ∀ s req, ok s req → ok' s req) : Served ok' s s' := by
  induction h with
  | nil => exact .nil
  | snoc _ hreq hserve ih => exact ih.snoc (hok _ _ hreq) hserve

theorem Served.cons {ok : FFS → Request → Prop} {s s₁ s' : FFS} {req : Request} {a : Response}
    (hok : ok s req) (hserve : serve req s = .ok a s₁) (h : Served ok s₁ s') : Served ok s s' := by
  induction h with
  | nil => exact .snoc .nil hok hserve
  | snoc _ hcall hend ih => exact .snoc ih hcall hend

theorem served_of_answered {ok : FFS → Request → Bool} {s' : FFS} :
    ∀ {reqs : List Request} {s : FFS}, answered ok reqs s = some s' →
      Served (fun s req => ok s req = true) s s'
  | [], s, h => by
      cases h
      exact .nil
  | req :: rest, s, h => by
      unfold answered at h
      split at h
      · rename_i hreq
        split at h
        · rename_i a s₁ hserve
          exact .cons hreq hserve (served_of_answered h)
        · cases h
      · cases h

end FerrisFS
