import FerrisFS.V1.Files

/-!
# Steps of a mounted filesystem

The operations as one type, what an operation is aimed at in the state it meets,
and what it does to that state: `Effect` lists every way a call can end, and
`effect_of_step` says that there are no others.
-/

namespace FerrisFS

open Lib DirectoryHandler INodeTableHandler FormatV1

/-- Calls of the public operations. `now` is what the clock answers. -/
inductive Op where
  | createFile (path : Str) (now : UInt64)
  | createDirectory (path : Str) (now : UInt64)
  | createSymlink (path target : Str) (now now' : UInt64)
  | createHardlink (src dst : Str) (now : UInt64)
  | delete (path : Str) (now : UInt64)
  | createChild (fileType : FileType) (filename : Str) (parent : Nat) (now : UInt64)
  | createChildHardlink (inode : Nat) (dst : Str) (parent : Nat) (now : UInt64)
  | deleteChild (filename : Str) (parent : Nat) (fileType : Option FileType) (now : UInt64)
  | openFile (path : Str)
  | closeFile (id : Nat)
  | seek (id : Nat) (pos : SeekFrom)
  | read (id len : Nat)
  | write (id : Nat) (buf : List UInt8) (now : UInt64)
  | truncate (id : Nat) (size now : UInt64)

/-- Only the state matters, not the result. -/
def ignoreResult {α : Type} (m : FsM α) : FsM Unit := do
  let _ ← m
  pure ()

/-- The call. `create_child_hardlink` gets the inodes from its caller, which reads
them with `get_inode`. -/
def Op.exec : Op → FsM Unit
  | .createFile path now => FormatV1.createFile path now
  | .createDirectory path now => FormatV1.createDirectory path now
  | .createSymlink path target now now' => FormatV1.createSymlink path target now now'
  | .createHardlink src dst now => FormatV1.createHardlink src dst now
  | .delete path now => FormatV1.delete path now
  | .createChild fileType filename parent now =>
      ignoreResult (FormatV1.createChild fileType filename parent now)
  | .createChildHardlink inode dst parent now => do
      let source ← getInode inode
      let parentInode ← getInode parent
      FormatV1.createChildHardlink source inode dst parentInode parent now
  | .deleteChild filename parent fileType now =>
      FormatV1.deleteChild filename parent fileType now
  | .openFile path => ignoreResult (FormatV1.openFile path)
  | .closeFile id => FormatV1.closeFile id
  | .seek id pos => ignoreResult (FormatV1.seek id pos)
  | .read id len => ignoreResult (FormatV1.read id len)
  | .write id buf now => ignoreResult (FormatV1.write id buf now)
  | .truncate id size now => FormatV1.truncate id size now

/-- The call ends, in a result or an error, and leaves `s'`. -/
def Step (s : FFS) (op : Op) (s' : FFS) : Prop := (op.exec s).state? = some s'

/-! ## What a call is aimed at -/

/-- `op` creates `name` in the inode `p`, unless it fails. -/
inductive Creates (s : FFS) : Op → Nat → FileType → Str → UInt64 → Prop where
  | file {path parent name now r} (hsplit : Path.split path = some (parent, name))
      (hr : s.resolve parent true = some r) :
      Creates s (.createFile path now) r.targetInodeIndex .file name now
  | directory {path parent name now r} (hsplit : Path.split path = some (parent, name))
      (hr : s.resolve parent true = some r) :
      Creates s (.createDirectory path now) r.targetInodeIndex .directory name now
  | symlink {path target parent name now now' r}
      (hsplit : Path.split path = some (parent, name))
      (hr : s.resolve parent true = some r) :
      Creates s (.createSymlink path target now now') r.targetInodeIndex .symlink name now
  | child {fileType name p now} : Creates s (.createChild fileType name p now) p fileType name now

/-- `op` links `name` in the inode `p` to the inode `i`, unless it fails. -/
inductive Links (s : FFS) : Op → Nat → Nat → Str → UInt64 → Prop where
  | path {src dst parent name now a r} (ha : s.resolve (Path.components src) true = some a)
      (hfile : a.targetInode.fileType = .file)
      (hsplit : Path.split dst = some (parent, name)) (hr : s.resolve parent true = some r) :
      Links s (.createHardlink src dst now) a.targetInodeIndex r.targetInodeIndex name now
  | child {i dst parent name p now} (hsplit : Path.split dst = some (parent, name)) :
      Links s (.createChildHardlink i dst p now) i p name now

/-- `op` enters `entry` in the inode `p`, unless it fails. -/
inductive Enters (s : FFS) (op : Op) (p : Nat) : DirEntry → Prop where
  | create {ft name now} (h : Creates s op p ft name now) : Enters s op p (newEntry ft name)
  | link {i name now} (h : Links s op i p name now) : Enters s op p (DirEntry.new i .file name)

/-- `op` asks the allocator for `n` inodes and `k` data blocks, if it gets that far. -/
inductive Requests (s : FFS) (op : Op) : Nat → Nat → Prop where
  | create {p ft name now fit} (h : Creates s op p ft name now)
      (hfit : s.canFit p (newEntry ft name) = some fit) :
      Requests s op 1 (fileBlocks ft + Needs (s.view.ino p) fit)
  | link {i p name now fit} (h : Links s op i p name now)
      (hfit : s.canFit p (DirEntry.new i .file name) = some fit) :
      Requests s op 0 (Needs (s.view.ino p) fit)

/-- `op` deletes a name of the inode `i`, unless it fails. -/
inductive Deletes (s : FFS) : Op → Nat → Prop where
  | path {path now r} (hr : s.resolve (Path.components path) false = some r) :
      Deletes s (.delete path now) r.targetInodeIndex
  | child {name p ty now e b off} (hf : s.findEntry p name = some (some (e, b, off))) :
      Deletes s (.deleteChild name p ty now) e.inode

/-- The operations on children are called on allocated directories, with names other
than `.` and `..`, and link no directories. -/
def Op.Sane (s : FFS) : Op → Prop
  | .createChild _ name p _ => s.view.ibit p = true ∧ name ≠ [dot] ∧ name ≠ [dot, dot]
  | .createChildHardlink i _ p _ => s.view.ibit i = true ∧ s.view.ibit p = true ∧
      (s.view.ino i).fileType ≠ .directory
  | .deleteChild _ p _ _ => s.view.ibit p = true
  | _ => True

/-- No inode is deallocated while a handle refers to it. -/
def Op.Keeps (s : FFS) (op : Op) : Prop :=
  ∀ i, Deletes s op i → (s.view.ino i).links ≤ 1 →
    ∀ id m, s.format.openFiles id = some m → m.inode ≠ i

/-- `op` goes through an open file. -/
def Op.OnHandle : Op → Prop
  | .seek _ _ | .read _ _ | .write _ _ _ | .truncate _ _ _ => True
  | _ => False

/-- No record that `op` enters leaves exactly `min_free_size` bytes of the region it
takes. -/
def Op.Snug (s : FFS) (op : Op) : Prop :=
  ∀ p e fit, Enters s op p e → s.canFit p e = some fit → Entered.Snug s.view.data e fit

/-- `op` enters its records as the blocks allow for. -/
def Op.Roomy (gaps : Bool) (s : FFS) (op : Op) : Prop := gaps = true ∨ op.Snug s

/-! ## What a call does -/

/-- The ways a call can end, from the state `t` of `s`. -/
inductive Effect (g : Geom) (gaps : Bool) (s : FFS) (t : St) (op : Op) : St → Prop where
  | same : Effect g gaps s t op t
  | created {p ft name now fit i ds n' data' t'} (hc : Creates s op p ft name now)
      (hp : t.ibit p = true) (hd : name ≠ [dot]) (hdd : name ≠ [dot, dot])
      (hfit : s.canFit p (newEntry ft name) = some fit)
      (h : g.Created t p ft name now fit i ds n' data' t') : Effect g gaps s t op t'
  | symlinked {p name now fit i ds n' data' t' target now'}
      (hc : Creates s op p .symlink name now) (hp : t.ibit p = true) (hd : name ≠ [dot])
      (hdd : name ≠ [dot, dot]) (hfit : s.canFit p (newEntry .symlink name) = some fit)
      (h : g.Created t p .symlink name now fit i ds n' data' t')
      (hlen : target.length ≤ BLOCK_SIZE) : Effect g gaps s t op (t'.withTarget i target now')
  | full {n k t'} (hr : Requests s op n k) (h : g.AllocFailed t n k t') : Effect g gaps s t op t'
  | orphaned {p ft name now i ds t'} (hc : Creates s op p ft name now) (hp : t.ibit p = true)
      (hfit : s.canFit p (newEntry ft name) = some none)
      (hmax : (t.ino p).blocks ≥ INode.MAX_BLOCKS)
      (ha : g.Allocated t 1 (fileBlocks ft + Needs (t.ino p) none) [i] ds (t.taken [i] ds))
      (h : g.Orphaned t p ft now i ds t') : Effect g gaps s t op t'
  | linked {i p name now fit ds n' data' t'} (hl : Links s op i p name now)
      (hi : t.ibit i = true) (hp : t.ibit p = true) (hfile : (t.ino i).fileType ≠ .directory)
      (hd : name ≠ [dot]) (hdd : name ≠ [dot, dot])
      (hfit : s.canFit p (DirEntry.new i .file name) = some fit)
      (h : g.Linked t i p name now fit ds n' data' t') : Effect g gaps s t op t'
  | wasted {i p name now ds} (hl : Links s op i p name now)
      (hfit : s.canFit p (DirEntry.new i .file name) = some none)
      (hmax : (t.ino p).blocks ≥ INode.MAX_BLOCKS)
      (ha : g.Allocated t 0 (Needs (t.ino p) none) [] ds (t.taken [] ds)) :
      Effect g gaps s t op (t.taken [] ds)
  | unlinked {i p k e now b' t'} (hd : Deletes s op i) (h : g.Unlinked gaps t i p k e now b' t') :
      Effect g gaps s t op t'
  | removed {i p k e now b' t'} (hd : Deletes s op i) (h : g.Removed gaps t i p k e now b' t') :
      Effect g gaps s t op t'
  | opened {path r} (ho : op = .openFile path)
      (hr : s.resolve (Path.components path) true = some r)
      (hi : t.Reach r.targetInodeIndex) (hfile : (t.ino r.targetInodeIndex).fileType = .file) :
      Effect g gaps s t op (t.opened r.targetInodeIndex)
  | closed {id} (ho : op = .closeFile id) : Effect g gaps s t op (t.closed id)
  | moved {id m x} (ho : (∃ pos, op = .seek id pos) ∨ ∃ len, op = .read id len)
      (hopen : t.openFiles id = some m) : Effect g gaps s t op (t.withOffset id m x)
  | wrote {id m buf now metas datas data₁ n₁ data' k t'} (ho : op = .write id buf now)
      (h : g.Wrote t id m buf now metas datas data₁ n₁ data' k t') : Effect g gaps s t op t'
  | writeFailed {id buf now err t'} (ho : op = .write id buf now)
      (h : g.WriteFailed t id buf.length err t') : Effect g gaps s t op t'
  | truncated {id m size now} (ho : op = .truncate id size now) (hopen : t.openFiles id = some m)
      (hlt : size.toNat < (t.ino m.inode).size) :
      Effect g gaps s t op (t.truncated m.inode size.toNat now)

namespace Geom

variable {g : Geom} {gaps : Bool} {s : FFS} {t : St} {op : Op}

theorem Rep.roomy (hs : g.Rep s t) (h : op.Roomy gaps s) {p : Nat} {e : DirEntry}
    {fit : Option (Nat × Nat)} (he : Enters s op p e) (hfit : s.canFit p e = some fit) :
    Entered.Roomy gaps t.data e fit := by
  rcases h with hon | hsnug
  · exact .inl hon
  · right
    have := hsnug p e fit he hfit
    rw [hs.view_eq] at this
    exact this

theorem wp_getFormat {β : Type} {f : FormatV1 → FsM β} {Q : β → FFS → Prop}
    {E : FSError → FFS → Prop} (h : Prog.wp (f s.format) Q E s) :
    Prog.wp (getFormat >>= f) Q E s := h

/-- Read-only device operations, at a fixed state. -/
theorem wp_readOnly {α : Type} {m : DevM α} (hro : Prog.ReadOnly m) :
    Prog.wp (onDevice m) (fun a s' => s' = s ∧ (m s.device).value? = some a)
      (fun _ s' => s' = s) s := by
  refine Prog.wp_zoom.mpr (Prog.wp_mono (Prog.wp_and (hro s.device) Prog.wp_self) ?_ ?_)
  · rintro a d ⟨rfl, hok⟩
    exact ⟨rfl, by rw [hok]; rfl⟩
  · rintro e d ⟨rfl, -⟩
    rfl

/-- A read-only device operation that answers. -/
theorem onDevice_of_value {α : Type} {m : DevM α} (hro : Prog.ReadOnly m) {a : α}
    (h : (m s.device).value? = some a) : onDevice m s = .ok a s := by
  obtain ⟨d, hd⟩ := Outcome.value?_eq_some.mp h
  obtain rfl := hro.of_ok hd
  exact Prog.zoom_of_ok hd

theorem onDevice_of_err {α : Type} {m : DevM α} (hro : Prog.ReadOnly m) {e : FSError}
    {d : MemoryDevice} (h : m s.device = .err e d) : onDevice m s = .err e s := by
  obtain rfl := hro.of_err h
  exact Prog.zoom_of_err h

theorem onDevice_of_panic {α : Type} {m : DevM α} (h : m s.device = .panic) :
    onDevice m s = .panic := Prog.zoom_of_panic h

theorem Rep.isAllocated (hs : g.Rep s t) {i : Nat} (hi : t.ibit i = true)
    (hlt : i < g.inodes) :
    (s.format.inodeAllocator.isAllocated i s.device).value? = some true := by
  have hbits := hs.ibit_lt hi
  have hrun : (g.inodeAllocator t.lastInode).isAllocated i s.device = _ :=
    BitmapAllocator.isAllocated_eq hs.1.inodeBitmap (Nat.le_of_lt hlt) hbits
  rw [← hs.1.2] at hi
  simp only [view, Bool.and_eq_true, decide_eq_true_eq] at hi
  rw [hs.2]
  show ((g.inodeAllocator t.lastInode).isAllocated i s.device).value? = some true
  rw [hrun]
  exact congrArg some hi.2

theorem wp_reader {α : Type} {m : DevM α} {Q : α → Prop} (hs : g.Rep s t)
    (hro : Prog.ReadOnly m)
    (h : Prog.wpr g.Holds m (fun a v' => v' = t.toView ∧ Q a) (fun _ v' => v' = t.toView)
      t.toView) :
    Prog.wp (onDevice m) (fun a s' => s' = s ∧ (m s.device).value? = some a ∧ Q a)
      (fun _ s' => s' = s) s := by
  refine Prog.wp_mono (wp_readOnly hro) ?_ fun _ _ he => he
  rintro a s' ⟨rfl, hv⟩
  obtain ⟨d, hd⟩ := Outcome.value?_eq_some.mp hv
  obtain ⟨v', -, -, hq⟩ := h.of_ok hs.1 hd
  exact ⟨rfl, hv, hq⟩

theorem wp_resolve (hs : g.Rep s t) (h : g.Inv gaps t) {path : List Component}
    (hpath : Path.Proper path) (final : Bool) :
    Prog.wp (onDevice (s.format.directoryHandler.resolve path s.format.superblock.rootInode
        s.format.inodeHandler final))
      (fun r s' => s' = s ∧ s.resolve path final = some r ∧ Resolved t r ∧
        (final = false → r.targetInodeIndex = 0 ∨ Located t r))
      (fun _ s' => s' = s) s := by
  have hwpr := wpr_resolve h hpath final
  have hfmt := hs.2
  refine wp_reader hs (readOnly_resolve _ _ _ _ _) ?_
  rw [hfmt]
  exact hwpr

/-- The entry point of `create`: room is looked for before anything is changed. -/
theorem wp_createIn (hs : g.Rep s t) (h : g.Inv gaps t) {p : Nat} (hp : t.ibit p = true)
    {ft : FileType} {name : Str} {onExists : DirEntry → FSError} {now : UInt64} :
    Prog.wp (createIn p (t.ino p) ft name onExists now)
      (fun r s' => ∃ t' fit ds n' data', g.Rep s' t' ∧
        s.canFit p (newEntry ft name) = some fit ∧ r.1 = firstNode ft (ds.headD 0) now ∧
        g.Created t p ft name now fit r.2 ds n' data' t')
      (fun _ s' => ∃ t', g.Rep s' t' ∧ (t' = t ∨ ∃ fit,
        s.canFit p (newEntry ft name) = some fit ∧ g.CreateFailed t p ft name now t')) s := by
  have hview := hs.view_eq
  have hfit : Prog.wp (createIn p (t.ino p) ft name onExists now)
      (fun _ _ => ∃ fit, s.canFit p (newEntry ft name) = some fit)
      (fun _ s' => s' = s ∨ ∃ fit, s.canFit p (newEntry ft name) = some fit) s := by
    refine wp_getFormat ?_
    refine Prog.wp_seq (wp_readOnly (readOnly_findEntry _ _ _ _)) ?_ fun _ _ he => .inl he
    rintro existing s ⟨rfl, -⟩
    match existing with
    | some (e, b, off) => exact .inl rfl
    | none =>
        refine Prog.wp_assert fun _ => ?_
        refine Prog.wp_seq (wp_readOnly (readOnly_canFit _ _ _ _)) ?_ fun _ _ he => .inl he
        rintro fit s ⟨rfl, hok⟩
        have hthis : ∃ fit, s.canFit p (newEntry ft name) = some fit := by
          refine ⟨fit, ?_⟩
          rw [FFS.canFit, hview]
          exact hok
        exact Prog.wp_of_forall (fun _ _ => hthis) fun _ _ => .inr hthis
  refine Prog.wp_mono (Prog.wp_and hfit (wpr_createIn h.toIntact hp s hs)) ?_ ?_
  · rintro r s' ⟨⟨fit, hfit⟩, t', hs', fit', ds, n', data', hr, hc⟩
    obtain rfl := (hs.canFit (h.mapped hp) hfit).unique hc.fitOf
    exact ⟨t', fit, ds, n', data', hs', hfit, hr, hc⟩
  · rintro e s' ⟨rfl | hfit, t', hs', hf⟩
    · exact ⟨t, hs, .inl rfl⟩
    · obtain ⟨fit, hfit⟩ := hfit
      exact ⟨t', hs', .inr ⟨fit, hfit, hf⟩⟩

/-- `s'` is in a state that the call can end in. -/
def Ends (g : Geom) (gaps : Bool) (s : FFS) (t : St) (op : Op) (s' : FFS) : Prop :=
  ∃ t', g.Rep s' t' ∧ Effect g gaps s t op t'

theorem CreateFailed.effect (hs : g.Rep s t) (h : g.Inv gaps t) {p : Nat} {ft : FileType}
    {name : Str} {now : UInt64} {t' : St} {fit : Option (Nat × Nat)} (hp : t.ibit p = true)
    (hc : Creates s op p ft name now) (hfit : s.canFit p (newEntry ft name) = some fit)
    (hf : g.CreateFailed t p ft name now t') : Effect g gaps s t op t' := by
  have hfitOf := hs.canFit (h.mapped hp) hfit
  cases hf with
  | unchanged => exact .same
  | full hfit' ha =>
      obtain rfl := hfitOf.unique hfit'
      have hreq := Requests.create hc hfit
      rw [hs.view_eq] at hreq
      exact .full hreq ha
  | stuck hmax hfit' ha =>
      obtain rfl := hfitOf.unique hfit'
      refine .orphaned hc hp hfit hmax ha ⟨ha.inodes_eq ▸ fresh_pickInodes h.cursors,
        ha.data_eq ▸ fresh_pickData, ?_, rfl⟩
      rw [ha.data_length]
      omega

/-- `create`, with the parent it resolves. -/
theorem wp_create (hs : g.Rep s t) (h : g.Inv gaps t) {path : Str} {ft : FileType} {now : UInt64}
    (hcreates : ∀ {parent name r}, Path.split path = some (parent, name) →
      s.resolve parent true = some r → Creates s op r.targetInodeIndex ft name now) :
    Prog.wp (create path ft now)
      (fun r s' => ∃ p name fit ds n' data' t', g.Rep s' t' ∧ Creates s op p ft name now ∧
        t.ibit p = true ∧ name ≠ [dot] ∧ name ≠ [dot, dot] ∧
        s.canFit p (newEntry ft name) = some fit ∧ r.1 = firstNode ft (ds.headD 0) now ∧
        g.Created t p ft name now fit r.2 ds n' data' t')
      (fun _ s' => g.Ends gaps s t op s') s := by
  refine Prog.wp_guard (fun _ => ⟨t, hs, .same⟩) fun _ => ?_
  refine Prog.wp_bind.mpr (Prog.wp_unwrap ?_)
  rintro ⟨parent, name⟩ hsplit
  obtain ⟨hproper, -, hd, hdd⟩ := Path.proper_split hsplit
  refine wp_getFormat ?_
  refine Prog.wp_seq (wp_resolve hs h hproper true) ?_ ?_
  · rintro r s' ⟨rfl, hr, hres, -⟩
    have hlive := h.reach_live hres.reach
    have hc := hcreates hsplit hr
    rw [hres.inode]
    refine Prog.wp_mono (wp_createIn hs h hlive) ?_ ?_
    · rintro a s' ⟨t', fit, ds, n', data', hs', hfit, ha, hcr⟩
      exact ⟨_, name, fit, ds, n', data', t', hs', hc, hlive, hd, hdd, hfit, ha, hcr⟩
    · rintro e s' ⟨t', hs', rfl | ⟨fit, hfit, hf⟩⟩
      · exact ⟨_, hs', .same⟩
      · exact ⟨t', hs', hf.effect hs h hlive hc hfit⟩
  · rintro e s' rfl
    exact ⟨t, hs, .same⟩

theorem wp_createOnly (hs : g.Rep s t) (h : g.Inv gaps t) {path : Str} {ft : FileType}
    {now : UInt64}
    (hcreates : ∀ {parent name r}, Path.split path = some (parent, name) →
      s.resolve parent true = some r → Creates s op r.targetInodeIndex ft name now) :
    Prog.wp (create path ft now >>= fun _ => pure ()) (fun _ s' => g.Ends gaps s t op s')
      (fun _ s' => g.Ends gaps s t op s') s := by
  refine Prog.wp_seq (wp_create hs h hcreates) ?_ fun _ _ he => he
  rintro a s' ⟨p, name, fit, ds, n', data', t', hs', hc, hp, hd, hdd, hfit, -, hcr⟩
  exact ⟨t', hs', .created hc hp hd hdd hfit hcr⟩

/-- The block of a new symlink. -/
theorem Created.direct_mem {p i : Nat} {name : Str} {now : UInt64} {fit : Option (Nat × Nat)}
    {ds : List Nat} {n' : INode} {data' : Region} {t' : St} (h : g.Inv gaps t)
    (hp : t.ibit p = true) (hc : g.Created t p .symlink name now fit i ds n' data' t') :
    (t'.ino i).direct 0 ∈ t'.content i := by
  rw [hc.content_new h.toIntact hp, hc.ino_new h.toIntact hp]
  exact List.mem_singleton.mpr rfl

theorem wp_createSymlink (hs : g.Rep s t) (h : g.Inv gaps t) {path target : Str}
    {now now' : UInt64} (hroom : Op.Roomy gaps s (.createSymlink path target now now')) :
    Prog.wp (createSymlink path target now now')
      (fun _ s' => g.Ends gaps s t (.createSymlink path target now now') s')
      (fun _ s' => g.Ends gaps s t (.createSymlink path target now now') s') s := by
  refine Prog.wp_seq (wp_create hs h fun hsplit hr => .symlink hsplit hr) ?_ fun _ _ he => he
  rintro ⟨n, i⟩ s' ⟨p, name, fit, ds, n', data', t', hs', hc, hp, hd, hdd, hfit, hn, hcr⟩
  have hn : n = t'.ino i := by
    rw [hcr.ino_new h.toIntact hp]
    exact hn
  have h' := hcr.inv h hp hd hdd (hs.roomy hroom (.create hc) hfit)
  have hlive : t'.ibit i = true := hcr.ibit_iff.mpr (.inr rfl)
  subst hn
  refine Prog.wp_mono (wpr_writeSymlink h' hlive (hcr.direct_mem h hp) s' hs') ?_ ?_
  · rintro _ s'' ⟨t'', hs'', rfl, hlen⟩
    exact ⟨_, hs'', .symlinked hc hp hd hdd hfit hcr hlen⟩
  · rintro _ s'' ⟨_, -, hf⟩
    exact hf.elim

theorem LinkFailed.effect (hs : g.Rep s t) (h : g.Inv gaps t) {i p : Nat} {name : Str}
    {now : UInt64} {t' : St} {fit : Option (Nat × Nat)} (hp : t.ibit p = true)
    (hl : Links s op i p name now) (hfit : s.canFit p (DirEntry.new i .file name) = some fit)
    (hf : g.LinkFailed t i p name t') : Effect g gaps s t op t' := by
  have hfitOf := hs.canFit (h.mapped hp) hfit
  cases hf with
  | unchanged => exact .same
  | full hfit' ha =>
      obtain rfl := hfitOf.unique hfit'
      have hreq := Requests.link hl hfit
      rw [hs.view_eq] at hreq
      exact .full hreq ha
  | stuck hmax hfit' ha =>
      obtain rfl := hfitOf.unique hfit'
      exact .wasted hl hfit hmax ha

/-- The entry point of `create_hardlink`: the name is looked for, and then room. -/
theorem wp_linkIn_intact (hs : g.Rep s t) (h : g.Intact gaps t) {i p : Nat}
    (hi : t.ibit i = true) (hp : t.ibit p = true) {dst name : Str} {now : UInt64} :
    Prog.wp (linkIn (t.ino i) i dst name (t.ino p) p now)
      (fun _ s' => ∃ t' fit ds n' data', g.Rep s' t' ∧
        s.findEntry p (DirEntry.new i .file name).name = some none ∧
        s.canFit p (DirEntry.new i .file name) = some fit ∧
        g.Linked t i p name now fit ds n' data' t')
      (fun _ s' => ∃ t', g.Rep s' t' ∧ (t' = t ∨ ∃ fit,
        s.canFit p (DirEntry.new i .file name) = some fit ∧ g.LinkFailed t i p name t')) s := by
  have hview := hs.view_eq
  have hfit : Prog.wp (linkIn (t.ino i) i dst name (t.ino p) p now)
      (fun _ _ => s.findEntry p (DirEntry.new i .file name).name = some none ∧
        ∃ fit, s.canFit p (DirEntry.new i .file name) = some fit)
      (fun _ s' => s' = s ∨ ∃ fit, s.canFit p (DirEntry.new i .file name) = some fit) s := by
    refine wp_getFormat ?_
    refine Prog.wp_seq (wp_readOnly (readOnly_findEntry _ _ _ _)) ?_ fun _ _ he => .inl he
    intro existing s' hexisting
    obtain ⟨rfl, hfound⟩ := hexisting
    refine Prog.wp_guard (fun _ => .inl rfl) fun hnone => ?_
    refine Prog.wp_seq (wp_readOnly (readOnly_canFit _ _ _ _)) ?_ fun _ _ he => .inl he
    intro fit s' hfit
    obtain ⟨rfl, hok⟩ := hfit
    have hthis : ∃ fit, s'.canFit p (DirEntry.new i .file name) = some fit := by
      refine ⟨fit, ?_⟩
      rw [FFS.canFit, hview]
      exact hok
    have hfree : s'.findEntry p (DirEntry.new i .file name).name = some none := by
      rw [FFS.findEntry, hview, hfound]
      simpa using hnone
    exact Prog.wp_of_forall (fun _ _ => ⟨hfree, hthis⟩) fun _ _ => .inr hthis
  refine Prog.wp_mono (Prog.wp_and hfit (wpr_linkIn h hi hp s hs)) ?_ ?_
  · intro _ s' hpost
    obtain ⟨⟨hfree, fit, hfit⟩, t', hs', fit', ds, n', data', hk⟩ := hpost
    obtain rfl := (hs.canFit (h.mapped hp) hfit).unique hk.fitOf
    exact ⟨t', fit, ds, n', data', hs', hfree, hfit, hk⟩
  · intro e s' hpost
    obtain ⟨rfl | ⟨fit, hfit⟩, t', hs', hf⟩ := hpost
    · exact ⟨t, hs, .inl rfl⟩
    · exact ⟨t', hs', .inr ⟨fit, hfit, hf⟩⟩

theorem wp_linkIn (hs : g.Rep s t) (h : g.Inv gaps t) {i p : Nat} (hi : t.ibit i = true)
    (hp : t.ibit p = true) (hfile : (t.ino i).fileType ≠ .directory) {dst name : Str}
    {now : UInt64} (hd : name ≠ [dot]) (hdd : name ≠ [dot, dot])
    (hl : Links s op i p name now) :
    Prog.wp (linkIn (t.ino i) i dst name (t.ino p) p now) (fun _ s' => g.Ends gaps s t op s')
      (fun _ s' => g.Ends gaps s t op s') s := by
  refine Prog.wp_mono (wp_linkIn_intact hs h.toIntact hi hp) ?_ ?_
  · intro _ s' hpost
    obtain ⟨t', fit, ds, n', data', hs', -, hfit, hk⟩ := hpost
    exact ⟨t', hs', .linked hl hi hp hfile hd hdd hfit hk⟩
  · intro e s' hpost
    obtain ⟨t', hs', rfl | ⟨fit, hfit, hf⟩⟩ := hpost
    · exact ⟨_, hs', .same⟩
    · exact ⟨t', hs', hf.effect hs h hp hl hfit⟩

theorem wp_createHardlink (hs : g.Rep s t) (h : g.Inv gaps t) {src dst : Str} {now : UInt64} :
    Prog.wp (createHardlink src dst now)
      (fun _ s' => g.Ends gaps s t (.createHardlink src dst now) s')
      (fun _ s' => g.Ends gaps s t (.createHardlink src dst now) s') s := by
  refine wp_getFormat ?_
  refine Prog.wp_seq (wp_resolve hs h (Path.proper_components src) true) ?_ ?_
  · rintro a s' ⟨rfl, ha, hsrc, -⟩
    refine Prog.wp_guard (fun _ => ⟨t, hs, .same⟩) fun hfile => ?_
    refine Prog.wp_bind.mpr (Prog.wp_unwrap ?_)
    rintro ⟨parent, name⟩ hsplit
    obtain ⟨hproper, -, hd, hdd⟩ := Path.proper_split hsplit
    refine Prog.wp_seq (wp_resolve hs h hproper true) ?_ ?_
    · rintro r s' ⟨rfl, hr, hdst, -⟩
      have hl := @Links.path _ _ _ _ _ now _ _ ha (not_not.mp hfile) hsplit hr
      rw [hsrc.inode, hdst.inode]
      rw [hsrc.inode] at hfile
      refine wp_linkIn hs h (h.reach_live hsrc.reach) (h.reach_live hdst.reach) ?_ hd hdd hl
      rw [not_not.mp hfile]
      decide
    · rintro e s' rfl
      exact ⟨t, hs, .same⟩
  · rintro e s' rfl
    exact ⟨t, hs, .same⟩

/-- A reachable directory that is somebody's parent is not empty. -/
theorem not_empty_of_up (h : g.Inv gaps t) {d : Nat} {k : Nat × Nat} {e : DirEntry}
    (hd : t.Reach d) (hr : t.Rec d k e) (hl : e.label = [dot, dot]) (hne : e.inode ≠ 0) :
    ¬ Empty t e.inode ∧ (t.ino e.inode).fileType = .directory := by
  obtain ⟨-, ⟨-, h0⟩ | ⟨k', x, hx, h1, h2, -⟩⟩ :=
    Lib.Namespace.Reach.up h.graph hd ⟨k, e, hr, hl, rfl⟩
  · exact absurd h0 hne
  · exact ⟨fun hemp => (hemp _ _ hx).elim h1 h2, hx.dir⟩

theorem wp_delete (hs : g.Rep s t) (h : g.Inv gaps t) {path : Str} {now : UInt64} :
    Prog.wp (delete path now) (fun _ s' => g.Ends gaps s t (.delete path now) s')
      (fun _ s' => g.Ends gaps s t (.delete path now) s') s := by
  refine wp_getFormat ?_
  refine Prog.wp_seq (wp_resolve hs h (Path.proper_components path) false) ?_ ?_
  · rintro r s' ⟨rfl, hr, hres, hloc⟩
    refine Prog.wp_guard (fun _ => ⟨t, hs, .same⟩) fun hroot => ?_
    have hfmt := hs.2
    rw [hfmt] at hroot
    have hne : r.targetInodeIndex ≠ 0 := hroot
    have hloc := (hloc rfl).resolve_left hne
    have hlive := h.reach_live hres.reach
    have hup : r.dirEntry.label = [dot, dot] → ¬ Empty t r.targetInodeIndex ∧
        (t.ino r.targetInodeIndex).fileType = .directory := fun hl =>
      hloc.target ▸ not_empty_of_up h hloc.parent hloc.record hl (hloc.target.symm ▸ hne)
    have hspec : Prog.wpr g.Rep
        (onDevice (g.inodeHandler.readInode r.parentInodeIndex) >>= fun parentInode =>
          unlink (t.ino r.targetInodeIndex) r.targetInodeIndex parentInode r.parentInodeIndex
            r.dirEntryBlockIndex r.dirEntryOffset (.directoryNotEmpty path) now)
        (fun _ t' => ∃ b', g.Unlinked gaps t r.targetInodeIndex r.parentInodeIndex
          (r.dirEntryBlockIndex, r.dirEntryOffset) r.dirEntry now b' t' ∨
          g.Removed gaps t r.targetInodeIndex r.parentInodeIndex
          (r.dirEntryBlockIndex, r.dirEntryOffset) r.dirEntry now b' t')
        (fun _ t' => t' = t) t := by
      refine (runs_onDevice (runs_readInode (h.lt hloc.record.live))).seq ?_
      exact wpr_unlink h.toIntact hloc.record hloc.target hlive hloc.label hup
    rw [hres.inode, hfmt]
    refine Prog.wp_mono (hspec s' hs) ?_ ?_
    · rintro _ s'' ⟨t', hs'', b', hu | hu⟩
      · exact ⟨t', hs'', .unlinked (.path hr) hu⟩
      · exact ⟨t', hs'', .removed (.path hr) hu⟩
    · rintro _ s'' ⟨t', hs'', rfl⟩
      exact ⟨_, hs'', .same⟩
  · rintro e s' rfl
    exact ⟨t, hs, .same⟩

theorem wp_openFile (hs : g.Rep s t) (h : g.Inv gaps t) {path : Str} :
    Prog.wp (openFile path)
      (fun id s' => ∃ r, s.resolve (Path.components path) true = some r ∧
        t.Reach r.targetInodeIndex ∧ (t.ino r.targetInodeIndex).fileType = .file ∧
        id = t.nextFileId ∧ g.Rep s' (t.opened r.targetInodeIndex))
      (fun _ s' => s' = s) s := by
  refine wp_getFormat ?_
  refine Prog.wp_seq (wp_resolve hs h (Path.proper_components path) true) ?_ fun _ _ he => he
  rintro r s ⟨rfl, hr, hres, -⟩
  refine Prog.wp_guard (fun _ => rfl) fun hfile => ?_
  have hfile := not_not.mp hfile
  rw [hres.inode] at hfile
  refine Prog.wp_bind.mpr (Prog.wp_checkedAdd fun _ => ?_)
  have hfmt := hs.2
  rw [hfmt]
  have hspec : Prog.wpr g.Rep (modifyFormat (fun f => { f with
        nextFileId := t.nextFileId + 1
        openFiles := Function.update f.openFiles f.nextFileId (some ⟨r.targetInodeIndex, 0⟩) }) >>=
        fun _ => pure t.nextFileId)
      (fun id t' => id = t.nextFileId ∧ t' = t.opened r.targetInodeIndex) (fun _ _ => False) t :=
    wpr_modifyFormat (t.opened r.targetInodeIndex) rfl rfl (Prog.wpr_pure ⟨rfl, rfl⟩)
  refine Prog.wp_mono (hspec s hs) ?_ ?_
  · rintro id s' ⟨_, hs', rfl, rfl⟩
    exact ⟨r, hr, hres.reach, hfile, rfl, hs'⟩
  · rintro e s' ⟨_, -, hf⟩
    exact hf.elim

theorem wp_readInode (hs : g.Rep s t) {i : Nat} (hi : i < g.inodes) :
    Prog.wp (onDevice (s.format.inodeHandler.readInode i)) (fun n s' => s' = s ∧ n = t.ino i)
      (fun _ s' => s' = s) s := by
  have hfmt := hs.2
  have hspec : Prog.wpr g.Holds (s.format.inodeHandler.readInode i)
      (fun n v' => v' = t.toView ∧ n = t.ino i) (fun _ v' => v' = t.toView) t.toView := by
    rw [hfmt]
    exact (runs_readInode hi).wpr ⟨rfl, rfl⟩
  refine Prog.wp_mono (wp_reader hs (readOnly_readInode _ _) hspec) ?_ fun _ _ he => he
  rintro n s' ⟨rfl, -, rfl⟩
  exact ⟨rfl, rfl⟩

/-- A read of the inode table, whatever the index. -/
theorem wp_inode (hs : g.Rep s t) {i : Nat} :
    Prog.wp (onDevice (s.format.inodeHandler.readInode i)) (fun n s' => s' = s ∧ n = t.ino i)
      (fun _ s' => s' = s) s := by
  have hspec : Prog.wpr g.Holds (g.inodeHandler.readInode i)
      (fun n v' => v' = t.toView ∧ n = t.ino i) (fun _ v' => v' = t.toView) t.toView :=
    wpr_readInode (fun _ => ⟨rfl, rfl⟩) fun _ => rfl
  rw [hs.2]
  refine Prog.wp_mono (wp_reader hs (readOnly_readInode _ _) hspec) ?_ fun _ _ he => he
  intro n s' hn
  exact ⟨hn.1, hn.2.2⟩

theorem wp_getInode (hs : g.Rep s t) (h : g.Inv gaps t) {i : Nat} (hi : t.ibit i = true) :
    Prog.wp (getInode i) (fun n s' => s' = s ∧ n = t.ino i) (fun _ s' => s' = s) s := by
  refine wp_getFormat ?_
  refine Prog.wp_seq (wp_readOnly (readOnly_isAllocated _ _)) ?_ fun _ _ he => he
  rintro allocated s ⟨rfl, -⟩
  exact Prog.wp_guard (fun _ => rfl) fun _ => wp_readInode hs (h.lt hi)

theorem wp_createChild (hs : g.Rep s t) (h : g.Inv gaps t) {ft : FileType} {name : Str} {p : Nat}
    {now : UInt64} (hsane : Op.Sane s (.createChild ft name p now)) :
    Prog.wp (createChild ft name p now)
      (fun _ s' => g.Ends gaps s t (.createChild ft name p now) s')
      (fun _ s' => g.Ends gaps s t (.createChild ft name p now) s') s := by
  obtain ⟨hp, hd, hdd⟩ := hsane
  rw [hs.view_eq] at hp
  refine wp_getFormat ?_
  have hsame : g.Ends gaps s t (.createChild ft name p now) s := ⟨t, hs, .same⟩
  refine Prog.wp_seq (wp_readOnly (readOnly_isAllocated _ _)) ?_ fun _ _ he => he ▸ hsame
  rintro allocated s ⟨rfl, -⟩
  refine Prog.wp_guard (fun _ => hsame) fun _ => ?_
  refine Prog.wp_seq (wp_readInode hs (h.lt hp)) ?_ fun _ _ he => he ▸ hsame
  rintro n s ⟨rfl, rfl⟩
  refine Prog.wp_guard (fun _ => hsame) fun _ => ?_
  refine Prog.wp_mono (wp_createIn hs h hp) ?_ ?_
  · rintro a s' ⟨t', fit, ds, n', data', hs', hfit, -, hcr⟩
    exact ⟨t', hs', .created .child hp hd hdd hfit hcr⟩
  · rintro e s' ⟨t', hs', rfl | ⟨fit, hfit, hf⟩⟩
    · exact ⟨_, hs', .same⟩
    · exact ⟨t', hs', hf.effect hs h hp .child hfit⟩

theorem wp_createChildHardlink (hs : g.Rep s t) (h : g.Inv gaps t) {i p : Nat} {dst : Str}
    {now : UInt64} (hsane : Op.Sane s (.createChildHardlink i dst p now)) :
    Prog.wp (Op.exec (.createChildHardlink i dst p now))
      (fun _ s' => g.Ends gaps s t (.createChildHardlink i dst p now) s')
      (fun _ s' => g.Ends gaps s t (.createChildHardlink i dst p now) s') s := by
  obtain ⟨hi, hp, hfile⟩ := hsane
  rw [hs.view_eq] at hi hp hfile
  have hsame : g.Ends gaps s t (.createChildHardlink i dst p now) s := ⟨t, hs, .same⟩
  refine Prog.wp_seq (wp_getInode hs h hi) ?_ fun _ _ he => he ▸ hsame
  rintro n s ⟨rfl, rfl⟩
  refine Prog.wp_seq (wp_getInode hs h hp) ?_ fun _ _ he => he ▸ hsame
  rintro n s ⟨rfl, rfl⟩
  refine Prog.wp_bind.mpr (Prog.wp_unwrap ?_)
  rintro ⟨parent, name⟩ hsplit
  obtain ⟨-, -, hd, hdd⟩ := Path.proper_split hsplit
  exact wp_linkIn hs h hi hp hfile hd hdd (.child hsplit)

theorem wp_deleteChild (hs : g.Rep s t) (h : g.Inv gaps t) {name : Str} {p : Nat}
    {ty : Option FileType} {now : UInt64} (hsane : Op.Sane s (.deleteChild name p ty now)) :
    Prog.wp (deleteChild name p ty now)
      (fun _ s' => g.Ends gaps s t (.deleteChild name p ty now) s')
      (fun _ s' => g.Ends gaps s t (.deleteChild name p ty now) s') s := by
  have hp : t.ibit p = true := hs.view_eq ▸ hsane
  have hsame : g.Ends gaps s t (.deleteChild name p ty now) s := ⟨t, hs, .same⟩
  have hfmt := hs.2
  have hview := hs.view_eq
  refine Prog.wp_guard (fun _ => hsame) fun hdots => ?_
  refine wp_getFormat ?_
  refine Prog.wp_seq (wp_readOnly (readOnly_isAllocated _ _)) ?_ fun _ _ he => he ▸ hsame
  rintro allocated s ⟨rfl, -⟩
  refine Prog.wp_guard (fun _ => hsame) fun _ => ?_
  refine Prog.wp_seq (wp_readInode hs (h.lt hp)) ?_ fun _ _ he => he ▸ hsame
  rintro n s ⟨rfl, rfl⟩
  refine Prog.wp_guard (fun _ => hsame) fun hdir => ?_
  have hlook := wpr_lookup (h.mapped hp) name hp (not_not.mp hdir)
  refine Prog.wp_seq (wp_reader hs (readOnly_findEntry _ _ _ _) (by rw [hfmt]; exact hlook)) ?_
    fun _ _ he => he ▸ hsame
  rintro found s ⟨rfl, hvalue, hfound⟩
  match found with
  | none => exact hsame
  | some (e, b, off) =>
    obtain ⟨hrec, hlabel⟩ := hfound e b off rfl
    have hnd : e.label ≠ [dot] ∧ e.label ≠ [dot, dot] := by
      rw [hlabel]
      exact not_or.mp hdots
    have hlive : t.ibit e.inode = true := h.graph.target_live (h.edge hrec hnd)
    refine Prog.wp_seq (wp_readInode hs (h.lt hlive)) ?_ fun _ _ he => he ▸ hsame
    rintro n s ⟨rfl, rfl⟩
    have hdel : Deletes s (.deleteChild name p ty now) e.inode := by
      refine @Deletes.child _ _ _ _ _ _ b off ?_
      rw [FFS.findEntry, hview]
      exact hvalue
    have hunlink : Prog.wp (unlink (t.ino e.inode) e.inode (t.ino p) p b off
          (.directoryNotEmpty (natStr p)) now)
        (fun _ s' => g.Ends gaps s t (.deleteChild name p ty now) s')
        (fun _ s' => g.Ends gaps s t (.deleteChild name p ty now) s') s := by
      refine Prog.wp_mono
        (wpr_unlink h.toIntact hrec rfl hlive hnd.1 (fun hl => absurd hl hnd.2) s hs) ?_ ?_
      · rintro _ s' ⟨t', hs', b', hu | hu⟩
        · exact ⟨t', hs', .unlinked hdel hu⟩
        · exact ⟨t', hs', .removed hdel hu⟩
      · rintro _ s' ⟨t', hs', rfl⟩
        exact ⟨_, hs', .same⟩
    match ty with
    | none => exact hunlink
    | some x => exact Prog.wp_guard (fun _ => hsame) fun _ => hunlink

/-- What a call does. -/
theorem effect_of_step (hs : g.Rep s t) (h : g.Inv gaps t) (hh : op.OnHandle → t.Handled)
    (hsane : op.Sane s) (hroom : op.Roomy gaps s) {s' : FFS} (hstep : Step s op s') :
    ∃ t', g.Rep s' t' ∧ Effect g gaps s t op t' := by
  have hsame : g.Ends gaps s t op s := ⟨t, hs, .same⟩
  have husable : op.OnHandle → ∀ id m, t.openFiles id = some m → g.Usable t m.inode :=
    fun hon id m hopen => h.usable (hh hon id m hopen).1
  have hignore : ∀ {α : Type} {m : FsM α}, Prog.wp m (fun _ s' => g.Ends gaps s t op s')
      (fun _ s' => g.Ends gaps s t op s') s →
      Prog.wp (ignoreResult m) (fun _ s' => g.Ends gaps s t op s')
        (fun _ s' => g.Ends gaps s t op s') s := fun hm =>
    Prog.wp_seq hm (fun _ _ he => he) fun _ _ he => he
  suffices hwp : Prog.wp op.exec (fun _ s' => g.Ends gaps s t op s')
      (fun _ s' => g.Ends gaps s t op s') s
    from hwp.of_state hstep
  cases op with
  | createFile path now => exact wp_createOnly hs h fun hsplit hr => .file hsplit hr
  | createDirectory path now => exact wp_createOnly hs h fun hsplit hr => .directory hsplit hr
  | createSymlink path target now now' => exact wp_createSymlink hs h hroom
  | createHardlink src dst now => exact wp_createHardlink hs h
  | delete path now => exact wp_delete hs h
  | createChild ft name p now => exact hignore (wp_createChild hs h hsane)
  | createChildHardlink i dst p now => exact wp_createChildHardlink hs h hsane
  | deleteChild name p ty now => exact wp_deleteChild hs h hsane
  | openFile path =>
      refine hignore (Prog.wp_mono (wp_openFile hs h) ?_ fun _ _ he => he ▸ hsame)
      rintro id s' ⟨r, hr, hreach, hfile, -, hs'⟩
      exact ⟨_, hs', .opened rfl hr hreach hfile⟩
  | closeFile id =>
      obtain ⟨s', hok, hs'⟩ := runs_closeFile (g := g) (t := t) s hs
      exact (Prog.wp_of_ok hok).mpr ⟨_, hs', .closed rfl⟩
  | seek id pos =>
      refine hignore (Prog.wp_mono (wpr_seek (husable trivial id) s hs) ?_ ?_)
      · rintro x s' ⟨_, hs', m, hopen, -, rfl⟩
        exact ⟨_, hs', .moved (.inl ⟨pos, rfl⟩) hopen⟩
      · rintro e s' ⟨_, hs', rfl⟩
        exact ⟨_, hs', .same⟩
  | read id len =>
      refine hignore (Prog.wp_mono (wpr_readFile (husable trivial id) s hs) ?_ ?_)
      · rintro x s' ⟨_, hs', ⟨rfl, -⟩ | ⟨m, hopen, -, -, rfl⟩⟩
        · exact ⟨_, hs', .same⟩
        · exact ⟨_, hs', .moved (.inr ⟨len, rfl⟩) hopen⟩
      · rintro e s' ⟨_, hs', rfl⟩
        exact ⟨_, hs', .same⟩
  | write id buf now =>
      refine hignore (Prog.wp_mono (wpr_write (husable trivial id) s hs) ?_ ?_)
      · rintro x s' ⟨t', hs', ⟨-, -, rfl⟩ | ⟨m, metas, datas, data₁, n₁, data', hw⟩⟩
        · exact ⟨_, hs', .same⟩
        · exact ⟨t', hs', .wrote rfl hw⟩
      · rintro e s' ⟨t', hs', hf⟩
        exact ⟨t', hs', .writeFailed rfl hf⟩
  | truncate id size now =>
      refine Prog.wp_mono (wpr_truncate (husable trivial id) s hs) ?_ ?_
      · rintro _ s' ⟨_, hs', rfl | ⟨m, hopen, hlt, rfl⟩⟩
        · exact ⟨_, hs', .same⟩
        · exact ⟨_, hs', .truncated rfl hopen hlt⟩
      · rintro e s' ⟨_, hs', rfl⟩
        exact ⟨_, hs', .same⟩

end Geom

end FerrisFS
