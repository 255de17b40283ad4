import FerrisFS.System.Files
import FerrisFS.V1.Inspect

/-!
# Runs refine the store of files

Every call takes the store that the filesystem is by an event that the call stands for, with
the bytes that it answers. So what a run of calls reads and leaves in the files is what the
store says, whatever else goes on in between.
-/

namespace FerrisFS

open Lib DirectoryHandler INodeTableHandler FormatV1

/-- The event that a call stands for: of a call on a handle its arguments and what it answers.
A call on names may turn one file. -/
inductive Tells (s : FFS) : Op → FileStore.Event Nat Nat UInt8 → FFS → Prop where
  | read {id len bs s'} (h : read id len s = .ok bs s') :
      Tells s (.read id len) (.read id len bs) s'
  | seek {id pos i q c p s'} (hopen : s.store.handles id = some (i, q))
      (hfile : s.store.files i = some c) (hp : Geom.seekPlace q c.length pos = some p)
      (h : seek id pos s = .ok p s') : Tells s (.seek id pos) (.moved id p) s'
  | write {id buf now n s'} (h : write id buf now s = .ok n s') :
      Tells s (.write id buf now) (.wrote id (buf.take n)) s'
  | truncate {id size now m s'} (hopen : s.format.openFiles id = some m)
      (h : truncate id size now s = .ok () s') :
      Tells s (.truncate id size now) (.cut m.inode size.toNat) s'
  | openFile {path id r s'} (hr : s.resolve (Path.components path) true = some r)
      (h : openFile path s = .ok id s') :
      Tells s (.openFile path) (.opened id r.targetInodeIndex) s'
  | closeFile {id s'} (h : closeFile id s = .ok () s') : Tells s (.closeFile id) (.closed id) s'
  | failed {op e s'} (hop : ¬ op.Names) (h : op.exec s = .err e s') : Tells s op .idle s'
  | createFile {path now i s'} (h : createFile path now s = .ok () s') :
      Tells s (.createFile path now) (.born i) s'
  | names {op ev s'} (hop : op.Names) (hstep : Step s op s')
      (hnot : ∀ path now, op = .createFile path now → ∃ e, op.exec s = .err e s')
      (hev : ev = .idle ∨ (∃ i, ev = .born i) ∨ ∃ i, ev = .gone i ∧ Deletes s op i) :
      Tells s op ev s'

/-- A write starts below `2 ^ 40` and skips only zeros behind the end of the file. If there are
blocks to write to, the place of the handle is in one of them. -/
def Op.Exact (s : FFS) (op : Op) : Prop :=
  ∀ id buf now m, op = .write id buf now → s.format.openFiles id = some m → buf ≠ [] →
    m.offset < 2 ^ 40 ∧ s.ZeroUpTo m.inode m.offset ∧
      ∀ b ∈ s.blocksAfter m buf.length, m.offset / BLOCK_SIZE < b

/-- The calls whose effect on the files the store accounts for. -/
structure Op.Tracked (s : FFS) (op : Op) : Prop where
  careful : op.Careful s
  intoDirs : op.IntoDirs s
  exact : op.Exact s

/-- The call may change what the file `i` holds, or deallocate it. -/
def Op.Alters (s : FFS) (i : Nat) (op : Op) : Prop :=
  Deletes s op i ∧ (s.view.ino i).links ≤ 1 ∨ ∃ id m, s.format.openFiles id = some m ∧
    m.inode = i ∧ ((∃ buf now, op = .write id buf now) ∨ ∃ size now, op = .truncate id size now)

/-! ## Deciding -/

section

variable {s : FFS} {op : Op}

/-- What a call writes. -/
def Op.written? : Op → Option (Nat × List UInt8 × UInt64)
  | .write id buf now => some (id, buf, now)
  | _ => none

theorem Op.written?_iff {id : Nat} {buf : List UInt8} {now : UInt64} :
    op = .write id buf now ↔ op.written? = some (id, buf, now) := by
  constructor
  · rintro rfl
    rfl
  · intro h
    cases op with
    | write =>
        cases h
        rfl
    | _ => cases h

instance {i n : Nat} : Decidable (s.ZeroUpTo i n) :=
  decidable_of_iff (∀ p, p < n → (s.view.ino i).size ≤ p → (s.bytes i).getD p 0 = 0)
    ⟨fun h p hsize hp => h p hp hsize, fun h p hp hsize => h p hsize hp⟩

instance : Decidable (op.Exact s) :=
  decidable_of_iff (∀ x ∈ op.written?, ∀ m ∈ s.format.openFiles x.1, x.2.1 ≠ [] →
      m.offset < 2 ^ 40 ∧ s.ZeroUpTo m.inode m.offset ∧
        ∀ b ∈ s.blocksAfter m x.2.1.length, m.offset / BLOCK_SIZE < b)
    ⟨fun h id buf now m hop hm => h (id, buf, now) (Op.written?_iff.mp hop) m hm,
      fun h x hx m hm => h x.1 x.2.1 x.2.2 m (Op.written?_iff.mpr hx) hm⟩

/-- A tame call that the store accounts for. -/
def Op.Traced (s : FFS) (op : Op) : Prop := op.Tame s ∧ op.IntoDirs s ∧ op.Exact s

instance : Decidable (op.Traced s) := inferInstanceAs (Decidable (_ ∧ _))

theorem Op.Traced.tracked (h : op.Traced s) : op.Tracked s := ⟨h.1.careful, h.2.1, h.2.2⟩

end

namespace Geom

variable {g : Geom} {gaps : Bool} {s s' : FFS} {t t' : St} {op : Op} {id : Nat}
  {m : FileMetadata}

/-- What a tracked run keeps. -/
structure Following (g : Geom) (t : St) : Prop extends Steady g t where
  fitting : t.Fitting
  numbered : t.Numbered

/-- A call on a handle that returns was made on an open file. -/
theorem open_of_ok {α : Type} {f : FileMetadata → FsM α} {a : α} (hs : g.Rep s t)
    (h : (handle id >>= f) s = .ok a s') : ∃ m, t.openFiles id = some m := by
  cases hopen : t.openFiles id with
  | some m => exact ⟨m, rfl⟩
  | none =>
      have hwpr : Prog.wpr g.Rep (handle id >>= f) (fun _ _ => False) (fun _ _ => True) t := by
        refine wpr_handle (fun _ => trivial) fun m hm => ?_
        rw [hopen] at hm
        cases hm
      obtain ⟨_, -, hf⟩ := hwpr.of_ok hs h
      exact hf.elim

theorem store_handle (hopen : t.openFiles id = some m) :
    t.store.handles id = some (m.inode, m.offset) := by
  simp only [St.store, hopen, Option.map_some]

theorem store_file {i : Nat} (hi : t.IsFile i) : t.store.files i = some (t.fileData i) :=
  if_pos hi

theorem store_withOffset (x : Nat) : (t.withOffset id m x).store =
    { t.store with handles := Function.update t.store.handles id (some (m.inode, x)) } := by
  refine FileStore.ext rfl (funext fun id' => ?_)
  by_cases hid : id' = id
  · subst hid
    simp [St.store, St.withOffset]
  · simp [St.store, St.withOffset, hid]

theorem fileData_length (hfit : t.Fitting) {i : Nat} (hi : t.IsFile i) :
    (t.fileData i).length = (t.ino i).size := by
  have := hfit i hi
  rw [View.fileData, List.length_take, INode.fileBytes_length]
  omega

/-- Reading from the blocks is reading from the contents. -/
theorem readBytes_eq (len : Nat) :
    readBytes t m len = ((t.fileData m.inode).drop m.offset).take len := by
  rw [readBytes, View.fileData, Lib.slice, List.drop_take, List.take_take]

theorem following_withOffset (ht : g.Following t) (hopen : t.openFiles id = some m) (x : Nat) :
    g.Following (t.withOffset id m x) where
  toInv := ht.congr rfl ⟨ht.cursors.lastInode, ht.cursors.lastData⟩
  handled := handled_withOffset ht.handled hopen x
  targeted := ht.targeted
  fitting := ht.fitting
  numbered id' m' hm' := by
    simp only [St.withOffset, Function.update_apply] at hm'
    split at hm'
    · rename_i heq
      rw [heq]
      exact ht.numbered id m hopen
    · exact ht.numbered id' m' hm'

/-! ## One call -/

/-- The position and the bytes of a handle's file that a read leaves and answers. -/
theorem step_read {len : Nat} {bs : List UInt8} (hs : g.Rep s t) (ht : g.Following t)
    (hrun : read id len s = .ok bs s') :
    ∃ t', g.Rep s' t' ∧ g.Following t' ∧ FileStore.Step 0 t.store (.read id len bs) t'.store := by
  obtain ⟨m, hopen⟩ := open_of_ok hs hrun
  have hfile : t.IsFile m.inode := ht.handled id m hopen
  have hlen := fileData_length ht.fitting hfile
  have hread : ∀ {x}, bs = ((t.fileData m.inode).drop m.offset).take len →
      x = m.offset + bs.length →
      FileStore.Step 0 t.store (.read id len bs) (t.withOffset id m x).store := by
    intro x hbs hx
    rw [store_withOffset, hx]
    exact .read (store_handle hopen) (store_file hfile) hbs
  obtain ⟨t', hs', hend⟩ :=
    (wpr_readFile ((ht.usable hfile.1).handle hopen)).of_ok hs hrun
  by_cases h0 : len = 0
  · have hstay : (t' = t ∧ bs = []) ∨ ∃ x, t' = t.withOffset id m x ∧ bs = [] ∧ x = m.offset := by
      rcases hend with ⟨rfl, rfl⟩ | ⟨m', hm', -, hbs, rfl⟩
      · exact .inl ⟨rfl, rfl⟩
      · cases hopen.symm.trans hm'
        exact .inr ⟨_, rfl, by rw [hbs, readBytes_eq, h0, List.take_zero], by rw [h0]; simp⟩
    have hsame : t' = t.withOffset id m m.offset ∧ bs = [] := by
      rcases hstay with ⟨rfl, rfl⟩ | ⟨x, rfl, rfl, rfl⟩
      · exact ⟨(St.withOffset_self hopen).symm, rfl⟩
      · exact ⟨rfl, rfl⟩
    obtain ⟨rfl, rfl⟩ := hsame
    refine ⟨_, hs', ?_, hread (by rw [h0, List.take_zero]) rfl⟩
    rw [St.withOffset_self hopen]
    exact ht
  · have hsize : (t.ino m.inode).size ≤ (t.ino m.inode).blocks * BLOCK_SIZE := by
      rw [Nat.mul_comm]
      exact ht.fitting _ hfile
    obtain ⟨s₁, hok, hs₁⟩ := runs_read (ht.usable hfile.1) hopen h0 hsize s hs
    rw [hok] at hrun
    cases hrun
    refine ⟨_, hs₁, following_withOffset ht hopen _, hread (readBytes_eq len) ?_⟩
    rw [readBytes_eq, List.length_take, List.length_drop, hlen]

theorem step_seek {pos : SeekFrom} {p : Nat} (hs : g.Rep s t) (ht : g.Following t)
    (hrun : seek id pos s = .ok p s') : ∃ t', g.Rep s' t' ∧ g.Following t' ∧
      Tells s (.seek id pos) (.moved id p) s' ∧
      FileStore.Step 0 t.store (.moved id p) t'.store := by
  obtain ⟨t', hs', m, hopen, hp, rfl⟩ :=
    (wpr_seek fun m hopen => ht.usable (ht.handled id m hopen).1).of_ok hs hrun
  have hfile : t.IsFile m.inode := ht.handled id m hopen
  have hhandle : s.store.handles id = some (m.inode, m.offset) := by
    rw [hs.store_eq]
    exact store_handle hopen
  have hcontents : s.store.files m.inode = some (t.fileData m.inode) := by
    rw [hs.store_eq]
    exact store_file hfile
  rw [seekPosition, ← fileData_length ht.fitting hfile] at hp
  refine ⟨_, hs', following_withOffset ht hopen p, .seek hhandle hcontents hp hrun, ?_⟩
  rw [store_withOffset]
  exact .moved (store_handle hopen)

/-- Changing one file leaves a filesystem that can be followed. -/
theorem following_leaf {i : Nat} {l ds : List Nat} (ht : g.Following t)
    (hl : Inv.Leaf g t t' i l ds) (hcur : t'.CursorsIn g) (hi : t.IsFile i)
    (hfits : (t'.ino i).size ≤ BLOCK_SIZE * (t'.ino i).blocks) (hh : t'.Handled)
    (hnum : t'.Numbered) : g.Following t' where
  toInv := hl.inv ht.toInv hcur
  handled := hh
  targeted := by
    apply Targeted.of_kept ht.targeted
    intro j hj hsym
    by_cases hji : j = i
    · rw [hji, hl.fileType, hi.2] at hsym
      cases hsym
    · rw [hl.ibit] at hj
      rw [hl.other j hji] at hsym ⊢
      exact ⟨hj, hsym, Nat.le_refl _⟩
  fitting := by
    intro j hj
    by_cases hji : j = i
    · rw [hji]
      exact hfits
    · rw [hl.other j hji]
      refine ht.fitting j ⟨?_, ?_⟩
      · rw [← hl.ibit]
        exact hj.1
      · rw [← hl.other j hji]
        exact hj.2
  numbered := hnum

/-- The files other than the changed one. -/
theorem files_leaf {i : Nat} {l ds : List Nat} {c : List UInt8} (h : g.Intact gaps t)
    (hl : Inv.Leaf g t t' i l ds) (hi : t.IsFile i) (hc : t'.fileData i = c) :
    t'.store.files = Function.update t.store.files i (some c) := by
  funext j
  by_cases hji : j = i
  · subst hji
    rw [Function.update_self, ← hc]
    refine if_pos ⟨?_, ?_⟩
    · rw [hl.ibit]
      exact hi.1
    · rw [hl.fileType]
      exact hi.2
  · rw [Function.update_of_ne hji]
    exact (St.Kept.of_same (congrFun hl.ibit j) fun hj => hl.same h hj hji).files_eq

theorem step_truncate {size now : UInt64} (hs : g.Rep s t) (ht : g.Following t)
    (hopen : t.openFiles id = some m) (hrun : truncate id size now s = .ok () s') :
    ∃ t', g.Rep s' t' ∧ g.Following t' ∧
      FileStore.Step 0 t.store (.cut m.inode size.toNat) t'.store := by
  have hfile : t.IsFile m.inode := ht.handled id m hopen
  have hstep : ∀ {t₁ : St}, t₁.store.files =
      Function.update t.store.files m.inode (some ((t.fileData m.inode).take size.toNat)) →
      t₁.store.handles = t.store.handles →
      FileStore.Step 0 t.store (.cut m.inode size.toNat) t₁.store := by
    intro t₁ hfiles hhandles
    have heq : t₁.store = { t.store with
        files :=
          Function.update t.store.files m.inode (some ((t.fileData m.inode).take size.toNat)) } :=
      FileStore.ext hfiles hhandles
    rw [heq]
    exact .cut (store_file hfile)
  by_cases hlt : size.toNat < (t.ino m.inode).size
  · obtain ⟨s₁, hok, hs₁⟩ := runs_truncate (ht.usable hfile.1) hopen hlt s hs
    rw [hok] at hrun
    cases hrun
    have hleaf : Inv.Leaf g t (t.truncated m.inode size.toNat now) m.inode [] [] :=
      leaf_truncated ht.toInv hfile.1 (by simp [hfile.2]) hlt
    refine ⟨_, hs₁, following_leaf ht hleaf ⟨ht.cursors.lastInode, ht.cursors.lastData⟩ hfile ?_ ?_
      ht.numbered, hstep (files_leaf ht.toIntact hleaf hfile ?_) rfl⟩
    · have hfit := ht.fitting _ hfile
      rw [St.truncated_ino]
      exact Nat.le_trans (Nat.le_of_lt hlt) hfit
    · intro id' m' hm'
      have hold := ht.handled id' m' hm'
      refine ⟨hold.1, ?_⟩
      by_cases hmm : m'.inode = m.inode
      · rw [hmm, hleaf.fileType]
        exact hfile.2
      · rw [hleaf.other _ hmm]
        exact hold.2
    · rw [View.fileData, View.fileData, St.truncated_ino, List.take_take,
        Nat.min_eq_left (Nat.le_of_lt hlt)]
      rfl
  · obtain ⟨t', hs', rfl | ⟨m', hm', hlt', -⟩⟩ :=
      (wpr_truncate ((ht.usable hfile.1).handle hopen)).of_ok hs hrun
    · refine ⟨_, hs', ht, hstep ?_ rfl⟩
      have hlen := fileData_length ht.fitting hfile
      rw [List.take_of_length_le (by omega), ← store_file hfile, Function.update_eq_self]
    · cases hopen.symm.trans hm'
      exact absurd hlt' hlt

theorem step_closeFile (hs : g.Rep s t) (ht : g.Following t)
    (hrun : closeFile id s = .ok () s') :
    ∃ t', g.Rep s' t' ∧ g.Following t' ∧ FileStore.Step 0 t.store (.closed id) t'.store := by
  have hruns : Prog.Runs g.Rep (closeFile id) t () (t.closed id) := runs_closeFile
  obtain ⟨s₁, hok, hs₁⟩ := hruns s hs
  rw [hok] at hrun
  cases hrun
  refine ⟨_, hs₁, ?_, ?_⟩
  · exact
      { toInv := ht.congr rfl ⟨ht.cursors.lastInode, ht.cursors.lastData⟩
        handled := handled_closed ht.handled
        targeted := ht.targeted
        fitting := ht.fitting
        numbered := by
          intro id' m' hm'
          simp only [St.closed, Function.update_apply] at hm'
          split at hm'
          · cases hm'
          · exact ht.numbered id' m' hm' }
  · have heq : (t.closed id).store =
        { t.store with handles := Function.update t.store.handles id none } := by
      refine FileStore.ext rfl (funext fun id' => ?_)
      by_cases hid : id' = id
      · subst hid
        simp [St.store, St.closed]
      · simp [St.store, St.closed, hid]
    rw [heq]
    exact .closed

/-- A file is opened under a new id. -/
theorem step_opened {i : Nat} (ht : g.Following t) (hi : t.IsFile i) :
    g.Following (t.opened i) ∧
      FileStore.Step 0 t.store (.opened t.nextFileId i) (t.opened i).store := by
  have hfree : t.openFiles t.nextFileId = none := by
    cases hopen : t.openFiles t.nextFileId with
    | none => rfl
    | some m => exact absurd (ht.numbered _ m hopen) (Nat.lt_irrefl _)
  constructor
  · exact
      { toInv := ht.congr rfl ⟨ht.cursors.lastInode, ht.cursors.lastData⟩
        handled := handled_opened ht.handled hi.1 hi.2
        targeted := ht.targeted
        fitting := ht.fitting
        numbered := by
          intro id' m' hm'
          simp only [St.opened, Function.update_apply] at hm'
          split at hm'
          · rename_i heq
            rw [heq]
            exact Nat.lt_succ_self _
          · exact Nat.lt_succ_of_lt (ht.numbered id' m' hm') }
  · have heq : (t.opened i).store =
        { t.store with handles :=
          Function.update t.store.handles t.nextFileId (some (i, 0)) } := by
      refine FileStore.ext rfl (funext fun id' => ?_)
      by_cases hid : id' = t.nextFileId
      · subst hid
        simp [St.store, St.opened]
      · simp [St.store, St.opened, hid]
    have hnone : t.store.handles t.nextFileId = none := by
      simp only [St.store, hfree, Option.map_none]
    rw [heq]
    exact .opened hnone (store_file hi)

theorem step_openFile {path : Str} (hs : g.Rep s t) (ht : g.Following t)
    (hrun : openFile path s = .ok id s') : ∃ r t', s.resolve (Path.components path) true = some r ∧
      g.Rep s' t' ∧ g.Following t' ∧
      FileStore.Step 0 t.store (.opened id r.targetInodeIndex) t'.store := by
  obtain ⟨r, hr, hreach, hfile, rfl, hs'⟩ := (wp_openFile hs ht.toInv).of_ok hrun
  exact ⟨r, _, hr, hs', step_opened ht ⟨ht.reach_live hreach, hfile⟩⟩

/-- A write that wrote something puts it where the handle stands. -/
theorem Wrote.store {buf : List UInt8} {now : UInt64} {metas datas : List Nat}
    {data₁ data' : Region} {n₁ : INode} {k : Nat} (hs : g.Rep s t) (hs' : g.Rep s' t')
    (ht : g.Following t) (hw : g.Wrote t id m buf now metas datas data₁ n₁ data' k t')
    (hlow : m.offset < 2 ^ 40) (hzero : s.ZeroUpTo m.inode m.offset) (hk : k ≠ 0) :
    g.Following t' ∧ FileStore.Step 0 t.store (.wrote id (buf.take k)) t'.store := by
  have hfile : t.IsFile m.inode := ht.handled id m hw.opened
  have hu := ht.usable hfile.1
  have hleaf := hw.leaf ht.toIntact hfile.1 hfile.2
  have hcount := hw.count
  have hlen : (buf.take k).length = k := by
    rw [List.length_take]
    omega
  have hsize : (t'.ino m.inode).size = max (t.ino m.inode).size (m.offset + k) := by
    rw [hw.ino_self]
    show max n₁.size (m.offset + k) = _
    rw [hw.prepared.grows.size]
  have hblocks' : (t'.ino m.inode).blocks = n₁.blocks := by rw [hw.ino_self]
  have hblocks : n₁.blocks = (t.ino m.inode).blocks + datas.length := hw.prepared.grows.blocks
  have hle := Nat.mul_le_mul_left BLOCK_SIZE (Nat.le.intro hblocks.symm)
  have hend : m.offset + k ≤ BLOCK_SIZE * n₁.blocks := by
    rw [blockPosition_eq hlow] at hcount
    omega
  have hfits : (t.ino m.inode).size ≤ BLOCK_SIZE * (t.ino m.inode).blocks := ht.fitting _ hfile
  have hnew : t'.fileData m.inode =
      FileStore.put 0 (t.fileData m.inode) m.offset (buf.take k) := by
    have hover := (hw.overwrites_iff hs hs' hu).mpr (.inl hlow)
    rw [hs.bytes_eq, hs'.bytes_eq] at hover
    rw [FFS.ZeroUpTo, hs.view_eq, hs.bytes_eq] at hzero
    have hdone : overwritten (t.fileData m.inode) m.offset (buf.take k) =
        ((t'.ino m.inode).fileBytes t'.data).take
          (max (t.ino m.inode).size (m.offset + (buf.take k).length)) := by
      refine overwritten_take ?_ hover ?_ ?_ hzero
      · intro hnil
        rw [hnil, List.length_nil] at hlen
        exact hk hlen.symm
      · rw [INode.fileBytes_length]
        exact hfits
      · rw [INode.fileBytes_length, hlen, hblocks']
        omega
    rw [hlen, ← hsize] at hdone
    rw [← overwritten_eq_put, hdone]
    rfl
  refine ⟨following_leaf ht hleaf (hw.cursors ht.cursors) hfile ?_
    (hw.handled ht.toInv ht.handled) ?_, ?_⟩
  · rw [hsize, hblocks']
    omega
  · intro id' m' hm'
    have hnext : t'.nextFileId = t.nextFileId := by
      rw [hw.state]
      rfl
    rw [hnext]
    rw [hw.openFiles_eq, Function.update_apply] at hm'
    split at hm'
    · rename_i heq
      rw [heq]
      exact ht.numbered id m hw.opened
    · exact ht.numbered id' m' hm'
  · have heq : t'.store =
        { files := Function.update t.store.files m.inode
            (some (FileStore.put 0 (t.fileData m.inode) m.offset (buf.take k)))
          handles := Function.update t.store.handles id
            (some (m.inode, m.offset + (buf.take k).length)) } := by
      refine FileStore.ext (files_leaf ht.toIntact hleaf hfile hnew) (funext fun id' => ?_)
      by_cases hid : id' = id
      · subst hid
        simp [St.store, hw.openFiles_eq, hlen]
      · simp [St.store, hw.openFiles_eq, hid]
    rw [heq]
    exact .wrote (store_handle hw.opened) (store_file hfile)

/-- A write that comes to a block writes something. -/
theorem Wrote.count_ne_zero {buf : List UInt8} {now : UInt64} {metas datas : List Nat}
    {data₁ data' : Region} {n₁ : INode} {k : Nat} (hs : g.Rep s t)
    (hw : g.Wrote t id m buf now metas datas data₁ n₁ data' k t') (hlow : m.offset < 2 ^ 40) :
    k ≠ 0 ↔ ∀ b ∈ s.blocksAfter m buf.length, m.offset / BLOCK_SIZE < b := by
  have hbs : BLOCK_SIZE = 256 := rfl
  have hbuf : 0 < buf.length := List.length_pos_iff.mpr hw.nonempty
  have hcount := hw.count
  rw [blockPosition_eq hlow, hbs] at hcount
  rw [hw.prepared.blocksAfter hs, hbs]
  constructor
  · intro hk b hb
    cases hb
    omega
  · intro h
    have hlt := h n₁.blocks rfl
    omega

/-- Writing nothing is no change. -/
theorem wrote_nil (ht : g.Following t) (hopen : t.openFiles id = some m) :
    FileStore.Step 0 t.store (.wrote id []) t.store := by
  have hfile : t.IsFile m.inode := ht.handled id m hopen
  have hfiles := Function.update_eq_self m.inode t.store.files
  have hhandles := Function.update_eq_self id t.store.handles
  rw [store_file hfile] at hfiles
  rw [store_handle hopen] at hhandles
  have hstep : FileStore.Step 0 t.store (.wrote id [])
      ⟨Function.update t.store.files m.inode (some (t.fileData m.inode)),
        Function.update t.store.handles id (some (m.inode, m.offset))⟩ :=
    .wrote (store_handle hopen) (store_file hfile)
  rw [hfiles, hhandles] at hstep
  exact hstep

theorem step_write {buf : List UInt8} {now : UInt64} {n : Nat} (hs : g.Rep s t)
    (ht : g.Following t) (hexact : Op.Exact s (.write id buf now))
    (hrun : write id buf now s = .ok n s') : ∃ t', g.Rep s' t' ∧ g.Following t' ∧
      FileStore.Step 0 t.store (.wrote id (buf.take n)) t'.store := by
  obtain ⟨m, hopen⟩ := open_of_ok hs hrun
  have hfile : t.IsFile m.inode := ht.handled id m hopen
  obtain ⟨t', hs', hend⟩ := (wpr_write ((ht.usable hfile.1).handle hopen)).of_ok hs hrun
  rcases hend with ⟨rfl, rfl, rfl⟩ | ⟨m', metas, datas, data₁, n₁, data', hw⟩
  · exact ⟨_, hs', ht, wrote_nil ht hopen⟩
  · cases hopen.symm.trans hw.opened
    have hopen' : s.format.openFiles id = some m := by
      rw [hs.openFiles_eq]
      exact hopen
    obtain ⟨hlow, hzero, hreach⟩ := hexact id buf now m rfl hopen' hw.nonempty
    obtain ⟨ht', hev⟩ := hw.store hs hs' ht hlow hzero ((hw.count_ne_zero hs hlow).mpr hreach)
    exact ⟨t', hs', ht', hev⟩

/-- A write that fails leaves every file alone. -/
theorem WriteFailed.kept {len : Nat} {err : FSError} (h : g.Intact gaps t)
    (hf : g.WriteFailed t id len err t') : ∀ j, t.Kept t' j := by
  intro j
  cases hf with
  | closed => exact .refl
  | grow hopen hne hlast hfinal hf =>
      cases hf with
      | short => exact .refl
      | empty => exact ⟨Iff.rfl, fun _ => rfl, fun _ => rfl⟩
      | tooLarge hg =>
          refine .of_same rfl fun hj => ⟨rfl, fun b hb => ?_⟩
          exact zeroed_of_not_mem fun hd =>
            h.fresh_not_owned hj (hg.fresh.clear b (List.mem_append_right _ hd)) hb

/-- And so the store. -/
theorem WriteFailed.store {len : Nat} {err : FSError} (ht : g.Following t)
    (hf : g.WriteFailed t id len err t') : g.Following t' ∧ t'.store = t.store := by
  have hinv : g.Inv true t' := hf.inv ht.toInv ht.handled
  have hh : t'.Handled := hf.handled ht.handled
  have hfiles := funext fun j => (hf.kept ht.toIntact j).files_eq
  cases hf with
  | closed => exact ⟨ht, rfl⟩
  | grow hopen hne hlast hfinal hf =>
      cases hf with
      | short => exact ⟨ht, rfl⟩
      | empty =>
          exact ⟨⟨⟨hinv, hh, ht.targeted⟩, ht.fitting, ht.numbered⟩, FileStore.ext hfiles rfl⟩
      | tooLarge =>
          exact ⟨⟨⟨hinv, hh, ht.targeted⟩, ht.fitting, ht.numbered⟩, FileStore.ext hfiles rfl⟩

/-- A call on names leaves a filesystem that can be followed. -/
theorem following_of_effect (hs : g.Rep s t) (ht : g.Following t) (hcareful : op.Careful s)
    {ev : FileStore.Event Nat Nat UInt8} (hturns : t.Turns t' ev)
    (hopen : t'.openFiles = t.openFiles) (hnext : t'.nextFileId = t.nextFileId)
    (he : Effect g true s t op t') : g.Following t' where
  toInv := inv_of_effect hs ht.toInv (fun _ => ht.handled) (.inl rfl) he
  handled := handled_of_effect hs ht.toInv ht.handled hcareful.2 he
  targeted := targeted_of_effect ht.toInv ht.handled ht.targeted he
  fitting := hturns.fitting ht.fitting
  numbered id m hm := by
    rw [hopen] at hm
    rw [hnext]
    exact ht.numbered id m hm

/-- A new file is empty. -/
theorem step_createFile {path : Str} {now : UInt64} (hs : g.Rep s t) (ht : g.Following t)
    (hok : Op.Tracked s (.createFile path now)) (hrun : createFile path now s = .ok () s') :
    ∃ i t', g.Rep s' t' ∧ g.Following t' ∧ FileStore.Step 0 t.store (.born i) t'.store := by
  have hwp : Prog.wp (createFile path now)
      (fun _ s' => ∃ i t', g.Rep s' t' ∧ g.Following t' ∧
        FileStore.Step 0 t.store (.born i) t'.store) (fun _ _ => True) s := by
    refine Prog.wp_seq (wp_create hs ht.toInv fun hsplit hr => .file hsplit hr) ?_
      fun _ _ _ => trivial
    intro a s₁ hmade
    obtain ⟨p, name, fit, ds, n', data', t', hs', hc, hp, hd, hdd, hfit, -, hcr⟩ := hmade
    have hdir := hok.intoDirs _ _ (.create hc)
    rw [hs.view_eq] at hdir
    have hturns : t.Turns t' (.born a.2) := hcr.turns ht.toIntact hp hdir
    have hopen : t'.openFiles = t.openFiles := by
      rw [hcr.state]
      rfl
    have hnext : t'.nextFileId = t.nextFileId := by
      rw [hcr.state]
      rfl
    refine ⟨a.2, t', hs', ?_, hturns.step hopen fun i hi => by cases hi⟩
    exact following_of_effect hs ht hok.careful hturns hopen hnext (.created hc hp hd hdd hfit hcr)
  exact hwp.of_ok hrun

theorem step_names (hs : g.Rep s t) (ht : g.Following t) (hok : op.Tracked s) (hop : op.Names)
    (hstep : Step s op s') : ∃ ev t', g.Rep s' t' ∧ g.Following t' ∧
      FileStore.Step 0 t.store ev t'.store ∧
      (ev = .idle ∨ (∃ i, ev = .born i) ∨ ∃ i, ev = .gone i ∧ Deletes s op i ∧
        (t.ino i).links ≤ 1) := by
  obtain ⟨t', hs', he⟩ := effect_of_step hs ht.toInv (fun _ => ht.handled) hok.careful.1
    (.inl rfl : op.Roomy true s) hstep
  obtain ⟨hopen, hnext, ev, hturns, hev⟩ :=
    turns_of_effect hs ht.toInv (.inl rfl) hop hok.intoDirs he
  refine ⟨ev, t', hs', following_of_effect hs ht hok.careful hturns hopen hnext he, ?_, hev⟩
  refine hturns.step hopen fun i hi id m hm => ?_
  rcases hev with rfl | ⟨j, rfl⟩ | ⟨j, rfl, hdel, hlinks⟩
  · cases hi
  · cases hi
  · cases hi
    refine hok.careful.2 i hdel ?_ id m ?_
    · rw [hs.view_eq]
      exact hlinks
    · rw [hs.openFiles_eq]
      exact hm

/-- Of a call only whether it returns is kept. -/
theorem ignored {α : Type} {m : FsM α} (h : (ignoreResult m s).state? = some s') :
    (∃ a, m s = .ok a s') ∨ ∃ e, m s = .err e s' ∧ ignoreResult m s = .err e s' := by
  unfold ignoreResult at h ⊢
  cases hm : m s with
  | ok a s₁ =>
      rw [Prog.bind_of_ok hm] at h
      cases h
      exact .inl ⟨a, rfl⟩
  | err e s₁ =>
      rw [Prog.bind_of_err hm] at h ⊢
      cases h
      exact .inr ⟨e, rfl, rfl⟩
  | panic =>
      rw [Prog.bind_of_panic hm] at h
      cases h

/-- A call takes the store on by the event that it stands for. -/
theorem step_refines (hs : g.Rep s t) (ht : g.Following t) (hok : op.Tracked s)
    (hstep : Step s op s') : ∃ ev t', g.Rep s' t' ∧ g.Following t' ∧ Tells s op ev s' ∧
      FileStore.Step 0 t.store ev t'.store ∧
      ∀ i, t.IsFile i → ev.Alters t.store i → op.Alters s i := by
  have hquiet : ∀ {s₁ : FFS} {t₁ : St} {e : FSError}, ¬ op.Names → op.exec s = .err e s₁ →
      g.Rep s₁ t₁ → g.Following t₁ → t₁.store = t.store →
      ∃ ev t', g.Rep s₁ t' ∧ g.Following t' ∧ Tells s op ev s₁ ∧
        FileStore.Step 0 t.store ev t'.store ∧
        ∀ i, t.IsFile i → ev.Alters t.store i → op.Alters s i := by
    intro s₁ t₁ e hop herr hs₁ ht₁ heq
    refine ⟨.idle, t₁, hs₁, ht₁, .failed hop herr, ?_, fun i _ hev => hev.elim⟩
    rw [heq]
    exact .idle
  have hnames : op.Names → (∀ path now, op = .createFile path now → ∃ e, op.exec s = .err e s') →
      ∃ ev t', g.Rep s' t' ∧ g.Following t' ∧ Tells s op ev s' ∧
        FileStore.Step 0 t.store ev t'.store ∧
        ∀ i, t.IsFile i → ev.Alters t.store i → op.Alters s i := by
    intro hop hnot
    obtain ⟨ev, t', hs', ht', hev, hkind⟩ := step_names hs ht hok hop hstep
    refine ⟨ev, t', hs', ht', .names hop hstep hnot ?_, hev, fun i hi halt => ?_⟩
    · exact hkind.imp_right (Or.imp_right fun ⟨i, heq, hdel, _⟩ => ⟨i, heq, hdel⟩)
    · rcases hkind with rfl | ⟨j, rfl⟩ | ⟨j, rfl, hdel, hlinks⟩
      · exact halt.elim
      · have hnone := hev.files_of_born
        have hji : j = i := halt
        rw [hji, store_file hi] at hnone
        cases hnone
      · have hji : j = i := halt
        subst hji
        refine .inl ⟨hdel, ?_⟩
        rw [hs.view_eq]
        exact hlinks
  have husable : ∀ id m, t.openFiles id = some m → g.Usable t m.inode :=
    fun id m hopen => ht.usable (ht.handled id m hopen).1
  cases op with
  | createFile path now =>
      cases hrun : createFile path now s with
      | ok a s₁ =>
          have hstate : (createFile path now s).state? = some s' := hstep
          rw [hrun] at hstate
          cases hstate
          obtain ⟨i, t', hs', ht', hev⟩ := step_createFile hs ht hok hrun
          refine ⟨.born i, t', hs', ht', .createFile hrun, hev, fun j hj halt => ?_⟩
          have hnone := hev.files_of_born
          have hij : i = j := halt
          rw [hij, store_file hj] at hnone
          cases hnone
      | err e s₁ =>
          have hstate : (createFile path now s).state? = some s' := hstep
          rw [hrun] at hstate
          cases hstate
          exact hnames trivial fun _ _ _ => ⟨e, hrun⟩
      | panic =>
          have hstate : (createFile path now s).state? = some s' := hstep
          rw [hrun] at hstate
          cases hstate
  | createDirectory path now => exact hnames trivial fun _ _ heq => by cases heq
  | createSymlink path target now now' => exact hnames trivial fun _ _ heq => by cases heq
  | createHardlink src dst now => exact hnames trivial fun _ _ heq => by cases heq
  | delete path now => exact hnames trivial fun _ _ heq => by cases heq
  | createChild ft name p now => exact hnames trivial fun _ _ heq => by cases heq
  | createChildHardlink i dst p now => exact hnames trivial fun _ _ heq => by cases heq
  | deleteChild name p ty now => exact hnames trivial fun _ _ heq => by cases heq
  | openFile path =>
      rcases ignored hstep with ⟨id, hrun⟩ | ⟨e, hrun, herr⟩
      · obtain ⟨r, t', hr, hs', ht', hev⟩ := step_openFile hs ht hrun
        exact ⟨_, t', hs', ht', .openFile hr hrun, hev, fun i _ halt => halt.elim⟩
      · have hsame := (wp_openFile hs ht.toInv).of_err hrun
        subst hsame
        exact hquiet id herr hs ht rfl
  | closeFile id =>
      have hruns : Prog.Runs g.Rep (closeFile id) t () _ := runs_closeFile
      obtain ⟨s₁, hok₁, -⟩ := hruns s hs
      have hstate : (closeFile id s).state? = some s' := hstep
      rw [hok₁] at hstate
      cases hstate
      obtain ⟨t', hs', ht', hev⟩ := step_closeFile hs ht hok₁
      exact ⟨_, t', hs', ht', .closeFile hok₁, hev, fun i _ halt => halt.elim⟩
  | seek id pos =>
      rcases ignored hstep with ⟨p, hrun⟩ | ⟨e, hrun, herr⟩
      · obtain ⟨t', hs', ht', htells, hev⟩ := step_seek hs ht hrun
        exact ⟨_, t', hs', ht', htells, hev, fun i _ halt => halt.elim⟩
      · obtain ⟨t', hs', rfl⟩ := (wpr_seek (husable id)).of_err hs hrun
        exact hquiet (fun h => h) herr hs' ht rfl
  | read id len =>
      rcases ignored hstep with ⟨bs, hrun⟩ | ⟨e, hrun, herr⟩
      · obtain ⟨t', hs', ht', hev⟩ := step_read hs ht hrun
        exact ⟨_, t', hs', ht', .read hrun, hev, fun i _ halt => halt.elim⟩
      · obtain ⟨t', hs', rfl⟩ := (wpr_readFile (husable id)).of_err hs hrun
        exact hquiet (fun h => h) herr hs' ht rfl
  | write id buf now =>
      rcases ignored hstep with ⟨n, hrun⟩ | ⟨e, hrun, herr⟩
      · obtain ⟨m, hopen⟩ := open_of_ok hs hrun
        have halters : ∀ {n} i, t.IsFile i →
            (FileStore.Event.wrote id (buf.take n) : FileStore.Event Nat Nat UInt8).Alters
              t.store i → Op.Alters s i (.write id buf now) := by
          intro n i _ halt
          obtain ⟨p, hp⟩ := halt
          rw [store_handle hopen] at hp
          cases hp
          refine .inr ⟨id, m, ?_, rfl, .inl ⟨buf, now, rfl⟩⟩
          rw [hs.openFiles_eq]
          exact hopen
        obtain ⟨t', hs', ht', hev⟩ := step_write hs ht hok.exact hrun
        exact ⟨_, t', hs', ht', .write hrun, hev, halters⟩
      · obtain ⟨t', hs', hf⟩ := (wpr_write (husable id)).of_err hs hrun
        obtain ⟨ht', heq⟩ := hf.store ht
        exact hquiet (fun h => h) herr hs' ht' heq
  | truncate id size now =>
      cases hrun : truncate id size now s with
      | ok a s₁ =>
          have hstate : (truncate id size now s).state? = some s' := hstep
          rw [hrun] at hstate
          cases hstate
          obtain ⟨m, hopen⟩ := open_of_ok hs hrun
          have hopen' : s.format.openFiles id = some m := by
            rw [hs.openFiles_eq]
            exact hopen
          obtain ⟨t', hs', ht', hev⟩ := step_truncate hs ht hopen hrun
          refine ⟨_, t', hs', ht', .truncate hopen' hrun, hev, fun i _ halt => ?_⟩
          exact .inr ⟨id, m, hopen', halt, .inr ⟨size, now, rfl⟩⟩
      | err e s₁ =>
          have hstate : (truncate id size now s).state? = some s' := hstep
          rw [hrun] at hstate
          cases hstate
          obtain ⟨t', hs', rfl⟩ := (wpr_truncate (husable id)).of_err hs hrun
          exact hquiet (fun h => h) hrun hs' ht rfl
      | panic =>
          have hstate : (truncate id size now s).state? = some s' := hstep
          rw [hrun] at hstate
          cases hstate

end Geom

/-! ## Runs -/

namespace Geom

variable {g : Geom} {s s' s₀ s₁ s₂ : FFS} {t t₀ t₁ : St} {op : Op} {i : Nat}

theorem following_of_initial {now : UInt64} (h : g.Initial now t) :
    g.Following t ∧ t.store = .empty := by
  have hnone : ∀ i, ¬ t.IsFile i := by
    intro i hi
    have hfile := hi.2
    rw [(h.ibit i).mp hi.1, h.root, firstNode_fileType] at hfile
    cases hfile
  refine ⟨⟨.of_initial h, fun i hi => absurd hi (hnone i), fun id m hm => ?_⟩, ?_⟩
  · rw [h.openFiles] at hm
    cases hm
  · refine FileStore.ext (funext fun i => if_neg (hnone i)) (funext fun id => ?_)
    simp only [St.store, h.openFiles, FileStore.empty, Option.map_none]

/-- A tracked run can be followed, and so can its store. -/
theorem following_of_run (hrun : Run Op.Tracked s₀ s) (hs₀ : g.Rep s₀ t₀)
    (h₀ : g.Following t₀) : ∃ t log, g.Rep s t ∧ g.Following t ∧
      FileStore.Run 0 (fun _ _ => True) t₀.store log t.store := by
  induction hrun with
  | nil => exact ⟨t₀, [], hs₀, h₀, .nil⟩
  | snoc _ hok hstep ih =>
      obtain ⟨t, log, hs, ht, hlog⟩ := ih
      obtain ⟨ev, t', hs', ht', -, hev, -⟩ := step_refines hs ht hok hstep
      exact ⟨t', _, hs', ht', hlog.snoc trivial hev⟩

/-- Calls that do not alter a file take the store through events that do not. -/
theorem unaltered_run (hrun : Run (fun s op => op.Tracked s ∧ ¬ op.Alters s i) s₁ s₂)
    (hs₁ : g.Rep s₁ t₁) (h₁ : g.Following t₁) (hi : t₁.IsFile i) :
    ∃ t log, g.Rep s₂ t ∧ g.Following t ∧ t.IsFile i ∧
      FileStore.Run 0 (fun st ev => ¬ ev.Alters st i) t₁.store log t.store := by
  induction hrun with
  | nil => exact ⟨t₁, [], hs₁, h₁, hi, .nil⟩
  | snoc _ hok hstep ih =>
      obtain ⟨t, log, hs, ht, hfile, hlog⟩ := ih
      obtain ⟨ev, t', hs', ht', -, hev, halters⟩ := step_refines hs ht hok.1 hstep
      have hquiet : ¬ ev.Alters t.store i := fun halt => hok.2 (halters i hfile halt)
      have hsame := hev.file_eq hquiet
      rw [store_file hfile] at hsame
      have hfile' : t'.IsFile i := by
        by_contra hnot
        have hnone : t'.store.files i = none := if_neg hnot
        rw [hnone] at hsame
        cases hsame
      exact ⟨t', _, hs', ht', hfile', hlog.snoc hquiet hev⟩

end Geom

/-- What a write has written is read back at its position through any handle on the file, as
long as no call in between writes to the file, cuts it or deallocates it. -/
theorem written_reads_back {d : MemoryDevice} {now now' : UInt64} {s₀ s s₁ s₂ s₃ : FFS}
    {id id' n : Nat} {m : FileMetadata} {buf out : List UInt8}
    (hstart : start now d = some s₀) (hrun : Run Op.Tracked s₀ s)
    (hopen : s.format.openFiles id = some m) (hbuf : buf ≠ [])
    (hok : Op.Tracked s (.write id buf now')) (hwrite : write id buf now' s = .ok n s₁)
    (hlater : Run (fun s op => op.Tracked s ∧ ¬ op.Alters s m.inode) s₁ s₂)
    (hopen' : s₂.format.openFiles id' = some m) (hread : read id' n s₂ = .ok out s₃) :
    out = buf.take n := by
  obtain ⟨g, t₀, -, hs₀, hinit⟩ := Geom.start_initial hstart
  obtain ⟨h₀, -⟩ := Geom.following_of_initial hinit
  obtain ⟨t, -, hs, ht, -⟩ := Geom.following_of_run hrun hs₀ h₀
  rw [hs.openFiles_eq] at hopen
  have hfile : t.IsFile m.inode := ht.handled id m hopen
  obtain ⟨hlow, hzero, hreach⟩ := hok.exact id buf now' m rfl (hs.openFiles_eq ▸ hopen) hbuf
  obtain ⟨t₁, hs₁, hend⟩ :=
    (Geom.wpr_write ((ht.usable hfile.1).handle hopen)).of_ok hs hwrite
  rcases hend with ⟨hnil, -, -⟩ | ⟨m', metas, datas, data₁, n₁, data', hw⟩
  · exact absurd hnil hbuf
  cases hopen.symm.trans hw.opened
  have hn := (hw.count_ne_zero hs hlow).mpr hreach
  obtain ⟨ht₁, hev⟩ := hw.store hs hs₁ ht hlow hzero hn
  have hopen₁ : t₁.openFiles id = some { m with offset := m.offset + n } := by
    rw [hw.openFiles_eq, Function.update_self]
  have hfile₁ : t₁.IsFile m.inode := ht₁.handled id { m with offset := m.offset + n } hopen₁
  obtain ⟨t₂, log, hs₂, ht₂, -, hlog⟩ := Geom.unaltered_run hlater hs₁ ht₁ hfile₁
  rw [hs₂.openFiles_eq] at hopen'
  obtain ⟨t₃, -, -, hev'⟩ := Geom.step_read hs₂ ht₂ hread
  have hlen : (buf.take n).length = n := by
    have hcount := hw.count
    rw [List.length_take]
    omega
  rw [← hlen] at hev'
  refine FileStore.Run.reads_back (Geom.store_handle hopen) ?_ hev hlog
    (Geom.store_handle hopen') hev'
  intro hnil
  rw [hnil] at hlen
  exact hn hlen.symm

/-- Two bytes are written to `/a`, `/b` is created, and the bytes are read through another
handle. -/
theorem written_reads_back_small : ∃ s₀ s s₁ s₂ s₃ out, start 0 (MemoryDevice.empty 14) = some s₀ ∧
    Run Op.Tracked s₀ s ∧ write 0 [104, 105] 0 s = .ok 2 s₁ ∧
    Run (fun s op => op.Tracked s ∧ ¬ op.Alters s 1) s₁ s₂ ∧ read 1 2 s₂ = .ok out s₃ ∧
    out = [104, 105] := by
  have hcalls : ((start 0 (MemoryDevice.empty 14)).bind (checked (fun s op => op.Traced s)
      [.createFile [47, 97] 0, .openFile [47, 97], .openFile [47, 97]])).any (fun s =>
        decide (s.Opened ⟨1, 0⟩) && decide (Op.Traced s (.write 0 [104, 105] 0)) &&
        decide ((write 0 [104, 105] 0 s).value? = some 2) &&
        (write 0 [104, 105] 0 s).state?.any fun s₁ =>
          decide (Op.Traced s₁ (.createFile [47, 98] 0)) &&
          ((Op.createFile [47, 98] 0).exec s₁).state?.any fun s₂ =>
            ((s₂.format.openFiles 1).any fun m => m.inode == 1 && m.offset == 0) &&
            (read 1 2 s₂).value?.isSome) = true := by
    decide +kernel
  obtain ⟨s, hs, hfinal⟩ := (Option.any_eq_true _ _).mp hcalls
  obtain ⟨s₀, hstart, hchecked⟩ := Option.bind_eq_some_iff.mp hs
  simp only [Bool.and_eq_true, decide_eq_true_eq, beq_iff_eq, Option.any_eq_true,
    Outcome.value?_eq_some, Option.isSome_iff_exists] at hfinal
  obtain ⟨⟨⟨hopened, hwtraced⟩, s₁, hwrite⟩, s₁', hs₁, hctraced, s₂, hstep,
    ⟨⟨i, x⟩, hopen', rfl, rfl⟩, out, s₃, hread⟩ := hfinal
  rw [hwrite] at hs₁
  cases hs₁
  have hrun := (run_of_checked hchecked).imp fun _ _ hop => hop.tracked
  have hlater : Run (fun s op => op.Tracked s ∧ ¬ op.Alters s 1) s₁ s₂ := by
    refine .snoc .nil ⟨hctraced.tracked, ?_⟩ hstep
    rintro (⟨hdel, -⟩ | ⟨id, m, -, -, ⟨buf, now, hop⟩ | ⟨size, now, hop⟩⟩)
    · cases hdel
    · cases hop
    · cases hop
  exact ⟨s₀, s, s₁, s₂, s₃, out, hstart, hrun, hwrite, hlater, hread,
    written_reads_back hstart hrun hopened.opened (List.cons_ne_nil _ _) hwtraced.tracked hwrite
      hlater hopen' hread⟩

/-! ## Runs without truncation -/

/-- A tracked call that does not truncate; nothing is asked about what a write skips. -/
structure Op.Growing (s : FFS) (op : Op) : Prop where
  careful : op.Careful s
  intoDirs : op.IntoDirs s
  uncut : ∀ id size now, op ≠ .truncate id size now
  progress : ∀ id buf now m, op = .write id buf now → s.format.openFiles id = some m → buf ≠ [] →
    m.offset < 2 ^ 40 ∧ ∀ b ∈ s.blocksAfter m buf.length, m.offset / BLOCK_SIZE < b

def Op.truncates : Op → Bool
  | .truncate _ _ _ => true
  | _ => false

theorem Op.Traced.growing {s : FFS} {op : Op} (h : op.Traced s) (huncut : op.truncates = false) :
    op.Growing s where
  careful := h.1.careful
  intoDirs := h.2.1
  uncut id size now hop := by
    rw [hop] at huncut
    cases huncut
  progress id buf now m hop hm hbuf :=
    have hexact := h.2.2 id buf now m hop hm hbuf
    ⟨hexact.1, hexact.2.2⟩

namespace Geom

variable {g : Geom} {gaps : Bool} {s s' s₀ : FFS} {t t' t₀ : St} {op : Op} {id : Nat}
  {m : FileMetadata}

/-- A mounted filesystem is in one state. -/
theorem Rep.unique (hs : g.Rep s t) (hs' : g.Rep s t') : t = t' := by
  have hview : t.toView = t'.toView := hs.view_eq.symm.trans hs'.view_eq
  have hformat : g.format t = g.format t' := hs.2.symm.trans hs'.2
  have hsb := congrArg FormatV1.superblock hformat
  apply St.ext
  · exact congrArg View.ibit hview
  · exact congrArg View.dbit hview
  · exact congrArg View.ino hview
  · exact congrArg View.data hview
  · exact congrArg Superblock.freeInodes hsb
  · exact congrArg Superblock.freeData hsb
  · exact congrArg (fun f => f.inodeAllocator.lastAlloc) hformat
  · exact congrArg (fun f => f.blockAllocator.lastAlloc) hformat
  · exact congrArg FormatV1.nextFileId hformat
  · exact congrArg FormatV1.openFiles hformat

theorem Growing.tracked (hs : g.Rep s t) (hh : t.Handled) (hblank : t.Blank)
    (hop : op.Growing s) : op.Tracked s where
  careful := hop.careful
  intoDirs := hop.intoDirs
  exact id buf now m heq hopen hbuf := by
    obtain ⟨hlow, hreach⟩ := hop.progress id buf now m heq hopen hbuf
    refine ⟨hlow, fun p hp _ => ?_, hreach⟩
    rw [hs.view_eq] at hp
    rw [hs.bytes_eq]
    rw [hs.openFiles_eq] at hopen
    exact hblank _ (hh id m hopen) p hp

theorem Wrote.blank {buf : List UInt8} {now : UInt64} {metas datas : List Nat}
    {data₁ data' : Region} {n₁ : INode} {k : Nat} (hs : g.Rep s t) (hs' : g.Rep s' t')
    (h : g.Intact gaps t) (hh : t.Handled) (hblank : t.Blank)
    (hw : g.Wrote t id m buf now metas datas data₁ n₁ data' k t') (hlow : m.offset < 2 ^ 40) :
    t'.Blank := by
  have hfile : t.IsFile m.inode := hh id m hw.opened
  have hleaf := hw.leaf h hfile.1 hfile.2
  intro j hj p hp
  by_cases hjm : j = m.inode
  · subst hjm
    have hover := (hw.overwrites_iff hs hs' (h.usable hfile.1)).mpr (.inl hlow)
    rw [hs.bytes_eq, hs'.bytes_eq] at hover
    have hsize : (t'.ino m.inode).size = max (t.ino m.inode).size (m.offset + k) := by
      rw [hw.ino_self]
      show max n₁.size (m.offset + k) = _
      rw [hw.prepared.grows.size]
    have hlen : (buf.take k).length ≤ k := List.length_take_le _ _
    rw [hover.outside p (.inr (by omega))]
    exact hblank _ hfile p (by omega)
  · have hkept : t.Kept t' j := .of_same (congrFun hleaf.ibit j) fun hj => hleaf.same h hj hjm
    have hold := hkept.isFile.mp hj
    rw [hkept.size hold] at hp
    rw [hkept.bytes hold]
    exact hblank j hold p hp

theorem names_of_creates {p : Nat} {ft : FileType} {name : Str} {now : UInt64}
    (h : Creates s op p ft name now) : op.Names := by
  cases h <;> trivial

theorem names_of_links {i p : Nat} {name : Str} {now : UInt64} (h : Links s op i p name now) :
    op.Names := by
  cases h <;> trivial

theorem names_of_deletes {i : Nat} (h : Deletes s op i) : op.Names := by
  cases h <;> trivial

theorem names_of_requests {n k : Nat} (h : Requests s op n k) : op.Names := by
  cases h with
  | create hc => exact names_of_creates hc
  | link hl => exact names_of_links hl

/-- No call but a truncation leaves anything behind the end of a file. -/
theorem blank_of_effect (hs : g.Rep s t) (hs' : g.Rep s' t') (h : g.Inv true t)
    (hh : t.Handled) (hblank : t.Blank) (hop : op.Growing s) (he : Effect g true s t op t') :
    t'.Blank := by
  by_cases hnames : op.Names
  · obtain ⟨-, -, ev, hturns, -⟩ :=
      turns_of_effect hs h (.inl rfl) hnames hop.intoDirs he
    exact hturns.blank hblank
  cases he with
  | same => exact hblank
  | created hc => exact absurd (names_of_creates hc) hnames
  | symlinked hc => exact absurd (names_of_creates hc) hnames
  | full hr => exact absurd (names_of_requests hr) hnames
  | orphaned hc => exact absurd (names_of_creates hc) hnames
  | linked hl => exact absurd (names_of_links hl) hnames
  | wasted hl => exact absurd (names_of_links hl) hnames
  | unlinked hdel => exact absurd (names_of_deletes hdel) hnames
  | removed hdel => exact absurd (names_of_deletes hdel) hnames
  | opened => exact hblank
  | closed => exact hblank
  | moved => exact hblank
  | @wrote id m buf now metas datas data₁ n₁ data' k t' ho hw =>
      have hopen : s.format.openFiles id = some m := by
        rw [hs.openFiles_eq]
        exact hw.opened
      obtain ⟨hlow, -⟩ := hop.progress id buf now m ho hopen hw.nonempty
      exact hw.blank hs hs' h.toIntact hh hblank hlow
  | writeFailed ho hf => exact (St.Turns.idle (hf.kept h.toIntact)).blank hblank
  | truncated ho => exact absurd ho (hop.uncut _ _ _)

/-- A run of growing calls is tracked, and there are zeros behind the end of every file. -/
theorem blank_of_run (hrun : Run Op.Growing s₀ s) (hs₀ : g.Rep s₀ t₀) (h₀ : g.Following t₀)
    (hblank₀ : t₀.Blank) :
    Run Op.Tracked s₀ s ∧ ∃ t, g.Rep s t ∧ g.Following t ∧ t.Blank := by
  induction hrun with
  | nil => exact ⟨.nil, t₀, hs₀, h₀, hblank₀⟩
  | snoc _ hok hstep ih =>
      obtain ⟨htracked, t, hs, ht, hblank⟩ := ih
      have hok' := Growing.tracked hs ht.handled hblank hok
      obtain ⟨-, t', hs', ht', -⟩ := step_refines hs ht hok' hstep
      obtain ⟨t'', hs'', he⟩ := effect_of_step hs ht.toInv (fun _ => ht.handled) hok.careful.1
        (.inl rfl : Op.Roomy true _ _) hstep
      obtain rfl := hs'.unique hs''
      exact ⟨htracked.snoc hok' hstep, t', hs', ht',
        blank_of_effect hs hs' ht.toInv ht.handled hblank hok he⟩

end Geom

/-- As long as nothing is truncated, a write may start behind the end of its file: what it
skips is zero, so that the run is one that the store accounts for. -/
theorem gaps_zero {d : MemoryDevice} {now : UInt64} {s₀ s : FFS}
    (hstart : start now d = some s₀) (hrun : Run Op.Growing s₀ s) :
    Run Op.Tracked s₀ s ∧ ∀ i p, s.view.IsFile i → s.ZeroUpTo i p := by
  obtain ⟨g, t₀, -, hs₀, hinit⟩ := Geom.start_initial hstart
  obtain ⟨h₀, hempty⟩ := Geom.following_of_initial hinit
  have hblank₀ : t₀.Blank := by
    intro i hi
    have hnone := congrFun (congrArg FileStore.files hempty) i
    rw [Geom.store_file hi] at hnone
    cases hnone
  obtain ⟨htracked, t, hs, -, hblank⟩ := Geom.blank_of_run hrun hs₀ h₀ hblank₀
  refine ⟨htracked, fun i p hi q hq _ => ?_⟩
  rw [hs.view_eq] at hi hq
  rw [hs.bytes_eq]
  exact hblank i hi q hq

/-- A byte is written behind the end of the new file `/a`. -/
theorem gaps_zero_small : ∃ s₀ s, start 0 (MemoryDevice.empty 14) = some s₀ ∧
    Run Op.Growing s₀ s ∧ (s.view.ino 1).size = 4 ∧ Run Op.Tracked s₀ s ∧ s.ZeroUpTo 1 10 := by
  have hcalls : ((start 0 (MemoryDevice.empty 14)).bind
      (checked (fun s op => op.Traced s ∧ op.truncates = false)
        [.createFile [47, 97] 0, .openFile [47, 97], .seek 0 (.start 3), .write 0 [7] 0])).any
          (fun s => (s.view.ino 1).size == 4 && decide (s.view.IsFile 1)) = true := by
    decide +kernel
  obtain ⟨s, hs, hfinal⟩ := (Option.any_eq_true _ _).mp hcalls
  obtain ⟨s₀, hstart, hchecked⟩ := Option.bind_eq_some_iff.mp hs
  simp only [Bool.and_eq_true, decide_eq_true_eq, beq_iff_eq] at hfinal
  have hrun := (run_of_checked hchecked).imp fun _ _ hop => hop.1.growing hop.2
  obtain ⟨htracked, hzero⟩ := gaps_zero hstart hrun
  exact ⟨s₀, s, hstart, hrun, hfinal.1, htracked, hzero 1 10 hfinal.2⟩

end FerrisFS
