import FerrisFS.System.Handles
import FerrisFS.System.Sound

/-!
# Files keep to themselves

Every block in use belongs to one inode, and a call on a handle stays with the file that was
opened, as long as no file is deallocated while a handle refers to it. After such a deletion
the inode is handed out again, and the old handle writes to the new file.
-/

namespace FerrisFS

open Lib FormatV1

/-! ## The calls of `ffs.rs` -/

/-- The calls that `FFS` offers on paths and file ids. -/
def Op.isPublic : Op → Bool
  | .createChild _ _ _ _ => false
  | .createChildHardlink _ _ _ _ => false
  | .deleteChild _ _ _ _ => false
  | .truncate _ _ _ => false
  | _ => true

/-- A public call that deallocates no open file. -/
def Op.Plain (s : FFS) (op : Op) : Prop := op.isPublic = true ∧ op.Keeps s

/-- Public calls name no inodes. -/
theorem Op.sane_of_public {s : FFS} {op : Op} (h : op.isPublic = true) : op.Sane s := by
  cases op with
  | createChild => cases h
  | createChildHardlink => cases h
  | deleteChild => cases h
  | _ => trivial

theorem Op.Plain.careful {s : FFS} {op : Op} (h : op.Plain s) : op.Careful s :=
  ⟨Op.sane_of_public h.1, h.2⟩

theorem Op.plain_of_tame {s : FFS} {op : Op} (h : op.isPublic = true ∧ op.Tame s) : op.Plain s :=
  ⟨h.1, h.2.careful.2⟩

theorem Run.session {s s' : FFS} (h : Run Op.Plain s s') : Session s s' :=
  .of_run h fun _ _ hop => hop.careful

/-! ## Blocks -/

/-- Every block in use has one owner: those that `get_block` returns, the indirect block of an
inode of more than 12 blocks, and the double indirect block and its children of one of more
than 76. -/
structure FFS.OwnsBlocks (s : FFS) : Prop where
  content : ∀ i, s.view.ibit i = true → ∀ k < (s.view.ino i).blocks, ∃ b,
    (s.view.content i)[k]? = some b ∧
      s.format.inodeHandler.getBlock (s.view.ino i) k s.device = .ok b s.device
  nodup : ∀ i, s.view.ibit i = true → (s.view.owned i).Nodup
  disjoint : ∀ i j, s.view.ibit i = true → s.view.ibit j = true → i ≠ j →
    (s.view.owned i).Disjoint (s.view.owned j)
  lt : ∀ i, s.view.ibit i = true → ∀ b ∈ s.view.owned i,
    b < s.format.superblock.totalBlocks - s.format.superblock.dataStart
  marked : ∀ i, s.view.ibit i = true → ∀ b ∈ s.view.owned i, s.view.dbit b = true

/-- The block that is looked up is one of the content. -/
theorem Geom.Upright.getBlock {g : Geom} {gaps : Bool} {s : FFS} {t : St} (h : g.Upright gaps t)
    (hs : g.Rep s t) {i k : Nat} (hi : t.ibit i = true) (hk : k < (t.ino i).blocks) :
    g.inodeHandler.getBlock (t.ino i) k s.device =
      .ok ((t.ino i).blockAt t.data k) s.device := by
  have hm := h.mapped hi
  have hlt : ∀ p ∈ (t.ino i).pointers t.data, p < g.cap := fun p hp =>
    hm.lt p (List.mem_append_right _ hp)
  obtain ⟨d, hok, -⟩ := runs_getBlock (v := t.toView) hk hm.blocks_le hlt s.device hs.1
  have hsame := readOnly_getBlock g.inodeHandler (t.ino i) k s.device
  rw [Prog.wp_of_ok hok] at hsame
  rw [hok, hsame]

theorem Geom.Upright.ownsBlocks {g : Geom} {gaps : Bool} {s : FFS} {t : St}
    (h : g.Upright gaps t) (hs : g.Rep s t) : s.OwnsBlocks := by
  have hview := hs.view_eq
  constructor
  · rw [hview, hs.2]
    intro i hi k hk
    refine ⟨(t.ino i).blockAt t.data k, ?_, h.getBlock hs hi hk⟩
    rw [View.content, INode.content_getElem?, if_pos hk]
  · rw [hview]
    exact h.owning.owns.nodup
  · rw [hview]
    exact h.owning.owns.disjoint
  · rw [hview, hs.2]
    exact fun i hi => (h.mapped hi).lt
  · rw [hview]
    exact h.owning.owns.marked

/-- In every state that public calls reach, whether they succeed or fail, blocks are not
shared. -/
theorem blocks_owned_once {d : MemoryDevice} {now : UInt64} {s₀ s : FFS}
    (hstart : start now d = some s₀) (hrun : Run Op.Plain s₀ s) : s.OwnsBlocks := by
  obtain ⟨g, t₀, -, hs₀, hinit⟩ := Geom.start_initial hstart
  obtain ⟨t, hs, ht⟩ := Geom.upright_of_session hrun.session hs₀ (.of_initial hinit)
  exact ht.ownsBlocks hs

/-- Two files and a directory, and one of the files is written. -/
theorem blocks_owned_once_small : ∃ s₀ s, start 0 (MemoryDevice.empty 14) = some s₀ ∧
    Run Op.Plain s₀ s ∧ s.OwnsBlocks := by
  have hcalls : ((start 0 (MemoryDevice.empty 14)).bind
      (checked (fun s op => op.isPublic = true ∧ op.Tame s)
        [.createFile [47, 97] 0, .createDirectory [47, 100] 0, .createFile [47, 100, 47, 98] 0,
          .openFile [47, 97], .write 0 [104, 105] 0])).isSome = true := by
    decide +kernel
  obtain ⟨s, hs⟩ := Option.isSome_iff_exists.mp hcalls
  obtain ⟨s₀, hstart, hchecked⟩ := Option.bind_eq_some_iff.mp hs
  have hrun : Run Op.Plain s₀ s := (run_of_checked hchecked).imp fun _ _ => Op.plain_of_tame
  exact ⟨s₀, s, hstart, hrun, blocks_owned_once hstart hrun⟩

/-! ## Handles -/

/-- The call reads, moves or writes through the handle. -/
def Op.Through (id : Nat) : Op → Prop
  | .seek k _ | .read k _ | .write k _ _ => k = id
  | _ => False

namespace Geom

variable {g : Geom} {gaps : Bool} {s s' : FFS} {t t' : St} {op : Op} {id : Nat}
  {m : FileMetadata}

/-- A write that fails leaves the other inodes and their blocks alone. -/
theorem WriteFailed.same {len : Nat} {err : FSError} (h : g.Intact gaps t)
    (hf : g.WriteFailed t id len err t') {j : Nat} (hj : t.ibit j = true) :
    t'.ibit j = true ∧ t.Same t'.toView j := by
  cases hf with
  | closed => exact ⟨hj, rfl, fun _ _ => rfl⟩
  | grow hopen hne hlast hfinal hf =>
      cases hf with
      | short => exact ⟨hj, rfl, fun _ _ => rfl⟩
      | empty => exact ⟨hj, rfl, fun _ _ => rfl⟩
      | tooLarge hg =>
          refine ⟨hj, rfl, fun b hb => ?_⟩
          exact zeroed_of_not_mem fun hd =>
            h.fresh_not_owned hj (hg.fresh.clear b (List.mem_append_right _ hd)) hb

/-- A call through a handle leaves all inodes but one alone. -/
theorem same_of_effect (hthrough : op.Through id) (ht : g.Upright gaps t)
    (hopen : t.openFiles id = some m) (he : Effect g gaps s t op t') {j : Nat}
    (hj : t.ibit j = true) (hne : j ≠ m.inode) : t'.ibit j = true ∧ t.Same t'.toView j := by
  have hnames : ¬ op.Names := by
    cases op with
    | seek => exact fun h => h
    | read => exact fun h => h
    | write => exact fun h => h
    | _ => exact hthrough.elim
  have hstay : t.ibit j = true ∧ t.Same t.toView j := ⟨hj, rfl, fun _ _ => rfl⟩
  cases he with
  | same => exact hstay
  | created hc => exact absurd (names_of_creates hc) hnames
  | symlinked hc => exact absurd (names_of_creates hc) hnames
  | full hr => exact absurd (names_of_requests hr) hnames
  | orphaned hc => exact absurd (names_of_creates hc) hnames
  | linked hl => exact absurd (names_of_links hl) hnames
  | wasted hl => exact absurd (names_of_links hl) hnames
  | unlinked hd => exact absurd (names_of_deletes hd) hnames
  | removed hd => exact absurd (names_of_deletes hd) hnames
  | opened ho =>
      subst ho
      exact hthrough.elim
  | closed ho =>
      subst ho
      exact hthrough.elim
  | moved => exact hstay
  | wrote ho hw =>
      subst ho
      cases hthrough
      cases hopen.symm.trans hw.opened
      have hfile : t.IsFile m.inode := ht.handled _ m hopen
      have hleaf := hw.leaf ht.toIntact hfile.1 hfile.2
      exact ⟨(congrFun hleaf.ibit j).trans hj, hleaf.same ht.toIntact hj hne⟩
  | writeFailed ho hf => exact hf.same ht.toIntact hj
  | truncated ho =>
      subst ho
      exact hthrough.elim

end Geom

/-- A call through a handle on the file `i` goes to an allocated file, leaves every other inode
and its blocks as they are, and reads bytes of the file only. -/
structure FFS.StaysWithin (s : FFS) (op : Op) (i : Nat) (s' : FFS) : Prop where
  live : s.view.IsFile i
  same : ∀ j, s.view.ibit j = true → j ≠ i → s'.view.ibit j = true ∧ s.view.Same s'.view j
  reads : ∀ id len bs, op = .read id len → read id len s = .ok bs s' →
    ∃ p n, bs = slice (s.bytes i) p n

/-- What is written to a file ends below the largest size, and is written whole. -/
def Op.Whole (s : FFS) (op : Op) : Prop :=
  ∀ id buf now, op = .write id buf now →
    (∀ m, s.format.openFiles id = some m → m.offset + buf.length ≤ INode.MAX_SIZE) ∧
      (FormatV1.write id buf now s).value? = some buf.length

instance {s : FFS} {op : Op} : Decidable (op.Whole s) :=
  decidable_of_iff (∀ x ∈ op.written?,
      (∀ m ∈ s.format.openFiles x.1, m.offset + x.2.1.length ≤ INode.MAX_SIZE) ∧
        (FormatV1.write x.1 x.2.1 x.2.2 s).value? = some x.2.1.length)
    ⟨fun h id buf now hop => h (id, buf, now) (Op.written?_iff.mp hop),
      fun h x hx => h x.1 x.2.1 x.2.2 (Op.written?_iff.mpr hx)⟩

/-- A call of a run in which files are used as lists of bytes: parents are directories, no open
file is deallocated, and writes are whole. -/
structure Op.Flows (s : FFS) (op : Op) : Prop where
  plain : op.Plain s
  intoDirs : op.IntoDirs s
  whole : op.Whole s

namespace Geom

variable {g : Geom} {s s₀ : FFS} {t t₀ : St} {op : Op}

/-- A write that returns in full has come to a block. -/
theorem growing_of_flows (hs : g.Rep s t) (ht : g.Following t) (h : op.Flows s) :
    op.Growing s where
  careful := h.plain.careful
  intoDirs := h.intoDirs
  uncut id size now hop := by
    have hpublic := h.plain.1
    rw [hop] at hpublic
    cases hpublic
  progress id buf now m hop hopen hbuf := by
    obtain ⟨hmax, hwhole⟩ := h.whole id buf now hop
    have hlt : INode.MAX_SIZE < 2 ^ 40 := by decide
    have hlow : m.offset < 2 ^ 40 := by
      have hle := hmax m hopen
      omega
    rw [hs.openFiles_eq] at hopen
    obtain ⟨s', hrun⟩ := Outcome.value?_eq_some.mp hwhole
    obtain ⟨t', -, hend⟩ :=
      (wpr_write ((ht.usable (ht.handled id m hopen).1).handle hopen)).of_ok hs hrun
    rcases hend with ⟨hnil, -, -⟩ | ⟨m', metas, datas, data₁, n₁, data', hw⟩
    · exact absurd hnil hbuf
    · cases hopen.symm.trans hw.opened
      exact ⟨hlow, (hw.count_ne_zero hs hlow).mp (mt List.length_eq_zero_iff.mp hbuf)⟩

theorem growing_run (hrun : Run Op.Flows s₀ s) (hs₀ : g.Rep s₀ t₀) (h₀ : g.Following t₀)
    (hblank₀ : t₀.Blank) : Run Op.Growing s₀ s := by
  induction hrun with
  | nil => exact .nil
  | snoc _ hop hstep ih =>
      obtain ⟨-, t, hs, ht, -⟩ := blank_of_run ih hs₀ h₀ hblank₀
      exact ih.snoc (growing_of_flows hs ht hop) hstep

end Geom

/-! ## What an answer tells -/

section

variable {s s' : FFS} {ev : FileStore.Event Nat Nat UInt8} {id : Nat}

theorem ignoreResult_of_ok {α : Type} {m : FsM α} {a : α} (h : m s = .ok a s') :
    ignoreResult m s = .ok () s' :=
  Prog.bind_of_ok h _

theorem event_of_createFile {path : Str} {now : UInt64} (h : Tells s (.createFile path now) ev s')
    (hok : createFile path now s = .ok () s') : ∃ i, ev = .born i := by
  cases h with
  | createFile => exact ⟨_, rfl⟩
  | failed hop => exact absurd trivial hop
  | names hop hstep hnot =>
      obtain ⟨e, he⟩ := hnot path now rfl
      cases hok.symm.trans he

theorem event_of_openFile {path : Str} (h : Tells s (.openFile path) ev s')
    (hok : openFile path s = .ok id s') : ∃ i, ev = .opened id i := by
  cases h with
  | openFile hr hok' =>
      cases hok.symm.trans hok'
      exact ⟨_, rfl⟩
  | failed hop he => cases (ignoreResult_of_ok hok).symm.trans he
  | names hop => exact hop.elim

theorem event_of_seek {pos : SeekFrom} {p : Nat} (h : Tells s (.seek id pos) ev s')
    (hok : seek id pos s = .ok p s') : ev = .moved id p ∧ ∃ i q c,
      s.store.handles id = some (i, q) ∧ s.store.files i = some c ∧
        Geom.seekPlace q c.length pos = some p := by
  cases h with
  | seek hopen hfile hp hok' =>
      cases hok.symm.trans hok'
      exact ⟨rfl, _, _, _, hopen, hfile, hp⟩
  | failed hop he => cases (ignoreResult_of_ok hok).symm.trans he
  | names hop => exact hop.elim

theorem event_of_read {len : Nat} {bs : List UInt8} (h : Tells s (.read id len) ev s')
    (hok : read id len s = .ok bs s') : ev = .read id len bs := by
  cases h with
  | read hok' =>
      cases hok.symm.trans hok'
      rfl
  | failed hop he => cases (ignoreResult_of_ok hok).symm.trans he
  | names hop => exact hop.elim

theorem event_of_write {buf : List UInt8} {now : UInt64} {n : Nat}
    (h : Tells s (.write id buf now) ev s') (hok : write id buf now s = .ok n s') :
    ev = .wrote id (buf.take n) := by
  cases h with
  | write hok' =>
      cases hok.symm.trans hok'
      rfl
  | failed hop he => cases (ignoreResult_of_ok hok).symm.trans he
  | names hop => exact hop.elim

end

/-- Calls on open files. -/
theorem Op.flows_of_handle {s : FFS} {op : Op} (h : op.isPublic = true) (hnames : ¬ op.Names)
    (hwhole : op.Whole s) : op.Flows s where
  plain := ⟨h, fun _ hd => absurd (Geom.names_of_deletes hd) hnames⟩
  intoDirs p e hent := by
    cases hent with
    | create hc => exact absurd (Geom.names_of_creates hc) hnames
    | link hl => exact absurd (Geom.names_of_links hl) hnames
  whole := hwhole

/-- What calls that return do to the files, as lists of bytes, and to the places of the
handles. -/
structure FFS.Lists (s : FFS) : Prop where
  created : ∀ path now s', Op.Flows s (.createFile path now) →
    createFile path now s = .ok () s' → ∃ i, s.store.files i = none ∧
      s'.store.files = Function.update s.store.files i (some []) ∧
      s'.store.handles = s.store.handles
  opened : ∀ path id s', openFile path s = .ok id s' → ∃ i c, s.store.files i = some c ∧
    s'.store.files = s.store.files ∧
    s'.store.handles = Function.update s.store.handles id (some (i, 0))
  moved : ∀ id pos q s', seek id pos s = .ok q s' → ∃ i p c,
    s.store.handles id = some (i, p) ∧ s.store.files i = some c ∧
    Geom.seekPlace p c.length pos = some q ∧ s'.store.files = s.store.files ∧
    s'.store.handles = Function.update s.store.handles id (some (i, q))
  reads : ∀ id len bs s', read id len s = .ok bs s' → ∃ i p c,
    s.store.handles id = some (i, p) ∧ s.store.files i = some c ∧ bs = (c.drop p).take len ∧
    s'.store.files = s.store.files ∧
    s'.store.handles = Function.update s.store.handles id (some (i, p + bs.length))
  writes : ∀ id buf now s', Op.Flows s (.write id buf now) →
    write id buf now s = .ok buf.length s' → ∃ i p c,
      s.store.handles id = some (i, p) ∧ s.store.files i = some c ∧
      s'.store.files = Function.update s.store.files i (some (FileStore.put 0 c p buf)) ∧
      s'.store.handles = Function.update s.store.handles id (some (i, p + buf.length))

end FerrisFS
