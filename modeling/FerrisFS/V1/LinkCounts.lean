import FerrisFS.V1.Checks
import FerrisFS.V1.WellFormed

/-!
# Link counts

Along `create_file`, `create_hardlink` and `delete`, a file has one link for each
record that names it, unless a call runs into one of three defects: a record that
leaves exactly eight bytes of a free region hides the records behind it, a parent
that cannot grow leaves its new file without a record, and the 16-bit count
overflows.
-/

namespace FerrisFS

open Lib DirectoryHandler INodeTableHandler FormatV1

/-- `create_file`, `create_hardlink` or `delete`. -/
def Op.linking : Op → Bool
  | .createFile _ _ | .createHardlink _ _ _ | .delete _ _ => true
  | _ => false

/-- One of these calls, into a parent that is a directory. -/
def Op.LinksFiles (s : FFS) (op : Op) : Prop :=
  op.linking = true ∧ ∀ p e, Enters s op p e → (s.view.ino p).fileType = .directory

/-- The call meets none of the three defects. -/
structure Op.Harmless (s : FFS) (op : Op) : Prop where
  snug : op.Snug s
  growable : ∀ p ft name now, Creates s op p ft name now →
    s.canFit p (newEntry ft name) = some none → (s.view.ino p).blocks < INode.MAX_BLOCKS
  countable : ∀ i p name now, Links s op i p name now → (s.view.ino i).links < U16 - 1 ∨
    ∃ found, s.findEntry p (DirEntry.new i .file name).name = some (some found)

/-- A call that counts links right. -/
def Op.CountsRight (s : FFS) (op : Op) : Prop := op.LinksFiles s ∧ op.Harmless s

section

variable {s : FFS} {op : Op}

instance : Decidable (op.LinksFiles s) :=
  decidable_of_iff (op.linking = true ∧
      ∀ x ∈ op.entry? s, (s.view.ino x.1).fileType = .directory)
    (and_congr_right fun _ =>
      (forall_enters (P := fun p _ => (s.view.ino p).fileType = .directory)).symm)

instance : Decidable (op.Harmless s) :=
  decidable_of_iff (op.Snug s ∧
      (∀ x ∈ op.creation? s, s.canFit x.1 (newEntry x.2.1 x.2.2.1) = some none →
        (s.view.ino x.1).blocks < INode.MAX_BLOCKS) ∧
      ∀ x ∈ op.link? s, (s.view.ino x.1).links < U16 - 1 ∨
        (s.findEntry x.2.1 (DirEntry.new x.1 .file x.2.2.1).name).join.isSome = true) (by
    have hfound : ∀ {o : Option (Option (DirEntry × Nat × Nat))},
        o.join.isSome = true ↔ ∃ found, o = some (some found) := by
      intro o
      rw [Option.isSome_iff_exists]
      simp only [Option.join_eq_some_iff]
    constructor
    · rintro ⟨hsnug, hgrow, hcount⟩
      refine ⟨hsnug, fun p ft name now hc => hgrow _ (creates_iff.mp hc), ?_⟩
      intro i p name now hl
      exact (hcount _ (links_iff.mp hl)).imp_right hfound.mp
    · rintro ⟨hsnug, hgrow, hcount⟩
      refine ⟨hsnug, fun x hx => hgrow _ _ _ _ (creates_iff.mpr hx), ?_⟩
      intro x hx
      exact (hcount _ _ _ _ (links_iff.mpr hx)).imp_right hfound.mpr)

instance : Decidable (op.CountsRight s) := inferInstanceAs (Decidable (_ ∧ _))

end

namespace Geom

variable {g : Geom} {s s' : FFS} {t t' : St} {op : Op}

namespace Created

variable {p : Nat} {name : Str} {now : UInt64} {fit : Option (Nat × Nat)} {i : Nat}
  {ds : List Nat} {n' : INode} {data' : Region}

/-- A new file has its one record. -/
theorem counted (h : g.Inv false t) (hcount : t.graph.Counted 0) (hp : t.ibit p = true)
    (hdir : (t.ino p).fileType = .directory) (hd : name ≠ [dot]) (hdd : name ≠ [dot, dot])
    (hc : g.Created t p .file name now fit i ds n' data' t')
    (hsnug : Entered.Snug t.data (newEntry .file name) fit) : t'.graph.Counted 0 := by
  have hroom : Entered.Roomy false t.data (newEntry .file name) fit := .inr hsnug
  have hfile : (t'.ino i).fileType = .file := by
    rw [hc.ino_new h.toIntact hp, firstNode_fileType]
  have hrec := fun {d k e} (hr : t'.Rec d k e) => hc.rec_cases h.toIntact hp hroom hr
  refine hcount.addLeaf h.graph (i := i) (p := p) (k := Entered.place fit ds) ?_ ?_
    (fun j => hc.ibit_iff) ?_ ?_ ?_ ?_ ?_
  · show ¬ t.ibit i = true
    simp [hc.dead h.toIntact]
  · show ¬ (t'.ino i).fileType = .directory
    simp [hfile]
  · intro j hj
    show (t'.ino j).fileType = .directory ↔ (t.ino j).fileType = .directory
    by_cases hjp : j = p
    · rw [hjp, hc.parent_fileType]
    · rw [hc.ino_other hjp (hc.ne_of_live h.toIntact hj)]
  · intro d k j
    constructor
    · rintro ⟨e, hr, h1, h2, rfl⟩
      rcases hrec hr with ⟨hr, -⟩ | ⟨rfl, rfl, rfl⟩ | ⟨-, hft, -⟩
      · exact .inl ⟨e, hr, h1, h2, rfl⟩
      · exact .inr ⟨rfl, rfl, rfl⟩
      · cases hft
    · rintro (⟨e, hr, h1, h2, rfl⟩ | ⟨rfl, rfl, rfl⟩)
      · exact ⟨e, hc.rec_old h.toIntact hp hsnug hr, h1, h2, rfl⟩
      · exact ⟨_, hc.rec_new h.toIntact hp hroom hdir, DirEntry.label_new_ne (by decide) hd,
          DirEntry.label_new_ne (by decide) hdd, rfl⟩
  · rintro d q ⟨k, e, hr, hl, rfl⟩
    rcases hrec hr with ⟨hr, -⟩ | ⟨rfl, rfl, rfl⟩ | ⟨-, hft, -⟩
    · exact ⟨k, e, hr, hl, rfl⟩
    · exact absurd hl (DirEntry.label_new_ne (by decide) hdd)
    · cases hft
  · intro j hj
    show (t'.ino j).links = (t.ino j).links
    by_cases hjp : j = p
    · rw [hjp, hc.ino_parent]
      exact hc.entered.links
    · rw [hc.ino_other hjp (hc.ne_of_live h.toIntact hj)]
  · show (t'.ino i).links = 1
    rw [hc.ino_new h.toIntact hp, firstNode_links]

end Created

namespace Linked

variable {i p : Nat} {name : Str} {now : UInt64} {fit : Option (Nat × Nat)} {ds : List Nat}
  {n' : INode} {data' : Region}

/-- A new link is counted. -/
theorem counted (h : g.Inv false t) (hcount : t.graph.Counted 0) (hi : t.ibit i = true)
    (hfile : (t.ino i).fileType ≠ .directory) (hp : t.ibit p = true)
    (hdir : (t.ino p).fileType = .directory) (hd : name ≠ [dot]) (hdd : name ≠ [dot, dot])
    (hk : g.Linked t i p name now fit ds n' data' t')
    (hsnug : Entered.Snug t.data (DirEntry.new i .file name) fit) : t'.graph.Counted 0 := by
  have hroom : Entered.Roomy false t.data (DirEntry.new i .file name) fit := .inr hsnug
  have hip : i ≠ p := by
    rintro rfl
    exact hfile hdir
  obtain ⟨hnew, hfree⟩ := hk.rec_new h.toIntact hi hp hroom hdir
  have hrec := fun {d k e} (hr : t'.Rec d k e) => hk.rec_cases h.toIntact hi hp hroom hr
  refine hcount.addLink (i := i) (p := p) (k := Entered.place fit ds) hfile ?_ ?_ ?_ ?_ ?_ ?_ ?_
  · rintro ⟨e, hr, -⟩
    exact hfree e hr
  · intro j
    show t'.ibit j = true ↔ t.ibit j = true
    rw [hk.ibit_eq]
  · intro j
    show (t'.ino j).fileType = .directory ↔ (t.ino j).fileType = .directory
    rw [hk.fileType]
  · intro d k j
    constructor
    · rintro ⟨e, hr, h1, h2, rfl⟩
      rcases hrec hr with ⟨hr, -⟩ | ⟨rfl, -, rfl, rfl⟩
      · exact .inl ⟨e, hr, h1, h2, rfl⟩
      · exact .inr ⟨rfl, rfl, rfl⟩
    · rintro (⟨e, hr, h1, h2, rfl⟩ | ⟨rfl, rfl, rfl⟩)
      · exact ⟨e, hk.rec_old h.toIntact hi hp hsnug hr, h1, h2, rfl⟩
      · exact ⟨_, hnew, DirEntry.label_new_ne (by decide) hd,
          DirEntry.label_new_ne (by decide) hdd, rfl⟩
  · rintro d q ⟨k, e, hr, hl, rfl⟩
    rcases hrec hr with ⟨hr, -⟩ | ⟨-, -, -, rfl⟩
    · exact ⟨k, e, hr, hl, rfl⟩
    · exact absurd hl (DirEntry.label_new_ne (by decide) hdd)
  · intro j hji
    show (t'.ino j).links = (t.ino j).links
    by_cases hjp : j = p
    · rw [hjp, hk.ino_parent]
      exact hk.entered.links
    · rw [hk.ino_other hjp hji]
  · show (t'.ino i).links = (t.ino i).links + 1
    rw [hk.ino_target hip]

end Linked

section

variable {gaps : Bool} {i p : Nat} {k : Nat × Nat} {e : DirEntry} {now : UInt64} {b' : Block}

/-- A dropped link is no longer counted. -/
theorem Unlinked.counted (h : g.Inv gaps t) (hcount : t.graph.Counted 0)
    (hu : g.Unlinked gaps t i p k e now b' t') : t'.graph.Counted 0 := by
  have he : t.graph.edge p k i := hu.target ▸ h.edge hu.record hu.named
  have hcut := hu.cut
  have hleaf : (t.ino i).fileType ≠ .directory := by
    intro hdir
    have hmany := hu.many
    have hone := h.graph.dir_links i (h.graph.target_live he) hdir
    have hone : (t.ino i).links = 1 := hone
    omega
  have hrec : ∀ {d k' x}, t'.Rec d k' x ↔ t.Rec d k' x ∧ ¬ (d = p ∧ k' = k) := by
    intro d k' x
    constructor
    · intro hr
      exact (hcut.rec_iff h.toIntact hr.live).mp hr
    · intro hr
      refine (hcut.rec_iff h.toIntact ?_).mpr hr
      rw [hu.ibit_eq]
      exact hr.1.live
  refine hcount.dropLink View.edge_unique hleaf he ?_ ?_ ?_ ?_ ?_ ?_
  · intro j
    show t'.ibit j = true ↔ t.ibit j = true
    rw [hu.ibit_eq]
  · intro j
    show (t'.ino j).fileType = .directory ↔ (t.ino j).fileType = .directory
    rw [hcut.fileType]
  · intro d k' j
    constructor
    · rintro ⟨x, hx, h1, h2, rfl⟩
      exact ⟨⟨x, (hrec.mp hx).1, h1, h2, rfl⟩, (hrec.mp hx).2⟩
    · rintro ⟨⟨x, hx, h1, h2, rfl⟩, hne⟩
      exact ⟨x, hrec.mpr ⟨hx, hne⟩, h1, h2, rfl⟩
  · rintro d q ⟨k', x, hx, h1, h2⟩
    exact ⟨k', x, (hrec.mp hx).1, h1, h2⟩
  · intro j hji
    show (t'.ino j).links = (t.ino j).links
    by_cases hjp : j = p
    · rw [hjp, hu.ino_parent]
    · rw [hu.ino_other hjp hji]
  · show (t'.ino i).links = (t.ino i).links - 1
    rw [hu.ino_target (hu.ne_parent h)]

/-- The records of a directory that is gone are gone with it. -/
theorem Removed.counted (h : g.Inv gaps t) (hcount : t.graph.Counted 0)
    (hu : g.Removed gaps t i p k e now b' t') : t'.graph.Counted 0 := by
  have he : t.graph.edge p k i := hu.target ▸ h.edge hu.record hu.named
  have hcut := hu.cut
  have hrec : ∀ {d k' x}, t'.Rec d k' x → t.Rec d k' x ∧ ¬ (d = p ∧ k' = k) := fun hx =>
    (hcut.rec_iff h.toIntact hx.live).mp hx
  refine hcount.dropNode h.graph View.edge_unique he ?_ (fun j => hu.ibit_iff) ?_ ?_ ?_ ?_ ?_
  · rintro k' j ⟨x, hx, h1, h2, -⟩
    exact (hu.empty k' x hx).elim h1 h2
  · intro j
    show (t'.ino j).fileType = .directory ↔ (t.ino j).fileType = .directory
    rw [hcut.fileType]
  · intro d k' j hdi
    constructor
    · rintro ⟨x, hx, h1, h2, rfl⟩
      exact ⟨⟨x, (hrec hx).1, h1, h2, rfl⟩, (hrec hx).2⟩
    · rintro ⟨⟨x, hx, h1, h2, rfl⟩, hne⟩
      have hd : t'.ibit d = true := hu.ibit_iff.mpr ⟨hx.live, hdi⟩
      exact ⟨x, (hcut.rec_iff h.toIntact hd).mpr ⟨hx, hne⟩, h1, h2, rfl⟩
  · rintro k' j ⟨x, hx, -⟩
    exact (hu.ibit_iff.mp hx.live).2 rfl
  · rintro d q ⟨k', x, hx, h1, h2⟩
    have hx' := (hrec hx).1
    exact ⟨⟨k', x, hx', h1, h2⟩, hx'.live, hx'.dir⟩
  · intro j
    show (t'.ino j).links = (t.ino j).links
    by_cases hjp : j = p
    · rw [hjp, hu.ino_parent]
    · rw [hu.ino_other hjp]

end

/-! ## Steps -/

theorem LinksFiles.file (hop : op.LinksFiles s) {p : Nat} {ft : FileType} {name : Str}
    {now : UInt64} (hc : Creates s op p ft name now) : ft = .file := by
  obtain ⟨hop, -⟩ := hop
  cases hc with
  | file => rfl
  | directory => nomatch hop
  | symlink => nomatch hop
  | child => nomatch hop

theorem LinksFiles.sane (hop : op.LinksFiles s) : op.Sane s := by
  obtain ⟨hop, -⟩ := hop
  cases op with
  | createChild => nomatch hop
  | createChildHardlink => nomatch hop
  | deleteChild => nomatch hop
  | _ => trivial

theorem LinksFiles.not_onHandle (hop : op.LinksFiles s) : ¬ op.OnHandle := by
  obtain ⟨hop, -⟩ := hop
  cases op with
  | seek => nomatch hop
  | read => nomatch hop
  | write => nomatch hop
  | truncate => nomatch hop
  | _ => exact fun hon => hon.elim

/-- What a call does that counts links right. -/
theorem counted_of_effect (hs : g.Rep s t) (h : g.Inv false t) (hcount : t.graph.Counted 0)
    (hop : op.CountsRight s) (he : Effect g false s t op t') : t'.graph.Counted 0 := by
  obtain ⟨hlf, hharm⟩ := hop
  have hview := hs.view_eq
  have hdir : ∀ {p e}, Enters s op p e → (t.ino p).fileType = .directory := by
    intro p e hent
    have := hlf.2 p e hent
    rwa [hview] at this
  have hsnug : ∀ {p e fit}, Enters s op p e → s.canFit p e = some fit →
      Entered.Snug t.data e fit := by
    intro p e fit hent hfit
    have := hharm.snug p e fit hent hfit
    rwa [hview] at this
  have hop := hlf.1
  cases he with
  | same => exact hcount
  | created hc hp hd hdd hfit hcr =>
      obtain rfl := LinksFiles.file hlf hc
      exact hcr.counted h hcount hp (hdir (.create hc)) hd hdd (hsnug (.create hc) hfit)
  | symlinked hc =>
      have := LinksFiles.file hlf hc
      cases this
  | full hr hf =>
      cases hf with
      | refused => exact hcount
      | inodes => exact hcount
      | data => exact hcount
  | orphaned hc hp hfit hmax =>
      have hlt := hharm.growable _ _ _ _ hc hfit
      rw [hview] at hlt
      exact absurd hlt (Nat.not_lt.mpr hmax)
  | linked hl hi hp hfile hd hdd hfit hk =>
      exact hk.counted h hcount hi hfile hp (hdir (.link hl)) hd hdd (hsnug (.link hl) hfit)
  | @wasted i p name now ds hl hfit hmax ha =>
      have hibit : (t.taken [] ds).ibit = t.ibit := setBits_nil t.ibit true
      have hrec : ∀ {d k e}, (t.taken [] ds).Rec d k e ↔ t.Rec d k e := by
        intro d k e
        have hsame : t.Same (t.taken [] ds).toView d := ⟨rfl, fun _ _ => rfl⟩
        exact hsame.rec_iff (by rw [hibit])
      apply hcount.congr
      · intro j
        show (t.taken [] ds).ibit j = true ↔ t.ibit j = true
        rw [hibit]
      · exact fun _ => Iff.rfl
      · exact fun d k j => exists_congr fun e => and_congr_left fun _ => hrec
      · rintro d q ⟨k, e, hr, hl⟩
        exact ⟨k, e, hrec.mp hr, hl⟩
      · exact fun _ => rfl
  | unlinked hdel hu => exact hu.counted h hcount
  | removed hdel hu => exact hu.counted h hcount
  | opened ho =>
      subst ho
      nomatch hop
  | closed ho =>
      subst ho
      nomatch hop
  | moved ho =>
      rcases ho with ⟨pos, rfl⟩ | ⟨len, rfl⟩
      · nomatch hop
      · nomatch hop
  | wrote ho =>
      subst ho
      nomatch hop
  | writeFailed ho =>
      subst ho
      nomatch hop
  | truncated ho =>
      subst ho
      nomatch hop

/-- `delete` drops a link or deallocates, unless it fails. -/
theorem delete_cases {gaps : Bool} {path : Str} {now : UInt64}
    (he : Effect g gaps s t (.delete path now) t') :
    t' = t ∨ (∃ i p k e now b', g.Unlinked gaps t i p k e now b' t') ∨
      ∃ i p k e now b', g.Removed gaps t i p k e now b' t' := by
  cases he with
  | same => exact .inl rfl
  | created hc => cases hc
  | symlinked hc => cases hc
  | full hr =>
      cases hr with
      | create hc => cases hc
      | link hl => cases hl
  | orphaned hc => cases hc
  | linked hl => cases hl
  | wasted hl => cases hl
  | unlinked _ hu => exact .inr (.inl ⟨_, _, _, _, _, _, hu⟩)
  | removed _ hu => exact .inr (.inr ⟨_, _, _, _, _, _, hu⟩)
  | opened ho => cases ho
  | closed ho => cases ho
  | moved ho =>
      rcases ho with ⟨pos, ho⟩ | ⟨len, ho⟩
      · cases ho
      · cases ho
  | wrote ho => cases ho
  | writeFailed ho => cases ho
  | truncated ho => cases ho

/-- `delete` deallocates an inode when its last record goes, and only then. -/
theorem deallocated_iff (h : g.Inv false t) (hcount : t.graph.Counted 0) {path : Str}
    {now : UInt64} (he : Effect g false s t (.delete path now) t') {j : Nat}
    (hj : t.ibit j = true) : t'.ibit j = false ↔ t.Named j ∧ ¬ t'.Named j := by
  -- an inode that stays, and keeps a link, keeps a name
  have hstay : ∀ {t' : St}, g.Inv false t' → t'.graph.Counted 0 → t'.ibit j = true →
      (t'.ino j).fileType = (t.ino j).fileType →
      (0 < (t.ino j).links → 0 < (t'.ino j).links) →
      (t'.ibit j = false ↔ t.Named j ∧ ¬ t'.Named j) := by
    intro t' h' hcount' hj' htype hlinks
    have hold := hcount.named_iff h.graph hj
    have hnew := hcount'.named_iff h'.graph hj'
    constructor
    · intro hoff
      rw [hj'] at hoff
      cases hoff
    · rintro ⟨hnamed, hnot⟩
      refine absurd (hnew.mpr ?_) hnot
      show (t'.ino j).fileType = .directory ∧ j ≠ 0 ∨
        ¬ (t'.ino j).fileType = .directory ∧ 0 < (t'.ino j).links
      rw [htype]
      exact (hold.mp hnamed).imp_right fun hl => ⟨hl.1, hlinks hl.2⟩
  rcases delete_cases he with rfl | ⟨i, p, k, e, now', b', hu⟩ | ⟨i, p, k, e, now', b', hu⟩
  · exact hstay h hcount hj rfl fun hl => hl
  · apply hstay (hu.inv h) (hu.counted h hcount)
    · rw [hu.ibit_eq]
      exact hj
    · exact hu.cut.fileType j
    · intro hl
      by_cases hji : j = i
      · rw [hji, hu.ino_target (hu.ne_parent h)]
        have := hu.many
        dsimp only
        omega
      by_cases hjp : j = p
      · rw [hjp, hu.ino_parent, ← hjp]
        exact hl
      · rw [hu.ino_other hjp hji]
        exact hl
  · by_cases hji : j = i
    · have hedge : t.graph.edge p k j := hji ▸ hu.target ▸ h.edge hu.record hu.named
      have hoff : ¬ t'.ibit j = true := fun hon => (hu.ibit_iff.mp hon).2 hji
      refine ⟨fun _ => ⟨⟨p, k, hedge⟩, ?_⟩, fun _ => by simpa using hoff⟩
      rintro ⟨d, k', x, hx, h1, h2, hxj⟩
      obtain ⟨hx', hne⟩ := (hu.cut.rec_iff h.toIntact hx.live).mp hx
      -- a second record would be one more than the inode counts
      have hlen := h.graph.count j hj [(p, k), (d, k')] ?_ ?_
      · have hlast := hu.last
        rw [← hji] at hlast
        have hlen : 2 ≤ (t.ino j).links := hlen
        omega
      · simp only [List.nodup_cons, List.mem_singleton, Prod.mk.injEq, List.not_mem_nil,
          not_false_eq_true, List.nodup_nil, and_self, and_true]
        exact fun hr => hne ⟨hr.1.symm, hr.2.symm⟩
      · intro y hy
        rcases List.mem_pair.mp hy with rfl | rfl
        · exact hedge
        · exact ⟨x, hx', h1, h2, hxj⟩
    · apply hstay (hu.inv h) (hu.counted h hcount) (hu.ibit_iff.mpr ⟨hj, hji⟩)
        (hu.cut.fileType j)
      intro hl
      by_cases hjp : j = p
      · rw [hjp, hu.ino_parent, ← hjp]
        exact hl
      · rw [hu.ino_other hjp]
        exact hl

/-- `create_hardlink` to a name that `find_entry` finds is refused. -/
theorem createHardlink_refused (hs : g.Rep s t) (h : g.Inv false t) {src dst : Str}
    {now : UInt64} {i p : Nat} {name : Str} {found : DirEntry × Nat × Nat}
    (hl : Links s (.createHardlink src dst now) i p name now)
    (hfound : s.findEntry p (DirEntry.new i .file name).name = some (some found)) :
    createHardlink src dst now s = .err (.alreadyExists dst) s := by
  cases hl with
  | @path _ _ parent _ _ a r ha hfile hsplit hr =>
      obtain ⟨hproper, -⟩ := Path.proper_split hsplit
      have hparent : r.targetInode = s.view.ino r.targetInodeIndex := by
        have hwp := wp_resolve hs h hproper true
        obtain ⟨-, -, hres, -⟩ := hwp.of_ok (onDevice_of_value (readOnly_resolve _ _ _ _ _) hr)
        rw [hs.view_eq]
        exact hres.inode
      refine (Prog.bind_of_ok (onDevice_of_value (readOnly_resolve _ _ _ _ _) ha) _).trans ?_
      rw [if_neg (not_not.mpr hfile), hsplit]
      refine (Prog.bind_of_ok (onDevice_of_value (readOnly_resolve _ _ _ _ _) hr) _).trans ?_
      unfold linkIn
      rw [hparent]
      refine (Prog.bind_of_ok (onDevice_of_value (readOnly_findEntry _ _ _ _) hfound) _).trans ?_
      rfl

/-- The counts along a run. -/
theorem run_counted (hs : g.Rep s t) (h : g.Inv false t) (hcount : t.graph.Counted 0)
    (hrun : Run (fun s op => op.CountsRight s) s s') :
    ∃ t', g.Rep s' t' ∧ g.Inv false t' ∧ t'.graph.Counted 0 := by
  apply run_induct hrun hs h hcount
  · intro s op hop
    exact ⟨LinksFiles.sane hop.1, .inr hop.2.snug⟩
  · intro s t op hop _ hon
    exact absurd hon (LinksFiles.not_onHandle hop.1)
  · intro s t op t' hs h hcount hop he
    exact counted_of_effect hs h hcount hop he

end Geom

/-- In every state that calls without the three defects reach from a well-formed one,
files count their records, `delete` deallocates an inode exactly when its last record
goes, and a link to a file with 65535 links is refused. -/
theorem link_counts_exact {g : Geom} {s₀ s : FFS} {t₀ : St} (hs₀ : g.Rep s₀ t₀)
    (hwf : g.WellFormed t₀) (htree : t₀.Tree)
    (hlinks : ∀ i, t₀.ibit i = true → (t₀.ino i).fileType ≠ .directory → t₀.LinksExact i)
    (hrun : Run (fun s op => op.CountsRight s) s₀ s) :
    (∀ i, s.view.ibit i = true → (s.view.ino i).fileType = .file → s.view.LinksExact i) ∧
      (∀ path now s', Step s (.delete path now) s' → ∀ i, s.view.ibit i = true →
        (s'.view.ibit i = false ↔ s.view.Named i ∧ ¬ s'.view.Named i)) ∧
      ∀ src dst now i p name, Op.CountsRight s (.createHardlink src dst now) →
        Links s (.createHardlink src dst now) i p name now → (s.view.ino i).links = U16 - 1 →
        ∃ e, createHardlink src dst now s = .err e s := by
  have hcount₀ := htree.counted hlinks
  obtain ⟨t, hs, h, hcount⟩ := Geom.run_counted hs₀ (hwf.inv hs₀ htree hcount₀) hcount₀ hrun
  have hview := hs.view_eq
  refine ⟨?_, ?_, ?_⟩
  · rw [hview]
    intro i hi hfile
    have hleaf : (t.ino i).fileType ≠ .directory := by simp [hfile]
    have hdotted : t.Dotted := ⟨h.self, fun hu => (hcount.up_dir hu).2⟩
    exact (hdotted.linksExact_iff hleaf).mpr (hcount.exact i hi hleaf)
  · intro path now s' hstep i hi
    have hroom : Op.Roomy false s (.delete path now) := by
      right
      intro p e fit hent
      cases hent with
      | create hc => cases hc
      | link hl => cases hl
    have hoff : Op.OnHandle (.delete path now) → t.Handled := fun hon => False.elim hon
    obtain ⟨t', hs', he⟩ := Geom.effect_of_step hs h hoff trivial hroom hstep
    rw [hview] at hi ⊢
    rw [hs'.view_eq]
    exact Geom.deallocated_iff h hcount he hi
  · intro src dst now i p name hop hl hmax
    rcases hop.2.countable i p name now hl with hlt | ⟨found, hfound⟩
    · omega
    · exact ⟨_, Geom.createHardlink_refused hs h hl hfound⟩

/-- A file is created, linked and deleted under its first name. -/
theorem link_counts_moved : ∃ (g : Geom) (s₀ s : FFS) (t₀ : St),
    start 0 (MemoryDevice.empty 14) = some s₀ ∧ g.Rep s₀ t₀ ∧
    Run (fun s op => op.CountsRight s) s₀ s ∧
    checked (fun s op => op.CountsRight s) [.createFile [47, 97] 0,
      .createHardlink [47, 97] [47, 98] 0, .delete [47, 97] 0] s₀ = some s ∧
    ∀ i, s.view.ibit i = true → (s.view.ino i).fileType = .file → s.view.LinksExact i := by
  have hcalls : ((start 0 (MemoryDevice.empty 14)).bind
      (checked (fun s op => op.CountsRight s) [.createFile [47, 97] 0,
        .createHardlink [47, 97] [47, 98] 0, .delete [47, 97] 0])).isSome = true := by
    decide +kernel
  obtain ⟨s, hs⟩ := Option.isSome_iff_exists.mp hcalls
  obtain ⟨s₀, hstart, hchecked⟩ := Option.bind_eq_some_iff.mp hs
  obtain ⟨g, t₀, -, hs₀, hinit⟩ := Geom.start_initial hstart
  have hrun := run_of_checked hchecked
  exact ⟨g, s₀, s, t₀, hstart, hs₀, hrun, hchecked,
    (link_counts_exact hs₀ hinit.wellFormed hinit.tree hinit.linksExact hrun).1⟩

/-- The record names `i`. -/
def Slot.names (i : Nat) : Slot → Bool
  | .live e => e.inode == i
  | .free _ => false

/-- No record of the allocated directories names `i`. -/
def FFS.Unnamed (s : FFS) (i : Nat) : Prop :=
  ∀ d < s.format.inodeAllocator.maxIndex, s.view.ibit d = true →
    (s.view.ino d).fileType = .directory → ∀ b ∈ s.view.content d,
      ∀ x ∈ (s.view.data b).slots, x.2.names i = false

instance {s : FFS} {i : Nat} : Decidable (s.Unnamed i) :=
  inferInstanceAs (Decidable (∀ d < _, _))

theorem FFS.Unnamed.not_linksExact {s : FFS} {i : Nat} (h : s.Unnamed i)
    (hlt : ∀ d, s.view.ibit d = true → d < s.format.inodeAllocator.maxIndex)
    (hpos : 0 < (s.view.ino i).links) : ¬ s.view.LinksExact i := by
  rintro ⟨l, -, hmem, hlen⟩
  match l with
  | [] =>
      rw [← hlen] at hpos
      exact Nat.lt_irrefl 0 hpos
  | (d, k) :: l =>
      obtain ⟨e, hr, hi⟩ := (hmem d k).mp List.mem_cons_self
      have hno := h d (hlt d hr.live) hr.live hr.dir k.1 hr.block _ hr.slot
      simp [Slot.names, hi] at hno

/-- A name of 12 bytes takes the region that a name of 20 bytes left and hides the record
of the file behind it. -/
theorem link_counts_hidden : ∃ (g : Geom) (s₀ s : FFS) (t₀ : St),
    start 0 (MemoryDevice.empty 14) = some s₀ ∧ g.Rep s₀ t₀ ∧ g.WellFormed t₀ ∧ t₀.Tree ∧
    (∀ i, t₀.ibit i = true → (t₀.ino i).fileType ≠ .directory → t₀.LinksExact i) ∧
    Run (fun s op => op.LinksFiles s) s₀ s ∧
    ∃ i, s.view.ibit i = true ∧ (s.view.ino i).fileType = .file ∧ ¬ s.view.LinksExact i := by
  have hcalls : ((start 0 (MemoryDevice.empty 14)).bind
      (checked (fun s op => op.LinksFiles s) [.createFile (47 :: List.replicate 20 97) 0,
        .createFile [47, 98] 0, .delete (47 :: List.replicate 20 97) 0,
        .createFile (47 :: List.replicate 12 99) 0])).any (fun s =>
          s.view.ibit 2 && (s.view.ino 2).fileType == .file && (s.view.ino 2).links == 1 &&
            decide (s.Unnamed 2)) = true := by
    decide +kernel
  obtain ⟨s, hs, hfinal⟩ := (Option.any_eq_true _ _).mp hcalls
  obtain ⟨s₀, hstart, hchecked⟩ := Option.bind_eq_some_iff.mp hs
  obtain ⟨g, t₀, -, hs₀, hinit⟩ := Geom.start_initial hstart
  simp only [Bool.and_eq_true, beq_iff_eq, decide_eq_true_eq] at hfinal
  obtain ⟨⟨⟨hlive, hfile⟩, hlinks⟩, hnone⟩ := hfinal
  have hrun := run_of_checked hchecked
  obtain ⟨t, hs', h, -⟩ : ∃ t, g.Rep s t ∧ g.Inv true t ∧ True := by
    apply Geom.run_induct (P := fun _ => True) hrun hs₀ hinit.inv trivial
    · exact fun s op hop => ⟨Geom.LinksFiles.sane hop, .inl rfl⟩
    · exact fun s t op hop _ hon => absurd hon (Geom.LinksFiles.not_onHandle hop)
    · exact fun _ _ _ _ _ _ _ _ _ => trivial
  refine ⟨g, s₀, s, t₀, hstart, hs₀, hinit.wellFormed, hinit.tree, hinit.linksExact, hrun, 2,
    hlive, hfile, ?_⟩
  apply hnone.not_linksExact
  · intro d hd
    rw [hs'.view_eq] at hd
    rw [hs'.2]
    exact h.lt hd
  · omega

end FerrisFS
