import FerrisFS.V1.Inspect
import FerrisFS.V1.Listing
import FerrisFS.V1.Siblings

/-!
# Finding a new name again

`create` and `create_hardlink`, by path and by parent, either fail and add no record or
enter one record under the name they were given. Three things get in the way: names are
cut to 64 bytes when they are entered, a remainder of eight bytes in the region is not
written, and the size of the parent and the count of links are added to without a check.
-/

namespace FerrisFS

open Lib DirectoryHandler INodeTableHandler FormatV1

namespace FFS

/-- What `get_entries` answers for the directory `d`. -/
def entries (s : FFS) (d : Nat) : Option (List DirEntry) :=
  (s.format.directoryHandler.getEntries (s.view.ino d) s.format.inodeHandler false
    s.device).value?

/-- The directory `d` has its blocks, they hold what they held, and its listing is the
same. -/
structure Unchanged (s s' : FFS) (d : Nat) : Prop where
  content : s'.view.content d = s.view.content d
  data : ∀ b ∈ s.view.content d, s'.view.data b = s.view.data b
  entries : s'.entries d = s.entries d

/-- No directory got a record. -/
def NoneAdded (s s' : FFS) : Prop :=
  ∀ d, s.view.ibit d = true → (s.view.ino d).fileType = .directory → s.Unchanged s' d

/-- The directory `p` got one record, for the inode `i` under `name`, and the other
directories got none. -/
structure Added (s s' : FFS) (p : Nat) (name : Str) (i : Nat) : Prop where
  found : ∃ e b off, s'.findEntry p name = some (some (e, b, off)) ∧ e.isFree = false ∧
    e.inode = i
  listed : ∃ l l' e, s.entries p = some l ∧ s'.entries p = some l' ∧ l'.Perm (e :: l) ∧
    e.label = name ∧ e.inode = i
  others : ∀ d, d ≠ p → s.view.ibit d = true → (s.view.ino d).fileType = .directory →
    s.Unchanged s' d

/-- How a call that enters `name` in `p` has to end; `index` tells the inode. -/
def Enters {α : Type} (s : FFS) (p : Nat) (name : Str) (index : α → Nat) :
    Outcome FSError FFS α → Prop
  | .ok a s' => s.Added s' p name (index a)
  | .err _ s' => s.NoneAdded s'
  | .panic => False

/-- The collision check passes, `can_fit` answers `fit`, `allocate` finds `n` inodes and `k`
data blocks besides those that the parent needs, and the parent can grow if it has to. -/
structure Admits (s : FFS) (p : Nat) (entry : DirEntry) (n k : Nat)
    (fit : Option (Nat × Nat)) : Prop where
  unnamed : s.findEntry p entry.name = some none
  room : s.canFit p entry = some fit
  inodes_le : n ≤ s.format.superblock.freeInodes
  data_le : k + Needs (s.view.ino p) fit ≤ s.format.superblock.freeData
  inodes : (s.format.inodeAllocator.pick s.view.ibit n).length = n
  data : (s.format.blockAllocator.pick s.view.dbit (k + Needs (s.view.ino p) fit)).length =
    k + Needs (s.view.ino p) fit
  growable : fit = none → (s.view.ino p).blocks < INode.MAX_BLOCKS

/-- The name is not cut, what is left over of the region does not matter, and the size of
the parent stays in its range. -/
structure Takes (s : FFS) (p : Nat) (name : Str) (entry : DirEntry)
    (fit : Option (Nat × Nat)) : Prop where
  short : name.length ≤ DirEntry.MAX_NAME
  resumes : Entered.Resumes s.view.data entry fit
  size : fit = none → (s.view.ino p).size + BLOCK_SIZE < U64

/-- What has to hold for `create` in `p`, if nothing refuses it. -/
def CreateSound (s : FFS) (p : Nat) (name : Str) (fileType : FileType) : Prop :=
  ∀ fit, s.Admits p (newEntry fileType name) 1 (fileBlocks fileType) fit →
    s.Takes p name (newEntry fileType name) fit

/-- What has to hold for a hard link to `i` in `p`, if nothing refuses it. -/
def LinkSound (s : FFS) (p : Nat) (name : Str) (i : Nat) : Prop :=
  ∀ fit, s.Admits p (DirEntry.new i .file name) 0 0 fit →
    s.Takes p name (DirEntry.new i .file name) fit ∧ (s.view.ino i).links + 1 < U16

end FFS

namespace Geom

variable {g : Geom} {gaps : Bool} {s s' : FFS} {t t' : St} {p d i : Nat} {name : Str}
  {now : UInt64}

/-- A listing is returned when all blocks of the directory can be walked. -/
theorem Rep.entries_iff (hs : g.Rep s t) (hm : (t.ino d).Mapped g t.data) {l : List DirEntry} :
    s.entries d = some l ↔
      (∀ b ∈ t.content d, (t.data b).Complete) ∧ l = (t.ino d).entries t.data := by
  have hruns : (∀ b ∈ t.content d, (t.data b).Complete) →
      s.entries d = some ((t.ino d).entries t.data) := by
    intro hall
    obtain ⟨d', hrun, -⟩ := runs_getEntries hm hall s.device hs.1
    rw [FFS.entries, hs.view_eq, hs.2]
    show ((g.directoryHandler.getEntries (t.ino d) g.inodeHandler false) s.device).value? = _
    rw [hrun]
    rfl
  constructor
  · intro hl
    have hall : ∀ b ∈ t.content d, (t.data b).Complete := by
      rw [FFS.entries, hs.view_eq, hs.2] at hl
      obtain ⟨d', hd'⟩ := Outcome.value?_eq_some.mp hl
      obtain ⟨v', -, hall⟩ := (wpr_getEntries hm).of_ok hs.1 hd'
      exact hall
    rw [hruns hall] at hl
    exact ⟨hall, (Option.some.inj hl).symm⟩
  · rintro ⟨hall, rfl⟩
    exact hruns hall

/-- A directory whose blocks and their contents are the same. -/
theorem unchanged_of (hs : g.Rep s t) (hs' : g.Rep s' t') (hm : (t.ino d).Mapped g t.data)
    (howned : t'.owned d = t.owned d) (hcontent : t'.content d = t.content d)
    (hdata : ∀ b ∈ t.content d, t'.data b = t.data b) : s.Unchanged s' d := by
  have hm' : (t'.ino d).Mapped g t'.data := by
    refine ⟨?_, fun b hb => hm.lt b ?_⟩
    · have hlen := congrArg List.length hcontent
      simp only [View.content, INode.content_length] at hlen
      rw [hlen]
      exact hm.blocks_le
    · have hb : b ∈ t'.owned d := hb
      rw [howned] at hb
      exact hb
  have hentries : (t'.ino d).entries t'.data = (t.ino d).entries t.data := by
    show ((t'.content d).flatMap fun b => (t'.data b).entries) =
      (t.content d).flatMap fun b => (t.data b).entries
    rw [hcontent]
    exact flatMap_entries_congr hdata
  have hall : (∀ b ∈ t'.content d, (t'.data b).Complete) ↔
      ∀ b ∈ t.content d, (t.data b).Complete := by
    rw [hcontent]
    refine forall₂_congr fun b hb => ?_
    rw [hdata b hb]
  refine ⟨?_, ?_, ?_⟩
  · rw [hs'.view_eq, hs.view_eq]
    exact hcontent
  · rw [hs'.view_eq, hs.view_eq]
    exact hdata
  · apply Option.ext
    intro l
    rw [hs'.entries_iff hm', hs.entries_iff hm, hentries, hall]

theorem Same.unchanged (hs : g.Rep s t) (hs' : g.Rep s' t') (hm : (t.ino d).Mapped g t.data)
    (h : t.Same t'.toView d) : s.Unchanged s' d :=
  unchanged_of hs hs' hm h.owned_eq h.content_eq fun _ hb => h.content_data hb

/-- A name that `find_entry` does not find. -/
theorem Rep.absent (hs : g.Rep s t) (h : g.Intact false t) (hp : t.ibit p = true)
    (hdir : (t.ino p).fileType = .directory) (hfind : s.findEntry p name = some none) :
    (t.ino p).Walks t.data ∧ ∀ e ∈ (t.ino p).entries t.data, e.label ≠ name := by
  have hm := h.mapped hp
  rw [FFS.findEntry, hs.view_eq, hs.2] at hfind
  obtain ⟨d', hd'⟩ := Outcome.value?_eq_some.mp hfind
  obtain ⟨v', -, -, ⟨b, -, off, e, -, -, hr⟩ | ⟨hall, -⟩⟩ := (wpr_findEntry hm).of_ok hs.1 hd'
  · cases hr
  have hnamed : ∀ b ∈ (t.ino p).content t.data, ∀ x ∈ (t.data b).records,
      x.2.isFree = false → x.2.nameLen ≤ DirEntry.MAX_NAME := by
    intro b hb x hx hfree
    obtain ⟨c, hc, heq⟩ := h.chunk_of_rec (rec_of_mem hp hdir hb hx hfree)
    rw [← heq]
    exact hc.name_le
  refine ⟨⟨fun b hb => (hall b hb).1, hnamed⟩, fun e he hlabel => ?_⟩
  obtain ⟨b, hb, ⟨off, hmem⟩, hfree⟩ := INode.mem_entries.mp he
  exact (hall b hb).2 _ hmem ⟨hfree, hnamed b hb _ hmem hfree, hlabel⟩

/-- The label of a record that was read is no longer than its array. -/
theorem label_length_le {data : Region} {n : INode} {e : DirEntry} (he : e ∈ n.entries data) :
    e.label.length ≤ DirEntry.MAX_NAME := by
  obtain ⟨b, -, ⟨off, hmem⟩, -⟩ := INode.mem_entries.mp he
  obtain ⟨-, rfl, -⟩ := Block.recordsFrom_sound hmem
  have hname : (DirEntry.ofBytes (data b) off).name.length = DirEntry.MAX_NAME :=
    DirEntry.padName_length _
  rw [DirEntry.label, List.length_take, hname]
  exact Nat.min_le_right _ _

/-- A directory that got the record `new`, read off its listings. -/
theorem added_iff {new : DirEntry} (hs : g.Rep s t) (hs' : g.Rep s' t')
    (hm : (t.ino p).Mapped g t.data) (hm' : (t'.ino p).Mapped g t'.data)
    (hw : (t.ino p).Walks t.data) (habsent : ∀ e ∈ (t.ino p).entries t.data, e.label ≠ name)
    (hnew : new.Valid) (hlabel : new.label = name.take DirEntry.MAX_NAME)
    (hmem : new ∈ (t'.ino p).entries t'.data)
    (hothers : ∀ d, d ≠ p → t.ibit d = true → (t.ino d).fileType = .directory →
      s.Unchanged s' d) :
    s.Added s' p name new.inode ↔ name.length ≤ DirEntry.MAX_NAME ∧
      Entered.Lists t.data t'.data (t.ino p) (t'.ino p) new := by
  constructor
  · intro h
    obtain ⟨l, l', e, hl, hl', hperm, he, hi⟩ := h.listed
    obtain ⟨-, rfl⟩ := (hs.entries_iff hm).mp hl
    obtain ⟨hall, rfl⟩ := (hs'.entries_iff hm').mp hl'
    have hlen : name.length ≤ DirEntry.MAX_NAME := by
      rw [← he]
      exact label_length_le (hperm.mem_iff.mpr List.mem_cons_self)
    rw [List.take_of_length_le hlen] at hlabel
    -- the new record is in the listing, and it was not before
    rcases List.mem_cons.mp (hperm.mem_iff.mp hmem) with rfl | hold
    · exact ⟨hlen, hall, hperm⟩
    · exact absurd hlabel (habsent new hold)
  · rintro ⟨hlen, hall, hperm⟩
    rw [List.take_of_length_le hlen] at hlabel
    have hcases : ∀ e ∈ (t'.ino p).entries t'.data, e = new ∨ e ∈ (t.ino p).entries t.data :=
      fun e he => List.mem_cons.mp (hperm.mem_iff.mp he)
    have hw' : (t'.ino p).Walks t'.data := by
      refine ⟨hall, fun b hb x hx hfree => ?_⟩
      rcases hcases x.2 (INode.mem_entries.mpr ⟨b, hb, ⟨x.1, hx⟩, hfree⟩) with heq | hold
      · rw [heq]
        exact hnew.nameLen_le
      · obtain ⟨b', hb', ⟨off, hx'⟩, hfree'⟩ := INode.mem_entries.mp hold
        exact hw.named b' hb' (off, x.2) hx' hfree'
    refine ⟨?_, ⟨_, _, new, (hs.entries_iff hm).mpr ⟨hw.complete, rfl⟩,
      (hs'.entries_iff hm').mpr ⟨hall, rfl⟩, hperm, hlabel, rfl⟩, ?_⟩
    · obtain ⟨r, hrun, hr⟩ := @runs_findEntry g t'.toView _ name hm' hw'
      have hfind : s'.findEntry p name = some r := by
        obtain ⟨d', hd', -⟩ := hrun s'.device hs'.1
        rw [FFS.findEntry, hs'.view_eq, hs'.2]
        show ((g.directoryHandler.findEntry (t'.ino p) g.inodeHandler name) s'.device).value? = _
        rw [hd']
        rfl
      rw [hfind]
      rcases hr with ⟨b, hb, off, e, hrec, hnamed, rfl⟩ | ⟨hnone, rfl⟩
      · refine ⟨e, b, off, rfl, hnamed.1, ?_⟩
        rcases hcases e (INode.mem_entries.mpr ⟨b, hb, ⟨off, hrec⟩, hnamed.1⟩) with rfl | hold
        · rfl
        · exact absurd hnamed.2.2 (habsent e hold)
      · obtain ⟨b, hb, ⟨off, hrec⟩, hfree⟩ := INode.mem_entries.mp hmem
        exact absurd ⟨hfree, hnew.nameLen_le, hlabel⟩ (hnone b hb _ hrec)
    · rw [hs.view_eq]
      exact hothers

/-! ## Creating -/

section Create

variable {ft : FileType} {fit : Option (Nat × Nat)} {ds : List Nat} {n' : INode} {data' : Region}

theorem Created.mapped_parent (h : g.Intact false t) (hp : t.ibit p = true)
    (hc : g.Created t p ft name now fit i ds n' data' t') : (t'.ino p).Mapped g t'.data :=
  (hc.owning h hp).mapped p (hc.ibit_iff.mpr (.inl hp))

theorem Created.lists_iff (h : g.Intact false t) (hp : t.ibit p = true)
    (hdir : (t.ino p).fileType = .directory) (hw : (t.ino p).Walks t.data)
    (hc : g.Created t p ft name now fit i ds n' data' t') :
    Entered.Lists t.data t'.data (t.ino p) (t'.ino p) (DirEntry.new i ft name) ↔
      Entered.Resumes t.data (newEntry ft name) fit := by
  have hcontent := hc.content_newData h hp
  have hframe := hc.newData_owned h hp
  have hall : ∀ b ∈ (t.ino p).content (newData t.data ft ds i p),
      (newData t.data ft ds i p b).Complete := by
    intro b hb
    rw [hcontent] at hb
    rw [hframe b (List.mem_append_left _ hb)]
    exact hw.complete b hb
  have hiff := hc.entered.lists_iff (hc.clear h hp) (valid_newEntry (hc.lt h))
    (hc.rows h hp hdir) hall
  have hold : (t.ino p).entries (newData t.data ft ds i p) = (t.ino p).entries t.data := by
    show (((t.ino p).content _).flatMap fun b => _) = (t.content p).flatMap fun b => _
    rw [hcontent]
    exact flatMap_entries_congr fun b hb => hframe b (List.mem_append_left _ hb)
  rw [Entered.Lists, hold] at hiff
  have hres : Entered.Resumes (newData t.data ft ds i p) (DirEntry.new i ft name) fit ↔
      Entered.Resumes t.data (newEntry ft name) fit := by
    refine Entered.Resumes.congr rfl fun b off hfit => ?_
    rcases hc.fitOf.cases with ⟨b', hb, off', e, -, -, heq⟩ | ⟨-, heq⟩
    · rw [hfit] at heq
      cases heq
      exact hframe b (List.mem_append_left _ hb)
    · rw [hfit] at heq
      cases heq
  rw [← hres, ← hiff, hc.data_eq, hc.ino_parent]
  exact Iff.rfl

theorem Created.mem_entries (h : g.Intact false t) (hp : t.ibit p = true)
    (hdir : (t.ino p).fileType = .directory)
    (hc : g.Created t p ft name now fit i ds n' data' t') :
    DirEntry.new i ft name ∈ (t'.ino p).entries t'.data := by
  rw [hc.data_eq, hc.ino_parent]
  exact hc.entered.mem_entries (hc.clear h hp) (valid_newEntry (hc.lt h)) (hc.rows h hp hdir)

/-- The size of a parent that has grown is in range. -/
theorem size_lt_of_entered {entry : DirEntry} {data : Region} {n : INode}
    (h : Entered data n entry fit ds data' n') (hr : n'.InRange) (hfit : fit = none) :
    n.size + BLOCK_SIZE < U64 := by
  cases h with
  | here => cases hfit
  | grow _ _ hg =>
      have := hr.size
      rw [← hg.size]
      exact this

theorem Created.admits (hc : g.Created t p ft name now fit i ds n' data' t') :
    g.Admits t p name (newEntry ft name) 1 (fileBlocks ft) fit :=
  hc.alloc.admits hc.checked hc.fitOf hc.entered.growable

/-- `create` adds the record it should. -/
theorem Created.added_iff (hs : g.Rep s t) (hs' : g.Rep s' t') (h : g.Intact false t)
    (hp : t.ibit p = true) (hdir : (t.ino p).fileType = .directory)
    (hfind : s.findEntry p name = some none)
    (hc : g.Created t p ft name now fit i ds n' data' t') :
    s.Added s' p name i ↔ s.Takes p name (newEntry ft name) fit := by
  obtain ⟨hw, habsent⟩ := hs.absent h hp hdir hfind
  have hvalid : (DirEntry.new i ft name).Valid := valid_newEntry (hc.lt h)
  have hiff := Geom.added_iff hs hs' (h.mapped hp) (hc.mapped_parent h hp) hw habsent hvalid
    DirEntry.label_new (hc.mem_entries h hp hdir) fun d hd hlive _ =>
      Same.unchanged hs hs' (h.mapped hlive) (hc.same h hp hlive hd)
  rw [hc.lists_iff h hp hdir hw] at hiff
  refine hiff.trans ⟨fun hk => ?_, fun hk => ?_⟩
  · refine ⟨hk.1, ?_, ?_⟩
    · rw [hs.view_eq]
      exact hk.2
    · rw [hs.view_eq]
      exact size_lt_of_entered hc.entered hc.inRange
  · have hres := hk.resumes
    rw [hs.view_eq] at hres
    exact ⟨hk.short, hres⟩

theorem AllocFailed.same {n k : Nat} (hf : g.AllocFailed t n k t') : t.Same t'.toView d := by
  cases hf with
  | refused => exact .refl
  | inodes => exact .refl
  | data => exact .refl

/-- `create` adds nothing when it fails. -/
theorem CreateFailed.noneAdded (hs : g.Rep s t) (hs' : g.Rep s' t') (h : g.Intact false t)
    (hf : g.CreateFailed t p ft name now t') : s.NoneAdded s' := by
  intro d hlive _
  rw [hs.view_eq] at hlive
  refine Same.unchanged hs hs' (h.mapped hlive) ?_
  cases hf with
  | unchanged => exact .refl
  | full _ ha => exact ha.same
  | @stuck i ds hmax hfit ha =>
      have ho : g.Orphaned t p ft now i ds _ := ⟨ha.inodes_eq ▸ fresh_pickInodes h.cursors,
        ha.data_eq ▸ fresh_pickData, by rw [ha.data_length]; omega, rfl⟩
      exact ho.same h hlive

theorem AllocFailed.not_admits {n k : Nat} {entry : DirEntry} {fit : Option (Nat × Nat)}
    (hf : g.AllocFailed t n (k + Needs (t.ino p) fit) t') :
    ¬ g.Admits t p name entry n k fit := by
  intro ha
  cases hf with
  | refused h =>
      have h1 := ha.inodes_le
      have h2 := ha.data_le
      omega
  | inodes _ _ h => exact Nat.ne_of_lt h ha.inodes_length
  | data _ _ h => exact Nat.ne_of_lt h ha.data_length

/-- `create` fails only where it has to. -/
theorem CreateFailed.not_admits (hdir : (t.ino p).fileType = .directory)
    (hw : (t.ino p).Walks t.data) (hf : g.CreateFailed t p ft name now t')
    {fit : Option (Nat × Nat)} :
    ¬ g.Admits t p name (newEntry ft name) 1 (fileBlocks ft) fit := by
  intro ha
  cases hf with
  | unchanged h => exact h hdir hw ha.checked
  | full hfit hf =>
      obtain rfl := hfit.unique ha.fitOf
      exact hf.not_admits ha
  | stuck hmax hfit _ =>
      obtain rfl := hfit.unique ha.fitOf
      exact absurd (ha.growable rfl) (Nat.not_lt.mpr hmax)

end Create

/-- What the collision check finds, in a directory that can be walked. -/
theorem Rep.unnamed_iff (hs : g.Rep s t) (h : g.Intact gaps t) (hp : t.ibit p = true)
    (hdir : (t.ino p).fileType = .directory) (hw : (t.ino p).Walks t.data) {entry : DirEntry}
    (hname : entry.name = DirEntry.padName name) :
    s.findEntry p entry.name = some none ↔ Checked t p name := by
  obtain ⟨r, hrun, -⟩ :=
    @runs_findEntry g t.toView _ (DirEntry.padName name) (h.mapped hp) hw
  obtain ⟨d', hd', -⟩ := hrun s.device hs.1
  obtain ⟨-, -, -, hnone, hsome⟩ := (wpr_collision h hp).of_ok hs.1 hd'
  have hvalue : s.findEntry p entry.name = some r := by
    rw [FFS.findEntry, hs.view_eq, hs.2, hname]
    show ((g.directoryHandler.findEntry (t.ino p) g.inodeHandler _) s.device).value? = _
    rw [hd']
    rfl
  rw [hvalue]
  constructor
  · intro heq
    exact hnone (Option.some.inj heq)
  · intro hchecked
    by_contra hne
    exact hsome (fun heq => hne (congrArg some heq)) hdir hchecked

/-- Where there is room, in a directory that can be walked. -/
theorem Rep.room_iff (hs : g.Rep s t) (hm : (t.ino p).Mapped g t.data)
    (hw : (t.ino p).Walks t.data) {entry : DirEntry} {fit : Option (Nat × Nat)} :
    s.canFit p entry = some fit ↔ FitOf t.data (t.content p) entry fit := by
  refine ⟨hs.canFit hm, fun hfit => ?_⟩
  obtain ⟨stop, hfold⟩ := hfit
  obtain ⟨d', hd', -⟩ := runs_iterate hm hw.complete hfold s.device hs.1
  rw [FFS.canFit, hs.view_eq, hs.2]
  exact congrArg Outcome.value? hd'

/-- What the operations ask before they write, as the code answers it. -/
theorem Rep.admits_iff (hs : g.Rep s t) (h : g.Intact gaps t) (hp : t.ibit p = true)
    (hdir : (t.ino p).fileType = .directory) (hw : (t.ino p).Walks t.data) {entry : DirEntry}
    (hname : entry.name = DirEntry.padName name) {n k : Nat} {fit : Option (Nat × Nat)} :
    s.Admits p entry n k fit ↔ g.Admits t p name entry n k fit := by
  have hfree := hs.unnamed_iff h hp hdir hw hname
  have hroom := @Rep.room_iff g s t p hs (h.mapped hp) hw entry fit
  have hview := hs.view_eq
  have hfmt := hs.2
  constructor
  · intro ha
    have h4 := ha.data_le
    have h5 := ha.inodes
    have h6 := ha.data
    have h7 := ha.growable
    rw [hview, hfmt] at h4 h5 h6
    rw [hview] at h7
    have h3 := ha.inodes_le
    rw [hfmt] at h3
    exact ⟨hfree.mp ha.unnamed, hroom.mp ha.room, h3, h4, h5, h6, h7⟩
  · intro ha
    refine ⟨hfree.mpr ha.checked, hroom.mpr ha.fitOf, ?_, ?_, ?_, ?_, ?_⟩
    · rw [hfmt]
      exact ha.inodes_le
    · rw [hview, hfmt]
      exact ha.data_le
    · rw [hview, hfmt]
      exact ha.inodes_length
    · rw [hview, hfmt]
      exact ha.data_length
    · rw [hview]
      exact ha.growable

/-- The body of `create` and `create_child`. -/
theorem createIn_enters_iff (hs : g.Rep s t) (h : g.Intact false t) (hp : t.ibit p = true)
    (hdir : (t.ino p).fileType = .directory) (hfind : s.findEntry p name = some none)
    {ft : FileType} (hft : ft ≠ .unknown) {onExists : DirEntry → FSError} :
    s.Enters p name Prod.snd (createIn p (t.ino p) ft name onExists now s) ↔
      s.CreateSound p name ft := by
  obtain ⟨hw, -⟩ := hs.absent h hp hdir hfind
  have hadmits : ∀ fit, s.Admits p (newEntry ft name) 1 (fileBlocks ft) fit ↔
      g.Admits t p name (newEntry ft name) 1 (fileBlocks ft) fit :=
    fun fit => hs.admits_iff h hp hdir hw rfl
  have hspec := @wpa_createIn g false t p ft name now h hp onExists s hs
  cases hrun : createIn p (t.ino p) ft name onExists now s with
  | ok r s' =>
      rw [hrun] at hspec
      obtain ⟨t', hs', fit, ds, n', data', -, hc⟩ := hspec
      refine (hc.added_iff hs hs' h hp hdir hfind).trans ⟨fun htakes fit' ha => ?_, fun hall => ?_⟩
      · obtain rfl := hc.fitOf.unique ((hadmits fit').mp ha).fitOf
        exact htakes
      · exact hall fit ((hadmits fit).mpr hc.admits)
  | err e s' =>
      rw [hrun] at hspec
      obtain ⟨t', hs', hf⟩ := hspec
      refine iff_of_true (hf.noneAdded hs hs' h) fun fit ha => ?_
      exact absurd ((hadmits fit).mp ha) (hf.not_admits hdir hw)
  | panic =>
      rw [hrun] at hspec
      refine iff_of_false id fun hall => ?_
      cases hspec with
      | walk hn => exact hn hw
      | unknown hu => exact hft hu
      | size ha hsize =>
          have := (hall none ((hadmits none).mpr ha)).size rfl
          rw [hs.view_eq] at this
          exact hsize this

/-! ## Linking -/

section Link

variable {fit : Option (Nat × Nat)} {ds : List Nat} {n' : INode} {data' : Region}

theorem Linked.admits (hk : g.Linked t i p name now fit ds n' data' t') :
    g.Admits t p name (DirEntry.new i .file name) 0 0 fit := by
  have halloc := hk.alloc
  rw [← Nat.zero_add (Needs (t.ino p) fit)] at halloc
  exact halloc.admits hk.checked hk.fitOf hk.entered.growable

/-- `create_hardlink` adds the record it should. -/
theorem Linked.added_iff (hs : g.Rep s t) (hs' : g.Rep s' t') (h : g.Intact false t)
    (hi : i < g.inodes) (hp : t.ibit p = true) (hdir : (t.ino p).fileType = .directory)
    (hfind : s.findEntry p name = some none)
    (hk : g.Linked t i p name now fit ds n' data' t') :
    s.Added s' p name i ↔ s.Takes p name (DirEntry.new i .file name) fit := by
  obtain ⟨hw, habsent⟩ := hs.absent h hp hdir hfind
  have hvalid : (DirEntry.new i .file name).Valid := valid_newEntry hi
  have hclear := hk.clear h hp
  have hrows := h.tidy p hp hdir
  have hm' : (t'.ino p).Mapped g t'.data :=
    (hk.owning h hp).mapped p (by rw [hk.ibit_eq]; exact hp)
  have hmem : DirEntry.new i .file name ∈ (t'.ino p).entries t'.data := by
    rw [hk.data_eq, hk.ino_parent]
    exact hk.entered.mem_entries hclear hvalid hrows
  have hlists : Entered.Lists t.data t'.data (t.ino p) (t'.ino p) (DirEntry.new i .file name) ↔
      Entered.Resumes t.data (DirEntry.new i .file name) fit := by
    rw [hk.data_eq, hk.ino_parent]
    exact hk.entered.lists_iff hclear hvalid hrows hw.complete
  have hiff := Geom.added_iff hs hs' (h.mapped hp) hm' hw habsent hvalid DirEntry.label_new hmem
    fun d hd hlive _ => by
      obtain ⟨howned, hcontent, hdata⟩ := hk.kept h hp hlive hd
      exact unchanged_of hs hs' (h.mapped hlive) howned hcontent
        fun b hb => hdata b (List.mem_append_left _ hb)
  rw [hlists] at hiff
  refine hiff.trans ⟨fun hk' => ?_, fun hk' => ?_⟩
  · refine ⟨hk'.1, ?_, ?_⟩
    · rw [hs.view_eq]
      exact hk'.2
    · rw [hs.view_eq]
      exact size_lt_of_entered hk.entered hk.inRange
  · have hres := hk'.resumes
    rw [hs.view_eq] at hres
    exact ⟨hk'.short, hres⟩

/-- `create_hardlink` adds nothing when it fails. -/
theorem LinkFailed.noneAdded (hs : g.Rep s t) (hs' : g.Rep s' t') (h : g.Intact false t)
    (hf : g.LinkFailed t i p name t') : s.NoneAdded s' := by
  intro d hlive _
  rw [hs.view_eq] at hlive
  refine Same.unchanged hs hs' (h.mapped hlive) ?_
  cases hf with
  | unchanged => exact .refl
  | full _ ha => exact ha.same
  | stuck => exact ⟨rfl, fun _ _ => rfl⟩

theorem LinkFailed.not_admits (hdir : (t.ino p).fileType = .directory)
    (hw : (t.ino p).Walks t.data) (hf : g.LinkFailed t i p name t') :
    ¬ g.Admits t p name (DirEntry.new i .file name) 0 0 fit := by
  intro ha
  cases hf with
  | unchanged h => exact h hdir hw ha.checked
  | full hfit hf =>
      obtain rfl := hfit.unique ha.fitOf
      rw [← Nat.zero_add (Needs (t.ino p) _)] at hf
      exact hf.not_admits ha
  | stuck hmax hfit _ =>
      obtain rfl := hfit.unique ha.fitOf
      exact absurd (ha.growable rfl) (Nat.not_lt.mpr hmax)

/-- The body of `create_hardlink` and `create_child_hardlink`. -/
theorem linkIn_enters_iff (hs : g.Rep s t) (h : g.Intact false t) (hi : i < g.inodes)
    (hp : t.ibit p = true) (hdir : (t.ino p).fileType = .directory)
    (hfind : s.findEntry p name = some none) {dst : Str} :
    s.Enters p name (fun _ => i) (linkIn (t.ino i) i dst name (t.ino p) p now s) ↔
      s.LinkSound p name i := by
  obtain ⟨hw, -⟩ := hs.absent h hp hdir hfind
  have hadmits : ∀ fit, s.Admits p (DirEntry.new i .file name) 0 0 fit ↔
      g.Admits t p name (DirEntry.new i .file name) 0 0 fit :=
    fun fit => hs.admits_iff h hp hdir hw rfl
  have hspec := @wpa_linkIn g false t i p name now h hi hp dst s hs
  cases hrun : linkIn (t.ino i) i dst name (t.ino p) p now s with
  | ok r s' =>
      rw [hrun] at hspec
      obtain ⟨t', hs', fit, ds, n', data', hk⟩ := hspec
      have hlinks : (s.view.ino i).links + 1 < U16 := by
        rw [hs.view_eq]
        exact hk.links_lt
      refine (hk.added_iff hs hs' h hi hp hdir hfind).trans
        ⟨fun htakes fit' ha => ?_, fun hall => ?_⟩
      · obtain rfl := hk.fitOf.unique ((hadmits fit').mp ha).fitOf
        exact ⟨htakes, hlinks⟩
      · exact (hall fit ((hadmits fit).mpr hk.admits)).1
  | err e s' =>
      rw [hrun] at hspec
      obtain ⟨t', hs', hf⟩ := hspec
      refine iff_of_true (hf.noneAdded hs hs' h) fun fit ha => ?_
      exact absurd ((hadmits fit).mp ha) (hf.not_admits hdir hw)
  | panic =>
      rw [hrun] at hspec
      refine iff_of_false id fun hall => ?_
      cases hspec with
      | walk hn => exact hn hw
      | size ha hsize =>
          have := (hall none ((hadmits none).mpr ha)).1.size rfl
          rw [hs.view_eq] at this
          exact hsize this
      | @links fit ha hlinks =>
          have := (hall fit ((hadmits fit).mpr ha)).2
          rw [hs.view_eq] at this
          exact hlinks this

end Link

theorem noneAdded_refl : s.NoneAdded s := fun _ _ _ => ⟨rfl, fun _ _ => rfl, rfl⟩

theorem resolve_lt (hs : g.Rep s t) {path : List Component} {final : Bool}
    {r : ResolutionResult} (hr : s.resolve path final = some r) :
    r.targetInodeIndex < g.inodes := by
  obtain ⟨d, hd⟩ := Outcome.value?_eq_some.mp (resolve_reads hr)
  rw [hs.2] at hd
  have hspec := @wpr_readInode g t.toView r.targetInodeIndex
    (fun _ _ => r.targetInodeIndex < g.inodes) (fun _ _ => True) id fun _ => trivial
  obtain ⟨_, -, hlt⟩ := hspec.of_ok hs.1 hd
  exact hlt

end Geom

/-- Created and linked names can be found again exactly when, unless the call is refused,
the name has at most 64 bytes, the region does not leave exactly eight bytes that the walk
stumbles over, and neither the size of the parent nor the number of links overflows. -/
theorem names_found_iff {g : Geom} {s : FFS} {t : St} (hs : g.Rep s t) (h : g.Intact false t)
    {p : Nat} {name : Str} (hp : s.view.ibit p = true)
    (hdir : (s.view.ino p).fileType = .directory) (hfind : s.findEntry p name = some none)
    (now : UInt64) :
    (∀ path parent r fileType, fileType ≠ .unknown → Path.split path = some (parent, name) →
      s.resolve parent true = some r → r.targetInodeIndex = p →
      (s.Enters p name Prod.snd (create path fileType now s) ↔ s.CreateSound p name fileType)) ∧
    (∀ fileType, fileType ≠ .unknown →
      (s.Enters p name Prod.snd (createChild fileType name p now s) ↔
        s.CreateSound p name fileType)) ∧
    (∀ src a dst parent r, s.resolve (Path.components src) true = some a →
      Path.split dst = some (parent, name) → s.resolve parent true = some r →
      r.targetInodeIndex = p →
      (s.Enters p name (fun _ => a.targetInodeIndex) (createHardlink src dst now s) ↔
        (a.targetInode.fileType = .file → s.LinkSound p name a.targetInodeIndex))) ∧
    ∀ i dst parent, s.view.ibit i = true → Path.split dst = some (parent, name) →
      (s.Enters p name (fun _ => i)
          (createChildHardlink (s.view.ino i) i dst (s.view.ino p) p now s) ↔
        s.LinkSound p name i) := by
  have hview := hs.view_eq
  rw [hview] at hp hdir
  refine ⟨?_, ?_, ?_, ?_⟩
  · intro path parent r ft hft hsplit hr heq
    subst heq
    rw [Geom.create_eq hsplit hr hft, Geom.resolve_inode hs hr]
    exact Geom.createIn_enters_iff hs h hp hdir hfind hft
  · intro ft hft
    have hread : (s.format.inodeHandler.readInode p s.device).value? = some (t.ino p) := by
      obtain ⟨d, hd, -⟩ := Geom.runs_readInode (h.lt hp) s.device hs.1
      rw [hs.2]
      show ((g.inodeHandler.readInode p) s.device).value? = _
      rw [hd]
      rfl
    rw [Geom.createChild_eq (hs.isAllocated hp (h.lt hp)) hread hdir]
    exact Geom.createIn_enters_iff hs h hp hdir hfind hft
  · intro src a dst parent r ha hsplit hr heq
    subst heq
    by_cases hfile : a.targetInode.fileType = .file
    · rw [Geom.createHardlink_eq ha hfile hsplit hr, Geom.resolve_inode hs ha,
        Geom.resolve_inode hs hr]
      refine (Geom.linkIn_enters_iff hs h (Geom.resolve_lt hs ha) hp hdir hfind).trans ?_
      exact ⟨fun hk _ => hk, fun hk => hk (Geom.resolve_inode hs ha ▸ hfile)⟩
    · have hrun : createHardlink src dst now s = .err (.notAFile src) s := by
        refine (Prog.bind_of_ok (Geom.onDevice_of_value (readOnly_resolve _ _ _ _ _) ha) _).trans ?_
        rw [if_pos hfile]
        rfl
      rw [hrun]
      exact iff_of_true Geom.noneAdded_refl fun hf => absurd hf hfile
  · intro i dst parent hi hsplit
    rw [hview] at hi ⊢
    have hrun : createChildHardlink (t.ino i) i dst (t.ino p) p now s =
        linkIn (t.ino i) i dst name (t.ino p) p now s := by
      unfold createChildHardlink
      rw [hsplit]
      rfl
    rw [hrun]
    exact Geom.linkIn_enters_iff hs h (h.lt hi) hp hdir hfind

/-- What there is to decide about a state, before `name` is entered in its root. -/
structure FFS.RootLacks (s : FFS) (name : Str) : Prop where
  live : s.view.ibit 0 = true
  dir : (s.view.ino 0).fileType = .directory
  typed : s.TypedRecords
  resolve : (s.resolve [.rootDir] true).any (fun r => r.targetInodeIndex == 0) = true
  absent : (s.findEntry 0 name).any Option.isNone = true

instance {s : FFS} {name : Str} : Decidable (s.RootLacks name) :=
  decidable_of_iff (_ ∧ _ ∧ _ ∧ _ ∧ _)
    ⟨fun h => ⟨h.1, h.2.1, h.2.2.1, h.2.2.2.1, h.2.2.2.2⟩,
      fun h => ⟨h.live, h.dir, h.typed, h.resolve, h.absent⟩⟩

theorem FFS.RootLacks.findEntry {s : FFS} {name : Str} (h : s.RootLacks name) :
    s.findEntry 0 name = some none := by
  obtain ⟨found, hfound, hnone⟩ := (Option.any_eq_true _ _).mp h.absent
  rw [hfound, Option.isNone_iff_eq_none.mp hnone]

/-- The region that `can_fit` finds in the root leaves more than eight bytes. -/
def FFS.roomy (s : FFS) (entry : DirEntry) : Bool :=
  (s.canFit 0 entry).any fun fit => fit.any fun x =>
    (DirEntry.ofBytes (s.view.data x.1) x.2).recordLen != entry.recordLen + DirEntry.minFreeSize

theorem FFS.createSound_of_roomy {s : FFS} {name : Str} {fileType : FileType}
    (h : s.roomy (newEntry fileType name) = true) (hlen : name.length ≤ DirEntry.MAX_NAME) :
    s.CreateSound 0 name fileType := by
  intro fit ha
  rw [FFS.roomy, ha.room, Option.any_some] at h
  obtain ⟨x, rfl, hx⟩ := (Option.any_eq_true _ _).mp h
  refine ⟨hlen, fun b off heq hgap => ?_, nofun⟩
  cases heq
  simp [hgap] at hx

/-- The first file of a new filesystem. -/
theorem names_found_first : ∃ (g : Geom) (s : FFS) (t : St), g.Rep s t ∧ g.Intact false t ∧
    t.UniqueNames ∧ (create [47, 97] .file 0 s).value?.isSome = true ∧
    s.Enters 0 [97] Prod.snd (create [47, 97] .file 0 s) := by
  have hfacts : (start 0 (MemoryDevice.empty 14)).any (fun s => decide (s.RootLacks [97] ∧
      s.roomy (newEntry .file [97]) = true ∧
      (create [47, 97] .file 0 s).value?.isSome = true)) = true := by
    decide +kernel
  obtain ⟨s, hstart, hfacts⟩ := (Option.any_eq_true _ _).mp hfacts
  obtain ⟨hlacks, hroomy, hok⟩ := decide_eq_true_eq.mp hfacts
  obtain ⟨r, hr, hroot⟩ := (Option.any_eq_true _ _).mp hlacks.resolve
  obtain ⟨g, t, -, hs, hinit⟩ := Geom.start_initial hstart
  have h : g.Intact false t := hinit.inv.toIntact
  have hunique : t.UniqueNames := by
    rw [← hs.view_eq]
    exact hlacks.typed.uniqueNames (h.bounded hs)
  refine ⟨g, s, t, hs, h, hunique, hok, ?_⟩
  exact ((names_found_iff hs h hlacks.live hlacks.dir hlacks.findEntry 0).1 [47, 97] [.rootDir] r
    .file (by decide) (by decide) hr (beq_iff_eq.mp hroot)).mpr
      (FFS.createSound_of_roomy hroomy (by decide))

/-- Sixty-five letters are entered as sixty-four, and not found again. -/
theorem names_cut : ∃ (g : Geom) (s : FFS) (t : St) (path name : Str) (r : ResolutionResult),
    g.Rep s t ∧ g.Intact false t ∧ t.UniqueNames ∧ Path.split path = some ([.rootDir], name) ∧
    s.resolve [.rootDir] true = some r ∧ r.targetInodeIndex = 0 ∧ s.view.ibit 0 = true ∧
    (s.view.ino 0).fileType = .directory ∧ s.findEntry 0 name = some none ∧
    ¬ s.Enters 0 name Prod.snd (create path .file 0 s) := by
  have hfacts : (start 0 (MemoryDevice.empty 14)).any (fun s =>
      decide (s.RootLacks (List.replicate 65 97)) &&
        (create (47 :: List.replicate 65 97) .file 0 s).passes fun _ s' =>
          (s'.findEntry 0 (List.replicate 65 97)).any Option.isNone) = true := by
    decide +kernel
  obtain ⟨s, hstart, hfacts⟩ := (Option.any_eq_true _ _).mp hfacts
  simp only [Bool.and_eq_true, decide_eq_true_eq] at hfacts
  obtain ⟨hlacks, hfacts⟩ := hfacts
  obtain ⟨r, hr, hroot⟩ := (Option.any_eq_true _ _).mp hlacks.resolve
  obtain ⟨g, t, -, hs, hinit⟩ := Geom.start_initial hstart
  have h : g.Intact false t := hinit.inv.toIntact
  have hunique : t.UniqueNames := by
    rw [← hs.view_eq]
    exact hlacks.typed.uniqueNames (h.bounded hs)
  refine ⟨g, s, t, 47 :: List.replicate 65 97, List.replicate 65 97, r, hs, h, hunique,
    by decide, hr, beq_iff_eq.mp hroot, hlacks.live, hlacks.dir, hlacks.findEntry, ?_⟩
  intro henters
  obtain ⟨a, s', hrun, hlost⟩ := Outcome.passes_iff.mp hfacts
  rw [hrun] at henters
  obtain ⟨e, b, off, hfound, -⟩ := henters.found
  rw [hfound] at hlost
  cases hlost

end FerrisFS
