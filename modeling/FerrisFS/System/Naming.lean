import FerrisFS.Fuse.Lookup
import FerrisFS.System.Isolation
import FerrisFS.V1.Deletion
import FerrisFS.V1.Siblings

/-!
# Names of a directory

The collision check of a creation compares a padded array of 64 bytes with the names of the
records, so that it does not see shorter names. They stay unique as long as callers look first.
Longer names are cut to 64 bytes and refused if they are taken.
-/

namespace FerrisFS

open Lib DirectoryHandler FormatV1

/-- A record of the inode `p` carries what is stored of `name`. -/
def FFS.Carries (s : FFS) (p : Nat) (name : Str) : Prop :=
  ∃ k x, s.view.Rec p k x ∧ x.label = name.take DirEntry.MAX_NAME

/-- A name that does not fill its array is entered only if no record carries it. -/
structure Op.Fresh (s : FFS) (op : Op) : Prop where
  create : ∀ p ft name now, Creates s op p ft name now → s.Carries p name →
    DirEntry.MAX_NAME ≤ name.length
  link : ∀ i p name now, Links s op i p name now → s.Carries p name →
    DirEntry.MAX_NAME ≤ name.length

/-! ## Records that come in -/

namespace View

variable {t t' : View}

/-- No directory has two records of one name. -/
structure Distinct (t : View) : Prop where
  unique : t.UniqueNames

/-- Records may go, and others come in that differ from those of before. -/
theorem Distinct.of_recs {N : Nat → Nat × Nat → DirEntry → Prop} (hu : t.Distinct)
    (hrec : ∀ {d k e}, t'.Rec d k e → t.Rec d k e ∨ N d k e)
    (hnew : ∀ {d k k' e e'}, N d k e → N d k' e' → e.label = e'.label → k = k')
    (hold : ∀ {d k k' e e'}, t.Rec d k e → N d k' e' → e.label ≠ e'.label) : t'.Distinct := by
  refine ⟨?_⟩
  intro d k k' e e' hr hr' heq
  rcases hrec hr with h | h
  · rcases hrec hr' with h' | h'
    · exact hu.unique h h' heq
    · exact absurd heq (hold h h')
  · rcases hrec hr' with h' | h'
    · exact absurd heq.symm (hold h' h)
    · exact hnew h h' heq

theorem Distinct.of_sub (hu : t.Distinct)
    (hrec : ∀ {d k e}, t'.Rec d k e → t.Rec d k e) : t'.Distinct where
  unique hr hr' heq := hu.unique (hrec hr) (hrec hr') heq

/-- The place and the name of `.` or of `..`, in a new directory of the block `b`. -/
def IsDot (b : Nat) (k : Nat × Nat) (e : DirEntry) : Prop :=
  k = (b, 0) ∧ e.label = [dot] ∨ k = (b, 12) ∧ e.label = [dot, dot]

theorem IsDot.unique {b : Nat} {k k' : Nat × Nat} {e e' : DirEntry} (h : IsDot b k e)
    (h' : IsDot b k' e') (heq : e.label = e'.label) : k = k' := by
  rcases h with ⟨rfl, hl⟩ | ⟨rfl, hl⟩
  · rcases h' with ⟨rfl, hl'⟩ | ⟨rfl, hl'⟩
    · rfl
    · simp [hl, hl'] at heq
  · rcases h' with ⟨rfl, hl'⟩ | ⟨rfl, hl'⟩
    · simp [hl, hl'] at heq
    · rfl

theorem Rec.isDot {d i p b : Nat} {k : Nat × Nat} {e : DirEntry} (hr : t.Rec d k e)
    (hi : i < INVALID_ADDRESS) (hp : p < INVALID_ADDRESS) (hcontent : ∀ c ∈ t.content d, c = b)
    (hdata : t.data b = Block.newDir i p) : IsDot b k e := by
  have hk := hcontent k.1 hr.block
  have hs := hr.slot
  rw [hk, hdata, Block.newDir_slots hi hp] at hs
  simp only [List.mem_cons, Prod.mk.injEq, Slot.live.injEq, reduceCtorEq, and_false,
    List.not_mem_nil, or_false] at hs
  rcases hs with ⟨hk2, rfl⟩ | ⟨hk2, rfl⟩
  · exact .inl ⟨Prod.ext hk hk2, rfl⟩
  · exact .inr ⟨Prod.ext hk hk2, rfl⟩

end View

namespace Geom

variable {g : Geom} {gaps : Bool} {s s' : FFS} {t t' : St} {op : Op} {p i : Nat} {name : Str}
  {ft : FileType} {now : UInt64} {fit : Option (Nat × Nat)} {ds : List Nat} {n' : INode}
  {data' : Region}

/-- A name that passes the collision check is new if it fills the array, or if no record
carries it. -/
theorem ne_label_new (hchecked : Checked t p name)
    (hfresh : (∃ k x, t.Rec p k x ∧ x.label = name.take DirEntry.MAX_NAME) →
      DirEntry.MAX_NAME ≤ name.length)
    {k : Nat × Nat} {x : DirEntry} (hr : t.Rec p k x) :
    x.label ≠ (DirEntry.new i ft name).label := by
  rw [DirEntry.label_new]
  intro heq
  have hlen := hfresh ⟨k, x, hr, heq⟩
  have hpad : DirEntry.padName name = name.take DirEntry.MAX_NAME := by
    rw [DirEntry.padName, Nat.sub_eq_zero_of_le hlen, List.replicate_zero, List.append_nil]
  exact hchecked k x hr (heq.trans hpad.symm)

theorem distinct_created (h : g.Intact gaps t) (hu : t.Distinct) (hp : t.ibit p = true)
    (hc : g.Created t p ft name now fit i ds n' data' t')
    (hroom : Entered.Roomy gaps t.data (newEntry ft name) fit)
    (hfresh : ∀ {k x}, t.Rec p k x → x.label ≠ (DirEntry.new i ft name).label) :
    t'.Distinct := by
  have hdead : ∀ {k e}, ¬ t.Rec i k e := by
    intro k e hr
    have hlive := hr.live
    rw [hc.dead h] at hlive
    cases hlive
  have hip : i ≠ p := (hc.ne_of_live h hp).symm
  -- the record in the parent, and those of a new directory, whose inode had none
  refine hu.of_recs (N := fun d k e =>
    (d = p ∧ k = Entered.place fit (ds.drop (fileBlocks ft)) ∧ e = DirEntry.new i ft name) ∨
    (d = i ∧ View.IsDot (ds.headD 0) k e)) ?_ ?_ ?_
  · intro d k e hr
    rcases hc.rec_cases h hp hroom hr with ⟨hr, -⟩ | hnew | ⟨rfl, -, ⟨hk, rfl⟩ | ⟨hk, rfl⟩⟩
    · exact .inl hr
    · exact .inr (.inl hnew)
    · exact .inr (.inr ⟨rfl, .inl ⟨hk, rfl⟩⟩)
    · exact .inr (.inr ⟨rfl, .inr ⟨hk, rfl⟩⟩)
  · rintro d k k' e e' (⟨rfl, rfl, rfl⟩ | ⟨rfl, hk⟩) (⟨hd, rfl, rfl⟩ | ⟨hd, hk'⟩) heq
    · rfl
    · exact absurd hd.symm hip
    · exact absurd hd hip
    · exact hk.unique hk' heq
  · rintro d k k' e e' hr (⟨rfl, -, rfl⟩ | ⟨rfl, -⟩)
    · exact hfresh hr
    · exact absurd hr hdead

theorem distinct_orphaned (h : g.Intact gaps t) (hu : t.Distinct) (hp : t.ibit p = true)
    (ho : g.Orphaned t p ft now i ds t') : t'.Distinct := by
  refine hu.of_recs (N := fun d k e => d = i ∧ View.IsDot (ds.headD 0) k e) ?_ ?_ ?_
  · intro d k e hr
    rcases ho.rec_cases h hp hr with hold | ⟨rfl, -⟩
    · exact .inl hold
    · have hft : ft = .directory := by
        have hdir := hr.dir
        rwa [ho.ino_new, firstNode_fileType] at hdir
      have hcontent : ∀ c ∈ t'.content d, c = ds.headD 0 := by
        intro c hc
        rw [View.content, ho.ino_new, firstNode_content, hft] at hc
        simpa [fileBlocks] using hc
      have hdata := ho.content_new hft hr.block
      rw [hcontent _ hr.block] at hdata
      exact .inr ⟨rfl, hr.isDot (inode_small (ho.inode.lt d (by simp)))
        (inode_small (h.lt hp)) hcontent hdata⟩
  · rintro d k k' e e' ⟨rfl, hk⟩ ⟨-, hk'⟩ heq
    exact hk.unique hk' heq
  · rintro d k k' e e' hr ⟨rfl, -⟩
    have hlive := hr.live
    rw [ho.dead] at hlive
    cases hlive

theorem distinct_linked (h : g.Intact gaps t) (hu : t.Distinct) (hi : t.ibit i = true)
    (hp : t.ibit p = true) (hk : g.Linked t i p name now fit ds n' data' t')
    (hroom : Entered.Roomy gaps t.data (DirEntry.new i .file name) fit)
    (hfresh : ∀ {k x}, t.Rec p k x → x.label ≠ (DirEntry.new i .file name).label) :
    t'.Distinct := by
  refine hu.of_recs (N := fun d k e => d = p ∧ k = Entered.place fit ds ∧
    e = DirEntry.new i .file name) ?_ ?_ ?_
  · intro d k e hr
    rcases hk.rec_cases h hi hp hroom hr with ⟨hr, -⟩ | ⟨hd, -, hnew⟩
    · exact .inl hr
    · exact .inr ⟨hd, hnew⟩
  · rintro d k k' e e' ⟨-, rfl, -⟩ ⟨-, rfl, -⟩ -
    rfl
  · rintro d k k' e e' hr ⟨rfl, -, rfl⟩
    exact hfresh hr

/-- A call on names keeps names unique. -/
theorem distinct_of_effect (hs : g.Rep s t) (h : g.Inv gaps t) (hu : t.Distinct)
    (hnames : op.Names) (hfresh : op.Fresh s) (hroom : op.Roomy gaps s)
    (he : Effect g gaps s t op t') : t'.Distinct := by
  have hcarries : ∀ {p name}, (∃ k x, t.Rec p k x ∧ x.label = name.take DirEntry.MAX_NAME) →
      s.Carries p name := by
    intro p name h
    rwa [FFS.Carries, hs.view_eq]
  have hnew : ∀ {p ft name now i}, Creates s op p ft name now → Checked t p name →
      ∀ {k x}, t.Rec p k x → x.label ≠ (DirEntry.new i ft name).label := by
    intro p ft name now i hc hchecked k x hr
    exact ne_label_new hchecked (fun h => hfresh.create p ft name now hc (hcarries h)) hr
  cases he with
  | same => exact hu
  | created hc hp hd hdd hfit hcr =>
      exact distinct_created h.toIntact hu hp hcr (hs.roomy hroom (.create hc) hfit)
        (hnew hc hcr.checked)
  | symlinked hc hp hd hdd hfit hcr hlen =>
      have hroom' := hs.roomy hroom (.create hc) hfit
      have hinv := hcr.inv h hp hd hdd hroom'
      have hnode := hcr.ino_new h.toIntact hp
      have hlive := hcr.ibit_iff.mpr (.inr rfl)
      refine (distinct_created h.toIntact hu hp hcr hroom' (hnew hc hcr.checked)).of_sub ?_
      -- the target goes to a block of the link, no directory's
      intro d k e hr
      exact ((leaf_withTarget hinv hlive (by rw [hnode, firstNode_fileType]; decide)
        (hcr.direct_mem h hp) hlen).rec_iff hinv.toIntact).mp hr
  | full hr hf => cases hf <;> exact hu
  | orphaned hc hp hfit hmax ha ho => exact distinct_orphaned h.toIntact hu hp ho
  | linked hl hi hp hfile hd hdd hfit hk =>
      exact distinct_linked h.toIntact hu hi hp hk (hs.roomy hroom (.link hl) hfit)
        (ne_label_new hk.checked fun h => hfresh.link _ _ _ _ hl (hcarries h))
  | wasted hl hfit hmax ha =>
      refine hu.of_sub fun hr => ⟨?_, hr.dir, hr.block, hr.slot⟩
      have hlive := hr.live
      rwa [St.taken, setBits_nil] at hlive
  | unlinked hdel hu' =>
      exact hu.of_sub fun hr => ((hu'.cut.rec_iff h.toIntact hr.live).mp hr).1
  | removed hdel hu' =>
      exact hu.of_sub fun hr => ((hu'.cut.rec_iff h.toIntact hr.live).mp hr).1
  | opened ho =>
      subst ho
      exact hnames.elim
  | closed ho =>
      subst ho
      exact hnames.elim
  | moved ho =>
      rcases ho with ⟨pos, rfl⟩ | ⟨len, rfl⟩
      · exact hnames.elim
      · exact hnames.elim
  | wrote ho =>
      subst ho
      exact hnames.elim
  | writeFailed ho =>
      subst ho
      exact hnames.elim
  | truncated ho =>
      subst ho
      exact hnames.elim

theorem Initial.distinct (h : g.Initial now t) : t.Distinct := by
  refine ⟨?_⟩
  intro d k k' e e' hr hr' heq
  obtain ⟨rfl, -⟩ := h.rec_cases hr
  have hcontent : ∀ c ∈ t.content 0, c = 0 := by
    intro c hc
    rw [h.content] at hc
    exact List.mem_singleton.mp hc
  exact (hr.isDot (by decide) (by decide) hcontent h.data).unique
    (hr'.isDot (by decide) (by decide) hcontent h.data) heq

end Geom

/-! ## Names that are taken -/

/-- `op` enters `name` in the inode `p`, unless it fails. -/
inductive Op.EntersName (s : FFS) (op : Op) (p : Nat) (name : Str) : Prop where
  | create {ft : FileType} {now : UInt64} (h : Creates s op p ft name now)
  | link {i : Nat} {now : UInt64} (h : Links s op i p name now)

/-- The call is refused because the name exists, and has changed nothing. -/
def FFS.Refuses (s : FFS) (op : Op) : Prop :=
  ∃ path, op.exec s = .err (.alreadyExists path) s

namespace Geom

variable {g : Geom} {gaps : Bool} {s : FFS} {t : St} {op : Op} {p i : Nat} {name : Str}
  {ft : FileType} {now : UInt64} {found : DirEntry × Nat × Nat}

/-- The collision check, where it returns, finds a name that fills its array. -/
theorem findEntry_carried (hs : g.Rep s t) (h : g.Intact gaps t)
    (hlen : DirEntry.MAX_NAME ≤ name.length) (hcarries : s.Carries p name)
    (hfind : s.findEntry p (DirEntry.padName name) ≠ none) :
    ∃ found, s.findEntry p (DirEntry.padName name) = some (some found) := by
  obtain ⟨k, x, hr, hlabel⟩ := hcarries
  rw [hs.view_eq] at hr
  obtain ⟨res, hres⟩ := Option.ne_none_iff_exists'.mp hfind
  cases res with
  | some found => exact ⟨found, hres⟩
  | none =>
      rw [FFS.findEntry, hs.view_eq, hs.2] at hres
      obtain ⟨d', hd'⟩ := Outcome.value?_eq_some.mp hres
      obtain ⟨v', -, -, ⟨b, -, off, e, -, -, hsome⟩ | ⟨hall, -⟩⟩ :=
        (wpr_findEntry (h.mapped hr.live)).of_ok hs.1 hd'
      · cases hsome
      -- all blocks have been read, and so the record has been seen
      obtain ⟨-, -, hb, hmem, hfree⟩ := View.rec_iff_read.mp hr
      obtain ⟨c, hc, heq⟩ := h.chunk_of_rec hr
      refine absurd ⟨hfree, ?_, ?_⟩ ((hall k.1 hb).2 _ hmem)
      · rw [← heq]
        exact hc.name_le
      · rw [DirEntry.padName, Nat.sub_eq_zero_of_le hlen, List.replicate_zero, List.append_nil]
        exact hlabel

theorem createIn_refused {onExists : DirEntry → FSError}
    (hfound : s.findEntry p (DirEntry.padName name) = some (some found)) :
    createIn p (s.view.ino p) ft name onExists now s = .err (onExists found.1) s :=
  (Prog.bind_of_ok (onDevice_of_value (readOnly_findEntry _ _ _ _) hfound) _).trans rfl

theorem linkIn_refused {n : INode} {dst : Str}
    (hfound : s.findEntry p (DirEntry.padName name) = some (some found)) :
    linkIn n i dst name (s.view.ino p) p now s = .err (.alreadyExists dst) s :=
  (Prog.bind_of_ok (onDevice_of_value (readOnly_findEntry _ _ _ _) hfound) _).trans rfl

theorem create_refused (hs : g.Rep s t) {path : Str} {parent : List Component}
    {r : ResolutionResult} (hsplit : Path.split path = some (parent, name))
    (hr : s.resolve parent true = some r) (hft : ft ≠ .unknown)
    (hfound : s.findEntry r.targetInodeIndex (DirEntry.padName name) = some (some found)) :
    FormatV1.create path ft now s = .err (.alreadyExists path) s := by
  rw [create_eq hsplit hr hft, resolve_inode hs hr, ← hs.view_eq]
  exact createIn_refused hfound

/-- Whoever creates a name that the check finds is refused. -/
theorem refuses_create (hs : g.Rep s t) (h : g.Inv gaps t) (hsane : op.Sane s)
    (hdir : (s.view.ino p).fileType = .directory)
    (hfound : s.findEntry p (DirEntry.padName name) = some (some found))
    (hc : Creates s op p ft name now) : s.Refuses op := by
  cases hc with
  | file hsplit hr =>
      exact ⟨_, Prog.bind_of_err (create_refused hs hsplit hr (by decide) hfound) _⟩
  | directory hsplit hr =>
      exact ⟨_, Prog.bind_of_err (create_refused hs hsplit hr (by decide) hfound) _⟩
  | symlink hsplit hr =>
      exact ⟨_, Prog.bind_of_err (create_refused hs hsplit hr (by decide) hfound) _⟩
  | child =>
      have hp : t.ibit p = true := by
        rw [← hs.view_eq]
        exact hsane.1
      rw [hs.view_eq] at hdir
      have hcreate : createChild ft name p now s =
          .err (.alreadyExists (natStr found.1.inode)) s := by
        rw [createChild_eq (hs.isAllocated hp (h.lt hp)) (hs.readInode (h.lt hp)) hdir,
          ← hs.view_eq]
        exact createIn_refused hfound
      exact ⟨_, Prog.bind_of_err hcreate _⟩

theorem refuses_link (hs : g.Rep s t) (h : g.Inv gaps t) (hsane : op.Sane s)
    (hfound : s.findEntry p (DirEntry.padName name) = some (some found))
    (hl : Links s op i p name now) : s.Refuses op := by
  cases hl with
  | @path src dst parent _ _ a r ha hfile hsplit hr =>
      refine ⟨dst, (createHardlink_eq ha hfile hsplit hr).trans ?_⟩
      rw [resolve_inode hs hr, ← hs.view_eq]
      exact linkIn_refused hfound
  | @child _ dst parent _ _ _ hsplit =>
      obtain ⟨hi, hp, -⟩ := hsane
      rw [hs.view_eq] at hi hp
      refine ⟨dst, (Prog.bind_of_ok (getInode_ok hs h.owning hi) _).trans
        ((Prog.bind_of_ok (getInode_ok hs h.owning hp) _).trans ?_)⟩
      rw [createChildHardlink, hsplit, ← hs.view_eq]
      exact linkIn_refused hfound

end Geom

/-- A call on names, by a caller that looks first. -/
def Op.Looks (s : FFS) (op : Op) : Prop := op.Names ∧ op.Sane s ∧ op.Fresh s

theorem Geom.distinct_of_run {d : MemoryDevice} {now : UInt64} {s₀ s : FFS}
    (hstart : start now d = some s₀) (hrun : Run Op.Looks s₀ s) :
    ∃ (g : Geom) (t : St), g.Rep s t ∧ g.Inv true t ∧ t.Distinct := by
  obtain ⟨g, t₀, -, hs₀, hinit⟩ := Geom.start_initial hstart
  obtain ⟨t, hs, h, hunique⟩ := Geom.run_induct (P := fun t => t.Distinct) hrun hs₀ hinit.inv
    hinit.distinct (fun _ _ hop => ⟨hop.2.1, .inl rfl⟩)
    (fun _ _ op hop _ hhandle => by
      cases op <;> first | exact hhandle.elim | exact hop.1.elim)
    (fun _ _ _ _ hs h hu hop he =>
      Geom.distinct_of_effect hs h hu hop.1 hop.2.2 (.inl rfl) he)
  exact ⟨g, t, hs, h, hunique⟩

/-- In every run of calls on names whose callers look first, no directory has two records of
one name. A call that enters a name that is taken is refused and changes nothing, if the
directory can be searched. -/
theorem names_unique {d : MemoryDevice} {now : UInt64} {s₀ s : FFS}
    (hstart : start now d = some s₀) (hrun : Run Op.Looks s₀ s) :
    s.view.UniqueNames ∧ ∀ op p name, op.Looks s → op.EntersName s p name →
      s.Carries p name → s.findEntry p (DirEntry.padName name) ≠ none → s.Refuses op := by
  obtain ⟨g, t, hs, h, hunique⟩ := Geom.distinct_of_run hstart hrun
  constructor
  · rw [hs.view_eq]
    exact hunique.unique
  · rintro op p name ⟨-, hsane, hfresh⟩ henters hcarries hfind
    have hlen : DirEntry.MAX_NAME ≤ name.length := by
      cases henters with
      | create hc => exact hfresh.create _ _ _ _ hc hcarries
      | link hl => exact hfresh.link _ _ _ _ hl hcarries
    obtain ⟨found, hfound⟩ := Geom.findEntry_carried hs h.toIntact hlen hcarries hfind
    obtain ⟨k, x, hr, -⟩ := hcarries
    cases henters with
    | create hc => exact Geom.refuses_create hs h hsane hr.dir hfound hc
    | link hl => exact Geom.refuses_link hs h hsane hfound hl

/-- 64 letters. -/
def longName : Str := List.replicate DirEntry.MAX_NAME 97

/-- The call creates the file of 64 letters in the root. -/
def Op.NamesLong (s : FFS) (op : Op) : Prop :=
  op.isPublic = true ∧ op.link? s = none ∧ op.creation? s = some (0, .file, longName, 0)

instance {s : FFS} {op : Op} : Decidable (op.NamesLong s) := inferInstanceAs (Decidable (_ ∧ _))

theorem Op.NamesLong.looks {s : FFS} {op : Op} (h : op.NamesLong s) : op.Looks s := by
  obtain ⟨hpublic, hlink, hcreation⟩ := h
  refine ⟨Geom.names_of_creates (creates_iff.mpr hcreation), Op.sane_of_public hpublic, ?_, ?_⟩
  · intro p ft name now hc _
    cases hcreation.symm.trans (creates_iff.mp hc)
    decide
  · intro i p name now hl _
    cases hlink.symm.trans (links_iff.mp hl)

/-- It is entered once: the second call is refused. -/
theorem names_unique_small : ∃ s₀ s op, start 0 (MemoryDevice.empty 14) = some s₀ ∧
    Run Op.Looks s₀ s ∧ @View.UniqueNames s.view ∧ op.Looks s ∧ op.EntersName s 0 longName ∧
    s.Carries 0 longName ∧ s.Refuses op := by
  have hcalls : ((start 0 (MemoryDevice.empty 14)).bind
      (checked (fun s op => op.NamesLong s) [.createFile (47 :: longName) 0])).any (fun s =>
        decide (Op.NamesLong s (.createFile (47 :: longName) 0)) &&
        (s.findEntry 0 (DirEntry.padName longName)).isSome &&
        s.records.any fun x => decide (x.dir = 0 ∧ x.entry.label = longName)) = true := by
    decide +kernel
  obtain ⟨s, hs, hfacts⟩ := (Option.any_eq_true _ _).mp hcalls
  obtain ⟨s₀, hstart, hchecked⟩ := Option.bind_eq_some_iff.mp hs
  simp only [Bool.and_eq_true, decide_eq_true_eq, List.any_eq_true] at hfacts
  obtain ⟨⟨hlong, hfind⟩, x, hx, hdir, hlabel⟩ := hfacts
  have hrun : Run Op.Looks s₀ s := (run_of_checked hchecked).imp fun _ _ hop => hop.looks
  obtain ⟨g, t, hst, h, -⟩ := Geom.distinct_of_run hstart hrun
  have hcarries : s.Carries 0 longName := by
    have hr := (FFS.mem_records (h.toIntact.bounded hst)).mp hx
    rw [hdir] at hr
    exact ⟨_, _, hr, hlabel⟩
  have henters : Op.EntersName s (.createFile (47 :: longName) 0) 0 longName :=
    .create (creates_iff.mpr hlong.2.2)
  obtain ⟨hunique, hrefused⟩ := names_unique hstart hrun
  exact ⟨s₀, s, _, hstart, hrun, @hunique, hlong.looks, henters, hcarries,
    hrefused _ _ _ hlong.looks henters hcarries (Option.isSome_iff_ne_none.mp hfind)⟩

/-- The name `a` is entered twice in the root. -/
theorem name_entered_twice : ∃ s₀ s s', start 0 (MemoryDevice.empty 14) = some s₀ ∧
    createFile [47, 97] 0 s₀ = .ok () s ∧ createFile [47, 97] 0 s = .ok () s' ∧
    ¬ s'.view.UniqueNames := by
  have hcalls : (start 0 (MemoryDevice.empty 14)).any (fun s₀ =>
      (createFile [47, 97] 0 s₀).passes fun _ s =>
        (createFile [47, 97] 0 s).passes fun _ s' => s'.records.any fun x =>
          s'.records.any fun y => decide (x.dir = y.dir ∧ x.entry.label = y.entry.label ∧
            x.place ≠ y.place)) = true := by
    decide +kernel
  obtain ⟨s₀, hstart, hfirst⟩ := (Option.any_eq_true _ _).mp hcalls
  obtain ⟨⟨⟩, s, hfirst, hsecond⟩ := Outcome.passes_iff.mp hfirst
  obtain ⟨⟨⟩, s', hsecond, hfacts⟩ := Outcome.passes_iff.mp hsecond
  obtain ⟨x, hx, hfacts⟩ := List.any_eq_true.mp hfacts
  obtain ⟨y, hy, hfacts⟩ := List.any_eq_true.mp hfacts
  obtain ⟨hdir, hlabel, hplace⟩ := decide_eq_true_eq.mp hfacts
  refine ⟨s₀, s, s', hstart, hfirst, hsecond, ?_⟩
  intro hunique
  have hplain : ∀ s, Op.Plain s (.createFile [47, 97] 0) := fun s => ⟨rfl, fun _ hd => by cases hd⟩
  have hrun : Run Op.Plain s₀ s' := by
    refine .snoc (.snoc .nil (hplain s₀) ?_) (hplain s) ?_
    · rw [Step, Op.exec, hfirst]
      rfl
    · rw [Step, Op.exec, hsecond]
      rfl
  obtain ⟨g, t₀, -, hs₀, hinit⟩ := Geom.start_initial hstart
  obtain ⟨t, hs, ht⟩ := Geom.upright_of_session hrun.session hs₀ (.of_initial hinit)
  have hb : s'.Bounded := ht.toIntact.bounded hs
  have hrx := (FFS.mem_records hb).mp hx
  have hry := (FFS.mem_records hb).mp hy
  rw [← hdir] at hry
  exact hplace (hunique hrx hry hlabel)

end FerrisFS
