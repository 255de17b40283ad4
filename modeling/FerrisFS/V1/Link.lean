import FerrisFS.V1.Create

/-!
# Hard links and symlink targets

`create_hardlink` from the name collision check on, and the second half of
`create_symlink`. The parent and the linked file may be one inode; then the link
count that was raised is overwritten with the old one.
-/

namespace FerrisFS

open Lib DirectoryHandler INodeTableHandler FormatV1

/-- What `create_hardlink` does once it has what it asked the allocator for. -/
def linkRest (f : FormatV1) (node : INode) (i : Nat) (name : Str) (parent : INode) (p : Nat)
    (now : UInt64) (fit : Option (Nat × Nat)) (taken : List Nat × List Nat) : FsM Unit := do
  let parent ← writeEntry parent (DirEntry.new i .file name) fit taken.2
  let links ← Prog.checkedAdd U16 node.links 1
  onDevice (f.inodeHandler.writeInode i { node with links := links })
  onDevice (f.inodeHandler.writeInode p { parent with modified := now.toNat })

namespace Geom

/-- `create_hardlink` succeeds. -/
structure Linked (g : Geom) (t : St) (i p : Nat) (name : Str) (now : UInt64)
    (fit : Option (Nat × Nat)) (ds : List Nat) (n' : INode) (data' : Region) (t' : St) :
    Prop where
  checked : Checked t p name
  fitOf : FitOf t.data (t.content p) (DirEntry.new i .file name) fit
  alloc : g.Allocated t 0 (Needs (t.ino p) fit) [] ds (t.taken [] ds)
  entered : Entered t.data (t.ino p) (DirEntry.new i .file name) fit ds data' n'
  inRange : n'.InRange
  links_lt : (t.ino i).links + 1 < U16
  state : t' =
    { t.taken [] ds with
      ino := Function.update
        (Function.update t.ino i { t.ino i with links := (t.ino i).links + 1 }) p
        { n' with modified := now.toNat }
      data := data' }

/-- `create_hardlink` fails: at once, in `allocate`, or because the parent cannot
grow any more. -/
inductive LinkFailed (g : Geom) (t : St) (i p : Nat) (name : Str) : St → Prop where
  | unchanged (h : Refused t p name) : LinkFailed g t i p name t
  | full {fit : Option (Nat × Nat)} {t' : St}
      (hfit : FitOf t.data (t.content p) (DirEntry.new i .file name) fit)
      (h : g.AllocFailed t 0 (Needs (t.ino p) fit) t') : LinkFailed g t i p name t'
  | stuck {ds : List Nat} (hmax : (t.ino p).blocks ≥ INode.MAX_BLOCKS)
      (hfit : FitOf t.data (t.content p) (DirEntry.new i .file name) none)
      (h : g.Allocated t 0 (Needs (t.ino p) none) [] ds (t.taken [] ds)) :
      LinkFailed g t i p name (t.taken [] ds)

/-- When `create_hardlink` may panic: the parent cannot be walked, or its size or the
number of links overflows. -/
inductive LinkPanics (g : Geom) (t : St) (i p : Nat) (name : Str) : Prop where
  | walk (h : ¬ (t.ino p).Walks t.data)
  | size (h : g.Admits t p name (DirEntry.new i .file name) 0 0 none)
      (hsize : ¬ (t.ino p).size + BLOCK_SIZE < U64)
  | links {fit : Option (Nat × Nat)} (h : g.Admits t p name (DirEntry.new i .file name) 0 0 fit)
      (hlinks : ¬ (t.ino i).links + 1 < U16)

variable {g : Geom} {gaps : Bool} {t t' : St} {i p : Nat} {name : Str} {now : UInt64}

/-- What is left of `create_hardlink` once it has what it asked the allocator for: only a
parent that cannot grow any more is in the way. -/
theorem wpa_linkRest (h : g.Intact gaps t) (hi : i < g.inodes) (hp : t.ibit p = true)
    {fit : Option (Nat × Nat)} {ds : List Nat}
    (hfit : FitOf t.data (t.content p) (DirEntry.new i .file name) fit)
    (halloc : g.Allocated t 0 (Needs (t.ino p) fit) [] ds (t.taken [] ds)) :
    Prog.wpa g.Rep (linkRest (g.format t) (t.ino i) i name (t.ino p) p now fit ([], ds))
      (fun _ t' => ∃ n' data',
        Entered t.data (t.ino p) (DirEntry.new i .file name) fit ds data' n' ∧ n'.InRange ∧
        (t.ino i).links + 1 < U16 ∧ t' = { t.taken [] ds with
          ino := Function.update
            (Function.update t.ino i { t.ino i with links := (t.ino i).links + 1 }) p
            { n' with modified := now.toNat }
          data := data' })
      (fun _ t' => fit = none ∧ (t.ino p).blocks ≥ INode.MAX_BLOCKS ∧ t' = t.taken [] ds)
      (fit = none ∧ (t.ino p).blocks < INode.MAX_BLOCKS ∧ ¬ (t.ino p).size + BLOCK_SIZE < U64 ∨
        (fit = none → (t.ino p).blocks < INode.MAX_BLOCKS) ∧ ¬ (t.ino i).links + 1 < U16)
      (t.taken [] ds) := by
  have hm := h.mapped hp
  have hfd : g.FreshData t ds := halloc.data_eq ▸ fresh_pickData
  have hnd : ((t.ino p).pointers t.data ++ ds).Nodup := by
    refine List.nodup_append.mpr
      ⟨(List.nodup_append.mp (h.owning.owns.nodup p hp)).2.1, hfd.nodup, ?_⟩
    rintro b hb b' hb' rfl
    exact h.fresh_not_owned hp (hfd.clear b hb') (List.mem_append_right _ hb)
  have hentry := wpa_writeEntry (t := t.taken [] ds) hm (h.inRange p)
    (valid_newEntry hi) hfit halloc.data_length hnd hfd.lt
  refine Prog.wpa_seq (Prog.wpa_mono hentry (fun _ _ hq => hq) (fun _ _ he => he) .inl) ?_ ?_
  · rintro n' _ ⟨data', rfl, hent, hr⟩
    refine Prog.wpa_checkedAdd (fun hlinks => ?_) fun hlinks => .inr ⟨hent.growable, hlinks⟩
    have hri : ({ t.ino i with links := (t.ino i).links + 1 } : INode).InRange :=
      { h.inRange i with links := hlinks }
    have hrp : ({ n' with modified := now.toNat } : INode).InRange :=
      { hr with modified := now.toNat_lt }
    refine (runs_onDevice (runs_writeInode hi hri)).andThen ?_
    refine (runs_onDevice (runs_writeInode (h.lt hp) hrp)).wpa ?_
    exact ⟨n', data', hent, hr, hlinks, rfl⟩
  · rintro e _ ⟨rfl, hfit, hmax⟩
    exact ⟨hfit, hmax, rfl⟩

theorem wpa_linkIn (h : g.Intact gaps t) (hi : i < g.inodes) (hp : t.ibit p = true) {dst : Str} :
    Prog.wpa g.Rep (linkIn (t.ino i) i dst name (t.ino p) p now)
      (fun _ t' => ∃ fit ds n' data', g.Linked t i p name now fit ds n' data' t')
      (fun _ t' => g.LinkFailed t i p name t') (LinkPanics g t i p name) t := by
  have hm := h.mapped hp
  refine runs_getFormat.andThen ?_
  refine wpa_read (Prog.wpa_mono (wpa_findEntry hm (wpr_collision h hp)) (fun _ _ hq => hq)
    (fun _ _ he => he) .walk) ?_ fun hw _ => .unchanged fun _ hw' => absurd hw' hw
  intro existing hexisting
  refine Prog.wpa_guard (fun hsome => .unchanged fun hdir _ => hexisting.2 ?_ hdir) fun hnone => ?_
  · rintro rfl
    cases hsome
  have hchecked := hexisting.1 (by simpa using hnone)
  refine wpa_read (Prog.wpa_mono
    (wpa_canFit (DirEntry.new_comparable _ _ _) hm (wpr_canFit hm)) (fun _ _ hq => hq)
    (fun _ _ he => he) .walk) ?_ fun hw _ => .unchanged fun _ hw' => absurd hw' hw
  intro fit hfit
  have hneed : (if fit.isSome then 0 else 1 + blocksNecessaryToGrow (t.ino p)) =
      Needs (t.ino p) fit := rfl
  dsimp only
  rw [hneed]
  refine Prog.wpa_seq (Prog.wpa_mono (wpa_allocate h.cursors) (fun _ _ hq => hq)
    (fun _ _ he => he) False.elim) ?_ fun e t' he => .full hfit he
  rintro ⟨is, ds⟩ t₁ halloc
  dsimp only at halloc ⊢
  obtain rfl : is = [] := List.length_eq_zero_iff.mp halloc.inodes_length
  obtain rfl := halloc.state
  have hadmits : (fit = none → (t.ino p).blocks < INode.MAX_BLOCKS) →
      g.Admits t p name (DirEntry.new i .file name) 0 0 fit := by
    have halloc' := halloc
    rw [← Nat.zero_add (Needs (t.ino p) fit)] at halloc'
    exact halloc'.admits hchecked hfit
  have hrest := @wpa_linkRest g gaps t i p name now h hi hp fit ds hfit halloc
  refine Prog.wpa_mono hrest ?_ ?_ ?_
  · rintro _ t' ⟨n', data', hent, hr, hlinks, rfl⟩
    exact ⟨fit, ds, n', data', hchecked, hfit, halloc, hent, hr, hlinks, rfl⟩
  · rintro e t' ⟨rfl, hmax, rfl⟩
    exact .stuck hmax hfit halloc
  · rintro (⟨rfl, hmax, hsize⟩ | ⟨hmax, hlinks⟩)
    · exact .size (hadmits fun _ => hmax) hsize
    · exact .links (hadmits hmax) hlinks

theorem wpr_linkIn (h : g.Intact gaps t) (hi : t.ibit i = true) (hp : t.ibit p = true) {dst : Str} :
    Prog.wpr g.Rep (linkIn (t.ino i) i dst name (t.ino p) p now)
      (fun _ t' => ∃ fit ds n' data', g.Linked t i p name now fit ds n' data' t')
      (fun _ t' => g.LinkFailed t i p name t') t :=
  (wpa_linkIn h (h.lt hi) hp).wpr

namespace Linked

variable {fit : Option (Nat × Nat)} {ds : List Nat} {n' : INode} {data' : Region}

theorem freshData (hk : g.Linked t i p name now fit ds n' data' t') : g.FreshData t ds :=
  hk.alloc.data_eq ▸ fresh_pickData

theorem ibit_eq (hk : g.Linked t i p name now fit ds n' data' t') : t'.ibit = t.ibit := by
  rw [hk.state]
  exact setBits_nil t.ibit true

theorem data_eq (hk : g.Linked t i p name now fit ds n' data' t') : t'.data = data' := by
  rw [hk.state]

theorem ino_parent (hk : g.Linked t i p name now fit ds n' data' t') :
    t'.ino p = { n' with modified := now.toNat } := by
  rw [hk.state]
  simp

theorem ino_target (hk : g.Linked t i p name now fit ds n' data' t') (hip : i ≠ p) :
    t'.ino i = { t.ino i with links := (t.ino i).links + 1 } := by
  rw [hk.state]
  simp [hip]

theorem ino_other (hk : g.Linked t i p name now fit ds n' data' t') {j : Nat} (hjp : j ≠ p)
    (hji : j ≠ i) : t'.ino j = t.ino j := by
  rw [hk.state]
  simp [hjp, hji]

theorem fileType (hk : g.Linked t i p name now fit ds n' data' t') (j : Nat) :
    (t'.ino j).fileType = (t.ino j).fileType := by
  by_cases hjp : j = p
  · rw [hjp, hk.ino_parent]
    exact hk.entered.fileType
  by_cases hji : j = i
  · rw [hji, hk.ino_target (hji ▸ hjp)]
  · rw [hk.ino_other hjp hji]

theorem clear (h : g.Intact gaps t) (hp : t.ibit p = true)
    (hk : g.Linked t i p name now fit ds n' data' t') : Entered.Clear t.data (t.ino p) ds where
  own := h.owning.owns.nodup p hp
  nodup := hk.freshData.nodup
  disjoint b hb := h.fresh_not_owned hp (hk.freshData.clear b hb)

theorem frame (hk : g.Linked t i p name now fit ds n' data' t') {b : Nat}
    (hb : b ∉ t.owned p) (hds : b ∉ ds) : t'.data b = t.data b := by
  rw [hk.data_eq]
  exact hk.entered.frame hb hds

/-- Everybody but the parent keeps its blocks and records; the target's link count
may change. -/
theorem kept (h : g.Intact gaps t) (hp : t.ibit p = true)
    (hk : g.Linked t i p name now fit ds n' data' t') {j : Nat} (hj : t.ibit j = true)
    (hne : j ≠ p) : t'.owned j = t.owned j ∧ t'.content j = t.content j ∧
      ∀ b ∈ t.owned j, t'.data b = t.data b := by
  have hdata : ∀ b ∈ t.owned j, t'.data b = t.data b := by
    intro b hb
    refine hk.frame (fun hbp => hne (h.owner_unique hj hp hb hbp)) fun hbd => ?_
    exact h.fresh_not_owned hj (hk.freshData.clear b hbd) hb
  by_cases hji : j = i
  · subst hji
    have hown : (t'.ino j).owned t'.data = (t.ino j).owned t'.data := by
      rw [hk.ino_target hne]
      rfl
    have hcon : (t'.ino j).content t'.data = (t.ino j).content t'.data := by
      rw [hk.ino_target hne]
      rfl
    exact ⟨hown.trans (INode.owned_congr hdata),
      hcon.trans (INode.content_congr fun b hb => hdata b (List.mem_append_right _ hb)), hdata⟩
  · have hsame : t.Same t'.toView j := ⟨hk.ino_other hne hji, hdata⟩
    exact ⟨hsame.owned_eq, hsame.content_eq, hdata⟩

theorem same (h : g.Intact gaps t) (hp : t.ibit p = true)
    (hk : g.Linked t i p name now fit ds n' data' t') {j : Nat} (hj : t.ibit j = true)
    (hne : j ≠ p) (hji : j ≠ i) : t.Same t'.toView j :=
  ⟨hk.ino_other hne hji, (hk.kept h hp hj hne).2.2⟩

theorem content_parent (hk : g.Linked t i p name now fit ds n' data' t') :
    t'.content p = n'.content data' := by
  rw [View.content, hk.ino_parent, hk.data_eq]
  rfl

theorem parent_owned (h : g.Intact gaps t) (hp : t.ibit p = true)
    (hk : g.Linked t i p name now fit ds n' data' t') :
    (t'.owned p).Perm (t.owned p ++ ds) := by
  rw [View.owned, hk.ino_parent, hk.data_eq]
  exact hk.entered.owned_perm (hk.clear h hp)

theorem owning (h : g.Intact gaps t) (hp : t.ibit p = true)
    (hk : g.Linked t i p name now fit ds n' data' t') : g.Owning t' := by
  have hmark : ∀ b, t.dbit b = true → t'.dbit b = true := by
    intro b hb
    rw [hk.state]
    exact setBits_true.mpr (.inr hb)
  have hblocks : (t'.ino p).blocks ≤ INode.MAX_BLOCKS := by
    rw [hk.ino_parent]
    exact hk.entered.blocks_le (h.mapped hp).blocks_le
  have hperm := hk.parent_owned h hp
  refine ⟨fun j hj => h.lt (hk.ibit_eq ▸ hj), ?_, ?_⟩
  · intro j hj
    have hlive : t.ibit j = true := hk.ibit_eq ▸ hj
    by_cases hjp : j = p
    · subst hjp
      refine ⟨hblocks, fun b hb => ?_⟩
      rcases List.mem_append.mp (hperm.mem_iff.mp hb) with hb | hb
      · exact (h.mapped hlive).lt b hb
      · exact hk.freshData.lt b hb
    · have hkept := hk.kept h hp hlive hjp
      refine ⟨?_, fun b hb => (h.mapped hlive).lt b ?_⟩
      rotate_left
      · have hb : b ∈ t'.owned j := hb
        rw [hkept.1] at hb
        exact hb
      have hlen := congrArg List.length hkept.2.1
      simp only [View.content, INode.content_length] at hlen
      rw [hlen]
      exact (h.mapped hlive).blocks_le
  · refine h.owning.owns.extend (fun j => if j = p then ds else []) ?_ ?_ ?_ ?_ hmark
    · intro j hj
      have hlive : t.ibit j = true := hk.ibit_eq ▸ hj
      refine .inl ⟨hlive, ?_⟩
      by_cases hjp : j = p
      · subst hjp
        simpa using hperm
      · rw [(hk.kept h hp hlive hjp).1]
        simp [hjp]
    · intro j _
      split
      · exact hk.freshData.nodup
      · exact List.nodup_nil
    · intro j j' _ _ hne b hb hb'
      split at hb
      · split at hb'
        · exact hne (by simp_all)
        · exact absurd hb' List.not_mem_nil
      · exact absurd hb List.not_mem_nil
    · intro j _ b hb
      split at hb
      · refine ⟨by simp [hk.freshData.clear b hb], ?_⟩
        rw [hk.state]
        exact setBits_true.mpr (.inl hb)
      · exact absurd hb List.not_mem_nil

theorem rec_cases (h : g.Intact gaps t) (hi : t.ibit i = true) (hp : t.ibit p = true)
    (hk : g.Linked t i p name now fit ds n' data' t')
    (hroom : Entered.Roomy gaps t.data (DirEntry.new i .file name) fit) {d : Nat} {k : Nat × Nat}
    {e : DirEntry} (hr : t'.Rec d k e) :
    (t.Rec d k e ∧ ¬ (d = p ∧ k = Entered.place fit ds)) ∨
      (d = p ∧ (t.ino p).fileType = .directory ∧ k = Entered.place fit ds ∧
        e = DirEntry.new i .file name) := by
  have hlive : t.ibit d = true := hk.ibit_eq ▸ hr.live
  have hdir : (t.ino d).fileType = .directory := hk.fileType d ▸ hr.dir
  by_cases hdp : d = p
  · subst hdp
    have hb : k.1 ∈ n'.content data' := hk.content_parent ▸ hr.block
    have hs : (k.2, Slot.live e) ∈ (data' k.1).slots := hk.data_eq ▸ hr.slot
    rcases hk.entered.live_cases (hk.clear h hp) (valid_newEntry (h.lt hi))
        (h.tidy d hlive hdir) hroom hb hs with ⟨hb, hs, hne⟩ | ⟨hk', he⟩
    · exact .inl ⟨⟨hlive, hdir, hb, hs⟩, fun hk' => hne hk'.2⟩
    · exact .inr ⟨rfl, hdir, hk', he⟩
  · obtain ⟨-, hcon, hdata⟩ := hk.kept h hp hlive hdp
    have hb : k.1 ∈ t.content d := hcon ▸ hr.block
    refine .inl ⟨⟨hlive, hdir, hb, ?_⟩, fun hk' => hdp hk'.1⟩
    rw [← hdata k.1 (List.mem_append_left _ hb)]
    exact hr.slot

/-- Unless eight bytes are left over, the records of before are still there. -/
theorem rec_old (h : g.Intact gaps t) (hi : t.ibit i = true) (hp : t.ibit p = true)
    (hk : g.Linked t i p name now fit ds n' data' t')
    (hsnug : Entered.Snug t.data (DirEntry.new i .file name) fit) {d : Nat} {k : Nat × Nat}
    {e : DirEntry} (hr : t.Rec d k e) : t'.Rec d k e := by
  have hlive : t'.ibit d = true := hk.ibit_eq ▸ hr.live
  have hdir : (t'.ino d).fileType = .directory := (hk.fileType d).trans hr.dir
  by_cases hdp : d = p
  · subst hdp
    obtain ⟨hb, hs⟩ := hk.entered.live_old (hk.clear h hp) (valid_newEntry (h.lt hi))
      (h.tidy d hp hr.dir) hsnug hr.block hr.slot
    refine ⟨hlive, hdir, ?_, hk.data_eq ▸ hs⟩
    show k.1 ∈ t'.content d
    rw [hk.content_parent]
    exact hb
  · obtain ⟨-, hcon, hdata⟩ := hk.kept h hp hr.live hdp
    refine ⟨hlive, hdir, ?_, ?_⟩
    · show k.1 ∈ t'.content d
      rw [hcon]
      exact hr.block
    · rw [hdata k.1 (List.mem_append_left _ hr.block)]
      exact hr.slot

/-- The new record is in the parent, if that is a directory, where there was none. -/
theorem rec_new (h : g.Intact gaps t) (hi : t.ibit i = true) (hp : t.ibit p = true)
    (hk : g.Linked t i p name now fit ds n' data' t')
    (hroom : Entered.Roomy gaps t.data (DirEntry.new i .file name) fit)
    (hdir : (t.ino p).fileType = .directory) :
    t'.Rec p (Entered.place fit ds) (DirEntry.new i .file name) ∧
      ∀ e, ¬ t.Rec p (Entered.place fit ds) e := by
  have hclear := hk.clear h hp
  have hvalid : (DirEntry.new i .file name).Valid := valid_newEntry (h.lt hi)
  have hrows := h.tidy p hp hdir
  obtain ⟨hb, hs⟩ := hk.entered.live_new hclear hvalid hrows hroom
  refine ⟨⟨hk.ibit_eq ▸ hp, (hk.fileType p).trans hdir, ?_, hk.data_eq ▸ hs⟩, ?_⟩
  · show _ ∈ t'.content p
    rw [hk.content_parent]
    exact hb
  · intro e hr
    exact hk.entered.place_free hclear hvalid hrows hroom hr.block hr.slot

theorem graph (h : g.Inv gaps t) (hi : t.ibit i = true) (hfile : (t.ino i).fileType ≠ .directory)
    (hp : t.ibit p = true) (hdd : name ≠ [dot, dot])
    (hk : g.Linked t i p name now fit ds n' data' t')
    (hroom : Entered.Roomy gaps t.data (DirEntry.new i .file name) fit) : t'.graph.Sound 0 := by
  have hleaf : ¬ t.graph.dir i := hfile
  have hlive : ∀ j, t'.graph.live j ↔ t.graph.live j := fun j => by
    show t'.ibit j = true ↔ t.ibit j = true
    rw [hk.ibit_eq]
  have hdir : ∀ j, t.graph.live j → (t'.graph.dir j ↔ t.graph.dir j) := fun j _ => by
    show (t'.ino j).fileType = .directory ↔ (t.ino j).fileType = .directory
    rw [hk.fileType]
  have hlabel : (DirEntry.new i .file name).label ≠ [dot, dot] :=
    DirEntry.label_new_ne (by decide) hdd
  have hup : ∀ {d q}, t'.graph.up d q → t.graph.up d q ∧ t.graph.live d ∧ t.graph.dir d := by
    rintro d q ⟨k, e, hr, hl, rfl⟩
    rcases hk.rec_cases h.toIntact hi hp hroom hr with ⟨hr, -⟩ | ⟨-, -, -, rfl⟩
    · exact ⟨⟨k, e, hr, hl, rfl⟩, hr.live, hr.dir⟩
    · exact absurd hl hlabel
  have hother : ∀ j, j ≠ i → (t'.ino j).links = (t.ino j).links := by
    intro j hji
    by_cases hjp : j = p
    · rw [hjp, hk.ino_parent]
      exact hk.entered.links
    · rw [hk.ino_other hjp hji]
  by_cases hip : i = p
  · -- a file is no directory, so no record was added and the old count was put back
    refine h.graph.mono hlive hdir ?_ (fun hu => (hup hu).1) ?_
    · rintro d k j ⟨e, hr, h1, h2, rfl⟩
      rcases hk.rec_cases h.toIntact hi hp hroom hr with ⟨hr, -⟩ | ⟨-, hd, -, -⟩
      · exact ⟨e, hr, h1, h2, rfl⟩
      · exact absurd (hip ▸ hd) hfile
    · intro j _
      by_cases hji : j = i
      · show (t'.ino j).links = (t.ino j).links
        rw [hji, hip, hk.ino_parent]
        exact hk.entered.links
      · exact hother j hji
  · have hraise : (t'.ino i).links = (t.ino i).links + 1 := by
      rw [hk.ino_target hip]
    by_cases hpd : (t.ino p).fileType = .directory
    · refine h.graph.addLink (i := i) (p := p) (k := Entered.place fit ds) hi hleaf hpd hlive hdir
        ?_ hup (fun j _ hji => hother j hji) hraise
      rintro d k j ⟨e, hr, h1, h2, rfl⟩
      rcases hk.rec_cases h.toIntact hi hp hroom hr with ⟨hr, -⟩ | ⟨rfl, -, rfl, rfl⟩
      · exact .inl ⟨e, hr, h1, h2, rfl⟩
      · exact .inr ⟨rfl, rfl, rfl⟩
    · refine h.graph.addLink (i := i) (p := 0) (k := (0, 0)) hi hleaf h.graph.root_dir hlive hdir
        ?_ hup (fun j _ hji => hother j hji) hraise
      rintro d k j ⟨e, hr, h1, h2, rfl⟩
      rcases hk.rec_cases h.toIntact hi hp hroom hr with ⟨hr, -⟩ | ⟨-, hd, -, -⟩
      · exact .inl ⟨e, hr, h1, h2, rfl⟩
      · exact absurd hd hpd

/-- Linking leaves the blocks as they should be. -/
theorem intact (h : g.Intact gaps t) (hi : t.ibit i = true) (hp : t.ibit p = true)
    (hk : g.Linked t i p name now fit ds n' data' t')
    (hroom : Entered.Roomy gaps t.data (DirEntry.new i .file name) fit) : g.Intact gaps t' where
  cursors := by
    have hcur := cursorsIn_taken h.cursors ⟨List.nodup_nil, by simp, by simp, by simp⟩
      hk.freshData
    rw [hk.state]
    exact ⟨hcur.lastInode, hcur.lastData⟩
  inRange j := by
    by_cases hjp : j = p
    · rw [hjp, hk.ino_parent]
      exact { hk.inRange with modified := now.toNat_lt }
    by_cases hji : j = i
    · rw [hji, hk.ino_target (hji ▸ hjp)]
      exact { h.inRange i with links := hk.links_lt }
    · rw [hk.ino_other hjp hji]
      exact h.inRange j
  owning := hk.owning h hp
  tidy := by
    intro d hlive hdir b hb
    rw [hk.ibit_eq] at hlive
    rw [hk.fileType] at hdir
    by_cases hdp : d = p
    · subst hdp
      rw [hk.content_parent] at hb
      rw [hk.data_eq]
      exact hk.entered.rows (hk.clear h hp) (valid_newEntry (h.lt hi)) (h.tidy d hlive hdir)
        hroom b hb
    · obtain ⟨-, hcon, hdata⟩ := hk.kept h hp hlive hdp
      rw [hcon] at hb
      rw [hdata b (List.mem_append_left _ hb)]
      exact h.tidy d hlive hdir b hb

/-- Linking keeps the invariant. -/
theorem inv (h : g.Inv gaps t) (hi : t.ibit i = true) (hfile : (t.ino i).fileType ≠ .directory)
    (hp : t.ibit p = true) (hd : name ≠ [dot]) (hdd : name ≠ [dot, dot])
    (hk : g.Linked t i p name now fit ds n' data' t')
    (hroom : Entered.Roomy gaps t.data (DirEntry.new i .file name) fit) : g.Inv gaps t' where
  toIntact := hk.intact h.toIntact hi hp hroom
  graph := hk.graph h hi hfile hp hdd hroom
  self := by
    intro d k e hr hl
    rcases hk.rec_cases h.toIntact hi hp hroom hr with ⟨hr, -⟩ | ⟨-, -, -, rfl⟩
    · exact h.self hr hl
    · exact absurd hl (DirEntry.label_new_ne (by decide) hd)

end Linked

/-- Blocks that were taken in vain belong to nobody. -/
theorem inv_wasted {k : Nat} {ds : List Nat} (h : g.Inv gaps t)
    (ha : g.Allocated t 0 k [] ds (t.taken [] ds)) : g.Inv gaps (t.taken [] ds) := by
  have hcur := cursorsIn_taken h.cursors
    ⟨List.nodup_nil, by simp, by simp, by simp⟩ (ha.data_eq ▸ fresh_pickData)
  refine h.mark (setBits_nil t.ibit true) rfl rfl ?_ hcur
  intro b hb
  exact setBits_true.mpr (.inr hb)

end Geom

/-! ## Symlink targets -/

/-- The state after the target of the symlink `i` has been written. -/
def St.withTarget (t : St) (i : Nat) (target : Str) (now : UInt64) : St :=
  { t with
    ino := Function.update t.ino i { t.ino i with modified := now.toNat, size := target.length }
    data := Function.update t.data ((t.ino i).direct 0) (Block.zero.splice 0 target) }

namespace Geom

variable {g : Geom} {gaps : Bool} {t t' : St} {i : Nat} {target : Str} {now : UInt64}

theorem wpr_writeSymlink (h : g.Inv gaps t) (hi : t.ibit i = true)
    (hb : (t.ino i).direct 0 ∈ t.content i) :
    Prog.wpr g.Rep (writeSymlink (t.ino i) i target now)
      (fun _ t' => t' = t.withTarget i target now ∧ target.length ≤ BLOCK_SIZE)
      (fun _ _ => False) t := by
  refine runs_getFormat.seq ?_
  refine Prog.wpr_checkedAdd fun _ => ?_
  refine Prog.wpr_assert fun hlen => ?_
  have hr : ({ t.ino i with modified := now.toNat, size := target.length } : INode).InRange :=
    { h.inRange i with
      modified := now.toNat_lt
      size := by
        have : BLOCK_SIZE = 256 := rfl
        dsimp only
        omega }
  refine (runs_onDevice (runs_writeData ((h.mapped hi).content _ hb))).seq ?_
  exact (runs_onDevice (runs_writeInode (h.lt hi) hr)).wpr ⟨rfl, Nat.not_lt.mp hlen⟩

/-- Writing a symlink's target changes that symlink only. -/
theorem leaf_withTarget (h : g.Inv gaps t) (hi : t.ibit i = true)
    (hleaf : (t.ino i).fileType ≠ .directory) (hb : (t.ino i).direct 0 ∈ t.content i)
    (hlen : target.length ≤ BLOCK_SIZE) :
    Inv.Leaf g t (t.withTarget i target now) i [] [] := by
  have hino : (t.withTarget i target now).ino i =
      { t.ino i with modified := now.toNat, size := target.length } := by
    simp [St.withTarget]
  have hbs : BLOCK_SIZE = 256 := rfl
  have hptr : ∀ b ∈ (t.ino i).pointers t.data, (t.withTarget i target now).data b = t.data b := by
    intro b hbp
    refine Function.update_of_ne ?_ _ _
    rintro rfl
    exact (List.nodup_append.mp (h.owning.owns.nodup i hi)).2.2 _ hb _ hbp rfl
  have hown : (t.withTarget i target now).owned i = t.owned i := by
    have hcon := INode.content_congr hptr
    have hpts := INode.pointers_congr hptr
    rw [View.owned, hino]
    show INode.owned (t.ino i) _ = INode.owned (t.ino i) _
    rw [INode.owned, hcon, hpts, INode.owned]
  exact
    { live := hi
      leaf := hleaf
      ibit := rfl
      dbit := (setBits_nil _ _).symm
      fresh := ⟨List.nodup_nil, by simp, by simp⟩
      sub := List.Sublist.refl _
      other := fun j hj => by simp [St.withTarget, hj]
      fileType := by rw [hino]
      links := by rw [hino]
      inRange := by
        rw [hino]
        exact { h.inRange i with
          modified := now.toNat_lt
          size := by
            dsimp only
            omega }
      blocks_le := by
        rw [hino]
        exact (h.mapped hi).blocks_le
      owned := by rw [hown, List.append_nil]
      frame := by
        intro b hnb _
        refine Function.update_of_ne ?_ _ _
        rintro rfl
        exact hnb (List.mem_append_left _ hb) }

end Geom

end FerrisFS
