import FerrisFS.Lib.Namespace
import FerrisFS.Lib.Ownership
import FerrisFS.V1.State

/-!
# The invariant of a mounted filesystem

What every operation needs of the state it starts in: the blocks of the allocated
inodes are their own, the blocks of directories are rows of records, and the
records form a sound graph of links. Nothing here says that every allocated inode
is reachable, that names are unique or that the counts are right.
-/

namespace FerrisFS

open Lib

/-- The bytes of the name. -/
def DirEntry.label (e : DirEntry) : List UInt8 := e.name.take e.nameLen

namespace View

/-- The directory `d` has the live record `e` at offset `k.2` of its block `k.1`. -/
structure Rec (t : View) (d : Nat) (k : Nat × Nat) (e : DirEntry) : Prop where
  live : t.ibit d = true
  dir : (t.ino d).fileType = .directory
  block : k.1 ∈ (t.ino d).content t.data
  slot : (k.2, Slot.live e) ∈ (t.data k.1).slots

/-- The links between inodes: the records of directories other than `.` and `..`,
and the `..` records. -/
def graph (t : View) : Lib.Namespace Nat (Nat × Nat) where
  live i := t.ibit i = true
  dir i := (t.ino i).fileType = .directory
  edge d k i := ∃ e, t.Rec d k e ∧ e.label ≠ [dot] ∧ e.label ≠ [dot, dot] ∧ e.inode = i
  up d q := ∃ k e, t.Rec d k e ∧ e.label = [dot, dot] ∧ e.inode = q
  links i := (t.ino i).links

/-- The inodes that paths lead to. -/
def Reach (t : View) (i : Nat) : Prop := t.graph.Reach 0 i

/-- Blocks owned by inode `i`. -/
def owned (t : View) (i : Nat) : List Nat := (t.ino i).owned t.data

def content (t : View) (i : Nat) : List Nat := (t.ino i).content t.data

/-- Inode `i` and the blocks it owns are as they were. -/
structure Same (t t' : View) (i : Nat) : Prop where
  ino : t'.ino i = t.ino i
  data : ∀ b ∈ t.owned i, t'.data b = t.data b

namespace Same

variable {t t' t'' : View} {i : Nat}

theorem refl : Same t t i := ⟨rfl, fun _ _ => rfl⟩

theorem owned_eq (h : Same t t' i) : t'.owned i = t.owned i := by
  rw [owned, h.ino]
  exact INode.owned_congr h.data

theorem content_eq (h : Same t t' i) : t'.content i = t.content i := by
  rw [content, h.ino]
  exact INode.content_congr fun p hp => h.data p (List.mem_append_right _ hp)

theorem content_data (h : Same t t' i) {b : Nat} (hb : b ∈ t.content i) :
    t'.data b = t.data b :=
  h.data b (List.mem_append_left _ hb)

theorem rec_iff (h : Same t t' i) (hlive : t'.ibit i = t.ibit i) {k : Nat × Nat} {e : DirEntry} :
    t'.Rec i k e ↔ t.Rec i k e := by
  have hc := h.content_eq
  constructor
  · intro hr
    have hb : k.1 ∈ t.content i := hc ▸ hr.block
    refine ⟨hlive ▸ hr.live, h.ino ▸ hr.dir, hb, ?_⟩
    rw [← h.content_data hb]
    exact hr.slot
  · intro hr
    refine ⟨hlive ▸ hr.live, h.ino ▸ hr.dir, ?_, ?_⟩
    · show k.1 ∈ t'.content i
      rw [hc]
      exact hr.block
    · rw [h.content_data hr.block]
      exact hr.slot

theorem mapped {g : Geom} (h : Same t t' i) (hm : (t.ino i).Mapped g t.data) :
    (t'.ino i).Mapped g t'.data where
  blocks_le := by
    rw [h.ino]
    exact hm.blocks_le
  lt b hb := hm.lt b (by
    have hb : b ∈ t'.owned i := hb
    rw [h.owned_eq] at hb
    exact hb)

end Same

end View

namespace Geom

/-- The blocks of the allocated inodes are their own. -/
structure Owning (g : Geom) (t : St) : Prop where
  ibit_lt : ∀ i, t.ibit i = true → i < g.inodes
  mapped : ∀ i, t.ibit i = true → (t.ino i).Mapped g t.data
  owns : Owns (fun i => t.ibit i = true) t.owned (fun b => t.dbit b = true)

namespace Owning

variable {g : Geom} {t : St} {i j b : Nat}

/-- Two live inodes that own a common block are one. -/
theorem owner_unique (h : g.Owning t) (hi : t.ibit i = true) (hj : t.ibit j = true)
    (hbi : b ∈ t.owned i) (hbj : b ∈ t.owned j) : i = j := by
  by_contra hij
  exact h.owns.disjoint i j hi hj hij hbi hbj

/-- No content block holds the pointers of an inode. -/
theorem pointer_ne (h : g.Owning t) (hi : t.ibit i = true) (hj : t.ibit j = true) {q : Nat}
    (hb : b ∈ t.content i) (hq : q ∈ (t.ino j).pointers t.data) : q ≠ b := by
  rintro rfl
  obtain rfl := h.owner_unique hi hj (List.mem_append_left _ hb) (List.mem_append_right _ hq)
  exact (List.nodup_append.mp (h.owns.nodup i hi)).2.2 _ hb _ hq rfl

end Owning

end Geom

/-- The open files are allocated. -/
def St.Handled (t : St) : Prop :=
  ∀ id m, t.openFiles id = some m → t.ibit m.inode = true ∧ (t.ino m.inode).fileType = .file

namespace Geom

/-- The part of the invariant that is about blocks: whatever the records say, inodes and
directories can be read and written. -/
structure Intact (g : Geom) (gaps : Bool) (t : St) : Prop where
  cursors : t.CursorsIn g
  inRange : ∀ i, (t.ino i).InRange
  owning : g.Owning t
  tidy : ∀ d, t.ibit d = true → (t.ino d).fileType = .directory →
    ∀ b ∈ t.content d, ∃ cs, TidyLayout gaps (t.data b) cs

/-- The invariant. -/
structure Inv (g : Geom) (gaps : Bool) (t : St) : Prop extends Intact g gaps t where
  graph : t.graph.Sound 0
  self : ∀ {d k e}, t.Rec d k e → e.label = [dot] → e.inode = d

/-- Inode `i` has its blocks to itself, and they are marked: it can be read, written and
extended. -/
structure Usable (g : Geom) (t : St) (i : Nat) : Prop where
  cursors : t.CursorsIn g
  lt : i < g.inodes
  inRange : (t.ino i).InRange
  mapped : (t.ino i).Mapped g t.data
  nodup : (t.owned i).Nodup
  marked : ∀ b ∈ t.owned i, t.dbit b = true

namespace Intact

variable {g : Geom} {gaps : Bool} {t : St} {i : Nat}

theorem lt (h : g.Intact gaps t) (hi : t.ibit i = true) : i < g.inodes := h.owning.ibit_lt i hi

theorem mapped (h : g.Intact gaps t) (hi : t.ibit i = true) : (t.ino i).Mapped g t.data :=
  h.owning.mapped i hi

theorem usable (h : g.Intact gaps t) (hi : t.ibit i = true) : g.Usable t i where
  cursors := h.cursors
  lt := h.lt hi
  inRange := h.inRange i
  mapped := h.mapped hi
  nodup := h.owning.owns.nodup i hi
  marked := h.owning.owns.marked i hi

theorem owner_unique (h : g.Intact gaps t) {j b : Nat} (hi : t.ibit i = true) (hj : t.ibit j = true)
    (hbi : b ∈ t.owned i) (hbj : b ∈ t.owned j) : i = j := h.owning.owner_unique hi hj hbi hbj

/-- An unmarked block belongs to nobody. -/
theorem fresh_not_owned (h : g.Intact gaps t) (hi : t.ibit i = true) {b : Nat}
    (hb : t.dbit b = false) : b ∉ t.owned i :=
  h.owning.owns.not_mem hi (by simp [hb])

/-- Writing blocks of `p` and unmarked blocks leaves every other inode as it was. -/
theorem same (h : g.Intact gaps t) {t' : St} {p j : Nat} {ds : List Nat} (hp : t.ibit p = true)
    (hj : t.ibit j = true) (hne : j ≠ p) (hino : t'.ino j = t.ino j)
    (hds : ∀ b ∈ ds, t.dbit b = false)
    (hdata : ∀ b, b ∉ t.owned p → b ∉ ds → t'.data b = t.data b) : t.Same t'.toView j := by
  refine ⟨hino, fun b hb => hdata b ?_ ?_⟩
  · exact fun hbp => hne (h.owner_unique hj hp hb hbp)
  · exact fun hbd => h.fresh_not_owned hj (hds b hbd) hb

/-- The counts, the positions of the allocators and the open files may change. -/
theorem congr (h : g.Intact gaps t) {t' : St} (hv : t'.toView = t.toView) (hc : t'.CursorsIn g) :
    g.Intact gaps t' := by
  cases t with
  | mk v _ _ _ _ _ _ =>
    cases t' with
    | mk v' _ _ _ _ _ _ =>
      cases hv
      exact ⟨hc, h.inRange, ⟨h.owning.ibit_lt, h.owning.mapped, h.owning.owns⟩, h.tidy⟩

end Intact

namespace Inv

variable {g : Geom} {gaps : Bool} {t : St} {i : Nat}

theorem reach_live (h : g.Inv gaps t) (hr : t.Reach i) : t.ibit i = true :=
  Lib.Namespace.Reach.live h.graph hr

theorem root_live (h : g.Inv gaps t) : t.ibit 0 = true := h.graph.root_live

theorem root_dir (h : g.Inv gaps t) : (t.ino 0).fileType = .directory := h.graph.root_dir

theorem congr (h : g.Inv gaps t) {t' : St} (hv : t'.toView = t.toView) (hc : t'.CursorsIn g) :
    g.Inv gaps t' := by
  refine ⟨h.toIntact.congr hv hc, ?_, ?_⟩
  · rw [hv]
    exact h.graph
  · rw [hv]
    exact h.self

end Inv

/-- What an inode holds after it took the blocks `l`; a new inode held nothing. -/
structure Takes (g : Geom) (t t' : St) (i : Nat) (l : List Nat) : Prop where
  lt : i < g.inodes
  blocks_le : (t'.ino i).blocks ≤ INode.MAX_BLOCKS
  owned : t.ibit i = true ∧ (t'.owned i).Perm (t.owned i ++ l) ∨
    t.ibit i = false ∧ (t'.owned i).Perm l

/-- Two inodes take freshly marked blocks; the others stay as they were. -/
theorem Owning.extend {g : Geom} {gaps : Bool} {t t' : St} (h : g.Intact gaps t) {p q : Nat}
    {lp lq ds : List Nat}
    (hpq : p ≠ q) (hibit : ∀ j, t'.ibit j = true → j ≠ p → j ≠ q → t.ibit j = true)
    (hfresh : g.FreshData t ds) (hdbit : t'.dbit = setBits t.dbit ds true)
    (hsub : (lp ++ lq).Sublist ds)
    (hother : ∀ j, t.ibit j = true → j ≠ p → j ≠ q → t.Same t'.toView j)
    (hp : g.Takes t t' p lp) (hq : g.Takes t t' q lq) : g.Owning t' := by
  have hmark : ∀ b, t.dbit b = true → t'.dbit b = true := by
    intro b hb
    rw [hdbit, setBits]
    split
    · rfl
    · exact hb
  have hmem : ∀ b ∈ lp ++ lq, b ∈ ds := fun b hb => hsub.subset hb
  have hmapped : ∀ {i l}, g.Takes t t' i l → (∀ b ∈ l, b < g.cap) →
      (t'.ino i).Mapped g t'.data := by
    intro i l hi hl
    refine ⟨hi.blocks_le, fun b hb => ?_⟩
    rcases hi.owned with ⟨hlive, hperm⟩ | ⟨-, hperm⟩
    · rcases List.mem_append.mp (hperm.mem_iff.mp hb) with hb | hb
      · exact (h.mapped hlive).lt b hb
      · exact hl b hb
    · exact hl b (hperm.mem_iff.mp hb)
  refine ⟨?_, ?_, ?_⟩
  · intro j hj
    by_cases hjp : j = p
    · exact hjp ▸ hp.lt
    by_cases hjq : j = q
    · exact hjq ▸ hq.lt
    · exact h.lt (hibit j hj hjp hjq)
  · intro j hj
    by_cases hjp : j = p
    · exact hjp ▸ hmapped hp fun b hb => hfresh.lt b (hmem b (List.mem_append_left _ hb))
    by_cases hjq : j = q
    · exact hjq ▸ hmapped hq fun b hb => hfresh.lt b (hmem b (List.mem_append_right _ hb))
    · have hlive := hibit j hj hjp hjq
      exact (hother j hlive hjp hjq).mapped (h.mapped hlive)
  · refine h.owning.owns.extend_pair (p := p) (q := q) ?_ ?_ ?_ hpq
      (hfresh.nodup.sublist hsub) ?_ hmark
    · intro _
      simpa using hp.owned
    · intro _
      simpa using hq.owned
    · intro j hj hjp hjq
      have hlive := hibit j hj hjp hjq
      exact ⟨hlive, (hother j hlive hjp hjq).owned_eq⟩
    · intro b hb
      have hb' := hmem b hb
      refine ⟨by simp [hfresh.clear b hb'], ?_⟩
      rw [hdbit, setBits, if_pos hb']

namespace Inv

variable {g : Geom} {gaps : Bool} {t t' : St} {i : Nat}

/-- More blocks may be marked. -/
theorem mark (h : g.Inv gaps t) (hibit : t'.ibit = t.ibit) (hino : t'.ino = t.ino)
    (hdata : t'.data = t.data) (hdbit : ∀ b, t.dbit b = true → t'.dbit b = true)
    (hcur : t'.CursorsIn g) : g.Inv gaps t' := by
  have hsame : ∀ j, t.Same t'.toView j := fun j => ⟨by rw [hino], fun b _ => by rw [hdata]⟩
  have hrec : ∀ {d k e}, t'.Rec d k e → t.Rec d k e := fun {d k e} hr =>
    ((hsame d).rec_iff (by rw [hibit])).mp hr
  refine ⟨⟨hcur, fun j => hino ▸ h.inRange j, ⟨?_, ?_, ?_⟩, ?_⟩, ?_,
    fun hr => h.self (hrec hr)⟩
  · exact fun j hj => h.lt (hibit ▸ hj)
  · exact fun j hj => (hsame j).mapped (h.mapped (hibit ▸ hj))
  · exact h.owning.owns.mono (fun j hj => ⟨hibit ▸ hj, (hsame j).owned_eq⟩)
      fun _ _ b _ => hdbit b
  · intro d hd hdir b hb
    rw [(hsame d).content_eq] at hb
    rw [hdata]
    exact h.tidy d (hibit ▸ hd) (hino ▸ hdir) b hb
  · refine h.graph.mono ?_ ?_ ?_ ?_ ?_
    · exact fun j => by show t'.ibit j = true ↔ t.ibit j = true; rw [hibit]
    · exact fun j _ => by
        show (t'.ino j).fileType = .directory ↔ (t.ino j).fileType = .directory
        rw [hino]
    · rintro d k j ⟨e, hr, h1, h2, h3⟩
      exact ⟨e, hrec hr, h1, h2, h3⟩
    · rintro d q ⟨k, e, hr, h1, h2⟩
      exact ⟨k, e, hrec hr, h1, h2⟩
    · exact fun j _ => by show (t'.ino j).links = (t.ino j).links; rw [hino]

/-- A file or symlink `i` is rewritten, and takes some of the freshly marked
blocks. -/
structure Leaf (g : Geom) (t t' : St) (i : Nat) (l ds : List Nat) : Prop where
  live : t.ibit i = true
  leaf : (t.ino i).fileType ≠ .directory
  ibit : t'.ibit = t.ibit
  dbit : t'.dbit = setBits t.dbit ds true
  fresh : g.FreshData t ds
  sub : l.Sublist ds
  other : ∀ j, j ≠ i → t'.ino j = t.ino j
  fileType : (t'.ino i).fileType = (t.ino i).fileType
  links : (t'.ino i).links = (t.ino i).links
  inRange : (t'.ino i).InRange
  blocks_le : (t'.ino i).blocks ≤ INode.MAX_BLOCKS
  owned : (t'.owned i).Perm (t.owned i ++ l)
  frame : ∀ b, b ∉ t.owned i → b ∉ ds → t'.data b = t.data b

namespace Leaf

variable {l ds : List Nat}

theorem same (h : g.Intact gaps t) (hl : Leaf g t t' i l ds) {j : Nat} (hj : t.ibit j = true)
    (hne : j ≠ i) : t.Same t'.toView j :=
  h.same hl.live hj hne (hl.other j hne) hl.fresh.clear hl.frame

theorem rec_iff (h : g.Intact gaps t) (hl : Leaf g t t' i l ds) {d : Nat} {k : Nat × Nat}
    {e : DirEntry} : t'.Rec d k e ↔ t.Rec d k e := by
  constructor
  · intro hr
    have hlive : t.ibit d = true := hl.ibit ▸ hr.live
    by_cases hdi : d = i
    · subst hdi
      exact absurd (hl.fileType ▸ hr.dir) hl.leaf
    · exact ((hl.same h hlive hdi).rec_iff (by rw [hl.ibit])).mp hr
  · intro hr
    have hdi : d ≠ i := by
      rintro rfl
      exact hl.leaf hr.dir
    exact ((hl.same h hr.live hdi).rec_iff (by rw [hl.ibit])).mpr hr

theorem graph_eq (h : g.Intact gaps t) (hl : Leaf g t t' i l ds) : t'.graph = t.graph := by
  have hft : ∀ j, (t'.ino j).fileType = (t.ino j).fileType := fun j => by
    by_cases hji : j = i
    · rw [hji, hl.fileType]
    · rw [hl.other j hji]
  have hlinks : ∀ j, (t'.ino j).links = (t.ino j).links := fun j => by
    by_cases hji : j = i
    · rw [hji, hl.links]
    · rw [hl.other j hji]
  simp only [View.graph, hl.ibit, hft, hlinks, hl.rec_iff h]

/-- The blocks are as they should be; `q` is any other inode. -/
theorem intact (h : g.Intact gaps t) (hl : Leaf g t t' i l ds) (hcur : t'.CursorsIn g) {q : Nat}
    (hq : t.ibit q = true) (hiq : i ≠ q) : g.Intact gaps t' where
  cursors := hcur
  inRange j := by
    by_cases hji : j = i
    · exact hji ▸ hl.inRange
    · rw [hl.other j hji]
      exact h.inRange j
  owning := by
    have hsame := hl.same h hq (Ne.symm hiq)
    refine @Owning.extend _ _ _ _ h _ _ _ [] _ hiq (fun j hj _ _ => hl.ibit ▸ hj) hl.fresh
      hl.dbit ?_ (fun j hj hji _ => hl.same h hj hji)
      ⟨h.lt hl.live, hl.blocks_le, .inl ⟨hl.live, hl.owned⟩⟩ ⟨h.lt hq, ?_, .inl ⟨hq, ?_⟩⟩
    · rw [List.append_nil]
      exact hl.sub
    · rw [hsame.ino]
      exact (h.mapped hq).blocks_le
    · rw [hsame.owned_eq, List.append_nil]
  tidy := by
    intro d hd hdir b hb
    have hlive : t.ibit d = true := hl.ibit ▸ hd
    have hdi : d ≠ i := by
      rintro rfl
      exact hl.leaf (hl.fileType ▸ hdir)
    have hsame := hl.same h hlive hdi
    rw [hsame.content_eq] at hb
    rw [hsame.content_data hb]
    rw [hsame.ino] at hdir
    exact h.tidy d hlive hdir b hb

theorem inv (h : g.Inv gaps t) (hl : Leaf g t t' i l ds) (hcur : t'.CursorsIn g) :
    g.Inv gaps t' where
  toIntact := hl.intact h.toIntact hcur h.root_live fun h0 => hl.leaf (h0 ▸ h.root_dir)
  graph := by
    rw [hl.graph_eq h.toIntact]
    exact h.graph
  self hr := h.self ((hl.rec_iff h.toIntact).mp hr)

end Leaf

end Inv

end Geom

end FerrisFS
