import FerrisFS.V1.Mount
import FerrisFS.V1.Observe

/-!
# Well-formed states

What a caller can expect of any state, not only of those that operations lead to
from a formatted device: inodes own their blocks, directory blocks parse and records
name what they say. `Tree` adds that the directories hang together, `LinksExact` that
an inode counts its links right. Together they give the invariant, without gaps.
-/

namespace FerrisFS

open Lib

namespace View

/-- The directory `d` has a record other than `.` and `..` for `i`. -/
def Named (t : View) (i : Nat) : Prop := ∃ d k, t.graph.edge d k i

/-- `i` has as many links as there are live records that name it. -/
def LinksExact (t : View) (i : Nat) : Prop :=
  ∃ l : List (Nat × Nat × Nat), l.Nodup ∧
    (∀ d k, (d, k) ∈ l ↔ ∃ e, t.Rec d k e ∧ e.inode = i) ∧ l.length = (t.ino i).links

/-- The directories form a tree: one record names each of them, the root apart, and
`.` and `..` agree with it. -/
structure Tree (t : View) : Prop where
  root_live : t.ibit 0 = true
  root_dir : (t.ino 0).fileType = .directory
  root_top : ¬ t.Named 0
  reach : ∀ d, t.ibit d = true → (t.ino d).fileType = .directory → t.Reach d
  once : ∀ {d k d' k' i}, (t.ino i).fileType = .directory → t.graph.edge d k i →
    t.graph.edge d' k' i → (d, k) = (d', k')
  self : ∀ {d k e}, t.Rec d k e → e.label = [dot] → e.inode = d
  up_root : ∀ {q}, t.graph.up 0 q → q = 0
  up_edge : ∀ {d q q' k}, t.graph.up d q → t.graph.edge q' k d → q' = q
  dir_links : ∀ d, t.ibit d = true → (t.ino d).fileType = .directory → (t.ino d).links = 1

/-- The directory `d` has the live record `e` under `name`. -/
def Entry (t : View) (d : Nat) (name : Str) (e : DirEntry) : Prop :=
  ∃ k, t.Rec d k e ∧ e.label = name

/-- No two records of a directory have one name. -/
def UniqueNames (t : View) : Prop :=
  ∀ {d k k' e e'}, t.Rec d k e → t.Rec d k' e' → e.label = e'.label → k = k'

/-- No two records share a place. -/
theorem Rec.unique {t : View} {d : Nat} {k : Nat × Nat} {e e' : DirEntry} (h : t.Rec d k e)
    (h' : t.Rec d k e') : e = e' := by
  have := Block.slots_unique h.slot h'.slot
  cases this
  rfl

theorem edge_unique {t : View} {d i j : Nat} {k : Nat × Nat} (h : t.graph.edge d k i)
    (h' : t.graph.edge d k j) : i = j := by
  obtain ⟨e, hr, -, -, rfl⟩ := h
  obtain ⟨e', hr', -, -, rfl⟩ := h'
  rw [hr.unique hr']

/-- Records called `.` and `..` name directories. -/
structure Dotted (t : View) : Prop where
  self : ∀ {d k e}, t.Rec d k e → e.label = [dot] → e.inode = d
  up : ∀ {d q}, t.graph.up d q → (t.ino q).fileType = .directory

namespace Dotted

variable {t : View} {i : Nat}

/-- So the records that name a leaf have other names. -/
theorem edge_iff (h : t.Dotted) (hleaf : (t.ino i).fileType ≠ .directory) {d : Nat}
    {k : Nat × Nat} : t.graph.edge d k i ↔ ∃ e, t.Rec d k e ∧ e.inode = i := by
  constructor
  · rintro ⟨e, hr, -, -, hi⟩
    exact ⟨e, hr, hi⟩
  · rintro ⟨e, hr, rfl⟩
    refine ⟨e, hr, fun hl => ?_, fun hl => ?_, rfl⟩
    · rw [h.self hr hl] at hleaf
      exact hleaf hr.dir
    · exact hleaf (h.up ⟨k, e, hr, hl, rfl⟩)

theorem linksExact_iff (h : t.Dotted) (hleaf : (t.ino i).fileType ≠ .directory) :
    t.LinksExact i ↔ t.graph.Exactly i (t.ino i).links := by
  have hiff := fun d k => h.edge_iff hleaf (d := d) (k := k)
  constructor
  · rintro ⟨l, hnd, hmem, hlen⟩
    exact ⟨l, hnd, fun d k => (hmem d k).trans (hiff d k).symm, hlen⟩
  · rintro ⟨l, hnd, hmem, hlen⟩
    exact ⟨l, hnd, fun d k => (hmem d k).trans (hiff d k), hlen⟩

end Dotted

namespace Tree

variable {t : View} {d i : Nat} {k : Nat × Nat}

/-- No directory names itself. -/
theorem target_ne_self (h : t.Tree) (he : t.graph.edge d k i) : i ≠ d := by
  rintro rfl
  obtain ⟨e, hr, -⟩ := id he
  -- a path to `j` ends with the one record that names it
  have hno : ∀ j, t.Reach j → (t.ino j).fileType = .directory → ∀ k, ¬ t.graph.edge j k j := by
    intro j hj
    induction hj with
    | root => exact fun _ k he => h.root_top ⟨0, k, he⟩
    | step _ he' ih =>
        intro hjd k he
        obtain ⟨e', hr', -⟩ := id he'
        have heq := h.once hjd he he'
        cases heq
        exact ih hr'.dir _ he
  exact hno i (h.reach i hr.live hr.dir) hr.dir k he

/-- Directories but the root are named. -/
theorem named (h : t.Tree) (hd : t.ibit d = true) (hdir : (t.ino d).fileType = .directory)
    (hne : d ≠ 0) : ∃ q k, t.graph.edge q k d := by
  rcases h.reach d hd hdir with _ | ⟨_, he⟩
  · exact absurd rfl hne
  · exact ⟨_, _, he⟩

theorem up_dir (h : t.Tree) {q : Nat} (hu : t.graph.up d q) :
    t.ibit q = true ∧ (t.ino q).fileType = .directory := by
  obtain ⟨k, e, hr, -⟩ := id hu
  by_cases hd : d = 0
  · subst hd
    rw [h.up_root hu]
    exact ⟨h.root_live, h.root_dir⟩
  · obtain ⟨q', k', he⟩ := h.named hr.live hr.dir hd
    obtain ⟨e', hr', -⟩ := id he
    rw [← h.up_edge hu he]
    exact ⟨hr'.live, hr'.dir⟩

/-- No directory is below itself. -/
theorem acyclic (h : t.Tree) (hlive : ∀ {d k e}, t.Rec d k e → t.ibit e.inode = true) :
    t.graph.Acyclic := by
  refine Lib.Namespace.acyclic_of_once (fun d k (he : t.graph.edge d k 0) =>
    h.root_top ⟨d, k, he⟩) ?_ ?_
  · intro i hdir hnamed
    obtain ⟨d, k, e, hr, -, -, rfl⟩ := hnamed
    exact h.reach _ (hlive hr) hdir
  · intro d d' i hstep hstep'
    obtain ⟨hdir, k, he⟩ := hstep
    obtain ⟨-, k', he'⟩ := hstep'
    exact congrArg Prod.fst (h.once hdir he he')

theorem dotted (h : t.Tree) : t.Dotted := ⟨h.self, fun hu => (h.up_dir hu).2⟩

theorem counted (h : t.Tree) (hlinks : ∀ i, t.ibit i = true →
    (t.ino i).fileType ≠ .directory → t.LinksExact i) : t.graph.Counted 0 where
  exact i hi hleaf := (h.dotted.linksExact_iff hleaf).mp (hlinks i hi hleaf)
  up_dir := h.up_dir
  named _ hd hdir hne := h.named hd hdir hne

end Tree

end View

namespace Geom

variable {g : Geom} {s : FFS} {t : St}

/-- The allocators stand inside their bitmaps, the blocks of the allocated inodes are
distinct and marked, directory blocks parse exactly, and live records name allocated
inodes of the recorded type. -/
structure WellFormed (g : Geom) (t : St) : Prop where
  cursors : t.CursorsIn g
  owning : g.Owning t
  parse : ∀ d, t.ibit d = true → (t.ino d).fileType = .directory →
    ∀ b ∈ t.content d, ∃ cs, TidyLayout false (t.data b) cs
  typed : ∀ {d k e}, t.Rec d k e →
    t.ibit e.inode = true ∧ (t.ino e.inode).fileType = e.fileType

theorem WellFormed.sound (h : g.WellFormed t) (ht : t.Tree) (hc : t.graph.Counted 0) :
    t.graph.Sound 0 where
  root_live := ht.root_live
  root_dir := ht.root_dir
  target_live := by
    rintro d k i ⟨e, hr, -, -, rfl⟩
    exact (h.typed hr).1
  target_ne_root := by
    rintro d k i he rfl
    exact ht.root_top ⟨d, k, he⟩
  target_ne_self he := ht.target_ne_self he
  count := by
    intro i hi
    by_cases hdir : (t.ino i).fileType = .directory
    · -- two places that name a directory are one
      intro l hnd hl
      show l.length ≤ (t.ino i).links
      rw [ht.dir_links i hi hdir]
      match l with
      | [] => exact Nat.zero_le _
      | [_] => exact Nat.le_refl _
      | x :: y :: rest =>
          have hxy : x = y := ht.once hdir (hl x (by simp)) (hl y (by simp))
          simp [hxy] at hnd
    · exact (hc.exact i hi hdir).atMost
  dir_links := ht.dir_links
  up_root := ht.up_root
  up_edge := ht.up_edge

/-- A well-formed tree with exact link counts satisfies the invariant. -/
theorem WellFormed.inv (hs : g.Rep s t) (h : g.WellFormed t) (ht : t.Tree)
    (hc : t.graph.Counted 0) : g.Inv false t where
  cursors := h.cursors
  inRange := view_ino_inRange hs.1
  owning := h.owning
  tidy := h.parse
  graph := h.sound ht hc
  self := ht.self

/-! ## After formatting -/

namespace Initial

variable {now : UInt64}

theorem root_dir (h : g.Initial now t) : (t.ino 0).fileType = .directory := by
  rw [h.root, firstNode_fileType]

theorem wellFormed (h : g.Initial now t) : g.WellFormed t where
  cursors := (@inv _ false _ _ h).cursors
  owning := (@inv _ false _ _ h).owning
  parse := (@inv _ false _ _ h).tidy
  typed := by
    intro d k e hr
    have hlive : t.ibit 0 = true := (h.ibit 0).mpr rfl
    obtain ⟨-, rfl | rfl⟩ := h.rec_cases hr
    · exact ⟨hlive, h.root_dir⟩
    · exact ⟨hlive, h.root_dir⟩

theorem tree (h : g.Initial now t) : t.Tree where
  root_live := (h.ibit 0).mpr rfl
  root_dir := h.root_dir
  root_top := fun ⟨_, _, he⟩ => h.no_edge he
  reach d hd _ := by
    rw [(h.ibit d).mp hd]
    exact .root
  once _ he := (h.no_edge he).elim
  self := (@inv _ false _ _ h).self
  up_root := h.graph.up_root
  up_edge := h.graph.up_edge
  dir_links := h.graph.dir_links

/-- No file is open yet. -/
theorem handled (h : g.Initial now t) : t.Handled := by
  intro id m hm
  rw [h.openFiles] at hm
  cases hm

/-- There are no files yet. -/
theorem linksExact (h : g.Initial now t) (i : Nat) (hi : t.ibit i = true)
    (hleaf : (t.ino i).fileType ≠ .directory) : t.LinksExact i := by
  rw [(h.ibit i).mp hi] at hleaf
  exact absurd h.root_dir hleaf

end Initial

end Geom

end FerrisFS
