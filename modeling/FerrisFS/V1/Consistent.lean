import FerrisFS.V1.Deletion
import FerrisFS.V1.NoAlarm
import FerrisFS.V1.WellFormed

/-!
# Consistent filesystems

What the integrity checker asks for beyond the invariant, without its walk: everything that is
allocated hangs together, records say what they name, and the counts are right. For a
filesystem that keeps the invariant and whose directories have no cycle this is what the walk
looks for.
-/

namespace FerrisFS

open Lib DirectoryHandler INodeTableHandler FormatV1

/-- The two names that are no links. -/
def DirEntry.IsDots (e : DirEntry) : Prop := e.label = [dot] ∨ e.label = [dot, dot]

instance (e : DirEntry) : Decidable e.IsDots := inferInstanceAs (Decidable (_ ∨ _))

/-! ## The records of a directory -/

/-- How many records of block `k` are passed over for subdirectories. -/
def dotCount (k : Nat) : Nat := if k = 0 then 2 else 0

theorem behindDots_eq {k : Nat} {l : List (Nat × DirEntry)} :
    behindDots (decide (k = 0)) 0 l = l.drop (dotCount k) := by
  by_cases hk : k = 0 <;> simp [behindDots, dotCount, hk]

/-- A filled record that is a link. -/
def DirEntry.links (e : DirEntry) : Bool := !e.isFree && decide (¬ e.IsDots)

/-- Where the filled records that are passed over are dots of directories, and the others are
links, the links are the leaves and the directories that are looked at. -/
theorem leaves_dirs_perm {l : List (Nat × DirEntry)} {n : Nat}
    (hfront : ∀ x ∈ l.take n, x.2.isFree = false → x.2.fileType = .directory ∧ x.2.IsDots)
    (hbehind : ∀ x ∈ l.drop n, x.2.isFree = false → ¬ x.2.IsDots) :
    (leavesOf l ++ dirsOf (l.drop n)).Perm ((l.filter (·.2.links)).map (·.2.inode)) := by
  have hleaves : leavesOf l = leavesOf (l.drop n) := by
    have hnone : leavesOf (l.take n) = [] := by
      refine List.eq_nil_iff_forall_not_mem.mpr fun i hi => ?_
      obtain ⟨x, hx, hfree, hne, -⟩ := mem_leavesOf.mp hi
      exact hne (hfront x hx hfree).1
    have hsplit : leavesOf (l.take n ++ l.drop n) = leavesOf (l.take n) ++ leavesOf (l.drop n) := by
      simp only [leavesOf, List.filter_append, List.map_append]
    rwa [List.take_append_drop, hnone, List.nil_append] at hsplit
  have hlinks : l.filter (·.2.links) = (l.drop n).filter fun x => !x.2.isFree := by
    have hnone : (l.take n).filter (·.2.links) = [] := by
      refine List.filter_eq_nil_iff.mpr fun x hx hl => ?_
      simp only [DirEntry.links, Bool.and_eq_true, Bool.not_eq_true', decide_eq_true_eq] at hl
      exact hl.2 (hfront x hx hl.1).2
    have hsplit : (l.take n ++ l.drop n).filter (·.2.links) = (l.drop n).filter (·.2.links) := by
      rw [List.filter_append, hnone, List.nil_append]
    rw [List.take_append_drop] at hsplit
    rw [hsplit]
    refine List.filter_congr fun x hx => ?_
    cases hfree : x.2.isFree with
    | true => simp [DirEntry.links, hfree]
    | false => simp [DirEntry.links, hfree, hbehind x hx hfree]
  rw [hleaves, hlinks]
  have hperm := (List.filter_append_perm (fun x => decide (x.2.fileType ≠ .directory))
    ((l.drop n).filter fun x => !x.2.isFree)).map (·.2.inode)
  rw [List.map_append, List.filter_filter, List.filter_filter] at hperm
  refine List.Perm.trans (.of_eq ?_) hperm
  simp only [leavesOf, dirsOf, Bool.and_comm, decide_not, Bool.not_not]

/-- Dots in front: the first two records of a directory that is in order. -/
theorem Block.InOrder.isDots {maxIndex k : Nat} {b : Block}
    (h : b.InOrder maxIndex (decide (k = 0))) {x : Nat × DirEntry}
    (hx : x ∈ b.records.take (dotCount k)) : x.2.IsDots := by
  by_cases hk : k = 0
  · subst hk
    have horder : InOrderFrom maxIndex true 0 false b.records := h.2
    have hself : ∀ {e : DirEntry}, structureErrors e true 0 = [] → e.IsDots := by
      intro e he
      simp only [structureErrors, and_self, if_true] at he
      split at he
      · cases he
      · rename_i hname
        simp only [not_or, not_not] at hname
        obtain ⟨hlen, hfirst⟩ := hname
        refine .inl ?_
        rw [DirEntry.label, hlen]
        cases hn : e.name with
        | nil => rw [hn] at hfirst; cases hfirst
        | cons c cs =>
            rw [hn] at hfirst
            have hfirst : c = dot := hfirst
            rw [hfirst]
            rfl
    have hparent : ∀ {e : DirEntry}, structureErrors e true 1 = [] → e.IsDots := by
      intro e he
      simp only [structureErrors, Nat.one_ne_zero, and_false, and_self, if_true, if_false] at he
      split at he
      · cases he
      · rename_i hname
        simp only [not_or, not_not] at hname
        obtain ⟨hlen, hfirst, hsecond⟩ := hname
        refine .inr ?_
        rw [DirEntry.label, hlen]
        match hn : e.name with
        | [] => rw [hn] at hfirst; cases hfirst
        | [c] => rw [hn] at hsecond; cases hsecond
        | c :: c' :: cs =>
            rw [hn] at hfirst hsecond
            have hfirst : c = dot := hfirst
            have hsecond : c' = dot := hsecond
            rw [hfirst, hsecond]
            rfl
    match hr : b.records with
    | [] =>
        rw [hr] at hx
        simp at hx
    | [y] =>
        rw [hr] at hx horder
        rw [List.mem_singleton.mp (List.mem_of_mem_take hx)]
        exact hself horder.1.2.1
    | y :: z :: rest =>
        rw [hr] at hx horder
        simp only [dotCount, if_true, List.take_succ_cons, List.take_zero, List.mem_cons,
          List.not_mem_nil, or_false] at hx
        rcases hx with rfl | rfl
        · exact hself horder.1.2.1
        · exact hparent horder.2.1.2.1
  · rw [dotCount, if_neg hk, List.take_zero] at hx
    cases hx

namespace View

variable {t : View} {d i k : Nat} {x : Nat × DirEntry} {p : Nat × Nat} {e : DirEntry}

/-- The records of block `k` of a directory. -/
def recordsAt (t : View) (d k : Nat) : List (Nat × DirEntry) :=
  (t.data ((t.ino d).blockAt t.data k)).records

/-- The links of a directory, with their places. -/
def linked (t : View) (d : Nat) : List ((Nat × Nat) × DirEntry) :=
  (List.range (t.ino d).blocks).flatMap fun k =>
    ((t.recordsAt d k).filter (·.2.links)).map fun x =>
      (((t.ino d).blockAt t.data k, x.1), x.2)

theorem rec_of_record (hlive : t.ibit d = true) (hdir : (t.ino d).fileType = .directory)
    (hk : k < (t.ino d).blocks) (hx : x ∈ t.recordsAt d k) (hfree : x.2.isFree = false) :
    t.Rec d ((t.ino d).blockAt t.data k, x.1) x.2 :=
  rec_iff_read.mpr ⟨hlive, hdir, INode.blockAt_mem_content hk, hx, hfree⟩

theorem Rec.record (h : t.Rec d p e) : ∃ k < (t.ino d).blocks,
    p.1 = (t.ino d).blockAt t.data k ∧ (p.2, e) ∈ t.recordsAt d k ∧ e.isFree = false := by
  obtain ⟨-, -, hb, hx, hfree⟩ := rec_iff_read.mp h
  obtain ⟨k, hk, hp⟩ := INode.mem_content.mp hb
  refine ⟨k, hk, hp.symm, ?_, hfree⟩
  rw [recordsAt, hp]
  exact hx

theorem mem_linked (hlive : t.ibit d = true) (hdir : (t.ino d).fileType = .directory) :
    (p, e) ∈ t.linked d ↔ t.Rec d p e ∧ ¬ e.IsDots := by
  simp only [linked, List.mem_flatMap, List.mem_range, List.mem_map, List.mem_filter]
  constructor
  · rintro ⟨k, hk, x, ⟨hx, hl⟩, heq⟩
    obtain ⟨rfl, rfl⟩ := Prod.mk.inj heq
    simp only [DirEntry.links, Bool.and_eq_true, Bool.not_eq_true', decide_eq_true_eq] at hl
    exact ⟨rec_of_record hlive hdir hk hx hl.1, hl.2⟩
  · rintro ⟨hr, hdots⟩
    obtain ⟨k, hk, hp, hx, hfree⟩ := hr.record
    refine ⟨k, hk, _, ⟨hx, ?_⟩, ?_⟩
    · simp [DirEntry.links, hfree, hdots]
    · rw [← hp]

theorem edge_iff_linked (hlive : t.ibit d = true) (hdir : (t.ino d).fileType = .directory) :
    t.graph.edge d p i ↔ ∃ e, (p, e) ∈ t.linked d ∧ e.inode = i := by
  simp only [mem_linked hlive hdir, DirEntry.IsDots, not_or]
  constructor
  · rintro ⟨e, hr, h1, h2, hi⟩
    exact ⟨e, ⟨hr, h1, h2⟩, hi⟩
  · rintro ⟨e, ⟨hr, h1, h2⟩, hi⟩
    exact ⟨e, hr, h1, h2, hi⟩

/-- No place is listed twice. -/
theorem linked_nodup (hnd : (t.content d).Nodup) : (t.linked d).Nodup := by
  refine List.nodup_flatMap.mpr ⟨fun k hk => ?_, ?_⟩
  · have hsorted : (t.recordsAt d k).Pairwise fun x y => x.1 < y.1 :=
      Block.recordsFrom_sorted _ _
    have hrecords : (t.recordsAt d k).Nodup := by
      refine hsorted.imp ?_
      rintro x y hlt rfl
      exact Nat.lt_irrefl _ hlt
    refine (hrecords.filter _).map fun x y hxy => ?_
    obtain ⟨hplace, hentry⟩ := Prod.mk.inj hxy
    exact Prod.ext (Prod.mk.inj hplace).2 hentry
  · have hblocks : ((List.range (t.ino d).blocks).map ((t.ino d).blockAt t.data)).Nodup := hnd
    rw [List.Nodup, List.pairwise_map] at hblocks
    refine hblocks.imp fun hne => ?_
    intro x hx hy
    obtain ⟨y, -, hxy⟩ := List.mem_map.mp hx
    obtain ⟨z, -, hxz⟩ := List.mem_map.mp hy
    have heq := hxy.trans hxz.symm
    exact hne (Prod.mk.inj (Prod.mk.inj heq).1).1

/-- The records of the directory are arranged as the checker passes over them: the dots in
front are directories, and there are no other dots. -/
structure Arranged (t : View) (d : Nat) : Prop where
  front : ∀ k < (t.ino d).blocks, ∀ x ∈ (t.recordsAt d k).take (dotCount k),
    x.2.isFree = false → x.2.fileType = .directory ∧ x.2.IsDots
  behind : ∀ k < (t.ino d).blocks, ∀ x ∈ (t.recordsAt d k).drop (dotCount k),
    x.2.isFree = false → ¬ x.2.IsDots

theorem subdirs_eq : t.subdirs d = (List.range (t.ino d).blocks).flatMap fun k =>
    dirsOf ((t.recordsAt d k).drop (dotCount k)) := by
  simp only [subdirs, Block.dirs, behindDots_eq]
  rfl

theorem Arranged.perm (h : t.Arranged d) :
    (t.leaves d ++ t.subdirs d).Perm ((t.linked d).map (·.2.inode)) := by
  rw [subdirs_eq]
  refine (List.flatMap_append_perm _ _ _).trans ?_
  rw [linked, List.map_flatMap]
  refine List.Perm.flatMap_left _ fun k hk => ?_
  have hk := List.mem_range.mp hk
  rw [List.map_map]
  exact leaves_dirs_perm (h.front k hk) (h.behind k hk)

theorem Arranged.mem_iff (h : t.Arranged d) (hlive : t.ibit d = true)
    (hdir : (t.ino d).fileType = .directory) :
    i ∈ t.leaves d ∨ i ∈ t.subdirs d ↔ ∃ p, t.graph.edge d p i := by
  rw [← List.mem_append, h.perm.mem_iff, List.mem_map]
  simp only [edge_iff_linked hlive hdir]
  constructor
  · rintro ⟨⟨p, e⟩, hx, hi⟩
    exact ⟨p, e, hx, hi⟩
  · rintro ⟨p, e, hx, hi⟩
    exact ⟨(p, e), hx, hi⟩

theorem mem_leaves : i ∈ t.leaves d ↔ ∃ k < (t.ino d).blocks, ∃ x ∈ t.recordsAt d k,
    x.2.isFree = false ∧ x.2.fileType ≠ .directory ∧ x.2.inode = i := by
  simp only [leaves, List.mem_flatMap, List.mem_range, Block.leaves, mem_leavesOf]
  rfl

theorem mem_subdirs : i ∈ t.subdirs d ↔ ∃ k < (t.ino d).blocks,
    ∃ x ∈ (t.recordsAt d k).drop (dotCount k),
      x.2.isFree = false ∧ x.2.fileType = .directory ∧ x.2.inode = i := by
  simp only [subdirs_eq, List.mem_flatMap, List.mem_range, mem_dirsOf]

/-- What a directory lists it has a record of. -/
theorem rec_of_listed (hlive : t.ibit d = true) (hdir : (t.ino d).fileType = .directory)
    (hi : i ∈ t.leaves d ∨ i ∈ t.subdirs d) : ∃ p e, t.Rec d p e ∧ e.inode = i := by
  rcases hi with hi | hi
  · obtain ⟨k, hk, x, hx, hfree, -, rfl⟩ := mem_leaves.mp hi
    exact ⟨_, _, rec_of_record hlive hdir hk hx hfree, rfl⟩
  · obtain ⟨k, hk, x, hx, hfree, -, rfl⟩ := mem_subdirs.mp hi
    exact ⟨_, _, rec_of_record hlive hdir hk (List.mem_of_mem_drop hx) hfree, rfl⟩

/-- What the checker asks of a filesystem that keeps the invariant. -/
structure Consistent (inodes cap : Nat) (t : View) : Prop where
  reached : ∀ i, t.ibit i = true → t.Reach i
  plain : ∀ i, t.ibit i = true → (t.ino i).fileType = .directory ∨ (t.ino i).fileType = .file
  typed : ∀ {d p e}, t.Rec d p e →
    (e.fileType = .directory ↔ (t.ino e.inode).fileType = .directory)
  ordered : ∀ d, t.ibit d = true → (t.ino d).fileType = .directory → ∀ k < (t.ino d).blocks,
    (t.data ((t.ino d).blockAt t.data k)).InOrder inodes (decide (k = 0))
  dots : ∀ d, t.ibit d = true → (t.ino d).fileType = .directory → ∀ k < (t.ino d).blocks,
    ∀ x ∈ (t.recordsAt d k).drop (dotCount k), x.2.isFree = false → ¬ x.2.IsDots
  once : ∀ i, t.ibit i = true → (t.ino i).fileType = .file → (t.ino i).blocks ≠ 0 →
    ∀ {d p d' p'}, t.graph.edge d p i → t.graph.edge d' p' i → d = d' ∧ p = p'
  blocks : ∀ b < cap, t.dbit b = true → ∃ i, t.ibit i = true ∧ b ∈ t.content i

/-- A record called `..` of a reachable directory names a directory. -/
theorem up_dir (h : t.graph.Sound 0) (hd : t.Reach d) (hr : t.Rec d p e)
    (hl : e.label = [dot, dot]) :
    t.Reach e.inode ∧ (t.ino e.inode).fileType = .directory ∧
      (d = 0 ∧ e.inode = 0 ∨ ∃ p, t.graph.edge e.inode p d) := by
  obtain ⟨hq, hcases⟩ := Lib.Namespace.Reach.up h hd ⟨p, e, hr, hl, rfl⟩
  refine ⟨hq, ?_, hcases⟩
  rcases hcases with ⟨-, hq0⟩ | ⟨p', e', hr', -⟩
  · rw [hq0]
    exact h.root_dir
  · exact hr'.dir

/-- What a reachable directory lists is reachable. -/
theorem reach_of_listed (h : t.graph.Sound 0)
    (hself : ∀ {d p e}, t.Rec d p e → e.label = [dot] → e.inode = d) (hd : t.Reach d)
    (hdir : (t.ino d).fileType = .directory) (hi : i ∈ t.leaves d ∨ i ∈ t.subdirs d) :
    t.Reach i := by
  obtain ⟨p, e, hr, rfl⟩ := rec_of_listed (Lib.Namespace.Reach.live h hd) hdir hi
  by_cases h1 : e.label = [dot]
  · rw [hself hr h1]
    exact hd
  by_cases h2 : e.label = [dot, dot]
  · exact (up_dir h hd hr h2).1
  · exact .step hd ⟨e, hr, h1, h2, rfl⟩

/-- What is met on the way down is reachable. -/
theorem Walked.reach (h : t.graph.Sound 0)
    (hself : ∀ {d p e}, t.Rec d p e → e.label = [dot] → e.inode = d) (hi : t.Walked i) :
    t.Reach i := by
  induction hi with
  | root => exact .root
  | step _ _ hdir hi ih => exact reach_of_listed h hself ih hdir hi

end View

namespace Geom

variable {g : Geom} {gaps : Bool} {t : St} {ns xs : List Nat} {d i : Nat} {p : Nat × Nat}
  {e : DirEntry}

/-- What is met on the way down can be looked up. -/
theorem Inv.legible (h : g.Inv gaps t) (hbits : ∀ i, t.ibit i = true →
    i < 2048 * g.inodeBitmapBlocks) : g.Legible t.toView where
  inode _ hi _ := hbits _ (Lib.Namespace.Reach.live h.graph (hi.reach h.graph h.self))
  block _ hi hb := absurd ((h.mapped hi).content _ hb) (Nat.lt_irrefl _)

/-! ## From the walk -/

namespace Verified

theorem reach (h : g.Verified t ns xs) (hinv : g.Inv gaps t) (hi : i ∈ xs) : t.Reach i := by
  refine h.walk.induct (fun d hd => ?_) (fun d hd hreach j hj => ?_) i hi
  · rw [List.mem_singleton.mp hd]
    exact .root
  · exact View.reach_of_listed hinv.graph hinv.self hreach (h.dirs d hd).dir hj

theorem mem (h : g.Verified t ns xs) (hinv : g.Inv gaps t) (hi : t.ibit i = true) : i ∈ xs :=
  h.inodes i (hinv.lt hi) hi

/-- The walk comes to directories as such. -/
theorem mem_dirs (h : g.Verified t ns xs) (hinv : g.Inv gaps t) (hi : t.ibit i = true)
    (hdir : (t.ino i).fileType = .directory) : i ∈ ns := by
  rcases h.walk.mem_iff.mp (h.mem hinv hi) with hroot | ⟨d, hd, hleaf | hsub⟩
  · exact h.walk.mem_of_mem hroot
  · have hfile := (h.dirs d hd).files i hleaf
    rw [hdir] at hfile
    cases hfile
  · exact h.walk.mem_inner_iff.mpr (.inr ⟨d, hd, hsub⟩)

theorem typed (h : g.Verified t ns xs) (hinv : g.Inv gaps t) (hr : t.Rec d p e) :
    e.fileType = .directory ↔ (t.ino e.inode).fileType = .directory := by
  have hd := h.mem_dirs hinv hr.live hr.dir
  obtain ⟨k, hk, -, hx, hfree⟩ := hr.record
  have hleaf : e.fileType ≠ .directory → (t.ino e.inode).fileType = .file := by
    intro hne
    exact (h.dirs d hd).files _ (View.mem_leaves.mpr ⟨k, hk, _, hx, hfree, hne, rfl⟩)
  constructor
  · intro htype
    by_cases h1 : e.label = [dot]
    · rw [hinv.self hr h1]
      exact hr.dir
    by_cases h2 : e.label = [dot, dot]
    · exact (View.up_dir hinv.graph (h.reach hinv (h.walk.subset hd)) hr h2).2.1
    -- other records are not among the first two
    have hbehind : (p.2, e) ∈ (t.recordsAt d k).drop (dotCount k) := by
      rw [← List.take_append_drop (dotCount k) (t.recordsAt d k)] at hx
      rcases List.mem_append.mp hx with hx | hx
      · exact absurd (((h.dirs d hd).ordered k hk).isDots hx) (not_or.mpr ⟨h1, h2⟩)
      · exact hx
    have hsub : e.inode ∈ t.subdirs d :=
      View.mem_subdirs.mpr ⟨k, hk, (p.2, e), hbehind, hfree, htype, rfl⟩
    exact (h.dirs _ (h.walk.mem_inner_iff.mpr (.inr ⟨d, hd, hsub⟩))).dir
  · intro hdir
    by_contra hne
    rw [hleaf hne] at hdir
    cases hdir

/-- A link to a directory is one of the records that are looked at. -/
theorem mem_subdirs (h : g.Verified t ns xs) (hinv : g.Inv gaps t) (he : t.graph.edge d p i)
    (hdir : (t.ino i).fileType = .directory) : i ∈ t.subdirs d := by
  obtain ⟨e, hr, h1, h2, rfl⟩ := he
  have hd := h.mem_dirs hinv hr.live hr.dir
  obtain ⟨k, hk, -, hx, hfree⟩ := hr.record
  refine View.mem_subdirs.mpr ⟨k, hk, (p.2, e), ?_, hfree, (h.typed hinv hr).mpr hdir, rfl⟩
  rw [← List.take_append_drop (dotCount k) (t.recordsAt d k)] at hx
  rcases List.mem_append.mp hx with hx | hx
  · exact absurd (((h.dirs d hd).ordered k hk).isDots hx) (not_or.mpr ⟨h1, h2⟩)
  · exact hx

/-- The walk would not end below dots that are looked at. -/
theorem dots (h : g.Verified t ns xs) (hinv : g.Inv gaps t) (hd : d ∈ ns) {k : Nat}
    (hk : k < (t.ino d).blocks) {x : Nat × DirEntry}
    (hx : x ∈ (t.recordsAt d k).drop (dotCount k)) (hfree : x.2.isFree = false) :
    ¬ x.2.IsDots := by
  intro hdots
  have hdir := (h.dirs d hd).dir
  have hlive := (h.checked d (h.walk.subset hd)).live
  have hr := View.rec_of_record hlive hdir hk (List.mem_of_mem_drop hx) hfree
  have hsub : (t.ino x.2.inode).fileType = .directory → x.2.inode ∈ t.subdirs d := fun hd =>
    View.mem_subdirs.mpr ⟨k, hk, x, hx, hfree, (h.typed hinv hr).mpr hd, rfl⟩
  rcases hdots with h1 | h2
  · have hself := hinv.self hr h1
    rw [hself] at hsub
    exact h.walk.not_self hd (.single (hsub hdir))
  · obtain ⟨-, hqdir, ⟨rfl, hq⟩ | ⟨p, he⟩⟩ :=
      View.up_dir hinv.graph (h.reach hinv (h.walk.subset hd)) hr h2
    · rw [hq] at hsub
      exact h.walk.not_self hd (.single (hsub hdir))
    · have hback := h.mem_subdirs hinv he hdir
      exact h.walk.not_self hd (.tail (.single (hsub hqdir)) hback)

theorem arranged (h : g.Verified t ns xs) (hinv : g.Inv gaps t) (hd : d ∈ ns) :
    t.Arranged d where
  front := by
    intro k hk x hx hfree
    have hdots := ((h.dirs d hd).ordered k hk).isDots hx
    have hlive := (h.checked d (h.walk.subset hd)).live
    have hr := View.rec_of_record hlive (h.dirs d hd).dir hk (List.mem_of_mem_take hx) hfree
    refine ⟨(h.typed hinv hr).mpr ?_, hdots⟩
    rcases hdots with h1 | h2
    · rw [hinv.self hr h1]
      exact hr.dir
    · exact (View.up_dir hinv.graph (h.reach hinv (h.walk.subset hd)) hr h2).2.1
  behind _ hk _ hx hfree := h.dots hinv hd hk hx hfree

/-- An inode with blocks is met once. -/
theorem once (h : g.Verified t ns xs) (hinv : g.Inv gaps t) (hne : (t.ino i).blocks ≠ 0)
    {d' : Nat} {p' : Nat × Nat} (he : t.graph.edge d p i) (he' : t.graph.edge d' p' i) :
    d = d' ∧ p = p' := by
  have hblock : (t.ino i).blockAt t.data 0 ∈ t.content i :=
    INode.blockAt_mem_content (Nat.pos_of_ne_zero hne)
  have hmet : xs.count i ≤ 1 :=
    Nat.le_trans (Preorder.count_le_flatMap hblock) (List.nodup_iff_count_le_one.mp h.nodup _)
  let met := ns.flatMap fun d => (t.linked d).map fun x => ((d, x.1), x.2.inode)
  have hperm : (ns.flatMap fun d => t.leaves d ++ t.subdirs d).Perm (met.map Prod.snd) := by
    rw [List.map_flatMap]
    refine List.Perm.flatMap_left _ fun d hd => ?_
    rw [List.map_map]
    exact (h.arranged hinv hd).perm
  have hmem : ∀ {d p}, t.graph.edge d p i → ((d, p), i) ∈ met := by
    intro d p he
    obtain ⟨e, hr, h1, h2, hi⟩ := he
    refine List.mem_flatMap.mpr ⟨d, h.mem_dirs hinv hr.live hr.dir, ?_⟩
    refine List.mem_map.mpr ⟨(p, e), ?_, by rw [hi]⟩
    exact (View.mem_linked hr.live hr.dir).mpr ⟨hr, not_or.mpr ⟨h1, h2⟩⟩
  by_contra hdiff
  have htwo := Preorder.two_le_count (hmem he) (hmem he') fun heq => hdiff (Prod.mk.inj heq)
  rw [← hperm.count_eq] at htwo
  rw [h.walk.perm.count_eq, List.count_append] at hmet
  omega

theorem consistent (h : g.Verified t ns xs) (hinv : g.Inv gaps t) :
    t.Consistent g.inodes g.cap where
  reached _ hi := h.reach hinv (h.mem hinv hi)
  plain := by
    intro i hi
    rcases h.walk.mem_iff.mp (h.mem hinv hi) with hroot | ⟨d, hd, hleaf | hsub⟩
    · exact .inl (h.dirs i (h.walk.mem_of_mem hroot)).dir
    · exact .inr ((h.dirs d hd).files i hleaf)
    · exact .inl (h.dirs i (h.walk.mem_inner_iff.mpr (.inr ⟨d, hd, hsub⟩))).dir
  typed hr := h.typed hinv hr
  ordered d hd hdir := (h.dirs d (h.mem_dirs hinv hd hdir)).ordered
  dots _ hd hdir _ hk _ hx hfree := h.dots hinv (h.mem_dirs hinv hd hdir) hk hx hfree
  once _ _ _ hne _ _ _ _ he he' := h.once hinv hne he he'
  blocks := by
    intro b hlt hb
    obtain ⟨i, hi, hb⟩ := List.mem_flatMap.mp (h.blocks b hlt hb)
    exact ⟨i, (h.checked i hi).live, hb⟩

end Verified

/-! ## To the walk -/

section Consistent

variable (h : t.Consistent g.inodes g.cap) (hinv : g.Inv gaps t)

include h hinv

theorem arranged_of_consistent (hd : t.ibit d = true)
    (hdir : (t.ino d).fileType = .directory) : t.Arranged d where
  front := by
    intro k hk x hx hfree
    have hdots := (h.ordered d hd hdir k hk).isDots hx
    have hr := View.rec_of_record hd hdir hk (List.mem_of_mem_take hx) hfree
    refine ⟨(h.typed hr).mpr ?_, hdots⟩
    rcases hdots with h1 | h2
    · rw [hinv.self hr h1]
      exact hdir
    · exact (View.up_dir hinv.graph (h.reached d hd) hr h2).2.1
  behind := h.dots d hd hdir

/-- The subdirectories are the directories that are linked. -/
theorem dirStep_of_subdir (hd : t.ibit d = true) (hdir : (t.ino d).fileType = .directory)
    (hi : i ∈ t.subdirs d) : t.ibit i = true ∧ t.graph.DirStep d i := by
  have harr := arranged_of_consistent h hinv hd hdir
  obtain ⟨p, he⟩ := (harr.mem_iff hd hdir).mp (.inr hi)
  refine ⟨hinv.graph.target_live he, ?_, p, he⟩
  obtain ⟨k, hk, x, hx, hfree, htype, rfl⟩ := View.mem_subdirs.mp hi
  exact (h.typed (View.rec_of_record hd hdir hk (List.mem_of_mem_drop hx) hfree)).mp htype

/-- The leaves are files. -/
theorem file_of_leaf (hd : t.ibit d = true) (hdir : (t.ino d).fileType = .directory)
    (hi : i ∈ t.leaves d) : t.ibit i = true ∧ (t.ino i).fileType = .file := by
  have harr := arranged_of_consistent h hinv hd hdir
  obtain ⟨p, he⟩ := (harr.mem_iff hd hdir).mp (.inl hi)
  have hlive : t.ibit i = true := hinv.graph.target_live he
  refine ⟨hlive, (h.plain i hlive).resolve_left ?_⟩
  obtain ⟨k, hk, x, hx, hfree, hne, rfl⟩ := View.mem_leaves.mp hi
  exact mt (h.typed (View.rec_of_record hd hdir hk hx hfree)).mpr hne

/-- Without cycles the walk comes to an end. -/
theorem walk_of_consistent (hacyclic : t.graph.Acyclic) : ∃ ns xs, t.Walk [0] ns xs ∧
    ∀ d ∈ ns, t.ibit d = true ∧ (t.ino d).fileType = .directory := by
  let inner d := if t.ibit d = true ∧ (t.ino d).fileType = .directory then t.subdirs d else []
  have hinner : ∀ {d i}, i ∈ inner d → t.ibit i = true ∧ t.graph.DirStep d i := by
    intro d i hi
    simp only [inner] at hi
    split at hi
    · rename_i hd
      exact dirStep_of_subdir h hinv hd.1 hd.2 hi
    · cases hi
  have hpath : ∀ {d i}, Relation.TransGen (fun p i => i ∈ inner p) d i →
      Relation.TransGen t.graph.DirStep d i :=
    fun hp => hp.lift id fun _ _ hi => (hinner hi).2
  obtain ⟨ns, xs, hwalk⟩ := @Preorder.exists_of_acyclic inner t.leaves g.inodes
    (fun d i hi => hinv.lt (hinner hi).1) (fun d hp => hacyclic d (hpath hp)) [0]
  have hdirs : ∀ d ∈ ns, t.ibit d = true ∧ (t.ino d).fileType = .directory := by
    intro d hd
    rcases hwalk.mem_inner_iff.mp hd with hroot | ⟨q, -, hi⟩
    · rw [List.mem_singleton.mp hroot]
      exact ⟨hinv.graph.root_live, hinv.graph.root_dir⟩
    · exact ⟨(hinner hi).1, (hinner hi).2.1⟩
  refine ⟨ns, xs, hwalk.congr fun d hd => ?_, hdirs⟩
  simp only [inner, if_pos (hdirs d hd)]

omit h hinv in
/-- A directory has one link. -/
theorem once_of_dir (hgraph : t.graph.Sound 0) (hi : t.ibit i = true)
    (hdir : (t.ino i).fileType = .directory) {d' : Nat} {p' : Nat × Nat}
    (he : t.graph.edge d p i) (he' : t.graph.edge d' p' i) : d = d' ∧ p = p' := by
  by_contra hne
  have hpair : [(d, p), (d', p')].Nodup := by
    simpa using hne
  have hle := hgraph.count i hi [(d, p), (d', p')] hpair (by
    intro x hx
    simp only [List.mem_cons, List.not_mem_nil, or_false] at hx
    rcases hx with rfl | rfl
    · exact he
    · exact he')
  rw [hgraph.dir_links i hi hdir] at hle
  simp at hle

variable (hwalk : t.Walk [0] ns xs)
  (hdirs : ∀ d ∈ ns, t.ibit d = true ∧ (t.ino d).fileType = .directory)

include hdirs

/-- The directories of the walk list what they have links to. -/
theorem listed_iff (hd : d ∈ ns) : i ∈ t.leaves d ∨ i ∈ t.subdirs d ↔ ∃ p, t.graph.edge d p i :=
  (arranged_of_consistent h hinv (hdirs d hd).1 (hdirs d hd).2).mem_iff (hdirs d hd).1
    (hdirs d hd).2

/-- An inode with one link is listed once in its directory. -/
theorem count_listed_le (hd : d ∈ ns) (hone : ∀ {d p d' p'}, t.graph.edge d p i →
    t.graph.edge d' p' i → d = d' ∧ p = p') : (t.leaves d ++ t.subdirs d).count i ≤ 1 := by
  obtain ⟨hlive, hdir⟩ := hdirs d hd
  rw [(arranged_of_consistent h hinv hlive hdir).perm.count_eq]
  refine Preorder.count_le_one (View.linked_nodup ?_) ?_
  · exact (List.nodup_append.mp (hinv.owning.owns.nodup d hlive)).1
  · rintro ⟨p, e⟩ ha ⟨p', e'⟩ hb hi hi'
    obtain ⟨hr, hdots⟩ := (View.mem_linked hlive hdir).mp ha
    obtain ⟨hr', hdots'⟩ := (View.mem_linked hlive hdir).mp hb
    obtain ⟨h1, h2⟩ := not_or.mp hdots
    obtain ⟨h1', h2'⟩ := not_or.mp hdots'
    obtain ⟨-, rfl⟩ := hone ⟨e, hr, h1, h2, hi⟩ ⟨e', hr', h1', h2', hi'⟩
    rw [hr.unique hr']

include hwalk

theorem live_of_met (hi : i ∈ xs) : t.ibit i = true := by
  rcases hwalk.mem_iff.mp hi with hroot | ⟨d, hd, hi⟩
  · rw [List.mem_singleton.mp hroot]
    exact hinv.graph.root_live
  · obtain ⟨p, he⟩ := (listed_iff h hinv hdirs hd).mp hi
    exact hinv.graph.target_live he

theorem met_of_live (hi : t.ibit i = true) : i ∈ xs := by
  induction h.reached i hi with
  | root => exact hwalk.mem_iff.mpr (.inl (List.mem_singleton.mpr rfl))
  | @step d p i _ he ih =>
      obtain ⟨e, hr, -⟩ := id he
      -- a directory that is met is walked through
      have hd : d ∈ ns := by
        rcases hwalk.mem_iff.mp (ih hr.live) with hroot | ⟨q, hq, hleaf | hsub⟩
        · exact hwalk.mem_of_mem hroot
        · have hfile := (file_of_leaf h hinv (hdirs q hq).1 (hdirs q hq).2 hleaf).2
          rw [hr.dir] at hfile
          cases hfile
        · exact hwalk.mem_inner_iff.mpr (.inr ⟨q, hq, hsub⟩)
      exact hwalk.mem_iff.mpr (.inr ⟨d, hd, (listed_iff h hinv hdirs hd).mpr ⟨p, he⟩⟩)

/-- No directory is walked through twice. -/
theorem dirs_nodup : ns.Nodup := by
  have hstep : ∀ {d i}, d ∈ ns → i ∈ t.subdirs d → t.ibit i = true ∧ t.graph.DirStep d i :=
    fun hd hi => dirStep_of_subdir h hinv (hdirs _ hd).1 (hdirs _ hd).2 hi
  refine hwalk.nodup (fun d hd h0 => ?_) (fun d hd e he i hi hi' => ?_) (fun d hd => ?_)
  · obtain ⟨-, -, p, hedge⟩ := hstep hd h0
    exact hinv.graph.target_ne_root hedge rfl
  · obtain ⟨hlive, hdir, p, hp⟩ := hstep hd hi
    obtain ⟨-, -, p', hp'⟩ := hstep he hi'
    exact (once_of_dir hinv.graph hlive hdir hp hp').1
  · refine List.nodup_iff_count_le_one.mpr fun i => ?_
    by_cases hi : i ∈ t.subdirs d
    · obtain ⟨hlive, hdir, -⟩ := hstep hd hi
      have hle := count_listed_le h hinv hdirs hd
        (fun he he' => once_of_dir hinv.graph hlive hdir he he')
      rw [List.count_append] at hle
      omega
    · rw [List.count_eq_zero.mpr hi]
      exact Nat.zero_le _

/-- An inode with one link is met once. -/
theorem count_met_le (hi : i ∈ xs) (hone : ∀ {d p d' p'}, t.graph.edge d p i →
    t.graph.edge d' p' i → d = d' ∧ p = p') : xs.count i ≤ 1 := by
  rw [hwalk.perm.count_eq, List.count_append]
  by_cases hroot : i = 0
  · subst hroot
    have hzero : (ns.flatMap fun d => t.leaves d ++ t.subdirs d).count 0 = 0 := by
      refine List.count_eq_zero.mpr fun h0 => ?_
      obtain ⟨d, hd, h0⟩ := List.mem_flatMap.mp h0
      obtain ⟨p, hedge⟩ := (listed_iff h hinv hdirs hd).mp (List.mem_append.mp h0)
      exact hinv.graph.target_ne_root hedge rfl
    rw [hzero]
    exact List.count_le_length
  · rcases hwalk.mem_iff.mp hi with h0 | ⟨q, hq, hiq⟩
    · exact absurd (List.mem_singleton.mp h0) hroot
    · obtain ⟨p, hp⟩ := (listed_iff h hinv hdirs hq).mp hiq
      have hother : ∀ d ∈ ns, i ∈ t.leaves d ++ t.subdirs d → d = q := by
        intro d hd hid
        obtain ⟨p', hp'⟩ := (listed_iff h hinv hdirs hd).mp (List.mem_append.mp hid)
        exact (hone hp' hp).1
      have hle := Preorder.count_flatMap_le hother (count_listed_le h hinv hdirs hq hone)
      have hns := List.nodup_iff_count_le_one.mp (dirs_nodup h hinv hwalk hdirs) q
      rw [List.count_cons_of_ne (Ne.symm hroot), List.count_nil]
      omega

/-- No block is met twice. -/
theorem content_nodup_of_walk : (xs.flatMap t.content).Nodup := by
  refine List.nodup_iff_count_le_one.mpr fun b => ?_
  by_cases hb : b ∈ xs.flatMap t.content
  · obtain ⟨i, hi, hbi⟩ := List.mem_flatMap.mp hb
    have hl := live_of_met h hinv hwalk hdirs hi
    obtain ⟨k, hk, -⟩ := INode.mem_content.mp hbi
    have hnd : (t.content i).Nodup := (List.nodup_append.mp (hinv.owning.owns.nodup i hl)).1
    have howner : ∀ j ∈ xs, b ∈ t.content j → j = i := by
      intro j hj hbj
      exact hinv.owning.owner_unique (live_of_met h hinv hwalk hdirs hj) hl
        (List.mem_append_left _ hbj) (List.mem_append_left _ hbi)
    have hle := Preorder.count_flatMap_le howner (List.nodup_iff_count_le_one.mp hnd b)
    refine Nat.le_trans hle (count_met_le h hinv hwalk hdirs hi ?_)
    rcases h.plain i hl with hdir | hfile
    · exact fun he he' => once_of_dir hinv.graph hl hdir he he'
    · exact h.once i hl hfile (Nat.ne_of_gt (Nat.lt_of_le_of_lt (Nat.zero_le _) hk))
  · rw [List.count_eq_zero.mpr hb]
    exact Nat.zero_le _

end Consistent

/-- The walk of a consistent filesystem is what the checker looks for. -/
theorem verified_of_consistent (h : t.Consistent g.inodes g.cap) (hinv : g.Inv gaps t)
    (hacyclic : t.graph.Acyclic)
    (hfreeInodes : t.freeInodes = (List.range g.inodes).countP fun i => !t.ibit i)
    (hfreeData : t.freeData = (List.range g.cap).countP fun b => !t.dbit b) :
    ∃ ns xs, g.Verified t ns xs := by
  obtain ⟨ns, xs, hwalk, hdirs⟩ := walk_of_consistent h hinv hacyclic
  refine ⟨ns, xs, hwalk, fun i hi => ?_, fun d hd => ?_, ?_, fun i _ hi => ?_, ?_, hfreeInodes,
    hfreeData⟩
  · have hl := live_of_met h hinv hwalk hdirs hi
    exact ⟨hl, hinv.lt hl, hinv.mapped hl,
      fun b hb => hinv.owning.owns.marked i hl b (List.mem_append_left _ hb)⟩
  · obtain ⟨hd, hdir⟩ := hdirs d hd
    exact ⟨hdir, h.ordered d hd hdir, fun i hi => (file_of_leaf h hinv hd hdir hi).2⟩
  · exact content_nodup_of_walk h hinv hwalk hdirs
  · exact met_of_live h hinv hwalk hdirs hi
  · intro b hlt hb
    obtain ⟨i, hi, hbi⟩ := h.blocks b hlt hb
    exact List.mem_flatMap.mpr ⟨i, met_of_live h hinv hwalk hdirs hi, hbi⟩

/-- For a filesystem that keeps the invariant the walk says no more than this. -/
theorem verified_iff (hinv : g.Inv gaps t) (hacyclic : t.graph.Acyclic) :
    (∃ ns xs, g.Verified t ns xs) ↔ t.Consistent g.inodes g.cap ∧
      t.freeInodes = (List.range g.inodes).countP (fun i => !t.ibit i) ∧
      t.freeData = (List.range g.cap).countP fun b => !t.dbit b := by
  constructor
  · rintro ⟨ns, xs, h⟩
    exact ⟨h.consistent hinv, h.freeInodes, h.freeData⟩
  · rintro ⟨h, hfreeInodes, hfreeData⟩
    exact verified_of_consistent h hinv hacyclic hfreeInodes hfreeData

end Geom

end FerrisFS
