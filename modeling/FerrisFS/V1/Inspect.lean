import FerrisFS.V1.Checks
import FerrisFS.V1.WellFormed

/-!
# Looking at a state

The live records of a mounted filesystem as a list. What the definitions of
well-formedness say of records they say of this list, so that they can be decided on a
state with few inodes. Directories are looked for in the root only.
-/

namespace FerrisFS

open Lib

/-- A live record with its directory and its place. -/
structure Seen where
  dir : Nat
  place : Nat × Nat
  entry : DirEntry
  deriving DecidableEq

namespace Seen

/-- The record is neither `.` nor `..`. -/
def Proper (x : Seen) : Prop := x.entry.label ≠ [dot] ∧ x.entry.label ≠ [dot, dot]

instance (x : Seen) : Decidable x.Proper :=
  inferInstanceAs (Decidable (_ ∧ _))

end Seen

/-- The live records of block `b` of directory `d`. -/
def Block.seen (b : Block) (d i : Nat) : List Seen :=
  b.slots.filterMap fun x =>
    match x.2 with
    | .live e => some ⟨d, (i, x.1), e⟩
    | .free _ => none

namespace FFS

/-- The live records of the allocated directories. -/
def records (s : FFS) : List Seen :=
  (List.range s.format.inodeAllocator.maxIndex).flatMap fun d =>
    if s.view.ibit d = true ∧ (s.view.ino d).fileType = .directory then
      (s.view.content d).flatMap fun i => (s.view.data i).seen d i
    else []

/-- The inode bitmap has no bit past its end. -/
def Bounded (s : FFS) : Prop :=
  ∀ d, s.view.ibit d = true → d < s.format.inodeAllocator.maxIndex

variable {s : FFS} {d i : Nat} {k : Nat × Nat} {e : DirEntry}

theorem mem_seen {b : Block} {x : Seen} :
    x ∈ b.seen d i ↔ x.dir = d ∧ x.place.1 = i ∧ (x.place.2, Slot.live x.entry) ∈ b.slots := by
  unfold Block.seen
  rw [List.mem_filterMap]
  constructor
  · intro h
    obtain ⟨⟨off, slot⟩, hmem, heq⟩ := h
    cases slot with
    | live e =>
        cases heq
        exact ⟨rfl, rfl, hmem⟩
    | free len => cases heq
  · intro h
    obtain ⟨rfl, rfl, hmem⟩ := h
    exact ⟨_, hmem, rfl⟩

theorem mem_records_of_lt (hd : d < s.format.inodeAllocator.maxIndex) (h : s.view.Rec d k e) :
    ⟨d, k, e⟩ ∈ s.records := by
  refine List.mem_flatMap.mpr ⟨d, List.mem_range.mpr hd, ?_⟩
  rw [if_pos ⟨h.live, h.dir⟩]
  exact List.mem_flatMap.mpr ⟨k.1, h.block, mem_seen.mpr ⟨rfl, rfl, h.slot⟩⟩

theorem mem_records (hb : s.Bounded) {x : Seen} :
    x ∈ s.records ↔ s.view.Rec x.dir x.place x.entry := by
  constructor
  · intro h
    obtain ⟨d, -, h⟩ := List.mem_flatMap.mp h
    split at h
    · rename_i hd
      obtain ⟨i, hi, hx⟩ := List.mem_flatMap.mp h
      obtain ⟨rfl, rfl, hslot⟩ := mem_seen.mp hx
      exact ⟨hd.1, hd.2, hi, hslot⟩
    · cases h
  · intro h
    exact mem_records_of_lt (hb x.dir h.live) h

theorem mem_records_of_rec (hb : s.Bounded) (h : s.view.Rec d k e) : ⟨d, k, e⟩ ∈ s.records :=
  mem_records_of_lt (hb d h.live) h

/-! ## Well-formedness, decided -/

/-- The live records name allocated inodes of the recorded type, and no two of a directory
have one name. -/
structure TypedRecords (s : FFS) : Prop where
  typed : ∀ x ∈ s.records, s.view.ibit x.entry.inode = true ∧
    (s.view.ino x.entry.inode).fileType = x.entry.fileType
  unique : ∀ x ∈ s.records, ∀ y ∈ s.records, x.dir = y.dir →
    x.entry.label = y.entry.label → x.place = y.place

/-- The directories are the root and directories in it. -/
structure ShallowTree (s : FFS) : Prop where
  root : s.view.ibit 0 = true ∧ (s.view.ino 0).fileType = .directory
  top : ∀ x ∈ s.records, x.Proper → x.entry.inode ≠ 0
  dirs : ∀ d < s.format.inodeAllocator.maxIndex, s.view.ibit d = true →
    (s.view.ino d).fileType = .directory → (s.view.ino d).links = 1 ∧
      (d = 0 ∨ ∃ x ∈ s.records, x.dir = 0 ∧ x.Proper ∧ x.entry.inode = d)
  once : ∀ x ∈ s.records, x.Proper → (s.view.ino x.entry.inode).fileType = .directory →
    ∀ y ∈ s.records, y.Proper → x.entry.inode = y.entry.inode →
      (x.dir, x.place) = (y.dir, y.place)
  self : ∀ x ∈ s.records, x.entry.label = [dot] → x.entry.inode = x.dir
  up : ∀ x ∈ s.records, x.entry.label = [dot, dot] → (x.dir = 0 → x.entry.inode = 0) ∧
    ∀ y ∈ s.records, y.Proper → y.entry.inode = x.dir → y.dir = x.entry.inode

/-- The places of the records that name `i`. -/
def places (s : FFS) (i : Nat) : List (Nat × Nat × Nat) :=
  (s.records.filter fun x => x.entry.inode = i).map fun x => (x.dir, x.place)

/-- Files have as many links as records. -/
def CountedFiles (s : FFS) : Prop :=
  ∀ i < s.format.inodeAllocator.maxIndex, s.view.ibit i = true →
    (s.view.ino i).fileType ≠ .directory →
      (s.places i).Nodup ∧ (s.places i).length = (s.view.ino i).links

instance : Decidable s.TypedRecords :=
  decidable_of_iff (_ ∧ _) ⟨fun h => ⟨h.1, h.2⟩, fun h => ⟨h.typed, h.unique⟩⟩

set_option synthInstance.maxSize 1024 in
instance : Decidable s.ShallowTree :=
  decidable_of_iff (_ ∧ _ ∧ _ ∧ _ ∧ _ ∧ _)
    ⟨fun h => ⟨h.1, h.2.1, h.2.2.1, h.2.2.2.1, h.2.2.2.2.1, h.2.2.2.2.2⟩,
      fun h => ⟨h.root, h.top, h.dirs, h.once, h.self, h.up⟩⟩

set_option synthInstance.maxSize 1024 in
instance : Decidable s.CountedFiles := inferInstanceAs (Decidable (∀ i < _, _))

/-- The state is well formed, and its directories are at most one deep. -/
def Shallow (s : FFS) : Prop := s.TypedRecords ∧ s.ShallowTree ∧ s.CountedFiles

instance : Decidable s.Shallow := inferInstanceAs (Decidable (_ ∧ _ ∧ _))

theorem TypedRecords.uniqueNames (h : s.TypedRecords) (hb : s.Bounded) : s.view.UniqueNames := by
  intro d k k' e e' hr hr' hl
  exact h.unique _ (mem_records_of_rec hb hr) _ (mem_records_of_rec hb hr') rfl hl

theorem TypedRecords.of_rec (h : s.TypedRecords) (hb : s.Bounded) (hr : s.view.Rec d k e) :
    s.view.ibit e.inode = true ∧ (s.view.ino e.inode).fileType = e.fileType :=
  h.typed _ (mem_records_of_rec hb hr)

theorem ShallowTree.tree (h : s.ShallowTree) (hb : s.Bounded) : s.view.Tree where
  root_live := h.root.1
  root_dir := h.root.2
  root_top := by
    intro hnamed
    obtain ⟨d, k, e, hr, h1, h2, hi⟩ := hnamed
    exact h.top _ (mem_records_of_rec hb hr) ⟨h1, h2⟩ hi
  reach := by
    intro d hd hdir
    obtain ⟨-, rfl | ⟨x, hx, hx0, hproper, rfl⟩⟩ := h.dirs d (hb d hd) hd hdir
    · exact .root
    · have hr := (mem_records hb).mp hx
      rw [hx0] at hr
      exact .step .root ⟨x.entry, hr, hproper.1, hproper.2, rfl⟩
  once := by
    intro d k d' k' i hdir he he'
    obtain ⟨e, hr, h1, h2, rfl⟩ := he
    obtain ⟨e', hr', h1', h2', hi⟩ := he'
    exact h.once _ (mem_records_of_rec hb hr) ⟨h1, h2⟩ hdir _ (mem_records_of_rec hb hr')
      ⟨h1', h2'⟩ hi.symm
  self := by
    intro d k e hr hl
    exact h.self _ (mem_records_of_rec hb hr) hl
  up_root := by
    intro q hu
    obtain ⟨k, e, hr, hl, rfl⟩ := hu
    exact (h.up _ (mem_records_of_rec hb hr) hl).1 rfl
  up_edge := by
    intro d q q' k hu he
    obtain ⟨k', e, hr, hl, rfl⟩ := hu
    obtain ⟨e', hr', h1, h2, hi⟩ := he
    exact (h.up _ (mem_records_of_rec hb hr) hl).2 _ (mem_records_of_rec hb hr') ⟨h1, h2⟩ hi
  dir_links := by
    intro d hd hdir
    exact (h.dirs d (hb d hd) hd hdir).1

theorem mem_places (hb : s.Bounded) :
    (d, k) ∈ s.places i ↔ ∃ e, s.view.Rec d k e ∧ e.inode = i := by
  unfold places
  simp only [List.mem_map, List.mem_filter, decide_eq_true_eq]
  constructor
  · intro h
    obtain ⟨x, ⟨hx, hi⟩, heq⟩ := h
    cases heq
    exact ⟨x.entry, (mem_records hb).mp hx, hi⟩
  · intro h
    obtain ⟨e, hr, hi⟩ := h
    exact ⟨⟨d, k, e⟩, ⟨mem_records_of_rec hb hr, hi⟩, rfl⟩

theorem CountedFiles.linksExact (h : s.CountedFiles) (hb : s.Bounded)
    (hi : s.view.ibit i = true) (hleaf : (s.view.ino i).fileType ≠ .directory) :
    s.view.LinksExact i := by
  obtain ⟨hnodup, hlen⟩ := h i (hb i hi) hi hleaf
  exact ⟨s.places i, hnodup, fun _ _ => mem_places hb, hlen⟩

end FFS

namespace Geom

variable {g : Geom} {gaps : Bool} {s : FFS} {t : St}

theorem Intact.bounded (h : g.Intact gaps t) (hs : g.Rep s t) : s.Bounded := by
  intro d hd
  rw [hs.view_eq] at hd
  rw [hs.2]
  exact h.lt hd

/-- A state that keeps the invariant, and whose records are right, is well formed. -/
theorem Intact.wellFormed (h : g.Intact false t) (hs : g.Rep s t) (ht : s.TypedRecords) :
    g.WellFormed t where
  cursors := h.cursors
  owning := h.owning
  parse := h.tidy
  typed := by
    intro d k e hr
    have htyped := @FFS.TypedRecords.of_rec s d k e ht (h.bounded hs)
    rw [hs.view_eq] at htyped
    exact htyped hr

theorem Intact.shallow (h : g.Intact false t) (hs : g.Rep s t) (hshallow : s.Shallow) :
    g.WellFormed t ∧ t.Tree ∧
      (∀ i, t.ibit i = true → (t.ino i).fileType ≠ .directory → t.LinksExact i) ∧
      t.UniqueNames := by
  have hb : s.Bounded := h.bounded hs
  obtain ⟨htyped, htree, hfiles⟩ := hshallow
  have htree := htree.tree hb
  have hunique : s.view.UniqueNames := htyped.uniqueNames hb
  have hlinks := fun i => @FFS.CountedFiles.linksExact s i hfiles hb
  rw [hs.view_eq] at htree hunique hlinks
  exact ⟨h.wellFormed hs htyped, htree, hlinks, hunique⟩

end Geom

/-! ## Runs without deletions -/

/-- Calls that delete nothing, and find their targets by path or by handle. -/
def Op.plain : Op → Bool
  | .delete _ _ | .deleteChild _ _ _ _ | .createChild _ _ _ _ | .createChildHardlink _ _ _ _ =>
      false
  | _ => true

/-- A plain call that leaves no remainder of 8 bytes. -/
def Op.Tame (s : FFS) (op : Op) : Prop := op.plain = true ∧ op.Snug s

instance {s : FFS} {op : Op} : Decidable (op.Tame s) := inferInstanceAs (Decidable (_ ∧ _))

theorem Op.Tame.careful {s : FFS} {op : Op} (h : op.Tame s) : op.Careful s := by
  constructor
  · cases op with
    | createChild => nomatch h.1
    | createChildHardlink => nomatch h.1
    | deleteChild => nomatch h.1
    | _ => trivial
  · intro i hdel
    cases hdel with
    | path => nomatch h.1
    | child => nomatch h.1

/-- The state after a run of tame calls on a formatted device. -/
theorem Geom.tame_run {s₀ s : FFS} {now : UInt64} {d : MemoryDevice}
    (hstart : start now d = some s₀) (hrun : Run (fun s op => op.Tame s) s₀ s) :
    ∃ (g : Geom) (t : St), g.totalBlocks = d.blockCount ∧ g.Rep s t ∧ g.Inv false t ∧
      t.Handled := by
  obtain ⟨g, t₀, hcount, hs₀, hinit⟩ := Geom.start_initial hstart
  obtain ⟨t, hs, h, hh⟩ := Geom.run_inv hrun hs₀ hinit.inv hinit.handled
    fun s op hop => ⟨hop.careful, .inr hop.2⟩
  exact ⟨g, t, hcount, hs, h, hh⟩

end FerrisFS
