import FerrisFS.V1.Footprint
import FerrisFS.V1.Write

/-!
# What can be read off a mounted filesystem

The regions of the device a mounted filesystem works on, and the answers of the
operations that only read: path resolution, name lookup, the search for room in a
directory and the search for free bits.
-/

namespace FerrisFS

open Lib DirectoryHandler INodeTableHandler FormatV1

/-! ## Read-only operations -/

theorem readOnly_readInode (ih : INodeTableHandler) (i : Nat) : Prog.ReadOnly (ih.readInode i) :=
  Confined.readOnly (P := fun _ => True) (.readInode (fun _ _ => trivial) i)

theorem readOnly_getBlock (ih : INodeTableHandler) (n : INode) (i : Nat) :
    Prog.ReadOnly (ih.getBlock n i) :=
  Confined.readOnly (P := fun _ => True) (.getBlock (fun _ _ => trivial) n i)

theorem readOnly_iterateBlocks {α : Type} (h : DirectoryHandler) (n : INode)
    (ih : INodeTableHandler) (callback : Callback α) (blocks : List Nat) (acc : α) :
    Prog.ReadOnly (h.iterateBlocks n ih callback blocks acc) :=
  Confined.readOnly (P := fun _ => True)
    (.iterateBlocks (fun _ _ => trivial) (fun _ _ => trivial) n callback blocks acc)

theorem readOnly_findEntry (h : DirectoryHandler) (n : INode) (ih : INodeTableHandler)
    (name : List UInt8) : Prog.ReadOnly (h.findEntry n ih name) :=
  readOnly_iterateBlocks _ _ _ _ _ _

theorem readOnly_canFit (h : DirectoryHandler) (n : INode) (ih : INodeTableHandler)
    (e : DirEntry) : Prog.ReadOnly (h.canFit n ih e) :=
  readOnly_iterateBlocks _ _ _ _ _ _

theorem readOnly_symlinkTarget (h : DirectoryHandler) (n : INode) (p : Nat) :
    Prog.ReadOnly (h.symlinkTarget n p) :=
  Confined.readOnly (P := fun _ => True) (.symlinkTarget (fun _ _ => trivial) n p)

theorem readOnly_resolve (h : DirectoryHandler) (path : List Component) (src : Nat)
    (ih : INodeTableHandler) (final : Bool) : Prog.ReadOnly (h.resolve path src ih final) :=
  Confined.readOnly (P := fun _ => True) (.resolve (fun _ _ => trivial) (fun _ _ => trivial)
    (fun _ _ => trivial) path src final)

theorem readOnly_isAllocated (a : BitmapAllocator) (i : Nat) : Prog.ReadOnly (a.isAllocated i) :=
  Confined.readOnly (P := fun _ => True) (.isAllocated (fun _ _ => trivial) i)

/-! ## The regions of the device -/

namespace FFS

/-- What the device holds, by the layout the filesystem was mounted with. -/
def view (s : FFS) : View where
  ibit i := decide (i < 2048 * s.format.inodeAllocator.size) &&
    s.device.bitAt s.format.inodeAllocator.start i
  dbit b := decide (b < 2048 * s.format.blockAllocator.size) &&
    s.device.bitAt s.format.blockAllocator.start b
  ino i := if i < s.format.inodeAllocator.maxIndex then
    s.device.inodeAt s.format.inodeHandler.inodeTableStart i else INode.empty .file 0 0
  data b := if b < s.format.blockAllocator.maxIndex then
    s.device.block (s.format.superblock.dataStart + b) else Block.zero

/-- What `resolve` answers from the root. -/
def resolve (s : FFS) (path : List Component) (resolveFinalSymlink : Bool) :
    Option ResolutionResult :=
  (s.format.directoryHandler.resolve path s.format.superblock.rootInode s.format.inodeHandler
    resolveFinalSymlink s.device).value?

/-- What `find_entry` answers in the directory `p`. -/
def findEntry (s : FFS) (p : Nat) (name : List UInt8) :
    Option (Option (DirEntry × Nat × Nat)) :=
  (s.format.directoryHandler.findEntry (s.view.ino p) s.format.inodeHandler name
    s.device).value?

/-- What `can_fit` answers in the directory `p`. -/
def canFit (s : FFS) (p : Nat) (entry : DirEntry) : Option (Option (Nat × Nat)) :=
  (s.format.directoryHandler.canFit (s.view.ino p) s.format.inodeHandler entry s.device).value?

/-- What `find_free` answers in the inode bitmap and in the data bitmap. -/
def findInodes (s : FFS) (n : Nat) : Option (List Nat) :=
  (s.format.inodeAllocator.findFree n s.device).value?

def findData (s : FFS) (n : Nat) : Option (List Nat) :=
  (s.format.blockAllocator.findFree n s.device).value?

end FFS

namespace Geom

variable {g : Geom} {gaps : Bool} {t : St} {s : FFS}

theorem Rep.view_eq (hs : g.Rep s t) : s.view = t.toView := by
  rw [← hs.1.2]
  simp only [FFS.view, hs.2]
  rfl

theorem Rep.findData (hs : g.Rep s t) (hc : t.CursorsIn g) (n : Nat) :
    s.findData n = some (g.pickData t n) := by
  obtain ⟨d, hd, -⟩ := runs_findFree_data hc.lastData s.device hs.1
  rw [FFS.findData, hs.2]
  show (((g.blockAllocator t.lastData).findFree n) s.device).value? = _
  rw [hd]
  rfl

/-- The place that `can_fit` finds, read off the state. -/
theorem Rep.canFit (hs : g.Rep s t) {p : Nat} {e : DirEntry} {fit : Option (Nat × Nat)}
    (hm : (t.ino p).Mapped g t.data) (h : s.canFit p e = some fit) :
    FitOf t.data (t.content p) e fit := by
  rw [FFS.canFit, hs.view_eq, hs.2] at h
  have hspec := @wpr_canFit g t.toView _ e hm
  obtain ⟨d, hd⟩ := Outcome.value?_eq_some.mp h
  obtain ⟨v', -, -, hfit⟩ := hspec.of_ok hs.1 hd
  exact hfit

end Geom

end FerrisFS
