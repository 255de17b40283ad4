import FerrisFS.V1.BitmapSpec
import FerrisFS.V1.DirOps
import FerrisFS.V1.Format

/-!
# The state of a mounted filesystem

`St` is what a mounted filesystem of a given layout is made of: the regions of its
device, the cached counts, the allocators' positions and the open files. `Rep`
ties it to the device and the `FormatV1` value the operations work on, and the
rules below read the building blocks of those operations on `St`.
-/

namespace FerrisFS

open Lib

@[ext] structure St extends View where
  freeInodes : Nat
  freeData : Nat
  lastInode : Nat
  lastData : Nat
  nextFileId : Nat
  openFiles : Nat → Option FileMetadata

namespace Geom

variable (g : Geom)

/-- The superblock of this layout with the given free counts. -/
def superblock (freeInodes freeData : Nat) : Superblock where
  magic := MAGIC
  version := 1
  blockSize := BLOCK_SIZE
  totalBlocks := g.totalBlocks
  inodeBitmapStart := 1
  inodeBitmapBlocks := g.inodeBitmapBlocks
  blockBitmapStart := g.blockBitmapStart
  blockBitmapBlocks := g.blockBitmapBlocks
  inodeTableStart := g.inodeTableStart
  inodeTableBlocks := g.inodeTableBlocks
  dataStart := g.dataStart
  rootInode := 0
  freeInodes := freeInodes
  freeData := freeData

/-- The mounted format in the state `t`. -/
def format (t : St) : FormatV1 where
  superblock := g.superblock t.freeInodes t.freeData
  inodeAllocator := g.inodeAllocator t.lastInode
  blockAllocator := g.blockAllocator t.lastData
  inodeHandler := g.inodeHandler
  directoryHandler := g.directoryHandler
  nextFileId := t.nextFileId
  openFiles := t.openFiles

/-- `s` is a mounted filesystem of this layout in the state `t`. -/
def Rep (s : FFS) (t : St) : Prop := g.Holds s.device t.toView ∧ s.format = g.format t

variable {g} {t : St} {α β : Type}

theorem Rep.openFiles_eq {s : FFS} (hs : g.Rep s t) : s.format.openFiles = t.openFiles := by
  rw [hs.2]
  rfl

/-! ## Device operations -/

theorem runs_onDevice {m : DevM α} {a : α} {v' : View}
    (h : Prog.Runs g.Holds m t.toView a v') :
    Prog.Runs g.Rep (onDevice m) t a { t with toView := v' } := by
  rintro s ⟨hd, hf⟩
  obtain ⟨d', hm, hd'⟩ := h s.device hd
  exact ⟨{ s with device := d' }, Prog.zoom_of_ok hm, hd', hf⟩

theorem wpa_onDevice {m : DevM α} {Q : α → St → Prop} {E : FSError → St → Prop} {A : Prop}
    (h : Prog.wpa g.Holds m (fun a v' => Q a { t with toView := v' })
      (fun e v' => E e { t with toView := v' }) A t.toView) :
    Prog.wpa g.Rep (onDevice m) Q E A t := by
  intro s hs
  obtain ⟨hd, hf⟩ := hs
  have hrun := h s.device hd
  cases hm : m s.device with
  | ok a d =>
      rw [hm] at hrun
      obtain ⟨v', hv, hq⟩ := hrun
      rw [onDevice, Prog.zoom_of_ok hm]
      exact ⟨{ t with toView := v' }, ⟨hv, hf⟩, hq⟩
  | err e d =>
      rw [hm] at hrun
      obtain ⟨v', hv, he⟩ := hrun
      rw [onDevice, Prog.zoom_of_err hm]
      exact ⟨{ t with toView := v' }, ⟨hv, hf⟩, he⟩
  | panic =>
      rw [hm] at hrun
      rw [onDevice, Prog.zoom_of_panic hm]
      exact hrun

theorem wpr_onDevice {m : DevM α} {Q : α → St → Prop} {E : FSError → St → Prop}
    (h : Prog.wpr g.Holds m (fun a v' => Q a { t with toView := v' })
      (fun e v' => E e { t with toView := v' }) t.toView) :
    Prog.wpr g.Rep (onDevice m) Q E t :=
  wpa_onDevice h

/-- A device operation that only reads. -/
theorem wpa_read {m : DevM α} {Q : α → Prop} {F : Prop} {E : FSError → St → Prop}
    {f : α → FsM β} {Q' : β → St → Prop} {A : Prop}
    (h : Prog.wpa g.Holds m (fun a v' => v' = t.toView ∧ Q a) (fun _ v' => v' = t.toView ∧ F) A
      t.toView)
    (hok : ∀ a, Q a → Prog.wpa g.Rep (f a) Q' E A t) (herr : F → ∀ e, E e t) :
    Prog.wpa g.Rep (onDevice m >>= f) Q' E A t := by
  refine Prog.wpa_bind (wpa_onDevice (Prog.wpa_mono h ?_ ?_ id))
  · rintro a _ ⟨rfl, hq⟩
    exact hok a hq
  · rintro e _ ⟨rfl, hf⟩
    exact herr hf e

theorem wpr_read {m : DevM α} {Q : α → Prop} {E : FSError → St → Prop}
    {f : α → FsM β} {Q' : β → St → Prop}
    (h : Prog.wpr g.Holds m (fun a v' => v' = t.toView ∧ Q a) (fun _ v' => v' = t.toView)
      t.toView)
    (hok : ∀ a, Q a → Prog.wpr g.Rep (f a) Q' E t) (herr : ∀ e, E e t) :
    Prog.wpr g.Rep (onDevice m >>= f) Q' E t :=
  wpa_read (Prog.wpa_mono h (fun _ _ hq => hq) (fun _ _ he => ⟨he, trivial⟩) id) hok
    fun _ => herr

theorem runs_getFormat : Prog.Runs g.Rep getFormat t (g.format t) t := by
  rintro s hs
  refine ⟨s, ?_, hs⟩
  rw [getFormat, hs.2]

theorem runs_modifyFormat {f : FormatV1 → FormatV1} {t' : St}
    (hf : f (g.format t) = g.format t') (hv : t'.toView = t.toView) :
    Prog.Runs g.Rep (modifyFormat f) t () t' := by
  rintro s ⟨hd, hs⟩
  refine ⟨{ s with format := f s.format }, rfl, ?_, ?_⟩
  · rw [hv]
    exact hd
  · rw [← hf, ← hs]

theorem wpa_modifyFormat {f : FormatV1 → FormatV1} {m : Unit → FsM β} {Q : β → St → Prop}
    {E : FSError → St → Prop} {A : Prop} (t' : St) (hf : f (g.format t) = g.format t')
    (hv : t'.toView = t.toView) (h : Prog.wpa g.Rep (m ()) Q E A t') :
    Prog.wpa g.Rep (modifyFormat f >>= m) Q E A t :=
  (runs_modifyFormat hf hv).andThen h

theorem wpr_modifyFormat {f : FormatV1 → FormatV1} {m : Unit → FsM β} {Q : β → St → Prop}
    {E : FSError → St → Prop} (t' : St) (hf : f (g.format t) = g.format t')
    (hv : t'.toView = t.toView) (h : Prog.wpr g.Rep (m ()) Q E t') :
    Prog.wpr g.Rep (modifyFormat f >>= m) Q E t :=
  (runs_modifyFormat hf hv).seq h

theorem runs_writeSuperblock : Prog.Runs g.Rep writeSuperblock t () t :=
  runs_getFormat.bind (runs_onDevice runs_writeZero)

/-! ## Allocation -/

/-- What `find_free` yields in the inode bitmap and in the data bitmap. -/
def pickInodes (g : Geom) (t : St) (n : Nat) : List Nat :=
  (g.inodeAllocator t.lastInode).pick t.ibit n

def pickData (g : Geom) (t : St) (n : Nat) : List Nat :=
  (g.blockAllocator t.lastData).pick t.dbit n

end Geom

/-- The inodes `is` and the data blocks `ds` are allocated and counted. -/
def St.taken (t : St) (is ds : List Nat) : St :=
  { t with
    ibit := setBits t.ibit is true
    dbit := setBits t.dbit ds true
    freeInodes := t.freeInodes - is.length
    freeData := t.freeData - ds.length
    lastInode := is.getLastD t.lastInode
    lastData := ds.getLastD t.lastData }

/-- The allocators stand inside their bitmaps. -/
structure St.CursorsIn (g : Geom) (t : St) : Prop where
  lastInode : t.lastInode < 2048 * g.inodeBitmapBlocks
  lastData : t.lastData < 2048 * g.blockBitmapBlocks

namespace Geom

variable {g : Geom} {t t' : St} {n k i : Nat} {l : List Nat}

structure FreshInodes (g : Geom) (t : St) (l : List Nat) : Prop where
  nodup : l.Nodup
  clear : ∀ i ∈ l, t.ibit i = false
  lt : ∀ i ∈ l, i < g.inodes
  bits : ∀ i ∈ l, i < 2048 * g.inodeBitmapBlocks

structure FreshData (g : Geom) (t : St) (l : List Nat) : Prop where
  nodup : l.Nodup
  clear : ∀ i ∈ l, t.dbit i = false
  lt : ∀ i ∈ l, i < g.cap

theorem FreshData.bits (h : g.FreshData t l) : ∀ i ∈ l, i < 2048 * g.blockBitmapBlocks :=
  fun i hi => Nat.lt_of_lt_of_le (h.lt i hi) g.cap_le_bits

theorem fresh_pickInodes (h : t.CursorsIn g) : g.FreshInodes t (g.pickInodes t n) where
  nodup := BitmapAllocator.pick_nodup
  clear _ hi := (BitmapAllocator.mem_pick hi).2.2
  lt _ hi := (BitmapAllocator.mem_pick hi).2.1
  bits _ hi := BitmapAllocator.visible_lt h.lastInode (BitmapAllocator.mem_pick hi).1

theorem fresh_pickData : g.FreshData t (g.pickData t n) where
  nodup := BitmapAllocator.pick_nodup
  clear _ hi := (BitmapAllocator.mem_pick hi).2.2
  lt _ hi := (BitmapAllocator.mem_pick hi).2.1

theorem getLastD_lt {last bound : Nat} (hlast : last < bound) (hl : ∀ i ∈ l, i < bound) :
    l.getLastD last < bound := by
  rcases List.eq_nil_or_concat l with rfl | ⟨l', b, rfl⟩
  · exact hlast
  · rw [List.concat_eq_append, List.getLastD_eq_getLast?, List.getLast?_append]
    exact hl b (by simp)

theorem cursorsIn_taken {is ds : List Nat} (h : t.CursorsIn g) (hi : g.FreshInodes t is)
    (hd : g.FreshData t ds) : (t.taken is ds).CursorsIn g :=
  ⟨getLastD_lt h.lastInode hi.bits, getLastD_lt h.lastData hd.bits⟩

/-- How `allocate` fails: the cached counts refuse, or a bitmap yields fewer than
its count promised and the count is overwritten. -/
inductive AllocFailed (g : Geom) (t : St) (n k : Nat) : St → Prop where
  | refused (h : t.freeInodes < n ∨ t.freeData < k) : AllocFailed g t n k t
  | inodes (hn : n ≤ t.freeInodes) (hk : k ≤ t.freeData) (h : (g.pickInodes t n).length < n) :
      AllocFailed g t n k { t with freeInodes := (g.pickInodes t n).length }
  | data (hn : n ≤ t.freeInodes) (hk : k ≤ t.freeData) (h : (g.pickData t k).length < k) :
      AllocFailed g t n k { t with freeData := (g.pickData t k).length }

/-- How `allocate` succeeds. -/
structure Allocated (g : Geom) (t : St) (n k : Nat) (is ds : List Nat) (t' : St) : Prop where
  state : t' = t.taken is ds
  inodes_eq : is = g.pickInodes t n
  data_eq : ds = g.pickData t k
  inodes_length : is.length = n
  data_length : ds.length = k
  inodes_le : n ≤ t.freeInodes
  data_le : k ≤ t.freeData

theorem wpa_allocate (h : t.CursorsIn g) :
    Prog.wpa g.Rep (FormatV1.allocate n k) (fun r t' => g.Allocated t n k r.1 r.2 t')
      (fun _ t' => g.AllocFailed t n k t') False t := by
  refine runs_getFormat.andThen ?_
  refine Prog.wpa_guard (fun hc => .refused (.inl hc)) fun hn => ?_
  refine Prog.wpa_guard (fun hc => .refused (.inr hc)) fun hk => ?_
  have hn : n ≤ t.freeInodes := Nat.not_lt.mp hn
  have hk : k ≤ t.freeData := Nat.not_lt.mp hk
  refine (runs_onDevice (runs_findFree_inode h.lastInode)).andThen ?_
  refine (runs_onDevice (runs_findFree_data h.lastData)).andThen ?_
  refine Prog.wpa_ite (fun hc => ?_) fun hin => ?_
  · refine wpa_modifyFormat { t with freeInodes := (g.pickInodes t n).length } rfl rfl ?_
    exact Prog.wpa_bind (Prog.wpa_fail (.inodes hn hk hc))
  refine Prog.wpa_ite (fun hc => ?_) fun hda => ?_
  · refine wpa_modifyFormat { t with freeData := (g.pickData t k).length } rfl rfl ?_
    exact Prog.wpa_bind (Prog.wpa_fail (.data hn hk hc))
  have hi : g.FreshInodes t (g.pickInodes t n) := fresh_pickInodes h
  have hd : g.FreshData t (g.pickData t k) := fresh_pickData
  have hilen : (g.pickInodes t n).length = n :=
    Nat.le_antisymm BitmapAllocator.pick_length_le (Nat.not_lt.mp hin)
  have hdlen : (g.pickData t k).length = k :=
    Nat.le_antisymm BitmapAllocator.pick_length_le (Nat.not_lt.mp hda)
  refine (runs_onDevice (runs_allocate_inode hi.bits)).andThen ?_
  refine wpa_modifyFormat { t with
    ibit := setBits t.ibit (g.pickInodes t n) true
    lastInode := (g.pickInodes t n).getLastD t.lastInode } rfl rfl ?_
  refine (runs_onDevice (runs_allocate_data hd.bits)).andThen ?_
  refine wpa_modifyFormat { t with
    ibit := setBits t.ibit (g.pickInodes t n) true
    lastInode := (g.pickInodes t n).getLastD t.lastInode
    dbit := setBits t.dbit (g.pickData t k) true
    lastData := (g.pickData t k).getLastD t.lastData } rfl rfl ?_
  refine (Prog.Runs.checkedSub hk).andThen ?_
  refine (Prog.Runs.checkedSub hn).andThen ?_
  refine wpa_modifyFormat { t with
    ibit := setBits t.ibit (g.pickInodes t n) true
    lastInode := (g.pickInodes t n).getLastD t.lastInode
    dbit := setBits t.dbit (g.pickData t k) true
    lastData := (g.pickData t k).getLastD t.lastData
    freeInodes := t.freeInodes - n
    freeData := t.freeData - k } rfl rfl ?_
  refine runs_writeSuperblock.andThen (Prog.wpa_pure ?_)
  refine ⟨?_, rfl, rfl, hilen, hdlen, hn, hk⟩
  show _ = t.taken (g.pickInodes t n) (g.pickData t k)
  rw [St.taken, hilen, hdlen]

theorem wpr_allocate (h : t.CursorsIn g) :
    Prog.wpr g.Rep (FormatV1.allocate n k) (fun r t' => g.Allocated t n k r.1 r.2 t')
      (fun _ t' => g.AllocFailed t n k t') t :=
  (wpa_allocate h).wpr

end Geom

end FerrisFS
