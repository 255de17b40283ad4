import FerrisFS.Fuse.Setattr
import FerrisFS.Lib.FileStore

/-!
# The filesystem as a store of files

A mounted filesystem is a store of files in which inode numbers stand for files and file ids
for handles. Calls that make, link or delete names turn at most one file at a time: one comes
into being empty, or one goes. Calls on handles read and change a file as the store has it.
-/

namespace FerrisFS

open Lib DirectoryHandler INodeTableHandler FormatV1

namespace View

/-- An allocated regular file. -/
def IsFile (v : View) (i : Nat) : Prop := v.ibit i = true ∧ (v.ino i).fileType = .file

instance {v : View} {i : Nat} : Decidable (v.IsFile i) := inferInstanceAs (Decidable (_ ∧ _))

/-- What it holds. -/
def fileData (v : View) (i : Nat) : List UInt8 :=
  ((v.ino i).fileBytes v.data).take (v.ino i).size

end View

/-- The store that a filesystem is. -/
def FFS.store (s : FFS) : FileStore Nat Nat UInt8 where
  files i := if s.view.IsFile i then some (s.contents i) else none
  handles id := (s.format.openFiles id).map fun m => (m.inode, m.offset)

def St.store (t : St) : FileStore Nat Nat UInt8 where
  files i := if t.IsFile i then some (t.fileData i) else none
  handles id := (t.openFiles id).map fun m => (m.inode, m.offset)

theorem overwritten_eq_put (c : List UInt8) (p : Nat) (bs : List UInt8) :
    overwritten c p bs = FileStore.put 0 c p bs := by
  cases bs with
  | nil => rfl
  | cons b bs => rfl

namespace Geom

variable {g : Geom} {gaps : Bool} {s s' : FFS} {t t' : St}

theorem Rep.store_eq (hs : g.Rep s t) : s.store = t.store := by
  have hcontents : ∀ i, s.contents i = t.fileData i := fun i => hs.contents_eq i
  simp only [FFS.store, St.store, hs.view_eq, hs.openFiles_eq, hcontents]

end Geom

/-! ## Files that stay -/

namespace St

/-- The file `j`, if there is one, has its size and its bytes. -/
structure Kept (t t' : St) (j : Nat) : Prop where
  isFile : t'.IsFile j ↔ t.IsFile j
  size : t.IsFile j → (t'.ino j).size = (t.ino j).size
  bytes : t.IsFile j → (t'.ino j).fileBytes t'.data = (t.ino j).fileBytes t.data

variable {t t' : St} {j : Nat}

theorem Kept.refl : Kept t t j := ⟨Iff.rfl, fun _ => rfl, fun _ => rfl⟩

theorem Kept.of_not (h : ¬ t.IsFile j) (h' : ¬ t'.IsFile j) : Kept t t' j where
  isFile := iff_of_false h' h
  size hj := absurd hj h
  bytes hj := absurd hj h

/-- An inode that is as allocated as before, and the same if it is allocated. -/
theorem Kept.of_same (hibit : t'.ibit j = t.ibit j)
    (h : t.ibit j = true → t.Same t'.toView j) : Kept t t' j := by
  by_cases hj : t.ibit j = true
  · have hsame := h hj
    refine ⟨?_, fun _ => by rw [hsame.ino], fun _ => ?_⟩
    · rw [View.IsFile, View.IsFile, hibit, hsame.ino]
    · rw [hsame.ino]
      exact INode.fileBytes_congr (fun b hb => hsame.data b (List.mem_append_right _ hb))
        fun b hb => hsame.data b (List.mem_append_left _ hb)
  · exact .of_not (fun hf => hj hf.1) fun hf => hj (hibit ▸ hf.1)

/-- Only the number of links of the inode has changed. -/
theorem Kept.of_links {links : Nat} (hibit : t'.ibit j = t.ibit j)
    (hino : t'.ino j = { t.ino j with links := links })
    (hdata : t.ibit j = true → ∀ b ∈ t.owned j, t'.data b = t.data b) : Kept t t' j where
  isFile := by rw [View.IsFile, View.IsFile, hibit, hino]
  size _ := by rw [hino]
  bytes hj := by
    rw [hino]
    show (t.ino j).fileBytes t'.data = _
    exact INode.fileBytes_congr (fun b hb => hdata hj.1 b (List.mem_append_right _ hb))
      fun b hb => hdata hj.1 b (List.mem_append_left _ hb)

theorem Kept.files_eq (h : Kept t t' j) : t'.store.files j = t.store.files j := by
  by_cases hj : t.IsFile j
  · simp only [St.store, if_pos hj, if_pos (h.isFile.mpr hj), View.fileData, h.size hj, h.bytes hj]
  · simp only [St.store, if_neg hj, if_neg (mt h.isFile.mp hj)]

/-- The blocks of every file reach its size. -/
def Fitting (t : St) : Prop :=
  ∀ i, t.IsFile i → (t.ino i).size ≤ BLOCK_SIZE * (t.ino i).blocks

/-- Handles are numbered in the order in which they are opened. -/
def Numbered (t : St) : Prop := ∀ id m, t.openFiles id = some m → id < t.nextFileId

theorem Kept.fitting (h : Kept t t' j) (hj : t'.IsFile j)
    (hfit : (t.ino j).size ≤ BLOCK_SIZE * (t.ino j).blocks) :
    (t'.ino j).size ≤ BLOCK_SIZE * (t'.ino j).blocks := by
  have hold := h.isFile.mp hj
  rw [h.size hold, ← @INode.fileBytes_length (t'.ino j) t'.data, h.bytes hold,
    INode.fileBytes_length]
  exact hfit

/-- What a call that makes, links or deletes a name does to the files. -/
inductive Turns (t t' : St) : FileStore.Event Nat Nat UInt8 → Prop where
  | idle (h : ∀ j, Kept t t' j) : Turns t t' .idle
  | born {i : Nat} (hdead : ¬ t.IsFile i) (hnew : t'.IsFile i) (hsize : (t'.ino i).size = 0)
      (hbytes : (t'.ino i).fileBytes t'.data = []) (h : ∀ j, j ≠ i → Kept t t' j) :
      Turns t t' (.born i)
  | gone {i : Nat} (hold : t.IsFile i) (hdead : ¬ t'.IsFile i)
      (h : ∀ j, j ≠ i → Kept t t' j) : Turns t t' (.gone i)

/-- What stays afterwards does not count. -/
theorem Turns.keep {t'' : St} {ev : FileStore.Event Nat Nat UInt8} (h : t.Turns t' ev)
    (hk : ∀ j, t'.Kept t'' j) : t.Turns t'' ev := by
  have htrans : ∀ j, t.Kept t' j → t.Kept t'' j := fun j hj =>
    { isFile := (hk j).isFile.trans hj.isFile
      size := fun hf => ((hk j).size (hj.isFile.mpr hf)).trans (hj.size hf)
      bytes := fun hf => ((hk j).bytes (hj.isFile.mpr hf)).trans (hj.bytes hf) }
  cases h with
  | idle h => exact .idle fun j => htrans j (h j)
  | @born i hdead hnew hzero hbytes h =>
      exact .born hdead ((hk i).isFile.mpr hnew) (((hk i).size hnew).trans hzero)
        (((hk i).bytes hnew).trans hbytes) fun j hj => htrans j (h j hj)
  | @gone i hold hdead h =>
      exact .gone hold (mt (hk i).isFile.mp hdead) fun j hj => htrans j (h j hj)

/-- Behind the end of every file there are zeros. -/
def Blank (t : St) : Prop :=
  ∀ i, t.IsFile i → ∀ p, (t.ino i).size ≤ p → ((t.ino i).fileBytes t.data).getD p 0 = 0

theorem Turns.blank {ev : FileStore.Event Nat Nat UInt8} (h : Turns t t' ev)
    (hblank : t.Blank) : t'.Blank := by
  have hkept : ∀ j, Kept t t' j → t'.IsFile j → ∀ p, (t'.ino j).size ≤ p →
      ((t'.ino j).fileBytes t'.data).getD p 0 = 0 := by
    intro j hk hj p hp
    have hold := hk.isFile.mp hj
    rw [hk.size hold] at hp
    rw [hk.bytes hold]
    exact hblank j hold p hp
  intro j hj p hp
  cases h with
  | idle h => exact hkept j (h j) hj p hp
  | @born i hdead hnew hsize hbytes h =>
      by_cases hji : j = i
      · subst hji
        rw [hbytes]
        rfl
      · exact hkept j (h j hji) hj p hp
  | @gone i hold hdead h =>
      by_cases hji : j = i
      · exact absurd (hji ▸ hj) hdead
      · exact hkept j (h j hji) hj p hp

theorem Turns.fitting {ev : FileStore.Event Nat Nat UInt8} (h : Turns t t' ev)
    (hfit : t.Fitting) : t'.Fitting := by
  have hkept : ∀ j, Kept t t' j → t'.IsFile j →
      (t'.ino j).size ≤ BLOCK_SIZE * (t'.ino j).blocks := fun j hk hj =>
    hk.fitting hj (hfit j (hk.isFile.mp hj))
  intro j hj
  cases h with
  | idle h => exact hkept j (h j) hj
  | @born i hdead hnew hsize hbytes h =>
      by_cases hji : j = i
      · subst hji
        rw [hsize]
        exact Nat.zero_le _
      · exact hkept j (h j hji) hj
  | @gone i hold hdead h =>
      by_cases hji : j = i
      · exact absurd (hji ▸ hj) hdead
      · exact hkept j (h j hji) hj

/-- The store follows. A file that goes must not be open. -/
theorem Turns.step {ev : FileStore.Event Nat Nat UInt8} (h : Turns t t' ev)
    (hopen : t'.openFiles = t.openFiles)
    (hclosed : ∀ i, ev = .gone i → ∀ id m, t.openFiles id = some m → m.inode ≠ i) :
    FileStore.Step 0 t.store ev t'.store := by
  have hhandles : t'.store.handles = t.store.handles := by
    simp only [St.store, hopen]
  have hfiles : ∀ (i : Nat) (c : Option (List UInt8)), (∀ j, j ≠ i → Kept t t' j) →
      t'.store.files i = c →
      t'.store = { t.store with files := Function.update t.store.files i c } := by
    intro i c hk hi
    refine FileStore.ext (funext fun j => ?_) hhandles
    by_cases hji : j = i
    · subst hji
      exact hi.trans (Function.update_self j c t.store.files).symm
    · exact (hk j hji).files_eq.trans (Function.update_of_ne hji c t.store.files).symm
  cases h with
  | idle h =>
      have hsame : t'.store = t.store :=
        FileStore.ext (funext fun j => (h j).files_eq) hhandles
      rw [hsame]
      exact .idle
  | @born i hdead hnew hsize hbytes h =>
      have hempty : t'.store.files i = some [] := by
        simp only [St.store, if_pos hnew, View.fileData, hsize, List.take_zero]
      rw [hfiles i _ h hempty]
      exact .born (if_neg hdead)
  | @gone i hold hdead h =>
      have hnone : t'.store.files i = none := if_neg hdead
      rw [hfiles i _ h hnone]
      refine .gone (if_pos hold) fun id p hid => ?_
      obtain ⟨m, hm, hmi⟩ := Option.map_eq_some_iff.mp hid
      exact hclosed i rfl id m hm (Prod.mk.inj hmi).1

end St

/-! ## Calls on names -/

/-- A call that makes, links or deletes a name. -/
def Op.Names : Op → Prop
  | .createFile .. | .createDirectory .. | .createSymlink .. | .createHardlink .. | .delete ..
  | .createChild .. | .createChildHardlink .. | .deleteChild .. => True
  | _ => False

/-- The parents that the call enters records in are directories. -/
def Op.IntoDirs (s : FFS) (op : Op) : Prop :=
  ∀ p e, Enters s op p e → (s.view.ino p).fileType = .directory

instance {s : FFS} {op : Op} : Decidable (op.IntoDirs s) :=
  decidable_of_iff (∀ x ∈ op.entry? s, (s.view.ino x.1).fileType = .directory)
    (forall_enters (P := fun p _ => (s.view.ino p).fileType = .directory)).symm

namespace Geom

variable {g : Geom} {gaps : Bool} {s s' : FFS} {t t' : St} {op : Op} {p i : Nat} {name : Str}
  {now : UInt64} {fit : Option (Nat × Nat)} {ds : List Nat} {n' : INode} {data' : Region}

/-- The event of a new inode of the given type. -/
def bornEvent (ft : FileType) (i : Nat) : FileStore.Event Nat Nat UInt8 :=
  if ft = .file then .born i else .idle

/-- A new inode: the others stay, and it is empty if it is a file. -/
theorem turns_new {ft : FileType} {b : Nat} (hdead : t.ibit i = false) (hlive : t'.ibit i = true)
    (hino : t'.ino i = firstNode ft b now) (h : ∀ j, j ≠ i → t.Kept t' j) :
    t.Turns t' (bornEvent ft i) := by
  have hold : ¬ t.IsFile i := by
    intro hf
    have hi := hf.1
    rw [hdead] at hi
    cases hi
  by_cases hft : ft = .file
  · rw [bornEvent, if_pos hft]
    subst hft
    refine .born hold ⟨hlive, ?_⟩ ?_ ?_ h
    · rw [hino, firstNode_fileType]
    · rw [hino]
      rfl
    · rw [hino, INode.fileBytes, firstNode_content]
      rfl
  · rw [bornEvent, if_neg hft]
    refine .idle fun j => ?_
    by_cases hji : j = i
    · subst hji
      refine .of_not hold fun hf => hft ?_
      rw [← hf.2, hino, firstNode_fileType]
    · exact h j hji

theorem Created.turns {ft : FileType} (h : g.Intact gaps t) (hp : t.ibit p = true)
    (hdir : (t.ino p).fileType = .directory)
    (hc : g.Created t p ft name now fit i ds n' data' t') : t.Turns t' (bornEvent ft i) := by
  refine turns_new (hc.dead h) (hc.ibit_iff.mpr (.inr rfl)) (hc.ino_new h hp) fun j hji => ?_
  by_cases hjp : j = p
  · subst hjp
    refine .of_not (fun hf => ?_) fun hf => ?_
    · rw [hf.2] at hdir
      cases hdir
    · rw [View.IsFile, hc.parent_fileType, hdir] at hf
      cases hf.2
  · have hibit : t'.ibit j = t.ibit j := by
      rw [Bool.eq_iff_iff, hc.ibit_iff]
      exact or_iff_left hji
    exact .of_same hibit fun hj => hc.same h hp hj hjp

theorem Orphaned.turns {ft : FileType} (h : g.Intact gaps t)
    (ho : g.Orphaned t p ft now i ds t') : t.Turns t' (bornEvent ft i) := by
  refine turns_new ho.dead (ho.ibit_iff.mpr (.inr rfl)) ho.ino_new fun j hji => ?_
  have hibit : t'.ibit j = t.ibit j := by
    rw [Bool.eq_iff_iff, ho.ibit_iff]
    exact or_iff_left hji
  exact .of_same hibit fun hj => ho.same h hj

theorem Linked.turns (h : g.Intact gaps t) (hp : t.ibit p = true)
    (hdir : (t.ino p).fileType = .directory)
    (hk : g.Linked t i p name now fit ds n' data' t') : t.Turns t' .idle := by
  refine .idle fun j => ?_
  by_cases hjp : j = p
  · subst hjp
    refine .of_not (fun hf => ?_) fun hf => ?_
    · rw [hf.2] at hdir
      cases hdir
    · rw [View.IsFile, hk.fileType, hdir] at hf
      cases hf.2
  have hibit : t'.ibit j = t.ibit j := by rw [hk.ibit_eq]
  by_cases hji : j = i
  · subst hji
    exact .of_links hibit (hk.ino_target hjp) fun hj => (hk.kept h hp hj hjp).2.2
  · exact .of_same hibit fun hj => hk.same h hp hj hjp hji

/-- The parent of a record is no file. -/
theorem not_isFile_of_rec {k : Nat × Nat} {e : DirEntry} (hr : t.Rec p k e) : ¬ t.IsFile p := by
  intro hf
  have hdir := hr.dir
  rw [hf.2] at hdir
  cases hdir

theorem Unlinked.turns {k : Nat × Nat} {e : DirEntry} {b' : Block} (h : g.Inv gaps t)
    (hu : g.Unlinked gaps t i p k e now b' t') : t.Turns t' .idle := by
  refine .idle fun j => ?_
  have hcut := hu.cut
  by_cases hjp : j = p
  · subst hjp
    refine .of_not (not_isFile_of_rec hu.record) fun hf => ?_
    rw [View.IsFile, hcut.fileType] at hf
    exact not_isFile_of_rec hu.record ⟨hu.record.live, hf.2⟩
  have hibit : t'.ibit j = t.ibit j := by rw [hu.ibit_eq]
  have hdata : t.ibit j = true → ∀ b ∈ t.owned j, t'.data b = t.data b :=
    fun hj b hb => hcut.data_of_ne h.toIntact hj hjp hb
  by_cases hji : j = i
  · subst hji
    exact .of_links hibit (hu.ino_target hjp) hdata
  · exact .of_same hibit fun hj => ⟨hu.ino_other hjp hji, hdata hj⟩

theorem Removed.turns {k : Nat × Nat} {e : DirEntry} {b' : Block} (h : g.Inv gaps t)
    (hr : g.Removed gaps t i p k e now b' t') :
    t.Turns t' (if (t.ino i).fileType = .file then .gone i else .idle) := by
  have hip := hr.ne_parent h
  have hdead : ¬ t'.IsFile i := fun hf => (hr.ibit_iff.mp hf.1).2 rfl
  have hkept : ∀ j, j ≠ i → t.Kept t' j := by
    intro j hji
    by_cases hjp : j = p
    · subst hjp
      refine .of_not (not_isFile_of_rec hr.record) fun hf => ?_
      rw [View.IsFile, hr.cut.fileType] at hf
      exact not_isFile_of_rec hr.record ⟨hr.record.live, hf.2⟩
    · have hibit : t'.ibit j = t.ibit j := by
        rw [Bool.eq_iff_iff, hr.ibit_iff]
        exact and_iff_left hji
      exact .of_same hibit fun hj => hr.same h hj hjp
  by_cases hfile : (t.ino i).fileType = .file
  · rw [if_pos hfile]
    exact .gone ⟨hr.live h, hfile⟩ hdead hkept
  · rw [if_neg hfile]
    refine .idle fun j => ?_
    by_cases hji : j = i
    · subst hji
      exact .of_not (fun hf => hfile hf.2) hdead
    · exact hkept j hji

/-- A target does not touch the files. -/
theorem turns_withTarget {target : Str} {i : Nat} {now : UInt64} (h : g.Inv gaps t)
    (hi : t.ibit i = true) (hsym : (t.ino i).fileType = .symlink)
    (hb : (t.ino i).direct 0 ∈ t.content i) (hlen : target.length ≤ BLOCK_SIZE) :
    ∀ j, t.Kept (t.withTarget i target now) j := by
  have hleaf : Inv.Leaf g t (t.withTarget i target now) i [] [] :=
    leaf_withTarget h hi (by simp [hsym]) hb hlen
  intro j
  by_cases hji : j = i
  · subst hji
    have hnot : ¬ t.IsFile j := by
      intro hf
      rw [hf.2] at hsym
      cases hsym
    refine .of_not hnot fun hf => hnot ⟨hf.1, ?_⟩
    rw [← hleaf.fileType]
    exact hf.2
  · exact .of_same rfl fun hj => hleaf.same h.toIntact hj hji

/-- A call on names turns one file at most; a file that goes is deleted by the call. The
handles are not touched. -/
theorem turns_of_effect (hs : g.Rep s t) (h : g.Inv gaps t) (hroom : op.Roomy gaps s)
    (hop : op.Names) (hdirs : op.IntoDirs s) (he : Effect g gaps s t op t') :
    t'.openFiles = t.openFiles ∧ t'.nextFileId = t.nextFileId ∧ ∃ ev, t.Turns t' ev ∧
      (ev = .idle ∨ (∃ i, ev = .born i) ∨ ∃ i, ev = .gone i ∧ Deletes s op i ∧
        (t.ino i).links ≤ 1) := by
  have hview := hs.view_eq
  have hborn : ∀ (ft : FileType) (i : Nat), bornEvent ft i = .idle ∨
      (∃ i', bornEvent ft i = .born i') ∨ ∃ i', bornEvent ft i = .gone i' ∧ Deletes s op i' ∧
        (t.ino i').links ≤ 1 := by
    intro ft i
    by_cases hft : ft = .file
    · exact .inr (.inl ⟨i, if_pos hft⟩)
    · exact .inl (if_neg hft)
  have hdir : ∀ {p e}, Enters s op p e → (t.ino p).fileType = .directory := fun he => by
    have := hdirs _ _ he
    rwa [hview] at this
  have hidle : t.Turns t .idle := .idle fun _ => .refl
  cases he with
  | same => exact ⟨rfl, rfl, _, hidle, .inl rfl⟩
  | @created p ft name now fit i ds n' data' t' hc hp hd hdd hfit hcr =>
      refine ⟨by rw [hcr.state]; rfl, by rw [hcr.state]; rfl, _,
        hcr.turns h.toIntact hp (hdir (.create hc)), hborn ft i⟩
  | @symlinked p name now fit i ds n' data' t₁ target now' hc hp hd hdd hfit hcr hlen =>
      have h' := hcr.inv h hp hd hdd (hs.roomy hroom (.create hc) hfit)
      have hlive := hcr.ibit_iff.mpr (.inr rfl)
      have hsym : (t₁.ino i).fileType = .symlink := by
        rw [hcr.ino_new h.toIntact hp, firstNode_fileType]
      have hkept : ∀ j, t₁.Kept (t₁.withTarget i target now') j :=
        turns_withTarget h' hlive hsym (hcr.direct_mem h hp) hlen
      refine ⟨by rw [← show t₁.openFiles = t.openFiles by rw [hcr.state]; rfl]; rfl,
        by rw [← show t₁.nextFileId = t.nextFileId by rw [hcr.state]; rfl]; rfl, _,
        (hcr.turns h.toIntact hp (hdir (.create hc))).keep hkept, hborn _ _⟩
  | full hr hf =>
      cases hf with
      | refused => exact ⟨rfl, rfl, _, hidle, .inl rfl⟩
      | inodes =>
          exact ⟨rfl, rfl, _, .idle fun _ => ⟨Iff.rfl, fun _ => rfl, fun _ => rfl⟩, .inl rfl⟩
      | data =>
          exact ⟨rfl, rfl, _, .idle fun _ => ⟨Iff.rfl, fun _ => rfl, fun _ => rfl⟩, .inl rfl⟩
  | orphaned hc hp hfit hmax ha ho =>
      exact ⟨by rw [ho.state]; rfl, by rw [ho.state]; rfl, _, ho.turns h.toIntact, hborn _ _⟩
  | linked hl hi hp hfile hd hdd hfit hk =>
      exact ⟨by rw [hk.state]; rfl, by rw [hk.state]; rfl, _,
        hk.turns h.toIntact hp (hdir (.link hl)), .inl rfl⟩
  | wasted hl hfit hmax ha =>
      refine ⟨rfl, rfl, .idle, .idle fun j => ?_, .inl rfl⟩
      exact .of_same (congrFun (setBits_nil t.ibit true) j) fun _ => ⟨rfl, fun _ _ => rfl⟩
  | unlinked hdel hu =>
      exact ⟨by rw [hu.state], by rw [hu.state], _, hu.turns h, .inl rfl⟩
  | @removed i p k e now b' t' hdel hu =>
      refine ⟨by rw [hu.state], by rw [hu.state], _, hu.turns h, ?_⟩
      by_cases hfile : (t.ino i).fileType = .file
      · rw [if_pos hfile]
        exact .inr (.inr ⟨i, rfl, hdel, hu.last⟩)
      · rw [if_neg hfile]
        exact .inl rfl
  | opened ho =>
      subst ho
      exact hop.elim
  | closed ho =>
      subst ho
      exact hop.elim
  | moved ho =>
      rcases ho with ⟨pos, rfl⟩ | ⟨len, rfl⟩
      · exact hop.elim
      · exact hop.elim
  | wrote ho =>
      subst ho
      exact hop.elim
  | writeFailed ho =>
      subst ho
      exact hop.elim
  | truncated ho =>
      subst ho
      exact hop.elim

end Geom

end FerrisFS
