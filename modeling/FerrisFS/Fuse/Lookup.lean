import FerrisFS.Fuse.Paging
import FerrisFS.V1.Names

/-!
# Looking up what a listing returned

`readdir` hands out the whole array of a name, with the zeros behind the name.
`find_entry` compares what it is given with the name alone.
-/

namespace FerrisFS

open Lib DirectoryHandler INodeTableHandler FormatV1

/-- `get_dir_entry_inode` finds the item by its name, with the inode number of the item. -/
def Fuse.DirItem.LooksUp (s : FFS) (d : Nat) (item : Fuse.DirItem) : Prop :=
  ∃ j, getDirEntryInode d item.name s = .ok (some j) s ∧ item.ino = j + 1

/-- Some call of `readdir` hands out the item. The calls leave the state as it is, so that
each call of a sequence is one of these. -/
def FFS.Hands (s : FFS) (ino : Nat) (item : Fuse.DirItem) : Prop :=
  ∃ off full page s', Fuse.readdir ino off full s = .ok (.ok page) s' ∧ item ∈ page

/-- The listing of the directory and the look-up in it agree. -/
structure FFS.Agrees (s : FFS) (ino : Nat) : Prop where
  lookup : ∀ item, s.Hands ino item → item.LooksUp s (Fuse.v1InodeNumber ino)
  named : ∀ s' off items returned, Paging (fun _ _ => False) ino s s' off items returned →
    Exhausted ino s' off → ∀ x ∈ s.listed (Fuse.v1InodeNumber ino),
      ∃ item ∈ items, item.name = x.2.label ∧ item.ino = x.2.inode + 1

/-- They agree on the record `x`. -/
structure FFS.AgreesOn (s : FFS) (ino : Nat) (x : (Nat × Nat) × DirEntry) : Prop where
  lookup : ∀ item, s.Hands ino item →
    (s.listed (Fuse.v1InodeNumber ino))[item.offset - 1]? = some x →
    item.LooksUp s (Fuse.v1InodeNumber ino)
  named : ∀ s' off items returned, Paging (fun _ _ => False) ino s s' off items returned →
    Exhausted ino s' off → ∃ item ∈ items, item.name = x.2.label ∧ item.ino = x.2.inode + 1

namespace Geom

variable {g : Geom} {gaps : Bool} {s s' : FFS} {t : St} {i ino off : Nat}
  {items : List Fuse.DirItem} {returned : List ((Nat × Nat) × DirEntry)}
  {x : (Nat × Nat) × DirEntry}

/-! ## The calls succeed -/

/-- A reader that succeeds on what the device holds leaves the state as it is. -/
theorem Rep.onDevice_ok {α : Type} {m : DevM α} {a : α} {v : View} (hs : g.Rep s t)
    (hro : Prog.ReadOnly m) (h : Prog.Runs g.Holds m t.toView a v) :
    onDevice m s = .ok a s := by
  obtain ⟨d, hd, -⟩ := h s.device hs.1
  exact onDevice_of_value hro (by rw [hd]; rfl)

/-- A guard on the bit of a live inode passes. -/
theorem isAllocated_bind {α : Type} {f : Bool → FsM α} (hs : g.Rep s t) (ho : g.Owning t)
    (hlive : t.ibit i = true) :
    (onDevice (s.format.inodeAllocator.isAllocated i) >>= f) s = f true s :=
  Prog.bind_of_ok (onDevice_of_value (readOnly_isAllocated _ _)
    (hs.isAllocated hlive (ho.ibit_lt i hlive))) f

theorem readInode_ok (hs : g.Rep s t) (ho : g.Owning t) (hlive : t.ibit i = true) :
    onDevice (s.format.inodeHandler.readInode i) s = .ok (t.ino i) s := by
  rw [hs.2]
  exact hs.onDevice_ok (readOnly_readInode _ _) (runs_readInode (ho.ibit_lt i hlive))

theorem getInode_ok (hs : g.Rep s t) (ho : g.Owning t) (hlive : t.ibit i = true) :
    getInode i s = .ok (t.ino i) s := by
  refine (Prog.bind_of_ok rfl _).trans ((isAllocated_bind hs ho hlive).trans ?_)
  exact (congrFun (if_neg (by decide)) s).trans (readInode_ok hs ho hlive)

theorem getDirectoryFromInode_ok (hs : g.Rep s t) (ho : g.Owning t) (hlive : t.ibit i = true)
    (hdir : (t.ino i).fileType = .directory) (hw : (t.ino i).Walks t.data) :
    getDirectoryFromInode (t.ino i) i s = .ok (i, (t.ino i).entries t.data) s := by
  have hentries : onDevice (s.format.directoryHandler.getEntries (t.ino i)
      s.format.inodeHandler false) s = .ok ((t.ino i).entries t.data) s := by
    rw [hs.2]
    exact hs.onDevice_ok (readOnly_iterateBlocks _ _ _ _ _ _)
      (runs_getEntries (ho.mapped i hlive) hw.complete)
  refine (congrFun (if_neg (not_not.mpr hdir)) s).trans ((Prog.bind_of_ok rfl _).trans ?_)
  exact Prog.bind_of_ok hentries _

/-- `get_dir_entry_inode` answers for each name. -/
theorem getDirEntryInode_ok (name : List UInt8) (hs : g.Rep s t) (ho : g.Owning t)
    (hlive : t.ibit i = true) (hw : (t.ino i).Walks t.data) :
    (∃ e ∈ (t.ino i).entries t.data, e.label = name ∧
        getDirEntryInode i name s = .ok (some e.inode) s) ∨
      (∀ e ∈ (t.ino i).entries t.data, e.label ≠ name) ∧
        getDirEntryInode i name s = .ok none s := by
  obtain ⟨r, hrun, hfound⟩ := @runs_findEntry g t.toView (t.ino i) name (ho.mapped i hlive) hw
  have hfind : onDevice (s.format.directoryHandler.findEntry (t.ino i) s.format.inodeHandler
      name) s = .ok r s := by
    rw [hs.2]
    exact hs.onDevice_ok (readOnly_findEntry _ _ _ _) hrun
  have heq : getDirEntryInode i name s = .ok (r.map fun e => e.1.inode) s := by
    refine (Prog.bind_of_ok rfl _).trans ((isAllocated_bind hs ho hlive).trans ?_)
    refine (congrFun (if_neg (by decide)) s).trans ?_
    exact (Prog.bind_of_ok (readInode_ok hs ho hlive) _).trans (Prog.bind_of_ok hfind _)
  rw [heq]
  rcases hfound with ⟨b, hb, off, e, hmem, ⟨hfree, -, hlabel⟩, rfl⟩ | ⟨hnone, rfl⟩
  · exact .inl ⟨e, INode.mem_entries.mpr ⟨b, hb, ⟨off, hmem⟩, hfree⟩, hlabel, rfl⟩
  · refine .inr ⟨fun e he hlabel => ?_, rfl⟩
    obtain ⟨b, hb, ⟨off, hmem⟩, hfree⟩ := INode.mem_entries.mp he
    exact hnone b hb _ hmem ⟨hfree, hw.named b hb _ hmem hfree, hlabel⟩

/-- The inode number of a live record is that of some FUSE inode. -/
theorem inode_succ_lt {data : Region} {n : INode} {e : DirEntry} (he : e ∈ n.entries data) :
    e.inode + 1 < U32 := by
  obtain ⟨b, -, ⟨off, hmem⟩, hfree⟩ := INode.mem_entries.mp he
  obtain ⟨-, rfl, -⟩ := Block.recordsFrom_sound hmem
  have hlt : (DirEntry.ofBytes (data b) off).inode < 2 ^ 32 := Block.u32_lt _ _
  have hne : (DirEntry.ofBytes (data b) off).inode ≠ INVALID_ADDRESS := by
    simpa [DirEntry.isFree] using hfree
  simp only [INVALID_ADDRESS, U32] at hne ⊢
  omega

theorem readdir_ok {full : Fuse.ReplyDirectory} (hs : g.Rep s t) (ho : g.Owning t)
    (hino : 1 ≤ ino) (hi : Fuse.v1InodeNumber ino = i) (hlive : t.ibit i = true)
    (hdir : (t.ino i).fileType = .directory) (hw : (t.ino i).Walks t.data) :
    ∃ page, Fuse.readdir ino off full s = .ok (.ok page) s := by
  obtain ⟨page, hpage⟩ := @Fuse.addEntries_total s full
    (((t.ino i).entries t.data).drop off) off [] fun e he =>
      inode_succ_lt (List.mem_of_mem_drop he)
  have hnum : Fuse.toV1InodeNumber ino s = .ok i s := by
    rw [← hi]
    exact Prog.bind_of_ok (Prog.checkedSub_of_le hino) _
  refine ⟨page, (Prog.bind_of_ok hnum _).trans ?_⟩
  refine (Prog.bind_of_ok (Prog.attempt_of_ok (getInode_ok hs ho hlive)) _).trans ?_
  refine (congrFun (if_neg (not_not.mpr hdir)) s).trans ?_
  have hentries := getDirectoryFromInode_ok hs ho hlive hdir hw
  refine (Prog.bind_of_ok (Prog.attempt_of_ok hentries) _).trans ?_
  exact Prog.bind_of_ok hpage _

/-! ## Listings without removals -/

theorem items_of_paging (hs : g.Rep s t) (ho : g.Owning t) (hlive : t.ibit i = true)
    (hino : Fuse.v1InodeNumber ino = i)
    (hp : Paging (fun _ _ => False) ino s s' off items returned) :
    s' = s ∧ off ≤ (s.listed i).length ∧
      items = Fuse.itemsFrom 0 (((s.listed i).map Prod.snd).take off) := by
  induction hp with
  | start => exact ⟨rfl, Nat.zero_le _, by simp⟩
  | @page s₁ s₂ off₁ items₁ page₁ returned₁ full₁ _ hrun ih =>
      obtain ⟨rfl, hoff, rfl⟩ := ih
      obtain ⟨rfl, -, k, hk, hpage, -, hresume, -⟩ :=
        handed_of_readdir hs ho (hs.counted ho hlive) hino hrun
      have hlen : (((s₂.listed i).map Prod.snd).take off₁).length = off₁ := by
        rw [List.length_take, List.length_map]
        omega
      rw [hresume]
      refine ⟨rfl, by omega, ?_⟩
      rw [hpage, List.take_add, Fuse.itemsFrom_append, hlen, Nat.zero_add]
  | remove _ hok => exact hok.elim

/-- A listing can be brought to its end. -/
theorem exists_exhausted (hs : g.Rep s t) (ho : g.Owning t) (hino : 1 ≤ ino)
    (hi : Fuse.v1InodeNumber ino = i) (hlive : t.ibit i = true)
    (hdir : (t.ino i).fileType = .directory) (hw : (t.ino i).Walks t.data) :
    ∃ off items returned, Paging (fun _ _ => False) ino s s off items returned ∧
      Exhausted ino s off := by
  have hc := hs.counted ho hlive
  obtain ⟨page, hrun⟩ := @readdir_ok g s t i ino 0 (fun _ _ => false) hs ho hino hi hlive hdir hw
  obtain ⟨-, hpage⟩ := (wp_readdir hs ho hc hi).of_ok hrun
  obtain ⟨-, -, k, hk, hitems, hnext⟩ := hpage page rfl
  have hall : ((t.ino i).entries t.data).length ≤ k := by
    by_contra hlt
    have hlt := Nat.not_le.mp hlt
    exact Bool.false_ne_true
      (hnext _ (by rw [Nat.zero_add]; exact List.getElem?_eq_getElem hlt))
  have hresume : Fuse.resume 0 page = k := by
    rw [hitems, Fuse.resume_itemsFrom, List.length_take, List.drop_zero]
    omega
  obtain ⟨page', hrun'⟩ :=
    @readdir_ok g s t i ino k (fun _ _ => false) hs ho hino hi hlive hdir hw
  obtain ⟨-, hpage'⟩ := (wp_readdir hs ho hc hi).of_ok hrun'
  obtain ⟨-, -, k', hk', hitems', -⟩ := hpage' page' rfl
  have hnil : page' = [] := by
    rw [hitems', show k' = 0 by omega]
    rfl
  refine ⟨_, _, _, .page .start hrun, ?_⟩
  rw [hresume]
  exact ⟨_, s, fun _ => rfl, hnil ▸ hrun'⟩

end Geom

theorem Fuse.mem_itemsFrom {i : Nat} {es : List DirEntry} {item : Fuse.DirItem} :
    item ∈ Fuse.itemsFrom i es ↔ ∃ k e, es[k]? = some e ∧ item = Fuse.itemOf e (i + k) := by
  simp only [itemsFrom, List.mem_map, Prod.exists, List.mk_mem_zipIdx_iff_le_and_getElem?_sub]
  constructor
  · rintro ⟨e, j, ⟨hle, he⟩, rfl⟩
    exact ⟨j - i, e, he, by rw [Nat.add_sub_cancel' hle]⟩
  · rintro ⟨k, e, he, rfl⟩
    exact ⟨e, i + k, ⟨Nat.le_add_right _ _, by rwa [Nat.add_sub_cancel_left]⟩, rfl⟩

namespace Geom

variable {g : Geom} {gaps : Bool} {s s' : FFS} {t : St} {i ino : Nat} {item : Fuse.DirItem}
  {x : (Nat × Nat) × DirEntry}

/-- What is handed out is the item of a record. -/
theorem exists_of_hands (hs : g.Rep s t) (ho : g.Owning t) (hlive : t.ibit i = true)
    (hi : Fuse.v1InodeNumber ino = i) (h : s.Hands ino item) :
    ∃ x, (s.listed i)[item.offset - 1]? = some x ∧ item = Fuse.itemOf x.2 (item.offset - 1) := by
  obtain ⟨off, full, page, s', hrun, hmem⟩ := h
  obtain ⟨-, -, k, -, rfl, -⟩ := handed_of_readdir hs ho (hs.counted ho hlive) hi hrun
  obtain ⟨j, e, he, rfl⟩ := Fuse.mem_itemsFrom.mp hmem
  rw [List.getElem?_take] at he
  split at he
  · rw [List.getElem?_drop, List.getElem?_map, Option.map_eq_some_iff] at he
    obtain ⟨x, hx, rfl⟩ := he
    exact ⟨x, hx, rfl⟩
  · cases he

/-- The array of a name is as long as a name can be. -/
theorem name_length {data : Region} {n : INode} {e : DirEntry} (he : e ∈ n.entries data) :
    e.name.length = DirEntry.MAX_NAME := by
  obtain ⟨b, -, ⟨off, hmem⟩, -⟩ := INode.mem_entries.mp he
  obtain ⟨-, rfl, -⟩ := Block.recordsFrom_sound hmem
  exact DirEntry.padName_length _

theorem agreesOn_iff (hs : g.Rep s t) (ho : g.Owning t) (hino : 1 ≤ ino)
    (hi : Fuse.v1InodeNumber ino = i) (hlive : t.ibit i = true)
    (hdir : (t.ino i).fileType = .directory) (hw : (t.ino i).Walks t.data)
    (hunique : ∀ x ∈ s.listed i, ∀ y ∈ s.listed i, x.2.label = y.2.label → x = y)
    (hx : x ∈ s.listed i) : s.AgreesOn ino x ↔ x.2.nameLen = DirEntry.MAX_NAME := by
  have hentries := hs.map_listed i
  have hxe : x.2 ∈ (t.ino i).entries t.data := hentries ▸ List.mem_map_of_mem hx
  constructor
  · intro h
    obtain ⟨off, items, returned, hp, hend⟩ := exists_exhausted hs ho hino hi hlive hdir hw
    obtain ⟨item, hitem, hname, -⟩ := h.named _ _ _ _ hp hend
    obtain ⟨-, -, rfl⟩ := items_of_paging hs ho hlive hi hp
    obtain ⟨k, e, he, rfl⟩ := Fuse.mem_itemsFrom.mp hitem
    have hlen : e.name.length = DirEntry.MAX_NAME :=
      name_length (hentries ▸ List.mem_of_mem_take (List.mem_of_getElem? he))
    have hname : e.name = x.2.label := hname
    have hmin : min x.2.nameLen x.2.name.length = DirEntry.MAX_NAME := by
      rw [← hlen, hname, DirEntry.label, List.length_take]
    obtain ⟨b, hb, ⟨o, hmem⟩, hfree⟩ := INode.mem_entries.mp hxe
    have hle := hw.named b hb _ hmem hfree
    dsimp only at hle
    omega
  · intro hlen
    have hlabel : x.2.name = x.2.label := by
      rw [DirEntry.label, hlen, ← name_length hxe, List.take_length]
    constructor
    · intro item hhands hplace
      obtain ⟨y, hy, heq⟩ := exists_of_hands hs ho hlive hi hhands
      rw [hi, hy, Option.some.injEq] at hplace
      subst hplace
      have hname : item.name = y.2.label := by
        rw [heq]
        exact hlabel
      have hnum : item.ino = y.2.inode + 1 := by rw [heq]; rfl
      rw [Fuse.DirItem.LooksUp, hi, hname]
      rcases getDirEntryInode_ok y.2.label hs ho hlive hw with ⟨e, he, hsame, hrun⟩ | ⟨hnone, -⟩
      · obtain ⟨z, hz, rfl⟩ := List.mem_map.mp (hentries ▸ he)
        cases hunique z hz y hx hsame
        exact ⟨_, hrun, hnum⟩
      · exact absurd rfl (hnone _ hxe)
    · intro s' off items returned hp hend
      obtain ⟨rfl, -, rfl⟩ := items_of_paging hs ho hlive hi hp
      obtain ⟨full, s', hroom, hrun⟩ := hend
      obtain ⟨-, -, k, -, -, -, -, hthrough⟩ :=
        handed_of_readdir hs ho (hs.counted ho hlive) hi hrun
      obtain ⟨j, hj⟩ := List.getElem?_of_mem hx
      refine ⟨Fuse.itemOf x.2 (0 + j), Fuse.mem_itemsFrom.mpr ⟨j, x.2, ?_, rfl⟩, hlabel, rfl⟩
      rw [List.take_of_length_le, List.getElem?_map, hj]
      · rfl
      · rw [List.length_map]
        exact hthrough hroom rfl

end Geom

/-- A listing and the look-up in the directory agree exactly when each name in the directory
is as long as its array; on a single record they agree exactly when its name is. -/
theorem readdir_agrees_iff {g : Geom} {s : FFS} {t : St} {ino : Nat} (hs : g.Rep s t)
    (ho : g.Owning t) (hino : 1 ≤ ino) (hlive : t.ibit (Fuse.v1InodeNumber ino) = true)
    (hdir : (t.ino (Fuse.v1InodeNumber ino)).fileType = .directory)
    (hw : (t.ino (Fuse.v1InodeNumber ino)).Walks t.data)
    (hunique : ∀ x ∈ s.listed (Fuse.v1InodeNumber ino),
      ∀ y ∈ s.listed (Fuse.v1InodeNumber ino), x.2.label = y.2.label → x = y) :
    (s.Agrees ino ↔
        ∀ x ∈ s.listed (Fuse.v1InodeNumber ino), x.2.nameLen = DirEntry.MAX_NAME) ∧
      ∀ x ∈ s.listed (Fuse.v1InodeNumber ino),
        (s.AgreesOn ino x ↔ x.2.nameLen = DirEntry.MAX_NAME) := by
  have heach := fun x (hx : x ∈ s.listed (Fuse.v1InodeNumber ino)) =>
    Geom.agreesOn_iff hs ho hino rfl hlive hdir hw hunique hx
  refine ⟨⟨fun h x hx => ?_, fun hall => ?_⟩, heach⟩
  · apply (heach x hx).mp
    constructor
    · intro item hhands _
      exact h.lookup item hhands
    · intro s' off items returned hp hend
      exact h.named s' off items returned hp hend x hx
  · constructor
    · intro item hhands
      obtain ⟨x, hx, -⟩ := Geom.exists_of_hands hs ho hlive rfl hhands
      have hmem := List.mem_of_getElem? hx
      exact ((heach x hmem).mpr (hall x hmem)).lookup item hhands hx
    · intro s' off items returned hp hend x hx
      exact ((heach x hx).mpr (hall x hx)).named s' off items returned hp hend

/-- A file whose name is sixty-four letters long, in the root. -/
theorem readdir_agrees_long : ∃ s₀ s x, start 0 (MemoryDevice.empty 14) = some s₀ ∧
    Run (fun s op => op.Tame s) s₀ s ∧ (s.listed 0)[2]? = some x ∧ s.AgreesOn 1 x ∧
    ¬ s.Agrees 1 := by
  have hcalls : ((start 0 (MemoryDevice.empty 14)).bind (checked (fun s op => op.Tame s)
      [.createFile (47 :: List.replicate 64 97) 0])).any (fun s =>
        (s.listed 0)[2]?.any (fun x => x.2.nameLen == DirEntry.MAX_NAME) &&
        (s.listed 0)[0]?.any (fun x => x.2.nameLen != DirEntry.MAX_NAME) &&
        decide (s.findEntry 0 [120] = some none) &&
        decide (∀ x ∈ s.listed 0, ∀ y ∈ s.listed 0, x.2.label = y.2.label → x = y)) = true := by
    decide +kernel
  obtain ⟨s, hs, hfinal⟩ := (Option.any_eq_true _ _).mp hcalls
  obtain ⟨s₀, hstart, hchecked⟩ := Option.bind_eq_some_iff.mp hs
  have hrun := run_of_checked hchecked
  obtain ⟨g, t, -, hrep, h, -⟩ := Geom.tame_run hstart hrun
  simp only [Bool.and_eq_true, decide_eq_true_eq, beq_iff_eq, bne_iff_ne,
    Option.any_eq_true] at hfinal
  obtain ⟨⟨⟨⟨x, hx, hlong⟩, y, hy, hshort⟩, hfind⟩, hunique⟩ := hfinal
  have hw := (hrep.absent h.toIntact h.root_live h.root_dir hfind).1
  have hiff := readdir_agrees_iff hrep h.owning (Nat.le_refl 1) h.root_live h.root_dir hw hunique
  refine ⟨s₀, s, x, hstart, hrun, hx, (hiff.2 x (List.mem_of_getElem? hx)).mpr hlong, ?_⟩
  exact fun hall => hshort (hiff.1.mp hall y (List.mem_of_getElem? hy))

/-- `readdir` hands out the `.` of a new root with sixty-three zeros behind it, and no record
has that name. -/
theorem readdir_agrees_root : ∃ s, start 0 (MemoryDevice.empty 14) = some s ∧
    ¬ s.Agrees 1 := by
  have hcalls : (start 0 (MemoryDevice.empty 14)).any (fun s =>
      ((Fuse.readdir 1 0 (fun _ _ => false) s).value?.bind Except.toOption).any fun page =>
        decide ((Fuse.readdir 1 0 (fun _ _ => false) s).value? = some (.ok page)) &&
        page[0]?.any fun item => decide ((getDirEntryInode 0 item.name s).value? = some none)) =
      true := by
    decide +kernel
  obtain ⟨s, hstart, hfinal⟩ := (Option.any_eq_true _ _).mp hcalls
  obtain ⟨page, -, hpage⟩ := (Option.any_eq_true _ _).mp hfinal
  simp only [Bool.and_eq_true, decide_eq_true_eq, Option.any_eq_true,
    Outcome.value?_eq_some] at hpage
  obtain ⟨⟨s₁, hread⟩, item, hitem, s₂, hnone⟩ := hpage
  refine ⟨s, hstart, fun h => ?_⟩
  obtain ⟨j, hj, -⟩ := h.lookup item ⟨_, _, page, s₁, hread, List.mem_of_getElem? hitem⟩
  cases hj.symm.trans hnone

end FerrisFS
