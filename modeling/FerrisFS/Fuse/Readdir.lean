import FerrisFS.Fuse.Readlink
import FerrisFS.Fuse.Rename
import FerrisFS.V1.Clean
import FerrisFS.V1.Deletion

/-!
# Listing a directory in pages

A reply to `readdir` is a stretch of the directory's live records, from the offset that the
caller gives up to the first one that the reply has no room for. `Paging` is a listing that
goes on from the offset of the last item of each reply.
-/

namespace FerrisFS

open Lib DirectoryHandler INodeTableHandler FormatV1

/-! ## The records in the order of the walk -/

/-- The live records of a directory with their places, as a walk meets them. -/
def FFS.listed (s : FFS) (d : Nat) : List ((Nat × Nat) × DirEntry) :=
  (s.view.liveRecords d).map fun x => (x.1, x.2.1)

namespace View

variable {t : View} {d : Nat}

theorem map_liveRecords (t : View) (d : Nat) :
    (t.liveRecords d).map (fun x => x.2.1) = (t.ino d).entries t.data := by
  rw [liveRecords, INode.entries, List.map_flatMap]
  refine List.flatMap_congr fun b _ => ?_
  rw [blockRecords, Block.liveRecords, Block.entries, List.map_map, List.map_map,
    List.filter_map]
  rfl

/-- No record is met twice. -/
theorem nodup_liveRecords (h : (t.content d).Nodup) :
    ((t.liveRecords d).map fun x => (x.1, x.2.1)).Nodup := by
  apply List.Nodup.of_map Prod.fst
  rw [List.map_map, liveRecords, List.map_flatMap, List.nodup_flatMap]
  constructor
  · intro b _
    rw [blockRecords, List.map_map]
    refine (List.Pairwise.map _ ?_ (t.data b).liveRecords_sorted)
    intro x y hxy heq
    have hoff : x.1 = y.1 := congrArg (fun k : Nat × Nat => k.2) heq
    omega
  · refine h.imp ?_
    intro b b' hne
    rw [Function.onFun_apply, List.disjoint_left]
    intro k hk hk'
    obtain ⟨x, hx, rfl⟩ := List.mem_map.mp hk
    obtain ⟨y, hy, heq⟩ := List.mem_map.mp hk'
    obtain ⟨x', -, rfl⟩ := List.mem_map.mp hx
    obtain ⟨y', -, rfl⟩ := List.mem_map.mp hy
    exact hne (congrArg Prod.fst heq).symm

end View

/-! ## One reply -/

namespace Fuse

/-- The item for the entry with the index `i`. -/
def itemOf (e : DirEntry) (i : Nat) : DirItem :=
  ⟨e.inode + 1, i + 1, myToFuseFileType e.fileType, e.name⟩

/-- The items for entries of which the first has the index `i`. -/
def itemsFrom (i : Nat) (es : List DirEntry) : List DirItem :=
  (es.zipIdx i).map fun x => itemOf x.1 x.2

@[simp] theorem itemsFrom_nil (i : Nat) : itemsFrom i [] = [] := rfl

theorem itemsFrom_cons (i : Nat) (e : DirEntry) (es : List DirEntry) :
    itemsFrom i (e :: es) = itemOf e i :: itemsFrom (i + 1) es := rfl

theorem itemsFrom_append (i : Nat) (es es' : List DirEntry) :
    itemsFrom i (es ++ es') = itemsFrom i es ++ itemsFrom (i + es.length) es' := by
  rw [itemsFrom, List.zipIdx_append, List.map_append]
  rfl

/-- The loop of `readdir` stores a first part of the entries; the next one does not fit. -/
theorem wp_addEntries {s : FFS} {full : ReplyDirectory} : ∀ {es : List DirEntry} {i : Nat}
    {reply : List DirItem},
    Prog.wp (addEntries full es i reply)
      (fun r s' => s' = s ∧ ∃ k, k ≤ es.length ∧ r = reply ++ itemsFrom i (es.take k) ∧
        ∀ e, es[k]? = some e → full r (itemOf e (i + k)) = true)
      (fun _ _ => False) s := by
  intro es
  induction es with
  | nil =>
      intro i reply
      exact ⟨rfl, 0, Nat.le_refl _, by simp, fun e he => by simp at he⟩
  | cons e es ih =>
      intro i reply
      refine Prog.wp_bind.mpr (Prog.wp_checkedAdd fun _ => ?_)
      refine Prog.wp_ite (fun hfull => ?_) fun hroom => ?_
      · refine ⟨rfl, 0, Nat.zero_le _, by simp, fun x hx => ?_⟩
        simp only [List.getElem?_cons_zero, Option.some.injEq] at hx
        exact hx ▸ hfull
      · refine Prog.wp_mono ih ?_ fun _ _ h => h
        intro r s' hr
        obtain ⟨rfl, k, hk, rfl, hnext⟩ := hr
        refine ⟨rfl, k + 1, by simpa using hk, ?_, fun x hx => ?_⟩
        · rw [List.take_succ_cons, itemsFrom_cons, List.append_assoc]
          rfl
        · rw [List.getElem?_cons_succ] at hx
          have hx := hnext x hx
          rwa [Nat.add_right_comm, Nat.add_assoc] at hx

/-- Live entries have inode numbers that FUSE's can follow. -/
theorem addEntries_total {s : FFS} {full : ReplyDirectory} : ∀ {es : List DirEntry} {i : Nat}
    {reply : List DirItem}, (∀ e ∈ es, e.inode + 1 < U32) →
    ∃ r, addEntries full es i reply s = .ok r s := by
  intro es
  induction es with
  | nil => exact fun _ => ⟨_, rfl⟩
  | cons e es ih =>
      intro i reply h
      have hino : fromV1InodeNumber e.inode s = .ok (e.inode + 1) s :=
        Prog.checkedAdd_of_lt (h e List.mem_cons_self)
      by_cases hfull : full reply (itemOf e i) = true
      · exact ⟨reply, (Prog.bind_of_ok hino _).trans (congrFun (if_pos hfull) s)⟩
      · obtain ⟨r, hr⟩ := @ih (i + 1) (reply ++ [itemOf e i])
          fun x hx => h x (List.mem_cons_of_mem _ hx)
        exact ⟨r, (Prog.bind_of_ok hino _).trans ((congrFun (if_neg hfull) s).trans hr)⟩

end Fuse

/-- A deletion does one of three things. -/
theorem Effect.of_deleteChild {g : Geom} {gaps : Bool} {s : FFS} {t t' : St} {name : Str}
    {p : Nat} {ty : Option FileType} {now : UInt64}
    (he : Effect g gaps s t (.deleteChild name p ty now) t') : t' = t ∨
      (∃ j q k e now b', g.Unlinked gaps t j q k e now b' t') ∨
      ∃ j q k e now b', g.Removed gaps t j q k e now b' t' := by
  cases he with
  | same => exact .inl rfl
  | created hc => cases hc
  | symlinked hc => cases hc
  | full hr hf =>
      cases hr with
      | create hc => cases hc
      | link hl => cases hl
  | orphaned hc => cases hc
  | linked hl => cases hl
  | wasted hl => cases hl
  | unlinked hd hu => exact .inr (.inl ⟨_, _, _, _, _, _, hu⟩)
  | removed hd hu => exact .inr (.inr ⟨_, _, _, _, _, _, hu⟩)
  | opened ho => cases ho
  | closed ho => cases ho
  | moved ho =>
      obtain ⟨_, ho⟩ | ⟨_, ho⟩ := ho
      · cases ho
      · cases ho
  | wrote ho => cases ho
  | writeFailed ho => cases ho
  | truncated ho => cases ho

namespace Geom

variable {g : Geom} {gaps : Bool} {s s' : FFS} {t t' : St} {i ino off : Nat}
  {full : Fuse.ReplyDirectory} {page : List Fuse.DirItem}

/-- The inode number has an inode and a bit. -/
structure Counted (g : Geom) (i : Nat) : Prop where
  lt : i < g.inodes
  bit : i < 2048 * g.inodeBitmapBlocks

theorem Rep.counted (hs : g.Rep s t) (ho : g.Owning t) (hi : t.ibit i = true) : g.Counted i :=
  ⟨ho.ibit_lt i hi, hs.ibit_lt hi⟩

/-- `is_allocated` reads the bit of the inode. -/
theorem Rep.isAllocated_eq (hs : g.Rep s t) (hi : g.Counted i) :
    s.isAllocated i = some (t.ibit i) := by
  obtain ⟨d, hd, -⟩ := @runs_isAllocated_inode g t.toView i t.lastInode hi.lt hi.bit s.device hs.1
  rw [FFS.isAllocated, hs.2]
  exact congrArg Outcome.value? hd

/-- `get_entries` returns the live records. -/
theorem wpr_entries {n : INode} {v : View} (hm : n.Mapped g v.data) :
    Prog.wpr g.Holds (g.directoryHandler.getEntries n g.inodeHandler false)
      (fun es v' => v' = v ∧ es = n.entries v.data) (fun _ v' => v' = v) v := by
  refine Prog.wpr_mono (wpr_iterate hm) ?_ fun _ _ h => h
  intro es v' h
  obtain ⟨rfl, stop, hfold, -⟩ := h
  have heq := hfold.symm.trans (@foldBlocks_entries v'.data _ [])
  cases heq
  exact ⟨rfl, by rw [List.nil_append]; rfl⟩

/-- A reply is a stretch of the live records from the offset on. -/
def PageOf (es : List DirEntry) (off : Nat) (full : Fuse.ReplyDirectory)
    (page : List Fuse.DirItem) : Prop :=
  ∃ k, k ≤ es.length - off ∧ page = Fuse.itemsFrom off ((es.drop off).take k) ∧
    ∀ e, es[off + k]? = some e → full page (Fuse.itemOf e (off + k)) = true

theorem wp_readdir (hs : g.Rep s t) (ho : g.Owning t) (hi : g.Counted i)
    (hino : Fuse.v1InodeNumber ino = i) :
    Prog.wp (Fuse.readdir ino off full)
      (fun r s' => s' = s ∧ ∀ page, r = .ok page → t.ibit i = true ∧
        (t.ino i).fileType = .directory ∧ PageOf ((t.ino i).entries t.data) off full page)
      (fun _ s' => s' = s) s := by
  refine Prog.wp_bind.mpr (Prog.wp_bind.mpr (Prog.wp_checkedSub fun _ => ?_))
  rw [Prog.wp_pure, hino]
  refine Prog.wp_bind.mpr (Prog.wp_attempt (Prog.wp_mono (wp_getInode_value hs) ?_ ?_))
  · intro n s₁ hn
    obtain ⟨rfl, hlive, rfl⟩ := hn
    rw [hs.isAllocated_eq hi, Option.some.injEq] at hlive
    refine Prog.wp_ite (fun _ => ⟨rfl, fun _ h => by cases h⟩) fun hdir => ?_
    have hdir := not_not.mp hdir
    have hentries := wp_reader hs (readOnly_iterateBlocks _ _ _ _ _ _)
      (wpr_entries (ho.mapped i hlive))
    refine Prog.wp_bind.mpr (Prog.wp_attempt ?_)
    refine Prog.wp_guard (fun hn => absurd hdir hn) fun _ => ?_
    refine wp_getFormat ?_
    rw [hs.2]
    refine Prog.wp_seq hentries ?_ fun _ _ he => ⟨he, fun _ h => by cases h⟩
    intro es s₂ hes
    obtain ⟨rfl, -, rfl⟩ := hes
    refine Prog.wp_bind.mpr (Prog.wp_mono Fuse.wp_addEntries ?_ fun _ _ h => h.elim)
    intro r s₃ hr
    obtain ⟨rfl, k, hk, rfl, hnext⟩ := hr
    refine ⟨rfl, fun page hpage => ?_⟩
    cases hpage
    refine ⟨hlive, hdir, k, ?_, rfl, fun e he => ?_⟩
    · rwa [List.length_drop] at hk
    · exact hnext e (by rw [List.getElem?_drop]; exact he)
  · intro e s₁ hs₁
    exact ⟨hs₁, fun _ h => by cases h⟩

/-! ## Removals -/

theorem Rewritten.listed_le {p : Nat} {k : Nat × Nat} {e : DirEntry} {b' : Block}
    (hw : Rewritten t.toView t'.toView k.1 b') (h : g.Owning t) (hr : t.Rec p k e)
    (hfreed : (t.data k.1).Freed gaps k.2 e b') (hi : t.ibit i = true) :
    (t'.liveRecords i).length ≤ (t.liveRecords i).length := by
  have hcount : ∀ b : Block, b.liveRecords.length = b.slots.countP fun x => !x.2.isFree := by
    intro b
    rw [Block.liveRecords, List.length_map, Block.slots, List.countP_map,
      List.countP_eq_length_filter]
    congr 2
    funext x
    simp only [Function.comp_apply, DirEntry.slot]
    cases x.2.isFree <;> rfl
  have hblock : ∀ b, (t'.blockRecords b).length ≤ (t.blockRecords b).length := by
    intro b
    rw [View.blockRecords, View.blockRecords, List.length_map, List.length_map, hw.data]
    by_cases hb : b = k.1
    · obtain ⟨-, s₁, l, r, s₂, start, m, -, -, -, hold, hnew⟩ := hfreed.slots
      rw [hb, Function.update_self, hcount, hcount, hold, hnew]
      simp only [List.countP_append, List.countP_cons, Slot.isFree]
      simp
      omega
    · rw [Function.update_of_ne hb]
  rw [View.liveRecords, View.liveRecords, hw.content_eq h hr.live hr.block hi]
  induction t.content i with
  | nil => exact Nat.le_refl _
  | cons b bs ih =>
      rw [List.flatMap_cons, List.flatMap_cons, List.length_append, List.length_append]
      exact Nat.add_le_add (hblock b) ih

/-- A removal leaves no more records than there were in any directory that stays. -/
theorem listed_removed {p : Nat} {ft : FileType} {name : Str} {now : UInt64} (hs : g.Rep s t)
    (h : g.Inv gaps t) (hp : g.Counted p) (hino : Fuse.v1InodeNumber ino = p)
    (hrun : Fuse.removeChild ft ino name now s = .ok (.ok ()) s') :
    ∃ t', g.Rep s' t' ∧ g.Inv gaps t' ∧
      ∀ i, t'.ibit i = true → (s'.listed i).length ≤ (s.listed i).length := by
  have hdel : deleteChild name p (some ft) now s = .ok () s' := by
    obtain ⟨q, s₁, hq, hrest⟩ := Prog.of_ok_bind hrun
    obtain ⟨rfl, rfl⟩ := toV1InodeNumber_ok hq
    rw [hino] at hrest
    split at hrest
    · cases hrest
    · obtain ⟨r, s₂, hattempt, hreply⟩ := Prog.of_ok_bind hrest
      cases r with
      | error e => cases hreply
      | ok a =>
          cases hreply
          exact Prog.of_ok_attempt hattempt
  have hlive : t.ibit p = true := by
    obtain ⟨hc, hdel⟩ := Prog.of_ok_guard hdel
    obtain ⟨f, s₁, hf, hdel⟩ := Prog.of_ok_bind hdel
    cases hf
    obtain ⟨allocated, s₁, halloc, hdel⟩ := Prog.of_ok_bind hdel
    obtain ⟨rfl, ha⟩ := (wp_readOnly (readOnly_isAllocated _ _)).of_ok halloc
    obtain ⟨hc, -⟩ := Prog.of_ok_guard hdel
    have hbit := hs.isAllocated_eq hp
    rw [FFS.isAllocated, ha, Option.some.injEq] at hbit
    rw [← hbit]
    simpa using hc
  have hroom : Op.Roomy gaps s (.deleteChild name p (some ft) now) := by
    refine .inr fun q e fit hent => ?_
    cases hent with
    | create hc => cases hc
    | link hl => cases hl
  have hsane : Op.Sane s (.deleteChild name p (some ft) now) := by
    rw [Op.Sane, hs.view_eq]
    exact hlive
  have hhandle : ¬ Op.OnHandle (.deleteChild name p (some ft) now) := id
  have hstep : Step s (.deleteChild name p (some ft) now) s' := by
    rw [Step, Op.exec, hdel]
    rfl
  obtain ⟨t', hs', he⟩ := effect_of_step hs h (fun hon => absurd hon hhandle) hsane hroom hstep
  refine ⟨t', hs', inv_of_effect hs h (fun hon => absurd hon hhandle) hroom he, fun i hi => ?_⟩
  rw [FFS.listed, FFS.listed, List.length_map, List.length_map, hs.view_eq, hs'.view_eq]
  rcases he.of_deleteChild with rfl | ⟨j, q, k, e, now, b', hu⟩ | ⟨j, q, k, e, now, b', hu⟩
  · exact Nat.le_refl _
  · have hw : Rewritten t.toView t'.toView k.1 b' := by
      rw [hu.state]
      exact rewritten_unlinked t j q k.1 b'
    exact hw.listed_le h.owning hu.record hu.freed (hu.cut.live i hi)
  · have hw : Rewritten t.toView t'.toView k.1 b' := by
      rw [hu.state]
      exact rewritten_removed t j q k.1 b'
    exact hw.listed_le h.owning hu.record hu.freed (hu.cut.live i hi)

end Geom

/-! ## Listings -/

namespace Fuse

/-- Where the next call goes on: at the offset of the last item, if there is one. -/
def resume (off : Nat) (page : List DirItem) : Nat := (page.getLast?.map DirItem.offset).getD off

theorem resume_itemsFrom (off : Nat) (es : List DirEntry) :
    resume off (itemsFrom off es) = off + es.length := by
  rcases List.eq_nil_or_concat es with rfl | ⟨l, e, rfl⟩
  · rfl
  · rw [List.concat_eq_append, resume, itemsFrom_append]
    simp [itemsFrom, itemOf]
    omega

end Fuse

/-- The records that the items of a reply stand for. -/
def FFS.handed (s : FFS) (d : Nat) (page : List Fuse.DirItem) : List ((Nat × Nat) × DirEntry) :=
  page.filterMap fun item => (s.listed d)[item.offset - 1]?

theorem filterMap_itemsFrom {L : List ((Nat × Nat) × DirEntry)} : ∀ {k off : Nat},
    (Fuse.itemsFrom off (((L.map Prod.snd).drop off).take k)).filterMap
      (fun item => L[item.offset - 1]?) = (L.drop off).take k := by
  intro k
  induction k with
  | zero => simp
  | succ k ih =>
      intro off
      by_cases hoff : off < L.length
      · have hsnd : off < (L.map Prod.snd).length := by simpa using hoff
        rw [List.drop_eq_getElem_cons hoff, List.drop_eq_getElem_cons hsnd, List.take_succ_cons,
          List.take_succ_cons, Fuse.itemsFrom_cons, List.filterMap_cons, ih]
        simp [Fuse.itemOf, hoff]
      · have hsnd : (L.map Prod.snd).length ≤ off := by simpa using hoff
        rw [List.drop_eq_nil_of_le hsnd, List.drop_eq_nil_of_le (Nat.not_lt.mp hoff)]
        simp

/-- `name` is the name of a record in the list. -/
def FFS.Returned (s : FFS) (d : Nat) (name : Str) (returned : List ((Nat × Nat) × DirEntry)) :
    Prop :=
  ∃ e b off, s.findEntry d name = some (some (e, b, off)) ∧ ((b, off), e) ∈ returned

/-- A listing of the directory `ino` that started in `s₀`: calls of `readdir` with any
replies, each from the offset of the last item before it, and between them removals of
entries that were returned, where `ok` allows for them. With the state go the offset, the
items and the records they stand for. -/
inductive Paging (ok : FFS → Nat → Prop) (ino : Nat) (s₀ : FFS) :
    FFS → Nat → List Fuse.DirItem → List ((Nat × Nat) × DirEntry) → Prop where
  | start : Paging ok ino s₀ s₀ 0 [] []
  | page {s s' : FFS} {off : Nat} {items page : List Fuse.DirItem}
      {returned : List ((Nat × Nat) × DirEntry)} {full : Fuse.ReplyDirectory}
      (h : Paging ok ino s₀ s off items returned)
      (hrun : Fuse.readdir ino off full s = .ok (.ok page) s') :
      Paging ok ino s₀ s' (Fuse.resume off page) (items ++ page)
        (returned ++ s.handed (Fuse.v1InodeNumber ino) page)
  | remove {s s' : FFS} {off : Nat} {items : List Fuse.DirItem}
      {returned : List ((Nat × Nat) × DirEntry)} {name : Str} {now : UInt64}
      (h : Paging ok ino s₀ s off items returned) (hok : ok s off)
      (hname : s.Returned (Fuse.v1InodeNumber ino) name returned)
      (hrun : Fuse.unlink ino name now s = .ok (.ok ()) s' ∨
        Fuse.rmdir ino name now s = .ok (.ok ()) s') :
      Paging ok ino s₀ s' off items returned

/-- A reply that has room finds nothing more. -/
def Exhausted (ino : Nat) (s : FFS) (off : Nat) : Prop :=
  ∃ full s', (∀ item, full [] item = false) ∧ Fuse.readdir ino off full s = .ok (.ok []) s'

/-- All records of the directory have been returned. -/
def FFS.Through (s : FFS) (d off : Nat) : Prop := (s.listed d).length ≤ off

namespace Geom

variable {g : Geom} {gaps : Bool} {s₀ s s' : FFS} {t₀ t : St} {i ino off : Nat}
  {items page : List Fuse.DirItem} {returned : List ((Nat × Nat) × DirEntry)}
  {full : Fuse.ReplyDirectory}

theorem Rep.map_listed (hs : g.Rep s t) (i : Nat) :
    (s.listed i).map Prod.snd = (t.ino i).entries t.data := by
  rw [FFS.listed, List.map_map, hs.view_eq]
  exact View.map_liveRecords _ _

/-- One call of a listing. -/
theorem handed_of_readdir (hs : g.Rep s t) (ho : g.Owning t) (hi : g.Counted i)
    (hino : Fuse.v1InodeNumber ino = i) (hrun : Fuse.readdir ino off full s = .ok (.ok page) s') :
    s' = s ∧ t.ibit i = true ∧ ∃ k, k ≤ (s.listed i).length - off ∧
      page = Fuse.itemsFrom off ((((s.listed i).map Prod.snd).drop off).take k) ∧
      s.handed i page = ((s.listed i).drop off).take k ∧ Fuse.resume off page = off + k ∧
      ((∀ item, full [] item = false) → page = [] → s.Through i off) := by
  obtain ⟨rfl, hpage⟩ := (wp_readdir hs ho hi hino).of_ok hrun
  obtain ⟨hlive, -, k, hk, hitems, hnext⟩ := hpage page rfl
  rw [← hs.map_listed] at hk hitems hnext
  rw [List.length_map] at hk
  refine ⟨rfl, hlive, k, hk, hitems, ?_, ?_, ?_⟩
  · rw [hitems]
    exact filterMap_itemsFrom
  · rw [hitems, Fuse.resume_itemsFrom, List.length_take, List.length_drop, List.length_map]
    omega
  · intro hroom hnil
    by_contra hmore
    have hoff : off < (s'.listed i).length := Nat.not_le.mp hmore
    have hk0 : k = 0 := by
      have hlen := congrArg List.length hitems
      rw [hnil, Fuse.itemsFrom, List.length_map, List.length_zipIdx, List.length_take,
        List.length_drop, List.length_map, List.length_nil] at hlen
      omega
    have hfull := hnext (s'.listed i)[off].2 (by simp [hk0, hoff])
    rw [hnil, hroom] at hfull
    cases hfull

/-- How far a listing has come. Nothing is removed before all has been returned. -/
def Listing (g : Geom) (gaps : Bool) (i : Nat) (s₀ s : FFS) (off : Nat)
    (items : List Fuse.DirItem) (returned : List ((Nat × Nat) × DirEntry)) : Prop :=
  ∃ t, g.Rep s t ∧ g.Inv gaps t ∧
    ((s = s₀ ∧ off ≤ (s₀.listed i).length ∧ returned = (s₀.listed i).take off ∧
        items = Fuse.itemsFrom 0 (((s₀.listed i).map Prod.snd).take off)) ∨
      (returned = s₀.listed i ∧ (t.ibit i = true → s.Through i off)))

theorem listing_of_paging (hs : g.Rep s₀ t₀) (h : g.Inv gaps t₀) (hlive : t₀.ibit i = true)
    (hino : Fuse.v1InodeNumber ino = i)
    (hp : Paging (fun s off => s.Through i off) ino s₀ s off items returned) :
    g.Listing gaps i s₀ s off items returned := by
  have hi := hs.counted h.owning hlive
  induction hp with
  | start => exact ⟨t₀, hs, h, .inl ⟨rfl, Nat.zero_le _, by simp, by simp⟩⟩
  | @page s₁ s₂ off₁ items₁ page₁ returned₁ full₁ _ hrun ih =>
      obtain ⟨t, hs₁, h₁, hcase⟩ := ih
      obtain ⟨rfl, hl, k, hk, hpage, hhanded, hresume, -⟩ :=
        handed_of_readdir hs₁ h₁.owning hi hino hrun
      refine ⟨t, hs₁, h₁, ?_⟩
      rw [hino, hhanded, hresume]
      rcases hcase with ⟨rfl, hoff, rfl, rfl⟩ | ⟨rfl, hthrough⟩
      · refine .inl ⟨rfl, by omega, ?_, ?_⟩
        · rw [List.take_add]
        · have hlen : (((s₂.listed i).map Prod.snd).take off₁).length = off₁ := by
            rw [List.length_take, List.length_map]
            omega
          rw [hpage, List.take_add, Fuse.itemsFrom_append, hlen, Nat.zero_add]
      · have hend := hthrough hl
        rw [FFS.Through] at hend
        have hk0 : k = 0 := by omega
        refine .inr ⟨?_, fun _ => ?_⟩
        · rw [hk0, List.take_zero, List.append_nil]
        · rw [hk0]
          exact hend
  | @remove s₁ s₂ off₁ items₁ returned₁ name now _ hok _ hrun ih =>
      obtain ⟨t, hs₁, h₁, hcase⟩ := ih
      obtain ⟨t₂, hs₂, h₂, hle⟩ : ∃ t', g.Rep s₂ t' ∧ g.Inv gaps t' ∧
          ∀ i, t'.ibit i = true → (s₂.listed i).length ≤ (s₁.listed i).length := by
        rcases hrun with hrun | hrun
        · exact listed_removed hs₁ h₁ hi hino hrun
        · exact listed_removed hs₁ h₁ hi hino hrun
      have hthrough : t₂.ibit i = true → s₂.Through i off₁ := fun hl =>
        Nat.le_trans (hle i hl) hok
      rcases hcase with ⟨rfl, hoff, rfl, -⟩ | ⟨rfl, -⟩
      · exact ⟨t₂, hs₂, h₂, .inr ⟨List.take_of_length_le hok, hthrough⟩⟩
      · exact ⟨t₂, hs₂, h₂, .inr ⟨rfl, hthrough⟩⟩

end Geom

end FerrisFS
