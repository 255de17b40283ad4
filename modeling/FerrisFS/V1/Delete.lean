import FerrisFS.V1.Link

/-!
# Deleting

`delete` from the emptiness check on. An inode with further links loses one; with
its last link it is deallocated with its content blocks. Its pointer blocks stay
marked.
-/

namespace FerrisFS

open Lib DirectoryHandler INodeTableHandler FormatV1

/-! ## The emptiness check -/

/-- The emptiness check passes over this record. -/
def PassedOver (e : DirEntry) : Prop :=
  e.isFree = true ∨ ¬ (e.nameLen > 2 ∨ e.name.getD 0 0 ≠ dot ∨
    (e.nameLen = 2 ∧ e.name.getD 1 0 ≠ dot))

theorem emptyCallback_cases {e : DirEntry} {block off : Nat} {r : Bool × Bool}
    (h : emptyCallback e block off true = some r) :
    PassedOver e ∧ r = (true, false) ∨ ¬ PassedOver e ∧ r = (false, true) := by
  unfold emptyCallback at h
  split at h
  · rename_i hfree
    cases h
    exact .inl ⟨.inl hfree, rfl⟩
  · rename_i hfree
    split at h
    · rename_i hname
      cases h
      exact .inr ⟨fun hp => hp.elim hfree fun hn => hn hname, rfl⟩
    · rename_i hname
      cases h
      exact .inl ⟨.inr hname, rfl⟩

theorem foldRecords_empty {block : Nat} : ∀ {l : List (Nat × DirEntry)} {r : Bool × Bool},
    foldRecords emptyCallback block l true = some r →
    (∀ x ∈ l, PassedOver x.2) ∧ r = (true, false) ∨ r = (false, true) := by
  intro l
  induction l with
  | nil =>
      intro r h
      cases h
      exact .inl ⟨by simp, rfl⟩
  | cons x rest ih =>
      intro r h
      obtain ⟨off, e⟩ := x
      unfold foldRecords at h
      split at h
      · cases h
      · rename_i acc heq
        rcases emptyCallback_cases heq with ⟨-, hr⟩ | ⟨-, hr⟩
        · cases hr
        · cases hr
          cases h
          exact .inr rfl
      · rename_i acc heq
        rcases emptyCallback_cases heq with ⟨hp, hr⟩ | ⟨-, hr⟩
        · cases hr
          rcases ih h with ⟨hall, hr⟩ | hr
          · refine .inl ⟨fun y hy => ?_, hr⟩
            rcases List.mem_cons.mp hy with rfl | hy
            · exact hp
            · exact hall y hy
          · exact .inr hr
        · cases hr

theorem foldBlocks_empty {data : Region} : ∀ {bs : List Nat} {stop : Bool},
    foldBlocks emptyCallback data bs true = some (true, stop) →
    ∀ b ∈ bs, ∀ x ∈ (data b).records, PassedOver x.2 := by
  intro bs
  induction bs with
  | nil => intro stop _ b hb; exact absurd hb List.not_mem_nil
  | cons b bs ih =>
      intro stop h
      unfold foldBlocks at h
      split at h
      · cases h
      · rename_i acc heq
        cases h
        rcases foldRecords_empty heq with ⟨-, hr⟩ | hr <;> cases hr
      · rename_i acc heq
        rcases foldRecords_empty heq with ⟨hall, hr⟩ | hr
        · cases hr
          intro b' hb'
          rcases List.mem_cons.mp hb' with rfl | hb'
          · exact hall
          · exact ih h b' hb'
        · cases hr

/-- The live records that the emptiness check passes over are `.` and `..`. -/
theorem passedOver_iff {b : Block} {off : Nat} :
    PassedOver (DirEntry.ofBytes b off) ↔ (DirEntry.ofBytes b off).isFree = true ∨
      (DirEntry.ofBytes b off).label = [dot] ∨ (DirEntry.ofBytes b off).label = [dot, dot] := by
  refine or_congr_right ?_
  -- a record without a name has a zeroed array
  have hzero : (DirEntry.ofBytes b off).nameLen = 0 →
      (DirEntry.ofBytes b off).name.getD 0 0 ≠ dot := by
    intro hn
    have hname : (DirEntry.ofBytes b off).name = DirEntry.padName [] := by
      simp only [DirEntry.ofBytes] at hn ⊢
      rw [hn, Nat.zero_min, Nat.zero_min]
      rfl
    rw [hname]
    decide
  have hlen : (DirEntry.ofBytes b off).name.length = DirEntry.MAX_NAME :=
    DirEntry.padName_length _
  unfold DirEntry.label
  generalize (DirEntry.ofBytes b off).name = name at hzero hlen ⊢
  generalize (DirEntry.ofBytes b off).nameLen = n at hzero ⊢
  -- the array has more bytes than the two that are looked at
  obtain ⟨x, y, z, rest, rfl⟩ : ∃ x y z rest, name = x :: y :: z :: rest := by
    rcases name with _ | ⟨x, _ | ⟨y, _ | ⟨z, rest⟩⟩⟩
    · cases hlen
    · cases hlen
    · cases hlen
    · exact ⟨x, y, z, rest, rfl⟩
  rcases n with _ | _ | _ | n
  · simpa using hzero rfl
  · simp
  · simp
  · simp

/-! ## The freed record -/

/-- `b'` is `b` with the record `e` at `off` freed. -/
structure Block.Freed (gaps : Bool) (b : Block) (off : Nat) (e : DirEntry) (b' : Block) : Prop where
  chunks : ∃ pre c post pre' left right post', TidyLayout gaps b (pre ++ c :: post) ∧
    (∀ k ∈ pre ++ [c], ¬ Chunk.IsGap k) ∧ off = pre.flatten.length ∧ off + 9 ≤ BLOCK_SIZE ∧
    c.IsLive ∧ c.entry = e ∧ Merge pre c post pre' left right post' ∧
    b' = b.splice pre'.flatten.length (DirEntry.free (mergedLen left c right)).bytes

theorem Block.Freed.slots {gaps : Bool} {b b' : Block} {off : Nat} {e : DirEntry}
    (h : b.Freed gaps off e b') :
    (∃ cs, TidyLayout gaps b' cs) ∧ ∃ s₁ l r s₂ start m, (∀ x ∈ l ++ r, x.2.isFree = true) ∧
      l.length ≤ 1 ∧ r.length ≤ 1 ∧ b.slots = s₁ ++ l ++ (off, .live e) :: (r ++ s₂) ∧
      b'.slots = s₁ ++ (start, .free m) :: s₂ := by
  obtain ⟨pre, c, post, pre', left, right, post', hlay, hg, rfl, h9, hc, rfl, hm, rfl⟩ := h.chunks
  obtain ⟨htidy, s₁, l, r, s₂, hfree, hl, hr, hold, hnew⟩ := hlay.freed hg h9 hc hm
  exact ⟨htidy, s₁, l, r, s₂, _, _, hfree, hl, hr, hold, hnew⟩

/-- The other records of the block stay. -/
theorem Block.Freed.live_iff {gaps : Bool} {b b' : Block} {off : Nat} {e : DirEntry}
    (h : b.Freed gaps off e b') {o : Nat} {x : DirEntry} :
    (o, Slot.live x) ∈ b'.slots ↔ (o, Slot.live x) ∈ b.slots ∧ o ≠ off := by
  obtain ⟨-, s₁, l, r, s₂, start, m, hfree, -, -, hold, hnew⟩ := h.slots
  have hmem : (o, Slot.live x) ∈ b'.slots ↔ (o, Slot.live x) ∈ s₁ ++ s₂ := by
    rw [hnew]
    simp
  have hnot : ∀ y ∈ l ++ r, y ≠ (o, Slot.live x) := by
    rintro y hy rfl
    exact absurd (hfree _ hy) (by simp [Slot.isFree])
  rw [hmem]
  constructor
  · intro hs
    have hin : (o, Slot.live x) ∈ (s₁ ++ l) ++ (r ++ s₂) := by
      rcases List.mem_append.mp hs with hs | hs
      · exact List.mem_append_left _ (List.mem_append_left _ hs)
      · exact List.mem_append_right _ (List.mem_append_right _ hs)
    refine ⟨?_, Block.not_mem_of_split hold hin⟩
    rw [hold]
    rcases List.mem_append.mp hin with hs | hs
    · exact List.mem_append_left _ hs
    · exact List.mem_append_right _ (List.mem_cons_of_mem _ hs)
  · rintro ⟨hs, hne⟩
    rw [hold] at hs
    rcases List.mem_append.mp hs with hs | hs
    · rcases List.mem_append.mp hs with hs | hs
      · exact List.mem_append_left _ hs
      · exact absurd rfl (hnot _ (List.mem_append_left _ hs))
    · rcases List.mem_cons.mp hs with heq | hs
      · cases heq
        exact absurd rfl hne
      rcases List.mem_append.mp hs with hs | hs
      · exact absurd rfl (hnot _ (List.mem_append_right _ hs))
      · exact List.mem_append_right _ hs

/-- The state after one of several links was dropped. -/
def St.unlinked (t : St) (i p : Nat) (now : UInt64) (blk : Nat) (b' : Block) : St :=
  { t with
    ino := Function.update
      (Function.update t.ino i { t.ino i with links := (t.ino i).links - 1 }) p
      { t.ino p with modified := now.toNat }
    data := Function.update t.data blk b' }

/-- The state after the last link was dropped. -/
def St.removed (t : St) (i p : Nat) (now : UInt64) (blk : Nat) (b' : Block) : St :=
  { t with
    ibit := setBits t.ibit [i] false
    dbit := setBits t.dbit (t.content i) false
    freeInodes := t.freeInodes + 1
    freeData := t.freeData + (t.ino i).blocks
    ino := Function.update t.ino p { t.ino p with modified := now.toNat }
    data := Function.update t.data blk b' }

namespace Geom

variable {g : Geom} {gaps : Bool} {t t' : St} {i p : Nat} {k : Nat × Nat} {e : DirEntry}
  {now : UInt64} {b' : Block}

/-- An empty directory names nothing. -/
def Empty (t : St) (i : Nat) : Prop :=
  ∀ k e, t.Rec i k e → e.label = [dot] ∨ e.label = [dot, dot]

theorem wpr_emptyCheck (hm : (t.ino i).Mapped g t.data) :
    Prog.wpr g.Holds (g.directoryHandler.iterate (t.ino i) g.inodeHandler emptyCallback true)
      (fun r v' => v' = t.toView ∧ (r = true → Empty t i)) (fun _ v' => v' = t.toView)
      t.toView := by
  refine Prog.wpr_mono (wpr_iterate hm) ?_ fun _ _ he => he
  rintro r v' ⟨rfl, stop, hfold, -⟩
  refine ⟨rfl, ?_⟩
  rintro rfl k e hr
  obtain ⟨⟨off, e'⟩, hmem, heq⟩ := List.mem_map.mp hr.slot
  have hp := foldBlocks_empty hfold k.1 hr.block _ hmem
  obtain ⟨rfl, hlive⟩ := DirEntry.of_slot (congrArg Prod.snd heq)
  obtain ⟨-, hread, -⟩ := Block.recordsFrom_sound hmem
  rw [hread] at hp hlive ⊢
  rcases passedOver_iff.mp hp with hfree | hlabel
  · rw [hlive] at hfree
    cases hfree
  · exact hlabel

theorem runs_collectBlocks {v : View} {n : INode} (hm : n.Mapped g v.data) :
    ∀ (is : List Nat), (∀ i ∈ is, i < n.blocks) →
      Prog.Runs g.Holds (collectBlocks g.inodeHandler n is) v (is.map (n.blockAt v.data)) v
  | [], _ => Prog.Runs.pure _ _
  | i :: is, his =>
      (runs_getBlock (his i List.mem_cons_self) hm.blocks_le hm.pointers).bind
        ((runs_collectBlocks hm is fun j hj => his j (List.mem_cons_of_mem _ hj)).bind
          (Prog.Runs.pure _ _))

/-- One of several links is dropped. -/
structure Unlinked (g : Geom) (gaps : Bool) (t : St) (i p : Nat) (k : Nat × Nat) (e : DirEntry)
    (now : UInt64) (b' : Block) (t' : St) : Prop where
  record : t.Rec p k e
  target : e.inode = i
  named : e.label ≠ [dot] ∧ e.label ≠ [dot, dot]
  freed : (t.data k.1).Freed gaps k.2 e b'
  many : 1 < (t.ino i).links
  state : t' =
    { t with
      ino := Function.update
        (Function.update t.ino i { t.ino i with links := (t.ino i).links - 1 }) p
        { t.ino p with modified := now.toNat }
      data := Function.update t.data k.1 b' }

/-- The last link is dropped and the inode is deallocated. -/
structure Removed (g : Geom) (gaps : Bool) (t : St) (i p : Nat) (k : Nat × Nat) (e : DirEntry)
    (now : UInt64) (b' : Block) (t' : St) : Prop where
  record : t.Rec p k e
  target : e.inode = i
  named : e.label ≠ [dot] ∧ e.label ≠ [dot, dot]
  freed : (t.data k.1).Freed gaps k.2 e b'
  last : (t.ino i).links ≤ 1
  empty : Empty t i
  state : t' =
    { t with
      ibit := setBits t.ibit [i] false
      dbit := setBits t.dbit (t.content i) false
      freeInodes := t.freeInodes + 1
      freeData := t.freeData + (t.ino i).blocks
      ino := Function.update t.ino p { t.ino p with modified := now.toNat }
      data := Function.update t.data k.1 b' }

/-- A set bit lies in its bitmap. -/
theorem Rep.ibit_lt {s : FFS} (hs : g.Rep s t) (hi : t.ibit i = true) :
    i < 2048 * g.inodeBitmapBlocks := by
  rw [← hs.1.2] at hi
  simp only [view, Bool.and_eq_true, decide_eq_true_eq] at hi
  exact hi.1

/-- What a representative says about the state may be used. -/
theorem wpr_of_rep {β : Type} {P : Prop} {m : FsM β} {Q : β → St → Prop}
    {E : FSError → St → Prop} (hP : ∀ s, g.Rep s t → P) (h : P → Prog.wpr g.Rep m Q E t) :
    Prog.wpr g.Rep m Q E t :=
  fun s hs => h (hP s hs) s hs

/-- A record with what surrounds it in its block, and what freeing it leaves there. -/
theorem Intact.freed_of_rec (h : g.Intact gaps t) (hr : t.Rec p k e) :
    ∃ pre c post pre' left right post', TidyLayout gaps (t.data k.1) (pre ++ c :: post) ∧
      (∀ x ∈ pre, x.Ok ∧ ¬ x.IsGap) ∧ c.IsLive ∧ (∀ x ∈ post, x.Ok) ∧
      k.2 = pre.flatten.length ∧ Merge pre c post pre' left right post' ∧
      (t.data k.1).Freed gaps k.2 e ((t.data k.1).splice pre'.flatten.length
        (DirEntry.free (mergedLen left c right)).bytes) := by
  obtain ⟨cs, hlay⟩ := h.tidy p hr.live hr.dir k.1 hr.block
  obtain ⟨pre, c, post, rfl, hoff, hslot, h9, hg⟩ := hlay.chunk_of_slot hr.slot
  obtain ⟨hc, rfl⟩ := (hlay.tidy c (by simp)).of_live (hg c (by simp)) hslot
  obtain ⟨pre', left, right, post', hm⟩ := exists_merge pre c post
  refine ⟨pre, c, post, pre', left, right, post', hlay, fun x hx => ?_, hc, fun x hx => ?_, hoff,
    hm, ⟨pre, c, post, pre', left, right, post', hlay, hg, hoff, h9, hc, rfl, hm, rfl⟩⟩
  · exact ⟨(hlay.tidy x (by simp [hx])).ok, hg x (by simp [hx])⟩
  · exact (hlay.tidy x (by simp [hx])).ok

/-- Freeing the record of a directory. -/
theorem wpr_freeRecord (h : g.Intact gaps t) (hr : t.Rec p k e) {t₁ : St}
    (hdata : t₁.data = t.data) :
    Prog.wpr g.Rep (onDevice (g.directoryHandler.freeRegion k.1 k.2))
      (fun _ t' => ∃ b', (t.data k.1).Freed gaps k.2 e b' ∧
        t' = { t₁ with data := Function.update t.data k.1 b' })
      (fun _ _ => False) t₁ := by
  obtain ⟨pre, c, post, pre', left, right, post', hlay, hpre, hc, hpost, hoff, hm, hfreed⟩ :=
    h.freed_of_rec hr
  have hbytes : (t₁.data k.1).bytes = (pre ++ c :: post).flatten := by
    rw [hdata]
    exact hlay.bytes
  rw [hoff] at hfreed ⊢
  refine wpr_onDevice (wpr_freeRegion (v := t₁.toView)
    ((h.mapped hr.live).content _ hr.block) hbytes hpre hc hpost hm ?_)
  rw [← hdata] at hfreed ⊢
  exact ⟨_, hfreed, rfl⟩

/-- What follows the emptiness check does not fail, if freeing the record does not; `F` is
what is known of the block afterwards. -/
theorem wpr_dropLink_of (now : UInt64) (hir : ∀ j, (t.ino j).InRange) (hi : i < g.inodes)
    (hp : p < g.inodes) (hm : (t.ino i).Mapped g t.data) (hlive : t.ibit i = true)
    {F : Block → Prop}
    (hfree : ∀ (t₁ : St), t₁.data = t.data →
      Prog.wpr g.Rep (onDevice (g.directoryHandler.freeRegion k.1 k.2))
        (fun _ t' => ∃ b', F b' ∧ t' = { t₁ with data := Function.update t.data k.1 b' })
        (fun _ _ => False) t₁) :
    Prog.wpr g.Rep
      (if (t.ino i).links > 1 then
        onDevice (g.inodeHandler.writeInode i
            { t.ino i with links := (t.ino i).links - 1 }) >>= fun _ =>
        onDevice (g.directoryHandler.freeRegion k.1 k.2) >>= fun _ =>
        onDevice (g.inodeHandler.writeInode p { t.ino p with modified := now.toNat })
      else
        onDevice (collectBlocks g.inodeHandler (t.ino i) (List.range (t.ino i).blocks)) >>=
          fun dataToDealloc =>
        onDevice ((g.blockAllocator t.lastData).deallocate dataToDealloc) >>= fun _ =>
        onDevice ((g.inodeAllocator t.lastInode).deallocate [i]) >>= fun _ =>
        add32 t.freeData dataToDealloc.length >>= fun freeData =>
        add32 t.freeInodes 1 >>= fun freeInodes =>
        modifyFormat (fun f => { f with
          superblock := { f.superblock with
            freeData := freeData, freeInodes := freeInodes } }) >>= fun _ =>
        writeSuperblock >>= fun _ =>
        onDevice (g.directoryHandler.freeRegion k.1 k.2) >>= fun _ =>
        onDevice (g.inodeHandler.writeInode p { t.ino p with modified := now.toNat }))
      (fun _ t' => ∃ b', F b' ∧
        (1 < (t.ino i).links ∧ t' = t.unlinked i p now k.1 b' ∨
          (t.ino i).links ≤ 1 ∧ t' = t.removed i p now k.1 b'))
      (fun _ _ => False) t := by
  have hpr : ({ t.ino p with modified := now.toNat } : INode).InRange :=
    { hir p with modified := now.toNat_lt }
  refine Prog.wpr_ite (fun hmany => ?_) fun hlast => ?_
  · have hdec : ({ t.ino i with links := (t.ino i).links - 1 } : INode).InRange :=
      { hir i with links := Nat.lt_of_le_of_lt (Nat.sub_le _ _) (hir i).links }
    refine (runs_onDevice (runs_writeInode hi hdec)).seq ?_
    refine Prog.wpr_seq (hfree _ rfl) ?_ fun _ _ he => he
    intro _ t' hfreed
    obtain ⟨b', hb', rfl⟩ := hfreed
    refine (runs_onDevice (runs_writeInode hp hpr)).wpr ?_
    exact ⟨b', hb', .inl ⟨hmany, rfl⟩⟩
  · have hbits : ∀ b ∈ t.content i, b < 2048 * g.blockBitmapBlocks := fun b hb =>
      Nat.lt_of_lt_of_le (hm.content b hb) g.cap_le_bits
    have hlen : ((List.range (t.ino i).blocks).map ((t.ino i).blockAt t.data)).length =
        (t.ino i).blocks := by simp
    refine wpr_of_rep (fun s hs => hs.ibit_lt hlive) fun hibit => ?_
    refine (runs_onDevice (runs_collectBlocks hm _ fun j hj => List.mem_range.mp hj)).seq ?_
    refine (runs_onDevice (runs_deallocate_data hbits)).seq ?_
    refine (runs_onDevice (runs_deallocate_inode
      fun j hj => List.mem_singleton.mp hj ▸ hibit)).seq ?_
    rw [hlen]
    refine Prog.wpr_checkedAdd fun _ => Prog.wpr_checkedAdd fun _ => ?_
    refine wpr_modifyFormat { t with
      ibit := setBits t.ibit [i] false
      dbit := setBits t.dbit (t.content i) false
      freeInodes := t.freeInodes + 1
      freeData := t.freeData + (t.ino i).blocks } rfl rfl ?_
    refine runs_writeSuperblock.seq ?_
    refine Prog.wpr_seq (hfree { t with
      ibit := setBits t.ibit [i] false
      dbit := setBits t.dbit (t.content i) false
      freeInodes := t.freeInodes + 1
      freeData := t.freeData + (t.ino i).blocks } rfl) ?_ fun _ _ he => he
    intro _ t' hfreed
    obtain ⟨b', hb', rfl⟩ := hfreed
    refine (runs_onDevice (runs_writeInode hp hpr)).wpr ?_
    exact ⟨b', hb', .inr ⟨Nat.not_lt.mp hlast, rfl⟩⟩

/-- What follows the emptiness check does not fail. -/
theorem wpr_dropLink (now : UInt64) (h : g.Intact gaps t) (hr : t.Rec p k e)
    (htarget : e.inode = i) (hlive : t.ibit i = true)
    (hnamed : e.label ≠ [dot] ∧ e.label ≠ [dot, dot])
    (hempty : (t.ino i).fileType = .directory → Empty t i) :
    Prog.wpr g.Rep
      (if (t.ino i).links > 1 then
        onDevice (g.inodeHandler.writeInode i
            { t.ino i with links := (t.ino i).links - 1 }) >>= fun _ =>
        onDevice (g.directoryHandler.freeRegion k.1 k.2) >>= fun _ =>
        onDevice (g.inodeHandler.writeInode p { t.ino p with modified := now.toNat })
      else
        onDevice (collectBlocks g.inodeHandler (t.ino i) (List.range (t.ino i).blocks)) >>=
          fun dataToDealloc =>
        onDevice ((g.blockAllocator t.lastData).deallocate dataToDealloc) >>= fun _ =>
        onDevice ((g.inodeAllocator t.lastInode).deallocate [i]) >>= fun _ =>
        add32 t.freeData dataToDealloc.length >>= fun freeData =>
        add32 t.freeInodes 1 >>= fun freeInodes =>
        modifyFormat (fun f => { f with
          superblock := { f.superblock with
            freeData := freeData, freeInodes := freeInodes } }) >>= fun _ =>
        writeSuperblock >>= fun _ =>
        onDevice (g.directoryHandler.freeRegion k.1 k.2) >>= fun _ =>
        onDevice (g.inodeHandler.writeInode p { t.ino p with modified := now.toNat }))
      (fun _ t' => ∃ b', g.Unlinked gaps t i p k e now b' t' ∨
        g.Removed gaps t i p k e now b' t')
      (fun _ _ => False) t := by
  have hemp : Empty t i := by
    by_cases hdir : (t.ino i).fileType = .directory
    · exact hempty hdir
    · exact fun k e hr => absurd hr.dir hdir
  refine Prog.wpr_mono (wpr_dropLink_of now h.inRange (h.lt hlive) (h.lt hr.live)
    (h.mapped hlive) hlive fun t₁ hdata => wpr_freeRecord h hr hdata) ?_ fun _ _ he => he
  intro _ t' hdrop
  obtain ⟨b', hfreed, ⟨hmany, hstate⟩ | ⟨hlast, hstate⟩⟩ := hdrop
  · exact ⟨b', .inl ⟨hr, htarget, hnamed, hfreed, hmany, hstate⟩⟩
  · exact ⟨b', .inr ⟨hr, htarget, hnamed, hfreed, hlast, hemp, hstate⟩⟩

/-- The record names `i`, or `i` is a directory that is not empty. -/
theorem wpr_unlink (h : g.Intact gaps t) (hr : t.Rec p k e) (htarget : e.inode = i)
    (hlive : t.ibit i = true) (hd : e.label ≠ [dot])
    (hup : e.label = [dot, dot] → ¬ Empty t i ∧ (t.ino i).fileType = .directory)
    {notEmpty : FSError} :
    Prog.wpr g.Rep (unlink (t.ino i) i (t.ino p) p k.1 k.2 notEmpty now)
      (fun _ t' => ∃ b', g.Unlinked gaps t i p k e now b' t' ∨
        g.Removed gaps t i p k e now b' t')
      (fun _ t' => t' = t) t := by
  refine runs_getFormat.seq ?_
  have hrest := fun hempty : (t.ino i).fileType = .directory → Empty t i =>
    Prog.wpr_mono (wpr_dropLink now h hr htarget hlive
      ⟨hd, fun hl => (hup hl).1 (hempty (hup hl).2)⟩ hempty)
      (fun _ _ hq => hq) fun _ t' he => (he.elim : t' = t)
  refine Prog.wpr_ite (fun hdir => ?_) fun hdir => hrest fun hd => absurd hd hdir
  refine wpr_read (wpr_emptyCheck (h.mapped hlive)) ?_ fun _ => rfl
  intro empty hempty
  refine Prog.wpr_guard (fun _ => rfl) fun hne => hrest fun _ => hempty ?_
  simpa using hne

/-! ## What deleting keeps -/

/-- The record `e` of `p` is freed; inodes change in fields other than their type
and their blocks. -/
structure Cut (gaps : Bool) (t t' : St) (p : Nat) (k : Nat × Nat) (e : DirEntry)
    (b' : Block) : Prop where
  record : t.Rec p k e
  freed : (t.data k.1).Freed gaps k.2 e b'
  data : t'.data = Function.update t.data k.1 b'
  live : ∀ j, t'.ibit j = true → t.ibit j = true
  fileType : ∀ j, (t'.ino j).fileType = (t.ino j).fileType
  blocks : ∀ j, (t'.ino j).blocks = (t.ino j).blocks
  content : ∀ j data, (t'.ino j).content data = (t.ino j).content data
  pointers : ∀ j data, (t'.ino j).pointers data = (t.ino j).pointers data

namespace Cut

variable {j : Nat}

theorem pointer_ne (h : g.Intact gaps t) (hc : Cut gaps t t' p k e b') (hj : t.ibit j = true)
    {b : Nat} (hb : b ∈ (t.ino j).pointers t.data) : b ≠ k.1 :=
  h.owning.pointer_ne hc.record.live hj hc.record.block hb

theorem content_eq (h : g.Intact gaps t) (hc : Cut gaps t t' p k e b') (hj : t.ibit j = true) :
    t'.content j = t.content j := by
  rw [View.content, hc.content, hc.data]
  exact INode.content_congr fun b hb => Function.update_of_ne (hc.pointer_ne h hj hb) _ _

theorem owned_eq (h : g.Intact gaps t) (hc : Cut gaps t t' p k e b') (hj : t.ibit j = true) :
    t'.owned j = t.owned j := by
  have hptr : (t'.ino j).pointers t'.data = (t.ino j).pointers t.data := by
    rw [hc.pointers, hc.data]
    exact INode.pointers_congr fun b hb => Function.update_of_ne (hc.pointer_ne h hj hb) _ _
  have hcon : (t'.ino j).content t'.data = (t.ino j).content t.data := hc.content_eq h hj
  rw [View.owned, INode.owned, hcon, hptr]
  rfl

theorem data_of_ne (h : g.Intact gaps t) (hc : Cut gaps t t' p k e b') (hj : t.ibit j = true)
    (hjp : j ≠ p) {b : Nat} (hb : b ∈ t.owned j) : t'.data b = t.data b := by
  rw [hc.data]
  refine Function.update_of_ne ?_ _ _
  rintro rfl
  exact hjp (h.owner_unique hj hc.record.live hb (List.mem_append_left _ hc.record.block))

/-- The records are those of before, less the freed one. -/
theorem rec_iff (h : g.Intact gaps t) (hc : Cut gaps t t' p k e b') {d : Nat}
    (hd : t'.ibit d = true) {k' : Nat × Nat} {x : DirEntry} :
    t'.Rec d k' x ↔ t.Rec d k' x ∧ ¬ (d = p ∧ k' = k) := by
  have hlive := hc.live d hd
  have hcon := hc.content_eq h hlive
  have hslot : k'.1 ∈ t.content d → ((k'.2, Slot.live x) ∈ (t'.data k'.1).slots ↔
      (k'.2, Slot.live x) ∈ (t.data k'.1).slots ∧ ¬ (d = p ∧ k' = k)) := by
    intro hb
    by_cases hk1 : k'.1 = k.1
    · have hdp : d = p := h.owner_unique hlive hc.record.live (List.mem_append_left _ hb)
        (by rw [hk1]; exact List.mem_append_left _ hc.record.block)
      rw [hc.data, hk1, Function.update_self, hc.freed.live_iff]
      refine and_congr_right fun _ => not_congr ⟨fun h2 => ⟨hdp, Prod.ext hk1 h2⟩, fun h2 => ?_⟩
      rw [h2.2]
    · rw [hc.data, Function.update_of_ne hk1]
      exact ⟨fun hs => ⟨hs, fun h2 => hk1 (by rw [h2.2])⟩, fun hs => hs.1⟩
  constructor
  · intro hr
    have hb : k'.1 ∈ t.content d := hcon ▸ hr.block
    have hs := (hslot hb).mp hr.slot
    exact ⟨⟨hlive, hc.fileType d ▸ hr.dir, hb, hs.1⟩, hs.2⟩
  · rintro ⟨hr, hne⟩
    refine ⟨hd, ?_, ?_, (hslot hr.block).mpr ⟨hr.slot, hne⟩⟩
    · rw [hc.fileType]
      exact hr.dir
    · show k'.1 ∈ t'.content d
      rw [hcon]
      exact hr.block

theorem owning (h : g.Intact gaps t) (hc : Cut gaps t t' p k e b')
    (hmark : ∀ j, t'.ibit j = true → ∀ b ∈ t.owned j, t.dbit b = true → t'.dbit b = true) :
    g.Owning t' where
  ibit_lt j hj := h.lt (hc.live j hj)
  mapped j hj := by
    have hlive := hc.live j hj
    refine ⟨by rw [hc.blocks]; exact (h.mapped hlive).blocks_le, fun b hb => ?_⟩
    have hb : b ∈ t'.owned j := hb
    rw [hc.owned_eq h hlive] at hb
    exact (h.mapped hlive).lt b hb
  owns := h.owning.owns.mono (fun j hj => ⟨hc.live j hj, hc.owned_eq h (hc.live j hj)⟩) hmark

theorem tidy (h : g.Intact gaps t) (hc : Cut gaps t t' p k e b') :
    ∀ d, t'.ibit d = true → (t'.ino d).fileType = .directory →
      ∀ b ∈ t'.content d, ∃ cs, TidyLayout gaps (t'.data b) cs := by
  intro d hd hdir b hb
  have hlive := hc.live d hd
  rw [hc.fileType] at hdir
  rw [hc.content_eq h hlive] at hb
  by_cases hbk : b = k.1
  · rw [hbk, hc.data, Function.update_self]
    exact hc.freed.slots.1
  · rw [hc.data, Function.update_of_ne hbk]
    exact h.tidy d hlive hdir b hb

end Cut

theorem Inv.edge (_ : g.Inv gaps t) (hr : t.Rec p k e)
    (hl : e.label ≠ [dot] ∧ e.label ≠ [dot, dot]) :
    t.graph.edge p k e.inode := ⟨e, hr, hl.1, hl.2, rfl⟩

namespace Unlinked

theorem ne_parent (h : g.Inv gaps t) (hu : g.Unlinked gaps t i p k e now b' t') : i ≠ p :=
  hu.target ▸ h.graph.target_ne_self (h.edge hu.record hu.named)

theorem ino_parent (hu : g.Unlinked gaps t i p k e now b' t') :
    t'.ino p = { t.ino p with modified := now.toNat } := by
  rw [hu.state]
  simp

theorem ino_target (hu : g.Unlinked gaps t i p k e now b' t') (hip : i ≠ p) :
    t'.ino i = { t.ino i with links := (t.ino i).links - 1 } := by
  rw [hu.state]
  simp [hip]

theorem ino_other (hu : g.Unlinked gaps t i p k e now b' t') {j : Nat} (hjp : j ≠ p) (hji : j ≠ i) :
    t'.ino j = t.ino j := by
  rw [hu.state]
  simp [hjp, hji]

theorem cut (hu : g.Unlinked gaps t i p k e now b' t') : Cut gaps t t' p k e b' := by
  have hfields : ∀ j, (t'.ino j).fileType = (t.ino j).fileType ∧
      (t'.ino j).blocks = (t.ino j).blocks ∧
      (∀ data, (t'.ino j).content data = (t.ino j).content data) ∧
      ∀ data, (t'.ino j).pointers data = (t.ino j).pointers data := by
    intro j
    by_cases hjp : j = p
    · rw [hjp, hu.ino_parent]
      exact ⟨rfl, rfl, fun _ => rfl, fun _ => rfl⟩
    by_cases hji : j = i
    · rw [hji, hu.ino_target (hji ▸ hjp)]
      exact ⟨rfl, rfl, fun _ => rfl, fun _ => rfl⟩
    · rw [hu.ino_other hjp hji]
      exact ⟨rfl, rfl, fun _ => rfl, fun _ => rfl⟩
  refine ⟨hu.record, hu.freed, by rw [hu.state], fun j hj => ?_, fun j => (hfields j).1,
    fun j => (hfields j).2.1, fun j => (hfields j).2.2.1, fun j => (hfields j).2.2.2⟩
  rw [hu.state] at hj
  exact hj

theorem ibit_eq (hu : g.Unlinked gaps t i p k e now b' t') : t'.ibit = t.ibit := by
  rw [hu.state]

theorem graph (h : g.Inv gaps t) (hu : g.Unlinked gaps t i p k e now b' t') : t'.graph.Sound 0 := by
  have hcut := hu.cut
  have he := h.edge hu.record hu.named
  rw [hu.target] at he
  have hrec : ∀ {d k' x}, t'.Rec d k' x → t.Rec d k' x ∧ ¬ (d = p ∧ k' = k) := fun hr =>
    (hcut.rec_iff h.toIntact hr.live).mp hr
  refine h.graph.dropLink he hu.many ?_ ?_ ?_ ?_ ?_ ?_
  · intro j
    show t'.ibit j = true ↔ t.ibit j = true
    rw [hu.ibit_eq]
  · intro j _
    show (t'.ino j).fileType = .directory ↔ (t.ino j).fileType = .directory
    rw [hcut.fileType]
  · rintro d k' j ⟨x, hr, h1, h2, rfl⟩
    exact ⟨⟨x, (hrec hr).1, h1, h2, rfl⟩, (hrec hr).2⟩
  · rintro d q ⟨k', x, hr, h1, h2⟩
    exact ⟨k', x, (hrec hr).1, h1, h2⟩
  · intro j _ hji
    show (t'.ino j).links = (t.ino j).links
    by_cases hjp : j = p
    · rw [hjp, hu.ino_parent]
    · rw [hu.ino_other hjp hji]
  · show (t'.ino i).links = (t.ino i).links - 1
    rw [hu.ino_target (hu.ne_parent h)]

theorem inv (h : g.Inv gaps t) (hu : g.Unlinked gaps t i p k e now b' t') : g.Inv gaps t' where
  cursors := by
    rw [hu.state]
    exact ⟨h.cursors.lastInode, h.cursors.lastData⟩
  inRange j := by
    by_cases hjp : j = p
    · rw [hjp, hu.ino_parent]
      exact { h.inRange p with modified := now.toNat_lt }
    by_cases hji : j = i
    · rw [hji, hu.ino_target (hu.ne_parent h)]
      exact { h.inRange i with
        links := Nat.lt_of_le_of_lt (Nat.sub_le _ _) (h.inRange i).links }
    · rw [hu.ino_other hjp hji]
      exact h.inRange j
  owning := hu.cut.owning h.toIntact fun j _ b _ hb => by
    rw [hu.state]
    exact hb
  tidy := hu.cut.tidy h.toIntact
  graph := hu.graph h
  self := fun hr hl => h.self ((hu.cut.rec_iff h.toIntact hr.live).mp hr).1 hl

end Unlinked

namespace Removed

theorem ne_parent (h : g.Inv gaps t) (hr : g.Removed gaps t i p k e now b' t') : i ≠ p :=
  hr.target ▸ h.graph.target_ne_self (h.edge hr.record hr.named)

theorem live (h : g.Inv gaps t) (hr : g.Removed gaps t i p k e now b' t') : t.ibit i = true :=
  hr.target ▸ h.graph.target_live (h.edge hr.record hr.named)

theorem ibit_iff (hr : g.Removed gaps t i p k e now b' t') {j : Nat} :
    t'.ibit j = true ↔ t.ibit j = true ∧ j ≠ i := by
  rw [hr.state]
  simp only [setBits, List.mem_singleton]
  split <;> simp_all

theorem ino_parent (hr : g.Removed gaps t i p k e now b' t') :
    t'.ino p = { t.ino p with modified := now.toNat } := by
  rw [hr.state]
  simp

theorem ino_other (hr : g.Removed gaps t i p k e now b' t') {j : Nat} (hjp : j ≠ p) :
    t'.ino j = t.ino j := by
  rw [hr.state]
  simp [hjp]

theorem cut (hr : g.Removed gaps t i p k e now b' t') : Cut gaps t t' p k e b' := by
  have hfields : ∀ j, (t'.ino j).fileType = (t.ino j).fileType ∧
      (t'.ino j).blocks = (t.ino j).blocks ∧
      (∀ data, (t'.ino j).content data = (t.ino j).content data) ∧
      ∀ data, (t'.ino j).pointers data = (t.ino j).pointers data := by
    intro j
    by_cases hjp : j = p
    · rw [hjp, hr.ino_parent]
      exact ⟨rfl, rfl, fun _ => rfl, fun _ => rfl⟩
    · rw [hr.ino_other hjp]
      exact ⟨rfl, rfl, fun _ => rfl, fun _ => rfl⟩
  refine ⟨hr.record, hr.freed, by rw [hr.state], fun j hj => (hr.ibit_iff.mp hj).1,
    fun j => (hfields j).1, fun j => (hfields j).2.1, fun j => (hfields j).2.2.1,
    fun j => (hfields j).2.2.2⟩

theorem same (h : g.Inv gaps t) (hr : g.Removed gaps t i p k e now b' t') {j : Nat}
    (hj : t.ibit j = true) (hjp : j ≠ p) : t.Same t'.toView j :=
  ⟨hr.ino_other hjp, fun _ hb => hr.cut.data_of_ne h.toIntact hj hjp hb⟩

theorem graph (h : g.Inv gaps t) (hr : g.Removed gaps t i p k e now b' t') : t'.graph.Sound 0 := by
  have hcut := hr.cut
  have he := h.edge hr.record hr.named
  rw [hr.target] at he
  have hrec : ∀ {d k' x}, t'.Rec d k' x → t.Rec d k' x ∧ ¬ (d = p ∧ k' = k) := fun hx =>
    (hcut.rec_iff h.toIntact hx.live).mp hx
  have hlinks : ∀ j, (t'.ino j).links = (t.ino j).links := fun j => by
    by_cases hjp : j = p
    · rw [hjp, hr.ino_parent]
    · rw [hr.ino_other hjp]
  refine h.graph.dropNode he hr.last (fun j => hr.ibit_iff) ?_ ?_ ?_ fun j _ _ => hlinks j
  · intro j _
    show (t'.ino j).fileType = .directory ↔ (t.ino j).fileType = .directory
    rw [hcut.fileType]
  · rintro d k' j ⟨x, hx, h1, h2, rfl⟩
    exact ⟨⟨x, (hrec hx).1, h1, h2, rfl⟩, (hrec hx).2⟩
  · rintro d q ⟨k', x, hx, h1, h2⟩
    exact ⟨k', x, (hrec hx).1, h1, h2⟩

/-- Deallocating keeps the invariant. -/
theorem inv (h : g.Inv gaps t) (hr : g.Removed gaps t i p k e now b' t') : g.Inv gaps t' where
  cursors := by
    rw [hr.state]
    exact ⟨h.cursors.lastInode, h.cursors.lastData⟩
  inRange j := by
    by_cases hjp : j = p
    · rw [hjp, hr.ino_parent]
      exact { h.inRange p with modified := now.toNat_lt }
    · rw [hr.ino_other hjp]
      exact h.inRange j
  owning := hr.cut.owning h.toIntact fun j hj b hb hmark => by
    obtain ⟨hlive, hji⟩ := hr.ibit_iff.mp hj
    rw [hr.state]
    -- the cleared blocks are those of `i`
    have hnot : b ∉ t.content i := fun hbi =>
      hji (h.owner_unique hlive (hr.live h) hb (List.mem_append_left _ hbi))
    simpa [setBits, hnot] using hmark
  tidy := hr.cut.tidy h.toIntact
  graph := hr.graph h
  self := fun hx hl => h.self ((hr.cut.rec_iff h.toIntact hx.live).mp hx).1 hl

end Removed

end Geom

end FerrisFS
