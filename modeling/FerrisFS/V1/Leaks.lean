import FerrisFS.V1.Search

/-!
# What `write` takes and does not give back

`write` marks the pointer blocks for all it asked for before it knows how many data blocks
there are, and the inode refuses to get too large only after both were marked. In these two
cases blocks stay marked that no inode refers to.
-/

namespace FerrisFS

open Lib INodeTableHandler FormatV1

namespace FFS

/-- The last block that a write of `len` bytes through `m` comes to. -/
def finalBlock (m : FileMetadata) (len : Nat) : Nat := (m.offset + len - 1) / BLOCK_SIZE % U32

/-- The data blocks that it asks for. -/
def needBlocks (s : FFS) (m : FileMetadata) (len : Nat) : Nat :=
  finalBlock m len - (s.view.ino m.inode).blocks + 1

/-- The pointer blocks that the search yields. -/
def metas (s : FFS) (m : FileMetadata) (len : Nat) : List Nat :=
  s.format.blockAllocator.pick s.view.dbit (s.metaBlocks m len)

/-- The data blocks that it yields after these are marked. -/
def datas (s : FFS) (m : FileMetadata) (len : Nat) : List Nat :=
  let last := (s.metas m len).getLastD s.format.blockAllocator.lastAlloc
  ({ s.format.blockAllocator with lastAlloc := last } : BitmapAllocator).pick
    (setBits s.view.dbit (s.metas m len) true) (s.needBlocks m len)

/-- The write has to grow the file, and finds the pointer blocks and some data blocks. -/
structure Grows (s : FFS) (m : FileMetadata) (len : Nat) : Prop where
  nonempty : len ≠ 0
  position : m.offset + len < U64
  final : (s.view.ino m.inode).blocks ≤ finalBlock m len
  need : s.needBlocks m len < U32
  metas : (s.metas m len).length = s.metaBlocks m len
  datas : s.datas m len ≠ []

/-- The inode gets too large, or there are fewer data blocks than asked for, so that it
needs fewer pointer blocks. -/
structure Leaks (s : FFS) (m : FileMetadata) (len : Nat) : Prop extends s.Grows m len where
  surplus : INode.MAX_BLOCKS < (s.view.ino m.inode).blocks + (s.datas m len).length ∨
    blocksNecessaryToGrowN (s.view.ino m.inode) (s.datas m len).length < s.metaBlocks m len

instance {s : FFS} {m : FileMetadata} {len : Nat} : Decidable (s.Grows m len) :=
  decidable_of_iff (_ ∧ _ ∧ _ ∧ _ ∧ _ ∧ _)
    ⟨fun h => ⟨h.1, h.2.1, h.2.2.1, h.2.2.2.1, h.2.2.2.2.1, h.2.2.2.2.2⟩,
      fun h => ⟨h.nonempty, h.position, h.final, h.need, h.metas, h.datas⟩⟩

instance {s : FFS} {m : FileMetadata} {len : Nat} : Decidable (s.Leaks m len) :=
  decidable_of_iff (_ ∧ _) ⟨fun h => ⟨h.1, h.2⟩, fun h => ⟨h.toGrows, h.surplus⟩⟩

/-- The blocks marked since `s` are those that inode `i` has gained, and they are counted. -/
def Accounted (s s' : FFS) (i : Nat) : Prop :=
  ∃ l : List Nat, l.Nodup ∧ (∀ b, b ∈ l ↔ s.view.dbit b = false ∧ s'.view.dbit b = true) ∧
    (∀ b, b ∈ l ↔ b ∈ s'.view.owned i ∧ b ∉ s.view.owned i) ∧
    s'.format.superblock.freeData + l.length = s.format.superblock.freeData

/-- The bitmap, the inode and the count of free blocks are as they were. -/
structure Untouched (s s' : FFS) (i : Nat) : Prop where
  dbit : s'.view.dbit = s.view.dbit
  ino : s'.view.ino i = s.view.ino i
  freeData : s'.format.superblock.freeData = s.format.superblock.freeData

/-- `write` leaks no block. -/
def WriteAccounted (s : FFS) (id : Nat) (m : FileMetadata) (buf : List UInt8) (now : UInt64) :
    Prop :=
  match write id buf now s with
  | .ok _ s' => s.Accounted s' m.inode
  | .err _ s' => s.Untouched s' m.inode
  | .panic => True

/-- A block marked since `s` that is not the inode's. -/
theorem not_accounted_of_stray {s s' : FFS} {i b : Nat}
    (hmarked : s.view.dbit b = false ∧ s'.view.dbit b = true) (hb : b ∉ s'.view.owned i) :
    ¬ s.Accounted s' i := by
  intro h
  obtain ⟨l, -, hl, hl', -⟩ := h
  exact hb ((hl' b).mp ((hl b).mpr hmarked)).1

theorem accounted_refl {s s' : FFS} {i : Nat} (hview : s'.view = s.view)
    (hformat : s'.format = s.format) : s.Accounted s' i := by
  refine ⟨[], List.nodup_nil, fun b => ?_, fun b => ?_, ?_⟩
  · rw [hview]
    cases s.view.dbit b <;> simp
  · rw [hview]
    simp
  · rw [hformat]
    rfl

end FFS

namespace Geom

variable {g : Geom} {s s' : FFS} {t t' : St} {id len need : Nat} {m : FileMetadata}

theorem Growth.metas_rep {metas datas : List Nat} (hs : g.Rep s t)
    (h : g.Growth t (t.ino m.inode)
      (FFS.finalBlock m len - (t.ino m.inode).blocks + 1) metas datas) :
    s.metas m len = metas := by
  rw [FFS.metas, FFS.metaBlocks, hs.view_eq, hs.2]
  exact h.metas_eq.symm

theorem Growth.datas_rep {metas datas : List Nat} (hs : g.Rep s t)
    (h : g.Growth t (t.ino m.inode)
      (FFS.finalBlock m len - (t.ino m.inode).blocks + 1) metas datas) :
    s.datas m len = datas := by
  rw [FFS.datas, FFS.needBlocks, h.metas_rep hs, hs.view_eq, hs.2]
  exact h.datas_eq.symm

theorem Growth.grows {metas datas : List Nat} (hs : g.Rep s t)
    (hlen : len ≠ 0) (hlast : m.offset + len < U64)
    (hfinal : ¬ FFS.finalBlock m len < (t.ino m.inode).blocks)
    (h : g.Growth t (t.ino m.inode)
      (FFS.finalBlock m len - (t.ino m.inode).blocks + 1) metas datas) (hne : datas ≠ []) :
    s.Grows m len where
  nonempty := hlen
  position := hlast
  final := by
    rw [hs.view_eq]
    exact Nat.not_lt.mp hfinal
  need := by
    rw [FFS.needBlocks, hs.view_eq]
    exact h.need_lt
  metas := by rw [h.metas_rep hs, h.metas_length, FFS.metaBlocks, hs.view_eq, FFS.finalBlock]
  datas := by
    rw [h.datas_rep hs]
    exact hne

/-- What the growth finds was free, so the count is large enough. -/
theorem Growth.length_le_freeData {n : INode} {metas datas : List Nat} (hs : g.Rep s t)
    (hcounts : s.CountsMatch) (h : g.Growth t n need metas datas) :
    datas.length + metas.length ≤ t.freeData := by
  rw [(hs.countsMatch_iff.mp hcounts).2, hs.freeBlocks]
  have hsub : metas ++ datas ⊆ (g.blockAllocator t.lastData).clear t.dbit := by
    intro b hb
    exact BitmapAllocator.mem_clear.mpr ⟨h.fresh.lt b hb, h.fresh.clear b hb⟩
  have hle := (List.subperm_of_subset h.fresh.nodup hsub).length_le
  rw [List.length_append] at hle
  omega

/-- A write that returns has taken the blocks `metas` and `datas`. They are all the file's
when it needs all the pointers. -/
theorem Wrote.accounted_iff {buf : List UInt8} {now : UInt64} {metas datas : List Nat}
    {data₁ data' : Region} {n₁ : INode} {k : Nat} (hs : g.Rep s t) (hs' : g.Rep s' t')
    (hu : g.Usable t m.inode)
    (hw : g.Wrote t id m buf now metas datas data₁ n₁ data' k t') :
    s.Accounted s' m.inode ↔
      metas.length ≤ blocksNecessaryToGrowN (t.ino m.inode) datas.length := by
  have hfresh := hw.prepared.fresh
  have hdbit : s'.view.dbit = setBits t.dbit (metas ++ datas) true := by
    rw [hs'.view_eq, hw.state]
    exact setBits_marked
  have howned : ∀ b, b ∈ s'.view.owned m.inode ↔
      b ∈ t.owned m.inode ∨ b ∈ Prepared.took (t.ino m.inode) metas datas := by
    intro b
    rw [hs'.view_eq, hw.owned_eq hu, (hw.prepared.owned_perm hu.marked).mem_iff,
      List.mem_append]
    exact Iff.rfl
  have hmarked : ∀ b, s.view.dbit b = false ∧ s'.view.dbit b = true ↔ b ∈ metas ++ datas := by
    intro b
    rw [hdbit, hs.view_eq, setBits]
    constructor
    · intro h
      obtain ⟨hclear, hset⟩ := h
      split at hset
      · assumption
      · rw [hclear] at hset
        cases hset
    · intro hb
      exact ⟨hfresh.clear b hb, if_pos hb⟩
  constructor
  · intro h
    by_contra hlt
    -- the first pointer block that the inode does not take is marked in vain
    have hb : metas[blocksNecessaryToGrowN (t.ino m.inode) datas.length] ∈ metas :=
      List.getElem_mem _
    have hmem := List.mem_append_left datas hb
    refine FFS.not_accounted_of_stray ((hmarked _).mpr hmem) (fun hnew => ?_) h
    rcases (howned _).mp hnew with hnew | hnew
    · exact hw.prepared.disjoint hu.marked hmem hnew
    · rcases List.mem_append.mp hnew with hnew | hnew
      · obtain ⟨j, hj, hjeq⟩ := List.mem_iff_getElem.mp hnew
        rw [List.getElem_take] at hjeq
        rw [List.length_take] at hj
        have hnodup := (List.nodup_append.mp hfresh.nodup).1
        have := (List.Nodup.getElem_inj_iff hnodup).mp hjeq
        omega
      · exact (List.nodup_append.mp hfresh.nodup).2.2 _ hb _ hnew rfl
  · intro hle
    have htook : Prepared.took (t.ino m.inode) metas datas = metas ++ datas := by
      rw [Prepared.took, List.take_of_length_le hle]
    refine ⟨metas ++ datas, hfresh.nodup, fun b => (hmarked b).symm, fun b => ?_, ?_⟩
    · rw [howned, htook, hs.view_eq]
      constructor
      · intro hb
        exact ⟨.inr hb, hw.prepared.disjoint hu.marked hb⟩
      · intro hb
        exact hb.1.resolve_left hb.2
    · have hcount := hw.prepared.count_le
      rw [hs'.2, hs.2, hw.state]
      show t.freeData - (datas.length + metas.length) + (metas ++ datas).length = t.freeData
      rw [List.length_append]
      omega

theorem Wrote.accounted_iff_not_leaks {buf : List UInt8} {now : UInt64} {metas datas : List Nat}
    {data₁ data' : Region} {n₁ : INode} {k : Nat} (hs : g.Rep s t) (hs' : g.Rep s' t')
    (hu : g.Usable t m.inode)
    (hw : g.Wrote t id m buf now metas datas data₁ n₁ data' k t') :
    s.Accounted s' m.inode ↔ ¬ s.Leaks m buf.length := by
  rw [hw.accounted_iff hs hs' hu]
  cases hw.prepared with
  | enough hfinal =>
      refine iff_of_true (Nat.zero_le _) fun hleaks => ?_
      have hgrows := hleaks.final
      rw [hs.view_eq] at hgrows
      exact Nat.not_lt.mpr hgrows hfinal
  | grown hfinal hg hne hmax =>
      have hdatas := hg.datas_rep hs
      constructor
      · intro hle hleaks
        rcases hleaks.surplus with hover | hover
        · rw [hdatas, hs.view_eq] at hover
          omega
        · rw [← hleaks.metas, hdatas, hg.metas_rep hs, hs.view_eq] at hover
          omega
      · intro hleaks
        by_contra hlt
        have hlen : buf.length ≠ 0 := fun h0 => hw.nonempty (List.length_eq_zero_iff.mp h0)
        refine hleaks ⟨hg.grows hs hlen hw.last_lt hfinal hne, .inr ?_⟩
        rw [hdatas, FFS.metaBlocks, hs.view_eq]
        exact Nat.lt_of_lt_of_eq (Nat.not_le.mp hlt) hg.metas_length

theorem WriteFailed.untouched_iff_not_leaks {err : FSError} (hs : g.Rep s t) (hs' : g.Rep s' t')
    (hopen : t.openFiles id = some m) (hf : g.WriteFailed t id len err t') :
    s.Untouched s' m.inode ↔ ¬ s.Leaks m len := by
  cases hf with
  | closed hclosed =>
      rw [hopen] at hclosed
      cases hclosed
  | grow hopen' hlen hlast hfinal hf =>
      rw [hopen] at hopen'
      cases hopen'
      cases hf with
      | short hneed hshort =>
          refine iff_of_true ?_ fun hleaks => ?_
          · exact ⟨by rw [hs'.view_eq, hs.view_eq], by rw [hs'.view_eq, hs.view_eq],
              by rw [hs'.2, hs.2]⟩
          · have hmetas := hleaks.metas
            rw [FFS.metas, FFS.metaBlocks, hs.view_eq, hs.2] at hmetas
            exact absurd hmetas (Nat.ne_of_lt hshort)
      | empty hg =>
          refine iff_of_true ?_ fun hleaks => hleaks.datas (hg.datas_rep hs)
          exact ⟨by rw [hs'.view_eq, hs.view_eq], by rw [hs'.view_eq, hs.view_eq],
            by rw [hs'.2, hs.2]; rfl⟩
      | @tooLarge metas datas hg hne hmax =>
          refine iff_of_false (fun h => ?_) (not_not.mpr ?_)
          · obtain ⟨b, hb⟩ := List.exists_mem_of_ne_nil _ hne
            have hmem : b ∈ metas ++ datas := List.mem_append_right _ hb
            have hset : ((t.marked metas).marked datas).dbit b = true :=
              (congrFun setBits_marked b).trans (if_pos hmem)
            have hbit := congrFun h.dbit b
            rw [hs'.view_eq, hs.view_eq, hg.fresh.clear b hmem] at hbit
            exact Bool.noConfusion (hset.symm.trans hbit)
          · refine ⟨hg.grows hs hlen hlast hfinal hne, .inl ?_⟩
            rw [hg.datas_rep hs, hs.view_eq]
            exact hmax

theorem WritePanics.not_leaks (hs : g.Rep s t) (hcounts : s.CountsMatch)
    (hopen : t.openFiles id = some m) (hp : g.WritePanics t id len) : ¬ s.Leaks m len := by
  intro hleaks
  cases hp with
  | position hopen' _ h =>
      rw [hopen] at hopen'
      cases hopen'
      exact h hleaks.position
  | grow hopen' _ _ h =>
      rw [hopen] at hopen'
      cases hopen'
      cases h with
      | need h =>
          have hneed := hleaks.need
          rw [FFS.needBlocks, hs.view_eq] at hneed
          exact h hneed
      | count hg _ _ hcount => exact hcount (hg.length_le_freeData hs hcounts)

end Geom

/-- `write` leaks no block exactly when the file does not get too large and needs all the
pointer blocks that were found for it. -/
theorem write_accounted_iff {g : Geom} {s : FFS} {t : St} {id : Nat} {m : FileMetadata}
    (hs : g.Rep s t) (hopen : s.format.openFiles id = some m) (hu : g.Usable t m.inode)
    (hcounts : s.CountsMatch) (buf : List UInt8) (now : UInt64) :
    s.WriteAccounted id m buf now ↔ ¬ s.Leaks m buf.length := by
  have hopen : t.openFiles id = some m := hs.openFiles_eq ▸ hopen
  have hspec := @Geom.wpa_write g t id buf now (hu.handle hopen) s hs
  rw [FFS.WriteAccounted]
  cases hrun : write id buf now s with
  | ok k s' =>
      rw [hrun] at hspec
      obtain ⟨t', hs', ⟨hnil, -, rfl⟩ | ⟨m', metas, datas, data₁, n₁, data', hw⟩⟩ := hspec
      · refine iff_of_true (FFS.accounted_refl ?_ ?_) fun hleaks => hleaks.nonempty ?_
        · rw [hs'.view_eq, hs.view_eq]
        · rw [hs'.2, hs.2]
        · rw [hnil]
          rfl
      · have hm := hw.opened
        rw [hopen] at hm
        cases hm
        exact hw.accounted_iff_not_leaks hs hs' hu
  | err e s' =>
      rw [hrun] at hspec
      obtain ⟨t', hs', hf⟩ := hspec
      exact hf.untouched_iff_not_leaks hs hs' hopen
  | panic =>
      rw [hrun] at hspec
      exact iff_of_true trivial (Geom.WritePanics.not_leaks hs hcounts hopen hspec)

/-- What there is to decide about a state, before `m` is written through. -/
structure FFS.Opened (s : FFS) (m : FileMetadata) : Prop where
  opened : s.format.openFiles 0 = some m
  counts : s.CountsMatch

set_option synthInstance.maxSize 1024 in
instance {s : FFS} {m : FileMetadata} : Decidable (s.Opened m) :=
  decidable_of_iff (_ ∧ _) ⟨fun h => ⟨h.1, h.2⟩, fun h => ⟨h.opened, h.counts⟩⟩

/-- The first byte of a new file. -/
theorem write_accounted_first : ∃ s : FFS, (write 0 [1] 0 s).value? = some 1 ∧
    s.WriteAccounted 0 ⟨1, 0⟩ [1] 0 := by
  have hfacts : ((start 0 (MemoryDevice.empty 14)).bind
      (checked (fun s op => op.Tame s) [.createFile [47, 97] 0, .openFile [47, 97]])).any
        (fun s => decide (s.Opened ⟨1, 0⟩ ∧ ¬ s.Leaks ⟨1, 0⟩ 1 ∧
          (write 0 [1] 0 s).value? = some 1)) = true := by
    decide +kernel
  obtain ⟨s, hs, hfacts⟩ := (Option.any_eq_true _ _).mp hfacts
  obtain ⟨s₀, hstart, hchecked⟩ := Option.bind_eq_some_iff.mp hs
  obtain ⟨hopened, hleaks, hvalue⟩ := decide_eq_true_eq.mp hfacts
  obtain ⟨g, t, -, hst, h, hh⟩ := Geom.tame_run hstart (run_of_checked hchecked)
  have hopen : t.openFiles 0 = some ⟨1, 0⟩ := hst.openFiles_eq ▸ hopened.opened
  refine ⟨s, hvalue, ?_⟩
  exact (write_accounted_iff hst hopened.opened (h.usable (hh 0 _ hopen).1) hopened.counts
    [1] 0).mpr hleaks

/-- A block is marked by the write, and is not the file's. -/
def FFS.strays (s : FFS) (id : Nat) (m : FileMetadata) (buf : List UInt8) (b : Nat) : Bool :=
  match write id buf 0 s with
  | .ok _ s' => !s.view.dbit b && s'.view.dbit b && !decide (b ∈ s'.view.owned m.inode)
  | _ => false

theorem FFS.not_writeAccounted_of_strays {s : FFS} {id b : Nat} {m : FileMetadata}
    {buf : List UInt8} (h : s.strays id m buf b = true) : ¬ s.WriteAccounted id m buf 0 := by
  rw [FFS.strays] at h
  rw [FFS.WriteAccounted]
  cases hrun : write id buf 0 s with
  | ok k s' =>
      rw [hrun] at h
      simp only [Bool.and_eq_true, Bool.not_eq_true', decide_eq_false_iff_not] at h
      exact FFS.not_accounted_of_stray h.1 h.2
  | err e s' =>
      rw [hrun] at h
      cases h
  | panic =>
      rw [hrun] at h
      cases h

/-- One byte at position 3072 of a new file asks for a pointer block and thirteen data
blocks. There are seven, so that the pointer block is marked and not used. -/
theorem write_leaks : ∃ (g : Geom) (s : FFS) (t : St), g.Rep s t ∧
    s.format.openFiles 0 = some ⟨1, 3072⟩ ∧ g.Usable t 1 ∧ s.CountsMatch ∧
    ¬ s.WriteAccounted 0 ⟨1, 3072⟩ [1] 0 := by
  have hfacts : ((start 0 (MemoryDevice.empty 14)).bind
      (checked (fun s op => op.Tame s)
        [.createFile [47, 97] 0, .openFile [47, 97], .seek 0 (.start 3072)])).any
        (fun s => decide (s.Opened ⟨1, 3072⟩ ∧ s.strays 0 ⟨1, 3072⟩ [1] 1 = true)) = true := by
    decide +kernel
  obtain ⟨s, hs, hfacts⟩ := (Option.any_eq_true _ _).mp hfacts
  obtain ⟨s₀, hstart, hchecked⟩ := Option.bind_eq_some_iff.mp hs
  obtain ⟨hopened, hstrays⟩ := decide_eq_true_eq.mp hfacts
  obtain ⟨g, t, -, hst, h, hh⟩ := Geom.tame_run hstart (run_of_checked hchecked)
  have hopen : t.openFiles 0 = some ⟨1, 3072⟩ := hst.openFiles_eq ▸ hopened.opened
  exact ⟨g, s, t, hst, hopened.opened, h.usable (hh 0 _ hopen).1, hopened.counts,
    FFS.not_writeAccounted_of_strays hstrays⟩

end FerrisFS
