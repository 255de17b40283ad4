import FerrisFS.V1.Inspect
import FerrisFS.V1.Siblings

/-!
# What `find_free` misses

The search starts at the byte of `last_alloc` and wraps around to the blocks before. It
does not come back to the bytes that precede it in its own block, so a clear bit there
counts as free and is not found.
-/

namespace FerrisFS

open Lib INodeTableHandler FormatV1

namespace BitmapAllocator

/-- The indexes before the byte of `last_alloc`, in the same bitmap block. -/
def hidden (a : BitmapAllocator) (p : Nat) : Bool :=
  decide (p / 2048 = a.lastAlloc / 2048 ∧ p / 8 < a.lastAlloc / 8)

/-- The indexes that may be handed out. -/
def clear (a : BitmapAllocator) (bit : Nat → Bool) : List Nat :=
  (List.range a.maxIndex).filter fun p => !bit p

/-- Those that the search comes to. -/
def seen (a : BitmapAllocator) (bit : Nat → Bool) : List Nat :=
  (a.clear bit).filter fun p => !a.hidden p

/-- No index that may be handed out is hidden, or there are enough others. -/
def Sees (a : BitmapAllocator) (bit : Nat → Bool) (num : Nat) : Prop :=
  (∀ p < a.maxIndex, a.hidden p = true → bit p = true) ∨ num ≤ (a.seen bit).length

/-- `find_free` returns as many indexes as were asked for, or all there are. -/
def FindsAll (a : BitmapAllocator) (d : MemoryDevice) (num : Nat) : Prop :=
  ∃ l, a.findFree num d = .ok l d ∧ l.Nodup ∧ (∀ p ∈ l, p ∈ a.clear (d.bitAt a.start)) ∧
    l.length = min num (a.clear (d.bitAt a.start)).length

instance {a : BitmapAllocator} {bit : Nat → Bool} {num : Nat} : Decidable (a.Sees bit num) :=
  inferInstanceAs (Decidable (_ ∨ _))

variable {a : BitmapAllocator} {bit : Nat → Bool} {d : MemoryDevice} {num k : Nat}

theorem mem_clear {p : Nat} : p ∈ a.clear bit ↔ p < a.maxIndex ∧ bit p = false := by
  simp [clear]

theorem mem_seen {p : Nat} :
    p ∈ a.seen bit ↔ (p < a.maxIndex ∧ bit p = false) ∧ a.hidden p = false := by
  rw [seen, List.mem_filter, mem_clear, Bool.not_eq_true']

theorem seen_nodup : (a.seen bit).Nodup := (List.nodup_range.filter _).filter _

theorem seen_le_clear : (a.seen bit).length ≤ (a.clear bit).length := List.length_filter_le _ _

theorem mem_visible_iff {p : Nat} (hp : p < 2048 * a.size) :
    p ∈ a.visible ↔ a.hidden p = false := by
  rw [mem_visible, hidden, decide_eq_false_iff_not]
  omega

/-- The order of the search does not matter for the number it finds. -/
theorem visible_perm (hmax : a.maxIndex ≤ 2048 * a.size) :
    (a.visible.filter fun p => decide (p < a.maxIndex) && !bit p).Perm (a.seen bit) := by
  apply (List.perm_ext_iff_of_nodup (visible_nodup.filter _) seen_nodup).mpr
  intro p
  rw [List.mem_filter, mem_seen, Bool.and_eq_true, decide_eq_true_eq, Bool.not_eq_true']
  constructor
  · intro h
    obtain ⟨hv, hp, hb⟩ := h
    exact ⟨⟨hp, hb⟩, (mem_visible_iff (by omega)).mp hv⟩
  · intro h
    obtain ⟨⟨hp, hb⟩, hh⟩ := h
    exact ⟨(mem_visible_iff (by omega)).mpr hh, hp, hb⟩

theorem pick_length (hmax : a.maxIndex ≤ 2048 * a.size) :
    (a.pick bit num).length = min num (a.seen bit).length := by
  rw [pick, List.length_take, (visible_perm hmax).length_eq]

theorem seen_eq_clear_iff : (a.seen bit).length = (a.clear bit).length ↔
    ∀ p < a.maxIndex, a.hidden p = true → bit p = true := by
  rw [seen, List.length_filter_eq_length_iff]
  constructor
  · intro h p hp hh
    cases hb : bit p with
    | true => rfl
    | false =>
        have := h p (mem_clear.mpr ⟨hp, hb⟩)
        rw [hh] at this
        cases this
  · intro h p hp
    obtain ⟨hp, hb⟩ := mem_clear.mp hp
    cases hh : a.hidden p with
    | false => rfl
    | true =>
        have := h p hp hh
        rw [hb] at this
        cases this

theorem sees_iff : a.Sees bit num ↔
    min num (a.seen bit).length = min num (a.clear bit).length := by
  have hle : (a.seen bit).length ≤ (a.clear bit).length := seen_le_clear
  rw [Sees, ← seen_eq_clear_iff]
  omega

/-- A search that sees enough finds `num` indexes when there are as many. -/
theorem Sees.le_seen (h : a.Sees bit num) (hnum : num ≤ (a.clear bit).length) :
    num ≤ (a.seen bit).length := by
  have := sees_iff.mp h
  omega

theorem findsAll_iff (hw : a.Within d) (hx : a.Indexed) (hmax : a.maxIndex ≤ 2048 * a.size)
    (hlast : a.lastAlloc < a.maxIndex) :
    a.FindsAll d num ↔ a.Sees (d.bitAt a.start) num := by
  have hfind : a.findFree num d = .ok (a.pick (d.bitAt a.start) num) d :=
    findFree_eq hw hx (by omega) num
  rw [sees_iff, ← pick_length hmax]
  constructor
  · intro h
    obtain ⟨l, hl, -, -, hlen⟩ := h
    rw [hfind] at hl
    cases hl
    exact hlen
  · intro h
    refine ⟨_, hfind, pick_nodup, fun p hp => ?_, h⟩
    obtain ⟨-, hlt, hclear⟩ := mem_pick hp
    exact mem_clear.mpr ⟨hlt, hclear⟩

/-- The search from an index comes to what followed it in an earlier search. -/
theorem visible_pairwise (hlast : a.lastAlloc < 2048 * a.size) : a.visible.Pairwise fun x y =>
    y ∈ ({ a with lastAlloc := x } : BitmapAllocator).visible := by
  apply List.pairwise_append.mpr
  refine ⟨?_, ?_, ?_⟩
  · apply (List.pairwise_lt_range' ..).imp_of_mem
    intro x y hx hy hlt
    rw [List.mem_range'_1] at hx hy
    rw [mem_visible]
    dsimp only
    omega
  · apply List.pairwise_lt_range.imp_of_mem
    intro x y hx hy hlt
    rw [List.mem_range] at hx hy
    rw [mem_visible]
    dsimp only
    omega
  · intro x hx y hy
    rw [List.mem_range'_1] at hx
    rw [List.mem_range] at hy
    rw [mem_visible]
    dsimp only
    omega

/-- After `k` indexes are taken, the search from the last of them finds another one, if it
was there to be seen before. -/
theorem pick_next (hlast : a.lastAlloc < 2048 * a.size) (hmax : a.maxIndex ≤ 2048 * a.size)
    (hk : k < (a.seen bit).length) (hnum : 0 < num) :
    ({ a with lastAlloc := (a.pick bit k).getLastD a.lastAlloc } : BitmapAllocator).pick
      (setBits bit (a.pick bit k) true) num ≠ [] := by
  obtain ⟨l, hl⟩ : ∃ l, l = a.visible.filter fun p => decide (p < a.maxIndex) && !bit p :=
    ⟨_, rfl⟩
  have hpick : a.pick bit k = l.take k := by rw [pick, hl]
  have hlen : k < l.length := by
    rw [hl, (visible_perm hmax).length_eq]
    exact hk
  have hmem : l[k] ∈ a.visible ∧ (decide (l[k] < a.maxIndex) && !bit l[k]) = true := by
    have hall : ∀ y ∈ l, y ∈ a.visible ∧ (decide (y < a.maxIndex) && !bit y) = true := by
      intro y hy
      rw [hl] at hy
      exact List.mem_filter.mp hy
    exact hall _ (List.getElem_mem hlen)
  have hrest : l[k] ∈ l.drop k := by
    rw [List.drop_eq_getElem_cons hlen]
    exact List.mem_cons_self
  have hpair : (l.take k ++ l.drop k).Pairwise fun x y =>
      y ∈ ({ a with lastAlloc := x } : BitmapAllocator).visible := by
    rw [List.take_append_drop, hl]
    exact (visible_pairwise hlast).sublist List.filter_sublist
  have hnew : l[k] ∉ l.take k := by
    have hnodup : (l.take k ++ l.drop k).Nodup := by
      rw [List.take_append_drop, hl]
      exact visible_nodup.filter _
    exact fun hold => (List.nodup_append.mp hnodup).2.2 _ hold _ hrest rfl
  -- the next index follows the last one taken, so it is visible from there
  have hvisible : l[k] ∈ ({ a with
      lastAlloc := (l.take k).getLastD a.lastAlloc } : BitmapAllocator).visible := by
    rcases List.eq_nil_or_concat (l.take k) with hnil | ⟨l', x, hx⟩
    · rw [hnil]
      exact hmem.1
    · rw [List.concat_eq_append] at hx
      rw [hx, List.getLastD_eq_getLast?, List.getLast?_append]
      refine (List.pairwise_append.mp hpair).2.2 x ?_ _ hrest
      rw [hx]
      exact List.mem_append_right _ List.mem_cons_self
  rw [hpick]
  intro hnil
  rw [pick, List.take_eq_nil_iff] at hnil
  rcases hnil with hzero | hnil
  · omega
  · have := List.filter_eq_nil_iff.mp hnil _ hvisible
    simp only [setBits, if_neg hnew] at this
    exact this hmem.2

end BitmapAllocator

/-! ## Full storage -/

/-- The pointer blocks that a write of `len` bytes through `m` asks for. -/
def FFS.metaBlocks (s : FFS) (m : FileMetadata) (len : Nat) : Nat :=
  blocksNecessaryToGrowN (s.view.ino m.inode)
    ((m.offset + len - 1) / BLOCK_SIZE % U32 - (s.view.ino m.inode).blocks + 1)

/-- The indexes that are free in the two bitmaps. -/
def FFS.freeInodes (s : FFS) : List Nat := s.format.inodeAllocator.clear s.view.ibit

def FFS.freeBlocks (s : FFS) : List Nat := s.format.blockAllocator.clear s.view.dbit

namespace Geom

variable {g : Geom} {s : FFS} {t t' : St} {n k : Nat}

theorem Rep.freeInodes (hs : g.Rep s t) :
    s.freeInodes = (g.inodeAllocator t.lastInode).clear t.ibit := by
  rw [FFS.freeInodes, hs.view_eq, hs.2]
  rfl

theorem Rep.freeBlocks (hs : g.Rep s t) :
    s.freeBlocks = (g.blockAllocator t.lastData).clear t.dbit := by
  rw [FFS.freeBlocks, hs.view_eq, hs.2]
  rfl

theorem Rep.countsMatch_iff (hs : g.Rep s t) : s.CountsMatch ↔
    t.freeInodes = s.freeInodes.length ∧ t.freeData = s.freeBlocks.length := by
  rw [FFS.CountsMatch, List.countP_eq_length_filter, List.countP_eq_length_filter,
    hs.freeInodes, hs.freeBlocks, hs.view_eq, hs.2]
  exact Iff.rfl

theorem pickData_length (hd : (g.blockAllocator t.lastData).Sees t.dbit k)
    (hfew : (g.pickData t k).length < k) :
    ((g.blockAllocator t.lastData).clear t.dbit).length < k := by
  have hsees := BitmapAllocator.sees_iff.mp hd
  rw [pickData, BitmapAllocator.pick_length g.cap_le_bits] at hfew
  omega

/-- `allocate` fails when there are too few, if its searches see enough. -/
theorem AllocFailed.too_few (hs : g.Rep s t) (hcounts : s.CountsMatch)
    (hmax : g.inodes ≤ 2048 * g.inodeBitmapBlocks)
    (hi : (g.inodeAllocator t.lastInode).Sees t.ibit n)
    (hd : (g.blockAllocator t.lastData).Sees t.dbit k) (hf : g.AllocFailed t n k t') :
    s.freeInodes.length < n ∨ s.freeBlocks.length < k := by
  obtain ⟨hinodes, hblocks⟩ := hs.countsMatch_iff.mp hcounts
  cases hf with
  | refused h => omega
  | inodes _ _ h =>
      left
      have hsees := BitmapAllocator.sees_iff.mp hi
      rw [pickInodes, BitmapAllocator.pick_length hmax] at h
      rw [hs.freeInodes]
      omega
  | data _ _ h =>
      right
      rw [hs.freeBlocks]
      exact pickData_length hd h

/-- The growth of a file finds no room when there is none for its pointers and one data
block. -/
theorem GrowFailed.too_few {i need req avail : Nat} {kind : StorageFullKind}
    (hcur : t.CursorsIn g) (hneed : 0 < need)
    (hd : (g.blockAllocator t.lastData).Sees t.dbit
      (blocksNecessaryToGrowN (t.ino i) need + 1))
    (hf : g.GrowFailed t (t.ino i) need (.storageFull kind req avail) t') :
    ((g.blockAllocator t.lastData).clear t.dbit).length <
      blocksNecessaryToGrowN (t.ino i) need + 1 := by
  by_contra hroom
  have hseen := hd.le_seen (Nat.not_lt.mp hroom)
  cases hf with
  | short _ h =>
      rw [pickData, BitmapAllocator.pick_length g.cap_le_bits] at h
      omega
  | empty h =>
      have hnext := BitmapAllocator.pick_next hcur.lastData g.cap_le_bits
        (Nat.lt_of_succ_le hseen) hneed
      have hmetas := h.metas_eq
      subst hmetas
      exact hnext h.datas_eq.symm

end Geom

/-- `find_free` returns every free index, up to the number asked for, exactly when the
clear bits it does not look at are not needed. Then `allocate` and `write` report full
storage only when there are too few free inodes or blocks. -/
theorem findFree_finds_iff (a : BitmapAllocator) (d : MemoryDevice) (num : Nat) :
    (a.Within d → a.Indexed → a.maxIndex ≤ a.size * 2048 → a.lastAlloc < a.maxIndex →
      (a.FindsAll d num ↔ a.Sees (d.bitAt a.start) num)) ∧
    (∀ (g : Geom) (s : FFS) (t : St), g.Rep s t → t.CursorsIn g → s.CountsMatch →
      s.format.inodeAllocator.maxIndex ≤ s.format.inodeAllocator.size * 2048 →
      ∀ inodes data kind req avail s', s.format.inodeAllocator.Sees s.view.ibit inodes →
        s.format.blockAllocator.Sees s.view.dbit data →
        allocate inodes data s = .err (.storageFull kind req avail) s' →
        s.freeInodes.length < inodes ∨ s.freeBlocks.length < data) ∧
    ∀ (g : Geom) (s : FFS) (t : St) (id : Nat) (m : FileMetadata), g.Rep s t →
      s.format.openFiles id = some m → g.Usable t m.inode →
      ∀ buf now kind req avail s',
        s.format.blockAllocator.Sees s.view.dbit (s.metaBlocks m buf.length + 1) →
        write id buf now s = .err (.storageFull kind req avail) s' →
        s.freeBlocks.length < s.metaBlocks m buf.length + 1 := by
  refine ⟨?_, ?_, ?_⟩
  · intro hw hx hmax hlast
    exact BitmapAllocator.findsAll_iff hw hx (by omega) hlast
  · intro g s t hs hcur hcounts hmax inodes data kind req avail s' hi hd hrun
    obtain ⟨t', -, hf⟩ := (Geom.wpr_allocate hcur s hs).of_err hrun
    rw [hs.2] at hmax hi hd
    rw [hs.view_eq] at hi hd
    have hmax : g.inodes ≤ 2048 * g.inodeBitmapBlocks := by
      rw [Nat.mul_comm]
      exact hmax
    exact hf.too_few hs hcounts hmax hi hd
  · intro g s t id m hs hopen husable buf now kind req avail s' hd hrun
    have hopen : t.openFiles id = some m := hs.openFiles_eq ▸ hopen
    have hwrite := @Geom.wpr_write g t id buf now (husable.handle hopen)
    obtain ⟨t', -, hf⟩ := (hwrite s hs).of_err hrun
    rw [hs.freeBlocks, FFS.metaBlocks, hs.view_eq]
    rw [FFS.metaBlocks, hs.view_eq, hs.2] at hd
    cases hf with
    | grow hm _ _ _ hg =>
        rw [hopen] at hm
        cases hm
        exact hg.too_few husable.cursors (Nat.succ_pos _) hd

/-- The call reports full storage. -/
def reportsFull {σ α : Type} : Outcome FSError σ α → Bool
  | .err (.storageFull _ _ _) _ => true
  | _ => false

theorem exists_of_reportsFull {σ α : Type} {o : Outcome FSError σ α}
    (h : reportsFull o = true) : ∃ kind req avail s, o = .err (.storageFull kind req avail) s := by
  unfold reportsFull at h
  split at h
  · exact ⟨_, _, _, _, rfl⟩
  · cases h

/-- What there is to decide about a device with a single data block, the root's, and an
empty file. -/
structure FFS.FullFacts (s : FFS) : Prop where
  counts : s.CountsMatch
  bits : s.format.inodeAllocator.maxIndex ≤ s.format.inodeAllocator.size * 2048
  opened : s.format.openFiles 0 = some ⟨1, 0⟩
  inodes : s.format.inodeAllocator.Sees s.view.ibit 0
  one : s.format.blockAllocator.Sees s.view.dbit 1
  data : s.format.blockAllocator.Sees s.view.dbit (s.metaBlocks ⟨1, 0⟩ 1 + 1)
  allocate : reportsFull (FormatV1.allocate 0 1 s) = true
  write : reportsFull (FormatV1.write 0 [1] 0 s) = true

set_option synthInstance.maxSize 1024 in
instance {s : FFS} : Decidable s.FullFacts :=
  decidable_of_iff (_ ∧ _ ∧ _ ∧ _ ∧ _ ∧ _ ∧ _ ∧ _)
    ⟨fun h => ⟨h.1, h.2.1, h.2.2.1, h.2.2.2.1, h.2.2.2.2.1, h.2.2.2.2.2.1, h.2.2.2.2.2.2.1,
        h.2.2.2.2.2.2.2⟩,
      fun h => ⟨h.counts, h.bits, h.opened, h.inodes, h.one, h.data, h.allocate, h.write⟩⟩

/-- A search from the first byte finds all, and on a full device there is nothing left. -/
theorem findFree_finds_full :
    (⟨0, 1, 16, 3⟩ : BitmapAllocator).FindsAll (MemoryDevice.empty 1) 16 ∧
    ∃ s : FFS, reportsFull (FormatV1.allocate 0 1 s) = true ∧
      reportsFull (FormatV1.write 0 [1] 0 s) = true ∧
      (s.freeInodes.length < 0 ∨ s.freeBlocks.length < 1) ∧
      s.freeBlocks.length < s.metaBlocks ⟨1, 0⟩ 1 + 1 := by
  refine ⟨((findFree_finds_iff _ _ _).1 ⟨by decide, by decide⟩ (by decide) (by decide)
    (by decide)).mpr (by decide), ?_⟩
  have hfacts : ((start 0 (MemoryDevice.empty 5)).bind
      (checked (fun s op => op.Tame s) [.createFile [47, 97] 0, .openFile [47, 97]])).any
        (fun s => decide s.FullFacts) = true := by
    decide +kernel
  obtain ⟨s, hs, hfacts⟩ := (Option.any_eq_true _ _).mp hfacts
  obtain ⟨s₀, hstart, hchecked⟩ := Option.bind_eq_some_iff.mp hs
  have hf : s.FullFacts := decide_eq_true_eq.mp hfacts
  obtain ⟨g, t, -, hst, h, hh⟩ := Geom.tame_run hstart (run_of_checked hchecked)
  obtain ⟨k, r, v, s₁, hallocate⟩ := exists_of_reportsFull hf.allocate
  obtain ⟨k', r', v', s₂, hwrite⟩ := exists_of_reportsFull hf.write
  have hopen : t.openFiles 0 = some ⟨1, 0⟩ := hst.openFiles_eq ▸ hf.opened
  refine ⟨s, hf.allocate, hf.write, ?_, ?_⟩
  · exact (findFree_finds_iff s.format.inodeAllocator s.device 0).2.1 g s t hst h.cursors
      hf.counts hf.bits 0 1 _ _ _ _ hf.inodes hf.one hallocate
  · exact (findFree_finds_iff s.format.blockAllocator s.device 0).2.2 g s t 0 ⟨1, 0⟩ hst
      hf.opened (h.usable (hh 0 _ hopen).1) [1] 0 _ _ _ _ hf.data hwrite

/-- With all sixteen indexes free and `last_alloc` at 8, `find_free` returns eight. -/
theorem findFree_misses : (⟨0, 1, 16, 8⟩ : BitmapAllocator).Within (MemoryDevice.empty 1) ∧
    ¬ (⟨0, 1, 16, 8⟩ : BitmapAllocator).FindsAll (MemoryDevice.empty 1) 16 := by
  have hw : (⟨0, 1, 16, 8⟩ : BitmapAllocator).Within (MemoryDevice.empty 1) :=
    ⟨by decide, by decide⟩
  refine ⟨hw, fun h => ?_⟩
  have hsees := (BitmapAllocator.findsAll_iff hw (by decide) (by decide) (by decide)).mp h
  revert hsees
  decide

end FerrisFS
