import FerrisFS.V1.Geometry
import FerrisFS.V1.Sessions
import Mathlib.Data.Finset.Card

/-!
# The bitmap as a set

A bitmap stands for the set of its marked indexes. `allocate` and `deallocate` are
union and difference on that set, whatever the order of the list, `count_allocated` is
the size of its part below `max_index`, and `find_free` returns different indexes from
outside the set. The allocation of the filesystem is the two unions, the new counts
and the superblock.
-/

namespace FerrisFS

open Lib

namespace BitmapAllocator

variable {a : BitmapAllocator} {d d' : MemoryDevice} {bs l : List Nat} {num i : Nat}

/-- The indexes that are marked in the bitmap. -/
def marked (a : BitmapAllocator) (d : MemoryDevice) : Finset Nat :=
  (Finset.range (2048 * a.size)).filter fun i => d.bitAt a.start i = true

/-- From `d` to `d'` the bitmap has become the set `s`, and nothing else has changed. -/
structure Becomes (a : BitmapAllocator) (s : Finset Nat) (d d' : MemoryDevice) : Prop where
  marked : a.marked d' = s
  length : d'.blocks.length = d.blocks.length
  outside : ∀ k, ¬ a.Own k → d'.block k = d.block k

theorem mem_marked : i ∈ a.marked d ↔ i < 2048 * a.size ∧ d.bitAt a.start i = true := by
  rw [marked, Finset.mem_filter, Finset.mem_range]

/-- The set lies in the blocks of the bitmap. -/
theorem marked_congr (h : ∀ k, a.Own k → d'.block k = d.block k) : a.marked d' = a.marked d := by
  ext i
  rw [mem_marked, mem_marked]
  apply and_congr_right
  intro hi
  have hblk : i / 8 / BLOCK_SIZE < a.size := by
    simp only [BLOCK_SIZE]
    omega
  rw [bitAt_eq, bitAt_eq, h _ ⟨Nat.le_add_right _ _, Nat.add_lt_add_left hblk _⟩]

theorem Within.of_length (hw : a.Within d) (h : d'.blocks.length = d.blocks.length) :
    a.Within d' := by
  have hcount : d'.blockCount = d.blockCount := by
    rw [MemoryDevice.blockCount, MemoryDevice.blockCount, h]
  exact ⟨hcount ▸ hw.fits, hcount ▸ hw.small⟩

theorem touch_length {op : Nat → Nat → Nat} (bs : List Nat) (d : MemoryDevice) :
    (bs.foldl (a.touch op) d).blocks.length = d.blocks.length := by
  induction bs generalizing d with
  | nil => rfl
  | cons b bs ih => rw [List.foldl_cons, ih, touch, MemoryDevice.setBlock_length]

/-- Setting the listed bits is a union. -/
theorem becomes_set (hw : a.Within d) (hbs : ∀ b ∈ bs, b < 2048 * a.size) :
    a.Becomes (a.marked d ∪ bs.toFinset) d (bs.foldl (a.touch setBit) d) where
  marked := by
    ext i
    rw [mem_marked, bitAt_foldl_touch setBit_bitOp bs d hw hbs, Finset.mem_union, mem_marked,
      List.mem_toFinset]
    by_cases hi : i ∈ bs
    · simp [hi, hbs i hi]
    · simp [hi]
  length := touch_length bs d
  outside := fun _ hk => (foldl_touch_of_outside (own_or_outside hk) bs d hw hbs).1

/-- Clearing the listed bits is a difference. -/
theorem becomes_clear (hw : a.Within d) (hbs : ∀ b ∈ bs, b < 2048 * a.size) :
    a.Becomes (a.marked d \ bs.toFinset) d (bs.foldl (a.touch clearBit) d) where
  marked := by
    ext i
    rw [mem_marked, bitAt_foldl_touch clearBit_bitOp bs d hw hbs, Finset.mem_sdiff, mem_marked,
      List.mem_toFinset]
    by_cases hi : i ∈ bs
    · simp [hi]
    · simp [hi]
  length := touch_length bs d
  outside := fun _ hk => (foldl_touch_of_outside (own_or_outside hk) bs d hw hbs).1

theorem allocate_eq (hw : a.Within d) (hbs : ∀ b ∈ bs, b < 2048 * a.size) :
    a.allocate bs d =
      .ok { a with lastAlloc := bs.getLastD a.lastAlloc } (bs.foldl (a.touch setBit) d) := by
  unfold allocate
  cases hlast : bs.getLast? with
  | none =>
    rw [List.getLast?_eq_none_iff.mp hlast]
    rfl
  | some x =>
    have hgetD : bs.getLastD a.lastAlloc = x := by
      rw [List.getLastD_eq_getLast?, hlast, Option.getD_some]
    rw [hgetD]
    exact Prog.bind_of_ok (modify_eq hw hbs) _

theorem allocated_card : (a.allocated d).length = ((a.marked d).filter (· < a.maxIndex)).card := by
  have hlist : ((a.marked d).filter (· < a.maxIndex)) = (a.allocated d).toFinset := by
    ext i
    simp only [Finset.mem_filter, mem_marked, allocated, List.mem_toFinset, List.mem_filter,
      List.mem_range, Bool.and_eq_true, decide_eq_true_eq]
    tauto
  rw [hlist, List.toFinset_card_of_nodup]
  exact List.nodup_range.filter _

theorem getIndex_unpackIndex {i : Nat} (hi : i < U32) :
    getIndex (unpackIndex i).1 (unpackIndex i).2.1 (unpackIndex i).2.2 d = .ok i d := by
  have hsum : ((unpackIndex i).2.1 + (unpackIndex i).1 * BLOCK_SIZE) * 8 + (unpackIndex i).2.2 =
      i := by
    simp only [unpackIndex, BLOCK_SIZE]
    omega
  refine (Prog.checkedAdd_of_lt (hsum.trans_lt hi)).trans ?_
  rw [hsum]

end BitmapAllocator

/-- The bitmap refines a set. -/
theorem bitmap_refines_set (a : BitmapAllocator) (d : MemoryDevice) (hw : a.Within d) :
    (∀ bs : List Nat, (∀ b ∈ bs, b < 2048 * a.size) →
      (∃ a' d', a.allocate bs d = .ok a' d' ∧
        a.Becomes (a.marked d ∪ bs.toFinset) d d') ∧
      ∃ d', a.deallocate bs d = .ok () d' ∧ a.Becomes (a.marked d \ bs.toFinset) d d') ∧
    (∀ count d', a.countAllocated d = .ok count d' →
      count = ((a.marked d).filter (· < a.maxIndex)).card ∧ d' = d) ∧
    (a.Indexed → a.countAllocated d = .ok ((a.marked d).filter (· < a.maxIndex)).card d) ∧
    ∀ i < U32, BitmapAllocator.getIndex (BitmapAllocator.unpackIndex i).1
      (BitmapAllocator.unpackIndex i).2.1 (BitmapAllocator.unpackIndex i).2.2 d = .ok i d := by
  refine ⟨fun bs hbs => ⟨?_, ?_⟩, ?_, ?_, ?_⟩
  · exact ⟨_, _, BitmapAllocator.allocate_eq hw hbs, BitmapAllocator.becomes_set hw hbs⟩
  · exact ⟨_, BitmapAllocator.modify_eq hw hbs, BitmapAllocator.becomes_clear hw hbs⟩
  · intro count d' hrun
    rw [← BitmapAllocator.allocated_card]
    exact BitmapAllocator.countAllocated_sound hrun
  · intro hx
    rw [BitmapAllocator.countAllocated_eq hw hx, BitmapAllocator.allocated_card]
  · intro i hi
    exact BitmapAllocator.getIndex_unpackIndex hi

/-- A list that leaves the first bitmap block and comes back to it. -/
theorem bitmap_refines_set_two : (∃ a' d',
    BitmapAllocator.allocate ⟨5, 2, 4086, 0⟩ [50, 2098, 5, 2, 60, 3] (MemoryDevice.empty 10) =
      .ok a' d' ∧
    BitmapAllocator.Becomes ⟨5, 2, 4086, 0⟩
      (BitmapAllocator.marked ⟨5, 2, 4086, 0⟩ (MemoryDevice.empty 10) ∪
        [50, 2098, 5, 2, 60, 3].toFinset) (MemoryDevice.empty 10) d') ∧
    BitmapAllocator.countAllocated ⟨5, 2, 4086, 0⟩ (MemoryDevice.empty 10) =
      .ok ((BitmapAllocator.marked ⟨5, 2, 4086, 0⟩ (MemoryDevice.empty 10)).filter
        (· < 4086)).card (MemoryDevice.empty 10) := by
  obtain ⟨hset, -, hcount, -⟩ := bitmap_refines_set ⟨5, 2, 4086, 0⟩ (MemoryDevice.empty 10)
    ⟨by decide, by decide⟩
  exact ⟨(hset [50, 2098, 5, 2, 60, 3] (by decide)).1, hcount (by decide)⟩

/-! ## The indexes that are handed out -/

namespace BitmapAllocator

variable {a : BitmapAllocator} {d d' : MemoryDevice} {l : List Nat} {num : Nat}

/-- The search cannot leave the bitmap: no index past it may be handed out, or the cursor
is so near that the restart stays in front of its end. -/
def Contained (a : BitmapAllocator) : Prop :=
  a.maxIndex ≤ 2048 * a.size ∨ a.lastAlloc < 2048 * (a.size + 1)

instance : Decidable a.Contained := inferInstanceAs (Decidable (_ ∨ _))

/-- Up to `num` different indexes, all of them free. -/
structure Unused (a : BitmapAllocator) (d : MemoryDevice) (num : Nat) (l : List Nat) : Prop where
  nodup : l.Nodup
  length_le : l.length ≤ num
  below : ∀ i ∈ l, i < a.maxIndex
  inside : ∀ i ∈ l, i < 2048 * a.size
  clear : ∀ i ∈ l, d.bitAt a.start i = false

theorem unused_of_findFree (hc : a.Contained) (hrun : a.findFree num d = .ok l d') :
    d' = d ∧ a.Unused d num l := by
  obtain ⟨rfl, hl⟩ := findFree_sound hrun
  have hpick : l = a.pick (d'.bitAt a.start) num := hl
  refine ⟨rfl, hpick ▸ pick_nodup, hpick ▸ pick_length_le, ?_, ?_, ?_⟩
  · intro i hi
    rw [hpick] at hi
    exact (mem_pick hi).2.1
  · intro i hi
    rw [hpick] at hi
    obtain ⟨hvis, hmax, -⟩ := mem_pick hi
    rw [mem_visible] at hvis
    rcases hc with hbits | hlast
    · omega
    · omega
  · intro i hi
    rw [hpick] at hi
    exact (mem_pick hi).2.2

end BitmapAllocator

/-- The bitmaps of a mounted filesystem lie on the device, apart from each other and from
the superblock, and their cursors have not left them. -/
structure FFS.BitmapsApart (s : FFS) : Prop where
  inodes : s.format.inodeAllocator.Within s.device
  data : s.format.blockAllocator.Within s.device
  inodes_pos : 0 < s.format.inodeAllocator.start
  data_pos : 0 < s.format.blockAllocator.start
  apart : ∀ k, s.format.inodeAllocator.Own k → ¬ s.format.blockAllocator.Own k
  inodes_contained : s.format.inodeAllocator.Contained
  data_contained : s.format.blockAllocator.Contained

/-- `n` inodes `is` and `k` data blocks `ds`, none of them in use in `s`, have been marked,
counted and recorded in the superblock, and nothing else has changed on the device. -/
structure FFS.AllocatedExactly (s : FFS) (n k : Nat) (is ds : List Nat) (s' : FFS) : Prop where
  inodes : s.format.inodeAllocator.Unused s.device n is
  data : s.format.blockAllocator.Unused s.device k ds
  inodes_length : is.length = n
  data_length : ds.length = k
  inodes_marked : s.format.inodeAllocator.marked s'.device =
    s.format.inodeAllocator.marked s.device ∪ is.toFinset
  data_marked : s.format.blockAllocator.marked s'.device =
    s.format.blockAllocator.marked s.device ∪ ds.toFinset
  inodes_le : n ≤ s.format.superblock.freeInodes
  data_le : k ≤ s.format.superblock.freeData
  superblock : s'.format.superblock = { s.format.superblock with
    freeInodes := s.format.superblock.freeInodes - n
    freeData := s.format.superblock.freeData - k }
  stored : s'.device.block 0 = s'.format.superblock.serialize Block.zero
  length : s'.device.blocks.length = s.device.blocks.length
  outside : ∀ b, b ≠ 0 → ¬ s.format.inodeAllocator.Own b → ¬ s.format.blockAllocator.Own b →
    s'.device.block b = s.device.block b

/-! ## Allocation -/

section

variable {s : FFS}

theorem wp_findFree {a : BitmapAllocator} (hc : a.Contained) (num : Nat) (d : MemoryDevice) :
    Prog.wp (a.findFree num) (fun l d' => d' = d ∧ a.Unused d num l) (fun _ _ => True) d :=
  Prog.wp_mono Prog.wp_self (fun _ _ hrun => BitmapAllocator.unused_of_findFree hc hrun)
    fun _ _ _ => trivial

/-- `find_free` of one of the allocators. -/
theorem wp_find {a : BitmapAllocator} (hc : a.Contained) {num : Nat} {α : Type}
    {f : List Nat → FsM α} {Q : α → FFS → Prop}
    (h : ∀ l, a.Unused s.device num l → Prog.wp (f l) Q (fun _ _ => True) s) :
    Prog.wp (onDevice (a.findFree num) >>= f) Q (fun _ _ => True) s := by
  have hfind : Prog.wp (onDevice (a.findFree num))
      (fun l s' => s' = s ∧ a.Unused s.device num l) (fun _ _ => True) s := by
    refine Prog.wp_zoom.mpr (Prog.wp_mono (wp_findFree hc num s.device) ?_ fun _ _ _ => trivial)
    intro l d' hl
    obtain ⟨rfl, hl⟩ := hl
    exact ⟨rfl, hl⟩
  refine Prog.wp_seq hfind ?_ fun _ _ _ => trivial
  intro l s' hl
  obtain ⟨rfl, hl⟩ := hl
  exact h l hl

/-- `allocate` of one of the allocators. -/
theorem wp_mark {a : BitmapAllocator} (hw : a.Within s.device) {l : List Nat}
    (hl : ∀ i ∈ l, i < 2048 * a.size) {α : Type} {f : BitmapAllocator → FsM α}
    {Q : α → FFS → Prop}
    (h : ∀ d', a.Becomes (a.marked s.device ∪ l.toFinset) s.device d' →
      Prog.wp (f { a with lastAlloc := l.getLastD a.lastAlloc }) Q (fun _ _ => True)
        { s with device := d' }) :
    Prog.wp (onDevice (a.allocate l) >>= f) Q (fun _ _ => True) s := by
  have hrun := BitmapAllocator.allocate_eq hw hl
  refine Prog.wp_bind.mpr ((Prog.wp_of_ok (Prog.zoom_of_ok hrun)).mpr ?_)
  exact h _ (BitmapAllocator.becomes_set hw hl)

theorem wp_setFormat {f : FormatV1 → FormatV1} {α : Type} {m : Unit → FsM α}
    {Q : α → FFS → Prop} {E : FSError → FFS → Prop}
    (h : Prog.wp (m ()) Q E { s with format := f s.format }) :
    Prog.wp (modifyFormat f >>= m) Q E s :=
  Prog.wp_bind.mpr h

theorem writeSuperblock_of_pos (hpos : 0 < s.device.blockCount) : writeSuperblock s =
    .ok () { s with
      device := s.device.setBlock 0 (s.format.superblock.serialize Block.zero) } := by
  show onDevice (writeBlock 0 (s.format.superblock.serialize Block.zero)) s = _
  exact Prog.zoom_of_ok (writeBlock_of_lt hpos)

theorem wp_allocate_unused (h : s.BitmapsApart) (n k : Nat) :
    Prog.wp (FormatV1.allocate n k) (fun r s' => s.AllocatedExactly n k r.1 r.2 s')
      (fun _ _ => True) s := by
  refine Geom.wp_getFormat ?_
  refine Prog.wp_guard (fun _ => trivial) fun hn => ?_
  refine Prog.wp_guard (fun _ => trivial) fun hk => ?_
  refine wp_find h.inodes_contained fun is his => ?_
  refine wp_find h.data_contained fun ds hds => ?_
  refine Prog.wp_ite (fun _ => trivial) fun hilen => ?_
  refine Prog.wp_ite (fun _ => trivial) fun hdlen => ?_
  refine wp_mark h.inodes his.inside fun d₁ hd₁ => ?_
  refine wp_setFormat ?_
  refine wp_mark (h.data.of_length hd₁.length) hds.inside fun d₂ hd₂ => ?_
  refine wp_setFormat ?_
  refine Prog.wp_bind.mpr (Prog.wp_checkedSub fun _ => ?_)
  refine Prog.wp_bind.mpr (Prog.wp_checkedSub fun _ => ?_)
  refine wp_setFormat ?_
  have hlen : d₂.blocks.length = s.device.blocks.length := hd₂.length.trans hd₁.length
  have hpos : 0 < d₂.blockCount := by
    have hfits := (h.inodes.of_length hlen).fits
    have := h.inodes_pos
    omega
  refine Prog.wp_bind.mpr ((Prog.wp_of_ok (writeSuperblock_of_pos hpos)).mpr ?_)
  have hblock : ∀ (buf : Block) b, b ≠ 0 → (d₂.setBlock 0 buf).block b = d₂.block b :=
    fun buf b hb => by rw [MemoryDevice.block_setBlock hpos, if_neg hb]
  have hino : ∀ b, s.format.inodeAllocator.Own b → b ≠ 0 := fun b hb => by
    have := h.inodes_pos
    have := hb.1
    omega
  have hdat : ∀ b, s.format.blockAllocator.Own b → b ≠ 0 := fun b hb => by
    have := h.data_pos
    have := hb.1
    omega
  exact
    { inodes := his
      data := hds
      inodes_length := Nat.le_antisymm his.length_le (Nat.not_lt.mp hilen)
      data_length := Nat.le_antisymm hds.length_le (Nat.not_lt.mp hdlen)
      inodes_marked := by
        rw [← hd₁.marked]
        apply BitmapAllocator.marked_congr
        intro b hb
        rw [hblock _ b (hino b hb), hd₂.outside b (h.apart b hb)]
      data_marked := by
        have hold := BitmapAllocator.marked_congr fun b hb =>
          hd₁.outside b fun hb' => h.apart b hb' hb
        rw [← hold, ← hd₂.marked]
        apply BitmapAllocator.marked_congr
        intro b hb
        exact hblock _ b (hdat b hb)
      inodes_le := Nat.not_lt.mp hn
      data_le := Nat.not_lt.mp hk
      superblock := rfl
      stored := by
        rw [MemoryDevice.block_setBlock hpos, if_pos rfl]
      length := by
        rw [← hlen]
        exact MemoryDevice.setBlock_length _ _ _
      outside := by
        intro b hb hi hd
        rw [hblock _ b hb, hd₂.outside b hd, hd₁.outside b hi] }

/-- The bitmaps of a mounted filesystem of this layout. -/
theorem Geom.Rep.bitmapsApart {g : Geom} {t : St} (hs : g.Rep s t) (h : t.CursorsIn g) :
    s.BitmapsApart := by
  have hformat := hs.2
  have hinode : s.format.inodeAllocator = g.inodeAllocator t.lastInode := by rw [hformat]; rfl
  have hdata : s.format.blockAllocator = g.blockAllocator t.lastData := by rw [hformat]; rfl
  exact
    { inodes := hinode ▸ hs.1.inodeBitmap
      data := hdata ▸ hs.1.blockBitmap
      inodes_pos := by rw [hinode]; exact Nat.one_pos
      data_pos := by
        rw [hdata]
        simp only [Geom.blockAllocator, Geom.blockBitmapStart]
        omega
      apart := by
        rw [hinode, hdata]
        intro k hk hk'
        obtain ⟨-, hk⟩ := hk
        obtain ⟨hk', -⟩ := hk'
        simp only [Geom.inodeAllocator, Geom.blockAllocator, Geom.blockBitmapStart] at hk hk'
        omega
      inodes_contained := by
        rw [hinode]
        have hlt := h.lastInode
        exact .inr (by simp only [Geom.inodeAllocator]; omega)
      data_contained := by
        rw [hdata]
        have hlt := h.lastData
        exact .inr (by simp only [Geom.blockAllocator]; omega) }

end

/-- No used index is handed out, and `allocate` takes exactly what it returns, in every
state that a session on a formatted device reaches and wherever else the bitmaps lie as
they do there. -/
theorem allocation_unused :
    (∀ (a : BitmapAllocator) (d d' : MemoryDevice) (num : Nat) (l : List Nat), a.Contained →
      a.findFree num d = .ok l d' → d' = d ∧ a.Unused d num l) ∧
    (∀ (s s' : FFS) (n k : Nat) (is ds : List Nat), s.BitmapsApart →
      FormatV1.allocate n k s = .ok (is, ds) s' → s.AllocatedExactly n k is ds s') ∧
    ∀ (now : UInt64) (d : MemoryDevice) (s₀ s : FFS), start now d = some s₀ → Session s₀ s →
      s.BitmapsApart := by
  refine ⟨?_, ?_, ?_⟩
  · intro a d d' num l hc hrun
    exact BitmapAllocator.unused_of_findFree hc hrun
  · intro s s' n k is ds h hrun
    exact (wp_allocate_unused h n k).of_ok hrun
  · intro now d s₀ s hstart h
    obtain ⟨g, t, hs, ht⟩ := Geom.steady_of_start hstart h
    exact hs.bitmapsApart ht.cursors

/-- The first search of a new filesystem, and the allocation of a directory's inode and
block. -/
theorem allocation_unused_first :
    (∃ l, BitmapAllocator.findFree ⟨1, 1, 2048, 5⟩ 9 (MemoryDevice.empty 2) =
      .ok l (MemoryDevice.empty 2) ∧
      BitmapAllocator.Unused ⟨1, 1, 2048, 5⟩ (MemoryDevice.empty 2) 9 l) ∧
    ∃ s s' is ds, start 0 (MemoryDevice.empty 9) = some s ∧
      FormatV1.allocate 1 1 s = .ok (is, ds) s' ∧ s.AllocatedExactly 1 1 is ds s' := by
  constructor
  · have hrun : ((BitmapAllocator.findFree ⟨1, 1, 2048, 5⟩ 9 (MemoryDevice.empty 2)).value?).isSome
        = true := by decide +kernel
    obtain ⟨l, hl⟩ := Option.isSome_iff_exists.mp hrun
    obtain ⟨d', hl⟩ := Outcome.value?_eq_some.mp hl
    obtain ⟨rfl, hl'⟩ := allocation_unused.1 _ _ _ _ _ (by decide) hl
    exact ⟨l, hl, hl'⟩
  · have hrun : ((start 0 (MemoryDevice.empty 9)).any fun s =>
        (FormatV1.allocate 1 1 s).value?.isSome) = true := by decide +kernel
    obtain ⟨s, hstart, hrun⟩ := (Option.any_eq_true _ _).mp hrun
    obtain ⟨⟨is, ds⟩, hrun⟩ := Option.isSome_iff_exists.mp hrun
    obtain ⟨s', hrun⟩ := Outcome.value?_eq_some.mp hrun
    have hapart := allocation_unused.2.2 _ _ _ _ hstart .nil
    exact ⟨s, s', is, ds, hstart, hrun, allocation_unused.2.1 _ _ _ _ _ _ hapart hrun⟩

/-- A cursor two bitmap blocks on, in front of a block that is no bitmap: the restart reads
that block and hands out its bits. -/
theorem allocation_past_bitmap : ¬ ∀ (a : BitmapAllocator) (d d' : MemoryDevice) (num : Nat)
    (l : List Nat), a.findFree num d = .ok l d' → a.Unused d num l := by
  intro h
  have hrun : (BitmapAllocator.findFree ⟨1, 1, 5000, 4096⟩ 1
      ⟨[Block.zero, Block.zero.splice 0 (List.replicate 256 255), Block.zero]⟩).value? =
        some [2048] := by
    decide +kernel
  obtain ⟨d', hrun⟩ := Outcome.value?_eq_some.mp hrun
  have hlt := (h _ _ _ _ _ hrun).inside 2048 (by simp)
  simp at hlt

end FerrisFS
