import FerrisFS.V1.Mount
import FerrisFS.V1.Remount

/-!
# The bits at the end of the bitmaps

The last block of a bitmap has bits for which there is no inode or block. Two devices
that differ in such bits only are told apart by one call: `is_allocated` compares with
`>` and so also looks at the bit of index `max_index`. Every other bit past the end is
ignored by all operations, whatever the images hold.
-/

namespace FerrisFS

open Lib Lib.Prog DirectoryHandler INodeTableHandler FormatV1

open BitmapAllocator (bitOf)

theorem Block.ext_bits {b b' : Block} (h : ∀ p < 2048, bitOf b p = bitOf b' p) : b = b' := by
  have hbyte : ∀ j < BLOCK_SIZE, b.byte j = b'.byte j := by
    intro j hj
    apply UInt8.toNat_inj.mp
    apply Nat.eq_of_testBit_eq
    intro i
    by_cases hi : i < 8
    · have hp := h (8 * j + i) (by simp only [BLOCK_SIZE] at hj; omega)
      have hdiv : (8 * j + i) / 8 % BLOCK_SIZE = j := by
        rw [show (8 * j + i) / 8 = j by omega, Nat.mod_eq_of_lt hj]
      rw [bitOf, bitOf, hdiv, show (8 * j + i) % 8 = i by omega] at hp
      exact hp
    · have hsmall : ∀ x : UInt8, x.toNat.testBit i = false := by
        intro x
        apply Nat.testBit_lt_two_pow
        exact Nat.lt_of_lt_of_le x.toNat_lt (Nat.pow_le_pow_right (by decide) (by omega))
      rw [hsmall, hsmall]
  apply Block.ext
  apply List.ext_getElem (by rw [b.size, b'.size])
  intro j hj hj'
  have hjb := hbyte j (by rw [← b.size]; exact hj)
  rw [Block.byte, Block.byte, List.getD_eq_getElem _ _ hj, List.getD_eq_getElem _ _ hj'] at hjb
  exact hjb

namespace Geom

variable {g : Geom} {e : Nat} {d d' : MemoryDevice} {k : Nat} {b b' : Block}

/-- The devices agree outside the bitmaps and, of the bits of each bitmap, in those below
its limit and in `e` more. -/
structure SameUpTo (g : Geom) (e : Nat) (d d' : MemoryDevice) : Prop where
  count : d.blockCount = g.totalBlocks
  count' : d'.blockCount = g.totalBlocks
  elsewhere : ∀ k, k = 0 ∨ g.inodeTableStart ≤ k → d'.block k = d.block k
  inodes : ∀ i, i < 2048 * g.inodeBitmapBlocks → i < g.inodes + e →
    d'.bitAt 1 i = d.bitAt 1 i
  data : ∀ i, i < 2048 * g.blockBitmapBlocks → i < g.cap + e →
    d'.bitAt g.blockBitmapStart i = d.bitAt g.blockBitmapStart i

/-- Bit `p` of block `k` is not past the end of a bitmap. -/
structure Counts (g : Geom) (e k p : Nat) : Prop where
  inodes : 1 ≤ k → k < g.blockBitmapStart → 2048 * (k - 1) + p < g.inodes + e
  data : g.blockBitmapStart ≤ k → k < g.inodeTableStart →
    2048 * (k - g.blockBitmapStart) + p < g.cap + e

/-- What block `k` holds on such devices. -/
def Near (g : Geom) (e k : Nat) (b b' : Block) : Prop :=
  ∀ p < 2048, g.Counts e k p → bitOf b' p = bitOf b p

theorem Near.eq (hk : k = 0 ∨ g.inodeTableStart ≤ k) (h : g.Near e k b b') : b' = b := by
  apply Block.ext_bits
  intro p hp
  apply h p hp
  have hle : g.blockBitmapStart ≤ g.inodeTableStart := Nat.le_add_right _ _
  constructor
  · intro h1 h2
    omega
  · intro h1 h2
    have hpos : 0 < g.blockBitmapStart := g.blockBitmap_pos _ (Nat.le_refl _)
    omega

theorem bitOf_mod (b : Block) {p q : Nat} (h : p % 2048 = q % 2048) : bitOf b p = bitOf b q := by
  have hbyte : p / 8 % BLOCK_SIZE = q / 8 % BLOCK_SIZE := by
    simp only [BLOCK_SIZE]
    omega
  rw [bitOf, bitOf, hbyte, show p % 8 = q % 8 by omega]

/-- Bit `p` of block `start + j` is bit `2048 * j + p` of the bitmap. -/
theorem bitAt_block (d : MemoryDevice) (start j : Nat) {p : Nat} (hp : p < 2048) :
    d.bitAt start (2048 * j + p) = bitOf (d.block (start + j)) p := by
  have hj : (2048 * j + p) / 8 / BLOCK_SIZE = j := by
    simp only [BLOCK_SIZE]
    omega
  rw [BitmapAllocator.bitAt_eq, hj]
  exact bitOf_mod _ (by omega)

namespace SameUpTo

theorem near (h : g.SameUpTo e d d') (k : Nat) : g.Near e k (d.block k) (d'.block k) := by
  intro p hp hcounts
  by_cases hk : k = 0 ∨ g.inodeTableStart ≤ k
  · rw [h.elsewhere k hk]
  by_cases hi : k < g.blockBitmapStart
  · have hbit := h.inodes (2048 * (k - 1) + p) (by simp only [blockBitmapStart] at hi; omega)
      (hcounts.inodes (by omega) hi)
    rw [bitAt_block _ _ _ hp, bitAt_block _ _ _ hp, show 1 + (k - 1) = k by omega] at hbit
    exact hbit
  · have hlt : k < g.inodeTableStart := by omega
    have hbit := h.data (2048 * (k - g.blockBitmapStart) + p)
      (by simp only [inodeTableStart] at hlt; omega) (hcounts.data (by omega) hlt)
    rw [bitAt_block _ _ _ hp, bitAt_block _ _ _ hp,
      show g.blockBitmapStart + (k - g.blockBitmapStart) = k by omega] at hbit
    exact hbit

theorem of_near (hc : d.blockCount = g.totalBlocks) (hc' : d'.blockCount = g.totalBlocks)
    (h : ∀ k, g.Near e k (d.block k) (d'.block k)) : g.SameUpTo e d d' where
  count := hc
  count' := hc'
  elsewhere k hk := (h k).eq hk
  inodes i hi hlt := by
    have hk : 1 + i / 2048 < g.blockBitmapStart := by
      simp only [blockBitmapStart]
      omega
    have hbit := h (1 + i / 2048) (i % 2048) (Nat.mod_lt _ (by decide)) ⟨fun _ _ => by omega,
      fun _ _ => by omega⟩
    rw [← bitAt_block _ _ _ (Nat.mod_lt _ (by decide)), Nat.div_add_mod,
      ← bitAt_block _ _ _ (Nat.mod_lt _ (by decide)), Nat.div_add_mod] at hbit
    exact hbit
  data i hi hlt := by
    have hpos : 0 < g.blockBitmapStart := g.blockBitmap_pos _ (Nat.le_refl _)
    have hbit := h (g.blockBitmapStart + i / 2048) (i % 2048) (Nat.mod_lt _ (by decide))
      ⟨fun _ _ => by omega, fun _ _ => by omega⟩
    rw [← bitAt_block _ _ _ (Nat.mod_lt _ (by decide)), Nat.div_add_mod,
      ← bitAt_block _ _ _ (Nat.mod_lt _ (by decide)), Nat.div_add_mod] at hbit
    exact hbit

/-! ## Reading and writing blocks -/

theorem readBlock (k : Nat) :
    Mirrors (g.SameUpTo e) (g.Near e k) (readBlock k) (readBlock k) := by
  intro d d' h
  unfold FerrisFS.readBlock
  rw [h.count, h.count']
  by_cases hk : k ≥ g.totalBlocks
  · rw [if_pos hk, if_pos hk]
    exact .err h
  · rw [if_neg hk, if_neg hk]
    exact .ok (h.near k) h

theorem writeBlock (h : g.Near e k b b') :
    Mirrors (g.SameUpTo e) Eq (writeBlock k b) (writeBlock k b') := by
  intro d d' hd
  unfold FerrisFS.writeBlock
  rw [hd.count, hd.count']
  by_cases hk : k ≥ g.totalBlocks
  · rw [if_pos hk, if_pos hk]
    exact .err hd
  · rw [if_neg hk, if_neg hk]
    apply Matched.ok rfl
    apply of_near
    · rw [MemoryDevice.setBlock_blockCount]
      exact hd.count
    · rw [MemoryDevice.setBlock_blockCount]
      exact hd.count'
    · intro j
      rw [MemoryDevice.block_setBlock (by rw [hd.count]; omega),
        MemoryDevice.block_setBlock (by rw [hd.count']; omega)]
      by_cases hj : j = k
      · rw [if_pos hj, if_pos hj, hj]
        exact h
      · rw [if_neg hj, if_neg hj]
        exact hd.near j

/-- Programs that keep away from the bitmaps do not notice. -/
theorem respects {α : Type} {m : DevM α}
    (h : Confined (fun k => k = 0 ∨ g.inodeTableStart ≤ k)
      (fun k => k = 0 ∨ g.inodeTableStart ≤ k) m) : Respects (g.SameUpTo e) m := by
  apply Composed.respects h
  intro α m hm
  cases hm with
  | read hk => exact (readBlock _).weaken fun _ _ hnear => (hnear.eq hk).symm
  | write buf hk => exact writeBlock fun _ _ _ => rfl

/-! ## The bitmaps -/

variable {a : BitmapAllocator}

/-- `is_allocated` looks at the bits up to and with `max_index`. -/
theorem isAllocated (hcounts : ∀ i ≤ a.maxIndex, g.Counts e (a.start + i / 2048) (i % 2048))
    (i : Nat) : Respects (g.SameUpTo e) (a.isAllocated i) := by
  by_cases hi : i ≤ a.maxIndex
  · have hdiv : i / 8 / BLOCK_SIZE = i / 2048 := by
      simp only [BLOCK_SIZE]
      omega
    rw [BitmapAllocator.isAllocated_of_le hi, hdiv]
    apply Respects.checkedAdd
    apply Mirrors.bind (readBlock _)
    intro buf buf' hnear
    apply Mirrors.pure
    have hbit := hnear (i % 2048) (Nat.mod_lt _ (by decide)) (hcounts i hi)
    rw [bitOf_mod buf (q := i % 2048) (by omega), bitOf_mod buf' (q := i % 2048) (by omega)]
    exact hbit.symm
  · unfold BitmapAllocator.isAllocated
    rw [if_pos (by omega)]
    exact Respects.pure _

/-- `find_free` sees only indices below `max_index`. -/
theorem findFree (hw : ∀ d, d.blockCount = g.totalBlocks → a.Within d)
    (hx : a.Indexed) (hlast : a.lastAlloc < 2048 * a.size)
    (hbits : ∀ {d d'}, g.SameUpTo e d d' → ∀ i < 2048 * a.size, i < a.maxIndex →
      d'.bitAt a.start i = d.bitAt a.start i) (num : Nat) :
    Mirrors (g.SameUpTo e) (fun l l' => l = l' ∧ ∀ i ∈ l, i < 2048 * a.size) (a.findFree num)
      (a.findFree num) := by
  intro d d' hd
  rw [BitmapAllocator.findFree_eq (hw d hd.count) hx hlast,
    BitmapAllocator.findFree_eq (hw d' hd.count') hx hlast]
  refine .ok ⟨?_, ?_⟩ hd
  · congr 1
    apply List.filter_congr
    intro p hp
    have hlt := BitmapAllocator.visible_lt hlast hp
    unfold BitmapAllocator.free
    by_cases hmax : p < a.maxIndex
    · rw [hbits hd p hlt hmax]
    · rw [decide_eq_false hmax, Bool.false_and, Bool.false_and]
  · intro i hi
    exact BitmapAllocator.visible_lt hlast (List.mem_of_mem_filter (List.mem_of_mem_take hi))

theorem countAllocated (hw : ∀ d, d.blockCount = g.totalBlocks → a.Within d) (hx : a.Indexed)
    (hbits : ∀ {d d'}, g.SameUpTo e d d' → ∀ i < 2048 * a.size, i < a.maxIndex →
      d'.bitAt a.start i = d.bitAt a.start i) :
    Respects (g.SameUpTo e) a.countAllocated := by
  intro d d' hd
  rw [BitmapAllocator.countAllocated_eq (hw d hd.count) hx,
    BitmapAllocator.countAllocated_eq (hw d' hd.count') hx]
  apply Matched.ok _ hd
  congr 1
  apply List.filter_congr
  intro p hp
  rw [List.mem_range] at hp
  by_cases hmax : p < a.maxIndex
  · rw [hbits hd p hp hmax]
  · rw [decide_eq_false hmax, Bool.false_and, Bool.false_and]

/-- Changing a bit in both blocks. -/
theorem near_splice {op : Nat → Nat → Nat} {act : Bool → Bool}
    (hop : BitmapAllocator.BitOp op act) (h : g.Near e k b b') (i : Nat) :
    g.Near e k
      (b.splice (i / 8 % BLOCK_SIZE)
        [UInt8.ofNat (op (b.byte (i / 8 % BLOCK_SIZE)).toNat (i % 8))])
      (b'.splice (i / 8 % BLOCK_SIZE)
        [UInt8.ofNat (op (b'.byte (i / 8 % BLOCK_SIZE)).toNat (i % 8))]) := by
  intro p hp hcounts
  rw [BitmapAllocator.bitOf_splice hop, BitmapAllocator.bitOf_splice hop, h p hp hcounts]

/-- The loop of `modify` keeps the two buffers near each other. -/
theorem modifyLoop {op : Nat → Nat → Nat} {act : Bool → Bool}
    (hop : BitmapAllocator.BitOp op act) : ∀ (bs : List Nat) (cached : Nat) (buf buf' : Block),
    g.Near e (cached + a.start) buf buf' →
    Mirrors (g.SameUpTo e) (fun r r' => r.1 = r'.1 ∧ g.Near e (r.1 + a.start) r.2 r'.2)
      (a.modifyLoop op bs cached buf) (a.modifyLoop op bs cached buf')
  | [], _, _, _, hnear => Mirrors.pure ⟨rfl, hnear⟩
  | i :: rest, cached, buf, buf', hnear => by
      -- the bitmap block of `i` is in the buffers
      have hrest : ∀ buf buf', g.Near e (i / 8 / BLOCK_SIZE + a.start) buf buf' →
          Mirrors (g.SameUpTo e) (fun r r' => r.1 = r'.1 ∧ g.Near e (r.1 + a.start) r.2 r'.2)
            (a.modifyLoop op rest (i / 8 / BLOCK_SIZE) (buf.splice (i / 8 % BLOCK_SIZE)
              [UInt8.ofNat (op (buf.byte (i / 8 % BLOCK_SIZE)).toNat (i % 8))]))
            (a.modifyLoop op rest (i / 8 / BLOCK_SIZE) (buf'.splice (i / 8 % BLOCK_SIZE)
              [UInt8.ofNat (op (buf'.byte (i / 8 % BLOCK_SIZE)).toNat (i % 8))])) := by
        intro buf buf' h
        exact modifyLoop hop rest _ _ _ (near_splice hop h i)
      have hload : Mirrors (g.SameUpTo e)
          (fun r r' => r.1 = r'.1 ∧ g.Near e (r.1 + a.start) r.2 r'.2)
          (add32 (i / 8 / BLOCK_SIZE) a.start >>= fun addr => FerrisFS.readBlock addr >>= fun buf =>
            a.modifyLoop op rest (i / 8 / BLOCK_SIZE) (buf.splice (i / 8 % BLOCK_SIZE)
              [UInt8.ofNat (op (buf.byte (i / 8 % BLOCK_SIZE)).toNat (i % 8))]))
          (add32 (i / 8 / BLOCK_SIZE) a.start >>= fun addr => FerrisFS.readBlock addr >>= fun buf =>
            a.modifyLoop op rest (i / 8 / BLOCK_SIZE) (buf.splice (i / 8 % BLOCK_SIZE)
              [UInt8.ofNat (op (buf.byte (i / 8 % BLOCK_SIZE)).toNat (i % 8))])) := by
        apply Mirrors.checkedAdd_bind
        intro _
        exact Mirrors.bind (readBlock _) hrest
      apply Mirrors.ite
      · intro _
        apply Mirrors.ite
        · intro _
          apply Mirrors.checkedAdd_bind
          intro _
          apply Mirrors.bind (writeBlock hnear)
          intro _ _ _
          exact hload
        · intro _
          exact hload
      · intro hsame
        apply hrest
        rw [Classical.not_not.mp hsame]
        exact hnear

theorem modify {op : Nat → Nat → Nat} {act : Bool → Bool}
    (hop : BitmapAllocator.BitOp op act) (bs : List Nat) :
    Respects (g.SameUpTo e) (a.modify bs op) := by
  apply Mirrors.ite
  · intro _
    exact Mirrors.pure rfl
  · intro _
    apply Mirrors.bind (modifyLoop hop bs _ _ _ fun _ _ _ => rfl)
    intro r r' hr
    obtain ⟨cached, buf⟩ := r
    obtain ⟨cached', buf'⟩ := r'
    obtain ⟨hcached, hnear⟩ := hr
    cases hcached
    apply Mirrors.ite
    · intro _
      apply Mirrors.checkedAdd_bind
      intro _
      exact writeBlock hnear
    · intro _
      exact Mirrors.pure rfl

/-- `allocate` moves the allocator to an index it has allocated. -/
theorem allocate {bs : List Nat} (hlast : a.lastAlloc < 2048 * a.size)
    (hbs : ∀ i ∈ bs, i < 2048 * a.size) :
    Mirrors (g.SameUpTo e)
      (fun r r' => r = r' ∧ ∃ last < 2048 * a.size, r = { a with lastAlloc := last })
      (a.allocate bs) (a.allocate bs) := by
  unfold BitmapAllocator.allocate
  split
  · exact Mirrors.pure ⟨rfl, a.lastAlloc, hlast, rfl⟩
  · rename_i last hl
    apply Mirrors.bind (modify BitmapAllocator.setBit_bitOp _)
    intro _ _ _
    exact Mirrors.pure ⟨rfl, last, hbs last (List.mem_of_getLast? hl), rfl⟩

theorem deallocate (bs : List Nat) : Respects (g.SameUpTo e) (a.deallocate bs) :=
  modify BitmapAllocator.clearBit_bitOp bs

end SameUpTo

/-! ## Two mounted filesystems -/

/-- The same format is mounted on devices that agree up to the end of the bitmaps. -/
structure Alike (g : Geom) (e : Nat) (s s' : FFS) : Prop where
  format : s'.format = s.format
  mounted : ∃ t : St, s.format = g.format t ∧ t.CursorsIn g
  device : g.SameUpTo e s.device s'.device

/-- The bits that the inode bitmap lacks for the last inodes are bits of data blocks. -/
def Covers (g : Geom) : Prop := g.inodes ≤ 2048 * g.inodeBitmapBlocks + g.cap

/-- A block of the superblock, the inode table or the data region. -/
abbrev Away (g : Geom) (k : Nat) : Prop := k = 0 ∨ g.inodeTableStart ≤ k

theorem table_away (g : Geom) : ∀ k, g.inodeTableStart ≤ k → g.Away k := fun _ hk => .inr hk

theorem data_away (g : Geom) : ∀ k, g.dataStart ≤ k → g.Away k :=
  fun _ hk => .inr (Nat.le_trans (Nat.le_add_right _ _) hk)

theorem counts_inode (hg : g.Covers) (last : Nat) :
    ∀ i ≤ (g.inodeAllocator last).maxIndex, g.Counts 1 ((g.inodeAllocator last).start + i / 2048)
      (i % 2048) := by
  intro i hi
  have hi : i ≤ g.inodes := hi
  have hg : g.inodes ≤ 2048 * g.inodeBitmapBlocks + g.cap := hg
  constructor
  · intro _ _
    show 2048 * (1 + i / 2048 - 1) + i % 2048 < g.inodes + 1
    omega
  · intro hle _
    have hle : 1 + g.inodeBitmapBlocks ≤ 1 + i / 2048 := hle
    show 2048 * (1 + i / 2048 - (1 + g.inodeBitmapBlocks)) + i % 2048 < g.cap + 1
    omega

theorem counts_data (last : Nat) :
    ∀ i ≤ (g.blockAllocator last).maxIndex, g.Counts 1 ((g.blockAllocator last).start + i / 2048)
      (i % 2048) := by
  intro i hi
  have hi : i ≤ g.cap := hi
  constructor
  · intro _ hlt
    have hlt : g.blockBitmapStart + i / 2048 < g.blockBitmapStart := hlt
    omega
  · intro _ _
    show 2048 * (g.blockBitmapStart + i / 2048 - g.blockBitmapStart) + i % 2048 < g.cap + 1
    omega

theorem within_inode (last : Nat) :
    ∀ d : MemoryDevice, d.blockCount = g.totalBlocks → (g.inodeAllocator last).Within d :=
  fun _ hd => (holds_self hd).inodeBitmap

theorem within_data (last : Nat) :
    ∀ d : MemoryDevice, d.blockCount = g.totalBlocks → (g.blockAllocator last).Within d :=
  fun _ hd => (holds_self hd).blockBitmap

namespace Alike

variable {α β : Type} {s s' : FFS}

theorem onDevice {V : α → β → Prop} {m : DevM α} {m' : DevM β}
    (h : Mirrors (g.SameUpTo e) V m m') :
    Mirrors (g.Alike e) V (onDevice m) (onDevice m') := by
  intro s s' hs
  have hm := h s.device s'.device hs.device
  unfold FerrisFS.onDevice Prog.zoom
  revert hm
  generalize m s.device = o
  generalize m' s'.device = o'
  intro hm
  cases hm with
  | ok hv hr => exact .ok hv ⟨hs.format, hs.mounted, hr⟩
  | err hr => exact .err ⟨hs.format, hs.mounted, hr⟩
  | panic => exact .panic

theorem away {m : DevM α} (h : Confined g.Away g.Away m) :
    Respects (g.Alike e) (FerrisFS.onDevice m) :=
  onDevice (SameUpTo.respects h)

theorem getFormat {f : FormatV1 → FsM α}
    (h : ∀ t : St, t.CursorsIn g → Respects (g.Alike e) (f (g.format t))) :
    Respects (g.Alike e) (getFormat >>= f) := by
  intro s s' hs
  obtain ⟨t, hfmt, hc⟩ := hs.mounted
  show Matched _ _ (f s.format s) (f s'.format s')
  rw [hs.format, hfmt]
  exact h t hc s s' hs

theorem modifyFormat {f : FormatV1 → FormatV1}
    (h : ∀ t : St, t.CursorsIn g → ∃ t' : St, f (g.format t) = g.format t' ∧ t'.CursorsIn g) :
    Respects (g.Alike e) (modifyFormat f) := by
  intro s s' hs
  obtain ⟨t, hfmt, hc⟩ := hs.mounted
  obtain ⟨t', hf, hc'⟩ := h t hc
  apply Matched.ok rfl
  refine ⟨?_, ⟨t', ?_, hc'⟩, hs.device⟩
  · show f s'.format = f s.format
    rw [hs.format]
  · show f s.format = g.format t'
    rw [hfmt, hf]

theorem writeSuperblock : Respects (g.Alike e) writeSuperblock := by
  apply getFormat
  intro t _
  exact away (Confined.writeBlock _ (.inl rfl))

/-! ## Allocation -/

theorem findInodes {t : St} (hc : t.CursorsIn g) (num : Nat) :
    Mirrors (g.Alike e) (fun l l' => l = l' ∧ ∀ i ∈ l, i < 2048 * g.inodeBitmapBlocks)
      (FerrisFS.onDevice ((g.format t).inodeAllocator.findFree num))
      (FerrisFS.onDevice ((g.format t).inodeAllocator.findFree num)) :=
  onDevice (SameUpTo.findFree (within_inode _) inodes_indexed hc.lastInode (fun hd i hi hlt =>
    hd.inodes i hi (Nat.lt_add_right e hlt)) num)

theorem findData {t : St} (hc : t.CursorsIn g) (num : Nat) :
    Mirrors (g.Alike e) (fun l l' => l = l' ∧ ∀ i ∈ l, i < 2048 * g.blockBitmapBlocks)
      (FerrisFS.onDevice ((g.format t).blockAllocator.findFree num))
      (FerrisFS.onDevice ((g.format t).blockAllocator.findFree num)) :=
  onDevice (SameUpTo.findFree (within_data _) blocks_indexed hc.lastData (fun hd i hi hlt =>
    hd.data i hi (Nat.lt_add_right e hlt)) num)

theorem allocate (inodes data : Nat) :
    Respects (g.Alike e) (FormatV1.allocate inodes data) := by
  apply getFormat
  intro t hc
  apply Respects.failIf
  apply Respects.failIf
  apply Mirrors.bind (findInodes hc inodes)
  intro is is' his
  obtain ⟨rfl, his⟩ := his
  apply Mirrors.bind (findData hc data)
  intro ds ds' hds
  obtain ⟨rfl, hds⟩ := hds
  apply Respects.ite
  · intro _
    apply Respects.bind (modifyFormat fun t' hc' =>
      ⟨{ t' with freeInodes := is.length, freeData := t.freeData }, rfl, hc'.1, hc'.2⟩)
    intro _
    exact Respects.fail _
  intro _
  apply Respects.ite
  · intro _
    apply Respects.bind (modifyFormat fun t' hc' =>
      ⟨{ t' with freeInodes := t.freeInodes, freeData := ds.length }, rfl, hc'.1, hc'.2⟩)
    intro _
    exact Respects.fail _
  intro _
  apply Mirrors.bind (onDevice (SameUpTo.allocate hc.lastInode his))
  intro a a' ha
  obtain ⟨rfl, lastInode, hlast, rfl⟩ := ha
  apply Respects.bind (modifyFormat fun t' hc' =>
    ⟨{ t' with lastInode := lastInode }, rfl, hlast, hc'.2⟩)
  intro _
  apply Mirrors.bind (onDevice (SameUpTo.allocate hc.lastData hds))
  intro a a' ha
  obtain ⟨rfl, lastData, hlast, rfl⟩ := ha
  apply Respects.bind (modifyFormat fun t' hc' =>
    ⟨{ t' with lastData := lastData }, rfl, hc'.1, hlast⟩)
  intro _
  apply Respects.checkedSub
  apply Respects.checkedSub
  apply Respects.bind (modifyFormat fun t' hc' =>
    ⟨{ t' with freeInodes := t.freeInodes - inodes, freeData := t.freeData - data }, rfl,
      hc'.1, hc'.2⟩)
  intro _
  exact Respects.bind writeSuperblock fun _ => Respects.pure _

/-! ## Creating -/

theorem resolve (path : List Component) (src : Nat) (final : Bool) :
    Respects (g.Alike e)
      (FerrisFS.onDevice (g.directoryHandler.resolve path src g.inodeHandler final)) :=
  away (Confined.resolve g.data_away g.data_away g.table_away path src final)

theorem readInode (i : Nat) :
    Respects (g.Alike e) (FerrisFS.onDevice (g.inodeHandler.readInode i)) :=
  away (Confined.readInode g.table_away i)

theorem writeInode (i : Nat) (node : INode) :
    Respects (g.Alike e) (FerrisFS.onDevice (g.inodeHandler.writeInode i node)) :=
  away (Confined.writeInode g.table_away g.table_away i node)

theorem addBlock (node : INode) (block : Nat) (pool : List Nat) :
    Respects (g.Alike e) (FerrisFS.onDevice (g.inodeHandler.addBlock node block pool)) :=
  away (Confined.addBlock g.data_away g.data_away node block pool)

theorem findEntry (node : INode) (name : List UInt8) :
    Respects (g.Alike e)
      (FerrisFS.onDevice (g.directoryHandler.findEntry node g.inodeHandler name)) :=
  away (Confined.findEntry g.data_away g.data_away node name)

theorem canFit (node : INode) (entry : DirEntry) :
    Respects (g.Alike e)
      (FerrisFS.onDevice (g.directoryHandler.canFit node g.inodeHandler entry)) :=
  away (Confined.canFit g.data_away g.data_away node entry)

theorem writeEntry (parent : INode) (entry : DirEntry) (fit : Option (Nat × Nat))
    (fresh : List Nat) : Respects (g.Alike e) (writeEntry parent entry fit fresh) := by
  apply getFormat
  intro t _
  match fit with
  | none =>
      apply Respects.unwrap
      intro entryBlock
      apply Respects.abortIf
      apply Respects.bind (addBlock _ _ _)
      intro parent
      apply Respects.bind (away (Confined.addEntryGrow g.data_away _ _))
      intro _
      exact Respects.checkedAdd (Respects.pure _)
  | some (entryBlock, entryOffset) =>
      apply Respects.bind (away (Confined.addEntryHere g.data_away g.data_away _ _ _))
      intro _
      exact Respects.pure _

theorem newInode (ft : FileType) (ds : List Nat) (now : UInt64) :
    Respects (g.Alike e) (newInode ft ds now) := by
  apply getFormat
  intro t _
  apply Respects.ite
  · intro _
    apply Respects.unwrap
    intro block
    exact Respects.bind (addBlock _ _ _) fun _ => Respects.pure _
  · intro _
    exact Respects.pure _

theorem createIn (p : Nat) (node : INode) (ft : FileType) (name : Str)
    (onExists : DirEntry → FSError) (now : UInt64) :
    Respects (g.Alike e) (createIn p node ft name onExists now) := by
  apply getFormat
  intro t _
  apply Respects.bind (findEntry _ _)
  intro existing
  match existing with
  | some (entry, _, _) => exact Respects.fail _
  | none =>
    apply Respects.abortIf
    apply Respects.bind (canFit _ _)
    intro fit
    apply Respects.bind (allocate _ _)
    intro taken
    apply Respects.unwrap
    intro index
    apply Respects.bind (newInode _ _ _)
    intro inode
    apply Respects.bind (writeInode _ _)
    intro _
    have hrest : Respects (g.Alike e) (do
        let parentInode ← FormatV1.writeEntry node
          { DirEntry.new INVALID_ADDRESS ft name with inode := index } fit
          (taken.2.drop (fileBlocks ft))
        FerrisFS.onDevice (g.inodeHandler.writeInode p { parentInode with modified := now.toNat })
        pure (inode, index) : FsM (INode × Nat)) := by
      apply Respects.bind (writeEntry _ _ _ _)
      intro parent
      exact Respects.bind (writeInode _ _) fun _ => Respects.pure _
    apply Respects.ite
    · intro _
      exact Respects.bind
        (away (Confined.writeDirectoryWithInode g.data_away g.data_away _ _)) fun _ => hrest
    · intro _
      exact hrest

theorem create (path : Str) (ft : FileType) (now : UInt64) :
    Respects (g.Alike e) (create path ft now) := by
  apply Respects.failIf
  apply Respects.unwrap
  intro split
  apply getFormat
  intro t _
  apply Respects.bind (resolve _ _ _)
  intro r
  exact createIn _ _ _ _ _ _

theorem isAllocated_inode (hg : g.Covers) (t : St) (i : Nat) :
    Respects (g.Alike 1) (FerrisFS.onDevice ((g.format t).inodeAllocator.isAllocated i)) :=
  onDevice (SameUpTo.isAllocated (counts_inode hg _) i)

theorem isAllocated_data (t : St) (i : Nat) :
    Respects (g.Alike 1) (FerrisFS.onDevice ((g.format t).blockAllocator.isAllocated i)) :=
  onDevice (SameUpTo.isAllocated (counts_data _) i)

theorem createChild (hg : g.Covers) (ft : FileType) (name : Str) (p : Nat) (now : UInt64) :
    Respects (g.Alike 1) (createChild ft name p now) := by
  apply getFormat
  intro t _
  apply Respects.bind (isAllocated_inode hg t p)
  intro allocated
  apply Respects.failIf
  apply Respects.bind (readInode _)
  intro parent
  apply Respects.failIf
  exact createIn _ _ _ _ _ _

theorem writeSymlink (node : INode) (i : Nat) (target : Str) (now : UInt64) :
    Respects (g.Alike e) (writeSymlink node i target now) := by
  apply getFormat
  intro t _
  apply Respects.checkedAdd
  apply Respects.abortIf
  apply Respects.bind
    (away (Confined.writeBlock _ (g.data_away _ (Nat.le_add_right g.dataStart _))))
  intro _
  exact writeInode _ _

theorem createSymlink (path target : Str) (now now' : UInt64) :
    Respects (g.Alike e) (createSymlink path target now now') := by
  apply Respects.bind (create _ _ _)
  intro res
  exact writeSymlink _ _ _ _

theorem linkIn (node : INode) (i : Nat) (dst name : Str) (parent : INode) (p : Nat)
    (now : UInt64) : Respects (g.Alike e) (linkIn node i dst name parent p now) := by
  apply getFormat
  intro t _
  apply Respects.bind (findEntry _ _)
  intro existing
  apply Respects.failIf
  apply Respects.bind (canFit _ _)
  intro fit
  apply Respects.bind (allocate _ _)
  intro taken
  apply Respects.bind (writeEntry _ _ _ _)
  intro parent
  apply Respects.checkedAdd
  apply Respects.bind (writeInode _ _)
  intro _
  exact writeInode _ _

theorem createHardlink (src dst : Str) (now : UInt64) :
    Respects (g.Alike e) (createHardlink src dst now) := by
  apply getFormat
  intro t _
  apply Respects.bind (resolve _ _ _)
  intro source
  apply Respects.failIf
  apply Respects.unwrap
  intro split
  apply Respects.bind (resolve _ _ _)
  intro destination
  exact linkIn _ _ _ _ _ _ _

theorem createChildHardlink (node : INode) (i : Nat) (dst : Str) (parent : INode) (p : Nat)
    (now : UInt64) : Respects (g.Alike e) (createChildHardlink node i dst parent p now) := by
  apply Respects.unwrap
  intro split
  exact linkIn _ _ _ _ _ _ _

/-! ## Deleting -/

theorem unlink (node : INode) (i : Nat) (parent : INode) (p block offset : Nat)
    (notEmpty : FSError) (now : UInt64) :
    Respects (g.Alike e) (unlink node i parent p block offset notEmpty now) := by
  apply getFormat
  intro t _
  have hfree : Respects (g.Alike e) (do
      let _ ← FerrisFS.onDevice (g.directoryHandler.freeRegion block offset)
      FerrisFS.onDevice
        (g.inodeHandler.writeInode p { parent with modified := now.toNat }) : FsM Unit) := by
    apply Respects.bind (away (Confined.freeRegion g.data_away g.data_away _ _))
    intro _
    exact writeInode _ _
  have hdrop : Respects (g.Alike e) (do
      if node.links > 1 then
        FerrisFS.onDevice (g.inodeHandler.writeInode i { node with links := node.links - 1 })
      else do
        let dataToDealloc ←
          FerrisFS.onDevice (collectBlocks g.inodeHandler node (List.range node.blocks))
        FerrisFS.onDevice ((g.format t).blockAllocator.deallocate dataToDealloc)
        FerrisFS.onDevice ((g.format t).inodeAllocator.deallocate [i])
        let freeData ← add32 t.freeData dataToDealloc.length
        let freeInodes ← add32 t.freeInodes 1
        FerrisFS.modifyFormat fun f => { f with
          superblock := { f.superblock with freeData := freeData, freeInodes := freeInodes } }
        FerrisFS.writeSuperblock
      let _ ← FerrisFS.onDevice (g.directoryHandler.freeRegion block offset)
      FerrisFS.onDevice
        (g.inodeHandler.writeInode p { parent with modified := now.toNat }) : FsM Unit) := by
    apply Respects.ite
    · intro _
      exact Respects.bind (writeInode _ _) fun _ => hfree
    · intro _
      apply Respects.bind (away (Confined.collectBlocks g.data_away _ _))
      intro dataToDealloc
      apply Respects.bind (onDevice (SameUpTo.deallocate _))
      intro _
      apply Respects.bind (onDevice (SameUpTo.deallocate _))
      intro _
      apply Respects.checkedAdd
      apply Respects.checkedAdd
      apply Respects.bind (modifyFormat fun t' hc' => ⟨{ t' with
        freeInodes := t.freeInodes + 1, freeData := t.freeData + dataToDealloc.length }, rfl,
        hc'.1, hc'.2⟩)
      intro _
      exact Respects.bind writeSuperblock fun _ => hfree
  apply Respects.ite
  · intro _
    apply Respects.bind (away (Confined.iterateBlocks g.data_away g.data_away _ _ _ _))
    intro empty
    exact Respects.failIf hdrop
  · intro _
    exact hdrop

theorem delete (path : Str) (now : UInt64) : Respects (g.Alike e) (delete path now) := by
  apply getFormat
  intro t _
  apply Respects.bind (resolve _ _ _)
  intro r
  apply Respects.failIf
  apply Respects.bind (readInode _)
  intro parent
  exact unlink _ _ _ _ _ _ _ _

theorem deleteChild (hg : g.Covers) (name : Str) (p : Nat) (ty : Option FileType)
    (now : UInt64) : Respects (g.Alike 1) (deleteChild name p ty now) := by
  apply Respects.failIf
  apply getFormat
  intro t _
  apply Respects.bind (isAllocated_inode hg t p)
  intro allocated
  apply Respects.failIf
  apply Respects.bind (readInode _)
  intro parent
  apply Respects.failIf
  apply Respects.bind (findEntry _ _)
  intro existing
  match existing with
  | none => exact Respects.fail _
  | some (entry, block, offset) =>
    apply Respects.bind (readInode _)
    intro node
    match ty with
    | none => exact unlink _ _ _ _ _ _ _ _
    | some x =>
      apply Respects.failIf
      exact unlink _ _ _ _ _ _ _ _

theorem getInode (hg : g.Covers) (i : Nat) : Respects (g.Alike 1) (getInode i) := by
  apply getFormat
  intro t _
  apply Respects.bind (isAllocated_inode hg t i)
  intro allocated
  apply Respects.failIf
  exact readInode _

theorem checkIntegrity (hg : g.Covers) : Respects (g.Alike 1) checkIntegrity := by
  apply getFormat
  intro t _
  apply onDevice
  have hprobes : Probes g.Away (g.format t) (checkDevice (g.format t)) :=
    Probes.check g.data_away g.data_away g.table_away
  apply Composed.respects hprobes
  intro α m hm
  cases hm with
  | read hk => exact (SameUpTo.readBlock _).weaken fun _ _ hnear => (hnear.eq hk).symm
  | inode i => exact SameUpTo.isAllocated (counts_inode hg _) i
  | data i => exact SameUpTo.isAllocated (counts_data _) i
  | countInodes =>
      exact SameUpTo.countAllocated (within_inode _) inodes_indexed fun hd i hi hlt =>
        hd.inodes i hi (Nat.lt_add_right 1 hlt)
  | countData =>
      exact SameUpTo.countAllocated (within_data _) blocks_indexed fun hd i hi hlt =>
        hd.data i hi (Nat.lt_add_right 1 hlt)

end Alike

theorem Alike.lower {s s' : FFS} (h : g.Alike 1 s s') : g.Alike 0 s s' where
  format := h.format
  mounted := h.mounted
  device :=
    { count := h.device.count
      count' := h.device.count'
      elsewhere := h.device.elsewhere
      inodes := fun i hi hlt => h.device.inodes i hi (Nat.lt_add_right 1 hlt)
      data := fun i hi hlt => h.device.data i hi (Nat.lt_add_right 1 hlt) }

/-- Images that differ only past the end of the bitmaps are mounted alike. -/
theorem SameUpTo.mount (h : g.SameUpTo e d d') {fi fd : Nat}
    (hsb : Superblock.deserialize (d.block 0) = g.superblock fi fd) :
    ∃ f, FormatV1.mount d = .ok f d ∧ FormatV1.mount d' = .ok f d' ∧
      g.Alike e ⟨d, f⟩ ⟨d', f⟩ := by
  have hsb' : Superblock.deserialize (d'.block 0) = g.superblock fi fd := by
    rw [h.elsewhere 0 (.inl rfl)]
    exact hsb
  have h1 := g.inodeBitmap_pos
  have h2 := g.blockBitmap_covers
  have h3 := g.hasData
  refine ⟨_, mount_of_superblock h.count hsb, mount_of_superblock h.count' hsb', rfl, ?_, h⟩
  refine ⟨_, rfl, ?_, ?_⟩
  · show 0 < 2048 * g.inodeBitmapBlocks
    omega
  · show 0 < 2048 * g.blockBitmapBlocks
    omega

/-- The layouts that `format` chooses. -/
theorem ofCount_covers (n : Nat) (h5 : 5 ≤ n) (hsmall : n < 2 ^ 24) :
    (ofCount n h5 hsmall).Covers := by
  show (ofCount n h5 hsmall).inodeTableBlocks * 2 ≤ 2048 * (ofCount n h5 hsmall).inodeBitmapBlocks +
    (ofCount n h5 hsmall).cap
  have hstart := (ofCount n h5 hsmall).dataStart_add_cap
  simp only [dataStart, inodeTableStart, blockBitmapStart, ofCount, divCeil, BLOCK_SIZE,
    INODE_DENSITY, INode.inodesPerBlock, INode.onDiskSize] at hstart ⊢
  omega

end Geom

/-! ## The calls -/

/-- The questions to the allocators, as calls on the mounted filesystem. -/
def inodeAllocated (i : Nat) : FsM Bool := do
  let f ← getFormat
  onDevice (f.inodeAllocator.isAllocated i)

def dataAllocated (i : Nat) : FsM Bool := do
  let f ← getFormat
  onDevice (f.blockAllocator.isAllocated i)

def freeInodes (n : Nat) : FsM (List Nat) := do
  let f ← getFormat
  onDevice (f.inodeAllocator.findFree n)

def freeData (n : Nat) : FsM (List Nat) := do
  let f ← getFormat
  onDevice (f.blockAllocator.findFree n)

def countInodes : FsM Nat := do
  let f ← getFormat
  onDevice f.inodeAllocator.countAllocated

def countData : FsM Nat := do
  let f ← getFormat
  onDevice f.blockAllocator.countAllocated

namespace Geom

/-- The call ends the same way on both, and the devices then again differ only past the
end of the bitmaps. -/
def AnswersAlike (g : Geom) (s s' : FFS) {α : Type} (m : FsM α) : Prop :=
  Matched (g.Alike 0) Eq (m s) (m s')

/-- No call tells the two apart. -/
structure TailBlind (g : Geom) (s s' : FFS) : Prop where
  inodeAllocated : ∀ i, g.AnswersAlike s s' (inodeAllocated i)
  dataAllocated : ∀ i, g.AnswersAlike s s' (dataAllocated i)
  freeInodes : ∀ n, g.AnswersAlike s s' (freeInodes n)
  freeData : ∀ n, g.AnswersAlike s s' (freeData n)
  countInodes : g.AnswersAlike s s' countInodes
  countData : g.AnswersAlike s s' countData
  getInode : ∀ i, g.AnswersAlike s s' (getInode i)
  createFile : ∀ path now, g.AnswersAlike s s' (createFile path now)
  createDirectory : ∀ path now, g.AnswersAlike s s' (createDirectory path now)
  createSymlink : ∀ path target now now',
    g.AnswersAlike s s' (createSymlink path target now now')
  createChild : ∀ ft name p now, g.AnswersAlike s s' (createChild ft name p now)
  createHardlink : ∀ src dst now, g.AnswersAlike s s' (createHardlink src dst now)
  createChildHardlink : ∀ node i dst parent p now,
    g.AnswersAlike s s' (createChildHardlink node i dst parent p now)
  delete : ∀ path now, g.AnswersAlike s s' (delete path now)
  deleteChild : ∀ name p ft now, g.AnswersAlike s s' (deleteChild name p ft now)
  checkIntegrity : g.AnswersAlike s s' checkIntegrity

variable {g : Geom} {s s' : FFS}

theorem answersAlike_of_respects {α : Type} {m : FsM α} (h : g.Alike 1 s s')
    (hm : Respects (g.Alike 1) m) : g.AnswersAlike s s' m :=
  (hm s s' h).mono fun _ _ => Alike.lower

theorem tailBlind_of_alike (hg : g.Covers) (h : g.Alike 1 s s') : g.TailBlind s s' where
  inodeAllocated i := answersAlike_of_respects h
    (Alike.getFormat fun t _ => Alike.isAllocated_inode hg t i)
  dataAllocated i := answersAlike_of_respects h
    (Alike.getFormat fun t _ => Alike.isAllocated_data t i)
  freeInodes n := answersAlike_of_respects h
    (Alike.getFormat fun _ hc => (Alike.findInodes hc n).weaken fun _ _ hl => hl.1)
  freeData n := answersAlike_of_respects h
    (Alike.getFormat fun _ hc => (Alike.findData hc n).weaken fun _ _ hl => hl.1)
  countInodes := answersAlike_of_respects h
    (Alike.getFormat fun _ _ => Alike.onDevice (SameUpTo.countAllocated (within_inode _)
      inodes_indexed fun hd i hi hlt => hd.inodes i hi (Nat.lt_add_right 1 hlt)))
  countData := answersAlike_of_respects h
    (Alike.getFormat fun _ _ => Alike.onDevice (SameUpTo.countAllocated (within_data _)
      blocks_indexed fun hd i hi hlt => hd.data i hi (Nat.lt_add_right 1 hlt)))
  getInode i := answersAlike_of_respects h (Alike.getInode hg i)
  createFile path now := answersAlike_of_respects h
    (Respects.bind (Alike.create path .file now) fun _ => Respects.pure ())
  createDirectory path now := answersAlike_of_respects h
    (Respects.bind (Alike.create path .directory now) fun _ => Respects.pure ())
  createSymlink path target now now' := answersAlike_of_respects h
    (Alike.createSymlink path target now now')
  createChild ft name p now := answersAlike_of_respects h (Alike.createChild hg ft name p now)
  createHardlink src dst now := answersAlike_of_respects h (Alike.createHardlink src dst now)
  createChildHardlink node i dst parent p now := answersAlike_of_respects h
    (Alike.createChildHardlink node i dst parent p now)
  delete path now := answersAlike_of_respects h (Alike.delete path now)
  deleteChild name p ft now := answersAlike_of_respects h (Alike.deleteChild hg name p ft now)
  checkIntegrity := answersAlike_of_respects h (Alike.checkIntegrity hg)

/-- `is_allocated` on the index `max_index` reads the bit of that index. -/
theorem isAllocated_limit {a : BitmapAllocator} {d : MemoryDevice}
    (hlt : a.start + a.maxIndex / 2048 < d.blockCount) (hsmall : d.blockCount < U32) :
    a.isAllocated a.maxIndex d = .ok (d.bitAt a.start a.maxIndex) d := by
  have hdiv : a.maxIndex / 8 / BLOCK_SIZE = a.maxIndex / 2048 := by
    simp only [BLOCK_SIZE]
    omega
  rw [BitmapAllocator.isAllocated_of_le (Nat.le_refl _), hdiv,
    bind_of_ok (checkedAdd_of_lt (by omega)), bind_of_ok (readBlock_of_lt hlt),
    BitmapAllocator.bitAt_eq, hdiv]
  rfl

theorem inodeAllocated_limit {t : St} (hfmt : s.format = g.format t)
    (hcount : s.device.blockCount = g.totalBlocks) :
    (FerrisFS.inodeAllocated g.inodes s).value? = some (s.device.bitAt 1 g.inodes) := by
  have hdata := g.hasData
  have hsmall := g.small
  have hlt : 1 + g.inodeTableBlocks * 2 / 2048 < s.device.blockCount := by omega
  have hok := isAllocated_limit (a := g.inodeAllocator t.lastInode) (d := s.device) hlt
    (by rw [hcount, U32]; omega)
  show (onDevice (s.format.inodeAllocator.isAllocated g.inodes) s).value? = _
  rw [hfmt, onDevice]
  exact congrArg Outcome.value? (zoom_of_ok hok)

theorem bit_eq_of_answersAlike {a : BitmapAllocator} (h : g.Alike 0 s s')
    (hlt : a.start + a.maxIndex / 2048 < g.totalBlocks)
    (hanswer : Matched (g.Alike 0) Eq (onDevice (a.isAllocated a.maxIndex) s)
      (onDevice (a.isAllocated a.maxIndex) s')) :
    s'.device.bitAt a.start a.maxIndex = s.device.bitAt a.start a.maxIndex := by
  have hsmall := g.small
  have hok := isAllocated_limit (a := a) (d := s.device) (by rw [h.device.count]; exact hlt)
    (by rw [h.device.count, U32]; omega)
  have hok' := isAllocated_limit (a := a) (d := s'.device) (by rw [h.device.count']; exact hlt)
    (by rw [h.device.count', U32]; omega)
  unfold onDevice at hanswer
  rw [zoom_of_ok hok, zoom_of_ok hok'] at hanswer
  cases hanswer with
  | ok hv _ => exact hv.symm

end Geom

/-- Bits at and past the limits of the bitmaps do not matter exactly when the images agree
in the bits of index `max_index`. -/
theorem tail_bits_iff {g : Geom} (hg : g.Covers) {s s' : FFS} (h : g.Alike 0 s s') :
    g.TailBlind s s' ↔
      s'.device.bitAt 1 g.inodes = s.device.bitAt 1 g.inodes ∧
        s'.device.bitAt g.blockBitmapStart g.cap = s.device.bitAt g.blockBitmapStart g.cap := by
  have hdata := g.hasData
  have hcap := g.cap_le_bits
  constructor
  · intro hblind
    obtain ⟨t, hfmt, -⟩ := h.mounted
    have hfmt' : s'.format = g.format t := h.format.trans hfmt
    constructor
    · have hanswer : Matched (g.Alike 0) Eq
          (onDevice (s.format.inodeAllocator.isAllocated g.inodes) s)
          (onDevice (s'.format.inodeAllocator.isAllocated g.inodes) s') :=
        hblind.inodeAllocated g.inodes
      rw [hfmt, hfmt'] at hanswer
      refine Geom.bit_eq_of_answersAlike (a := g.inodeAllocator t.lastInode) h ?_ hanswer
      show 1 + g.inodeTableBlocks * 2 / 2048 < g.totalBlocks
      omega
    · have hanswer : Matched (g.Alike 0) Eq (onDevice (s.format.blockAllocator.isAllocated g.cap) s)
          (onDevice (s'.format.blockAllocator.isAllocated g.cap) s') :=
        hblind.dataAllocated g.cap
      rw [hfmt, hfmt'] at hanswer
      refine Geom.bit_eq_of_answersAlike (a := g.blockAllocator t.lastData) h ?_ hanswer
      show 1 + g.inodeBitmapBlocks + g.cap / 2048 < g.totalBlocks
      omega
  · intro hbits
    apply Geom.tailBlind_of_alike hg
    refine ⟨h.format, h.mounted, h.device.count, h.device.count', h.device.elsewhere, ?_, ?_⟩
    · intro i hi hlt
      by_cases hlim : i = g.inodes
      · rw [hlim]
        exact hbits.1
      · exact h.device.inodes i hi (by omega)
    · intro i hi hlt
      by_cases hlim : i = g.cap
      · rw [hlim]
        exact hbits.2
      · exact h.device.data i hi (by omega)

/-! ## Setting a bit past the end -/

namespace Geom

variable {g : Geom} {now : UInt64} {d : MemoryDevice}

/-- A formatted device, and the same device with bit `i` of the inode bitmap set. -/
theorem Fresh.setTail (h : g.Fresh now d) {i : Nat} (hi : g.inodes ≤ i)
    (hbits : i < 2048 * g.inodeBitmapBlocks) :
    g.SameUpTo 0 d ((g.inodeAllocator 0).touch BitmapAllocator.setBit d i) ∧
      (∀ j, ((g.inodeAllocator 0).touch BitmapAllocator.setBit d i).bitAt 1 j =
        if j = i then true else d.bitAt 1 j) ∧
      ∀ j, ((g.inodeAllocator 0).touch BitmapAllocator.setBit d i).bitAt g.blockBitmapStart j =
        d.bitAt g.blockBitmapStart j := by
  have hw := within_inode (g := g) 0 d h.count
  have htouch := BitmapAllocator.bitAt_touch BitmapAllocator.setBit_bitOp hw hbits
  have hout : ∀ k, k = 0 ∨ g.blockBitmapStart ≤ k →
      ((g.inodeAllocator 0).touch BitmapAllocator.setBit d i).block k = d.block k := by
    intro k hk
    apply BitmapAllocator.touch_block_of_outside hw hbits
    show k < 1 ∨ 1 + g.inodeBitmapBlocks ≤ k
    simp only [blockBitmapStart] at hk
    omega
  have hdata : ∀ j, ((g.inodeAllocator 0).touch BitmapAllocator.setBit d i).bitAt
      g.blockBitmapStart j = d.bitAt g.blockBitmapStart j := by
    intro j
    rw [BitmapAllocator.bitAt_eq, BitmapAllocator.bitAt_eq, hout _ (.inr (Nat.le_add_right _ _))]
  refine ⟨⟨h.count, ?_, ?_, ?_, fun j _ _ => hdata j⟩, htouch, hdata⟩
  · rw [BitmapAllocator.touch_blockCount]
    exact h.count
  · intro k hk
    apply hout
    have hle : g.blockBitmapStart ≤ g.inodeTableStart := Nat.le_add_right _ _
    omega
  · intro j _ hj
    exact (htouch j).trans (if_neg (by omega))

theorem Fresh.bit_clear (h : g.Fresh now d) {i : Nat} (hi : 0 < i)
    (hbits : i < 2048 * g.inodeBitmapBlocks) : d.bitAt 1 i = false := by
  have hbit : ¬ (g.view d).ibit i = true := fun hset => Nat.ne_of_gt hi ((h.ibit i).mp hset)
  simp only [view, hbits, decide_true, Bool.true_and, Bool.not_eq_true] at hbit
  exact hbit

theorem Fresh.alike (h : g.Fresh now d) {d' : MemoryDevice} (hd : g.SameUpTo 0 d d') :
    ∃ f, g.Alike 0 ⟨d, f⟩ ⟨d', f⟩ := by
  have hsmall := g.small
  have hdata := g.hasData
  have hcap := g.cap_lt
  have hinodes : g.inodes = g.inodeTableBlocks * 2 := rfl
  have hsb : Superblock.deserialize (d.block 0) = g.superblock (g.inodes - 1) (g.cap - 1) := by
    rw [h.superblock]
    exact Superblock.deserialize_serialize (by decide : MAGIC < 2 ^ 64)
      (superblock_words (by omega) (by omega)) _
  obtain ⟨f, -, -, halike⟩ := hd.mount hsb
  exact ⟨f, halike⟩

end Geom

/-- The layout of a device of 14 blocks: 4 inodes and 9 data blocks. -/
def Geom.fourteen : Geom := .ofCount 14 (by decide) (by decide)

/-- Bit 5 of the inode bitmap does not matter. -/
theorem tail_bits_five : ∃ s s' : FFS, Geom.fourteen.Alike 0 s s' ∧
    s'.device.bitAt 1 5 ≠ s.device.bitAt 1 5 ∧ Geom.fourteen.TailBlind s s' := by
  obtain ⟨d, -, hfresh⟩ := format_ok (d := MemoryDevice.empty 14) (by decide) (by decide) 0
  obtain ⟨hsame, htouch, hdata⟩ := Geom.Fresh.setTail (g := Geom.fourteen) hfresh (i := 5)
    (by decide) (by decide)
  obtain ⟨f, halike⟩ := Geom.Fresh.alike hfresh hsame
  refine ⟨_, _, halike, ?_, ?_⟩
  · rw [htouch 5, Geom.Fresh.bit_clear hfresh (by decide) (by decide)]
    decide
  · apply (tail_bits_iff (Geom.ofCount_covers 14 _ _) halike).mpr
    exact ⟨(htouch _).trans (if_neg (by decide)), hdata _⟩

/-- Bit 4 of the inode bitmap, of index `max_index`, does: `is_allocated` reads it. -/
theorem tail_bits_four : ∃ s s' : FFS, Geom.fourteen.Alike 0 s s' ∧
    (inodeAllocated 4 s).value? = some false ∧ (inodeAllocated 4 s').value? = some true := by
  obtain ⟨d, -, hfresh⟩ := format_ok (d := MemoryDevice.empty 14) (by decide) (by decide) 0
  obtain ⟨hsame, htouch, hdata⟩ := Geom.Fresh.setTail (g := Geom.fourteen) hfresh (i := 4)
    (by decide) (by decide)
  obtain ⟨f, halike⟩ := Geom.Fresh.alike hfresh hsame
  obtain ⟨t, hfmt, -⟩ := halike.mounted
  have hfmt : f = Geom.fourteen.format t := hfmt
  refine ⟨_, _, halike, ?_, ?_⟩
  · have hvalue := Geom.inodeAllocated_limit (g := Geom.fourteen) (s := ⟨d, f⟩) hfmt hsame.count
    exact hvalue.trans
      (congrArg some (Geom.Fresh.bit_clear (g := Geom.fourteen) hfresh (by decide) (by decide)))
  · have hvalue := Geom.inodeAllocated_limit (g := Geom.fourteen) (s := ⟨_, f⟩) hfmt hsame.count'
    exact hvalue.trans (congrArg some ((htouch 4).trans (if_pos rfl)))

end FerrisFS
