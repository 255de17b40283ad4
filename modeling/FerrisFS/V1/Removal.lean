import FerrisFS.V1.Slots
import Mathlib.Data.List.Chain

/-!
# Freeing a record

`free_region` on a directory block with any number of records of any sizes. The block is
read as the sequence of its chunks: freeing a record replaces its chunk and the free ones
next to it by one free chunk, and every other chunk keeps its place and its bytes.
-/

namespace FerrisFS

open Lib DirectoryHandler

namespace Block

/-- The live records of a block, each with its offset and its bytes. -/
def liveRecords (b : Block) : List (Nat × DirEntry × List UInt8) :=
  (b.records.filter fun x => !x.2.isFree).map fun x => (x.1, x.2, b.slice x.1 x.2.recordLen)

/-- The records fill the block exactly, the names of the live ones lie inside them, the free
ones have at least twelve bytes, and no free record follows another. -/
structure Parsed (b : Block) : Prop where
  complete : b.Complete
  named : ∀ x ∈ b.records, x.2.isFree = false → 9 + x.2.nameLen ≤ x.2.recordLen
  large : ∀ x ∈ b.records, x.2.isFree = true → 12 ≤ x.2.recordLen
  apart : b.records.IsChain fun x y => ¬ (x.2.isFree = true ∧ y.2.isFree = true)

/-- Every live record has the length of its name. -/
def Minimal (b : Block) : Prop := ∀ x ∈ b.records, x.2.isFree = false →
  x.2.recordLen = DirEntry.minRecordLen x.2.nameLen

/-- The records fill the block exactly, the live ones with the length of their names, the
free ones with at least twelve bytes, and no free record follows another. -/
structure Regular (b : Block) : Prop where
  complete : b.Complete
  minimal : b.Minimal
  large : ∀ x ∈ b.records, x.2.isFree = true → 12 ≤ x.2.recordLen
  apart : b.records.IsChain fun x y => ¬ (x.2.isFree = true ∧ y.2.isFree = true)

instance (b : Block) : Decidable b.Minimal := inferInstanceAs (Decidable (∀ _ ∈ _, _))

instance (b : Block) : Decidable b.Regular :=
  have : DecidableRel fun x y : Nat × DirEntry => ¬ (x.2.isFree = true ∧ y.2.isFree = true) :=
    fun _ _ => instDecidableNot
  decidable_of_iff (b.stopAt = BLOCK_SIZE ∧ b.Minimal ∧
    (∀ x ∈ b.records, x.2.isFree = true → 12 ≤ x.2.recordLen) ∧
    b.records.IsChain fun x y => ¬ (x.2.isFree = true ∧ y.2.isFree = true))
    ⟨fun h => ⟨h.1, h.2.1, h.2.2.1, h.2.2.2⟩, fun h => ⟨h.1, h.2, h.3, h.4⟩⟩

theorem regular_iff {b : Block} : b.Regular ↔ b.Parsed ∧ b.Minimal := by
  constructor
  · intro h
    refine ⟨⟨h.complete, fun x hx hlive => ?_, h.large, h.apart⟩, h.minimal⟩
    rw [h.minimal x hx hlive, Chunk.minRecordLen_eq]
    omega
  · intro h
    exact ⟨h.1.complete, h.2, h.1.large, h.1.apart⟩

theorem mem_liveRecords {b : Block} {x : Nat × DirEntry × List UInt8} : x ∈ b.liveRecords ↔
    (x.1, x.2.1) ∈ b.records ∧ x.2.1.isFree = false ∧ x.2.2 = b.slice x.1 x.2.1.recordLen := by
  obtain ⟨o, e, bytes⟩ := x
  simp only [liveRecords, List.mem_map, List.mem_filter, Prod.mk.injEq, Prod.exists]
  constructor
  · intro h
    obtain ⟨o', e', ⟨hmem, hlive⟩, rfl, rfl, rfl⟩ := h
    exact ⟨hmem, by simpa using hlive, rfl⟩
  · intro h
    obtain ⟨hmem, hlive, rfl⟩ := h
    exact ⟨o, e, ⟨hmem, by simpa using hlive⟩, rfl, rfl, rfl⟩

/-- What becomes of the block `b` when its record `e` at `off` is freed: the other live
records are where they were, and one free record covers the bytes of `e` and of the free
records next to it. -/
structure FreedAt (b b' : Block) (off : Nat) (e : DirEntry) : Prop where
  live : b'.liveRecords = b.liveRecords.filter fun x => x.1 ≠ off
  covers : ∃ start f, (start, f) ∈ b'.records ∧ f.isFree = true ∧
    start ≤ off ∧ off + e.recordLen ≤ start + f.recordLen ∧
    ∀ x ∈ b.records, x.2.isFree = true →
      (x.1 + x.2.recordLen = off ∨ x.1 = off + e.recordLen) →
      start ≤ x.1 ∧ x.1 + x.2.recordLen ≤ start + f.recordLen

/-- The live records that are left have the length of their names, if all had. -/
theorem FreedAt.minimal {b b' : Block} {off : Nat} {e : DirEntry} (h : b.FreedAt b' off e)
    (hb : b.Minimal) : b'.Minimal := by
  intro x hx hlive
  have hmem : (x.1, x.2, b'.slice x.1 x.2.recordLen) ∈ b'.liveRecords :=
    mem_liveRecords.mpr ⟨hx, hlive, rfl⟩
  rw [h.live] at hmem
  exact hb x (mem_liveRecords.mp (List.mem_of_mem_filter hmem)).1 hlive

end Block

/-! ## The chunks of a regular block -/

namespace Chunk

/-- The chunk carries the free mark. -/
def blank (c : Chunk) : Bool := c.inode == INVALID_ADDRESS

/-- A record with its name inside. -/
structure Whole (c : Chunk) : Prop where
  length : c.recordLen = List.length c
  large : 9 ≤ List.length c
  named : c.blank = false → 9 + c.nameLen ≤ List.length c

variable {c : Chunk}

theorem Whole.exact (h : c.Whole) : c.Exact := ⟨by have := h.large; omega, h.length⟩

theorem Whole.free_iff (h : c.Whole) : c.IsFree ↔ c.blank = true := by
  rw [blank, beq_iff_eq]
  exact ⟨fun hf => hf.inode_eq, h.exact.marked.free⟩

end Chunk

/-- The chunks with their places, from `off` on. -/
def placed : Nat → List Chunk → List (Nat × Chunk)
  | _, [] => []
  | off, c :: cs => (off, c) :: placed (off + List.length c) cs

section Placed

variable {cs pre post : List Chunk} {c : Chunk} {off o : Nat}

@[simp] theorem placed_length (off : Nat) (cs : List Chunk) :
    (placed off cs).length = cs.length := by
  induction cs generalizing off with
  | nil => rfl
  | cons c cs ih => simp [placed, ih]

theorem placed_append (off : Nat) (pre post : List Chunk) :
    placed off (pre ++ post) = placed off pre ++ placed (off + pre.flatten.length) post := by
  induction pre generalizing off with
  | nil => rfl
  | cons c pre ih => simp [placed, ih, Nat.add_assoc]

theorem placed_snd (off : Nat) (cs : List Chunk) : (placed off cs).map Prod.snd = cs := by
  induction cs generalizing off with
  | nil => rfl
  | cons c cs ih => simp [placed, ih]

theorem mem_of_placed (h : (o, c) ∈ placed off cs) : c ∈ cs := by
  rw [← placed_snd off cs]
  exact List.mem_map_of_mem h

/-- A chunk lies among the others. -/
theorem placed_bounds (h : (o, c) ∈ placed off cs) :
    off ≤ o ∧ o + List.length c ≤ off + cs.flatten.length := by
  induction cs generalizing off with
  | nil => cases h
  | cons k cs ih =>
      simp only [List.flatten_cons, List.length_append]
      rcases List.mem_cons.mp h with heq | h
      · cases heq
        omega
      · have := ih h
        omega

/-- A chunk at the end of the sequence is the last one. -/
theorem placed_last (hpos : ∀ k ∈ cs, 0 < List.length k) (h : (o, c) ∈ placed off cs)
    (hend : o + List.length c = off + cs.flatten.length) : cs.getLast? = some c := by
  induction cs generalizing off with
  | nil => cases h
  | cons k cs ih =>
      simp only [List.flatten_cons, List.length_append] at hend
      rcases List.mem_cons.mp h with heq | h
      · cases heq
        have hnil : cs = [] := by
          cases cs with
          | nil => rfl
          | cons q cs =>
              have := hpos q (by simp)
              simp only [List.flatten_cons, List.length_append] at hend
              omega
        rw [hnil]
        rfl
      · have hlast := ih (fun q hq => hpos q (List.mem_cons_of_mem _ hq)) h (by omega)
        rw [List.getLast?_cons, hlast]
        rfl

/-- A chunk at the start of the sequence is the first one. -/
theorem placed_head (hpos : ∀ k ∈ cs, 0 < List.length k) (h : (off, c) ∈ placed off cs) :
    cs.head? = some c := by
  cases cs with
  | nil => cases h
  | cons k cs =>
      rcases List.mem_cons.mp h with heq | h
      · cases heq
        rfl
      · have := (placed_bounds h).1
        have := hpos k List.mem_cons_self
        omega

/-- What the walk reads at a chunk. -/
theorem Block.read_placed {b : Block} (hb : b.bytes = (pre ++ cs).flatten)
    (h : (o, c) ∈ placed pre.flatten.length cs) :
    ∃ bef aft, b.bytes = bef ++ (c ++ aft) ∧ o = bef.length := by
  induction cs generalizing pre with
  | nil => cases h
  | cons k cs ih =>
      rcases List.mem_cons.mp h with heq | h
      · cases heq
        exact ⟨pre.flatten, cs.flatten, by simpa using hb, rfl⟩
      · refine @ih (pre ++ [k]) (by simpa using hb) ?_
        simpa using h

end Placed

namespace Block

variable {b : Block} {cs : List Chunk}

/-- The walk over whole chunks reads all of them. -/
theorem walk_placed : ∀ {cs pre : List Chunk} {fuel : Nat}, b.bytes = (pre ++ cs).flatten →
    (∀ c ∈ cs, c.Whole) → BLOCK_SIZE ≤ pre.flatten.length + fuel →
    b.recordsFrom fuel pre.flatten.length =
      (placed pre.flatten.length cs).map (fun x => (x.1, DirEntry.ofBytes b x.1)) ∧
    b.stopFrom fuel pre.flatten.length = BLOCK_SIZE := by
  intro cs
  induction cs with
  | nil =>
      intro pre fuel hb _ _
      have hend : pre.flatten.length = BLOCK_SIZE := by
        rw [← b.size, hb, List.append_nil]
      have hns : ¬ b.Sound pre.flatten.length := fun hs => by
        have := hs.1
        omega
      rw [hend] at hns ⊢
      cases fuel <;> simp [recordsFrom, stopFrom, placed, hns]
  | cons c cs ih =>
      intro pre fuel hb hall hfuel
      have hc := hall c List.mem_cons_self
      have hb' : b.bytes = pre.flatten ++ (c ++ cs.flatten) := by simpa using hb
      have hrec := (Chunk.ofBytes_recordLen hb' hc.exact.large).trans hc.length
      have hle := chunk_le hb'
      have hlarge := hc.large
      have hs : b.Sound pre.flatten.length := ⟨by omega, by omega, by omega⟩
      cases fuel with
      | zero => omega
      | succ fuel =>
          have hlen : (pre ++ [c]).flatten.length = pre.flatten.length + List.length c := by simp
          obtain ⟨h1, h2⟩ := @ih (pre ++ [c]) fuel (by simpa using hb)
            (fun k hk => hall k (List.mem_cons_of_mem _ hk)) (by rw [hlen]; omega)
          rw [hlen] at h1 h2
          simp only [recordsFrom, stopFrom, hs, if_true, hrec, h1, h2, placed, List.map_cons,
            and_self]

theorem records_placed (hb : b.bytes = cs.flatten) (hall : ∀ c ∈ cs, c.Whole) :
    b.records = (placed 0 cs).map fun x => (x.1, DirEntry.ofBytes b x.1) :=
  (@walk_placed b cs [] BLOCK_SIZE hb hall (Nat.le_add_left _ _)).1

/-- The record that the walk reads at a whole chunk. -/
theorem ofBytes_placed (hb : b.bytes = cs.flatten) (hall : ∀ c ∈ cs, c.Whole) {o : Nat}
    {c : Chunk} (h : (o, c) ∈ placed 0 cs) :
    (DirEntry.ofBytes b o).isFree = c.blank ∧
      (DirEntry.ofBytes b o).recordLen = List.length c ∧ b.slice o (List.length c) = c ∧
      (c.blank = false → DirEntry.ofBytes b o = c.entry) := by
  have hc := hall c (mem_of_placed h)
  obtain ⟨bef, aft, hb', rfl⟩ := read_placed (show b.bytes = ([] ++ cs).flatten from hb) h
  refine ⟨?_, (Chunk.ofBytes_recordLen hb' hc.exact.large).trans hc.length, ?_, fun hlive => ?_⟩
  · rw [DirEntry.isFree, Chunk.ofBytes_inode hb' hc.exact.large, Chunk.blank]
  · rw [slice, hb']
    exact slice_append_mid rfl rfl
  · exact Chunk.ofBytes_eq (hc.named hlive) hb'

theorem liveRecords_placed (hb : b.bytes = cs.flatten) (hall : ∀ c ∈ cs, c.Whole) :
    b.liveRecords =
      ((placed 0 cs).filter fun x => !x.2.blank).map fun x => (x.1, x.2.entry, x.2) := by
  rw [liveRecords, records_placed hb hall, List.filter_map, List.map_map]
  have hfilter : (placed 0 cs).filter
      ((fun x => !x.2.isFree) ∘ fun x => (x.1, DirEntry.ofBytes b x.1)) =
      (placed 0 cs).filter fun x => !x.2.blank := by
    refine List.filter_congr fun x hx => ?_
    simp only [Function.comp_apply, (ofBytes_placed hb hall hx).1]
  rw [hfilter]
  refine List.map_congr_left fun x hx => ?_
  obtain ⟨hx, hlive⟩ := List.mem_filter.mp hx
  obtain ⟨-, hlen, hslice, hentry⟩ := ofBytes_placed hb hall hx
  simp only [Function.comp_apply]
  rw [hlen, hslice, hentry (by simpa using hlive)]

/-- The chunk that the walk reads a record from. -/
theorem chunk_of_record (hb : b.bytes = cs.flatten) (hall : ∀ c ∈ cs, c.Whole)
    {x : Nat × DirEntry} (hx : x ∈ b.records) :
    ∃ c ∈ cs, x.2.isFree = c.blank ∧ x.2.recordLen = List.length c ∧
      (c.blank = false → x.2.nameLen = c.nameLen) := by
  rw [records_placed hb hall] at hx
  obtain ⟨⟨o, c⟩, hc, rfl⟩ := List.mem_map.mp hx
  obtain ⟨hfree, hlen, -, hentry⟩ := ofBytes_placed hb hall hc
  refine ⟨c, mem_of_placed hc, hfree, hlen, fun hlive => ?_⟩
  exact congrArg DirEntry.nameLen (hentry hlive)

/-- A sequence of whole chunks parses when no two free ones stand in a row. -/
theorem parsed_of_chunks (hb : b.bytes = cs.flatten) (hall : ∀ c ∈ cs, c.Whole)
    (hlarge : ∀ c ∈ cs, c.blank = true → 12 ≤ List.length c)
    (hapart : cs.IsChain fun x y => ¬ (x.blank = true ∧ y.blank = true)) : b.Parsed := by
  refine ⟨(@walk_placed b cs [] BLOCK_SIZE hb hall (Nat.le_add_left _ _)).2, ?_, ?_, ?_⟩
  · intro x hx hlive
    obtain ⟨c, hc, hfree, hlen, hname⟩ := chunk_of_record hb hall hx
    rw [hfree] at hlive
    rw [hlen, hname hlive]
    exact (hall c hc).named hlive
  · intro x hx hblank
    obtain ⟨c, hc, hfree, hlen, -⟩ := chunk_of_record hb hall hx
    rw [hfree] at hblank
    rw [hlen]
    exact hlarge c hc hblank
  · rw [← placed_snd 0 cs, List.isChain_map] at hapart
    rw [records_placed hb hall, List.isChain_map]
    refine List.IsChain.imp_of_mem_imp ?_ hapart
    intro x y hx hy hxy
    rwa [(ofBytes_placed hb hall hx).1, (ofBytes_placed hb hall hy).1]

/-- The bytes of a record. -/
def chunkOf (b : Block) (x : Nat × DirEntry) : Chunk := b.slice x.1 x.2.recordLen

/-- The bytes of a record, read at its place. -/
theorem Parsed.whole (h : b.Parsed) {x : Nat × DirEntry} (hx : x ∈ b.records) :
    (b.chunkOf x).Whole ∧ (b.chunkOf x).blank = x.2.isFree ∧
      List.length (b.chunkOf x) = x.2.recordLen := by
  obtain ⟨hs, heq, -⟩ := recordsFrom_sound hx
  have hlarge : 9 ≤ x.2.recordLen := by
    cases hfree : x.2.isFree with
    | true =>
        have := h.large x hx hfree
        omega
    | false =>
        have := h.named x hx hfree
        omega
  have hend : x.1 + x.2.recordLen ≤ BLOCK_SIZE := by
    rw [heq]
    exact hs.2.2
  generalize hc : b.chunkOf x = c
  have hlen : List.length c = x.2.recordLen := by
    rw [← hc, chunkOf, slice, Lib.slice, List.length_take, List.length_drop, b.size]
    omega
  have hpre : (b.bytes.take x.1).length = x.1 := by
    rw [List.length_take, b.size]
    omega
  have hb : b.bytes = b.bytes.take x.1 ++ (c ++ b.bytes.drop (x.1 + x.2.recordLen)) := by
    rw [← hc, chunkOf, slice, Lib.slice, ← List.drop_drop, List.take_append_drop,
      List.take_append_drop]
  have hino := Chunk.ofBytes_inode hb (by omega)
  have hrec := Chunk.ofBytes_recordLen hb (by omega)
  rw [hpre, ← heq] at hino hrec
  have hblank : c.blank = x.2.isFree := by
    rw [Chunk.blank, DirEntry.isFree, hino]
  refine ⟨⟨by rw [hlen, hrec], by omega, fun hlive => ?_⟩, hblank, hlen⟩
  rw [hblank] at hlive
  have hname : x.2.nameLen = c.nameLen := by
    rw [heq, Chunk.nameLen, ← slice_chunk hb (by omega), hpre]
    rfl
  rw [hlen, ← hname]
  exact h.named x hx hlive

/-- A block that parses is the sequence of its records. -/
theorem Parsed.chunks (h : b.Parsed) : b.bytes = (b.records.map b.chunkOf).flatten ∧
    (∀ c ∈ b.records.map b.chunkOf, c.Whole ∧ (c.blank = true → 12 ≤ List.length c)) ∧
    (b.records.map b.chunkOf).IsChain fun x y => ¬ (x.blank = true ∧ y.blank = true) := by
  refine ⟨?_, ?_, ?_⟩
  · have hcut : ∀ {fuel off : Nat}, b.stopFrom fuel off = BLOCK_SIZE → b.bytes.drop off =
        ((b.recordsFrom fuel off).map b.chunkOf).flatten := by
      intro fuel
      induction fuel with
      | zero =>
          intro off hstop
          simp only [stopFrom] at hstop
          rw [hstop, List.drop_eq_nil_of_le (Nat.le_of_eq b.size)]
          rfl
      | succ fuel ih =>
          intro off hstop
          by_cases hs : b.Sound off
          · simp only [stopFrom, recordsFrom, hs, if_true] at hstop ⊢
            rw [List.map_cons, List.flatten_cons, ← ih hstop, chunkOf, slice, Lib.slice,
              ← List.drop_drop, List.take_append_drop]
          · simp only [stopFrom, recordsFrom, hs, if_false] at hstop ⊢
            rw [hstop, List.drop_eq_nil_of_le (Nat.le_of_eq b.size)]
            rfl
    exact hcut h.complete
  · intro c hc
    obtain ⟨x, hx, rfl⟩ := List.mem_map.mp hc
    obtain ⟨hwhole, hblank, hlen⟩ := h.whole hx
    rw [hblank, hlen]
    exact ⟨hwhole, h.large x hx⟩
  · rw [List.isChain_map]
    refine List.IsChain.imp_of_mem_imp ?_ h.apart
    intro x y hx hy hxy
    rwa [(h.whole hx).2.1, (h.whole hy).2.1]

/-- The chunks around a record. -/
theorem Parsed.chunk_at (h : b.Parsed) {off : Nat} {e : DirEntry}
    (hmem : (off, e) ∈ b.records) : ∃ (pre : List Chunk) (c : Chunk) (post : List Chunk),
      b.bytes = (pre ++ c :: post).flatten ∧ (∀ k ∈ pre ++ c :: post, k.Whole) ∧
      (∀ k ∈ pre ++ c :: post, k.blank = true → 12 ≤ List.length k) ∧
      ((pre ++ c :: post).IsChain fun x y => ¬ (x.blank = true ∧ y.blank = true)) ∧
      off = pre.flatten.length ∧ e.recordLen = List.length c ∧ e.isFree = c.blank := by
  obtain ⟨hb, hchunks, hapart⟩ := h.chunks
  generalize b.records.map b.chunkOf = cs at hb hchunks hapart
  have hall : ∀ c ∈ cs, c.Whole := fun c hc => (hchunks c hc).1
  rw [records_placed hb hall] at hmem
  obtain ⟨⟨o, c⟩, hc, heq⟩ := List.mem_map.mp hmem
  obtain ⟨hfree, hlen, -, -⟩ := ofBytes_placed hb hall hc
  cases heq
  obtain ⟨pre, c', post, rfl, hoff⟩ : ∃ (pre : List Chunk) (c' : Chunk) (post : List Chunk),
      cs = pre ++ c' :: post ∧ (o, c) = (pre.flatten.length, c') := by
    obtain ⟨l₁, l₂, hsplit⟩ := List.append_of_mem hc
    have hcs := congrArg (List.map Prod.snd) hsplit
    rw [placed_snd, List.map_append, List.map_cons] at hcs
    refine ⟨_, _, _, hcs, ?_⟩
    rw [hcs, placed_append, Nat.zero_add] at hsplit
    have hinj := (List.append_inj hsplit (by simp)).2
    exact (List.cons.inj hinj).1.symm
  cases hoff
  exact ⟨pre, c, post, hb, hall, fun k hk => (hchunks k hk).2, hapart, rfl, hlen, hfree⟩

end Block

/-! ## Merging -/

section Merging

variable {b b' : Block} {pre post pre' left right post' : List Chunk} {c : Chunk}

theorem filter_placed_blank {cs : List Chunk} {off : Nat} (h : ∀ k ∈ cs, k.blank = true) :
    (placed off cs).filter (fun x => !x.2.blank) = [] := by
  rw [List.filter_eq_nil_iff]
  intro x hx
  simp [h x.2 (mem_of_placed hx)]

/-- The chunk before the merged region is live. -/
theorem Merge.left_live (hm : Merge pre c post pre' left right post')
    (hall : ∀ k ∈ pre, k.Whole)
    (hapart : pre.IsChain fun x y => ¬ (x.blank = true ∧ y.blank = true)) {k : Chunk}
    (hk : pre'.getLast? = some k) : k.blank = false := by
  rw [← Bool.not_eq_true]
  intro hblank
  cases hl : left with
  | nil =>
      have hpre := hm.pre_eq
      rw [hl, List.append_nil] at hpre
      rw [← hpre] at hk
      exact hm.left_max hl k hk ((hall k (List.mem_of_getLast? hk)).free_iff.mpr hblank)
  | cons p rest =>
      have hp := hm.left_free p (by simp [hl])
      have hpre := hm.pre_eq
      rw [hpre, List.isChain_append] at hapart
      exact hapart.2.2 k hk p (by simp [hl]) ⟨hblank,
        (hall p (by simp [hpre, hl])).free_iff.mp hp⟩

/-- So is the one behind it. -/
theorem Merge.right_live (hm : Merge pre c post pre' left right post')
    (hall : ∀ k ∈ post, k.Whole)
    (hapart : post.IsChain fun x y => ¬ (x.blank = true ∧ y.blank = true)) {k : Chunk}
    (hk : post'.head? = some k) : k.blank = false := by
  rw [← Bool.not_eq_true]
  intro hblank
  have hpost := hm.post_eq
  rcases List.eq_nil_or_concat right with hr | ⟨init, q, hr⟩
  · rw [hr, List.nil_append] at hpost
    rw [← hpost] at hk
    exact hm.right_max hr k hk ((hall k (List.mem_of_head? hk)).free_iff.mpr hblank)
  · rw [List.concat_eq_append] at hr
    have hq := hm.right_free q (by simp [hr])
    rw [hpost, List.isChain_append] at hapart
    exact hapart.2.2 q (by simp [hr]) k hk ⟨(hall q (by simp [hpost, hr])).free_iff.mp hq, hblank⟩

/-- The places of the chunks around a merged region. -/
theorem Merge.placed_eq (hm : Merge pre c post pre' left right post') :
    placed 0 (pre ++ c :: post) = placed 0 pre' ++ (placed pre'.flatten.length left ++
      (pre.flatten.length, c) :: (placed (pre.flatten.length + List.length c) right ++
        placed (pre'.flatten.length + mergedLen left c right) post')) := by
  have hlen : pre.flatten.length = pre'.flatten.length + left.flatten.length := by
    rw [hm.pre_eq, List.flatten_append, List.length_append]
  have hend : pre'.flatten.length + mergedLen left c right =
      pre.flatten.length + List.length c + right.flatten.length := by
    rw [mergedLen, hlen]
    omega
  rw [placed_append, placed, Nat.zero_add, hend, hm.post_eq, placed_append]
  nth_rewrite 1 [hm.pre_eq]
  rw [placed_append, Nat.zero_add, List.append_assoc]

/-- A free chunk next to the removed one belongs to the merged region. -/
theorem Merge.covers (hm : Merge pre c post pre' left right post')
    (hpos : ∀ k ∈ pre ++ c :: post, 0 < List.length k) (hc : ¬ c.IsFree) {o : Nat} {k : Chunk}
    (hk : (o, k) ∈ placed 0 (pre ++ c :: post)) (hfree : k.IsFree)
    (hadj : o + List.length k = pre.flatten.length ∨ o = pre.flatten.length + List.length c) :
    pre'.flatten.length ≤ o ∧
      o + List.length k ≤ pre'.flatten.length + mergedLen left c right := by
  have hpre := hm.pre_eq
  have hpost := hm.post_eq
  have hlen : pre.flatten.length = pre'.flatten.length + left.flatten.length := by
    rw [hpre, List.flatten_append, List.length_append]
  have hcpos := hpos c (by simp)
  have hempty : ∀ cs : List Chunk, (∀ q ∈ cs, 0 < List.length q) → cs.flatten.length = 0 →
      cs = [] := by
    intro cs hcs hzero
    cases cs with
    | nil => rfl
    | cons q cs =>
        have := hcs q List.mem_cons_self
        simp only [List.flatten_cons, List.length_append] at hzero
        omega
  rw [hm.placed_eq] at hk
  rw [mergedLen]
  simp only [List.mem_append, List.mem_cons] at hk
  rcases hk with hk | hk | heq | hk | hk
  · -- before the region: it would be the last chunk there, which is live
    have hbound := placed_bounds hk
    have hkpos := hpos k (by simp [hpre, mem_of_placed hk])
    have hnil : left = [] := hempty left (fun q hq => hpos q (by simp [hpre, hq])) (by omega)
    rw [hnil, List.append_nil] at hpre
    rw [← hpre] at hk
    have hlast := placed_last (fun q hq => hpos q (List.mem_append_left _ hq)) hk (by omega)
    exact absurd hfree (hm.left_max hnil k hlast)
  · have hbound := placed_bounds hk
    omega
  · cases heq
    exact absurd hfree hc
  · have hbound := placed_bounds hk
    omega
  · -- behind it: the same with the first chunk
    have hbound := placed_bounds hk
    rw [mergedLen] at hbound hk
    have hkpos := hpos k (by simp [hpost, mem_of_placed hk])
    have hnil : right = [] := hempty right (fun q hq => hpos q (by simp [hpost, hq])) (by omega)
    rw [hnil, List.nil_append] at hpost
    rw [← hpost] at hk
    have ho : o = pre'.flatten.length +
        (left.flatten.length + List.length c + right.flatten.length) := by omega
    rw [← ho] at hk
    have hhead := placed_head (fun q hq => hpos q (by simp [hq])) hk
    exact absurd hfree (hm.right_max hnil k hhead)

/-- The live chunks behind and before a merged region stay where they are. -/
theorem Merge.filter_live {F : Chunk} (hm : Merge pre c post pre' left right post')
    (hpos : ∀ k ∈ pre ++ c :: post, 0 < List.length k)
    (hleft : ∀ k ∈ left, k.blank = true) (hright : ∀ k ∈ right, k.blank = true)
    (hlive : c.blank = false) (hF : F.blank = true)
    (hlen : List.length F = mergedLen left c right) :
    (placed 0 (pre' ++ F :: post')).filter (fun x => !x.2.blank) =
      ((placed 0 (pre ++ c :: post)).filter fun x => !x.2.blank).filter
        fun x => x.1 ≠ pre.flatten.length := by
  have hprelen : pre.flatten.length = pre'.flatten.length + left.flatten.length := by
    rw [hm.pre_eq, List.flatten_append, List.length_append]
  have hcpos := hpos c (by simp)
  -- no other live chunk starts where the removed one did
  have hbefore : ((placed 0 pre').filter fun x => !x.2.blank).filter
      (fun x => x.1 ≠ pre.flatten.length) = (placed 0 pre').filter fun x => !x.2.blank := by
    rw [List.filter_eq_self]
    intro x hx
    have hmem := List.mem_of_mem_filter hx
    have hbound := placed_bounds hmem
    have hxpos := hpos x.2 (by simp [hm.pre_eq, mem_of_placed hmem])
    simp only [ne_eq, decide_eq_true_eq]
    omega
  have hbehind : ((placed (pre'.flatten.length + mergedLen left c right) post').filter
      fun x => !x.2.blank).filter (fun x => x.1 ≠ pre.flatten.length) =
      (placed (pre'.flatten.length + mergedLen left c right) post').filter
        fun x => !x.2.blank := by
    rw [List.filter_eq_self]
    intro x hx
    have hbound := placed_bounds (List.mem_of_mem_filter hx)
    rw [mergedLen] at hbound
    simp only [ne_eq, decide_eq_true_eq]
    omega
  rw [hm.placed_eq, placed_append, placed, hlen, Nat.zero_add]
  simp only [List.filter_append, List.filter_cons, hF, hlive, filter_placed_blank hleft,
    filter_placed_blank hright, Bool.not_true, Bool.not_false, Bool.false_eq_true, if_false,
    if_true, List.nil_append, hbefore, hbehind, ne_eq, not_true_eq_false, decide_false]

/-- The free chunk that replaces the merged region. -/
theorem Merge.free_chunk (hm : Merge pre c post pre' left right post')
    (hb : b.bytes = (pre ++ c :: post).flatten) (hlarge : 9 ≤ List.length c) :
    Chunk.Whole (DirEntry.free (mergedLen left c right)).bytes ∧
      Chunk.blank (DirEntry.free (mergedLen left c right)).bytes = true ∧
      List.length (DirEntry.free (mergedLen left c right)).bytes = mergedLen left c right := by
  have hmin : DirEntry.minFreeSize ≤ mergedLen left c right := by
    rw [mergedLen, Chunk.minFreeSize_eq]
    omega
  have hbound : mergedLen left c right ≤ BLOCK_SIZE := by
    have hlen := congrArg List.length hb
    rw [b.size] at hlen
    simp only [hm.pre_eq, hm.post_eq, List.flatten_append, List.flatten_cons,
      List.length_append] at hlen
    rw [mergedLen]
    omega
  have hflen := DirEntry.free_bytes_length hmin
  have hfree := DirEntry.free_isFree hmin (by rw [BLOCK_SIZE] at hbound; omega)
  generalize (DirEntry.free (mergedLen left c right)).bytes = F at hflen hfree
  have hblank : Chunk.blank F = true := beq_iff_eq.mpr hfree.inode_eq
  refine ⟨⟨hfree.length, ?_, fun h => absurd (hblank.symm.trans h) (by decide)⟩, hblank, hflen⟩
  rw [hflen, mergedLen]
  omega

/-- What holds of the chunks before a merge and of the merged one holds of those after. -/
theorem Merge.forall_chunks {F : Chunk} {P : Chunk → Prop}
    (hm : Merge pre c post pre' left right post') (hall : ∀ k ∈ pre ++ c :: post, P k)
    (hF : P F) : ∀ k ∈ pre' ++ F :: post', P k := by
  intro k hk
  rcases List.mem_append.mp hk with hk | hk
  · exact hall k (by simp [hm.pre_eq, hk])
  · rcases List.mem_cons.mp hk with rfl | hk
    · exact hF
    · exact hall k (by simp [hm.post_eq, hk])

/-- After a merge no two free chunks stand in a row. -/
theorem Merge.apart {F : Chunk} (hm : Merge pre c post pre' left right post')
    (hall : ∀ k ∈ pre ++ c :: post, k.Whole)
    (hapart : (pre ++ c :: post).IsChain fun x y => ¬ (x.blank = true ∧ y.blank = true)) :
    (pre' ++ F :: post').IsChain fun x y => ¬ (x.blank = true ∧ y.blank = true) := by
  have hallpre : ∀ k ∈ pre, k.Whole := fun k hk => hall k (List.mem_append_left _ hk)
  have hallpost : ∀ k ∈ post, k.Whole := fun k hk => hall k (by simp [hk])
  rw [List.isChain_append, List.isChain_cons] at hapart ⊢
  obtain ⟨hchainpre, ⟨-, hchainpost⟩, -⟩ := hapart
  refine ⟨?_, ⟨?_, ?_⟩, ?_⟩
  · rw [hm.pre_eq] at hchainpre
    exact hchainpre.left_of_append
  · intro k hk hboth
    exact Bool.false_ne_true ((hm.right_live hallpost hchainpost hk).symm.trans hboth.2)
  · rw [hm.post_eq] at hchainpost
    exact hchainpost.right_of_append
  · intro k hk _ _ hboth
    exact Bool.false_ne_true ((hm.left_live hallpre hchainpre hk).symm.trans hboth.1)

/-- Replacing a record and its free neighbours by one free record. -/
theorem Merge.freedAt (hm : Merge pre c post pre' left right post')
    (hb : b.bytes = (pre ++ c :: post).flatten) (hall : ∀ k ∈ pre ++ c :: post, k.Whole)
    (hlive : c.blank = false)
    (hb' : b'.bytes = (pre' ++ (DirEntry.free (mergedLen left c right)).bytes :: post').flatten)
    {e : DirEntry} (he : e.recordLen = List.length c) :
    b.FreedAt b' pre.flatten.length e := by
  have hlarge := (hall c (by simp)).large
  have hpos : ∀ k ∈ pre ++ c :: post, 0 < List.length k := fun k hk => by
    have := (hall k hk).large
    omega
  have hprelen : pre.flatten.length = pre'.flatten.length + left.flatten.length := by
    rw [hm.pre_eq, List.flatten_append, List.length_append]
  obtain ⟨hwhole, hblank, hflen⟩ := hm.free_chunk hb hlarge
  generalize (DirEntry.free (mergedLen left c right)).bytes = F at hb' hwhole hblank hflen
  have hall' : ∀ k ∈ pre' ++ F :: post', Chunk.Whole k := hm.forall_chunks hall hwhole
  have hplaced : (pre'.flatten.length, F) ∈ placed 0 (pre' ++ F :: post') := by
    simp [placed_append, placed]
  obtain ⟨hfree', hlen', -, -⟩ := Block.ofBytes_placed hb' hall' hplaced
  refine ⟨?_, pre'.flatten.length, DirEntry.ofBytes b' pre'.flatten.length, ?_,
    hfree'.trans hblank, ?_, ?_, ?_⟩
  · rw [Block.liveRecords_placed hb' hall', Block.liveRecords_placed hb hall,
      hm.filter_live hpos
        (fun k hk => (hall k (by simp [hm.pre_eq, hk])).free_iff.mp (hm.left_free k hk))
        (fun k hk => (hall k (by simp [hm.post_eq, hk])).free_iff.mp (hm.right_free k hk))
        hlive hblank hflen, List.filter_map]
    rfl
  · rw [Block.records_placed hb' hall']
    exact List.mem_map.mpr ⟨_, hplaced, rfl⟩
  · omega
  · rw [hlen', hflen, mergedLen]
    omega
  · intro x hx hxfree hadj
    rw [Block.records_placed hb hall] at hx
    obtain ⟨⟨o, k⟩, hk, rfl⟩ := List.mem_map.mp hx
    obtain ⟨hkfree, hklen, -, -⟩ := Block.ofBytes_placed hb hall hk
    rw [hkfree] at hxfree
    simp only [hklen, he] at hadj ⊢
    rw [hlen', hflen]
    refine hm.covers hpos (fun h => ?_) hk ?_ hadj
    · exact absurd (((hall c (by simp)).free_iff.mp h).symm.trans hlive) (by decide)
    · exact (hall k (mem_of_placed hk)).free_iff.mpr hxfree

/-- The block after a merge parses, when the merged region is not too small. -/
theorem Merge.parsed (hm : Merge pre c post pre' left right post')
    (hb : b.bytes = (pre ++ c :: post).flatten) (hall : ∀ k ∈ pre ++ c :: post, k.Whole)
    (hfree : ∀ k ∈ pre ++ c :: post, k.blank = true → 12 ≤ List.length k)
    (hapart : (pre ++ c :: post).IsChain fun x y => ¬ (x.blank = true ∧ y.blank = true))
    (hb' : b'.bytes = (pre' ++ (DirEntry.free (mergedLen left c right)).bytes :: post').flatten)
    (hlarge : 12 ≤ List.length c) : b'.Parsed := by
  obtain ⟨hwhole, -, hflen⟩ := hm.free_chunk hb (by omega)
  refine Block.parsed_of_chunks hb' (hm.forall_chunks hall hwhole)
    (hm.forall_chunks hfree fun _ => ?_) (hm.apart hall hapart)
  rw [hflen, mergedLen]
  omega

end Merging

/-! ## `free_region` -/

/-- The search for the previous record refuses an offset inside the chunk `c`. -/
theorem DirectoryHandler.findPrev_inside {σ : Type} {b : Block} {pre post : List Chunk}
    {c : Chunk} {blk off : Nat} {s : σ} (hb : b.bytes = (pre ++ c :: post).flatten)
    (hpre : ∀ k ∈ pre, k.Exact) (hc : c.Exact) (hhead : 9 ≤ List.length c)
    (hlo : pre.flatten.length < off) (hhi : off < pre.flatten.length + List.length c) :
    ∀ (todo before : List Chunk) (fuel : Nat), pre = before ++ todo → todo.length < fuel →
      findPrev b blk off fuel before.flatten.length s =
        .err (.invalidInput (.offsetNotAtDirEntryStart blk off)) s := by
  have htotal : pre.flatten.length + List.length c ≤ BLOCK_SIZE :=
    Block.chunk_le (by simpa using hb)
  simp only [BLOCK_SIZE] at htotal
  intro todo
  induction todo with
  | nil =>
      intro before fuel hsplit hfuel
      obtain ⟨fuel, rfl⟩ := Nat.exists_eq_succ_of_ne_zero (Nat.ne_of_gt hfuel)
      rw [List.append_nil] at hsplit
      subst hsplit
      have hrec := (Chunk.ofBytes_recordLen (by simpa using hb) hc.large).trans hc.length
      have hparse : (DirEntry.deserialize b pre.flatten.length : Prog FSError σ DirEntry) s =
          .ok (DirEntry.ofBytes b pre.flatten.length) s :=
        congrFun (if_pos (by simp only [BLOCK_SIZE]; omega)) s
      refine (congrFun (if_pos hlo) s).trans ((Prog.bind_of_ok hparse _).trans ?_)
      rw [hrec, Prog.bind_of_ok (Prog.checkedAdd_of_lt (by simp only [U16]; omega))]
      exact congrFun (if_pos hhi) s
  | cons p todo ih =>
      intro before fuel hsplit hfuel
      obtain ⟨fuel, rfl⟩ := Nat.exists_eq_succ_of_ne_zero (Nat.ne_of_gt (Nat.zero_lt_of_lt hfuel))
      obtain ⟨hplarge, hplen⟩ := hpre p (by rw [hsplit]; simp)
      have hb' : b.bytes = before.flatten ++ (p ++ (todo ++ c :: post).flatten) := by
        rw [hb, hsplit]
        simp
      have hlens : pre.flatten.length =
          before.flatten.length + List.length p + todo.flatten.length := by
        rw [hsplit]
        simp only [List.flatten_append, List.flatten_cons, List.length_append]
        omega
      have hrec := (Chunk.ofBytes_recordLen hb' hplarge).trans hplen
      have hparse : (DirEntry.deserialize b before.flatten.length : Prog FSError σ DirEntry) s =
          .ok (DirEntry.ofBytes b before.flatten.length) s :=
        congrFun (if_pos (by simp only [BLOCK_SIZE]; omega)) s
      refine (congrFun (if_pos (by omega)) s).trans ((Prog.bind_of_ok hparse _).trans ?_)
      rw [hrec, Prog.bind_of_ok (Prog.checkedAdd_of_lt (by simp only [U16]; omega))]
      -- the record ends before `off`, so the search goes on
      refine (congrFun (if_neg (by omega)) s).trans ?_
      refine (congrFun (if_neg (by omega)) s).trans ?_
      have hrest := ih (before ++ [p]) fuel (by rw [hsplit]; simp) (by
        simp only [List.length_cons] at hfuel
        omega)
      have hlen : (before ++ [p]).flatten.length = before.flatten.length + List.length p := by
        simp
      rw [hlen] at hrest
      exact hrest

/-- `free_region` at the start of a live record. -/
theorem freeRegion_parsed {h : DirectoryHandler} {d : MemoryDevice} {blk off : Nat} {e : DirEntry}
    (hblk : h.dataStart + blk < d.blockCount) (hp : (d.block (h.dataStart + blk)).Parsed)
    (hmem : (off, e) ∈ (d.block (h.dataStart + blk)).records) (hfree : e.isFree = false) :
    ∃ b', h.freeRegion blk off d = .ok e.recordLen (d.setBlock (h.dataStart + blk) b') ∧
      (d.block (h.dataStart + blk)).FreedAt b' off e ∧ (12 ≤ e.recordLen → b'.Parsed) := by
  have haddr : h.dataStart + blk < U32 :=
    Nat.lt_of_lt_of_le hblk (Nat.le_of_lt (Nat.mod_lt _ (by decide)))
  obtain ⟨pre, c, post, hb, hall, hsize, hapart, rfl, hlen, hblank⟩ := hp.chunk_at hmem
  obtain ⟨pre', left, right, post', hm⟩ := exists_merge pre c post
  have hc := hall c (by simp)
  have hlarge := hc.large
  have hnext : post = [] ∨ pre.flatten.length + List.length c + 9 ≤ BLOCK_SIZE := by
    cases post with
    | nil => exact .inl rfl
    | cons q post =>
        have hq := (hall q (by simp)).large
        have htotal := congrArg List.length hb
        rw [Block.size] at htotal
        simp only [List.flatten_append, List.flatten_cons, List.length_append] at htotal
        exact .inr (by omega)
  -- the device itself is the abstract state of the run
  have hwrite : ∀ buf, Prog.Runs (fun s t => s = t) (writeBlock (h.dataStart + blk) buf) d ()
      (d.setBlock (h.dataStart + blk) buf) := by
    intro buf s hs
    rw [hs]
    exact ⟨_, writeBlock_of_lt hblk, rfl⟩
  have hread : Prog.Runs (fun s t => s = t) (readBlock (h.dataStart + blk)) d
      (d.block (h.dataStart + blk)) d := by
    intro s hs
    rw [hs]
    exact ⟨_, readBlock_of_lt hblk, rfl⟩
  obtain ⟨d', hok, rfl⟩ := runs_freeRegion haddr hread hwrite hb
    (fun k hk => (hall k (List.mem_append_left _ hk)).exact) hc.exact (by omega)
    (fun k hk => (hall k (by simp [hk])).exact.marked) hnext hm d rfl
  rw [← hlen] at hok
  have hb' := Block.merged_chunks hb hm (by rw [Chunk.minFreeSize_eq]; omega)
  refine ⟨_, hok, hm.freedAt hb hall (hblank.symm.trans hfree) hb' hlen, fun h12 => ?_⟩
  exact hm.parsed hb hall hsize hapart hb' (by rw [← hlen]; exact h12)

/-- `free_region` inside a record refuses and writes nothing. -/
theorem freeRegion_inside {h : DirectoryHandler} {d : MemoryDevice} {blk start off : Nat}
    {e : DirEntry} (hblk : h.dataStart + blk < d.blockCount)
    (hp : (d.block (h.dataStart + blk)).Parsed)
    (hmem : (start, e) ∈ (d.block (h.dataStart + blk)).records) (hlo : start < off)
    (hhi : off < start + e.recordLen) :
    h.freeRegion blk off d = .err (.invalidInput (.offsetNotAtDirEntryStart blk off)) d := by
  have haddr : h.dataStart + blk < U32 :=
    Nat.lt_of_lt_of_le hblk (Nat.le_of_lt (Nat.mod_lt _ (by decide)))
  obtain ⟨pre, c, post, hb, hall, -, -, rfl, hlen, -⟩ := hp.chunk_at hmem
  have hc := hall c (by simp)
  have hlarge := hc.large
  have hfuel : pre.length < BLOCK_SIZE + 1 := by
    have hcount := length_le_flatten fun k hk =>
      (hall k (List.mem_append_left _ hk)).exact.large
    have htotal := congrArg List.length hb
    rw [Block.size, List.flatten_append, List.length_append] at htotal
    omega
  have hprev : findPrev (d.block (h.dataStart + blk)) blk off (BLOCK_SIZE + 1) 0 d =
      .err (.invalidInput (.offsetNotAtDirEntryStart blk off)) d := findPrev_inside hb
    (fun k hk => (hall k (List.mem_append_left _ hk)).exact) hc.exact (by omega) hlo
    (by rw [← hlen]; exact hhi) pre [] (BLOCK_SIZE + 1) rfl hfuel
  refine (Prog.bind_of_ok (Prog.checkedAdd_of_lt haddr) _).trans ?_
  refine (Prog.bind_of_ok (readBlock_of_lt hblk) _).trans ?_
  exact Prog.bind_of_err hprev _

/-- `free_region` on a regular block: at the start of a live record it frees that record and
merges it with its free neighbours, and the block stays regular; inside a record it refuses
and writes nothing. -/
theorem free_region_spec {h : DirectoryHandler} {d : MemoryDevice} {blk : Nat}
    (hblk : h.dataStart + blk < d.blockCount)
    (hreg : (d.block (h.dataStart + blk)).Regular) :
    (∀ off e, (off, e) ∈ (d.block (h.dataStart + blk)).records → e.isFree = false →
      ∃ b', h.freeRegion blk off d = .ok e.recordLen (d.setBlock (h.dataStart + blk) b') ∧
        b'.Regular ∧ (d.block (h.dataStart + blk)).FreedAt b' off e) ∧
    (∀ start e off, (start, e) ∈ (d.block (h.dataStart + blk)).records → start < off →
      off < start + e.recordLen →
      h.freeRegion blk off d =
        .err (.invalidInput (.offsetNotAtDirEntryStart blk off)) d) := by
  obtain ⟨hparsed, hminimal⟩ := Block.regular_iff.mp hreg
  constructor
  · intro off e hmem hfree
    obtain ⟨b', hok, hfreed, hparsed'⟩ := freeRegion_parsed hblk hparsed hmem hfree
    have h12 : 12 ≤ e.recordLen := by
      rw [hminimal _ hmem hfree, Chunk.minRecordLen_eq]
      omega
    exact ⟨b', hok, Block.regular_iff.mpr ⟨hparsed' h12, hfreed.minimal hminimal⟩, hfreed⟩
  · intro start e off hmem hlo hhi
    exact freeRegion_inside hblk hparsed hmem hlo hhi

/-- The block of a new root: the record `..` at 12 is freed, and 5 is inside the record `.`. -/
theorem free_region_spec_newDir :
    (∃ b', freeRegion ⟨0, 0⟩ 0 12 ⟨[Block.newDir 0 0]⟩ = .ok 12 ⟨[b']⟩ ∧ b'.Regular ∧
      (Block.newDir 0 0).FreedAt b' 12 (DirEntry.new 0 .directory [dot, dot])) ∧
    freeRegion ⟨0, 0⟩ 0 5 ⟨[Block.newDir 0 0]⟩ =
      .err (.invalidInput (.offsetNotAtDirEntryStart 0 5)) ⟨[Block.newDir 0 0]⟩ := by
  have hreg : (Block.newDir 0 0).Regular := by decide +kernel
  have hrecords := newDir_records
  generalize Block.newDir 0 0 = b at hreg hrecords ⊢
  have hspec := @free_region_spec ⟨0, 0⟩ ⟨[b]⟩ 0 (by simp [MemoryDevice.blockCount]) hreg
  have hblock : (⟨[b]⟩ : MemoryDevice).block 0 = b := rfl
  simp only [Nat.add_zero, hblock, hrecords] at hspec
  exact ⟨hspec.1 12 (DirEntry.new 0 .directory [dot, dot]) (by simp) (by decide),
    hspec.2 0 (DirEntry.new 0 .directory [dot]) 5 (by simp) (by decide) (by decide)⟩

end FerrisFS
