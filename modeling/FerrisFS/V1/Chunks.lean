import FerrisFS.V1.Records

/-!
# Directory blocks as sequences of chunks

A directory block is cut into chunks: live records, free records, and gaps of
eight zero bytes, which is what `add_entry_here` leaves behind when the remainder
of a free region is exactly `min_free_size`. A gap has length zero for the walk,
so the records behind it are out of reach. Insertion and removal replace chunks
in the middle of the sequence.
-/

namespace FerrisFS

open Lib

/-- A record as the callbacks of the handler use it: a live entry, or the length
of a free region. -/
inductive Slot where
  | live (e : DirEntry)
  | free (len : Nat)
  deriving DecidableEq

def DirEntry.slot (e : DirEntry) : Slot := if e.isFree then .free e.recordLen else .live e

/-- The slots of a block, with their offsets. -/
def Block.slots (b : Block) : List (Nat × Slot) := b.records.map fun r => (r.1, r.2.slot)

/-! ## Chunks -/

abbrev Chunk := List UInt8

namespace Chunk

def inode (c : Chunk) : Nat := leNat (slice c 0 4)
def recordLen (c : Chunk) : Nat := leNat (slice c 4 2)
def nameLen (c : Chunk) : Nat := leNat (slice c 6 2)

/-- The entry that a live chunk encodes. -/
def entry (c : Chunk) : DirEntry where
  inode := c.inode
  fileType := FileType.ofByte (c.getD 8 0)
  recordLen := c.recordLen
  nameLen := c.nameLen
  name := DirEntry.padName (slice c 9 c.nameLen)

structure IsLive (c : Chunk) : Prop where
  inode_ne : c.inode ≠ INVALID_ADDRESS
  length : c.recordLen = List.length c
  name_le : c.nameLen ≤ DirEntry.MAX_NAME
  minimal : List.length c = DirEntry.minRecordLen c.nameLen

structure IsFree (c : Chunk) : Prop where
  inode_eq : c.inode = INVALID_ADDRESS
  length : c.recordLen = List.length c
  large : DirEntry.minFreeSize ≤ List.length c

/-- What is left of a free region whose remainder was not written. -/
def IsGap (c : Chunk) : Prop := c = List.replicate 8 0

instance (c : Chunk) : Decidable (IsGap c) := inferInstanceAs (Decidable (c = _))

def slot (c : Chunk) : Slot :=
  if c.inode = INVALID_ADDRESS then .free (List.length c) else .live c.entry

theorem minRecordLen_eq (n : Nat) : DirEntry.minRecordLen n = (12 + n) / 4 * 4 := by
  simp only [DirEntry.minRecordLen, Nat.shiftRight_eq_div_pow, Nat.shiftLeft_eq]
  omega

theorem minFreeSize_eq : DirEntry.minFreeSize = 8 := rfl

variable {c : Chunk}

theorem IsLive.header (h : IsLive c) : 9 + c.nameLen ≤ List.length c := by
  rw [h.minimal, minRecordLen_eq]
  omega

theorem IsGap.inode_eq (h : IsGap c) : c.inode = 0 := by
  subst h
  rfl

theorem IsGap.recordLen_eq (h : IsGap c) : c.recordLen = 0 := by
  subst h
  rfl

theorem IsLive.not_gap (h : IsLive c) : ¬ IsGap c := by
  intro hg
  have h1 := h.length
  have h2 := h.header
  rw [hg.recordLen_eq] at h1
  omega

theorem IsFree.not_gap (h : IsFree c) : ¬ IsGap c := by
  intro hg
  have := h.inode_eq
  rw [hg.inode_eq] at this
  exact absurd this (by decide)

theorem IsLive.slot_eq (h : IsLive c) : c.slot = .live c.entry := by
  rw [slot, if_neg h.inode_ne]

theorem IsFree.slot_eq (h : IsFree c) : c.slot = .free (List.length c) := by
  rw [slot, if_pos h.inode_eq]

end Chunk

/-- Each chunk is of one of the three kinds. -/
def Chunk.Ok (c : Chunk) : Prop := c.IsLive ∨ c.IsFree ∨ c.IsGap

theorem Chunk.Ok.large {c : Chunk} (h : c.Ok) : 8 ≤ List.length c := by
  rcases h with h | h | h
  · have := h.header
    omega
  · exact h.large
  · rw [h]
    simp

/-- The chunk is a record of its own length. -/
structure Chunk.Exact (c : Chunk) : Prop where
  large : 8 ≤ List.length c
  length : c.recordLen = List.length c

/-- The chunk has the header of a record, and only a free one carries the free mark. -/
structure Chunk.Marked (c : Chunk) : Prop where
  large : 8 ≤ List.length c
  free : c.inode = INVALID_ADDRESS → c.IsFree

theorem Chunk.Exact.marked {c : Chunk} (h : c.Exact) : c.Marked :=
  ⟨h.large, fun hi => ⟨hi, h.length, h.large⟩⟩

theorem Chunk.Ok.exact {c : Chunk} (h : c.Ok) (hg : ¬ c.IsGap) : c.Exact := by
  refine ⟨h.large, ?_⟩
  rcases h with h | h | h
  · exact h.length
  · exact h.length
  · exact absurd h hg

theorem Chunk.Ok.marked {c : Chunk} (h : c.Ok) : c.Marked := by
  refine ⟨h.large, fun hi => ?_⟩
  rcases h with h | h | h
  · exact absurd hi h.inode_ne
  · exact h
  · rw [h.inode_eq] at hi
    exact absurd hi (by decide)

/-! ## Reading a chunk in its block -/

theorem DirEntry.padName_take_max (bs : List UInt8) : padName (bs.take MAX_NAME) = padName bs := by
  rw [padName, padName, List.take_take, Nat.min_self, List.length_take]
  congr 2
  omega

section

variable {b : Block} {pre post : List UInt8} {c : Chunk}

theorem Block.slice_chunk {k n : Nat} (hb : b.bytes = pre ++ (c ++ post))
    (h : k + n ≤ List.length c) : b.slice (pre.length + k) n = Lib.slice c k n := by
  rw [Block.slice, hb, slice_append_inner h]

theorem Block.chunk_le (hb : b.bytes = pre ++ (c ++ post)) :
    pre.length + List.length c ≤ BLOCK_SIZE := by
  rw [← b.size, hb]
  simp only [List.length_append]
  omega

theorem Chunk.ofBytes_inode (hb : b.bytes = pre ++ (c ++ post)) (h : 8 ≤ List.length c) :
    (DirEntry.ofBytes b pre.length).inode = c.inode := by
  rw [Chunk.inode, ← Block.slice_chunk hb (by omega)]
  rfl

theorem Chunk.ofBytes_recordLen (hb : b.bytes = pre ++ (c ++ post)) (h : 8 ≤ List.length c) :
    (DirEntry.ofBytes b pre.length).recordLen = c.recordLen := by
  rw [Chunk.recordLen, ← Block.slice_chunk hb (by omega)]
  rfl

/-- A chunk that holds its name is read back whole. -/
theorem Chunk.ofBytes_eq (hhead : 9 + c.nameLen ≤ List.length c)
    (hb : b.bytes = pre ++ (c ++ post)) : DirEntry.ofBytes b pre.length = c.entry := by
  have hle := Block.chunk_le hb
  have hnl : leNat (b.slice (pre.length + 6) 2) = c.nameLen := by
    rw [Chunk.nameLen, ← Block.slice_chunk hb (by omega)]
  have hbyte : b.byte (pre.length + 8) = c.getD 8 0 := by
    rw [Block.byte, hb, List.getD_eq_getElem?_getD, List.getElem?_append_right (by omega),
      Nat.add_sub_cancel_left, List.getElem?_append_left (by omega), List.getD_eq_getElem?_getD]
  have hmin : min (min c.nameLen (BLOCK_SIZE - (pre.length + 9))) DirEntry.MAX_NAME =
      min DirEntry.MAX_NAME c.nameLen := by
    omega
  have hname : Lib.slice c 9 (min DirEntry.MAX_NAME c.nameLen) =
      (Lib.slice c 9 c.nameLen).take DirEntry.MAX_NAME := by
    rw [Lib.slice, Lib.slice, List.take_take]
  simp only [DirEntry.ofBytes, Chunk.entry, hnl, hbyte, hmin]
  rw [Block.slice_chunk hb (k := 9) (by omega), hname, DirEntry.padName_take_max]
  have h1 := Chunk.ofBytes_inode hb (by omega : 8 ≤ List.length c)
  have h2 := Chunk.ofBytes_recordLen hb (by omega : 8 ≤ List.length c)
  simp only [DirEntry.ofBytes] at h1 h2
  rw [h1, h2]

theorem Chunk.IsLive.ofBytes_eq (h : c.IsLive) (hb : b.bytes = pre ++ (c ++ post)) :
    DirEntry.ofBytes b pre.length = c.entry :=
  Chunk.ofBytes_eq h.header hb

end

/-! ## Layouts -/

/-- The block is the concatenation of these chunks. -/
structure Layout (b : Block) (cs : List Chunk) : Prop where
  bytes : b.bytes = cs.flatten
  ok : ∀ c ∈ cs, c.Ok

/-- The slots of a sequence of chunks that starts at `off`. -/
def slotsOf : Nat → List Chunk → List (Nat × Slot)
  | _, [] => []
  | off, c :: cs =>
    if off + 9 ≤ BLOCK_SIZE ∧ ¬ c.IsGap then (off, c.slot) :: slotsOf (off + List.length c) cs
    else []

namespace Layout

variable {b : Block} {cs pre post : List Chunk} {c : Chunk}

/-- A chunk that the walk reads. -/
theorem sound_iff (hb : b.bytes = (pre ++ c :: post).flatten) (hc : c.Ok) :
    b.Sound pre.flatten.length ↔ pre.flatten.length + 9 ≤ BLOCK_SIZE ∧ ¬ c.IsGap := by
  have hb' : b.bytes = pre.flatten ++ (c ++ post.flatten) := by simpa using hb
  have hle := Block.chunk_le hb'
  have hlarge := hc.large
  rw [Block.Sound, Chunk.ofBytes_recordLen hb' hlarge]
  rcases hc with h | h | h
  · have h1 := h.length
    have h2 := h.header
    have h3 := h.not_gap
    constructor
    · exact fun hs => ⟨hs.1, h3⟩
    · exact fun hs => ⟨hs.1, by omega, by omega⟩
  · have h1 := h.length
    have h3 := h.not_gap
    constructor
    · exact fun hs => ⟨hs.1, h3⟩
    · exact fun hs => ⟨hs.1, by omega, by omega⟩
  · have h1 := h.recordLen_eq
    constructor
    · exact fun hs => absurd h1 hs.2.1
    · exact fun hs => absurd h hs.2

theorem slot_ofBytes (hb : b.bytes = (pre ++ c :: post).flatten) (hc : c.Ok)
    (hg : ¬ c.IsGap) :
    (DirEntry.ofBytes b pre.flatten.length).slot = c.slot ∧
      (DirEntry.ofBytes b pre.flatten.length).recordLen = List.length c := by
  have hb' : b.bytes = pre.flatten ++ (c ++ post.flatten) := by simpa using hb
  have hlarge := hc.large
  have hlen := Chunk.ofBytes_recordLen hb' hlarge
  have hino := Chunk.ofBytes_inode hb' hlarge
  rcases hc with h | h | h
  · rw [hlen, h.length, DirEntry.slot, DirEntry.isFree, hino, h.slot_eq, h.ofBytes_eq hb']
    simp [h.inode_ne]
  · rw [hlen, h.length, DirEntry.slot, DirEntry.isFree, hino, h.slot_eq, hlen, h.length]
    simp [h.inode_eq]
  · exact absurd h hg

private theorem flatten_snoc_length (pre : List Chunk) (c : Chunk) :
    (pre ++ [c]).flatten.length = pre.flatten.length + List.length c := by
  simp

private theorem slots_from : ∀ (cs pre : List Chunk) (fuel : Nat),
    b.bytes = (pre ++ cs).flatten → (∀ c ∈ cs, c.Ok) → BLOCK_SIZE ≤ pre.flatten.length + fuel →
    (b.recordsFrom fuel pre.flatten.length).map (fun r => (r.1, r.2.slot)) =
      slotsOf pre.flatten.length cs := by
  intro cs
  induction cs with
  | nil =>
      intro pre fuel hb _ _
      have hend : pre.flatten.length = BLOCK_SIZE := by
        rw [← b.size, hb, List.append_nil]
      have hns : ¬ b.Sound pre.flatten.length := fun hs => by
        have := hs.1
        omega
      cases fuel <;> simp only [Block.recordsFrom, hns, if_false, List.map_nil, slotsOf]
  | cons c cs ih =>
      intro pre fuel hb hok hfuel
      have hc := hok c List.mem_cons_self
      have hsound := sound_iff hb hc
      by_cases hs : b.Sound pre.flatten.length
      · obtain ⟨h9, hg⟩ := hsound.mp hs
        obtain ⟨hslot, hlen⟩ := slot_ofBytes hb hc hg
        have hlarge := hc.large
        cases fuel with
        | zero => omega
        | succ fuel =>
            have hrest := ih (pre ++ [c]) fuel (by rw [hb]; simp)
              (fun k hk => hok k (List.mem_cons_of_mem _ hk))
              (by rw [flatten_snoc_length]; omega)
            rw [flatten_snoc_length] at hrest
            simp only [Block.recordsFrom, hs, if_true, List.map_cons, hslot, hlen, hrest, slotsOf,
              h9, hg, not_false_eq_true, and_self]
      · have hn : ¬ (pre.flatten.length + 9 ≤ BLOCK_SIZE ∧ ¬ c.IsGap) := fun h => hs (hsound.mpr h)
        cases fuel <;> simp only [Block.recordsFrom, hs, if_false, List.map_nil, slotsOf, hn]

/-- The slots of a block are those of its chunks, up to the first gap. -/
theorem slots_eq (h : Layout b cs) : b.slots = slotsOf 0 cs :=
  slots_from cs [] BLOCK_SIZE h.bytes h.ok (Nat.le_add_left _ _)

/-- The walk over the chunks meets neither a gap nor a record whose header does not
fit. -/
def Walkable : Nat → List Chunk → Prop
  | _, [] => True
  | off, c :: cs => off + 9 ≤ BLOCK_SIZE ∧ ¬ c.IsGap ∧ Walkable (off + List.length c) cs

private theorem stop_from : ∀ (cs pre : List Chunk) (fuel : Nat),
    b.bytes = (pre ++ cs).flatten → (∀ c ∈ cs, c.Ok) → BLOCK_SIZE ≤ pre.flatten.length + fuel →
    (b.stopFrom fuel pre.flatten.length = BLOCK_SIZE ↔ Walkable pre.flatten.length cs) := by
  intro cs
  induction cs with
  | nil =>
      intro pre fuel hb _ _
      have hend : pre.flatten.length = BLOCK_SIZE := by
        rw [← b.size, hb, List.append_nil]
      have hns : ¬ b.Sound pre.flatten.length := fun hs => by
        have := hs.1
        omega
      rw [hend] at hns ⊢
      cases fuel <;> simp only [Block.stopFrom, hns, if_false, Walkable]
  | cons c cs ih =>
      intro pre fuel hb hok hfuel
      have hc := hok c List.mem_cons_self
      have hsound := sound_iff hb hc
      by_cases hs : b.Sound pre.flatten.length
      · obtain ⟨h9, hg⟩ := hsound.mp hs
        obtain ⟨hslot, hlen⟩ := slot_ofBytes hb hc hg
        have hlarge := hc.large
        cases fuel with
        | zero => omega
        | succ fuel =>
            have hrest := ih (pre ++ [c]) fuel (by rw [hb]; simp)
              (fun k hk => hok k (List.mem_cons_of_mem _ hk))
              (by rw [flatten_snoc_length]; omega)
            rw [flatten_snoc_length] at hrest
            simp only [Block.stopFrom, hs, if_true, hlen, hrest, Walkable, h9, hg,
              not_false_eq_true, true_and]
      · have hn : ¬ (pre.flatten.length + 9 ≤ BLOCK_SIZE ∧ ¬ c.IsGap) := fun h => hs (hsound.mpr h)
        have hlt : pre.flatten.length ≠ BLOCK_SIZE := by
          have hle := congrArg List.length hb
          rw [b.size] at hle
          simp only [List.flatten_append, List.flatten_cons, List.length_append] at hle
          have := hc.large
          omega
        have hw : ¬ Walkable pre.flatten.length (c :: cs) := fun h => hn ⟨h.1, h.2.1⟩
        cases fuel <;> simp only [Block.stopFrom, hs, if_false, hlt, hw]

theorem complete_iff (h : Layout b cs) : b.Complete ↔ Walkable 0 cs :=
  stop_from cs [] BLOCK_SIZE h.bytes h.ok (Nat.le_add_left _ _)

theorem size_eq (h : Layout b cs) : cs.flatten.length = BLOCK_SIZE := by
  rw [← h.bytes, b.size]

end Layout

/-! ## Finding a chunk by its slot -/

/-- A slot comes from a chunk that no gap precedes. -/
theorem exists_chunk_of_slot : ∀ {cs : List Chunk} {off o : Nat} {x : Slot},
    (o, x) ∈ slotsOf off cs → ∃ pre c post, cs = pre ++ c :: post ∧
      o = off + pre.flatten.length ∧ c.slot = x ∧ o + 9 ≤ BLOCK_SIZE ∧
      ∀ k ∈ pre ++ [c], ¬ Chunk.IsGap k := by
  intro cs
  induction cs with
  | nil => intro off o x h; exact absurd h List.not_mem_nil
  | cons c cs ih =>
      intro off o x h
      simp only [slotsOf] at h
      split at h
      · rename_i hw
        rcases List.mem_cons.mp h with heq | h
        · cases heq
          refine ⟨[], c, cs, rfl, by simp, rfl, hw.1, ?_⟩
          simpa using hw.2
        · obtain ⟨pre, c', post, rfl, rfl, hx, h9, hall⟩ := ih h
          refine ⟨c :: pre, c', post, rfl, ?_, hx, h9, ?_⟩
          · simp only [List.flatten_cons, List.length_append]
            omega
          · intro k hk
            rcases List.mem_cons.mp hk with rfl | hk
            · exact hw.2
            · exact hall k hk
      · exact absurd h List.not_mem_nil

/-- Without gaps before it, the slots of a tail follow those of the chunks before
it. -/
theorem slotsOf_append : ∀ {pre cs : List Chunk} {off : Nat},
    (∀ c ∈ pre, ¬ Chunk.IsGap c) → off + pre.flatten.length + 9 ≤ BLOCK_SIZE →
    slotsOf off (pre ++ cs) = slotsOf off pre ++ slotsOf (off + pre.flatten.length) cs := by
  intro pre
  induction pre with
  | nil => intro cs off _ _; simp [slotsOf]
  | cons c pre ih =>
      intro cs off hg h9
      simp only [List.flatten_cons, List.length_append] at h9
      have hc := hg c List.mem_cons_self
      have hrest := @ih cs (off + List.length c)
        (fun k hk => hg k (List.mem_cons_of_mem _ hk)) (by omega)
      simp only [List.cons_append, slotsOf, hc, not_false_eq_true, and_true,
        show off + 9 ≤ BLOCK_SIZE by omega, if_true, hrest, List.flatten_cons,
        List.length_append, Nat.add_assoc]

/-! ## The chunks that are written -/

namespace DirEntry

/-- What `DirEntry::new` builds, for an inode that is not the free mark. -/
structure Valid (e : DirEntry) : Prop where
  inode_lt : e.inode < INVALID_ADDRESS
  nameLen_le : e.nameLen ≤ MAX_NAME
  recordLen_eq : e.recordLen = minRecordLen e.nameLen
  name_eq : e.name = padName (e.name.take e.nameLen)
  name_length : e.name.length = MAX_NAME

theorem padName_length (bs : List UInt8) : (padName bs).length = MAX_NAME := by
  simp only [padName, List.length_append, List.length_take, List.length_replicate, MAX_NAME]
  omega

theorem padName_take (bs : List UInt8) :
    (padName bs).take (min bs.length MAX_NAME) = bs.take MAX_NAME := by
  rw [padName, List.take_left' (by rw [List.length_take, Nat.min_comm])]

theorem valid_new {i : Nat} (t : FileType) (name : Str) (hi : i < INVALID_ADDRESS) :
    (DirEntry.new i t name).Valid where
  inode_lt := hi
  nameLen_le := Nat.min_le_right _ _
  recordLen_eq := rfl
  name_eq := by
    simp only [DirEntry.new]
    rw [padName_take, padName_take_max]
  name_length := padName_length _

/-- The length of a new record can be added to that of a free one. -/
theorem new_comparable (i : Nat) (t : FileType) (name : Str) :
    (DirEntry.new i t name).recordLen + minFreeSize < U16 := by
  have hlen : (DirEntry.new i t name).recordLen = minRecordLen (min name.length MAX_NAME) := rfl
  rw [hlen, Chunk.minRecordLen_eq, Chunk.minFreeSize_eq, MAX_NAME, U16]
  omega

variable {e : DirEntry}

theorem Valid.not_free (h : e.Valid) : e.isFree = false := by
  simp only [isFree, beq_eq_false_iff_ne]
  exact Nat.ne_of_lt h.inode_lt

theorem Valid.fields_eq (h : e.Valid) : e.fields =
    leBytes 4 e.inode ++ (leBytes 2 e.recordLen ++ (leBytes 2 e.nameLen ++
      (e.fileType.toByte :: e.name.take e.nameLen))) := by
  simp [fields, h.not_free]

theorem Valid.take_length (h : e.Valid) : (e.name.take e.nameLen).length = e.nameLen := by
  rw [List.length_take, h.name_length]
  exact Nat.min_eq_left h.nameLen_le

theorem Valid.fields_length (h : e.Valid) : e.fields.length = 9 + e.nameLen := by
  rw [h.fields_eq]
  simp only [List.length_append, leBytes_length, List.length_cons, h.take_length]
  omega

theorem Valid.recordLen_bounds (h : e.Valid) :
    9 + e.nameLen ≤ e.recordLen ∧ e.recordLen ≤ 76 ∧ 12 ≤ e.recordLen := by
  have := h.nameLen_le
  rw [h.recordLen_eq, Chunk.minRecordLen_eq]
  simp only [MAX_NAME] at this
  omega

theorem Valid.bytes_length (h : e.Valid) : e.bytes.length = e.recordLen := by
  have := h.recordLen_bounds
  rw [bytes, List.length_append, List.length_replicate, h.fields_length]
  omega

theorem Valid.bytes_eq (h : e.Valid) : e.bytes =
    leBytes 4 e.inode ++ (leBytes 2 e.recordLen ++ (leBytes 2 e.nameLen ++
      ([e.fileType.toByte] ++ (e.name.take e.nameLen ++
        List.replicate (e.recordLen - e.fields.length) 0)))) := by
  rw [bytes, h.fields_eq]
  simp only [List.append_assoc, List.cons_append, List.nil_append]

theorem Valid.chunk_fields (h : e.Valid) : Chunk.inode e.bytes = e.inode ∧
    Chunk.recordLen e.bytes = e.recordLen ∧ Chunk.nameLen e.bytes = e.nameLen := by
  have hb := h.recordLen_bounds
  have hi := h.inode_lt
  have hn := h.nameLen_le
  have hino : slice e.bytes 0 4 = leBytes 4 e.inode := by
    rw [h.bytes_eq]
    exact slice_append_mid (a := []) (b := leBytes 4 e.inode) rfl (by simp)
  have hrec : slice e.bytes 4 2 = leBytes 2 e.recordLen := by
    rw [h.bytes_eq]
    exact slice_append_mid (by simp) (by simp)
  have hlen : slice e.bytes 6 2 = leBytes 2 e.nameLen := by
    rw [h.bytes_eq, ← List.append_assoc]
    exact slice_append_mid (by simp) (by simp)
  simp only [INVALID_ADDRESS] at hi
  simp only [MAX_NAME] at hn
  refine ⟨?_, ?_, ?_⟩
  · rw [Chunk.inode, hino, leNat_leBytes (by omega)]
  · rw [Chunk.recordLen, hrec, leNat_leBytes (by omega)]
  · rw [Chunk.nameLen, hlen, leNat_leBytes (by omega)]

theorem Valid.isLive (h : e.Valid) : Chunk.IsLive e.bytes := by
  obtain ⟨h1, h2, h3⟩ := h.chunk_fields
  exact
    { inode_ne := by rw [h1]; exact Nat.ne_of_lt h.inode_lt
      length := by rw [h2, h.bytes_length]
      name_le := by rw [h3]; exact h.nameLen_le
      minimal := by rw [h3, h.bytes_length, h.recordLen_eq] }

theorem Valid.entry_bytes (h : e.Valid) : Chunk.entry e.bytes = e := by
  obtain ⟨h1, h2, h3⟩ := h.chunk_fields
  have hname : slice e.bytes 9 e.nameLen = e.name.take e.nameLen := by
    rw [h.bytes_eq]
    simp only [← List.append_assoc]
    rw [List.append_assoc]
    exact slice_append_mid (by simp) h.take_length.symm
  have htype : e.bytes.getD 8 0 = e.fileType.toByte := by
    rw [h.bytes_eq]
    simp only [← List.append_assoc]
    rw [List.append_assoc, List.append_assoc, List.getD_eq_getElem?_getD,
      List.getElem?_append_right (by simp)]
    simp
  rw [Chunk.entry, h1, h2, h3, hname, htype, FileType.ofByte_toByte, ← h.name_eq]

/-! ### Free regions -/

theorem free_fields {n : Nat} (hn : minFreeSize ≤ n) :
    (DirEntry.free n).fields = leBytes 4 INVALID_ADDRESS ++ leBytes 2 n := by
  rw [Chunk.minFreeSize_eq] at hn
  simp only [fields, DirEntry.free, isFree, beq_self_eq_true, if_true, List.append_nil]
  rw [Chunk.minFreeSize_eq, Nat.max_eq_left hn]

theorem free_recordLen {n : Nat} (hn : minFreeSize ≤ n) : (DirEntry.free n).recordLen = n :=
  Nat.max_eq_left hn

theorem free_bytes {n : Nat} (hn : minFreeSize ≤ n) : (DirEntry.free n).bytes =
    leBytes 4 INVALID_ADDRESS ++ (leBytes 2 n ++ List.replicate (n - 6) 0) := by
  rw [bytes, free_recordLen hn, free_fields hn]
  simp

theorem free_bytes_length {n : Nat} (hn : minFreeSize ≤ n) :
    (DirEntry.free n).bytes.length = n := by
  have := hn
  rw [Chunk.minFreeSize_eq] at this
  rw [free_bytes hn]
  simp only [List.length_append, leBytes_length, List.length_replicate]
  omega

private theorem slice_header (x n : Nat) (rest : List UInt8) :
    slice (leBytes 4 x ++ (leBytes 2 n ++ rest)) 0 4 = leBytes 4 x ∧
      slice (leBytes 4 x ++ (leBytes 2 n ++ rest)) 4 2 = leBytes 2 n :=
  ⟨slice_append_mid (a := []) (b := leBytes 4 x) rfl (by simp),
    slice_append_mid (by simp) (by simp)⟩

theorem free_isFree {n : Nat} (hn : minFreeSize ≤ n) (hlt : n < 2 ^ 16) :
    Chunk.IsFree (DirEntry.free n).bytes := by
  have hlen := free_bytes_length hn
  obtain ⟨hino, hrec⟩ := slice_header INVALID_ADDRESS n (List.replicate (n - 6) 0)
  rw [← free_bytes hn] at hino hrec
  refine ⟨?_, ?_, by rw [hlen]; exact hn⟩
  · rw [Chunk.inode, hino, leNat_leBytes (by simp only [INVALID_ADDRESS]; omega)]
  · rw [Chunk.recordLen, hrec, hlen, leNat_leBytes (by omega)]

/-- The tail of a free region is blank. -/
theorem drop_free_bytes {n k : Nat} (hn : minFreeSize ≤ n) (hk : 6 ≤ k) :
    (DirEntry.free n).bytes.drop k = List.replicate (n - k) 0 := by
  rw [free_bytes hn, ← List.append_assoc, List.drop_append]
  have hlen : (leBytes 4 INVALID_ADDRESS ++ leBytes 2 n).length = 6 := by simp
  rw [hlen, List.drop_eq_nil_of_le (by omega), List.nil_append, List.drop_replicate]
  congr 1
  omega

end DirEntry

/-- The chunks of a well-formed block. Where `gaps` are allowed for, free regions are
blank, so that what an insertion leaves of one is a gap. -/
def Chunk.Tidy (gaps : Bool) (c : Chunk) : Prop :=
  c.IsLive ∨
    (c.IsFree ∧ (gaps = true → c = (DirEntry.free (List.length c)).bytes)) ∨
    (gaps = true ∧ c.IsGap)

theorem Chunk.Tidy.ok {gaps : Bool} {c : Chunk} (h : c.Tidy gaps) : c.Ok := by
  rcases h with h | ⟨h, -⟩ | ⟨-, h⟩
  · exact .inl h
  · exact .inr (.inl h)
  · exact .inr (.inr h)

/-- A block of a directory. -/
structure TidyLayout (gaps : Bool) (b : Block) (cs : List Chunk) : Prop where
  bytes : b.bytes = cs.flatten
  tidy : ∀ c ∈ cs, c.Tidy gaps

theorem TidyLayout.layout {gaps : Bool} {b : Block} {cs : List Chunk}
    (h : TidyLayout gaps b cs) : Layout b cs :=
  ⟨h.bytes, fun c hc => (h.tidy c hc).ok⟩

end FerrisFS
