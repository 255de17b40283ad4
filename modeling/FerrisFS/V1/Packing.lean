import FerrisFS.V1.Chunks

/-!
# Writing a directory and listing it

`write_directory_with_inode` packs records into blocks and `get_entries` takes the blocks
apart again. Positions are counted from the first byte of the directory, so that the
record at position `p` goes to block `p / BLOCK_SIZE`, offset `p % BLOCK_SIZE`.
-/

namespace FerrisFS

open Lib

namespace DirEntry

/-- What `DirEntry::new` builds for a name that fits, and `DirEntry::free`. -/
inductive Built : DirEntry → Prop where
  | new {inode : Nat} (fileType : FileType) {name : Str} (hi : inode < INVALID_ADDRESS)
      (hn : name.length ≤ MAX_NAME) : Built (new inode fileType name)
  | free {size : Nat} (hmin : 12 ≤ size) (hmax : size < U16) : Built (free size)

variable {e : DirEntry}

/-- A free record, read back with all its fields. -/
theorem entry_free_bytes {n : Nat} (hmin : 12 ≤ n) (hmax : n < U16) :
    Chunk.nameLen (DirEntry.free n).bytes = 0 ∧
      Chunk.entry (DirEntry.free n).bytes = DirEntry.free n := by
  have hn : minFreeSize ≤ n := by
    rw [Chunk.minFreeSize_eq]
    omega
  have hfree := free_isFree hn hmax
  have hzero : (DirEntry.free n).bytes.drop 6 = List.replicate (n - 6) 0 :=
    drop_free_bytes hn (Nat.le_refl _)
  have hname : Chunk.nameLen (DirEntry.free n).bytes = 0 := by
    rw [Chunk.nameLen, Lib.slice, hzero, List.take_replicate]
    exact leNat_replicate_zero _
  have htype : (DirEntry.free n).bytes.getD 8 0 = 0 := by
    have hget : (DirEntry.free n).bytes.getD 8 0 =
        ((DirEntry.free n).bytes.drop 6).getD 2 0 := by
      simp [List.getD_eq_getElem?_getD, List.getElem?_drop]
    rw [hget, hzero]
    simp [List.getD_eq_getElem?_getD, show 2 < n - 6 by omega]
  refine ⟨hname, ?_⟩
  rw [Chunk.entry, hname, htype, hfree.inode_eq, hfree.length, free_bytes_length hn, Lib.slice,
    List.take_zero, DirEntry.free, Nat.max_eq_left hn]
  rfl

theorem Built.bytes_length (h : e.Built) : e.bytes.length = e.recordLen := by
  cases h with
  | new t hi hn => exact (valid_new t _ hi).bytes_length
  | free hmin hmax =>
      have hn : minFreeSize ≤ _ := Nat.le_trans (by decide) hmin
      rw [free_bytes_length hn, free_recordLen hn]

theorem Built.large (h : e.Built) : 12 ≤ e.recordLen := by
  cases h with
  | new t hi hn => exact (valid_new t _ hi).recordLen_bounds.2.2
  | free hmin hmax =>
      rw [free_recordLen (Nat.le_trans (by decide) hmin)]
      exact hmin

/-- What was written is what is read. -/
theorem Built.ofBytes_eq (h : e.Built) {b : Block} {pre post : List UInt8}
    (hb : b.bytes = pre ++ (e.bytes ++ post)) : DirEntry.ofBytes b pre.length = e := by
  cases h with
  | @new i t name hi hn =>
      have hv := valid_new t name hi
      rw [hv.isLive.ofBytes_eq hb, hv.entry_bytes]
  | @free n hmin hmax =>
      obtain ⟨hname, hentry⟩ := entry_free_bytes hmin hmax
      have hn : minFreeSize ≤ n := Nat.le_trans (by decide) hmin
      rw [Chunk.ofBytes_eq _ hb, hentry]
      rw [hname, free_bytes_length hn]
      omega

theorem Built.serialize {σ : Type} {s : σ} (h : e.Built) (buf : Block) {off : Nat}
    (hfit : off + e.recordLen ≤ BLOCK_SIZE) :
    (e.serialize buf off : Prog FSError σ Block) s = .ok (buf.splice off e.bytes) s := by
  have hlarge := h.large
  have hname : e.isFree ∨ e.nameLen ≤ MAX_NAME := by
    cases h with
    | new t hi hn => exact .inr (valid_new t _ hi).nameLen_le
    | free => exact .inl rfl
  have hfields : e.fields.length ≤ e.recordLen := by
    cases h with
    | @new i t name hi hn =>
        have hv := valid_new t name hi
        rw [hv.fields_length]
        exact hv.recordLen_bounds.1
    | free hmin =>
        rw [free_fields (Nat.le_trans (by decide) hmin), List.length_append, leBytes_length,
          leBytes_length]
        omega
  rw [DirEntry.serialize, if_pos ⟨hname, hfields, hfit⟩]
  rfl

end DirEntry

/-! ## The layout -/

/-- The bytes that the records take. -/
def sizeOf (es : List DirEntry) : Nat := (es.map DirEntry.recordLen).sum

/-- No record crosses a block boundary when the first one is put at `start`. -/
def Within (start : Nat) (es : List DirEntry) : Prop :=
  ∀ pre e post, es = pre ++ e :: post →
    (start + sizeOf pre) % BLOCK_SIZE + e.recordLen ≤ BLOCK_SIZE

/-- No record crosses a block boundary and the last block is full. -/
structure Packed (es : List DirEntry) : Prop where
  within : Within 0 es
  full : sizeOf es % BLOCK_SIZE = 0

@[simp] theorem sizeOf_nil : sizeOf [] = 0 := rfl

@[simp] theorem sizeOf_cons (e : DirEntry) (es : List DirEntry) :
    sizeOf (e :: es) = e.recordLen + sizeOf es := rfl

theorem within_nil (start : Nat) : Within start [] := by
  intro pre e post heq
  cases pre <;> cases heq

theorem within_cons {start : Nat} {e : DirEntry} {es : List DirEntry} : Within start (e :: es) ↔
    start % BLOCK_SIZE + e.recordLen ≤ BLOCK_SIZE ∧ Within (start + e.recordLen) es := by
  constructor
  · intro h
    refine ⟨h [] e es rfl, fun pre x post heq => ?_⟩
    have hx := h (e :: pre) x post (by rw [heq]; rfl)
    rwa [sizeOf_cons, ← Nat.add_assoc] at hx
  · rintro ⟨he, h⟩ pre x post heq
    cases pre with
    | nil =>
        obtain ⟨rfl, -⟩ := List.cons.inj heq
        exact he
    | cons y pre =>
        rw [List.cons_append] at heq
        obtain ⟨rfl, htail⟩ := List.cons.inj heq
        have hx := h pre x post htail
        rwa [sizeOf_cons, ← Nat.add_assoc]

/-- Behind a record that fits its block. -/
theorem next_position {start n : Nat} (h : start % BLOCK_SIZE + n ≤ BLOCK_SIZE) :
    (start % BLOCK_SIZE + n = BLOCK_SIZE →
      (start + n) / BLOCK_SIZE = start / BLOCK_SIZE + 1 ∧ (start + n) % BLOCK_SIZE = 0) ∧
    (start % BLOCK_SIZE + n ≠ BLOCK_SIZE →
      (start + n) / BLOCK_SIZE = start / BLOCK_SIZE ∧
        (start + n) % BLOCK_SIZE = start % BLOCK_SIZE + n) := by
  simp only [BLOCK_SIZE] at *
  omega

/-- The direct address of a content block. -/
def INode.directAt (n : INode) (k : Nat) : Nat :=
  if hk : k < INode.DIRECT_COUNT then n.direct ⟨k, hk⟩ else INVALID_ADDRESS

namespace DirectoryHandler

section Check

variable {σ : Type} {s : σ}

theorem checkLayout_of_within : ∀ {es : List DirEntry} {start : Nat}, Within start es →
    (checkLayout es (start / BLOCK_SIZE) (start % BLOCK_SIZE) : Prog FSError σ (Nat × Nat)) s =
      .ok ((start + sizeOf es) / BLOCK_SIZE, (start + sizeOf es) % BLOCK_SIZE) s := by
  intro es
  induction es with
  | nil => exact fun _ => rfl
  | cons e es ih =>
      intro start h
      obtain ⟨he, hrest⟩ := within_cons.mp h
      obtain ⟨hfull, hpart⟩ := next_position he
      have hnext := ih hrest
      rw [Nat.add_assoc] at hnext
      rw [checkLayout, if_neg (by omega), sizeOf_cons]
      by_cases hb : start % BLOCK_SIZE + e.recordLen = BLOCK_SIZE
      · rw [(hfull hb).1, (hfull hb).2] at hnext
        rw [if_pos hb]
        exact hnext
      · rw [(hpart hb).1, (hpart hb).2] at hnext
        rw [if_neg hb]
        exact hnext

theorem checkLayout_of_not_within : ∀ {es : List DirEntry} {start : Nat}, ¬ Within start es →
    ∃ block offset len,
      (checkLayout es (start / BLOCK_SIZE) (start % BLOCK_SIZE) : Prog FSError σ (Nat × Nat)) s =
        .err (.invalidInput (.dirEntriesOverfillBlock block offset len)) s := by
  intro es
  induction es with
  | nil =>
      intro start h
      exact absurd (within_nil start) h
  | cons e es ih =>
      intro start h
      by_cases he : start % BLOCK_SIZE + e.recordLen ≤ BLOCK_SIZE
      · obtain ⟨hfull, hpart⟩ := next_position he
        have hrest : ¬ Within (start + e.recordLen) es := fun hr => h (within_cons.mpr ⟨he, hr⟩)
        obtain ⟨block, offset, len, hnext⟩ := ih hrest
        refine ⟨block, offset, len, ?_⟩
        rw [checkLayout, if_neg (by omega)]
        by_cases hb : start % BLOCK_SIZE + e.recordLen = BLOCK_SIZE
        · rw [(hfull hb).1, (hfull hb).2] at hnext
          rw [if_pos hb]
          exact hnext
        · rw [(hpart hb).1, (hpart hb).2] at hnext
          rw [if_neg hb]
          exact hnext
      · refine ⟨start / BLOCK_SIZE, start % BLOCK_SIZE, e.recordLen, ?_⟩
        rw [checkLayout, if_pos (by omega)]
        rfl

end Check

/-! ## The writes -/

/-- The content blocks of the inode: `count` distinct blocks of the device, all of them
direct. -/
structure Targets (h : DirectoryHandler) (d : MemoryDevice) (n : INode) (count : Nat) : Prop where
  blocks : n.blocks = count
  direct : count ≤ INode.DIRECT_COUNT
  distinct : ∀ i j, i < count → j < count → n.directAt i = n.directAt j → i = j
  inRange : ∀ i, i < count → h.dataStart + n.directAt i < d.blockCount

/-- From the `k`-th content block on, the blocks hold the records of these rows. -/
def HoldsRows (h : DirectoryHandler) (d : MemoryDevice) (n : INode) (k : Nat) :
    List (List DirEntry) → Prop
  | [] => True
  | row :: rows =>
    (d.block (h.dataStart + n.directAt k)).bytes = row.flatMap DirEntry.bytes ∧
      HoldsRows h d n (k + 1) rows

variable {h : DirectoryHandler} {ih : INodeTableHandler} {n : INode} {d : MemoryDevice}
  {count k : Nat}

theorem getBlock_direct (hk : k < INode.DIRECT_COUNT) (hn : k < n.blocks) :
    ih.getBlock n k d = .ok (n.directAt k) d := by
  have hmax : INode.DIRECT_COUNT ≤ INode.MAX_BLOCKS := by decide
  rw [INodeTableHandler.getBlock, if_neg (by omega), if_neg (by omega), dif_pos hk, INode.directAt,
    dif_pos hk]
  rfl

theorem Targets.lt_direct (ht : Targets h d n count) (hk : k < count) : k < INode.DIRECT_COUNT :=
  Nat.lt_of_lt_of_le hk ht.direct

theorem Targets.getBlock (ht : Targets h d n count) (hk : k < count) :
    ih.getBlock n k d = .ok (n.directAt k) d :=
  getBlock_direct (ht.lt_direct hk) (ht.blocks ▸ hk)

theorem Targets.small (ht : Targets h d n count) (hk : k < count) :
    h.dataStart + n.directAt k < U32 :=
  Nat.lt_of_lt_of_le (ht.inRange k hk) (Nat.le_of_lt (Nat.mod_lt _ (by decide)))

theorem Targets.setBlock (ht : Targets h d n count) (i : Nat) (b : Block) :
    Targets h (d.setBlock i b) n count :=
  ⟨ht.blocks, ht.direct, ht.distinct, fun i hi => by
    rw [MemoryDevice.setBlock_blockCount]
    exact ht.inRange i hi⟩

/-- One block of the second pass. -/
theorem writeTarget (ht : Targets h d n count) (hk : k < count) (buf : Block) (rest : DevM Unit) :
    (do
      let rel ← ih.getBlock n k
      let addr ← add32 h.dataStart rel
      writeBlock addr buf
      rest : DevM Unit) d = rest (d.setBlock (h.dataStart + n.directAt k) buf) := by
  rw [Prog.bind_of_ok (ht.getBlock hk), Prog.bind_of_ok (Prog.checkedAdd_of_lt (ht.small hk)),
    Prog.bind_of_ok (writeBlock_of_lt (ht.inRange k hk))]

/-- The records that are in the buffer so far. -/
def Buffered (buf : Block) (cur : List DirEntry) : Prop :=
  buf.bytes.take (sizeOf cur) = cur.flatMap DirEntry.bytes

theorem sizeOf_append (es es' : List DirEntry) : sizeOf (es ++ es') = sizeOf es + sizeOf es' := by
  simp [sizeOf]

theorem Buffered.splice {buf : Block} {cur : List DirEntry} {e : DirEntry} (h : Buffered buf cur)
    (he : e.Built) (hfit : sizeOf cur + e.recordLen ≤ BLOCK_SIZE) :
    Buffered (buf.splice (sizeOf cur) e.bytes) (cur ++ [e]) := by
  have hlen := he.bytes_length
  have htake : (buf.bytes.take (sizeOf cur) ++ e.bytes).length = sizeOf (cur ++ [e]) := by
    rw [List.length_append, List.length_take, buf.size, hlen, sizeOf_append]
    simp only [sizeOf_cons, sizeOf_nil]
    omega
  rw [Buffered, Block.splice_bytes (by omega), Lib.splice, List.take_left' htake, h]
  simp

theorem Buffered.full {buf : Block} {cur : List DirEntry} (h : Buffered buf cur)
    (hsize : sizeOf cur = BLOCK_SIZE) : buf.bytes = cur.flatMap DirEntry.bytes := by
  rw [← h, hsize, ← buf.size, List.take_length]

theorem sizeOf_pos {es : List DirEntry} (hb : ∀ e ∈ es, e.Built) (h : sizeOf es = 0) : es = [] := by
  cases es with
  | nil => rfl
  | cons e es =>
      have hlarge := (hb e List.mem_cons_self).large
      rw [sizeOf_cons] at h
      omega

/-- The writes leave alone what is in front of them. -/
def SameBefore (h : DirectoryHandler) (n : INode) (k : Nat) (d d' : MemoryDevice) : Prop :=
  ∀ i, i < k → d'.block (h.dataStart + n.directAt i) = d.block (h.dataStart + n.directAt i)

/-- Where a directory that ends with block `count` has its records. -/
theorem block_lt_of_end {start n rest : Nat} (hlarge : 0 < n)
    (hend : start + (n + rest) = BLOCK_SIZE * count) : start / BLOCK_SIZE < count := by
  simp only [BLOCK_SIZE] at *
  omega

/-- The second pass, from a position where the records of the block are in the buffer. -/
theorem writeLayout_spec : ∀ {es cur : List DirEntry} {buf : Block} {start : Nat}
    {d : MemoryDevice}, (∀ e ∈ cur ++ es, e.Built) → Within start es →
    start + sizeOf es = BLOCK_SIZE * count → Targets h d n count → Buffered buf cur →
    sizeOf cur = start % BLOCK_SIZE →
    ∃ d', h.writeLayout n ih es buf (start / BLOCK_SIZE) (start % BLOCK_SIZE) d = .ok () d' ∧
      Targets h d' n count ∧ SameBefore h n (start / BLOCK_SIZE) d d' ∧
      ∃ rows, cur ++ es = rows.flatten ∧ start / BLOCK_SIZE + rows.length = count ∧
        HoldsRows h d' n (start / BLOCK_SIZE) rows := by
  intro es
  induction es with
  | nil =>
      intro cur buf start d hbuilt _ hend ht _ hcur
      have hstart : start % BLOCK_SIZE = 0 ∧ start / BLOCK_SIZE = count := by
        simp only [sizeOf_nil, BLOCK_SIZE] at *
        omega
      have hnil : cur = [] :=
        sizeOf_pos (fun e he => hbuilt e (by simpa using he)) (hcur.trans hstart.1)
      exact ⟨d, rfl, ht, fun _ _ => rfl, [], by simp [hnil], hstart.2, trivial⟩
  | cons e es ih' =>
      intro cur buf start d hbuilt hw hend ht hbuf hcur
      obtain ⟨hfit, hrest⟩ := within_cons.mp hw
      have he : e.Built := hbuilt e (by simp)
      have hlarge := he.large
      rw [sizeOf_cons] at hend
      obtain ⟨hfull, hpart⟩ := next_position hfit
      have hbuf' := hbuf.splice he (hcur ▸ hfit)
      rw [hcur] at hbuf'
      have hsize : sizeOf (cur ++ [e]) = start % BLOCK_SIZE + e.recordLen := by
        rw [sizeOf_append, hcur]
        rfl
      have hsplit : cur ++ e :: es = cur ++ [e] ++ es := by simp
      have hend' : start + e.recordLen + sizeOf es = BLOCK_SIZE * count := by omega
      rw [hsplit] at hbuilt
      rw [DirectoryHandler.writeLayout, Prog.bind_of_ok (he.serialize buf hfit), hsplit]
      by_cases hb : start % BLOCK_SIZE + e.recordLen = BLOCK_SIZE
      · -- the block is full: it is written, and the next one is begun
        obtain ⟨hdiv, hmod⟩ := hfull hb
        have hk : start / BLOCK_SIZE < count := block_lt_of_end (by omega) hend
        have hrow := hbuf'.full (hsize.trans hb)
        have hbuilt' : ∀ x ∈ [] ++ es, x.Built := fun x hx => hbuilt x (List.mem_append_right _ hx)
        obtain ⟨d', hrun, ht', hsame, rows, hes, hlen, hstored⟩ :=
          ih' hbuilt' hrest hend' (ht.setBlock (h.dataStart + n.directAt (start / BLOCK_SIZE))
            (buf.splice (start % BLOCK_SIZE) e.bytes)) (show Buffered Block.zero [] from rfl)
            hmod.symm
        rw [hdiv, hmod] at hrun
        rw [hdiv] at hsame hlen hstored
        have hset := fun j => @MemoryDevice.block_setBlock d _ j
          (buf.splice (start % BLOCK_SIZE) e.bytes) (ht.inRange _ hk)
        refine ⟨d', ?_, ht', fun i hi => ?_, (cur ++ [e]) :: rows, ?_, ?_, ?_, hstored⟩
        · rw [if_pos hb]
          exact (writeTarget ht hk _ _).trans hrun
        · rw [hsame i (Nat.lt_succ_of_lt hi), hset, if_neg]
          intro heq
          have hij := ht.distinct i _ (Nat.lt_trans hi hk) hk (Nat.add_left_cancel heq)
          omega
        · rw [List.flatten_cons, ← hes]
          rfl
        · rw [List.length_cons]
          omega
        · rw [hsame _ (Nat.lt_succ_self _), hset, if_pos rfl]
          exact hrow
      · obtain ⟨hdiv, hmod⟩ := hpart hb
        obtain ⟨d', hrun, ht', hsame, rows, hes, hlen, hstored⟩ :=
          ih' hbuilt hrest hend' ht hbuf' (hsize.trans hmod.symm)
        rw [hdiv, hmod] at hrun
        rw [hdiv] at hsame hlen hstored
        rw [if_neg hb]
        exact ⟨d', hrun, ht', hsame, rows, hes, hlen, hstored⟩

/-! ## The listing -/

/-- What a listing keeps. -/
def kept (includeFree : Bool) (e : DirEntry) : Bool := includeFree || !e.isFree

/-- The callback of `get_entries`. -/
def listCallback (includeFree : Bool) : Callback (List DirEntry) := fun e _ _ res =>
  if includeFree || !e.isFree then some (res ++ [e], false) else some (res, false)

theorem listCallback_eq (includeFree : Bool) (e : DirEntry) (block off : Nat)
    (acc : List DirEntry) : listCallback includeFree e block off acc =
      some (acc ++ [e].filter (kept includeFree), false) := by
  unfold listCallback
  by_cases hk : kept includeFree e = true
  · rw [List.filter_cons_of_pos hk]
    exact if_pos hk
  · rw [List.filter_cons_of_neg hk, List.filter_nil, List.append_nil]
    exact if_neg hk

/-- The records of one block. -/
theorem iterateBlock_row {σ : Type} {s : σ} (includeFree : Bool) {b : Block} {rel : Nat} :
    ∀ {row : List DirEntry} {pre : List UInt8} {fuel : Nat} {acc : List DirEntry},
    b.bytes = pre ++ row.flatMap DirEntry.bytes → (∀ e ∈ row, e.Built) →
    BLOCK_SIZE ≤ pre.length + fuel →
    (iterateBlock (listCallback includeFree) b rel fuel pre.length acc :
      Prog FSError σ (List DirEntry × Bool)) s =
      .ok (acc ++ row.filter (kept includeFree), false) s := by
  intro row
  induction row with
  | nil =>
      intro pre fuel acc hb _ _
      have hend : pre.length = BLOCK_SIZE := by
        rw [← b.size, hb]
        simp
      cases fuel with
      | zero => simp [iterateBlock]
      | succ fuel =>
          rw [iterateBlock, if_neg (by omega)]
          simp
  | cons e row ih =>
      intro pre fuel acc hb hbuilt hfuel
      have he := hbuilt e List.mem_cons_self
      have hlen := he.bytes_length
      have hlarge := he.large
      rw [List.flatMap_cons] at hb
      have hle := Block.chunk_le hb
      have hread := he.ofBytes_eq hb
      have hbs : BLOCK_SIZE = 256 := rfl
      cases fuel with
      | zero => omega
      | succ fuel =>
          have hdes :
              (DirEntry.deserialize b pre.length : Prog FSError σ DirEntry) s = .ok e s := by
            rw [DirEntry.deserialize, if_pos (by omega), hread]
            rfl
          have hnext := @ih (pre ++ e.bytes) fuel (acc ++ [e].filter (kept includeFree))
            (by rw [hb, List.append_assoc]) (fun x hx => hbuilt x (List.mem_cons_of_mem _ hx))
            (by rw [List.length_append]; omega)
          rw [List.length_append, hlen, List.append_assoc, ← List.filter_append,
            List.singleton_append] at hnext
          rw [iterateBlock, if_pos (by omega), Prog.bind_of_ok hdes, listCallback_eq]
          change (if pre.length + e.recordLen > BLOCK_SIZE then _ else _ :
            Prog FSError σ (List DirEntry × Bool)) s = _
          rw [if_neg (by omega)]
          change (if e.recordLen = 0 then _ else _ :
            Prog FSError σ (List DirEntry × Bool)) s = _
          rw [if_neg (by omega)]
          exact hnext

/-- The content blocks, one after the other. -/
theorem iterateBlocks_rows (includeFree : Bool) (ht : Targets h d n count) :
    ∀ {rows : List (List DirEntry)} {k : Nat} {acc : List DirEntry},
    HoldsRows h d n k rows → (∀ row ∈ rows, ∀ e ∈ row, e.Built) → k + rows.length ≤ count →
    h.iterateBlocks n ih (listCallback includeFree) (List.range' k rows.length) acc d =
      .ok (acc ++ rows.flatten.filter (kept includeFree)) d := by
  intro rows
  induction rows with
  | nil =>
      intro k acc _ _ _
      simp [iterateBlocks]
  | cons row rows ih' =>
      intro k acc hrows hbuilt hle
      obtain ⟨hrow, hrest⟩ := hrows
      rw [List.length_cons] at hle
      have hk : k < count := by omega
      have hadd : (add32 (n.directAt k) h.dataStart : DevM Nat) d =
          .ok (h.dataStart + n.directAt k) d := by
        have hsmall := ht.small hk
        rw [Nat.add_comm] at hsmall
        exact (Prog.checkedAdd_of_lt hsmall).trans (by rw [Nat.add_comm])
      have hblock := @iterateBlock_row MemoryDevice d includeFree
        (d.block (h.dataStart + n.directAt k)) (n.directAt k) row [] BLOCK_SIZE acc hrow
        (hbuilt row List.mem_cons_self) (Nat.le_add_left _ _)
      rw [List.length_cons, List.range'_succ, iterateBlocks, Prog.bind_of_ok (ht.getBlock hk),
        Prog.bind_of_ok hadd, Prog.bind_of_ok (readBlock_of_lt (ht.inRange k hk))]
      refine (Prog.bind_of_ok hblock _).trans ?_
      rw [List.flatten_cons, List.filter_append, ← List.append_assoc]
      exact ih' hrest (fun r hr => hbuilt r (List.mem_cons_of_mem _ hr)) (by omega)

theorem getEntries_rows (includeFree : Bool) (ht : Targets h d n count)
    {rows : List (List DirEntry)} (hrows : HoldsRows h d n 0 rows) (hlen : rows.length = count)
    (hbuilt : ∀ row ∈ rows, ∀ e ∈ row, e.Built) :
    h.getEntries n ih includeFree d = .ok (rows.flatten.filter (kept includeFree)) d := by
  have hrun := @iterateBlocks_rows h ih n d count includeFree ht rows 0 [] hrows hbuilt (by omega)
  rw [hlen, ← ht.blocks, ← List.range_eq_range', List.nil_append] at hrun
  exact hrun

/-! ## The round trip -/

/-- The records of a directory, written and listed. A list whose records do not fill its
blocks exactly is refused before anything is written. -/
theorem writeDirectory_roundTrip (h : DirectoryHandler) (ih : INodeTableHandler) (n : INode)
    (d : MemoryDevice) {es : List DirEntry} (hbuilt : ∀ e ∈ es, e.Built) :
    (Packed es → Targets h d n (sizeOf es / BLOCK_SIZE) →
      ∃ d', h.writeDirectoryWithInode es n ih d = .ok () d' ∧
        h.getEntries n ih true d' = .ok es d' ∧
        h.getEntries n ih false d' = .ok (es.filter fun e => !e.isFree) d') ∧
    (¬ Packed es → ∃ kind, h.writeDirectoryWithInode es n ih d = .err (.invalidInput kind) d ∧
      ((∃ block offset len, kind = .dirEntriesOverfillBlock block offset len) ∨
        ∃ block filled, kind = .dirEntriesUnderfillBlock block filled)) := by
  have hcheck : Within 0 es → (checkLayout es 0 0 : DevM (Nat × Nat)) d =
      .ok (sizeOf es / BLOCK_SIZE, sizeOf es % BLOCK_SIZE) d := by
    intro hw
    have hrun := @checkLayout_of_within MemoryDevice d es 0 hw
    rwa [Nat.zero_add] at hrun
  constructor
  · rintro ⟨hw, hfull⟩ ht
    obtain ⟨d', hrun, ht', -, rows, hes, hlen, hrows⟩ :=
      @writeLayout_spec h ih n (sizeOf es / BLOCK_SIZE) es [] Block.zero 0 d hbuilt hw
        (by simp only [BLOCK_SIZE] at *; omega) ht rfl rfl
    have hes : es = rows.flatten := hes
    have hrowsBuilt : ∀ row ∈ rows, ∀ e ∈ row, e.Built := fun row hr e he =>
      hbuilt e (hes ▸ List.mem_flatten_of_mem hr he)
    have hlen : rows.length = sizeOf es / BLOCK_SIZE := by
      rw [← hlen]
      simp
    refine ⟨d', ?_, ?_, ?_⟩
    · have hdirect : sizeOf es / BLOCK_SIZE ≤ 12 := ht.direct
      rw [writeDirectoryWithInode, Prog.bind_of_ok (hcheck hw)]
      change (if sizeOf es % BLOCK_SIZE ≠ 0 then _ else _ : DevM Unit) d = _
      rw [if_neg (not_not_intro hfull)]
      change (if sizeOf es / BLOCK_SIZE > 12 then _ else _ : DevM Unit) d = _
      rw [if_neg (Nat.not_lt.mpr hdirect)]
      exact hrun
    · rw [getEntries_rows true ht' hrows hlen hrowsBuilt, ← hes]
      congr 1
      exact List.filter_eq_self.mpr fun _ _ => rfl
    · rw [getEntries_rows false ht' hrows hlen hrowsBuilt, ← hes]
      rfl
  · intro hnot
    by_cases hw : Within 0 es
    · have hpart : sizeOf es % BLOCK_SIZE ≠ 0 := fun hfull => hnot ⟨hw, hfull⟩
      refine ⟨_, ?_, .inr ⟨sizeOf es / BLOCK_SIZE, sizeOf es % BLOCK_SIZE, rfl⟩⟩
      rw [writeDirectoryWithInode, Prog.bind_of_ok (hcheck hw)]
      change (if sizeOf es % BLOCK_SIZE ≠ 0 then _ else _ : DevM Unit) d = _
      rw [if_pos hpart]
      rfl
    · obtain ⟨block, offset, len, hrun⟩ := @checkLayout_of_not_within MemoryDevice d es 0 hw
      refine ⟨_, ?_, .inl ⟨block, offset, len, rfl⟩⟩
      rw [writeDirectoryWithInode]
      exact Prog.bind_of_err hrun _

/-- The two entries of a new directory, written to its block and listed. -/
theorem writeDirectory_roundTrip_new : ∃ n d',
    (DirectoryHandler.mk 3 0).writeDirectoryWithInode (newDirectory 1 0) n ⟨2, 1, 3⟩
      (MemoryDevice.empty 9) = .ok () d' ∧
    (DirectoryHandler.mk 3 0).getEntries n ⟨2, 1, 3⟩ false d' =
      .ok [DirEntry.new 1 .directory [dot], DirEntry.new 0 .directory [dot, dot]] d' := by
  have hbuilt : ∀ e ∈ newDirectory 1 0, e.Built := by
    intro e he
    simp only [newDirectory, List.mem_cons, List.not_mem_nil, or_false] at he
    rcases he with rfl | rfl | rfl
    · exact .new _ (by decide) (by decide)
    · exact .new _ (by decide) (by decide)
    · exact .free (by decide) (by decide)
  have hpacked : Packed (newDirectory 1 0) :=
    ⟨within_cons.mpr ⟨by decide, within_cons.mpr ⟨by decide, within_cons.mpr ⟨by decide,
      within_nil _⟩⟩⟩, by decide⟩
  have ht : Targets ⟨3, 0⟩ (MemoryDevice.empty 9)
      { INode.empty .directory 0 0 with direct := fun _ => 5, blocks := 1 } 1 :=
    ⟨rfl, by decide, fun i j hi hj _ => by omega, fun i hi => by
      obtain rfl : i = 0 := by omega
      decide⟩
  obtain ⟨d', hrun, -, hlist⟩ := (writeDirectory_roundTrip ⟨3, 0⟩ ⟨2, 1, 3⟩ _ _ hbuilt).1 hpacked ht
  exact ⟨_, d', hrun, hlist⟩

end DirectoryHandler

end FerrisFS
