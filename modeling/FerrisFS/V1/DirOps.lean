import FerrisFS.V1.Chunks

/-!
# What the directory handler writes

`add_entry_here`, `add_entry_grow`, `free_region` and the writing of a new
directory, as replacements of chunks.
-/

namespace FerrisFS

open Lib

/-! ## Overwriting chunks -/

namespace Block

variable {b : Block} {pre post : List Chunk} {old new : List UInt8}

/-- Overwriting a range of chunks with bytes of the same total length. -/
theorem splice_chunks (hb : b.bytes = pre.flatten ++ (old ++ post.flatten))
    (hlen : new.length = old.length) :
    (b.splice pre.flatten.length new).bytes = pre.flatten ++ (new ++ post.flatten) := by
  have hfit : pre.flatten.length + new.length ≤ BLOCK_SIZE := by
    rw [← b.size, hb, hlen]
    simp only [List.length_append]
    omega
  rw [splice_bytes hfit, hb, splice_append hlen]

end Block

section Serialize

variable {τ σ : Type} {R : σ → τ → Prop} {t : τ} {buf : Block} {off : Nat}

theorem DirEntry.Valid.runs_serialize {e : DirEntry} (h : e.Valid)
    (hfit : off + e.recordLen ≤ BLOCK_SIZE) :
    Prog.Runs R (e.serialize buf off : Prog FSError σ Block) t (buf.splice off e.bytes) t := by
  have hlen := h.recordLen_bounds
  refine Prog.Runs.branch ⟨.inr h.nameLen_le, ?_, hfit⟩ (Prog.Runs.pure _ _)
  rw [h.fields_length]
  exact hlen.1

/-- A free record, with whatever its other fields hold. -/
theorem DirEntry.runs_serialize_free {e : DirEntry} (buf : Block) (off : Nat)
    (hfree : e.isFree = true) (hlarge : minFreeSize ≤ e.recordLen)
    (hfit : off + e.recordLen ≤ BLOCK_SIZE) :
    Prog.Runs R (e.serialize buf off : Prog FSError σ Block) t
      (buf.splice off (DirEntry.free e.recordLen).bytes) t := by
  have hino : e.inode = INVALID_ADDRESS := by simpa [isFree] using hfree
  have hfields : e.fields = (DirEntry.free e.recordLen).fields := by
    rw [free_fields hlarge, fields, if_pos hfree, List.append_nil, hino]
  have hbytes : e.bytes = (DirEntry.free e.recordLen).bytes := by
    rw [bytes, bytes, hfields, free_recordLen hlarge]
  rw [← hbytes]
  refine Prog.Runs.branch ⟨.inl hfree, ?_, hfit⟩ (Prog.Runs.pure _ _)
  rw [hfields, free_fields hlarge]
  rw [Chunk.minFreeSize_eq] at hlarge
  simp only [List.length_append, leBytes_length]
  omega

theorem DirEntry.runs_deserialize (h : off + 9 ≤ BLOCK_SIZE) :
    Prog.Runs R (DirEntry.deserialize buf off : Prog FSError σ DirEntry) t
      (DirEntry.ofBytes buf off) t :=
  Prog.Runs.branch h (Prog.Runs.pure _ _)

end Serialize

/-! ## Insertion into a free region -/

/-- The block after `add_entry_here`: the entry, then the rest of the region unless
that rest is exactly `min_free_size`. -/
def Block.insertAt (b : Block) (entry : DirEntry) (off : Nat) : Block :=
  let rest := (DirEntry.ofBytes b off).recordLen - entry.recordLen
  (if rest > DirEntry.minFreeSize then
    b.splice (off + entry.recordLen) (DirEntry.free rest).bytes
  else b).splice off entry.bytes

namespace Geom

open DirectoryHandler

variable {g : Geom} {v : View}

theorem runs_validateFreeRegion {region entry : DirEntry} {blk off : Nat} (he : entry.Valid)
    (hroom : region.recordLen ≥ entry.recordLen + DirEntry.minFreeSize ∨
      region.recordLen = entry.recordLen) :
    Prog.Runs g.Holds (validateFreeRegion region entry blk off) v () v := by
  have hlen : entry.recordLen + DirEntry.minFreeSize < U16 := by
    have := he.recordLen_bounds.2.1
    rw [Chunk.minFreeSize_eq, U16]
    omega
  by_cases hne : region.recordLen ≠ entry.recordLen
  · refine Prog.Runs.branch hne ((Prog.Runs.checkedAdd hlen).bind ?_)
    exact Prog.Runs.guard (by omega) (.pure _ _)
  · exact Prog.Runs.guard hne (.pure _ _)

theorem runs_addEntryHere {entry : DirEntry} {blk off : Nat} (hblk : blk < g.cap)
    (he : entry.Valid) (hs : (v.data blk).Sound off)
    (hfit : Fits entry (DirEntry.ofBytes (v.data blk) off)) :
    Prog.Runs g.Holds (g.directoryHandler.addEntryHere entry blk off) v ()
      { v with data := Function.update v.data blk ((v.data blk).insertAt entry off) } := by
  obtain ⟨h9, -, hin⟩ := hs
  obtain ⟨hfree, hroom⟩ := hfit
  refine (Prog.Runs.checkedAdd (ptr_small hblk)).bind ?_
  refine (runs_readData hblk).bind ?_
  refine (DirEntry.runs_deserialize h9).bind ?_
  refine Prog.Runs.guard (by simp [hfree]) ?_
  refine (runs_validateFreeRegion he hroom).bind ?_
  by_cases hrest : (DirEntry.ofBytes (v.data blk) off).recordLen - entry.recordLen >
      DirEntry.minFreeSize
  · refine Prog.Runs.branch hrest ?_
    have hto : off + entry.recordLen < U16 := by
      simp only [BLOCK_SIZE, U16] at hin ⊢
      omega
    refine (Prog.Runs.checkedAdd hto).bind ?_
    refine (DirEntry.runs_serialize_free (e := { DirEntry.ofBytes (v.data blk) off with
      recordLen := (DirEntry.ofBytes (v.data blk) off).recordLen - entry.recordLen })
      _ _ hfree (Nat.le_of_lt hrest) (by dsimp only; omega)).bind ?_
    refine (he.runs_serialize (by omega)).bind ?_
    have hins : (v.data blk).insertAt entry off = ((v.data blk).splice (off + entry.recordLen)
        (DirEntry.free ((DirEntry.ofBytes (v.data blk) off).recordLen -
          entry.recordLen)).bytes).splice off entry.bytes := by
      rw [Block.insertAt, if_pos hrest]
    rw [hins]
    exact runs_writeData hblk
  · refine Prog.Runs.guard hrest ?_
    refine (Prog.Runs.pure _ _).bind ?_
    refine (he.runs_serialize (by omega)).bind ?_
    have hins : (v.data blk).insertAt entry off = (v.data blk).splice off entry.bytes := by
      rw [Block.insertAt, if_neg hrest]
    rw [hins]
    exact runs_writeData hblk

end Geom

/-- `add_entry_here` on a block of chunks: the chunk `c` is replaced by the entry and
what is left of it. -/
theorem Block.insertAt_chunks {b : Block} {pre post : List Chunk} {c : Chunk}
    {entry : DirEntry} (hb : b.bytes = (pre ++ c :: post).flatten) (hc : c.IsFree)
    (he : entry.Valid) (hroom : c.length = entry.recordLen ∨
      entry.recordLen + DirEntry.minFreeSize ≤ c.length) :
    (b.insertAt entry pre.flatten.length).bytes =
      (pre ++ entry.bytes :: (if c.length - entry.recordLen = 0 then []
        else if c.length - entry.recordLen = DirEntry.minFreeSize then [c.drop entry.recordLen]
        else [(DirEntry.free (c.length - entry.recordLen)).bytes]) ++ post).flatten := by
  have hb' : b.bytes = pre.flatten ++ (c ++ post.flatten) := by simpa using hb
  have hlen : (DirEntry.ofBytes b pre.flatten.length).recordLen = c.length := by
    rw [Chunk.ofBytes_recordLen hb' hc.large, hc.length]
  have hentry := he.bytes_length
  rw [Block.insertAt, hlen]
  rw [Chunk.minFreeSize_eq] at hroom ⊢
  have hsplit : b.bytes = pre.flatten ++ (c.take entry.recordLen ++
      ([c.drop entry.recordLen] ++ post).flatten) := by
    rw [hb']
    rw [List.singleton_append, List.flatten_cons, ← List.append_assoc (c.take _),
      List.take_append_drop]
  have htake : (c.take entry.recordLen).length = entry.recordLen := by
    rw [List.length_take]
    omega
  rcases Nat.lt_or_ge 8 (c.length - entry.recordLen) with hbig | hsmall
  · -- the rest is written as a free region of its own
    have hfree : DirEntry.minFreeSize ≤ c.length - entry.recordLen := by
      rw [Chunk.minFreeSize_eq]
      omega
    have hmid : (b.splice (pre.flatten.length + entry.recordLen)
        (DirEntry.free (c.length - entry.recordLen)).bytes).bytes =
        pre.flatten ++ (c.take entry.recordLen ++
          ([(DirEntry.free (c.length - entry.recordLen)).bytes] ++ post).flatten) := by
      have hpos : pre.flatten.length + entry.recordLen =
          (pre ++ [c.take entry.recordLen]).flatten.length := by
        simp only [List.flatten_append, List.flatten_cons, List.flatten_nil, List.append_nil,
          List.length_append, htake]
      rw [hpos, @Block.splice_chunks _ _ post (c.drop entry.recordLen)]
      · simp
      · rw [hsplit]
        simp
      · rw [DirEntry.free_bytes_length hfree, List.length_drop]
    rw [if_pos hbig, if_neg (by omega), if_neg (by omega),
      Block.splice_chunks hmid (by rw [hentry, htake])]
    simp
  · rw [if_neg (by omega), Block.splice_chunks hsplit (by rw [hentry, htake])]
    rcases hroom with heq | hge
    · have hnil : c.drop entry.recordLen = [] := List.drop_eq_nil_of_le (by omega)
      rw [if_pos (by omega), hnil]
      simp
    · rw [if_neg (by omega), if_pos (by omega)]
      simp

/-! ## A new block -/

/-- The block `add_entry_grow` writes. -/
def Block.growBlock (entry : DirEntry) : Block :=
  (Block.zero.splice 0 entry.bytes).splice entry.recordLen
    (DirEntry.free (BLOCK_SIZE - entry.recordLen)).bytes

theorem Block.growBlock_chunks {entry : DirEntry} (he : entry.Valid) :
    (Block.growBlock entry).bytes =
      [entry.bytes, (DirEntry.free (BLOCK_SIZE - entry.recordLen)).bytes].flatten := by
  have hbounds := he.recordLen_bounds
  have hentry := he.bytes_length
  have hfree : DirEntry.minFreeSize ≤ BLOCK_SIZE - entry.recordLen := by
    rw [Chunk.minFreeSize_eq, BLOCK_SIZE]
    omega
  have hfirst : (Block.zero.splice 0 entry.bytes).bytes = [entry.bytes].flatten ++
      (List.replicate (BLOCK_SIZE - entry.recordLen) 0 ++ ([] : List Chunk).flatten) := by
    rw [Block.zero_splice_bytes (by rw [hentry, BLOCK_SIZE]; omega), hentry]
    simp
  have hpos : entry.recordLen = [entry.bytes].flatten.length := by simp [hentry]
  have hsecond := Block.splice_chunks
    hfirst (by rw [DirEntry.free_bytes_length hfree, List.length_replicate])
  rw [← hpos] at hsecond
  rw [Block.growBlock, hsecond]
  simp

namespace Geom

variable {g : Geom} {v : View}

theorem runs_addEntryGrow {entry : DirEntry} {blk : Nat} (hblk : blk < g.cap)
    (he : entry.Valid) :
    Prog.Runs g.Holds (g.directoryHandler.addEntryGrow entry blk) v ()
      { v with data := Function.update v.data blk (Block.growBlock entry) } := by
  have hbounds := he.recordLen_bounds
  have hfree : DirEntry.minFreeSize ≤ BLOCK_SIZE - entry.recordLen := by
    rw [Chunk.minFreeSize_eq, BLOCK_SIZE]
    omega
  have hlen := DirEntry.free_recordLen hfree
  refine (Prog.Runs.checkedSub (by rw [BLOCK_SIZE]; omega)).bind ?_
  refine Prog.Runs.guard (by omega) ?_
  refine (he.runs_serialize (by rw [BLOCK_SIZE]; omega)).bind ?_
  refine Prog.Runs.branch (by rw [BLOCK_SIZE]; omega) ?_
  have hser := DirEntry.runs_serialize_free (R := g.Holds) (t := v)
    (e := DirEntry.free (BLOCK_SIZE - entry.recordLen)) (Block.zero.splice 0 entry.bytes)
    entry.recordLen rfl (by rw [hlen]; exact hfree)
    (by rw [hlen, BLOCK_SIZE]; omega)
  rw [hlen] at hser
  refine hser.bind ?_
  refine (Prog.Runs.checkedAdd (ptr_small hblk)).bind ?_
  exact runs_writeData hblk

end Geom

/-! ## A new directory -/

/-- The block of a new directory. -/
def Block.newDir (inode parent : Nat) : Block :=
  ((Block.zero.splice 0 (DirEntry.new inode .directory [dot]).bytes).splice 12
    (DirEntry.new parent .directory [dot, dot]).bytes).splice 24 (DirEntry.free 232).bytes

theorem Block.newDir_chunks {inode parent : Nat} (hi : inode < INVALID_ADDRESS)
    (hp : parent < INVALID_ADDRESS) : (Block.newDir inode parent).bytes =
      [(DirEntry.new inode .directory [dot]).bytes,
        (DirEntry.new parent .directory [dot, dot]).bytes, (DirEntry.free 232).bytes].flatten := by
  have h1 := (DirEntry.valid_new .directory [dot] hi).bytes_length
  have h2 := (DirEntry.valid_new .directory [dot, dot] hp).bytes_length
  have h3 : (DirEntry.free 232).bytes.length = 232 := DirEntry.free_bytes_length (by decide)
  have hr1 : (DirEntry.new inode .directory [dot]).recordLen = 12 := rfl
  have hr2 : (DirEntry.new parent .directory [dot, dot]).recordLen = 12 := rfl
  rw [hr1] at h1
  rw [hr2] at h2
  rw [Block.newDir]
  generalize (DirEntry.new inode .directory [dot]).bytes = a at h1 ⊢
  generalize (DirEntry.new parent .directory [dot, dot]).bytes = b at h2 ⊢
  generalize (DirEntry.free 232).bytes = f at h3 ⊢
  have hfirst : (Block.zero.splice 0 a).bytes = [a].flatten ++
      (List.replicate 12 0 ++ [List.replicate 232 0].flatten) := by
    rw [Block.zero_splice_bytes (by rw [h1]; decide), h1, List.flatten_cons, List.flatten_nil,
      List.append_nil, List.flatten_cons, List.flatten_nil, List.append_nil,
      List.replicate_append_replicate]
    rfl
  have hsecond := Block.splice_chunks hfirst (by rw [h2, List.length_replicate])
  have hpos : ([a] : List Chunk).flatten.length = 12 := by simp [h1]
  rw [hpos] at hsecond
  have hsecond' : ((Block.zero.splice 0 a).splice 12 b).bytes = [a, b].flatten ++
      (List.replicate 232 0 ++ ([] : List Chunk).flatten) := by
    rw [hsecond]
    simp only [List.flatten_cons, List.flatten_nil, List.append_nil, List.append_assoc]
  have hthird := Block.splice_chunks hsecond' (by rw [h3, List.length_replicate])
  have hpos' : ([a, b] : List Chunk).flatten.length = 24 := by simp [h1, h2]
  rw [hpos'] at hthird
  rw [hthird]
  simp only [List.flatten_cons, List.flatten_nil, List.append_nil, List.append_assoc]

namespace Geom

open DirectoryHandler

variable {g : Geom} {v : View}

theorem runs_writeNewDirectory {n : INode} {inode parent : Nat} (hi : inode < INVALID_ADDRESS)
    (hp : parent < INVALID_ADDRESS) (hn : 0 < n.blocks) (hm : n.Mapped g v.data) :
    Prog.Runs g.Holds (g.directoryHandler.writeDirectoryWithInode (newDirectory inode parent) n
        g.inodeHandler) v ()
      { v with
        data := Function.update v.data (n.blockAt v.data 0) (Block.newDir inode parent) } := by
  have hblk := hm.content _ (INode.blockAt_mem_content hn)
  have hlayout : Prog.Runs g.Holds (checkLayout (newDirectory inode parent) 0 0) v (1, 0) v :=
    fun d hd => ⟨d, rfl, hd⟩
  refine hlayout.bind ?_
  refine Prog.Runs.guard (by decide) ?_
  refine Prog.Runs.guard (by decide) ?_
  have h1 : (DirEntry.new inode .directory [dot]).recordLen = 12 := rfl
  have h2 : (DirEntry.new parent .directory [dot, dot]).recordLen = 12 := rfl
  have h3 : (DirEntry.free (BLOCK_SIZE - 12 - 12)).recordLen = 232 := rfl
  refine ((DirEntry.valid_new .directory [dot] hi).runs_serialize (by rw [h1]; decide)).bind ?_
  refine Prog.Runs.guard (by rw [h1]; decide) ?_
  refine ((DirEntry.valid_new .directory [dot, dot] hp).runs_serialize
    (by rw [h1, h2]; decide)).bind ?_
  refine Prog.Runs.guard (by rw [h1, h2]; decide) ?_
  refine (DirEntry.runs_serialize_free _ _ rfl (by rw [h1, h2, h3]; decide)
    (by rw [h1, h2, h3]; decide)).bind ?_
  refine Prog.Runs.branch (by rw [h1, h2, h3]; decide) ?_
  refine (runs_getBlock hn hm.blocks_le hm.pointers).bind ?_
  refine (Prog.Runs.checkedAdd (ptr_small hblk)).bind ?_
  exact (runs_writeData hblk).bind (Prog.Runs.pure _ _)

end Geom

/-! ## Removal -/

section FindPrev

variable {τ σ : Type} {R : σ → τ → Prop} {t : τ} {b : Block} {blk : Nat}

/-- The search for the previous record steps over the chunks before `off` and
returns the last of them. -/
theorem runs_findPrev {pre post : List Chunk} {c : Chunk}
    (hb : b.bytes = (pre ++ c :: post).flatten) (hpre : ∀ k ∈ pre, k.Exact)
    (hc : 8 ≤ c.length) : ∀ (todo before : List Chunk) (fuel : Nat), pre = before ++ todo →
      todo.length < fuel →
      Prog.Runs R (DirectoryHandler.findPrev b blk pre.flatten.length fuel
          before.flatten.length : Prog FSError σ _) t
        (todo.getLast?.map fun p => (DirEntry.ofBytes b (pre.flatten.length - p.length),
          pre.flatten.length - p.length)) t := by
  intro todo
  induction todo with
  | nil =>
      intro before fuel hsplit hfuel
      obtain ⟨fuel, rfl⟩ := Nat.exists_eq_succ_of_ne_zero (Nat.ne_of_gt hfuel)
      rw [List.append_nil] at hsplit
      subst hsplit
      exact Prog.Runs.guard (Nat.lt_irrefl _) (Prog.Runs.pure _ _)
  | cons p todo ih =>
      intro before fuel hsplit hfuel
      obtain ⟨fuel, rfl⟩ := Nat.exists_eq_succ_of_ne_zero (Nat.ne_of_gt (Nat.zero_lt_of_lt hfuel))
      obtain ⟨hplarge, hplen⟩ := hpre p (by rw [hsplit]; simp)
      have hb' : b.bytes = before.flatten ++ (p ++ (todo ++ c :: post).flatten) := by
        rw [hb, hsplit]
        simp
      have hlens : pre.flatten.length =
          before.flatten.length + p.length + todo.flatten.length := by
        rw [hsplit]
        simp only [List.flatten_append, List.flatten_cons, List.length_append]
        omega
      have htotal : pre.flatten.length + c.length ≤ BLOCK_SIZE := by
        rw [← b.size, hb]
        simp only [List.flatten_append, List.flatten_cons, List.length_append]
        omega
      have hrec := (Chunk.ofBytes_recordLen hb' hplarge).trans hplen
      simp only [BLOCK_SIZE] at htotal
      refine Prog.Runs.branch (by omega) ?_
      refine (DirEntry.runs_deserialize (by simp only [BLOCK_SIZE]; omega)).bind ?_
      rw [hrec]
      refine (Prog.Runs.checkedAdd (by simp only [U16]; omega)).bind ?_
      refine Prog.Runs.guard (by omega) ?_
      cases todo with
      | nil =>
          rw [List.flatten_nil, List.length_nil] at hlens
          refine Prog.Runs.branch (by omega) ?_
          have hoff : before.flatten.length = pre.flatten.length - p.length := by omega
          rw [hoff]
          exact Prog.Runs.pure _ _
      | cons q todo =>
          have hq := (hpre q (by rw [hsplit]; simp)).large
          refine Prog.Runs.guard (by
            rw [List.flatten_cons, List.length_append] at hlens; omega) ?_
          have hrest := ih (before ++ [p]) fuel (by rw [hsplit]; simp) (by
            simp only [List.length_cons] at hfuel ⊢; omega)
          have hlen : (before ++ [p]).flatten.length = before.flatten.length + p.length := by
            simp
          rw [hlen] at hrest
          exact hrest

end FindPrev

/-- The chunks around a removed one: `left` and `right` are the free chunks next to
it, which are merged with it. -/
structure Merge (pre : List Chunk) (c : Chunk) (post pre' left right post' : List Chunk) :
    Prop where
  pre_eq : pre = pre' ++ left
  post_eq : post = right ++ post'
  left_free : ∀ k ∈ left, k.IsFree
  right_free : ∀ k ∈ right, k.IsFree
  left_le : left.length ≤ 1
  right_le : right.length ≤ 1
  left_max : left = [] → ∀ k, pre.getLast? = some k → ¬ k.IsFree
  right_max : right = [] → ∀ k, post.head? = some k → ¬ k.IsFree

/-- The length of the merged free region. -/
def mergedLen (left : List Chunk) (c : Chunk) (right : List Chunk) : Nat :=
  left.flatten.length + c.length + right.flatten.length

theorem exists_merge (pre : List Chunk) (c : Chunk) (post : List Chunk) :
    ∃ pre' left right post', Merge pre c post pre' left right post' := by
  classical
  obtain ⟨pre', left, hpre, hleft, hle, hmax⟩ : ∃ pre' left : List Chunk, pre = pre' ++ left ∧
      (∀ k ∈ left, k.IsFree) ∧ left.length ≤ 1 ∧
      (left = [] → ∀ k, pre.getLast? = some k → ¬ k.IsFree) := by
    rcases List.eq_nil_or_concat pre with rfl | ⟨pre', p, rfl⟩
    · exact ⟨[], [], rfl, by simp, by simp, by simp⟩
    · rw [List.concat_eq_append]
      by_cases hp : p.IsFree
      · exact ⟨pre', [p], rfl, by simpa using hp, by simp, by simp⟩
      · refine ⟨pre' ++ [p], [], by simp, by simp, by simp, fun _ k hk => ?_⟩
        rw [List.getLast?_concat, Option.some.injEq] at hk
        exact hk ▸ hp
  obtain ⟨right, post', hpost, hright, hle', hmax'⟩ : ∃ right post' : List Chunk,
      post = right ++ post' ∧ (∀ k ∈ right, k.IsFree) ∧ right.length ≤ 1 ∧
      (right = [] → ∀ k, post.head? = some k → ¬ k.IsFree) := by
    cases post with
    | nil => exact ⟨[], [], rfl, by simp, by simp, by simp⟩
    | cons q post =>
        by_cases hq : q.IsFree
        · exact ⟨[q], post, rfl, by simpa using hq, by simp, by simp⟩
        · refine ⟨[], q :: post, rfl, by simp, by simp, fun _ k hk => ?_⟩
          rw [List.head?_cons, Option.some.injEq] at hk
          exact hk ▸ hq
  exact ⟨pre', left, right, post', hpre, hpost, hleft, hright, hle, hle', hmax, hmax'⟩

/-- The block after the merged region is written. -/
theorem Block.merged_chunks {b : Block} {pre post pre' left right post' : List Chunk} {c : Chunk}
    (hb : b.bytes = (pre ++ c :: post).flatten) (hm : Merge pre c post pre' left right post')
    (hlarge : DirEntry.minFreeSize ≤ c.length) :
    (b.splice pre'.flatten.length (DirEntry.free (mergedLen left c right)).bytes).bytes =
      (pre' ++ (DirEntry.free (mergedLen left c right)).bytes :: post').flatten := by
  have hold : b.bytes = pre'.flatten ++ ((left.flatten ++ (c ++ right.flatten)) ++
      post'.flatten) := by
    rw [hb, hm.pre_eq, hm.post_eq]
    simp
  have hfree : DirEntry.minFreeSize ≤ mergedLen left c right := by
    rw [mergedLen]
    omega
  rw [Block.splice_chunks hold]
  · simp
  · rw [DirEntry.free_bytes_length hfree, mergedLen]
    simp only [List.length_append]
    omega

theorem length_le_flatten : ∀ {cs : List Chunk}, (∀ c ∈ cs, 8 ≤ c.length) →
    8 * cs.length ≤ cs.flatten.length := by
  intro cs
  induction cs with
  | nil => intro _; simp
  | cons c cs ih =>
      intro hok
      have hc := hok c List.mem_cons_self
      have hrest := ih fun k hk => hok k (List.mem_cons_of_mem _ hk)
      simp only [List.flatten_cons, List.length_append, List.length_cons]
      omega

section FreeRegion

open DirectoryHandler

variable {b : Block} {pre post pre' left right post' : List Chunk} {c : Chunk}

private theorem isFree_ofBytes {bef aft : List Chunk} {k : Chunk}
    (hb : b.bytes = (bef ++ k :: aft).flatten) (hk : k.Marked) :
    (DirEntry.ofBytes b bef.flatten.length).isFree = true ↔ k.IsFree := by
  have hb' : b.bytes = bef.flatten ++ (k ++ aft.flatten) := by simpa using hb
  rw [DirEntry.isFree, Chunk.ofBytes_inode hb' hk.large, beq_iff_eq]
  exact ⟨hk.free, fun h => h.inode_eq⟩

/-- Where the merged region starts and what the previous record adds to it. -/
private theorem merge_left (hb : b.bytes = (pre ++ c :: post).flatten)
    (hpre : ∀ k ∈ pre, k.Exact) (hm : Merge pre c post pre' left right post') :
    regionStart pre.flatten.length (pre.getLast?.map fun p =>
      (DirEntry.ofBytes b (pre.flatten.length - p.length), pre.flatten.length - p.length)) =
      (pre'.flatten.length, left.flatten.length) := by
  rcases List.eq_nil_or_concat pre with hnil | ⟨init, p, hconcat⟩
  · have hpre' := hm.pre_eq
    rw [hnil, eq_comm, List.append_eq_nil_iff] at hpre'
    rw [hnil, hpre'.1, hpre'.2]
    rfl
  · rw [List.concat_eq_append] at hconcat
    have hexact := hpre p (by rw [hconcat]; simp)
    have hb' : b.bytes = (init ++ p :: (c :: post)).flatten := by
      rw [hb, hconcat]
      simp
    have hoff : pre.flatten.length - p.length = init.flatten.length := by
      rw [hconcat]
      simp
    have hrec := (Chunk.ofBytes_recordLen (by simpa using hb') hexact.large).trans hexact.length
    have hfree := isFree_ofBytes hb' hexact.marked
    rw [hconcat, List.getLast?_concat, ← hconcat, Option.map_some]
    simp only [regionStart, hoff]
    by_cases hp : p.IsFree
    · have hleft : left = [p] := by
        have hne : left ≠ [] := fun h =>
          hm.left_max h p (by rw [hconcat, List.getLast?_concat]) hp
        obtain ⟨q, rfl⟩ : ∃ q, left = [q] := List.length_eq_one_iff.mp (by
          have := List.length_pos_iff.mpr hne
          have := hm.left_le
          omega)
        have := hm.pre_eq
        rw [hconcat] at this
        simpa using (List.append_inj' this rfl).2.symm
      have hpre' : pre' = init := by
        have := hm.pre_eq
        rw [hconcat, hleft] at this
        exact (List.append_inj' this rfl).1.symm
      rw [if_pos (hfree.mpr hp), hrec, hleft, hpre']
      simp
    · have hleft : left = [] := by
        cases hl : left with
        | nil => rfl
        | cons q rest =>
            have hlast : pre.getLast? = left.getLast? := by
              rw [hm.pre_eq, hl, List.getLast?_append_cons]
            have hmem : p ∈ left := by
              apply List.mem_of_getLast?
              rw [← hlast, hconcat, List.getLast?_concat]
            exact absurd (hm.left_free p hmem) hp
      have hpre' : pre' = pre := by
        have := hm.pre_eq
        rw [hleft, List.append_nil] at this
        exact this.symm
      rw [if_neg (fun h => hp (hfree.mp h)), hleft, hpre']
      rfl

/-- What the next record adds. -/
private theorem merge_right {q : Chunk} {rest : List Chunk}
    (hb : b.bytes = (pre ++ c :: q :: rest).flatten)
    (hq : q.Marked) (hm : Merge pre c (q :: rest) pre' left right post') :
    (if (DirEntry.ofBytes b (pre.flatten.length + c.length)).isFree then
      (DirEntry.ofBytes b (pre.flatten.length + c.length)).recordLen else 0) =
      right.flatten.length := by
  have hb' : b.bytes = ((pre ++ [c]) ++ q :: rest).flatten := by
    rw [hb]
    simp
  have hoff : (pre ++ [c]).flatten.length = pre.flatten.length + c.length := by simp
  have hfree := isFree_ofBytes hb' hq
  rw [hoff] at hfree
  by_cases hqf : q.IsFree
  · have hbq : b.bytes = (pre ++ [c]).flatten ++ (q ++ rest.flatten) := by
      rw [hb', List.flatten_append, List.flatten_cons]
    have hrec := (Chunk.ofBytes_recordLen hbq hq.large).trans hqf.length
    rw [hoff] at hrec
    have hright : right = [q] := by
      have hne : right ≠ [] := fun h => hm.right_max h q rfl hqf
      obtain ⟨k, rfl⟩ : ∃ k, right = [k] := List.length_eq_one_iff.mp (by
        have := List.length_pos_iff.mpr hne
        have := hm.right_le
        omega)
      have := hm.post_eq
      rw [List.singleton_append, List.cons.injEq] at this
      rw [this.1]
    rw [if_pos (hfree.mpr hqf), hrec, hright]
    simp
  · have hright : right = [] := by
      cases hr : right with
      | nil => rfl
      | cons k more =>
          have := hm.post_eq
          rw [hr, List.cons_append, List.cons.injEq] at this
          exact absurd (hm.right_free q (by rw [hr, this.1]; simp)) hqf
    rw [if_neg (fun h => hqf (hfree.mp h)), hright]
    rfl

variable {g : Geom} {v : View} {blk : Nat}

/-- The first half of `free_region`: everything up to the next record. -/
private theorem merged_bounds (hb : b.bytes = (pre ++ c :: post).flatten)
    (hm : Merge pre c post pre' left right post') :
    pre'.flatten.length + mergedLen left c right + post'.flatten.length = BLOCK_SIZE ∧
      pre.flatten.length + c.length + post.flatten.length = BLOCK_SIZE := by
  have hlen := congrArg List.length hb
  rw [b.size] at hlen
  have h1 := congrArg (fun l => (List.flatten l).length) hm.pre_eq
  have h2 := congrArg (fun l => (List.flatten l).length) hm.post_eq
  simp only [List.flatten_append, List.flatten_cons, List.length_append] at hlen h1 h2
  rw [mergedLen]
  omega

/-- `free_region` on a chunk whose length is its own, when the header of the next record
lies in the block: the merged region is written over it and its free neighbours. -/
theorem DirectoryHandler.runs_freeRegion {τ : Type} {R : MemoryDevice → τ → Prop} {t : τ}
    {put : Block → τ} {h : DirectoryHandler} (haddr : h.dataStart + blk < U32)
    (hread : Prog.Runs R (readBlock (h.dataStart + blk)) t b t)
    (hwrite : ∀ buf, Prog.Runs R (writeBlock (h.dataStart + blk) buf) t () (put buf))
    (hb : b.bytes = (pre ++ c :: post).flatten) (hpre : ∀ k ∈ pre, k.Exact) (hc : c.Exact)
    (hhead : 9 ≤ c.length) (hpost : ∀ k ∈ post, k.Marked)
    (hnext : post = [] ∨ pre.flatten.length + c.length + 9 ≤ BLOCK_SIZE)
    (hm : Merge pre c post pre' left right post') :
    Prog.Runs R (h.freeRegion blk pre.flatten.length) t c.length
      (put (b.splice pre'.flatten.length (DirEntry.free (mergedLen left c right)).bytes)) := by
  obtain ⟨hbound, hbound'⟩ := merged_bounds hb hm
  have hmin : DirEntry.minFreeSize ≤ mergedLen left c right := by
    rw [mergedLen, Chunk.minFreeSize_eq]
    omega
  have hcount := length_le_flatten fun k hk => (hpre k hk).large
  have hrec := (Chunk.ofBytes_recordLen (by simpa using hb) hc.large).trans hc.length
  have hlen := DirEntry.free_recordLen hmin
  simp only [mergedLen, BLOCK_SIZE] at hbound hbound' hnext
  refine (Prog.Runs.checkedAdd haddr).bind ?_
  refine hread.bind ?_
  refine (runs_findPrev hb hpre hc.large pre [] (BLOCK_SIZE + 1) rfl (by
    simp only [BLOCK_SIZE]; omega)).bind ?_
  rw [merge_left hb hpre hm]
  refine (DirEntry.runs_deserialize (by simp only [BLOCK_SIZE]; omega)).bind ?_
  rw [hrec]
  refine (Prog.Runs.checkedAdd (by simp only [U16]; omega)).bind ?_
  have hfinish : ∀ next, next = right.flatten.length →
      Prog.Runs R (do
        let size ← Prog.checkedAdd U16 (left.flatten.length + c.length) next
        let buf ← (DirEntry.free size).serialize b pre'.flatten.length
        writeBlock (h.dataStart + blk) buf
        pure c.length) t c.length
      (put (b.splice pre'.flatten.length (DirEntry.free (mergedLen left c right)).bytes)) := by
    rintro next rfl
    refine (Prog.Runs.checkedAdd (by simp only [U16]; omega)).bind ?_
    have hser := DirEntry.runs_serialize_free (R := R) (t := t)
      (e := DirEntry.free (mergedLen left c right)) b pre'.flatten.length rfl
      (by rw [hlen]; exact hmin) (by rw [hlen]; simp only [mergedLen, BLOCK_SIZE]; omega)
    rw [hlen] at hser
    refine hser.bind ?_
    exact (hwrite _).bind (Prog.Runs.pure _ _)
  cases post with
  | nil =>
      refine Prog.Runs.guard (by
        simp only [BLOCK_SIZE, List.flatten_nil, List.length_nil] at hbound' ⊢; omega) ?_
      refine (Prog.Runs.pure _ _).bind (hfinish 0 ?_)
      have := hm.post_eq
      rw [eq_comm, List.append_eq_nil_iff] at this
      rw [this.1]
      rfl
  | cons q rest =>
      have hq := hpost q List.mem_cons_self
      have hqlarge := hq.large
      refine Prog.Runs.branch (by
        simp only [BLOCK_SIZE, List.flatten_cons, List.length_append] at hbound' ⊢; omega) ?_
      refine (DirEntry.runs_deserialize (by
        rcases hnext with h | h
        · exact absurd h (by simp)
        · exact h)).bind ?_
      exact (Prog.Runs.pure _ _).bind (hfinish _ (merge_right hb hq hm))

/-- `free_region` on the live chunk `c` of a well-formed block. -/
theorem Geom.runs_freeRegion (hblk : blk < g.cap)
    (hb : (v.data blk).bytes = (pre ++ c :: post).flatten)
    (hpre : ∀ k ∈ pre, k.Ok ∧ ¬ k.IsGap) (hc : c.IsLive) (hpost : ∀ k ∈ post, k.Ok)
    (hnext : post = [] ∨ pre.flatten.length + c.length + 9 ≤ BLOCK_SIZE)
    (hm : Merge pre c post pre' left right post') :
    Prog.Runs g.Holds (g.directoryHandler.freeRegion blk pre.flatten.length) v c.length
      { v with
        data := Function.update v.data blk ((v.data blk).splice pre'.flatten.length
          (DirEntry.free (mergedLen left c right)).bytes) } := by
  have hcok : c.Ok := .inl hc
  have hhead := hc.header
  have hwrite : ∀ buf, Prog.Runs g.Holds (writeBlock (g.directoryHandler.dataStart + blk) buf) v ()
      { v with data := Function.update v.data blk buf } := fun buf => runs_writeData hblk
  exact DirectoryHandler.runs_freeRegion (ptr_small hblk) (runs_readData hblk) hwrite hb
    (fun k hk => (hpre k hk).1.exact (hpre k hk).2) (hcok.exact hc.not_gap) (by omega)
    (fun k hk => (hpost k hk).marked) hnext hm

/-- Without a condition on what follows: the header of a gap at the end of the block
does not fit, and reading it panics. -/
theorem Geom.wpr_freeRegion {Q : Nat → View → Prop} {E : FSError → View → Prop}
    (hblk : blk < g.cap) (hb : (v.data blk).bytes = (pre ++ c :: post).flatten)
    (hpre : ∀ k ∈ pre, k.Ok ∧ ¬ k.IsGap) (hc : c.IsLive) (hpost : ∀ k ∈ post, k.Ok)
    (hm : Merge pre c post pre' left right post')
    (hQ : Q c.length { v with
      data := Function.update v.data blk ((v.data blk).splice pre'.flatten.length
        (DirEntry.free (mergedLen left c right)).bytes) }) :
    Prog.wpr g.Holds (g.directoryHandler.freeRegion blk pre.flatten.length) Q E v := by
  by_cases hnext : post = [] ∨ pre.flatten.length + c.length + 9 ≤ BLOCK_SIZE
  · exact (Geom.runs_freeRegion hblk hb hpre hc hpost hnext hm).wpr hQ
  rw [not_or] at hnext
  have hexact : c.Exact := Chunk.Ok.exact (.inl hc) hc.not_gap
  have hhead := hc.header
  obtain ⟨-, hbound⟩ := merged_bounds hb hm
  have hcount := length_le_flatten fun k hk => (hpre k hk).1.large
  have hrec := (Chunk.ofBytes_recordLen (by simpa using hb) hexact.large).trans hexact.length
  obtain ⟨q, rest, rfl⟩ := List.exists_cons_of_ne_nil hnext.1
  have hq := (hpost q List.mem_cons_self).large
  simp only [List.flatten_cons, List.length_append, BLOCK_SIZE] at hbound
  refine (Prog.Runs.checkedAdd (ptr_small hblk)).seq ?_
  refine (runs_readData hblk).seq ?_
  refine (runs_findPrev hb (fun k hk => (hpre k hk).1.exact (hpre k hk).2) hexact.large pre []
    (BLOCK_SIZE + 1) rfl (by simp only [BLOCK_SIZE]; omega)).seq ?_
  refine (DirEntry.runs_deserialize (by simp only [BLOCK_SIZE]; omega)).seq ?_
  refine Prog.wpr_checkedAdd fun _ => ?_
  rw [hrec]
  refine Prog.wpr_ite (fun _ => ?_) (fun h => absurd h (by simp only [BLOCK_SIZE]; omega))
  exact Prog.wpr_bind (Prog.wpr_ite (fun h => absurd h hnext.2) fun _ => Prog.wpr_abort)

end FreeRegion

end FerrisFS
