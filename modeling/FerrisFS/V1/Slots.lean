import FerrisFS.V1.DirOps

/-!
# What the directory operations do to the records of a block

Insertion, growth and removal, read as changes of the list of records that the walk
over a block meets. A remainder of exactly eight bytes is not written as a free
record, so the walk over the block ends there and no longer meets what follows.
-/

namespace FerrisFS

open Lib

theorem Block.recordsFrom_sorted {b : Block} : ∀ (fuel off : Nat),
    (b.recordsFrom fuel off).Pairwise fun x y => x.1 < y.1
  | 0, _ => List.Pairwise.nil
  | fuel + 1, off => by
      unfold Block.recordsFrom
      split
      · rename_i hs
        refine List.pairwise_cons.mpr ⟨fun y hy => ?_, recordsFrom_sorted fuel _⟩
        have hle := (recordsFrom_sound hy).2.2
        have hpos := hs.2.1
        dsimp only
        omega
      · exact List.Pairwise.nil

/-- The walk meets offsets in increasing order. -/
theorem Block.slots_sorted (b : Block) : b.slots.Pairwise fun x y => x.1 < y.1 := by
  rw [Block.slots, List.pairwise_map]
  exact Block.recordsFrom_sorted _ _

/-- No two records of a block share an offset. -/
theorem Block.slots_unique {b : Block} {off : Nat} {x y : Slot} (hx : (off, x) ∈ b.slots)
    (hy : (off, y) ∈ b.slots) : x = y := by
  by_contra hne
  have hp := b.slots_sorted
  rw [List.pairwise_iff_getElem] at hp
  obtain ⟨i, hi, hxi⟩ := List.mem_iff_getElem.mp hx
  obtain ⟨j, hj, hyj⟩ := List.mem_iff_getElem.mp hy
  rcases Nat.lt_trichotomy i j with hlt | heq | hlt
  · have := hp i j hi hj hlt
    rw [hxi, hyj] at this
    exact Nat.lt_irrefl _ this
  · subst heq
    rw [hxi] at hyj
    cases hyj
    exact hne rfl
  · have := hp j i hj hi hlt
    rw [hxi, hyj] at this
    exact Nat.lt_irrefl _ this

/-- The offset of a record occurs nowhere else in the block. -/
theorem Block.not_mem_of_split {b : Block} {off : Nat} {x : Slot} {s₁ s₂ : List (Nat × Slot)}
    (h : b.slots = s₁ ++ (off, x) :: s₂) {o : Nat} {y : Slot} (hmem : (o, y) ∈ s₁ ++ s₂) :
    o ≠ off := by
  have hp := b.slots_sorted
  rw [h, List.pairwise_append, List.pairwise_cons] at hp
  rcases List.mem_append.mp hmem with hm | hm
  · exact Nat.ne_of_lt (hp.2.2 _ hm _ List.mem_cons_self)
  · exact Nat.ne_of_gt (hp.2.1.1 _ hm)

variable {gaps : Bool}

namespace TidyLayout

variable {b : Block} {cs : List Chunk} {off n : Nat} {e entry : DirEntry}

/-- The chunk of a record that the walk meets. -/
theorem chunk_of_slot (h : TidyLayout gaps b cs) {x : Slot} (hs : (off, x) ∈ b.slots) :
    ∃ pre c post, cs = pre ++ c :: post ∧ off = pre.flatten.length ∧ c.slot = x ∧
      off + 9 ≤ BLOCK_SIZE ∧ ∀ k ∈ pre ++ [c], ¬ Chunk.IsGap k := by
  rw [h.layout.slots_eq] at hs
  obtain ⟨pre, c, post, hcs, hoff, hx, h9, hg⟩ := exists_chunk_of_slot hs
  rw [Nat.zero_add] at hoff
  exact ⟨pre, c, post, hcs, hoff, hx, h9, hg⟩

end TidyLayout

theorem Chunk.Tidy.of_free {c : Chunk} {n : Nat} (h : c.Tidy gaps) (hg : ¬ c.IsGap)
    (hs : c.slot = .free n) : c.IsFree ∧ List.length c = n ∧
      (gaps = true → c = (DirEntry.free n).bytes) := by
  rcases h with hl | ⟨hf, hblank⟩ | ⟨-, hgap⟩
  · rw [hl.slot_eq] at hs
    cases hs
  · rw [hf.slot_eq] at hs
    cases hs
    exact ⟨hf, rfl, hblank⟩
  · exact absurd hgap hg

theorem Chunk.Tidy.of_live {c : Chunk} {e : DirEntry} (h : c.Tidy gaps) (hg : ¬ c.IsGap)
    (hs : c.slot = .live e) : c.IsLive ∧ c.entry = e := by
  rcases h with hl | ⟨hf, -⟩ | ⟨-, hgap⟩
  · rw [hl.slot_eq] at hs
    cases hs
    exact ⟨hl, rfl⟩
  · rw [hf.slot_eq] at hs
    cases hs
  · exact absurd hgap hg

theorem Chunk.tidy_free {n : Nat} (hmin : DirEntry.minFreeSize ≤ n) (hlt : n < 2 ^ 16) :
    Chunk.Tidy gaps (DirEntry.free n).bytes := by
  refine .inr (.inl ⟨DirEntry.free_isFree hmin hlt, fun _ => ?_⟩)
  rw [DirEntry.free_bytes_length hmin]

theorem DirEntry.Valid.slot_bytes {e : DirEntry} (h : e.Valid) :
    Chunk.slot e.bytes = .live e := by
  rw [h.isLive.slot_eq, h.entry_bytes]

theorem DirEntry.slot_free_bytes {n : Nat} (hn : minFreeSize ≤ n) (hlt : n < 2 ^ 16) :
    Chunk.slot (DirEntry.free n).bytes = .free n := by
  rw [(free_isFree hn hlt).slot_eq, free_bytes_length hn]

theorem slotsOf_cons {off : Nat} {c : Chunk} {cs : List Chunk} (h9 : off + 9 ≤ BLOCK_SIZE)
    (hg : ¬ c.IsGap) :
    slotsOf off (c :: cs) = (off, c.slot) :: slotsOf (off + List.length c) cs := by
  rw [slotsOf, if_pos ⟨h9, hg⟩]

theorem slotsOf_gap {off : Nat} {c : Chunk} {cs : List Chunk} (hg : c.IsGap) :
    slotsOf off (c :: cs) = [] := by
  rw [slotsOf, if_neg fun h => h.2 hg]

/-- No header fits behind this offset. -/
theorem slotsOf_end {off : Nat} {cs : List Chunk} (h9 : BLOCK_SIZE < off + 9) :
    slotsOf off cs = [] := by
  cases cs with
  | nil => rfl
  | cons c cs => rw [slotsOf, if_neg fun h => Nat.not_lt.mpr h.1 h9]

/-- What follows an inserted record: nothing new when the region is used up, the
end of the walk when eight bytes are left, else the rest of the region. -/
def tailAfter (n len off : Nat) (s : List (Nat × Slot)) : List (Nat × Slot) :=
  if n = len then s
  else if n = len + DirEntry.minFreeSize then []
  else (off + len, .free (n - len)) :: s

section Insert

variable {b : Block} {cs : List Chunk} {off n : Nat} {entry : DirEntry}

/-- Insertion into a free region. -/
theorem TidyLayout.insertAt (h : TidyLayout gaps b cs) (hs : (off, Slot.free n) ∈ b.slots)
    (he : entry.Valid)
    (hroom : n = entry.recordLen ∨ entry.recordLen + DirEntry.minFreeSize ≤ n)
    (hgaps : gaps = true ∨ n ≠ entry.recordLen + DirEntry.minFreeSize) :
    (∃ cs', TidyLayout gaps (b.insertAt entry off) cs') ∧
      ∃ s₁ s₂, b.slots = s₁ ++ (off, .free n) :: s₂ ∧
        (b.insertAt entry off).slots =
          s₁ ++ (off, .live entry) :: tailAfter n entry.recordLen off s₂ := by
  obtain ⟨pre, c, post, rfl, rfl, hslot, h9, hg⟩ := h.chunk_of_slot hs
  have hgc : ¬ c.IsGap := hg c (by simp)
  have hgpre : ∀ k ∈ pre, ¬ Chunk.IsGap k := fun k hk => hg k (by simp [hk])
  obtain ⟨hcf, hclen, hblank⟩ := (h.tidy c (by simp)).of_free hgc hslot
  have hfree : DirEntry.minFreeSize ≤ n := hclen ▸ hcf.large
  have hle : pre.flatten.length + n ≤ BLOCK_SIZE := by
    have hb : b.bytes = pre.flatten ++ (c ++ post.flatten) := by
      rw [h.bytes]
      simp
    have := Block.chunk_le hb
    omega
  obtain ⟨hr9, hr76, hr12⟩ := he.recordLen_bounds
  have hmin : DirEntry.minFreeSize = 8 := rfl
  have hbs : BLOCK_SIZE = 256 := rfl
  have hold : b.slots = slotsOf 0 pre ++
      (pre.flatten.length, .free n) :: slotsOf (pre.flatten.length + n) post := by
    rw [h.layout.slots_eq, slotsOf_append hgpre (by omega), Nat.zero_add,
      slotsOf_cons h9 hgc, hslot, hclen]
  have hbytes := Block.insertAt_chunks h.bytes hcf he (by rw [hclen]; exact hroom)
  rw [hclen] at hbytes
  have hpreTidy : ∀ k ∈ pre, Chunk.Tidy gaps k := fun k hk => h.tidy k (by simp [hk])
  have hpostTidy : ∀ k ∈ post, Chunk.Tidy gaps k := fun k hk => h.tidy k (by simp [hk])
  -- the walk up to and over the new record is the same in all three cases
  have hwalk : ∀ mid : List Chunk, slotsOf 0 (pre ++ entry.bytes :: (mid ++ post)) =
      slotsOf 0 pre ++ (pre.flatten.length, .live entry) ::
        slotsOf (pre.flatten.length + entry.recordLen) (mid ++ post) := by
    intro mid
    rw [slotsOf_append hgpre (by omega), Nat.zero_add, slotsOf_cons h9 he.isLive.not_gap,
      he.slot_bytes, he.bytes_length]
  have hall : ∀ mid : List Chunk, (∀ k ∈ mid, Chunk.Tidy gaps k) →
      ∀ k ∈ pre ++ entry.bytes :: (mid ++ post), Chunk.Tidy gaps k := by
    intro mid hmid k hk
    rcases List.mem_append.mp hk with hk | hk
    · exact hpreTidy k hk
    rcases List.mem_cons.mp hk with rfl | hk
    · exact .inl he.isLive
    rcases List.mem_append.mp hk with hk | hk
    · exact hmid k hk
    · exact hpostTidy k hk
  have done : ∀ mid : List Chunk, (∀ k ∈ mid, Chunk.Tidy gaps k) →
      (b.insertAt entry pre.flatten.length).bytes =
        (pre ++ entry.bytes :: (mid ++ post)).flatten →
      slotsOf (pre.flatten.length + entry.recordLen) (mid ++ post) =
        tailAfter n entry.recordLen pre.flatten.length
          (slotsOf (pre.flatten.length + n) post) →
      (∃ cs', TidyLayout gaps (b.insertAt entry pre.flatten.length) cs') ∧
        ∃ s₁ s₂, b.slots = s₁ ++ (pre.flatten.length, .free n) :: s₂ ∧
          (b.insertAt entry pre.flatten.length).slots =
            s₁ ++ (pre.flatten.length, .live entry) ::
              tailAfter n entry.recordLen pre.flatten.length s₂ := by
    intro mid hmid hbytes htail
    have hlay : TidyLayout gaps (b.insertAt entry pre.flatten.length)
        (pre ++ entry.bytes :: (mid ++ post)) := ⟨hbytes, hall mid hmid⟩
    refine ⟨⟨_, hlay⟩, _, _, hold, ?_⟩
    rw [hlay.layout.slots_eq, hwalk, htail]
  by_cases heq : n = entry.recordLen
  · refine done [] (by simp) ?_ ?_
    · rw [hbytes, if_pos (by omega)]
      simp
    · rw [tailAfter, if_pos heq, List.nil_append, ← heq]
  by_cases hgap : n = entry.recordLen + DirEntry.minFreeSize
  · have hon : gaps = true := hgaps.resolve_right (not_not.mpr hgap)
    have hdrop : c.drop entry.recordLen = List.replicate 8 0 := by
      rw [hblank hon, DirEntry.drop_free_bytes hfree (by omega)]
      congr 1
      omega
    refine done [c.drop entry.recordLen] ?_ ?_ ?_
    · intro k hk
      rw [List.mem_singleton] at hk
      exact .inr (.inr ⟨hon, by rw [hk]; exact hdrop⟩)
    · rw [hbytes, if_neg (by omega), if_pos (by omega)]
      simp
    · rw [tailAfter, if_neg heq, if_pos hgap]
      exact slotsOf_gap hdrop
  · have hrest' : DirEntry.minFreeSize ≤ n - entry.recordLen := by omega
    have hrest16 : n - entry.recordLen < 2 ^ 16 := by omega
    refine done [(DirEntry.free (n - entry.recordLen)).bytes] ?_ ?_ ?_
    · intro k hk
      rw [List.mem_singleton] at hk
      exact hk ▸ Chunk.tidy_free hrest' hrest16
    · rw [hbytes, if_neg (by omega), if_neg (by omega)]
      simp
    · rw [tailAfter, if_neg heq, if_neg hgap, List.singleton_append,
        slotsOf_cons (by omega) (DirEntry.free_isFree hrest' hrest16).not_gap,
        DirEntry.slot_free_bytes hrest' hrest16, DirEntry.free_bytes_length hrest']
      congr 2
      omega

end Insert

/-- A block added for one record. -/
theorem TidyLayout.growBlock {entry : DirEntry} (he : entry.Valid) :
    (∃ cs, TidyLayout gaps (Block.growBlock entry) cs) ∧
      (Block.growBlock entry).slots =
        [(0, .live entry), (entry.recordLen, .free (BLOCK_SIZE - entry.recordLen))] := by
  obtain ⟨hr9, hr76, hr12⟩ := he.recordLen_bounds
  have hbs : BLOCK_SIZE = 256 := rfl
  have hmin : DirEntry.minFreeSize ≤ BLOCK_SIZE - entry.recordLen := by
    rw [Chunk.minFreeSize_eq]
    omega
  have hlt : BLOCK_SIZE - entry.recordLen < 2 ^ 16 := by omega
  have hlay : TidyLayout gaps (Block.growBlock entry)
      [entry.bytes, (DirEntry.free (BLOCK_SIZE - entry.recordLen)).bytes] := by
    refine ⟨Block.growBlock_chunks he, ?_⟩
    intro c hc
    rcases List.mem_pair.mp hc with rfl | rfl
    · exact .inl he.isLive
    · exact Chunk.tidy_free hmin hlt
  refine ⟨⟨_, hlay⟩, ?_⟩
  rw [hlay.layout.slots_eq, slotsOf_cons (by omega) he.isLive.not_gap, he.slot_bytes,
    he.bytes_length, slotsOf_cons (by omega) (DirEntry.free_isFree hmin hlt).not_gap,
    DirEntry.slot_free_bytes hmin hlt, Nat.zero_add]
  rfl

/-- The first block of a new directory. -/
theorem TidyLayout.newDir {inode parent : Nat} (hi : inode < INVALID_ADDRESS)
    (hp : parent < INVALID_ADDRESS) :
    (∃ cs, TidyLayout gaps (Block.newDir inode parent) cs) ∧
      (Block.newDir inode parent).slots =
        [(0, .live (DirEntry.new inode .directory [dot])),
          (12, .live (DirEntry.new parent .directory [dot, dot])), (24, .free 232)] := by
  have hself := DirEntry.valid_new .directory [dot] hi
  have hparent := DirEntry.valid_new .directory [dot, dot] hp
  have hbs : BLOCK_SIZE = 256 := rfl
  have hmin : DirEntry.minFreeSize ≤ 232 := by decide
  have hlay : TidyLayout gaps (Block.newDir inode parent)
      [(DirEntry.new inode .directory [dot]).bytes,
        (DirEntry.new parent .directory [dot, dot]).bytes, (DirEntry.free 232).bytes] := by
    refine ⟨Block.newDir_chunks hi hp, ?_⟩
    intro c hc
    simp only [List.mem_cons, List.not_mem_nil, or_false] at hc
    rcases hc with rfl | rfl | rfl
    · exact .inl hself.isLive
    · exact .inl hparent.isLive
    · exact Chunk.tidy_free (by decide) (by decide)
  refine ⟨⟨_, hlay⟩, ?_⟩
  have hlen1 : (DirEntry.new inode .directory [dot]).bytes.length = 12 := hself.bytes_length
  have hlen2 : (DirEntry.new parent .directory [dot, dot]).bytes.length = 12 :=
    hparent.bytes_length
  rw [hlay.layout.slots_eq, slotsOf_cons (by omega) hself.isLive.not_gap, hself.slot_bytes,
    hlen1, slotsOf_cons (by omega) hparent.isLive.not_gap, hparent.slot_bytes, hlen2,
    slotsOf_cons (by omega) (DirEntry.free_isFree hmin (by decide)).not_gap,
    DirEntry.slot_free_bytes hmin (by decide)]
  rfl

theorem Block.newDir_slots {inode parent : Nat} (hi : inode < INVALID_ADDRESS)
    (hp : parent < INVALID_ADDRESS) : (Block.newDir inode parent).slots =
      [(0, .live (DirEntry.new inode .directory [dot])),
        (12, .live (DirEntry.new parent .directory [dot, dot])), (24, .free 232)] :=
  (@TidyLayout.newDir true _ _ hi hp).2

/-- The block of a new root. -/
theorem newDir_records : (Block.newDir 0 0).records =
    [(0, DirEntry.new 0 .directory [dot]), (12, DirEntry.new 0 .directory [dot, dot]),
      (24, DirEntry.free 232)] := by
  decide +kernel

theorem newDir_complete : (Block.newDir 0 0).Complete := by
  show (Block.newDir 0 0).stopAt = BLOCK_SIZE
  decide +kernel

/-- A slot that is not in use. -/
def Slot.isFree : Slot → Bool
  | .live _ => false
  | .free _ => true

section Free

variable {b : Block} {cs pre post pre' left right post' : List Chunk} {c : Chunk}
  {e : DirEntry}

/-- Removal of a record: it and the free records next to it become one free
record. -/
theorem TidyLayout.freed (h : TidyLayout gaps b (pre ++ c :: post))
    (hg : ∀ k ∈ pre ++ [c], ¬ Chunk.IsGap k) (h9 : pre.flatten.length + 9 ≤ BLOCK_SIZE)
    (hc : c.IsLive) (hm : Merge pre c post pre' left right post') :
    (∃ cs', TidyLayout gaps (b.splice pre'.flatten.length
        (DirEntry.free (mergedLen left c right)).bytes) cs') ∧
      ∃ s₁ l r s₂, (∀ x ∈ l ++ r, x.2.isFree = true) ∧ l.length ≤ 1 ∧ r.length ≤ 1 ∧
        b.slots = s₁ ++ l ++ (pre.flatten.length, .live c.entry) :: (r ++ s₂) ∧
        (b.splice pre'.flatten.length (DirEntry.free (mergedLen left c right)).bytes).slots =
          s₁ ++ (pre'.flatten.length, .free (mergedLen left c right)) :: s₂ := by
  have hmin : DirEntry.minFreeSize = 8 := rfl
  have hgpre : ∀ k ∈ pre, ¬ Chunk.IsGap k := fun k hk => hg k (by simp [hk])
  have hgpre' : ∀ k ∈ pre', ¬ Chunk.IsGap k := fun k hk =>
    hgpre k (by rw [hm.pre_eq]; simp [hk])
  have hhead := hc.header
  have hlarge : DirEntry.minFreeSize ≤ List.length c := by omega
  have hlens : pre.flatten.length = pre'.flatten.length + left.flatten.length := by
    rw [hm.pre_eq, List.flatten_append, List.length_append]
  have htotal : pre.flatten.length + List.length c + right.flatten.length +
      post'.flatten.length = BLOCK_SIZE := by
    rw [← h.layout.size_eq, hm.post_eq]
    simp only [List.flatten_append, List.flatten_cons, List.length_append]
    omega
  have hm9 : 9 ≤ mergedLen left c right := by
    rw [mergedLen]
    omega
  have hmle : mergedLen left c right ≤ BLOCK_SIZE := by
    rw [mergedLen]
    omega
  have hbs : BLOCK_SIZE = 256 := rfl
  have hm16 : mergedLen left c right < 2 ^ 16 := by omega
  have hm8 : DirEntry.minFreeSize ≤ mergedLen left c right := by omega
  have hlay : TidyLayout gaps (b.splice pre'.flatten.length
      (DirEntry.free (mergedLen left c right)).bytes)
      (pre' ++ (DirEntry.free (mergedLen left c right)).bytes :: post') := by
    refine ⟨Block.merged_chunks h.bytes hm hlarge, ?_⟩
    intro k hk
    rcases List.mem_append.mp hk with hk | hk
    · exact h.tidy k (by rw [hm.pre_eq]; simp [hk])
    rcases List.mem_cons.mp hk with rfl | hk
    · exact Chunk.tidy_free hm8 hm16
    · exact h.tidy k (by rw [hm.post_eq]; simp [hk])
  refine ⟨⟨_, hlay⟩, ?_⟩
  -- the walk over one free neighbour, if there is one
  have hside : ∀ (side rest : List Chunk) (off : Nat), (∀ k ∈ side, k.IsFree) →
      side.length ≤ 1 → ∃ l : List (Nat × Slot), (∀ x ∈ l, x.2.isFree = true) ∧ l.length ≤ 1 ∧
        slotsOf off (side ++ rest) = l ++ slotsOf (off + side.flatten.length) rest := by
    intro side rest off hfree hle
    rcases side with _ | ⟨k, _ | ⟨k', side⟩⟩
    · exact ⟨[], by simp, by simp, by simp⟩
    · have hk := hfree k (by simp)
      by_cases h9 : off + 9 ≤ BLOCK_SIZE
      · refine ⟨[(off, .free (List.length k))], by simp [Slot.isFree], by simp, ?_⟩
        rw [List.singleton_append, slotsOf_cons h9 hk.not_gap, hk.slot_eq]
        simp
      · -- its header ends with the block, and nothing follows
        refine ⟨[], by simp, by simp, ?_⟩
        rw [slotsOf_end (by omega), slotsOf_end (by omega), List.nil_append]
    · simp at hle
  obtain ⟨l, hl, hll, hlslots⟩ := hside left (c :: post) pre'.flatten.length hm.left_free
    hm.left_le
  obtain ⟨r, hr, hrl, hrslots⟩ := hside right post' (pre.flatten.length + List.length c)
    hm.right_free hm.right_le
  refine ⟨slotsOf 0 pre', l, r,
    slotsOf (pre.flatten.length + List.length c + right.flatten.length) post', ?_, hll, hrl,
    ?_, ?_⟩
  · intro x hx
    rcases List.mem_append.mp hx with hx | hx
    · exact hl x hx
    · exact hr x hx
  · have hpre9 : 0 + pre'.flatten.length + 9 ≤ BLOCK_SIZE := by omega
    have hcs : pre ++ c :: post = pre' ++ (left ++ c :: post) := by
      rw [hm.pre_eq, List.append_assoc]
    rw [h.layout.slots_eq, hcs, slotsOf_append hgpre' hpre9, Nat.zero_add, hlslots, ← hlens,
      slotsOf_cons h9 hc.not_gap, hc.slot_eq, ← hrslots, ← hm.post_eq, List.append_assoc]
  · have hpre9 : 0 + pre'.flatten.length + 9 ≤ BLOCK_SIZE := by omega
    rw [hlay.layout.slots_eq, slotsOf_append hgpre' hpre9, Nat.zero_add,
      slotsOf_cons (by omega) (DirEntry.free_isFree hm8 hm16).not_gap,
      DirEntry.slot_free_bytes hm8 hm16, DirEntry.free_bytes_length hm8]
    congr 3
    rw [mergedLen]
    omega

end Free

/-! ## Walks that do not fail -/

section Walk

open DirectoryHandler

variable {σ α : Type} {callback : Callback α} {b : Block} {block : Nat} {s : σ}

theorem iterateBlock_chunks : ∀ (post pre : List Chunk) (fuel : Nat) (acc : α),
    b.bytes = (pre ++ post).flatten → (∀ c ∈ post, c.Tidy false) →
    Prog.wp (iterateBlock callback b block fuel pre.flatten.length acc) (fun _ _ => True)
      (fun _ _ => False) s := by
  intro post
  induction post with
  | nil =>
      intro pre fuel acc hb _
      cases fuel with
      | zero => trivial
      | succ fuel =>
          have hend : ¬ pre.flatten.length < BLOCK_SIZE := by
            rw [List.append_nil] at hb
            rw [← hb, b.size]
            exact Nat.lt_irrefl _
          refine Prog.wp_ite (fun hlt => absurd hlt hend) fun _ => trivial
  | cons c post ih =>
      intro pre fuel acc hb htidy
      cases fuel with
      | zero => trivial
      | succ fuel =>
          have hc := htidy c List.mem_cons_self
          have hg : ¬ c.IsGap := by
            rcases hc with hl | ⟨hf, -⟩ | ⟨hgaps, -⟩
            · exact hl.not_gap
            · exact hf.not_gap
            · cases hgaps
          refine Prog.wp_ite (fun _ => ?_) fun _ => trivial
          refine wp_deserialize fun h9 => ?_
          refine Prog.wp_bind.mpr (Prog.wp_unwrap fun res _ => ?_)
          have hsound := (Layout.sound_iff hb hc.ok).mpr ⟨h9, hg⟩
          refine Prog.wp_guard (fun hover => ?_) fun _ => ?_
          · have := hsound.2.2
            omega
          refine Prog.wp_guard (fun hzero => absurd hzero hsound.2.1) fun _ => ?_
          refine Prog.wp_ite (fun _ => trivial) fun _ => ?_
          have hnext : (pre ++ [c]).flatten.length = pre.flatten.length +
              (DirEntry.ofBytes b pre.flatten.length).recordLen := by
            rw [(Layout.slot_ofBytes hb hc.ok hg).2]
            simp
          rw [← hnext]
          exact ih (pre ++ [c]) fuel res.1 (by simpa using hb) fun x hx =>
            htidy x (List.mem_cons_of_mem _ hx)

/-- The walk over well-formed blocks reports no error. -/
theorem Geom.wpr_iterate_tidy {g : Geom} {v : View} {n : INode} {acc : α}
    (hm : n.Mapped g v.data)
    (htidy : ∀ b ∈ n.content v.data, ∃ cs, TidyLayout false (v.data b) cs) :
    Prog.wpr g.Holds (g.directoryHandler.iterate n g.inodeHandler callback acc)
      (fun _ _ => True) (fun _ _ => False) v := by
  have hblocks : ∀ (is : List Nat) (acc : α), (∀ i ∈ is, i < n.blocks) →
      Prog.wpr g.Holds (g.directoryHandler.iterateBlocks n g.inodeHandler callback is acc)
        (fun _ _ => True) (fun _ _ => False) v := by
    intro is
    induction is with
    | nil => exact fun acc _ => Prog.wpr_pure trivial
    | cons i is ih =>
        intro acc his
        have hi := his i List.mem_cons_self
        have hmem := @INode.blockAt_mem_content n v.data i hi
        have hb := hm.content _ hmem
        refine (runs_getBlock hi hm.blocks_le hm.pointers).seq ?_
        refine (Prog.Runs.checkedAdd (by rw [Nat.add_comm]; exact ptr_small hb)).seq ?_
        rw [Nat.add_comm]
        refine (runs_readData hb).seq ?_
        obtain ⟨cs, hlay⟩ := htidy _ hmem
        refine Prog.wpr_seq (P := fun _ v' => v' = v) (F := fun _ _ => False) ?_ ?_
          fun _ _ he => he.elim
        · intro d hd
          have hwalk := @iterateBlock_chunks _ _ callback _ (n.blockAt v.data i) d cs []
            BLOCK_SIZE acc hlay.bytes hlay.tidy
          refine Prog.wp_mono (Prog.wp_and hwalk
            (wp_iterateBlock (Nat.le_add_left _ _) (Nat.zero_le _))) ?_ ?_
          · intro r d' hr
            exact ⟨v, hr.2.1 ▸ hd, rfl⟩
          · intro e d' he
            exact he.1.elim
        · intro r v' hv
          subst hv
          exact Prog.wpr_ite (fun _ => Prog.wpr_pure trivial) fun _ =>
            ih _ fun k hk => his k (List.mem_cons_of_mem _ hk)
  exact hblocks _ acc fun i hi => List.mem_range.mp hi

end Walk

end FerrisFS
