import FerrisFS.V1.Enter

/-!
# What a listing shows after an insertion

The live records that a walk meets from an offset on depend on the bytes from there on
only. An insertion therefore adds its record to the listing of the block, and the walk
goes on where it went on before; unless exactly `min_free_size` bytes are left over. These
are not written, and the walk goes on among them.
-/

namespace FerrisFS

open Lib

namespace Block

/-- The live records from `off` on. -/
def liveFrom (b : Block) (off : Nat) : List DirEntry :=
  ((b.recordsFrom BLOCK_SIZE off).map Prod.snd).filter fun e => !e.isFree

/-- The walk from `off` on reaches the end of the block. -/
def Ends (b : Block) (off : Nat) : Prop := b.stopFrom BLOCK_SIZE off = BLOCK_SIZE

instance (b : Block) (off : Nat) : Decidable (b.Ends off) :=
  inferInstanceAs (Decidable (_ = _))

variable {b b' : Block} {off : Nat}

/-- One step of the walk. -/
theorem recordsFrom_step (h : b.Sound off) : b.recordsFrom BLOCK_SIZE off =
    (off, DirEntry.ofBytes b off) ::
      b.recordsFrom BLOCK_SIZE (off + (DirEntry.ofBytes b off).recordLen) := by
  have hfuel : b.recordsFrom BLOCK_SIZE off = b.recordsFrom (BLOCK_SIZE + 1) off :=
    recordsFrom_fuel (Nat.le_add_left _ _) (by omega)
  rw [hfuel, recordsFrom, if_pos h]

theorem liveFrom_free (h : b.Sound off) (hfree : (DirEntry.ofBytes b off).isFree = true) :
    b.liveFrom off = b.liveFrom (off + (DirEntry.ofBytes b off).recordLen) := by
  rw [liveFrom, recordsFrom_step h, List.map_cons, List.filter_cons_of_neg (by simp [hfree])]
  rfl

theorem liveFrom_live (h : b.Sound off) (hlive : (DirEntry.ofBytes b off).isFree = false) :
    b.liveFrom off =
      DirEntry.ofBytes b off :: b.liveFrom (off + (DirEntry.ofBytes b off).recordLen) := by
  rw [liveFrom, recordsFrom_step h, List.map_cons, List.filter_cons_of_pos (by simp [hlive])]
  rfl

theorem ends_step (h : b.Sound off) :
    b.Ends off ↔ b.Ends (off + (DirEntry.ofBytes b off).recordLen) := by
  have hfuel : b.stopFrom BLOCK_SIZE off = b.stopFrom (BLOCK_SIZE + 1) off :=
    stopFrom_fuel (Nat.le_add_left _ _) (by omega)
  rw [Ends, hfuel, stopFrom, if_pos h]
  rfl

/-- The record at an offset is read from the bytes behind it. -/
theorem ofBytes_congr {off o : Nat} (h : b'.bytes.drop off = b.bytes.drop off) (ho : off ≤ o) :
    DirEntry.ofBytes b' o = DirEntry.ofBytes b o := by
  have hdrop : ∀ k, b'.bytes.drop (o + k) = b.bytes.drop (o + k) := by
    intro k
    have hk : o + k = off + (o + k - off) := by omega
    rw [hk, ← List.drop_drop, ← List.drop_drop, h]
  have hslice : ∀ k n, b'.slice (o + k) n = b.slice (o + k) n := by
    intro k n
    rw [Block.slice, Block.slice, Lib.slice, Lib.slice, hdrop]
  have hbyte : b'.byte (o + 8) = b.byte (o + 8) := by
    have hget : ∀ l : List UInt8, l.getD (o + 8) 0 = (l.drop (o + 8)).headD 0 := by
      intro l
      rw [List.getD_eq_getElem?_getD, List.headD_eq_head?_getD, List.head?_drop]
    rw [Block.byte, Block.byte, hget, hget, hdrop]
  have hino : b'.u32 o = b.u32 o := congrArg leNat (hslice 0 4)
  simp only [DirEntry.ofBytes, hslice, hbyte, hino]

theorem recordsFrom_congr (h : b'.bytes.drop off = b.bytes.drop off) :
    ∀ {fuel o : Nat}, off ≤ o → b'.recordsFrom fuel o = b.recordsFrom fuel o ∧
      b'.stopFrom fuel o = b.stopFrom fuel o := by
  intro fuel
  induction fuel with
  | zero => exact fun _ => ⟨rfl, rfl⟩
  | succ fuel ih =>
      intro o ho
      have hread := ofBytes_congr h ho
      have hsound : b'.Sound o ↔ b.Sound o := by
        rw [Sound, Sound, hread]
      have hrest := @ih (o + (DirEntry.ofBytes b o).recordLen) (by omega)
      by_cases hs : b.Sound o
      · simp only [recordsFrom, stopFrom, hsound.mpr hs, hs, if_true, hread, hrest, and_self]
      · have hs' : ¬ b'.Sound o := fun h => hs (hsound.mp h)
        simp only [recordsFrom, stopFrom, hs', hs, if_false, and_self]

theorem liveFrom_congr (h : b'.bytes.drop off = b.bytes.drop off) :
    b'.liveFrom off = b.liveFrom off := by
  rw [liveFrom, liveFrom, (recordsFrom_congr h (Nat.le_refl _)).1]

theorem ends_congr (h : b'.bytes.drop off = b.bytes.drop off) : b'.Ends off ↔ b.Ends off := by
  rw [Ends, Ends, (recordsFrom_congr h (Nat.le_refl _)).2]

end Block

/-- The records that live chunks encode. -/
def livesOf (cs : List Chunk) : List DirEntry :=
  cs.filterMap fun c => if c.inode = INVALID_ADDRESS then none else some c.entry

theorem livesOf_free {c : Chunk} {cs : List Chunk} (h : c.inode = INVALID_ADDRESS) :
    livesOf (c :: cs) = livesOf cs :=
  List.filterMap_cons_none (if_pos h)

theorem livesOf_live {c : Chunk} {cs : List Chunk} (h : c.inode ≠ INVALID_ADDRESS) :
    livesOf (c :: cs) = c.entry :: livesOf cs :=
  List.filterMap_cons_some (if_neg h)

/-- The walk over chunks in the middle of a block. -/
theorem Block.liveFrom_chunks {b : Block} {post : List Chunk} : ∀ (mid pre : List Chunk),
    b.bytes = (pre ++ (mid ++ post)).flatten → (∀ c ∈ mid, c.Ok ∧ ¬ c.IsGap) →
    (pre ++ mid).flatten.length + 9 ≤ BLOCK_SIZE →
    b.liveFrom pre.flatten.length = livesOf mid ++ b.liveFrom (pre ++ mid).flatten.length ∧
      (b.Ends pre.flatten.length ↔ b.Ends (pre ++ mid).flatten.length) := by
  intro mid
  induction mid with
  | nil =>
      intro pre _ _ _
      rw [List.append_nil]
      exact ⟨rfl, Iff.rfl⟩
  | cons c mid ih =>
      intro pre hb hok h9
      obtain ⟨hc, hg⟩ := hok c List.mem_cons_self
      have hbytes : b.bytes = (pre ++ c :: (mid ++ post)).flatten := hb
      have hle : pre.flatten.length + 9 ≤ BLOCK_SIZE := by
        rw [List.flatten_append, List.length_append] at h9
        omega
      have hsound := (Layout.sound_iff hbytes hc).mpr ⟨hle, hg⟩
      obtain ⟨hslot, hlen⟩ := Layout.slot_ofBytes hbytes hc hg
      have hnext : pre.flatten.length + (DirEntry.ofBytes b pre.flatten.length).recordLen =
          (pre ++ [c]).flatten.length := by
        rw [hlen]
        simp
      obtain ⟨hrest, hends⟩ := ih (pre ++ [c]) (by simpa using hb)
        (fun k hk => hok k (List.mem_cons_of_mem _ hk)) (by simpa using h9)
      have happ : pre ++ c :: mid = pre ++ [c] ++ mid := by simp
      rw [happ]
      refine ⟨?_, ?_⟩
      · rw [Chunk.slot, DirEntry.slot] at hslot
        by_cases hfree : (DirEntry.ofBytes b pre.flatten.length).isFree = true
        · rw [if_pos hfree] at hslot
          have hino : c.inode = INVALID_ADDRESS := by
            by_contra hne
            rw [if_neg hne] at hslot
            cases hslot
          rw [Block.liveFrom_free hsound hfree, hnext, hrest, livesOf_free hino]
        · rw [if_neg hfree] at hslot
          have hino : c.inode ≠ INVALID_ADDRESS := by
            intro heq
            rw [if_pos heq] at hslot
            cases hslot
          rw [if_neg hino] at hslot
          rw [Block.liveFrom_live hsound (by simpa using hfree), hnext, hrest,
            livesOf_live hino, Slot.live.inj hslot]
          rfl
      · rw [Block.ends_step hsound, hnext]
        exact hends

/-- Where the walk goes on behind a record of `len` bytes that is entered at `off` in a
free region of `n` bytes. -/
def resumeAt (n len off : Nat) : Nat :=
  if n = len + DirEntry.minFreeSize then off + len else off + n

/-- An insertion, as a listing shows it. -/
theorem TidyLayout.insertAt_live {b : Block} {cs : List Chunk} {off n : Nat} {entry : DirEntry}
    (h : TidyLayout false b cs) (hs : (off, Slot.free n) ∈ b.slots) (he : entry.Valid)
    (hroom : n = entry.recordLen ∨ entry.recordLen + DirEntry.minFreeSize ≤ n) :
    ∃ l, b.entries = l ++ b.liveFrom (off + n) ∧ (b.Complete ↔ b.Ends (off + n)) ∧
      (b.insertAt entry off).entries =
        l ++ entry :: b.liveFrom (resumeAt n entry.recordLen off) ∧
      ((b.insertAt entry off).Complete ↔ b.Ends (resumeAt n entry.recordLen off)) := by
  obtain ⟨pre, c, post, rfl, rfl, hslot, h9, hg⟩ := h.chunk_of_slot hs
  have hgc : ¬ c.IsGap := hg c (by simp)
  have hok : ∀ k ∈ pre, k.Ok ∧ ¬ k.IsGap := fun k hk =>
    ⟨(h.tidy k (by simp [hk])).ok, hg k (by simp [hk])⟩
  have hcok := (h.tidy c (by simp)).ok
  obtain ⟨hcf, hclen, -⟩ := (h.tidy c (by simp)).of_free hgc hslot
  obtain ⟨hr9, hr76, hr12⟩ := he.recordLen_bounds
  have hmin : DirEntry.minFreeSize = 8 := rfl
  have hbs : BLOCK_SIZE = 256 := rfl
  have hbytes := Block.insertAt_chunks h.bytes hcf he (by rw [hclen]; exact hroom)
  rw [hclen] at hbytes
  -- up to the region both walks are the same
  have hold := @Block.liveFrom_chunks b (c :: post) pre [] h.bytes hok h9
  have hsound := (Layout.sound_iff h.bytes hcok).mpr ⟨h9, hgc⟩
  obtain ⟨hslot', hlen⟩ := Layout.slot_ofBytes h.bytes hcok hgc
  have hfree : (DirEntry.ofBytes b pre.flatten.length).isFree = true := by
    by_contra hne
    rw [hslot, DirEntry.slot, if_neg hne] at hslot'
    cases hslot'
  rw [hclen] at hlen
  have hoff : ([] ++ pre).flatten.length = pre.flatten.length := rfl
  rw [hoff, Block.liveFrom_free hsound hfree, hlen] at hold
  rw [Block.ends_step hsound, hlen] at hold
  obtain ⟨hentries, hcomplete⟩ := hold
  refine ⟨livesOf pre, hentries, hcomplete, ?_⟩
  -- the new record is read, and the walk goes on behind it
  have hentry : ∀ rest : List Chunk, (b.insertAt entry pre.flatten.length).bytes =
      (pre ++ entry.bytes :: rest).flatten →
      (b.insertAt entry pre.flatten.length).entries = livesOf pre ++ entry ::
        (b.insertAt entry pre.flatten.length).liveFrom (pre.flatten.length + entry.recordLen) ∧
      ((b.insertAt entry pre.flatten.length).Complete ↔
        (b.insertAt entry pre.flatten.length).Ends
          (pre.flatten.length + entry.recordLen)) := by
    intro rest hrest
    have hlive := he.isLive
    have hnew := @Block.liveFrom_chunks _ (entry.bytes :: rest) pre [] hrest hok h9
    have hsound := (Layout.sound_iff hrest (.inl hlive)).mpr ⟨h9, hlive.not_gap⟩
    have hread : DirEntry.ofBytes (b.insertAt entry pre.flatten.length) pre.flatten.length =
        entry := by
      rw [hlive.ofBytes_eq (by simpa using hrest), he.entry_bytes]
    rw [hoff, Block.liveFrom_live hsound (by rw [hread]; exact he.not_free), hread] at hnew
    rw [Block.ends_step hsound, hread] at hnew
    exact hnew
  have hb : b.bytes = pre.flatten ++ c ++ post.flatten := by
    rw [h.bytes]
    simp
  by_cases heq : n = entry.recordLen
  · rw [if_pos (by omega)] at hbytes
    obtain ⟨hlist, hends⟩ := hentry post (by rw [hbytes]; simp)
    have hdrop : (b.insertAt entry pre.flatten.length).bytes.drop
        (pre.flatten.length + entry.recordLen) =
        b.bytes.drop (pre.flatten.length + entry.recordLen) := by
      have hb' : (b.insertAt entry pre.flatten.length).bytes =
          pre.flatten ++ entry.bytes ++ post.flatten := by
        rw [hbytes]
        simp
      rw [hb, hb', List.drop_left' (by simp [he.bytes_length]),
        List.drop_left' (by simp [hclen, heq])]
    rw [Block.liveFrom_congr hdrop] at hlist
    rw [Block.ends_congr hdrop] at hends
    rw [resumeAt, if_neg (by omega), heq]
    exact ⟨hlist, hends⟩
  by_cases hgap : n = entry.recordLen + DirEntry.minFreeSize
  · rw [if_neg (by omega), if_pos (by omega)] at hbytes
    obtain ⟨hlist, hends⟩ := hentry (c.drop entry.recordLen :: post) (by rw [hbytes]; simp)
    have hdrop : (b.insertAt entry pre.flatten.length).bytes.drop
        (pre.flatten.length + entry.recordLen) =
        b.bytes.drop (pre.flatten.length + entry.recordLen) := by
      have hb' : (b.insertAt entry pre.flatten.length).bytes =
          pre.flatten ++ entry.bytes ++ (c.drop entry.recordLen ++ post.flatten) := by
        rw [hbytes]
        simp
      have hb : b.bytes = pre.flatten ++ c.take entry.recordLen ++
          (c.drop entry.recordLen ++ post.flatten) := by
        rw [hb, List.append_assoc, List.append_assoc, ← List.append_assoc (c.take _),
          List.take_append_drop]
      have htake : (c.take entry.recordLen).length = entry.recordLen := by
        rw [List.length_take, hclen]
        omega
      rw [hb, hb', List.drop_left' (by simp [he.bytes_length]), List.drop_left' (by simp [htake])]
    rw [Block.liveFrom_congr hdrop] at hlist
    rw [Block.ends_congr hdrop] at hends
    rw [resumeAt, if_pos hgap]
    exact ⟨hlist, hends⟩
  · have hrest8 : DirEntry.minFreeSize ≤ n - entry.recordLen := by omega
    have hle : pre.flatten.length + n ≤ BLOCK_SIZE := by
      have := @Block.chunk_le b pre.flatten post.flatten c (by rw [hb, List.append_assoc])
      omega
    have hfreeChunk := DirEntry.free_isFree hrest8 (by omega)
    have hfreeLen := DirEntry.free_bytes_length hrest8
    rw [if_neg (by omega), if_neg (by omega)] at hbytes
    have hbytes' : (b.insertAt entry pre.flatten.length).bytes =
        ((pre ++ [entry.bytes]) ++
          (DirEntry.free (n - entry.recordLen)).bytes :: post).flatten := by
      rw [hbytes]
      simp
    obtain ⟨hlist, hends⟩ := hentry ((DirEntry.free (n - entry.recordLen)).bytes :: post)
      (by rw [hbytes]; simp)
    have hpos : (pre ++ [entry.bytes]).flatten.length =
        pre.flatten.length + entry.recordLen := by
      simp [he.bytes_length]
    -- the rest of the region is a free record
    have hsound := (Layout.sound_iff hbytes' (.inr (.inl hfreeChunk))).mpr
      ⟨by omega, hfreeChunk.not_gap⟩
    obtain ⟨hslot, hlen⟩ := Layout.slot_ofBytes hbytes' (.inr (.inl hfreeChunk))
      hfreeChunk.not_gap
    rw [hpos] at hsound hslot hlen
    rw [hfreeLen] at hlen
    have hfree : (DirEntry.ofBytes (b.insertAt entry pre.flatten.length)
        (pre.flatten.length + entry.recordLen)).isFree = true := by
      by_contra hne
      rw [DirEntry.slot, if_neg hne, hfreeChunk.slot_eq] at hslot
      cases hslot
    have hnext : pre.flatten.length + entry.recordLen + (n - entry.recordLen) =
        pre.flatten.length + n := by omega
    have hdrop : (b.insertAt entry pre.flatten.length).bytes.drop (pre.flatten.length + n) =
        b.bytes.drop (pre.flatten.length + n) := by
      have hb' : (b.insertAt entry pre.flatten.length).bytes = pre.flatten ++
          (entry.bytes ++ (DirEntry.free (n - entry.recordLen)).bytes) ++ post.flatten := by
        rw [hbytes]
        simp
      rw [hb, hb', List.drop_left' (by
        rw [List.length_append, List.length_append, he.bytes_length, hfreeLen]
        omega), List.drop_left' (by simp [hclen])]
    rw [Block.liveFrom_free hsound hfree, hlen, hnext, Block.liveFrom_congr hdrop] at hlist
    rw [Block.ends_step hsound, hlen, hnext, Block.ends_congr hdrop] at hends
    rw [resumeAt, if_neg hgap]
    exact ⟨hlist, hends⟩

/-! ## Directories -/

theorem Block.mem_entries {b : Block} {e : DirEntry} :
    e ∈ b.entries ↔ (∃ off, (off, e) ∈ b.records) ∧ e.isFree = false := by
  rw [Block.entries, List.mem_filter, List.mem_map]
  simp

theorem INode.mem_entries {data : Region} {n : INode} {e : DirEntry} :
    e ∈ n.entries data ↔ ∃ b ∈ n.content data, (∃ off, (off, e) ∈ (data b).records) ∧
      e.isFree = false := by
  simp only [INode.entries, List.mem_flatMap, Block.mem_entries]

/-- The entry of a slot in use. -/
def Slot.entry? : Slot → Option DirEntry
  | .live e => some e
  | .free _ => none

theorem Block.entries_slots (b : Block) :
    b.entries = b.slots.filterMap fun x => Slot.entry? x.2 := by
  rw [Block.entries, Block.slots, List.filterMap_map]
  generalize b.records = l
  induction l with
  | nil => rfl
  | cons x l ih =>
      by_cases hfree : x.2.isFree = true
      · rw [List.map_cons, List.filter_cons_of_neg (by simp [hfree]), ih,
          List.filterMap_cons_none]
        simp [DirEntry.slot, hfree, Slot.entry?]
      · rw [List.map_cons, List.filter_cons_of_pos (by simpa using hfree), ih,
          List.filterMap_cons_some]
        simp [DirEntry.slot, hfree, Slot.entry?]

/-- A block added for one record. -/
theorem Block.growBlock_entries {entry : DirEntry} (he : entry.Valid) :
    (Block.growBlock entry).entries = [entry] ∧ (Block.growBlock entry).Complete := by
  obtain ⟨hr9, hr76, hr12⟩ := he.recordLen_bounds
  have hbs : BLOCK_SIZE = 256 := rfl
  have hmin : DirEntry.minFreeSize ≤ BLOCK_SIZE - entry.recordLen := by
    rw [Chunk.minFreeSize_eq]
    omega
  have hfree := DirEntry.free_isFree hmin (by omega)
  have hlay : Layout (Block.growBlock entry)
      [entry.bytes, (DirEntry.free (BLOCK_SIZE - entry.recordLen)).bytes] := by
    refine ⟨Block.growBlock_chunks he, ?_⟩
    intro c hc
    rcases List.mem_pair.mp hc with rfl | rfl
    · exact .inl he.isLive
    · exact .inr (.inl hfree)
  constructor
  · rw [Block.entries_slots, (@TidyLayout.growBlock false _ he).2]
    rfl
  · refine hlay.complete_iff.mpr ⟨by omega, he.isLive.not_gap, ?_, hfree.not_gap, trivial⟩
    rw [he.bytes_length]
    omega

theorem flatMap_entries_congr {data data' : Region} {bs : List Nat}
    (h : ∀ b ∈ bs, data' b = data b) :
    (bs.flatMap fun b => (data' b).entries) = bs.flatMap fun b => (data b).entries :=
  List.flatMap_congr fun b hb => by rw [h b hb]

namespace Entered

variable {data data' : Region} {n n' : INode} {entry : DirEntry} {fit : Option (Nat × Nat)}
  {fresh : List Nat}

/-- If exactly `min_free_size` bytes of the region are left over, the walk over the old
block from there on meets what it meets behind them, and reaches the end. -/
def Resumes (data : Region) (entry : DirEntry) (fit : Option (Nat × Nat)) : Prop :=
  ∀ b off, fit = some (b, off) →
    (DirEntry.ofBytes (data b) off).recordLen = entry.recordLen + DirEntry.minFreeSize →
    (data b).Ends (off + entry.recordLen) ∧
      ((data b).liveFrom (off + entry.recordLen)).Perm
        ((data b).liveFrom (off + entry.recordLen + DirEntry.minFreeSize))

/-- The directory can be listed afterwards, and shows one record more. -/
def Lists (data data' : Region) (n n' : INode) (entry : DirEntry) : Prop :=
  (∀ b ∈ n'.content data', (data' b).Complete) ∧
    (n'.entries data').Perm (entry :: n.entries data)

theorem lists_grow {blk : Nat} {pool : List Nat} {data₁ : Region} {n₁ : INode}
    (hc : Clear data n (blk :: pool)) (he : entry.Valid)
    (hall : ∀ b ∈ n.content data, (data b).Complete) (hmax : n.blocks < INode.MAX_BLOCKS)
    (hpool : pool.length = INodeTableHandler.blocksNecessaryToGrow n)
    (hgrown : INode.Grown data n data₁ n₁ [blk] pool) :
    Lists data (Function.update data₁ blk (Block.growBlock entry)) n
      { n₁ with size := n₁.size + BLOCK_SIZE } entry := by
  have hent : Entered data n entry none (blk :: pool)
      (Function.update data₁ blk (Block.growBlock entry))
      { n₁ with size := n₁.size + BLOCK_SIZE } := .grow hmax hpool hgrown
  have hcontent := hent.content_eq hc
  rw [List.take_one, List.head?_cons, Option.toList_some] at hcontent
  have hframe : ∀ b ∈ n.content data,
      Function.update data₁ blk (Block.growBlock entry) b = data b := by
    intro b hb
    have hne : b ≠ blk := by
      rintro rfl
      exact hc.disjoint b List.mem_cons_self (List.mem_append_left _ hb)
    rw [Function.update_of_ne hne]
    refine hgrown.frame b fun hmem => ?_
    rcases List.mem_append.mp hmem with hmem | hmem
    · exact (List.nodup_append.mp hc.own).2.2 _ hb _ hmem rfl
    · exact hc.disjoint b (List.mem_cons_of_mem _ hmem) (List.mem_append_left _ hb)
  obtain ⟨hentries, hcomplete⟩ := Block.growBlock_entries he
  constructor
  · intro b hb
    rw [hcontent] at hb
    rcases List.mem_append.mp hb with hb | hb
    · rw [hframe b hb]
      exact hall b hb
    · rw [List.mem_singleton.mp hb, Function.update_self]
      exact hcomplete
  · rw [INode.entries, hcontent, List.flatMap_append, flatMap_entries_congr hframe,
      List.flatMap_singleton, Function.update_self, hentries]
    exact List.perm_append_singleton _ _

theorem lists_here {b off : Nat} {e : DirEntry} (hc : Clear data n []) (he : entry.Valid)
    (hrows : Rows false data n) (hall : ∀ b ∈ n.content data, (data b).Complete)
    (hb : b ∈ n.content data) (hmem : (off, e) ∈ (data b).records)
    (hfit : DirectoryHandler.Fits entry e) :
    Lists data (Function.update data b ((data b).insertAt entry off)) n n entry ↔
      Resumes data entry (some (b, off)) := by
  obtain ⟨cs, hlay⟩ := hrows b hb
  obtain ⟨-, heq, -⟩ := Block.recordsFrom_sound hmem
  have hslot : (off, Slot.free e.recordLen) ∈ (data b).slots := by
    refine List.mem_map.mpr ⟨(off, e), hmem, ?_⟩
    simp [DirEntry.slot, hfit.1]
  have hroom : e.recordLen = entry.recordLen ∨
      entry.recordLen + DirEntry.minFreeSize ≤ e.recordLen := hfit.2.symm
  obtain ⟨l, hold, hends, hnew, hends'⟩ := hlay.insertAt_live hslot he hroom
  have hcontent := (Entered.here (n := n) hb hmem hfit).content_eq hc
  rw [List.take_nil, List.append_nil] at hcontent
  -- the block occurs once
  obtain ⟨l₁, l₂, hsplit⟩ := List.append_of_mem hb
  have hnodup := (List.nodup_append.mp hc.own).1
  rw [hsplit] at hnodup
  have hnot : ∀ b' ∈ l₁ ++ l₂, b' ≠ b := by
    rintro b' hb' rfl
    exact (List.nodup_cons.mp (List.nodup_middle.mp hnodup)).1 hb'
  have hframe : ∀ b' ∈ l₁ ++ l₂,
      Function.update data b ((data b).insertAt entry off) b' = data b' :=
    fun b' hb' => Function.update_of_ne (hnot b' hb') _ _
  have hcomplete : (∀ b' ∈ n.content (Function.update data b ((data b).insertAt entry off)),
      (Function.update data b ((data b).insertAt entry off) b').Complete) ↔
      (data b).Ends (resumeAt e.recordLen entry.recordLen off) := by
    rw [hcontent, ← hends']
    constructor
    · intro h
      have := h b hb
      rwa [Function.update_self] at this
    · intro h b' hb'
      by_cases hbb : b' = b
      · rw [hbb, Function.update_self]
        exact h
      · rw [Function.update_of_ne hbb]
        exact hall b' hb'
  have hperm : (n.entries (Function.update data b ((data b).insertAt entry off))).Perm
        (entry :: n.entries data) ↔
      ((data b).liveFrom (resumeAt e.recordLen entry.recordLen off)).Perm
        ((data b).liveFrom (off + e.recordLen)) := by
    rw [INode.entries, INode.entries, hcontent, hsplit, List.flatMap_append, List.flatMap_append,
      List.flatMap_cons, List.flatMap_cons, Function.update_self, hold, hnew,
      flatMap_entries_congr fun b' hb' => hframe b' (List.mem_append_left _ hb'),
      flatMap_entries_congr fun b' hb' => hframe b' (List.mem_append_right _ hb')]
    simp only [List.perm_iff_count, List.count_append, List.count_cons]
    refine forall_congr' fun x => ?_
    omega
  rw [Lists, hcomplete, hperm]
  constructor
  · rintro ⟨hstop, hlive⟩ b' off' heq' hgap
    cases heq'
    rw [← heq] at hgap
    rw [resumeAt, if_pos hgap] at hstop hlive
    rw [hgap, ← Nat.add_assoc] at hlive
    exact ⟨hstop, hlive⟩
  · intro hres
    by_cases hgap : e.recordLen = entry.recordLen + DirEntry.minFreeSize
    · rw [resumeAt, if_pos hgap, hgap, ← Nat.add_assoc]
      exact hres b off rfl (heq ▸ hgap)
    · rw [resumeAt, if_neg hgap]
      exact ⟨hends.mp (hall b hb), List.Perm.refl _⟩

theorem Resumes.congr {entry' : DirEntry} (hlen : entry'.recordLen = entry.recordLen)
    (hdata : ∀ b off, fit = some (b, off) → data' b = data b) :
    Resumes data' entry' fit ↔ Resumes data entry fit := by
  refine forall₂_congr fun b off => forall_congr' fun hfit => ?_
  rw [hdata b off hfit, hlen]

/-- The new record is in the listing, whatever follows it. -/
theorem mem_entries (h : Entered data n entry fit fresh data' n') (hc : Clear data n fresh)
    (he : entry.Valid) (hrows : Rows false data n) : entry ∈ n'.entries data' := by
  have hcontent := h.content_eq hc
  cases h with
  | @here b off e hb hmem hfit =>
      obtain ⟨cs, hlay⟩ := hrows b hb
      have hslot : (off, Slot.free e.recordLen) ∈ (data b).slots := by
        refine List.mem_map.mpr ⟨(off, e), hmem, ?_⟩
        simp [DirEntry.slot, hfit.1]
      obtain ⟨l, -, -, hnew, -⟩ := hlay.insertAt_live hslot he hfit.2.symm
      refine List.mem_flatMap.mpr ⟨b, ?_, ?_⟩
      · rw [hcontent]
        exact List.mem_append_left _ hb
      · rw [Function.update_self, hnew]
        simp
  | @grow blk pool data₁ n₁ hmax hpool hgrown =>
      refine List.mem_flatMap.mpr ⟨blk, ?_, ?_⟩
      · rw [hcontent]
        simp
      · rw [Function.update_self, (Block.growBlock_entries he).1]
        simp

/-- What a directory shows after a record is entered. -/
theorem lists_iff (h : Entered data n entry fit fresh data' n') (hc : Clear data n fresh)
    (he : entry.Valid) (hrows : Rows false data n)
    (hall : ∀ b ∈ n.content data, (data b).Complete) :
    Lists data data' n n' entry ↔ Resumes data entry fit := by
  cases h with
  | here hb hmem hfit => exact lists_here hc he hrows hall hb hmem hfit
  | grow hmax hpool hgrown =>
      refine iff_of_true (lists_grow hc he hall hmax hpool hgrown) ?_
      intro b off heq
      cases heq

end Entered

end FerrisFS
