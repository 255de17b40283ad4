import FerrisFS.V1.Observe

/-!
# The pointer tree of an inode

An inode grows by `add_block` and `add_blocks`, which take pointer blocks from a pool.
Whatever the calls, and whatever is written to other blocks between them, `get_block`
finds the added addresses again.
-/

namespace FerrisFS

open Lib

namespace INodeTableHandler

/-- The data blocks of a device, by their relative addresses. -/
def region (tab : INodeTableHandler) (d : MemoryDevice) : Region :=
  fun p => d.block (tab.dataStart + p)

/-- `d` has the data region `data`, and differs from `d₀` in no other block. -/
structure Above (tab : INodeTableHandler) (d₀ d : MemoryDevice) (data : Region) : Prop where
  count : d.blockCount = d₀.blockCount
  region : tab.region d = data
  below : ∀ k < tab.dataStart, d.block k = d₀.block k

/-- A call that adds blocks to an inode. -/
inductive Growing where
  | addBlock (block : Nat)
  | addBlocks (blocks : List Nat)

namespace Growing

def blocks : Growing → List Nat
  | .addBlock block => [block]
  | .addBlocks blocks => blocks

/-- The pool has to have as many entries. -/
def necessary (n : INode) : Growing → Nat
  | .addBlock _ => blocksNecessaryToGrow n
  | .addBlocks blocks => blocksNecessaryToGrowN n blocks.length

def exec (tab : INodeTableHandler) (n : INode) (pool : List Nat) : Growing → DevM INode
  | .addBlock block => tab.addBlock n block pool
  | .addBlocks blocks => tab.addBlocks n blocks pool

/-- The pool is large enough, and the addresses are data blocks that were not used
before: `bs` were added and `ps` were in a pool. -/
structure Fits (tab : INodeTableHandler) (d : MemoryDevice) (n : INode) (bs ps pool : List Nat)
    (c : Growing) : Prop where
  enough : c.necessary n ≤ pool.length
  distinct : ((bs ++ c.blocks) ++ (ps ++ pool)).Nodup
  data : ∀ p ∈ c.blocks ++ pool, tab.dataStart + p < d.blockCount

end Growing

/-- `n` was built on the device `d` from an empty inode: `bs` were added, with pools made of
`ps`, and nobody else wrote the blocks of the pools. -/
inductive Built (tab : INodeTableHandler) :
    MemoryDevice → INode → List Nat → List Nat → Prop where
  | empty {d : MemoryDevice} {fileType : FileType} {permissions now : Nat} :
      Built tab d (INode.empty fileType permissions now) [] []
  | grow {d d' : MemoryDevice} {n n' : INode} {bs ps pool : List Nat} {c : Growing}
      (h : Built tab d n bs ps) (hfits : c.Fits tab d n bs ps pool)
      (hrun : c.exec tab n pool d = .ok n' d') : Built tab d' n' (bs ++ c.blocks) (ps ++ pool)
  | refused {d d' : MemoryDevice} {n : INode} {bs ps pool : List Nat} {c : Growing} {e : FSError}
      (h : Built tab d n bs ps) (hfits : c.Fits tab d n bs ps pool)
      (hrun : c.exec tab n pool d = .err e d') : Built tab d' n bs (ps ++ pool)
  | other {d d' : MemoryDevice} {n : INode} {bs ps : List Nat} (h : Built tab d n bs ps)
      (hcount : d'.blockCount = d.blockCount)
      (hpools : ∀ p ∈ ps, tab.region d' p = tab.region d p) : Built tab d' n bs ps

variable {tab : INodeTableHandler} {d d₀ d' : MemoryDevice} {n n' : INode}
  {bs ps pool : List Nat} {c : Growing}

theorem blockCount_lt (d : MemoryDevice) : d.blockCount < U32 := Nat.mod_lt _ (by decide)

theorem above_self : tab.Above d d (tab.region d) := ⟨rfl, rfl, fun _ _ => rfl⟩

/-- The blocks from `data_start` on are a data region. -/
theorem above_backed :
    Region.Backed tab.dataStart (d₀.blockCount - tab.dataStart) (tab.Above d₀) where
  small := by
    intro p hp
    have := blockCount_lt d₀
    rw [U32] at this
    omega
  read := by
    intro p data hp d h
    have hlt : tab.dataStart + p < d.blockCount := by
      rw [h.count]
      omega
    refine ⟨d, ?_, h⟩
    rw [readBlock_of_lt hlt, ← h.region]
    rfl
  write := by
    intro p buf data hp d h
    have hlt : tab.dataStart + p < d.blockCount := by
      rw [h.count]
      omega
    refine ⟨_, writeBlock_of_lt hlt, ?_, ?_, ?_⟩
    · rw [MemoryDevice.setBlock_blockCount]
      exact h.count
    · funext q
      show (d.setBlock (tab.dataStart + p) buf).block (tab.dataStart + q) = _
      rw [MemoryDevice.block_setBlock hlt, ← h.region, Function.update_apply]
      by_cases hqp : q = p
      · rw [if_pos hqp, if_pos (by omega)]
      · rw [if_neg hqp, if_neg (by omega)]
        rfl
    · intro k hk
      rw [MemoryDevice.block_setBlock hlt, if_neg (by omega)]
      exact h.below k hk

/-! ## The invariant -/

/-- The tree of `n` holds `bs`, and its pointer blocks come from `ps`. -/
structure Stored (tab : INodeTableHandler) (d : MemoryDevice) (n : INode) (bs ps : List Nat) :
    Prop where
  content : n.content (tab.region d) = bs
  pointers : (n.pointers (tab.region d)).Sublist ps
  distinct : (bs ++ ps).Nodup
  data : ∀ p ∈ ps, tab.dataStart + p < d.blockCount
  blocks_le : n.blocks ≤ INode.MAX_BLOCKS

namespace Stored

theorem blocks (h : tab.Stored d n bs ps) : n.blocks = bs.length := by
  rw [← h.content, INode.content_length]

/-- Blocks outside the pools may change. -/
theorem other (h : tab.Stored d n bs ps) (hcount : d'.blockCount = d.blockCount)
    (hpools : ∀ p ∈ ps, tab.region d' p = tab.region d p) : tab.Stored d' n bs ps := by
  have hsame : ∀ p ∈ n.pointers (tab.region d), tab.region d' p = tab.region d p :=
    fun p hp => hpools p (h.pointers.subset hp)
  refine ⟨?_, ?_, h.distinct, ?_, h.blocks_le⟩
  · rw [INode.content_congr hsame]
    exact h.content
  · rw [INode.pointers_congr hsame]
    exact h.pointers
  · rw [hcount]
    exact h.data

/-- The pool of a call that was refused counts as used. -/
theorem refused (h : tab.Stored d n bs ps) (hfits : c.Fits tab d n bs ps pool) :
    tab.Stored d n bs (ps ++ pool) where
  content := h.content
  pointers := h.pointers.trans (List.sublist_append_left _ _)
  distinct := by
    refine hfits.distinct.sublist (List.Sublist.append ?_ (List.Sublist.refl _))
    exact List.sublist_append_left _ _
  data := by
    intro p hp
    rcases List.mem_append.mp hp with hp | hp
    · exact h.data p hp
    · exact hfits.data p (List.mem_append_right _ hp)
  blocks_le := h.blocks_le

/-- A tree that took more blocks from a pool. -/
theorem grown (h : tab.Stored d n bs ps) (hfits : c.Fits tab d n bs ps pool) {fs : List Nat}
    (hcount : d'.blockCount = d.blockCount) (hfs : fs.Sublist pool)
    (hmax : n.blocks + c.blocks.length ≤ INode.MAX_BLOCKS)
    (hg : INode.Grown (tab.region d) n (tab.region d') n' c.blocks fs) :
    tab.Stored d' n' (bs ++ c.blocks) (ps ++ pool) where
  content := by rw [hg.content, h.content]
  pointers := by
    rw [hg.pointers]
    exact h.pointers.append hfs
  distinct := hfits.distinct
  data := by
    rw [hcount]
    exact (h.refused hfits).data
  blocks_le := by
    rw [hg.blocks]
    exact hmax

/-- Up to the maximum size, a call returns. -/
theorem runs (h : tab.Stored d n bs ps) (hfits : c.Fits tab d n bs ps pool)
    (hmax : n.blocks + c.blocks.length ≤ INode.MAX_BLOCKS) :
    ∃ fs n' data', fs.Sublist pool ∧
      Prog.Runs (tab.Above d) (c.exec tab n pool) (tab.region d) n' data' ∧
      INode.Grown (tab.region d) n data' n' c.blocks fs := by
  have hnodup : (n.pointers (tab.region d) ++ pool).Nodup := by
    have hpools : (ps ++ pool).Nodup := (List.nodup_append.mp hfits.distinct).2.1
    exact hpools.sublist (h.pointers.append (List.Sublist.refl _))
  have hlt : ∀ p ∈ n.pointers (tab.region d) ++ pool, p < d.blockCount - tab.dataStart := by
    intro p hp
    have hpool : p ∈ ps ++ pool :=
      (h.pointers.append (List.Sublist.refl _)).subset hp
    have := (h.refused hfits).data p hpool
    omega
  have hsmall : ∀ b ∈ c.blocks, b < 2 ^ 32 := by
    intro b hb
    have hdata := hfits.data b (List.mem_append_left _ hb)
    have hcount := blockCount_lt d
    rw [U32] at hcount
    omega
  cases c with
  | addBlock b =>
      obtain ⟨n', data', hrun, hgrown⟩ := runs_addBlock (@above_backed tab d) hmax
        (hsmall b List.mem_cons_self) hfits.enough hnodup hlt
      exact ⟨_, n', data', List.take_sublist _ _, hrun, hgrown⟩
  | addBlocks l =>
      obtain ⟨n', data', hrun, hgrown⟩ := runs_addBlocks (@above_backed tab d) hmax hsmall
        hfits.enough hnodup hlt
      exact ⟨_, n', data', List.take_sublist _ _, hrun, hgrown⟩

/-- What a call with a pool that fits does: below the maximum size it returns, and writes
pointer blocks of the inode only; else it fails and writes nothing. -/
theorem exec (h : tab.Stored d n bs ps) (hfits : c.Fits tab d n bs ps pool) :
    (n.blocks + c.blocks.length ≤ INode.MAX_BLOCKS ∧ ∃ n' d', c.exec tab n pool d = .ok n' d' ∧
      tab.Stored d' n' (bs ++ c.blocks) (ps ++ pool) ∧ d'.blockCount = d.blockCount ∧
      ∀ k, d'.block k ≠ d.block k → ∃ p ∈ n'.pointers (tab.region d'), k = tab.dataStart + p) ∨
    (INode.MAX_BLOCKS < n.blocks + c.blocks.length ∧ ∃ e, c.exec tab n pool d = .err e d) := by
  by_cases hmax : n.blocks + c.blocks.length ≤ INode.MAX_BLOCKS
  · left
    obtain ⟨fs, n', data', hfs, hrun, hgrown⟩ := h.runs hfits hmax
    obtain ⟨d', hok, habove⟩ := hrun d above_self
    have hregion := habove.region
    subst hregion
    refine ⟨hmax, n', d', hok, h.grown hfits habove.count hfs hmax hgrown, habove.count, ?_⟩
    intro k hk
    by_cases hbelow : k < tab.dataStart
    · exact absurd (habove.below k hbelow) hk
    obtain ⟨p, rfl⟩ : ∃ p, k = tab.dataStart + p := ⟨k - tab.dataStart, by omega⟩
    refine ⟨p, ?_, rfl⟩
    rw [hgrown.pointers]
    by_contra hp
    exact hk (hgrown.frame p hp)
  · right
    refine ⟨Nat.not_le.mp hmax, ?_⟩
    cases c with
    | addBlock b =>
        have hfull : n.blocks ≥ INode.MAX_BLOCKS := by
          have hlen : (Growing.addBlock b).blocks.length = 1 := rfl
          omega
        exact ⟨_, congrFun (if_pos hfull) d⟩
    | addBlocks l =>
        have hlen : (Growing.addBlocks l).blocks.length = l.length := rfl
        have hblocks := h.blocks_le
        have hne : l ≠ [] := by
          intro hnil
          rw [hlen, hnil, List.length_nil] at hmax
          omega
        have hfull : n.blocks + l.length > INode.MAX_BLOCKS := by omega
        exact ⟨_, (congrFun (if_neg hne) d).trans (congrFun (if_pos hfull) d)⟩

/-- `get_block` finds what was added, and nothing past it. -/
theorem getBlock (h : tab.Stored d n bs ps) :
    (∀ i b, bs[i]? = some b → tab.getBlock n i d = .ok b d) ∧
      ∀ i, n.blocks ≤ i → ∃ e, tab.getBlock n i d = .err e d := by
  constructor
  · intro i b hb
    have hi : i < n.blocks := by
      rw [h.blocks]
      exact (List.getElem?_eq_some_iff.mp hb).1
    have hlt : ∀ p ∈ n.pointers (tab.region d), p < d.blockCount - tab.dataStart := by
      intro p hp
      have := h.data p (h.pointers.subset hp)
      omega
    have hread := runs_getBlock (@above_backed tab d) hi h.blocks_le hlt
    obtain ⟨d', hok, -⟩ := hread d above_self
    have hblock : n.blockAt (tab.region d) i = b := by
      have hget : (n.content (tab.region d))[i]? = some (n.blockAt (tab.region d) i) := by
        rw [INode.content_getElem?, if_pos hi]
      rw [h.content, hb] at hget
      exact (Option.some.inj hget).symm
    rw [(readOnly_getBlock tab n i).of_ok hok, hblock] at hok
    exact hok
  · intro i hi
    by_cases hmax : i ≥ INode.MAX_BLOCKS
    · exact ⟨_, congrFun (if_pos hmax) d⟩
    · exact ⟨_, (congrFun (if_neg hmax) d).trans (congrFun (if_pos hi) d)⟩

end Stored

/-- What was built is stored. -/
theorem Built.stored (h : tab.Built d n bs ps) : tab.Stored d n bs ps := by
  induction h with
  | empty =>
      exact ⟨rfl, List.Sublist.refl _, List.nodup_nil, fun _ hp => (List.not_mem_nil hp).elim,
        Nat.zero_le _⟩
  | grow _ hfits hrun ih =>
      rcases ih.exec hfits with ⟨-, n', d', hok, hstored, -⟩ | ⟨-, e, herr⟩
      · rw [hok] at hrun
        cases hrun
        exact hstored
      · rw [herr] at hrun
        cases hrun
  | refused _ hfits hrun ih =>
      rcases ih.exec hfits with ⟨-, n', d', hok, -⟩ | ⟨-, e, herr⟩
      · rw [hok] at hrun
        cases hrun
      · rw [herr] at hrun
        cases hrun
        exact ih.refused hfits
  | other _ hcount hpools ih => exact ih.other hcount hpools

end INodeTableHandler

open INodeTableHandler in
/-- An inode that was built by `add_block` and `add_blocks` returns what was added, up to
the maximum size and nothing beyond its blocks, and the next call writes only blocks of
the pools that are pointer blocks of the inode. -/
theorem getBlock_returns_added {tab : INodeTableHandler} {d : MemoryDevice} {n : INode}
    {bs ps : List Nat} (h : tab.Built d n bs ps) :
    n.blocks = bs.length ∧ n.blocks ≤ INode.MAX_BLOCKS ∧
    (∀ i b, bs[i]? = some b → tab.getBlock n i d = .ok b d) ∧
    (∀ i, n.blocks ≤ i → ∃ e, tab.getBlock n i d = .err e d) ∧
    ∀ (c : Growing) (pool : List Nat), c.Fits tab d n bs ps pool →
      (n.blocks + c.blocks.length ≤ INode.MAX_BLOCKS ∧
        ∃ n' d', c.exec tab n pool d = .ok n' d' ∧ d'.blockCount = d.blockCount ∧
          ∀ k, d'.block k ≠ d.block k → ∃ p, k = tab.dataStart + p ∧ p ∈ ps ++ pool ∧
            p ∈ n'.pointers (tab.region d')) ∨
      (INode.MAX_BLOCKS < n.blocks + c.blocks.length ∧ ∃ e, c.exec tab n pool d = .err e d) := by
  have hstored := h.stored
  obtain ⟨hfound, hpast⟩ := hstored.getBlock
  refine ⟨hstored.blocks, hstored.blocks_le, hfound, hpast, fun c pool hfits => ?_⟩
  rcases hstored.exec hfits with ⟨hmax, n', d', hok, hstored', hcount, hchanged⟩ | hfull
  · refine .inl ⟨hmax, n', d', hok, hcount, fun k hk => ?_⟩
    obtain ⟨p, hp, rfl⟩ := hchanged k hk
    exact ⟨p, rfl, hstored'.pointers.subset hp, hp⟩
  · exact .inr hfull

open INodeTableHandler in
/-- Thirteen blocks need the indirect block, which is taken from the pool. -/
theorem getBlock_returns_added_indirect : ∃ (d : MemoryDevice) (n : INode),
    (⟨0, 0, 2⟩ : INodeTableHandler).Built d n (List.range 13) [20] ∧
    (⟨0, 0, 2⟩ : INodeTableHandler).getBlock n 12 d = .ok 12 d ∧
    ∃ e, (⟨0, 0, 2⟩ : INodeTableHandler).getBlock n 13 d = .err e d := by
  have hfits : (Growing.addBlocks (List.range 13)).Fits ⟨0, 0, 2⟩ (MemoryDevice.empty 40)
      (INode.empty .file 0 0) [] [] [20] := ⟨by decide, by decide, by decide⟩
  have hempty : (⟨0, 0, 2⟩ : INodeTableHandler).Built (MemoryDevice.empty 40)
      (INode.empty .file 0 0) [] [] := .empty
  rcases hempty.stored.exec hfits with ⟨-, n, d, hok, -⟩ | ⟨hmax, -⟩
  · have hbuilt := Built.grow hempty hfits hok
    obtain ⟨hlen, -, hfound, hpast, -⟩ := getBlock_returns_added hbuilt
    exact ⟨d, n, hbuilt, hfound 12 12 (by decide), hpast 13 (by rw [hlen]; decide)⟩
  · exact absurd hmax (by decide)

end FerrisFS
