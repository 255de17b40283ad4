import FerrisFS.V1.Tree

/-!
# Growing an inode at once and block by block

`add_blocks` adds a list of blocks and takes its pointer blocks from one pool;
`add_block` adds one block with a pool of its own. Both come to the same stores: a step
that starts at some position of the pool is the step that is given just the entries it
asks for.
-/

namespace FerrisFS

open Lib

namespace INodeTableHandler

variable {tab : INodeTableHandler} {n : INode} {b pi x y : Nat} {pool : List Nat}

/-- One `add_block` after the other, each with the next entries of the pool: the inode and
what is left of the pool. -/
def addEach (tab : INodeTableHandler) : List Nat → INode → List Nat → DevM (INode × List Nat)
  | [], n, pool => pure (n, pool)
  | b :: bs, n, pool => do
    let count := blocksNecessaryToGrow n
    let n ← tab.addBlock n b (pool.take count)
    addEach tab bs n (pool.drop count)

/-! ## One step -/

/-- The store of `b` into the pointer block `ind`. -/
def storeIndirect (tab : INodeTableHandler) (n : INode) (b ind index : Nat) : DevM INode := do
  let addr ← add32 ind tab.dataStart
  let buf ← readBlock addr
  writeBlock addr (buf.splice (index * 4) (leBytes 4 b))
  pure { n with indirect := ind }

/-- The store of `b` below the pointer block `dbl`, into a pointer block that is there. -/
def storeChild (tab : INodeTableHandler) (n : INode) (b dbl index : Nat) : DevM INode := do
  let doubleAddr ← add32 dbl tab.dataStart
  let buf ← readBlock doubleAddr
  let addr ← add32 (buf.u32 (index / INode.INDIRECT_COUNT * 4)) tab.dataStart
  let buf ← readBlock addr
  writeBlock addr (buf.splice (index % INode.INDIRECT_COUNT * 4) (leBytes 4 b))
  pure { n with double := dbl }

/-- The store of `b` below the pointer block `dbl`, into the new pointer block `ind`. -/
def storeNewChild (tab : INodeTableHandler) (n : INode) (b dbl ind index : Nat) :
    DevM INode := do
  let doubleAddr ← add32 dbl tab.dataStart
  let _ ← readBlock doubleAddr
  let addr ← add32 ind tab.dataStart
  let buf ← readBlock addr
  writeBlock addr (buf.splice (index % INode.INDIRECT_COUNT * 4) (leBytes 4 b))
  let buf ← readBlock doubleAddr
  writeBlock doubleAddr (buf.splice (index / INode.INDIRECT_COUNT * 4) (leBytes 4 ind))
  pure { n with double := dbl }

theorem ne_nil_of_getElem? (hx : pool[pi]? = some x) : pool ≠ [] := by
  rintro rfl
  simp at hx

theorem writeIndirect_first (hx : pool[pi]? = some x) :
    tab.writeIndirect n b pool pi 0 =
      tab.storeIndirect n b x 0 >>= fun m => pure (m, pi + 1) := by
  have hne := ne_nil_of_getElem? hx
  simp only [writeIndirect, storeIndirect, if_true, hne, if_false, hx, Prog.unwrap,
    Prog.bind_assoc, Prog.pure_bind]

theorem writeIndirect_later {index : Nat} (h : index ≠ 0) :
    tab.writeIndirect n b pool pi index =
      tab.storeIndirect n b n.indirect index >>= fun m => pure (m, pi) := by
  simp only [writeIndirect, storeIndirect, h, if_false, Prog.bind_assoc, Prog.pure_bind]

theorem writeDoubleIndirect_first (hx : pool[pi]? = some x) (hy : pool[pi + 1]? = some y) :
    tab.writeDoubleIndirect n b pool pi 0 =
      tab.storeNewChild n b x y 0 >>= fun m => pure (m, pi + 2) := by
  have hne := ne_nil_of_getElem? hx
  have hlen : ¬ pool.length < 2 := by
    have := (List.getElem?_eq_some_iff.mp hy).1
    omega
  simp only [writeDoubleIndirect, storeNewChild, if_true, hne, hlen, if_false, hx, hy,
    Prog.unwrap, Prog.bind_assoc, Prog.pure_bind, Nat.zero_mod, Nat.zero_mul]

theorem writeDoubleIndirect_new {index : Nat} (h : index ≠ 0)
    (hmod : index % INode.INDIRECT_COUNT = 0) (hx : pool[pi]? = some x) :
    tab.writeDoubleIndirect n b pool pi index =
      tab.storeNewChild n b n.double x index >>= fun m => pure (m, pi + 1) := by
  have hne := ne_nil_of_getElem? hx
  simp only [writeDoubleIndirect, storeNewChild, h, hmod, if_true, hne, if_false, hx,
    Prog.unwrap, Prog.bind_assoc, Prog.pure_bind, Nat.zero_mul]

theorem writeDoubleIndirect_later {index : Nat} (hmod : index % INode.INDIRECT_COUNT ≠ 0) :
    tab.writeDoubleIndirect n b pool pi index =
      tab.storeChild n b n.double index >>= fun m => pure (m, pi) := by
  have h : index ≠ 0 := by
    rintro rfl
    exact hmod (Nat.zero_mod _)
  have hoff : index % INode.INDIRECT_COUNT * 4 ≠ 0 := by omega
  simp only [writeDoubleIndirect, storeChild, h, hoff, if_false, Prog.bind_assoc,
    Prog.pure_bind]

theorem blocks_storeIndirect {ind index : Nat} {d d' : MemoryDevice} {n' : INode}
    (h : tab.storeIndirect n b ind index d = .ok n' d') : n'.blocks = n.blocks := by
  obtain ⟨_, _, -, h⟩ := Prog.of_ok_bind h
  obtain ⟨_, _, -, h⟩ := Prog.of_ok_bind h
  obtain ⟨_, _, -, h⟩ := Prog.of_ok_bind h
  cases h
  rfl

theorem blocks_storeChild {dbl index : Nat} {d d' : MemoryDevice} {n' : INode}
    (h : tab.storeChild n b dbl index d = .ok n' d') : n'.blocks = n.blocks := by
  obtain ⟨_, _, -, h⟩ := Prog.of_ok_bind h
  obtain ⟨_, _, -, h⟩ := Prog.of_ok_bind h
  obtain ⟨_, _, -, h⟩ := Prog.of_ok_bind h
  obtain ⟨_, _, -, h⟩ := Prog.of_ok_bind h
  obtain ⟨_, _, -, h⟩ := Prog.of_ok_bind h
  cases h
  rfl

theorem blocks_storeNewChild {dbl ind index : Nat} {d d' : MemoryDevice} {n' : INode}
    (h : tab.storeNewChild n b dbl ind index d = .ok n' d') : n'.blocks = n.blocks := by
  obtain ⟨_, _, -, h⟩ := Prog.of_ok_bind h
  obtain ⟨_, _, -, h⟩ := Prog.of_ok_bind h
  obtain ⟨_, _, -, h⟩ := Prog.of_ok_bind h
  obtain ⟨_, _, -, h⟩ := Prog.of_ok_bind h
  obtain ⟨_, _, -, h⟩ := Prog.of_ok_bind h
  obtain ⟨_, _, -, h⟩ := Prog.of_ok_bind h
  obtain ⟨_, _, -, h⟩ := Prog.of_ok_bind h
  cases h
  rfl

/-- The step of `place_block` around the store. -/
def counted (m : DevM (INode × Nat)) : DevM (INode × Nat) :=
  m >>= fun r => pure ({ r.1 with blocks := r.1.blocks + 1 }, r.2)

theorem placeBlock_direct (h12 : n.blocks < 12) :
    tab.placeBlock n b pool pi = counted
      (pure ({ n with direct := Function.update n.direct ⟨n.blocks, h12⟩ b }, pi)) := by
  have h1 : n.blocks < INode.DIRECT_COUNT := h12
  simp only [placeBlock, h1, dif_pos]
  rfl

theorem placeBlock_indirect (h12 : ¬ n.blocks < 12) (h76 : n.blocks < 76) :
    tab.placeBlock n b pool pi =
      counted (tab.writeIndirect n b pool pi (n.blocks - 12)) := by
  have h1 : ¬ n.blocks < INode.DIRECT_COUNT := h12
  have h2 : n.blocks < INode.DIRECT_COUNT + INode.INDIRECT_COUNT := h76
  simp only [placeBlock, h1, h2, dif_neg, not_false_eq_true, if_true]
  rfl

theorem placeBlock_double (h76 : ¬ n.blocks < 76) (hmax : n.blocks < INode.MAX_BLOCKS) :
    tab.placeBlock n b pool pi =
      counted (tab.writeDoubleIndirect n b pool pi (n.blocks - 12 - 64)) := by
  have h1 : ¬ n.blocks < INode.DIRECT_COUNT := fun h => h76 (Nat.lt_trans h (by decide))
  have h2 : ¬ n.blocks < INode.DIRECT_COUNT + INode.INDIRECT_COUNT := h76
  have h3 : n.blocks < INode.DIRECT_COUNT + INode.INDIRECT_COUNT + INode.DOUBLE_COUNT := hmax
  simp only [placeBlock, h1, h2, h3, dif_neg, not_false_eq_true, if_true, if_false]
  rfl

/-- A step is a program on the inode that uses the `growth` next entries of the pool, and
does the same when it is given no others. -/
structure OwnStep (tab : INodeTableHandler) (n : INode) (b : Nat) (pool : List Nat) (pi : Nat)
    (m : DevM INode) : Prop where
  blocks : ∀ d n' d', m d = .ok n' d' → n'.blocks = n.blocks + 1
  inPool : tab.placeBlock n b pool pi = m >>= fun n' => pure (n', pi + growth n.blocks)
  alone : tab.placeBlock n b ((pool.drop pi).take (growth n.blocks)) 0 =
    m >>= fun n' => pure (n', growth n.blocks)

theorem ownStep_of_store (m : DevM INode) {c : Nat} (hc : growth n.blocks = c)
    (hm : ∀ d n' d', m d = .ok n' d' → n'.blocks = n.blocks)
    (hpool : tab.placeBlock n b pool pi = counted (m >>= fun n' => pure (n', pi + c)))
    (halone : tab.placeBlock n b ((pool.drop pi).take c) 0 =
      counted (m >>= fun n' => pure (n', c))) :
    tab.OwnStep n b pool pi (m >>= fun n' => pure { n' with blocks := n'.blocks + 1 }) where
  blocks := by
    intro d n' d' h
    obtain ⟨n₁, d₁, hrun, h⟩ := Prog.of_ok_bind h
    cases h
    exact congrArg (· + 1) (hm _ _ _ hrun)
  inPool := by
    rw [hpool, hc, counted, Prog.bind_assoc, Prog.bind_assoc]
    rfl
  alone := by
    rw [hc, halone, counted, Prog.bind_assoc, Prog.bind_assoc]
    rfl

theorem exists_ownStep_direct (h12 : n.blocks < 12) : ∃ m, tab.OwnStep n b pool pi m := by
  have hc : growth n.blocks = 0 := by
    rw [growth_eq, if_neg (by omega), if_neg (by omega), if_neg (by omega)]
  refine ⟨_, ownStep_of_store (pure _) hc ?_ (placeBlock_direct h12) (placeBlock_direct h12)⟩
  intro d n' d' h
  cases h
  rfl

theorem exists_ownStep_indirect (h12 : ¬ n.blocks < 12) (h76 : n.blocks < 76)
    (hpool : pi + growth n.blocks ≤ pool.length) : ∃ m, tab.OwnStep n b pool pi m := by
  by_cases hfirst : n.blocks = 12
  · have hc : growth n.blocks = 1 := by
      rw [growth_eq, if_pos hfirst]
    obtain ⟨x, hx⟩ : ∃ x, pool[pi]? = some x := ⟨_, List.getElem?_eq_getElem (by omega)⟩
    have hx' : ((pool.drop pi).take 1)[0]? = some x := by
      simp [hx]
    have hzero : n.blocks - 12 = 0 := by omega
    refine ⟨_, ownStep_of_store (tab.storeIndirect n b x 0) hc
      (fun _ _ _ => blocks_storeIndirect) ?_ ?_⟩
    · rw [placeBlock_indirect h12 h76, hzero, writeIndirect_first hx]
    · rw [placeBlock_indirect h12 h76, hzero, writeIndirect_first hx']
  · have hc : growth n.blocks = 0 := by
      rw [growth_eq, if_neg hfirst, if_neg (by omega), if_neg (by omega)]
    have hne : n.blocks - 12 ≠ 0 := by omega
    refine ⟨_, ownStep_of_store (tab.storeIndirect n b n.indirect (n.blocks - 12)) hc
      (fun _ _ _ => blocks_storeIndirect) ?_ ?_⟩
    · rw [placeBlock_indirect h12 h76, writeIndirect_later hne]
      rfl
    · rw [placeBlock_indirect h12 h76, writeIndirect_later hne]

theorem exists_ownStep_double (h76 : ¬ n.blocks < 76) (hmax : n.blocks < INode.MAX_BLOCKS)
    (hpool : pi + growth n.blocks ≤ pool.length) : ∃ m, tab.OwnStep n b pool pi m := by
  have hcount : INode.INDIRECT_COUNT = 64 := rfl
  by_cases hfirst : n.blocks = 76
  · have hc : growth n.blocks = 2 := by
      rw [growth_eq, if_neg (by omega), if_pos hfirst]
    obtain ⟨x, hx⟩ : ∃ x, pool[pi]? = some x := ⟨_, List.getElem?_eq_getElem (by omega)⟩
    obtain ⟨y, hy⟩ : ∃ y, pool[pi + 1]? = some y := ⟨_, List.getElem?_eq_getElem (by omega)⟩
    have hx' : ((pool.drop pi).take 2)[0]? = some x := by
      simp [hx]
    have hy' : ((pool.drop pi).take 2)[0 + 1]? = some y := by
      simp [hy]
    have hzero : n.blocks - 12 - 64 = 0 := by omega
    refine ⟨_, ownStep_of_store (tab.storeNewChild n b x y 0) hc
      (fun _ _ _ => blocks_storeNewChild) ?_ ?_⟩
    · rw [placeBlock_double h76 hmax, hzero, writeDoubleIndirect_first hx hy]
    · rw [placeBlock_double h76 hmax, hzero, writeDoubleIndirect_first hx' hy']
  by_cases hmod : (n.blocks - 12 - 64) % INode.INDIRECT_COUNT = 0
  · have hmod' : (n.blocks - 76) % 64 = 0 := by
      rw [hcount] at hmod
      omega
    have hc : growth n.blocks = 1 := by
      rw [growth_eq, if_neg (by omega), if_neg hfirst, if_pos ⟨by omega, hmod'⟩]
    obtain ⟨x, hx⟩ : ∃ x, pool[pi]? = some x := ⟨_, List.getElem?_eq_getElem (by omega)⟩
    have hx' : ((pool.drop pi).take 1)[0]? = some x := by
      simp [hx]
    have hne : n.blocks - 12 - 64 ≠ 0 := by omega
    refine ⟨_, ownStep_of_store (tab.storeNewChild n b n.double x (n.blocks - 12 - 64)) hc
      (fun _ _ _ => blocks_storeNewChild) ?_ ?_⟩
    · rw [placeBlock_double h76 hmax, writeDoubleIndirect_new hne hmod hx]
    · rw [placeBlock_double h76 hmax, writeDoubleIndirect_new hne hmod hx']
  · have hmod' : (n.blocks - 76) % 64 ≠ 0 := by
      rw [hcount] at hmod
      omega
    have hc : growth n.blocks = 0 := by
      rw [growth_eq, if_neg (by omega), if_neg hfirst, if_neg fun h => hmod' h.2]
    refine ⟨_, ownStep_of_store (tab.storeChild n b n.double (n.blocks - 12 - 64)) hc
      (fun _ _ _ => blocks_storeChild) ?_ ?_⟩
    · rw [placeBlock_double h76 hmax, writeDoubleIndirect_later hmod]
      rfl
    · rw [placeBlock_double h76 hmax, writeDoubleIndirect_later hmod]

theorem exists_ownStep (hmax : n.blocks < INode.MAX_BLOCKS)
    (hpool : pi + growth n.blocks ≤ pool.length) : ∃ m, tab.OwnStep n b pool pi m := by
  by_cases h12 : n.blocks < 12
  · exact exists_ownStep_direct h12
  by_cases h76 : n.blocks < 76
  · exact exists_ownStep_indirect h12 h76 hpool
  · exact exists_ownStep_double h76 hmax hpool

/-! ## A list of blocks -/

theorem growN_add (n : INode) (p q : Nat) : blocksNecessaryToGrowN n (p + q) =
    blocksNecessaryToGrowN n p +
      blocksNecessaryToGrowN { n with blocks := n.blocks + p } q := by
  have h₁ := metadataBlocks_mono (show n.blocks ≤ n.blocks + p by omega)
  have h₂ := metadataBlocks_mono (show n.blocks + p ≤ n.blocks + p + q by omega)
  simp only [blocksNecessaryToGrowN, ← Nat.add_assoc]
  omega

/-- `add_block` is the step on its own. -/
theorem OwnStep.addBlock {m : DevM INode} (h : tab.OwnStep n b pool pi m)
    (hmax : n.blocks < INode.MAX_BLOCKS) :
    tab.addBlock n b ((pool.drop pi).take (blocksNecessaryToGrow n)) = m := by
  have hguard : ¬ n.blocks ≥ INode.MAX_BLOCKS := Nat.not_le.mpr hmax
  have hneed : blocksNecessaryToGrow n = growth n.blocks := rfl
  funext d
  rw [INodeTableHandler.addBlock, if_neg hguard, hneed]
  change (tab.placeBlock n b ((pool.drop pi).take (growth n.blocks)) 0 >>= fun r =>
    pure r.1) d = m d
  rw [h.alone, Prog.bind_assoc, Prog.bind_apply]
  cases m d <;> rfl

/-- The loop of `add_blocks` from any position of the pool. -/
theorem addEach_eq : ∀ (bs : List Nat) (n : INode) (pi : Nat),
    n.blocks + bs.length ≤ INode.MAX_BLOCKS →
    pi + blocksNecessaryToGrowN n bs.length ≤ pool.length →
    (tab.addEach bs n (pool.drop pi) =
      tab.placeBlocks pool bs n pi >>= fun r => pure (r.1, pool.drop r.2)) ∧
    ∀ d r d', tab.placeBlocks pool bs n pi d = .ok r d' →
      r.2 = pi + blocksNecessaryToGrowN n bs.length := by
  intro bs
  induction bs with
  | nil =>
      intro n pi _ _
      refine ⟨rfl, ?_⟩
      intro d r d' h
      cases h
      simp [blocksNecessaryToGrowN]
  | cons b bs ih =>
      intro n pi hmax hpool
      rw [List.length_cons] at hmax hpool ⊢
      have hsplit : blocksNecessaryToGrowN n (bs.length + 1) = growth n.blocks +
          blocksNecessaryToGrowN { n with blocks := n.blocks + 1 } bs.length := by
        rw [Nat.add_comm, growN_add]
        rfl
      obtain ⟨m, hm⟩ := @exists_ownStep tab n b pi pool (by omega) (by omega)
      have heach : tab.addEach (b :: bs) n (pool.drop pi) = m >>= fun n' =>
          tab.addEach bs n' (pool.drop (pi + growth n.blocks)) := by
        rw [addEach, hm.addBlock (by omega), List.drop_drop]
        rfl
      have hplace : tab.placeBlocks pool (b :: bs) n pi = m >>= fun n' =>
          tab.placeBlocks pool bs n' (pi + growth n.blocks) := by
        rw [placeBlocks, hm.inPool, Prog.bind_assoc]
        rfl
      have hnext : ∀ d n' d', m d = .ok n' d' →
          blocksNecessaryToGrowN n' bs.length =
            blocksNecessaryToGrowN { n with blocks := n.blocks + 1 } bs.length := by
        intro d n' d' h
        rw [blocksNecessaryToGrowN, hm.blocks _ _ _ h]
        rfl
      constructor
      · funext d
        rw [heach, hplace, Prog.bind_assoc]
        apply Prog.bind_congr
        intro n' d' h
        have hblocks := hm.blocks _ _ _ h
        have hnext := hnext _ _ _ h
        rw [(ih n' (pi + growth n.blocks) (by omega) (by omega)).1]
      · intro d r d' h
        rw [hplace] at h
        obtain ⟨n', d₁, hrun, h⟩ := Prog.of_ok_bind h
        have hblocks := hm.blocks _ _ _ hrun
        have hnext := hnext _ _ _ hrun
        have hend := (ih n' (pi + growth n.blocks) (by omega) (by omega)).2 _ _ _ h
        omega

/-- The first entries of the pool, as many as are asked for, decide. -/
theorem addBlocks_of_pool {bs : List Nat} (hmax : n.blocks + bs.length ≤ INode.MAX_BLOCKS)
    (hpool : blocksNecessaryToGrowN n bs.length ≤ pool.length) :
    tab.addBlocks n bs pool = tab.placeBlocks pool bs n 0 >>= fun r => pure r.1 := by
  unfold addBlocks
  by_cases hnil : bs = []
  · subst hnil
    rfl
  rw [if_neg hnil]
  dsimp only
  rw [if_neg (Nat.not_lt.mpr hmax), if_neg (Nat.not_lt.mpr hpool)]

end INodeTableHandler

open INodeTableHandler in
/-- `add_blocks` is `add_block` for one block after the other, with the pool handed on: it
ends alike on every device, having taken exactly the first `blocks_necessary_to_grow_n`
entries of the pool, and that number is additive. -/
theorem addBlocks_eq_addEach (tab : INodeTableHandler) (n : INode) (bs pool : List Nat)
    (hmax : n.blocks + bs.length ≤ INode.MAX_BLOCKS)
    (hpool : blocksNecessaryToGrowN n bs.length ≤ pool.length) :
    tab.addBlocks n bs pool = (tab.addEach bs n pool >>= fun r => pure r.1) ∧
    (∀ d n' rest d', tab.addEach bs n pool d = .ok (n', rest) d' →
      rest = pool.drop (blocksNecessaryToGrowN n bs.length)) ∧
    (∀ d n' pi d', tab.placeBlocks pool bs n 0 d = .ok (n', pi) d' →
      pi = blocksNecessaryToGrowN n bs.length) ∧
    ∀ p q, p + q = bs.length → blocksNecessaryToGrowN n bs.length =
      blocksNecessaryToGrowN n p +
        blocksNecessaryToGrowN { n with blocks := n.blocks + p } q := by
  have hall := @addEach_eq tab pool bs n 0 hmax (by omega)
  have heach : tab.addEach bs n pool =
      tab.placeBlocks pool bs n 0 >>= fun r => pure (r.1, pool.drop r.2) := hall.1
  refine ⟨?_, ?_, ?_, ?_⟩
  · rw [addBlocks_of_pool hmax hpool, heach, Prog.bind_assoc]
    rfl
  · intro d n' rest d' h
    rw [heach] at h
    obtain ⟨r, d₁, hrun, h⟩ := Prog.of_ok_bind h
    cases h
    rw [hall.2 _ _ _ hrun, Nat.zero_add]
  · intro d n' pi d' h
    have hend := hall.2 _ _ _ h
    omega
  · intro p q hpq
    rw [← hpq]
    exact growN_add n p q

open INodeTableHandler in
/-- Two blocks across the first boundary: the twelfth needs no pointer block, the
thirteenth one. -/
theorem addBlocks_eq_addEach_boundary :
    (⟨0, 0, 2⟩ : INodeTableHandler).addBlocks { INode.empty .file 0 0 with blocks := 11 } [5, 6]
      [7, 8] =
    ((⟨0, 0, 2⟩ : INodeTableHandler).addEach [5, 6] { INode.empty .file 0 0 with blocks := 11 }
      [7, 8] >>= fun r => pure r.1) :=
  (addBlocks_eq_addEach ⟨0, 0, 2⟩ { INode.empty .file 0 0 with blocks := 11 } [5, 6] [7, 8]
    (by decide) (by decide)).1

end FerrisFS
