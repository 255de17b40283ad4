import FerrisFS.V1.View
import Mathlib.Data.List.Nodup
import Mathlib.Data.List.Range

/-!
# The pointer tree of an inode

`content` lists the data blocks an inode holds its bytes in and `pointers` the
blocks of its indirect and double indirect levels, both read off the data region.
`add_block` and `add_blocks` append to these two lists and write to no block
outside the second one.
-/

namespace FerrisFS

open Lib

namespace Block

theorem u32_lt (b : Block) (off : Nat) : b.u32 off < 2 ^ 32 := by
  have hlen : (b.slice off 4).length ≤ 4 := by
    simp only [slice, Lib.slice, List.length_take]
    omega
  calc b.u32 off < 256 ^ (b.slice off 4).length := leNat_lt _
    _ ≤ 256 ^ 4 := Nat.pow_le_pow_right (by decide) hlen

/-- The `j`-th address of a pointer block after the `k`-th was written. -/
theorem u32_splice {b : Block} {j k x : Nat} (hk : k < 64) (hx : x < 2 ^ 32) :
    (b.splice (k * 4) (leBytes 4 x)).u32 (j * 4) = if j = k then x else b.u32 (j * 4) := by
  have hfit : k * 4 + (leBytes 4 x).length ≤ BLOCK_SIZE := by
    rw [leBytes_length, BLOCK_SIZE]
    omega
  by_cases hjk : j = k
  · subst hjk
    have hself := b.slice_splice_self hfit
    rw [leBytes_length] at hself
    rw [u32, hself, if_pos rfl]
    exact leNat_leBytes hx
  · rw [u32, slice_splice_of_disjoint hfit (by rw [leBytes_length]; omega), if_neg hjk, u32]

end Block

namespace Region

variable (data : Region)

/-- The `k`-th address in pointer block `p`. -/
def ptr (p k : Nat) : Nat := (data p).u32 (k * 4)

/-- Write the `k`-th address of pointer block `p`. -/
def setPtr (p k x : Nat) : Region :=
  Function.update data p ((data p).splice (k * 4) (leBytes 4 x))

theorem setPtr_of_ne {p q k x : Nat} (h : q ≠ p) : data.setPtr p k x q = data q :=
  Function.update_of_ne h _ _

theorem ptr_setPtr {p q j k x : Nat} (hk : k < 64) (hx : x < 2 ^ 32) :
    (data.setPtr p k x).ptr q j = if q = p ∧ j = k then x else data.ptr q j := by
  by_cases hq : q = p
  · subst hq
    simp only [ptr, setPtr, Function.update_self, Block.u32_splice hk hx, true_and]
  · simp only [ptr, data.setPtr_of_ne hq, hq, false_and, if_false]

end Region

namespace INode

variable (n : INode) (data : Region)

theorem indirectCount_eq : INDIRECT_COUNT = 64 := rfl
theorem maxBlocks_eq : MAX_BLOCKS = 4172 := rfl

/-- The block of the data region that holds content block `i`. -/
def blockAt (i : Nat) : Nat :=
  if h : i < 12 then n.direct ⟨i, h⟩
  else if i < 76 then data.ptr n.indirect (i - 12)
  else data.ptr (data.ptr n.double ((i - 76) / 64)) ((i - 76) % 64)

variable {n} {data} in
theorem blockAt_direct {i : Nat} (h : i < 12) : n.blockAt data i = n.direct ⟨i, h⟩ := by
  rw [blockAt, dif_pos h]

variable {n} {data} in
theorem blockAt_indirect {i : Nat} (h12 : ¬ i < 12) (h76 : i < 76) :
    n.blockAt data i = data.ptr n.indirect (i - 12) := by
  rw [blockAt, dif_neg h12, if_pos h76]

variable {n} {data} in
theorem blockAt_double {i : Nat} (h76 : ¬ i < 76) :
    n.blockAt data i = data.ptr (data.ptr n.double ((i - 76) / 64)) ((i - 76) % 64) := by
  rw [blockAt, dif_neg (by omega), if_neg h76]

/-- The content blocks. -/
def content : List Nat := (List.range n.blocks).map (n.blockAt data)

/-- The number of child pointer blocks of the double indirect block. -/
def childCount : Nat := (n.blocks - 76 + 63) / 64

/-- The child pointer blocks. -/
def children : List Nat := (List.range n.childCount).map (data.ptr n.double)

/-- The pointer blocks. -/
def pointers : List Nat :=
  (if 12 < n.blocks then [n.indirect] else []) ++
    (if 76 < n.blocks then n.double :: n.children data else [])

/-- All blocks of the data region that belong to the inode. -/
def owned : List Nat := n.content data ++ n.pointers data

@[simp] theorem content_length : (n.content data).length = n.blocks := by
  simp [content]

variable {n} {data} {data' : Region}

theorem content_getElem? {i : Nat} :
    (n.content data)[i]? = if i < n.blocks then some (n.blockAt data i) else none := by
  rw [content, List.getElem?_map]
  by_cases hi : i < n.blocks
  · rw [List.getElem?_range hi, if_pos hi, Option.map_some]
  · rw [List.getElem?_eq_none (by simpa using hi), if_neg hi, Option.map_none]

theorem mem_content {b : Nat} : b ∈ n.content data ↔ ∃ i < n.blocks, n.blockAt data i = b := by
  simp [content]

theorem blockAt_mem_content {i : Nat} (h : i < n.blocks) : n.blockAt data i ∈ n.content data :=
  mem_content.mpr ⟨i, h, rfl⟩

theorem indirect_mem (h : 12 < n.blocks) : n.indirect ∈ n.pointers data := by
  simp [pointers, h]

theorem double_mem (h : 76 < n.blocks) : n.double ∈ n.pointers data := by
  simp [pointers, h]

theorem child_mem {k : Nat} (h : 76 < n.blocks) (hk : k < n.childCount) :
    data.ptr n.double k ∈ n.pointers data := by
  have : data.ptr n.double k ∈ n.children data :=
    List.mem_map.mpr ⟨k, List.mem_range.mpr hk, rfl⟩
  simp [pointers, h, this]

/-! The tree is read off its pointer blocks. -/

theorem children_congr (h : data' n.double = data n.double) :
    n.children data' = n.children data := by
  refine List.map_congr_left fun k _ => ?_
  simp only [Region.ptr, h]

theorem pointers_congr (h : ∀ p ∈ n.pointers data, data' p = data p) :
    n.pointers data' = n.pointers data := by
  by_cases h76 : 76 < n.blocks
  · simp only [pointers, children_congr (h _ (double_mem h76))]
  · simp only [pointers, h76, if_false]

theorem content_congr (h : ∀ p ∈ n.pointers data, data' p = data p) :
    n.content data' = n.content data := by
  refine List.map_congr_left fun i hi => ?_
  rw [List.mem_range] at hi
  unfold blockAt
  split
  · rfl
  split
  · simp only [Region.ptr, h _ (indirect_mem (by omega))]
  · have hd := h _ (double_mem (n := n) (by omega))
    have hc := h _ (child_mem (n := n) (k := (i - 76) / 64) (by omega) (by
      simp only [childCount]; omega))
    simp only [Region.ptr] at hd hc ⊢
    rw [hd, hc]

theorem owned_congr (h : ∀ p ∈ n.owned data, data' p = data p) :
    n.owned data' = n.owned data := by
  have hp : ∀ p ∈ n.pointers data, data' p = data p := fun p hp =>
    h p (List.mem_append_right _ hp)
  rw [owned, owned, content_congr hp, pointers_congr hp]

private theorem nodup_levels (hnd : (n.pointers data).Nodup) (h : 76 < n.blocks) :
    (n.indirect :: n.double :: n.children data).Nodup := by
  simpa [pointers, h, show 12 < n.blocks by omega] using hnd

theorem child_ne_double {k : Nat} (hnd : (n.pointers data).Nodup) (h : 76 < n.blocks)
    (hk : k < n.childCount) : data.ptr n.double k ≠ n.double := by
  intro heq
  have hmem : data.ptr n.double k ∈ n.children data :=
    List.mem_map.mpr ⟨k, List.mem_range.mpr hk, rfl⟩
  exact (List.nodup_cons.mp (List.nodup_cons.mp (nodup_levels hnd h)).2).1 (heq ▸ hmem)

theorem child_ne_indirect {k : Nat} (hnd : (n.pointers data).Nodup) (h : 76 < n.blocks)
    (hk : k < n.childCount) : data.ptr n.double k ≠ n.indirect := by
  intro heq
  have hmem : data.ptr n.double k ∈ n.children data :=
    List.mem_map.mpr ⟨k, List.mem_range.mpr hk, rfl⟩
  exact (List.nodup_cons.mp (nodup_levels hnd h)).1 (List.mem_cons_of_mem _ (heq ▸ hmem))

theorem ptr_ne_of_nodup {j k : Nat} (hnd : (n.pointers data).Nodup) (h : 76 < n.blocks)
    (hj : j < n.childCount) (hk : k < n.childCount) (hjk : j ≠ k) :
    data.ptr n.double j ≠ data.ptr n.double k := by
  have hch : (n.children data).Nodup :=
    (List.nodup_cons.mp (List.nodup_cons.mp (nodup_levels hnd h)).2).2
  intro heq
  exact hjk (List.inj_on_of_nodup_map hch (List.mem_range.mpr hj) (List.mem_range.mpr hk) heq)

end INode

/-! ## Reading the tree -/

/-- `R` keeps a data region of `cap` blocks on the device, from `dataStart` on. -/
structure Region.Backed (dataStart cap : Nat) (R : MemoryDevice → Region → Prop) : Prop where
  small : ∀ {p}, p < cap → dataStart + p < 2 ^ 32
  read : ∀ {p data}, p < cap → Prog.Runs R (readBlock (dataStart + p)) data (data p) data
  write : ∀ {p buf data}, p < cap → Prog.Runs R (writeBlock (dataStart + p) buf) data ()
    (Function.update data p buf)

namespace INodeTableHandler

variable {tab : INodeTableHandler} {cap : Nat} {R : MemoryDevice → Region → Prop}
  {data : Region} {n : INode} (hR : Region.Backed tab.dataStart cap R)

include hR

theorem runs_resolveIndirect {p k : Nat} (hp : p < cap) :
    Prog.Runs R (tab.resolveIndirect p k) data (data.ptr p k) data :=
  (Prog.Runs.checkedAdd (hR.small hp)).bind
    ((hR.read hp).bind (Prog.Runs.pure _ _))

theorem runs_getBlock {i : Nat} (hi : i < n.blocks) (hmax : n.blocks ≤ INode.MAX_BLOCKS)
    (hlt : ∀ p ∈ n.pointers data, p < cap) :
    Prog.Runs R (tab.getBlock n i) data (n.blockAt data i) data := by
  rw [INode.maxBlocks_eq] at hmax
  refine Prog.Runs.guard (by rw [INode.maxBlocks_eq]; omega) ?_
  refine Prog.Runs.guard (by omega) ?_
  by_cases h12 : i < 12
  · rw [INode.blockAt_direct h12]
    exact Prog.Runs.dbranch h12 (Prog.Runs.pure _ _)
  refine Prog.Runs.dguard h12 ?_
  by_cases h76 : i < 76
  · rw [INode.blockAt_indirect h12 h76]
    refine Prog.Runs.branch (by simp only [INode.DIRECT_COUNT, INode.indirectCount_eq]; omega) ?_
    exact runs_resolveIndirect hR (hlt _ (INode.indirect_mem (by omega)))
  · have hdbl := hlt _ (INode.double_mem (by omega))
    have hchild := hlt _ (INode.child_mem (k := (i - 76) / 64) (by omega) (by
      simp only [INode.childCount]; omega))
    rw [INode.blockAt_double h76]
    refine Prog.Runs.guard (by simp only [INode.DIRECT_COUNT, INode.indirectCount_eq]; omega) ?_
    refine Prog.Runs.branch (by
      simp only [INode.DIRECT_COUNT, INode.indirectCount_eq, INode.DOUBLE_COUNT]; omega) ?_
    simp only [INode.DIRECT_COUNT, INode.indirectCount_eq, show i - 12 - 64 = i - 76 by omega]
    exact (runs_resolveIndirect hR hdbl).bind (runs_resolveIndirect hR hchild)

end INodeTableHandler

namespace Geom

open INodeTableHandler

variable {g : Geom} {v : View} {n : INode}

theorem ptr_small {p : Nat} (hp : p < g.cap) : g.dataStart + p < U32 := by
  have := g.small
  have := g.dataStart_add_cap
  rw [U32]
  omega

/-- The data region of a formatted device, the rest of which holds `v`. -/
theorem backed (g : Geom) (v : View) : Region.Backed g.inodeHandler.dataStart g.cap
    fun d data => g.Holds d { v with data := data } where
  small hp := ptr_small hp
  read hp := runs_readData hp
  write hp := runs_writeData hp

theorem runs_getBlock {i : Nat} (hi : i < n.blocks) (hmax : n.blocks ≤ INode.MAX_BLOCKS)
    (hlt : ∀ p ∈ n.pointers v.data, p < g.cap) :
    Prog.Runs g.Holds (g.inodeHandler.getBlock n i) v (n.blockAt v.data i) v :=
  INodeTableHandler.runs_getBlock (backed g v) hi hmax hlt

end Geom

/-! ## Growing the tree -/

/-- `n'` is `n` with the content blocks `bs` and the pointer blocks `fs` appended;
only pointer blocks were written. -/
structure INode.Grown (data : Region) (n : INode) (data' : Region) (n' : INode)
    (bs fs : List Nat) : Prop where
  size : n'.size = n.size
  fileType : n'.fileType = n.fileType
  permissions : n'.permissions = n.permissions
  links : n'.links = n.links
  created : n'.created = n.created
  modified : n'.modified = n.modified
  content : n'.content data' = n.content data ++ bs
  pointers : n'.pointers data' = n.pointers data ++ fs
  frame : ∀ p, p ∉ n.pointers data ++ fs → data' p = data p
  inRange : n.InRange → n'.InRange

namespace INode.Grown

variable {data data' data'' : Region} {n n' n'' : INode} {bs bs' fs fs' : List Nat}

theorem refl : Grown data n data n [] [] where
  size := rfl
  fileType := rfl
  permissions := rfl
  links := rfl
  created := rfl
  modified := rfl
  content := by simp
  pointers := by simp
  frame := fun _ _ => rfl
  inRange := id

theorem trans (h : Grown data n data' n' bs fs) (h' : Grown data' n' data'' n'' bs' fs') :
    Grown data n data'' n'' (bs ++ bs') (fs ++ fs') where
  size := h'.size.trans h.size
  fileType := h'.fileType.trans h.fileType
  permissions := h'.permissions.trans h.permissions
  links := h'.links.trans h.links
  created := h'.created.trans h.created
  modified := h'.modified.trans h.modified
  content := by rw [h'.content, h.content, List.append_assoc]
  pointers := by rw [h'.pointers, h.pointers, List.append_assoc]
  frame := by
    intro p hp
    rw [← List.append_assoc, List.mem_append, not_or] at hp
    rw [h'.frame p (by rw [h.pointers, List.mem_append, not_or]; exact hp), h.frame p hp.1]
  inRange := fun hr => h'.inRange (h.inRange hr)

theorem blocks (h : Grown data n data' n' bs fs) : n'.blocks = n.blocks + bs.length := by
  have hlen := congrArg List.length h.content
  simpa using hlen

end INode.Grown

namespace INode

variable {data : Region} {n : INode} {b : Nat}

/-- Appending one content block, from the last entry on. -/
private theorem content_succ {data' : Region} {n' : INode} (hblocks : n'.blocks = n.blocks + 1)
    (hold : ∀ i < n.blocks, n'.blockAt data' i = n.blockAt data i)
    (hnew : n'.blockAt data' n.blocks = b) : n'.content data' = n.content data ++ [b] := by
  rw [content, hblocks, List.range_succ, List.map_append, List.map_singleton, hnew, content]
  congr 1
  refine List.map_congr_left fun i hi => ?_
  exact hold i (List.mem_range.mp hi)

theorem grown_direct (hk : n.blocks < 12) (hb : b < 2 ^ 32) :
    Grown data n data
      { n with direct := Function.update n.direct ⟨n.blocks, hk⟩ b, blocks := n.blocks + 1 }
      [b] [] where
  size := rfl
  fileType := rfl
  permissions := rfl
  links := rfl
  created := rfl
  modified := rfl
  content := by
    refine content_succ rfl ?_ ?_
    · intro i hi
      rw [blockAt_direct (by omega), blockAt_direct (by omega)]
      refine Function.update_of_ne ?_ _ _
      simp only [ne_eq, Fin.mk.injEq]
      omega
    · rw [blockAt_direct hk]
      exact Function.update_self _ _ _
  pointers := by
    simp only [pointers, show ¬ 12 < n.blocks + 1 by omega, show ¬ 12 < n.blocks by omega,
      show ¬ 76 < n.blocks + 1 by omega, show ¬ 76 < n.blocks by omega, if_false,
      List.append_nil]
  frame := fun _ _ => rfl
  inRange := fun hr =>
    { hr with
      blocks := by dsimp only; omega
      direct := by
        intro i
        by_cases hi : i = ⟨n.blocks, hk⟩
        · subst hi
          simpa using hb
        · simpa [Function.update_of_ne hi] using hr.direct i }

/-- Entry `n.blocks - 12` of the indirect block, which is `ind`. -/
theorem grown_indirect {ind : Nat} {fs : List Nat} (h12 : 12 ≤ n.blocks) (h76 : n.blocks < 76)
    (hb : b < 2 ^ 32) (hind : ind < 2 ^ 32)
    (hfs : n.blocks = 12 ∧ fs = [ind] ∨ 12 < n.blocks ∧ ind = n.indirect ∧ fs = []) :
    Grown data n (data.setPtr ind (n.blocks - 12) b)
      { n with indirect := ind, blocks := n.blocks + 1 } [b] fs where
  size := rfl
  fileType := rfl
  permissions := rfl
  links := rfl
  created := rfl
  modified := rfl
  content := by
    refine content_succ rfl ?_ ?_
    · intro i hi
      by_cases hi12 : i < 12
      · rw [blockAt_direct hi12, blockAt_direct hi12]
      · obtain ⟨hblocks, -⟩ | ⟨-, rfl, -⟩ := hfs
        · omega
        rw [blockAt_indirect hi12 (by omega), blockAt_indirect hi12 (by omega),
          Region.ptr_setPtr _ (by omega) hb, if_neg (by omega)]
    · rw [blockAt_indirect (by omega) h76, Region.ptr_setPtr _ (by omega) hb, if_pos ⟨rfl, rfl⟩]
  pointers := by
    simp only [pointers, show 12 < n.blocks + 1 by omega, show ¬ 76 < n.blocks + 1 by omega,
      show ¬ 76 < n.blocks by omega, if_false, if_true, List.append_nil]
    obtain ⟨hblocks, rfl⟩ | ⟨hlt, rfl, rfl⟩ := hfs
    · simp [hblocks]
    · simp [hlt]
  frame := by
    intro p hp
    refine Region.setPtr_of_ne _ ?_
    rintro rfl
    obtain ⟨-, rfl⟩ | ⟨hlt, rfl, rfl⟩ := hfs
    · simp at hp
    · exact hp (List.mem_append_left _ (indirect_mem hlt))
  inRange := fun hr => { hr with blocks := by dsimp only; omega, indirect := hind }

/-- An entry of the last child pointer block. -/
theorem grown_child (h76 : 76 < n.blocks) (hmax : n.blocks < MAX_BLOCKS)
    (hmod : (n.blocks - 76) % 64 ≠ 0) (hb : b < 2 ^ 32) (hnd : (n.pointers data).Nodup) :
    Grown data n
      (data.setPtr (data.ptr n.double ((n.blocks - 76) / 64)) ((n.blocks - 76) % 64) b)
      { n with blocks := n.blocks + 1 } [b] [] := by
  rw [maxBlocks_eq] at hmax
  have hcount : (n.blocks - 76) / 64 < n.childCount := by
    simp only [childCount]
    omega
  have hmem : data.ptr n.double _ ∈ n.pointers data := child_mem h76 hcount
  have hdbl := (child_ne_double hnd h76 hcount).symm
  have hind := (child_ne_indirect hnd h76 hcount).symm
  have hptr : ∀ j, (data.setPtr (data.ptr n.double ((n.blocks - 76) / 64))
      ((n.blocks - 76) % 64) b).ptr n.double j = data.ptr n.double j := by
    intro j
    rw [Region.ptr_setPtr _ (by omega) hb, if_neg (fun h => hdbl h.1)]
  refine
    { size := rfl, fileType := rfl, permissions := rfl, links := rfl, created := rfl
      modified := rfl, content := ?_, pointers := ?_, frame := ?_, inRange := ?_ }
  · refine content_succ rfl ?_ ?_
    · intro i hi
      by_cases h12 : i < 12
      · rw [blockAt_direct h12, blockAt_direct h12]
      by_cases hi76 : i < 76
      · rw [blockAt_indirect h12 hi76, blockAt_indirect h12 hi76,
          Region.ptr_setPtr _ (by omega) hb, if_neg (fun h => hind h.1)]
      · rw [blockAt_double hi76, blockAt_double hi76]
        simp only [hptr]
        rw [Region.ptr_setPtr _ (by omega) hb, if_neg]
        rintro ⟨hq, hm⟩
        by_cases hdiv : (i - 76) / 64 = (n.blocks - 76) / 64
        · omega
        · exact ptr_ne_of_nodup hnd h76 (by simp only [childCount]; omega) hcount hdiv hq
    · rw [blockAt_double (by omega)]
      simp only [hptr]
      rw [Region.ptr_setPtr _ (by omega) hb, if_pos ⟨rfl, rfl⟩]
  · have hc : childCount { n with blocks := n.blocks + 1 } = n.childCount := by
      simp only [childCount]
      omega
    simp only [pointers, show 12 < n.blocks + 1 by omega, show 12 < n.blocks by omega, h76,
      show 76 < n.blocks + 1 by omega, if_true, List.append_nil, children, hc]
    congr 2
    exact List.map_congr_left fun j _ => hptr j
  · intro p hp
    refine Region.setPtr_of_ne _ ?_
    rintro rfl
    exact hp (List.mem_append_left _ hmem)
  · exact fun hr => { hr with blocks := by dsimp only; omega }

/-- The first entry of a new child pointer block `c` under the double indirect
block `dbl`, itself new when it is the first child. -/
theorem grown_newChild {dbl c : Nat} {fs : List Nat} (h76 : 76 ≤ n.blocks)
    (hmax : n.blocks < MAX_BLOCKS) (hmod : (n.blocks - 76) % 64 = 0) (hb : b < 2 ^ 32)
    (hdbl : dbl < 2 ^ 32) (hc : c < 2 ^ 32) (hnd : (n.pointers data ++ fs).Nodup)
    (hfs : n.blocks = 76 ∧ fs = [dbl, c] ∨ 76 < n.blocks ∧ dbl = n.double ∧ fs = [c]) :
    Grown data n ((data.setPtr c 0 b).setPtr dbl ((n.blocks - 76) / 64) c)
      { n with double := dbl, blocks := n.blocks + 1 } [b] fs := by
  rw [maxBlocks_eq] at hmax
  have h12 : 12 < n.blocks := by omega
  obtain ⟨hnd', -, hdisj⟩ := List.nodup_append.mp hnd
  have hcmem : c ∈ fs := by
    obtain ⟨-, rfl⟩ | ⟨-, -, rfl⟩ := hfs <;> simp
  have hcp : ∀ p ∈ n.pointers data, p ≠ c := fun p hp => hdisj p hp c hcmem
  have hdc : dbl ≠ c := by
    obtain ⟨-, rfl⟩ | ⟨hlt, rfl, -⟩ := hfs
    · rw [List.nodup_append] at hnd
      simpa using hnd.2.1
    · exact hcp _ (double_mem hlt)
  have hind : n.indirect ≠ dbl := by
    obtain ⟨-, rfl⟩ | ⟨hlt, rfl, -⟩ := hfs
    · exact hdisj _ (indirect_mem h12) _ (by simp)
    · simp only [pointers, h12, hlt, if_true] at hnd'
      exact (List.nodup_append.mp hnd').2.2 _ (List.mem_singleton.mpr rfl) _ List.mem_cons_self
  -- the two blocks that are written, as reads of the result
  have hread : ∀ q j, ((data.setPtr c 0 b).setPtr dbl ((n.blocks - 76) / 64) c).ptr q j =
      if q = dbl ∧ j = (n.blocks - 76) / 64 then c
      else if q = c ∧ j = 0 then b else data.ptr q j := by
    intro q j
    rw [Region.ptr_setPtr _ (by omega) hc, Region.ptr_setPtr _ (by omega) hb]
  have hold : ∀ q j, q ≠ dbl → q ≠ c →
      ((data.setPtr c 0 b).setPtr dbl ((n.blocks - 76) / 64) c).ptr q j = data.ptr q j := by
    intro q j hq hq'
    rw [hread, if_neg (fun h => hq h.1), if_neg (fun h => hq' h.1)]
  have hdblOld : ∀ j < (n.blocks - 76) / 64,
      ((data.setPtr c 0 b).setPtr dbl ((n.blocks - 76) / 64) c).ptr dbl j = data.ptr dbl j := by
    intro j hj
    rw [hread, if_neg (by omega), if_neg (fun h => hdc h.1)]
  have hcount : ∀ j < (n.blocks - 76) / 64, 76 < n.blocks ∧ dbl = n.double ∧
      j < n.childCount := by
    intro j hj
    obtain ⟨heq, -⟩ | ⟨hlt, rfl, -⟩ := hfs
    · omega
    · refine ⟨hlt, rfl, ?_⟩
      simp only [childCount]
      omega
  refine
    { size := rfl, fileType := rfl, permissions := rfl, links := rfl, created := rfl
      modified := rfl, content := ?_, pointers := ?_, frame := ?_, inRange := ?_ }
  · refine content_succ rfl ?_ ?_
    · intro i hi
      by_cases hi12 : i < 12
      · rw [blockAt_direct hi12, blockAt_direct hi12]
      by_cases hi76 : i < 76
      · rw [blockAt_indirect hi12 hi76, blockAt_indirect hi12 hi76,
          hold _ _ hind (hcp _ (indirect_mem h12))]
      · have hj : (i - 76) / 64 < (n.blocks - 76) / 64 := by omega
        obtain ⟨hlt, rfl, hcc⟩ := hcount _ hj
        have hmem : data.ptr n.double _ ∈ n.pointers data := child_mem hlt hcc
        have hne := child_ne_double hnd' hlt hcc
        rw [blockAt_double hi76, blockAt_double hi76]
        simp only
        rw [hdblOld _ hj, hold _ _ hne (hcp _ hmem)]
    · rw [blockAt_double (by omega)]
      simp only
      have hlast : ((data.setPtr c 0 b).setPtr dbl ((n.blocks - 76) / 64) c).ptr dbl
          ((n.blocks - 76) / 64) = c := by
        rw [hread, if_pos ⟨rfl, rfl⟩]
      rw [hlast, hread, if_neg (fun h => hdc h.1.symm), if_pos ⟨rfl, hmod⟩]
  · have hcc : childCount { n with double := dbl, blocks := n.blocks + 1 } =
        (n.blocks - 76) / 64 + 1 := by
      simp only [childCount]
      omega
    have hlast : ((data.setPtr c 0 b).setPtr dbl ((n.blocks - 76) / 64) c).ptr dbl
        ((n.blocks - 76) / 64) = c := by
      rw [hread, if_pos ⟨rfl, rfl⟩]
    simp only [pointers, show 12 < n.blocks + 1 by omega, h12, show 76 < n.blocks + 1 by omega,
      if_true, children, hcc, List.range_succ, List.map_append, List.map_singleton, hlast]
    obtain ⟨heq, rfl⟩ | ⟨hlt, rfl, rfl⟩ := hfs
    · simp [heq]
    · have hn : n.childCount = (n.blocks - 76) / 64 := by
        simp only [childCount]
        omega
      simp only [hlt, if_true, hn, List.append_assoc, List.cons_append]
      congr 4
      exact List.map_congr_left fun j hj => hdblOld j (List.mem_range.mp hj)
  · intro p hp
    rw [List.mem_append, not_or] at hp
    have hpc : p ≠ c := fun h => hp.2 (h ▸ hcmem)
    have hpd : p ≠ dbl := by
      rintro rfl
      obtain ⟨-, rfl⟩ | ⟨hlt, rfl, -⟩ := hfs
      · exact hp.2 (by simp)
      · exact hp.1 (double_mem hlt)
    rw [Region.setPtr_of_ne _ hpd, Region.setPtr_of_ne _ hpc]
  · exact fun hr => { hr with blocks := by dsimp only; omega, double := hdbl }

end INode

/-! ## What `add_block` and `add_blocks` do -/

namespace INodeTableHandler

/-- Pointer blocks that the next content block asks for. -/
def growth (blocks : Nat) : Nat := metadataBlocks (blocks + 1) - metadataBlocks blocks

theorem metadataBlocks_eq (blocks : Nat) : metadataBlocks blocks =
    if blocks ≤ 12 then 0 else if blocks ≤ 76 then 1 else 2 + (blocks - 76 + 63) / 64 := by
  change (if blocks ≤ 12 then 0 else if blocks ≤ 76 then 1
    else 1 + 1 + (blocks - 12 - 64 + 63) / 64) = _
  split_ifs <;> omega

theorem metadataBlocks_mono {a b : Nat} (h : a ≤ b) : metadataBlocks a ≤ metadataBlocks b := by
  rw [metadataBlocks_eq, metadataBlocks_eq]
  split_ifs <;> omega

theorem growth_eq (k : Nat) : growth k =
    if k = 12 then 1 else if k = 76 then 2
    else if 76 < k ∧ (k - 76) % 64 = 0 then 1 else 0 := by
  simp only [growth, metadataBlocks_eq]
  split_ifs <;> omega

variable {tab : INodeTableHandler} {cap : Nat} {R : MemoryDevice → Region → Prop}
  {data : Region} {n : INode} {b pi : Nat} {pool : List Nat}
  (hR : Region.Backed tab.dataStart cap R)

private theorem getElem?_of_drop {l rest : List Nat} {x : Nat} (h : l.drop pi = x :: rest) :
    l[pi]? = some x ∧ l.drop (pi + 1) = rest := by
  constructor
  · have := congrArg (fun t => t[0]?) h
    simpa using this
  · rw [← List.drop_drop, h]
    rfl

include hR

theorem runs_setPtr {p k x : Nat} (hp : p < cap) {f : Unit → DevM (INode × Nat)}
    {r : INode × Nat} {data' : Region}
    (h : Prog.Runs R (f ()) (data.setPtr p k x) r data') :
    Prog.Runs R (readBlock (tab.dataStart + p) >>= fun buf =>
      writeBlock (tab.dataStart + p) (buf.splice (k * 4) (leBytes 4 x)) >>= f) data r data' :=
  (hR.read hp).bind ((hR.write hp).bind h)

/-- The double indirect level. -/
private theorem placeDouble (h76 : 76 ≤ n.blocks) (hmax : n.blocks < 4172) (hb : b < 2 ^ 32)
    (hpool : (if n.blocks = 12 then 1 else if n.blocks = 76 then 2
      else if 76 < n.blocks ∧ (n.blocks - 76) % 64 = 0 then 1 else 0) ≤ (pool.drop pi).length)
    (hnd : (n.pointers data ++ pool.drop pi).Nodup)
    (hlt : ∀ p ∈ n.pointers data ++ pool.drop pi, p < cap) :
    ∃ n' data', Prog.Runs R
        (tab.writeDoubleIndirect n b pool pi
          (n.blocks - INode.DIRECT_COUNT - INode.INDIRECT_COUNT) >>= fun r =>
            pure ({ r.1 with blocks := r.1.blocks + 1 }, r.2)) data
        (n', pi + if n.blocks = 12 then 1 else if n.blocks = 76 then 2
          else if 76 < n.blocks ∧ (n.blocks - 76) % 64 = 0 then 1 else 0)
        data' ∧
      INode.Grown data n data' n' [b] ((pool.drop pi).take
        (if n.blocks = 12 then 1 else if n.blocks = 76 then 2
          else if 76 < n.blocks ∧ (n.blocks - 76) % 64 = 0 then 1 else 0)) := by
  have hsmall : ∀ p ∈ n.pointers data ++ pool.drop pi, p < 2 ^ 32 := by
    intro p hp
    have := hR.small (hlt p hp)
    omega
  have hindex : n.blocks - INode.DIRECT_COUNT - INode.INDIRECT_COUNT = n.blocks - 76 := by
    simp only [INode.DIRECT_COUNT, INode.indirectCount_eq]
    omega
  rw [hindex]
  by_cases heq : n.blocks = 76
  · -- the double indirect block and its first child are new
    rw [if_neg (by omega), if_pos heq] at hpool ⊢
    obtain ⟨f, rest, hdrop⟩ := List.exists_cons_of_length_pos (l := pool.drop pi) (by omega)
    obtain ⟨hf, hdrop'⟩ := getElem?_of_drop hdrop
    rw [hdrop, List.length_cons] at hpool
    obtain ⟨c, rest', hdropc⟩ := List.exists_cons_of_length_pos (l := pool.drop (pi + 1)) (by
      rw [hdrop']; omega)
    obtain ⟨hc, -⟩ := getElem?_of_drop hdropc
    have hdrop2 : pool.drop pi = f :: c :: rest' := by rw [hdrop, ← hdrop', hdropc]
    have hfm : f ∈ n.pointers data ++ pool.drop pi := by simp [hdrop2]
    have hcm : c ∈ n.pointers data ++ pool.drop pi := by simp [hdrop2]
    have hlen : ¬ pool.length < 2 := by
      have := congrArg List.length hdrop2
      simp only [List.length_drop, List.length_cons] at this
      omega
    have hnil : pool ≠ [] := by
      rintro rfl
      simp at hlen
    have htake : (pool.drop pi).take 2 = [f, c] := by rw [hdrop2]; rfl
    have hnd2 : (n.pointers data ++ [f, c]).Nodup := by
      refine hnd.sublist (List.Sublist.append_left ?_ _)
      rw [← htake]
      exact List.take_sublist _ _
    rw [htake]
    refine ⟨_, _, ?_, INode.grown_newChild (by omega) (by rw [INode.maxBlocks_eq]; exact hmax)
      (by omega) hb (hsmall f hfm) (hsmall c hcm) hnd2 (.inl ⟨heq, rfl⟩)⟩
    refine Prog.Runs.bind (a := ({ n with double := f }, pi + 2)) ?_ (Prog.Runs.pure _ _)
    refine Prog.Runs.branch (by omega) ?_
    refine Prog.Runs.guard hlen ?_
    refine (Prog.Runs.unwrap hf).bind ?_
    refine (Prog.Runs.pure _ _).bind ?_
    refine (Prog.Runs.checkedAdd (by rw [Nat.add_comm]; exact hR.small (hlt f hfm))).bind ?_
    rw [Nat.add_comm f]
    refine (hR.read (hlt f hfm)).bind ?_
    refine Prog.Runs.branch (by rw [heq]; rfl) ?_
    refine Prog.Runs.guard hnil ?_
    refine (Prog.Runs.unwrap hc).bind ?_
    refine (Prog.Runs.pure _ _).bind ?_
    refine (Prog.Runs.checkedAdd (by rw [Nat.add_comm]; exact hR.small (hlt c hcm))).bind ?_
    rw [Nat.add_comm c]
    have hzero : (n.blocks - 76) % INode.INDIRECT_COUNT = 0 := by rw [heq]; rfl
    rw [hzero]
    refine runs_setPtr hR (k := 0) (hlt c hcm) ?_
    refine Prog.Runs.branch rfl ?_
    exact runs_setPtr hR (hlt f hfm) (Prog.Runs.pure _ _)
  have hlt76 : 76 < n.blocks := by omega
  have hdbl : n.double ∈ n.pointers data ++ pool.drop pi :=
    List.mem_append_left _ (INode.double_mem hlt76)
  by_cases hmod : (n.blocks - 76) % 64 = 0
  · -- a new child
    simp only [heq, hlt76, hmod, and_self, show n.blocks ≠ 12 by omega, if_false,
      if_true] at hpool ⊢
    obtain ⟨c, rest, hdrop⟩ := List.exists_cons_of_length_pos (l := pool.drop pi) (by omega)
    obtain ⟨hc, -⟩ := getElem?_of_drop hdrop
    have hcm : c ∈ n.pointers data ++ pool.drop pi := by simp [hdrop]
    have hnil : pool ≠ [] := by
      rintro rfl
      simp at hdrop
    have htake : (pool.drop pi).take 1 = [c] := by rw [hdrop]; rfl
    have hnd1 : (n.pointers data ++ [c]).Nodup := by
      refine hnd.sublist (List.Sublist.append_left ?_ _)
      rw [← htake]
      exact List.take_sublist _ _
    rw [htake]
    refine ⟨_, _, ?_, INode.grown_newChild (by omega) (by rw [INode.maxBlocks_eq]; exact hmax)
      hmod hb (hsmall _ hdbl) (hsmall c hcm) hnd1 (.inr ⟨hlt76, rfl, rfl⟩)⟩
    refine Prog.Runs.bind (a := ({ n with double := n.double }, pi + 1)) ?_ (Prog.Runs.pure _ _)
    refine Prog.Runs.guard (by omega) ?_
    refine (Prog.Runs.pure _ _).bind ?_
    refine (Prog.Runs.checkedAdd (by rw [Nat.add_comm]; exact hR.small (hlt _ hdbl))).bind ?_
    rw [Nat.add_comm n.double]
    refine (hR.read (hlt _ hdbl)).bind ?_
    have hzero : (n.blocks - 76) % INode.INDIRECT_COUNT = 0 := hmod
    refine Prog.Runs.branch (by rw [hzero]) ?_
    refine Prog.Runs.guard hnil ?_
    refine (Prog.Runs.unwrap hc).bind ?_
    refine (Prog.Runs.pure _ _).bind ?_
    refine (Prog.Runs.checkedAdd (by rw [Nat.add_comm]; exact hR.small (hlt c hcm))).bind ?_
    rw [Nat.add_comm c, hzero]
    refine runs_setPtr hR (k := 0) (hlt c hcm) ?_
    refine Prog.Runs.branch rfl ?_
    exact runs_setPtr hR (hlt _ hdbl) (Prog.Runs.pure _ _)
  · -- the last child has room
    simp only [heq, hmod, and_false, show n.blocks ≠ 12 by omega, if_false, List.take_zero]
    have hchild : data.ptr n.double ((n.blocks - 76) / 64) ∈
        n.pointers data ++ pool.drop pi := by
      refine List.mem_append_left _ (INode.child_mem hlt76 ?_)
      simp only [INode.childCount]
      omega
    refine ⟨_, _, ?_, INode.grown_child hlt76 (by rw [INode.maxBlocks_eq]; exact hmax) hmod hb
      (List.nodup_append.mp hnd).1⟩
    refine Prog.Runs.bind (a := ({ n with double := n.double }, pi)) ?_ (Prog.Runs.pure _ _)
    refine Prog.Runs.guard (by omega) ?_
    refine (Prog.Runs.pure _ _).bind ?_
    refine (Prog.Runs.checkedAdd (by rw [Nat.add_comm]; exact hR.small (hlt _ hdbl))).bind ?_
    rw [Nat.add_comm n.double]
    refine (hR.read (hlt _ hdbl)).bind ?_
    have hoff : (n.blocks - 76) % INode.INDIRECT_COUNT * 4 ≠ 0 := by
      rw [INode.indirectCount_eq]
      omega
    refine Prog.Runs.guard hoff ?_
    refine (Prog.Runs.pure _ _).bind ?_
    refine (Prog.Runs.checkedAdd (by rw [Nat.add_comm]; exact hR.small (hlt _ hchild))).bind ?_
    rw [Nat.add_comm (Block.u32 _ _)]
    refine runs_setPtr hR (hlt _ hchild) ?_
    exact Prog.Runs.guard hoff (Prog.Runs.pure _ _)

/-- `add_block` at any size below the maximum: one content block, and the pointer
blocks it needs from the pool. -/
theorem runs_placeBlock (hmax : n.blocks < INode.MAX_BLOCKS) (hb : b < 2 ^ 32)
    (hpool : growth n.blocks ≤ (pool.drop pi).length)
    (hnd : (n.pointers data ++ pool.drop pi).Nodup)
    (hlt : ∀ p ∈ n.pointers data ++ pool.drop pi, p < cap) :
    ∃ n' data', Prog.Runs R (tab.placeBlock n b pool pi) data
        (n', pi + growth n.blocks) data' ∧
      INode.Grown data n data' n' [b] ((pool.drop pi).take (growth n.blocks)) := by
  have hsmall : ∀ p ∈ n.pointers data ++ pool.drop pi, p < 2 ^ 32 := by
    intro p hp
    have := hR.small (hlt p hp)
    omega
  rw [INode.maxBlocks_eq] at hmax
  rw [growth_eq] at hpool ⊢
  by_cases h12 : n.blocks < 12
  · simp only [show n.blocks ≠ 12 by omega, show n.blocks ≠ 76 by omega,
      show ¬ (76 < n.blocks ∧ (n.blocks - 76) % 64 = 0) by omega, if_false, List.take_zero]
    refine ⟨_, data, ?_, INode.grown_direct h12 hb⟩
    exact Prog.Runs.dbranch h12 ((Prog.Runs.pure _ _).bind (Prog.Runs.pure _ _))
  by_cases h76 : n.blocks < 76
  · by_cases heq : n.blocks = 12
    · simp only [heq, if_true] at hpool ⊢
      obtain ⟨f, rest, hdrop⟩ := List.exists_cons_of_length_pos (l := pool.drop pi) (by omega)
      have hget := getElem?_of_drop hdrop
      have hf : f ∈ n.pointers data ++ pool.drop pi := by simp [hdrop]
      rw [hdrop]
      refine ⟨_, _, ?_, INode.grown_indirect (by omega) h76 hb (hsmall f hf)
        (.inl ⟨heq, rfl⟩)⟩
      refine Prog.Runs.dguard (by simp only [INode.DIRECT_COUNT]; omega) ?_
      refine Prog.Runs.branch (by
        simp only [INode.DIRECT_COUNT, INode.indirectCount_eq]; omega) ?_
      refine Prog.Runs.bind (a := ({ n with indirect := f }, pi + 1)) ?_ (Prog.Runs.pure _ _)
      refine Prog.Runs.branch (by simp only [INode.DIRECT_COUNT]; omega) ?_
      refine Prog.Runs.guard (by rintro rfl; simp at hdrop) ?_
      refine (Prog.Runs.unwrap hget.1).bind ?_
      refine (Prog.Runs.pure _ _).bind ?_
      refine (Prog.Runs.checkedAdd (by rw [Nat.add_comm]; exact hR.small (hlt f hf))).bind ?_
      rw [Nat.add_comm f]
      exact runs_setPtr hR (hlt f hf) (Prog.Runs.pure _ _)
    · have hind : n.indirect ∈ n.pointers data := INode.indirect_mem (by omega)
      have hmem : n.indirect ∈ n.pointers data ++ pool.drop pi :=
        List.mem_append_left _ hind
      simp only [heq, show n.blocks ≠ 76 by omega,
        show ¬ (76 < n.blocks ∧ (n.blocks - 76) % 64 = 0) by omega, if_false, List.take_zero]
      refine ⟨_, _, ?_, INode.grown_indirect (by omega) h76 hb (hsmall _ hmem)
        (.inr ⟨by omega, rfl, rfl⟩)⟩
      refine Prog.Runs.dguard (by simp only [INode.DIRECT_COUNT]; omega) ?_
      refine Prog.Runs.branch (by
        simp only [INode.DIRECT_COUNT, INode.indirectCount_eq]; omega) ?_
      refine Prog.Runs.bind (a := ({ n with indirect := n.indirect }, pi)) ?_ (Prog.Runs.pure _ _)
      refine Prog.Runs.guard (by simp only [INode.DIRECT_COUNT]; omega) ?_
      refine (Prog.Runs.pure _ _).bind ?_
      refine (Prog.Runs.checkedAdd (by rw [Nat.add_comm]; exact hR.small (hlt _ hmem))).bind ?_
      rw [Nat.add_comm n.indirect]
      exact runs_setPtr hR (hlt _ hmem) (Prog.Runs.pure _ _)
  refine Exists.imp (fun n' => Exists.imp fun data' => And.imp_left fun hrun => ?_)
    (placeDouble hR (by omega) hmax hb hpool hnd hlt)
  refine Prog.Runs.dguard (by simp only [INode.DIRECT_COUNT]; omega) ?_
  refine Prog.Runs.guard (by simp only [INode.DIRECT_COUNT, INode.indirectCount_eq]; omega) ?_
  refine Prog.Runs.branch (by
    simp only [INode.DIRECT_COUNT, INode.indirectCount_eq, INode.DOUBLE_COUNT]; omega) ?_
  exact hrun

/-- The loop of `add_blocks`: every round takes what it needs from the front of
the rest of the pool. -/
theorem runs_placeBlocks : ∀ (bs : List Nat) (n : INode) (pi : Nat) (data : Region),
    n.blocks + bs.length ≤ INode.MAX_BLOCKS → (∀ b ∈ bs, b < 2 ^ 32) →
    metadataBlocks (n.blocks + bs.length) - metadataBlocks n.blocks ≤ (pool.drop pi).length →
    (n.pointers data ++ pool.drop pi).Nodup →
    (∀ p ∈ n.pointers data ++ pool.drop pi, p < cap) →
    ∃ n' data' pi', Prog.Runs R (tab.placeBlocks pool bs n pi) data (n', pi')
        data' ∧
      INode.Grown data n data' n' bs ((pool.drop pi).take
        (metadataBlocks (n.blocks + bs.length) - metadataBlocks n.blocks)) := by
  intro bs
  induction bs with
  | nil =>
      intro n pi data _ _ _ _ _
      refine ⟨n, data, pi, Prog.Runs.pure _ _, ?_⟩
      simpa using INode.Grown.refl
  | cons b bs ih =>
      intro n pi data hmax hbs hpool hnd hlt
      simp only [List.length_cons] at hmax hpool ⊢
      have hmono₁ := metadataBlocks_mono (show n.blocks ≤ n.blocks + 1 by omega)
      have hmono₂ := metadataBlocks_mono
        (show n.blocks + 1 ≤ n.blocks + (bs.length + 1) by omega)
      have hneed : metadataBlocks (n.blocks + (bs.length + 1)) - metadataBlocks n.blocks =
          growth n.blocks +
            (metadataBlocks (n.blocks + 1 + bs.length) - metadataBlocks (n.blocks + 1)) := by
        rw [show n.blocks + 1 + bs.length = n.blocks + (bs.length + 1) by omega, growth]
        omega
      rw [hneed] at hpool ⊢
      obtain ⟨n₁, data₁, hrun₁, hgrown₁⟩ := runs_placeBlock hR (n := n) (b := b)
        (by omega) (hbs b List.mem_cons_self) (by omega) hnd hlt
      have hblocks : n₁.blocks = n.blocks + 1 := hgrown₁.blocks
      have hrest : n₁.pointers data₁ ++ pool.drop (pi + growth n.blocks) =
          n.pointers data ++ pool.drop pi := by
        rw [hgrown₁.pointers, List.append_assoc, ← List.drop_drop, List.take_append_drop]
      obtain ⟨n₂, data₂, pi₂, hrun₂, hgrown₂⟩ := ih n₁ (pi + growth n.blocks)
        data₁ (by rw [hblocks]; omega)
        (fun k hk => hbs k (List.mem_cons_of_mem _ hk))
        (by rw [hblocks, ← List.drop_drop, List.length_drop]; omega)
        (by rw [hrest]; exact hnd) (by rw [hrest]; exact hlt)
      refine ⟨n₂, data₂, pi₂, hrun₁.bind hrun₂, ?_⟩
      have htrans := hgrown₁.trans hgrown₂
      rw [hblocks, ← List.drop_drop, ← List.take_add] at htrans
      exact htrans

/-- `add_blocks` with a pool that is large enough, up to the maximum size. -/
theorem runs_addBlocks {bs : List Nat} (hmax : n.blocks + bs.length ≤ INode.MAX_BLOCKS)
    (hbs : ∀ b ∈ bs, b < 2 ^ 32) (hpool : blocksNecessaryToGrowN n bs.length ≤ pool.length)
    (hnd : (n.pointers data ++ pool).Nodup) (hlt : ∀ p ∈ n.pointers data ++ pool, p < cap) :
    ∃ n' data', Prog.Runs R (tab.addBlocks n bs pool) data n' data' ∧
      INode.Grown data n data' n' bs (pool.take (blocksNecessaryToGrowN n bs.length)) := by
  by_cases hnil : bs = []
  · subst hnil
    refine ⟨n, data, Prog.Runs.branch rfl (Prog.Runs.pure _ _), ?_⟩
    simpa [blocksNecessaryToGrowN] using INode.Grown.refl
  obtain ⟨n', data', pi', hrun, hgrown⟩ := runs_placeBlocks hR bs n 0 data hmax hbs hpool hnd hlt
  refine ⟨n', data', ?_, hgrown⟩
  refine Prog.Runs.guard hnil ?_
  refine Prog.Runs.guard (Nat.not_lt.mpr hmax) ?_
  refine Prog.Runs.guard (Nat.not_lt.mpr hpool) ?_
  exact hrun.bind (Prog.Runs.pure _ _)

/-- `add_blocks` fails at the maximum size, before it touches anything. -/
theorem wpa_addBlocks {bs : List Nat} (hbs : ∀ b ∈ bs, b < 2 ^ 32)
    (hpool : blocksNecessaryToGrowN n bs.length ≤ pool.length)
    (hnd : (n.pointers data ++ pool).Nodup)
    (hlt : ∀ p ∈ n.pointers data ++ pool, p < cap) :
    Prog.wpa R (tab.addBlocks n bs pool)
      (fun n' data' => (bs ≠ [] → n.blocks + bs.length ≤ INode.MAX_BLOCKS) ∧
        INode.Grown data n data' n' bs (pool.take (blocksNecessaryToGrowN n bs.length)))
      (fun e data' => data' = data ∧ n.blocks + bs.length > INode.MAX_BLOCKS ∧
        e = .maxINodeSize (n.blocks + bs.length) INode.MAX_BLOCKS) False data := by
  by_cases hmax : n.blocks + bs.length ≤ INode.MAX_BLOCKS
  · obtain ⟨n', data', hrun, hgrown⟩ := runs_addBlocks hR hmax hbs hpool hnd hlt
    exact hrun.wpa ⟨fun _ => hmax, hgrown⟩
  refine Prog.wpa_ite ?_ fun _ => ?_
  · rintro rfl
    refine Prog.wpa_pure ⟨fun h => absurd rfl h, ?_⟩
    simpa [blocksNecessaryToGrowN] using INode.Grown.refl
  exact Prog.wpa_guard (fun hmax => ⟨rfl, hmax, rfl⟩) fun h => absurd (Nat.not_lt.mp h) hmax

/-- `add_block`, likewise. -/
theorem runs_addBlock (hmax : n.blocks < INode.MAX_BLOCKS) (hb : b < 2 ^ 32)
    (hpool : blocksNecessaryToGrow n ≤ pool.length) (hnd : (n.pointers data ++ pool).Nodup)
    (hlt : ∀ p ∈ n.pointers data ++ pool, p < cap) :
    ∃ n' data', Prog.Runs R (tab.addBlock n b pool) data n' data' ∧
      INode.Grown data n data' n' [b] (pool.take (blocksNecessaryToGrow n)) := by
  obtain ⟨n', data', hrun, hgrown⟩ :=
    @runs_placeBlock tab cap R data n b 0 pool hR hmax hb hpool hnd hlt
  exact ⟨n', data', Prog.Runs.guard (Nat.not_le.mpr hmax) (hrun.bind (Prog.Runs.pure _ _)), hgrown⟩

theorem wpa_addBlock (hb : b < 2 ^ 32) (hpool : blocksNecessaryToGrow n ≤ pool.length)
    (hnd : (n.pointers data ++ pool).Nodup)
    (hlt : ∀ p ∈ n.pointers data ++ pool, p < cap) :
    Prog.wpa R (tab.addBlock n b pool)
      (fun n' data' => n.blocks < INode.MAX_BLOCKS ∧
        INode.Grown data n data' n' [b] (pool.take (blocksNecessaryToGrow n)))
      (fun _ data' => data' = data ∧ n.blocks ≥ INode.MAX_BLOCKS) False data := by
  by_cases hmax : n.blocks < INode.MAX_BLOCKS
  · obtain ⟨n', data', hrun, hgrown⟩ := runs_addBlock hR hmax hb hpool hnd hlt
    exact hrun.wpa ⟨hmax, hgrown⟩
  · exact Prog.wpa_guard (fun hmax => ⟨rfl, hmax⟩) fun h => absurd (Nat.not_le.mp h) hmax

end INodeTableHandler

namespace Geom

open INodeTableHandler

variable {g : Geom} {v : View} {n : INode} {b : Nat} {pool : List Nat}

theorem wpa_addBlocks {bs : List Nat} (hbs : ∀ b ∈ bs, b < 2 ^ 32)
    (hpool : blocksNecessaryToGrowN n bs.length ≤ pool.length)
    (hnd : (n.pointers v.data ++ pool).Nodup)
    (hlt : ∀ p ∈ n.pointers v.data ++ pool, p < g.cap) :
    Prog.wpa g.Holds (g.inodeHandler.addBlocks n bs pool)
      (fun n' v' => ∃ data', v' = { v with data := data' } ∧
        (bs ≠ [] → n.blocks + bs.length ≤ INode.MAX_BLOCKS) ∧
        INode.Grown v.data n data' n' bs (pool.take (blocksNecessaryToGrowN n bs.length)))
      (fun e v' => v' = v ∧ n.blocks + bs.length > INode.MAX_BLOCKS ∧
        e = .maxINodeSize (n.blocks + bs.length) INode.MAX_BLOCKS) False v := by
  refine Prog.wpa_retract (INodeTableHandler.wpa_addBlocks (backed g v) hbs hpool hnd hlt)
    ?_ ?_ ?_
  · exact fun d hd => hd
  · intro n' data' d' hd' hgrown
    exact ⟨_, hd', data', rfl, hgrown⟩
  · intro e data' d' hd' herr
    obtain ⟨rfl, hmax⟩ := herr
    exact ⟨_, hd', rfl, hmax⟩

theorem wpa_addBlock (hb : b < 2 ^ 32) (hpool : blocksNecessaryToGrow n ≤ pool.length)
    (hnd : (n.pointers v.data ++ pool).Nodup)
    (hlt : ∀ p ∈ n.pointers v.data ++ pool, p < g.cap) :
    Prog.wpa g.Holds (g.inodeHandler.addBlock n b pool)
      (fun n' v' => ∃ data', v' = { v with data := data' } ∧ n.blocks < INode.MAX_BLOCKS ∧
        INode.Grown v.data n data' n' [b] (pool.take (blocksNecessaryToGrow n)))
      (fun _ v' => v' = v ∧ n.blocks ≥ INode.MAX_BLOCKS) False v := by
  refine Prog.wpa_retract (INodeTableHandler.wpa_addBlock (backed g v) hb hpool hnd hlt) ?_ ?_ ?_
  · exact fun d hd => hd
  · intro n' data' d' hd' hgrown
    exact ⟨_, hd', data', rfl, hgrown⟩
  · intro e data' d' hd' herr
    obtain ⟨rfl, hmax⟩ := herr
    exact ⟨_, hd', rfl, hmax⟩

/-- The first block of a new inode. -/
theorem runs_addBlock_empty {t : FileType} {perm now : Nat} :
    Prog.Runs g.Holds (g.inodeHandler.addBlock (INode.empty t perm now) b []) v
      { INode.empty t perm now with
        direct := Function.update (INode.empty t perm now).direct 0 b, blocks := 1 } v :=
  fun d hd => ⟨d, rfl, hd⟩

end Geom

end FerrisFS
