import FerrisFS.V1.FileData

/-!
# Writing to open files

`write` first makes room: pointer blocks for the whole request, then as many data
blocks as the bitmap yields. What comes after is one overwritten range of the
file's bytes, as long as the blocks it has.
-/

namespace FerrisFS

open Lib DirectoryHandler INodeTableHandler FormatV1

/-- The data region with the given blocks zeroed. -/
def zeroed (data : Region) (ds : List Nat) : Region :=
  fun b => if b ∈ ds then Block.zero else data b

theorem zeroed_of_not_mem {data : Region} {ds : List Nat} {b : Nat} (h : b ∉ ds) :
    zeroed data ds b = data b := if_neg h

theorem setBits_append {bit : Nat → Bool} {l l' : List Nat} :
    setBits (setBits bit l true) l' true = setBits bit (l ++ l') true := by
  funext j
  simp only [setBits, List.mem_append]
  by_cases h : j ∈ l <;> by_cases h' : j ∈ l' <;> simp [h, h']

theorem setBits_undo {bit : Nat → Bool} {l : List Nat} (h : ∀ j ∈ l, bit j = false) :
    setBits (setBits bit l true) l false = bit := by
  funext j
  simp only [setBits]
  split
  · exact (h j ‹_›).symm
  · rfl

/-- The blocks `metas` are marked, and not counted. -/
def St.marked (t : St) (metas : List Nat) : St :=
  { t with
    dbit := setBits t.dbit metas true
    lastData := metas.getLastD t.lastData }

def St.withData (t : St) (data : Region) : St := { t with data := data }

namespace Geom

variable {g : Geom} {gaps : Bool} {t t' : St} {n : INode}

theorem runs_zeroBlocks : ∀ (ds : List Nat) (v : View), (∀ b ∈ ds, b < g.cap) →
    Prog.Runs g.Holds (zeroBlocks g.dataStart ds) v () { v with data := zeroed v.data ds }
  | [], v, _ => by
      have hz : zeroed v.data [] = v.data := by
        funext b
        simp [zeroed]
      rw [hz]
      exact Prog.Runs.pure _ _
  | d :: ds, v, h => by
      have hd := h d List.mem_cons_self
      have hrest := runs_zeroBlocks ds { v with data := Function.update v.data d Block.zero }
        fun b hb => h b (List.mem_cons_of_mem _ hb)
      have hz : zeroed (Function.update v.data d Block.zero) ds = zeroed v.data (d :: ds) := by
        funext b
        simp only [zeroed, List.mem_cons, Function.update_apply]
        by_cases hb : b ∈ ds <;> by_cases hbd : b = d <;> simp [hb, hbd]
      dsimp only at hrest
      rw [hz] at hrest
      exact (Prog.Runs.checkedAdd (ptr_small hd)).bind ((runs_writeData hd).bind hrest)

/-- The blocks `write` takes to grow by `need` blocks: the pointer blocks for all of
them, and as many data blocks as there are. -/
structure Growth (g : Geom) (t : St) (n : INode) (need : Nat) (metas datas : List Nat) :
    Prop where
  metas_eq : metas = g.pickData t (blocksNecessaryToGrowN n need)
  metas_length : metas.length = blocksNecessaryToGrowN n need
  datas_eq : datas = g.pickData (t.marked metas) need
  need_lt : need < U32

namespace Growth

variable {need : Nat} {metas datas : List Nat}

theorem fresh (h : g.Growth t n need metas datas) : g.FreshData t (metas ++ datas) := by
  have hm : g.FreshData t metas := h.metas_eq ▸ fresh_pickData
  have hd : g.FreshData (t.marked metas) datas := h.datas_eq ▸ fresh_pickData
  have hclear : ∀ b ∈ datas, b ∉ metas ∧ t.dbit b = false := by
    intro b hb
    have hb' := hd.clear b hb
    simp only [St.marked, setBits] at hb'
    split at hb'
    · cases hb'
    · exact ⟨‹_›, hb'⟩
  refine ⟨List.nodup_append.mpr ⟨hm.nodup, hd.nodup, ?_⟩, ?_, ?_⟩
  · rintro b hb b' hb' rfl
    exact (hclear b hb').1 hb
  · intro b hb
    rcases List.mem_append.mp hb with hb | hb
    · exact hm.clear b hb
    · exact (hclear b hb).2
  · intro b hb
    rcases List.mem_append.mp hb with hb | hb
    · exact hm.lt b hb
    · exact hd.lt b hb

/-- There are not more than the data region has. -/
theorem length_le (h : g.Growth t n need metas datas) : datas.length + metas.length ≤ g.cap := by
  have hsub : metas ++ datas ⊆ List.range g.cap := by
    intro b hb
    exact List.mem_range.mpr (h.fresh.lt b hb)
  have hle := (List.subperm_of_subset h.fresh.nodup hsub).length_le
  rw [List.length_append, List.length_range] at hle
  omega

theorem datas_le (h : g.Growth t n need metas datas) : datas.length ≤ need := by
  rw [h.datas_eq]
  exact BitmapAllocator.pick_length_le

theorem pool_le (h : g.Growth t n need metas datas) :
    blocksNecessaryToGrowN n datas.length ≤ metas.length := by
  rw [h.metas_length, blocksNecessaryToGrowN, blocksNecessaryToGrowN]
  have := metadataBlocks_mono (Nat.add_le_add_left h.datas_le n.blocks)
  omega

end Growth

/-- How the growth part of `write` fails: too few pointer blocks, no data block, or
an inode that would get too large, after everything was marked. -/
inductive GrowFailed (g : Geom) (t : St) (n : INode) (need : Nat) : FSError → St → Prop where
  | short (hneed : need < U32) (h : (g.pickData t (blocksNecessaryToGrowN n need)).length <
        blocksNecessaryToGrowN n need) :
      GrowFailed g t n need (.storageFull .dataRegionFull (blocksNecessaryToGrowN n need)
        (g.pickData t (blocksNecessaryToGrowN n need)).length) t
  | empty {metas : List Nat} (h : g.Growth t n need metas []) :
      GrowFailed g t n need (.storageFull .dataRegionFull need 0)
        { t with lastData := metas.getLastD t.lastData }
  | tooLarge {metas datas : List Nat} (h : g.Growth t n need metas datas) (hne : datas ≠ [])
      (hmax : n.blocks + datas.length > INode.MAX_BLOCKS) :
      GrowFailed g t n need (.maxINodeSize (n.blocks + datas.length) INode.MAX_BLOCKS)
        (((t.marked metas).marked datas).withData (zeroed t.data datas))

/-- When the growth part of `write` panics: the number of blocks overflows, or the count of
free blocks does. -/
inductive GrowPanics (g : Geom) (t : St) (n : INode) (need : Nat) : Prop where
  | need (h : ¬ need < U32)
  | count {metas datas : List Nat} (h : g.Growth t n need metas datas) (hne : datas ≠ [])
      (hmax : n.blocks + datas.length ≤ INode.MAX_BLOCKS)
      (hcount : ¬ datas.length + metas.length ≤ t.freeData)

/-- The inode and the data region that `write` goes on with. -/
inductive Prepared (g : Geom) (t : St) (n : INode) (finalBlock : Nat) :
    List Nat → List Nat → Region → INode → Prop where
  | enough (h : finalBlock < n.blocks) : Prepared g t n finalBlock [] [] t.data n
  | grown {metas datas : List Nat} {data₁ : Region} {n₁ : INode} (h : ¬ finalBlock < n.blocks)
      (hg : g.Growth t n (finalBlock - n.blocks + 1) metas datas) (hne : datas ≠ [])
      (hmax : n.blocks + datas.length ≤ INode.MAX_BLOCKS)
      (hgrown : INode.Grown (zeroed t.data datas) n data₁ n₁ datas
        (metas.take (blocksNecessaryToGrowN n datas.length)))
      (hcount : datas.length + metas.length ≤ t.freeData) :
      Prepared g t n finalBlock metas datas data₁ n₁

/-- The state in which the loop of `write` starts. -/
def grownState (t : St) (metas datas : List Nat) (data : Region) : St :=
  { (t.marked metas).marked datas with
    freeData := t.freeData - (datas.length + metas.length)
    data := data }

/-- What `find_free` yields of the data bitmap, by the allocator of `t`. -/
theorem runs_findData (hcur : t.CursorsIn g) {k : Nat} {l : List Nat} (hl : l = g.pickData t k) :
    Prog.Runs g.Rep (onDevice ((g.blockAllocator t.lastData).findFree k)) t l t := by
  rw [hl]
  exact runs_onDevice (runs_findFree_data hcur.lastData)

theorem cursorsIn_marked {l : List Nat} (hcur : t.CursorsIn g) (hl : g.FreshData t l) :
    (t.marked l).CursorsIn g :=
  ⟨hcur.lastInode, getLastD_lt hcur.lastData hl.bits⟩

theorem wpa_growForWrite (hcur : t.CursorsIn g) (hm : n.Mapped g t.data)
    (hnd : (n.owned t.data).Nodup) (hmark : ∀ b ∈ n.owned t.data, t.dbit b = true)
    {finalBlock : Nat} (hf : ¬ finalBlock < n.blocks) :
    Prog.wpa g.Rep (growForWrite n finalBlock)
      (fun n₁ t' => ∃ metas datas data₁, g.Prepared t n finalBlock metas datas data₁ n₁ ∧
        t' = grownState t metas datas data₁)
      (fun e t' => g.GrowFailed t n (finalBlock - n.blocks + 1) e t')
      (g.GrowPanics t n (finalBlock - n.blocks + 1)) t := by
  refine runs_getFormat.andThen ?_
  refine Prog.wpa_checkedAdd (fun hneed => ?_) .need
  obtain ⟨metas, hmeq⟩ : ∃ metas, metas = g.pickData t (blocksNecessaryToGrowN n
      (finalBlock - n.blocks + 1)) := ⟨_, rfl⟩
  have hmetas : g.FreshData t metas := hmeq ▸ fresh_pickData
  refine (runs_findData hcur hmeq).andThen ?_
  refine Prog.wpa_guard (fun hshort => ?_) fun hshort => ?_
  · rw [hmeq] at hshort ⊢
    exact .short hneed hshort
  have hmlen : metas.length = blocksNecessaryToGrowN n (finalBlock - n.blocks + 1) :=
    Nat.le_antisymm (hmeq ▸ BitmapAllocator.pick_length_le) (Nat.not_lt.mp hshort)
  refine (runs_onDevice (runs_allocate_data hmetas.bits)).andThen ?_
  refine wpa_modifyFormat (t.marked metas) rfl rfl ?_
  obtain ⟨datas, hdeq⟩ : ∃ datas, datas = g.pickData (t.marked metas)
      (finalBlock - n.blocks + 1) := ⟨_, rfl⟩
  have hgrowth : g.Growth t n (finalBlock - n.blocks + 1) metas datas :=
    ⟨hmeq, hmlen, hdeq, hneed⟩
  have hdatas : g.FreshData (t.marked metas) datas := hdeq ▸ fresh_pickData
  refine (runs_findData (cursorsIn_marked hcur hmetas) hdeq).andThen ?_
  refine Prog.wpa_ite ?_ fun hne => ?_
  · rintro rfl
    refine (runs_onDevice (runs_deallocate_data hmetas.bits)).andThen
      (Prog.wpa_bind (Prog.wpa_fail ?_))
    have hundo : setBits (t.marked metas).dbit metas false = t.dbit :=
      setBits_undo hmetas.clear
    rw [hundo]
    exact .empty hgrowth
  refine (runs_onDevice (runs_allocate_data hdatas.bits)).andThen ?_
  refine wpa_modifyFormat ((t.marked metas).marked datas) rfl rfl ?_
  refine (runs_onDevice (runs_zeroBlocks datas _ hdatas.lt)).andThen ?_
  -- the new blocks are not pointer blocks, so zeroing them changes no pointer
  have hclear : ∀ b ∈ metas ++ datas, b ∉ n.owned t.data := by
    intro b hb howned
    have h := hmark b howned
    rw [hgrowth.fresh.clear b hb] at h
    cases h
  have hptr : ∀ p ∈ n.pointers t.data, zeroed t.data datas p = t.data p := by
    intro p hp
    refine zeroed_of_not_mem fun hpd => ?_
    exact hclear p (List.mem_append_right _ hpd) (List.mem_append_right _ hp)
  have hpeq : n.pointers (zeroed t.data datas) = n.pointers t.data := INode.pointers_congr hptr
  have hcap := g.cap_lt
  have hadd := wpa_addBlocks (g := g) (n := n)
    (v := (((t.marked metas).marked datas).withData (zeroed t.data datas)).toView)
    (fun b hb => Nat.lt_trans (hdatas.lt b hb) (by omega)) hgrowth.pool_le
    (by
      show (n.pointers (zeroed t.data datas) ++ metas).Nodup
      rw [hpeq]
      refine List.nodup_append.mpr ⟨(List.nodup_append.mp hnd).2.1, hmetas.nodup, ?_⟩
      rintro p hp _ hq rfl
      exact hclear p (List.mem_append_left _ hq) (List.mem_append_right _ hp))
    (by
      show ∀ p ∈ n.pointers (zeroed t.data datas) ++ metas, p < g.cap
      rw [hpeq]
      intro p hp
      rcases List.mem_append.mp hp with hp | hp
      · exact hm.pointers p hp
      · exact hmetas.lt p hp)
  refine Prog.wpa_bind (wpa_onDevice
    (t := ((t.marked metas).marked datas).withData (zeroed t.data datas)) ?_)
  refine Prog.wpa_mono hadd ?_ ?_ False.elim
  · rintro n₁ _ ⟨data₁, rfl, hmax, hgrown⟩
    have hused : datas.length + blocksNecessaryToGrowN n (finalBlock - n.blocks + 1) < U32 := by
      have := hgrowth.length_le
      rw [← hmlen, U32]
      omega
    refine (Prog.Runs.checkedAdd hused).andThen ?_
    refine Prog.wpa_checkedSub (fun hcount => ?_) fun hcount => ?_
    · refine wpa_modifyFormat (grownState t metas datas data₁) ?_ rfl (Prog.wpa_pure ?_)
      · rw [← hmlen]
        rfl
      · exact ⟨metas, datas, data₁, .grown hf hgrowth hne (hmax hne) hgrown (hmlen ▸ hcount),
          rfl⟩
    · exact .count hgrowth hne (hmax hne) (hmlen ▸ hcount)
  · rintro _ _ ⟨rfl, hmax, rfl⟩
    exact .tooLarge hgrowth hne hmax

namespace Prepared

variable {finalBlock : Nat} {metas datas : List Nat} {data₁ : Region} {n₁ : INode}

theorem fresh (h : g.Prepared t n finalBlock metas datas data₁ n₁) :
    g.FreshData t (metas ++ datas) := by
  cases h with
  | enough h => exact ⟨List.nodup_nil, by simp, by simp⟩
  | grown h hg => exact hg.fresh

/-- The blocks of the request that the inode took. -/
def took (n : INode) (metas datas : List Nat) : List Nat :=
  metas.take (blocksNecessaryToGrowN n datas.length) ++ datas

theorem took_sublist : (took n metas datas).Sublist (metas ++ datas) :=
  (List.take_sublist _ _).append_right _

theorem grows (h : g.Prepared t n finalBlock metas datas data₁ n₁) :
    INode.Grown (zeroed t.data datas) n data₁ n₁ datas
      (metas.take (blocksNecessaryToGrowN n datas.length)) := by
  cases h with
  | enough h =>
      have hz : zeroed t.data [] = t.data := by
        funext b
        simp [zeroed]
      rw [hz, List.take_nil]
      exact INode.Grown.refl
  | grown h hg hne hmax hgrown => exact hgrown

theorem count_le (h : g.Prepared t n finalBlock metas datas data₁ n₁) :
    datas.length + metas.length ≤ t.freeData := by
  cases h with
  | enough h => exact Nat.zero_le _
  | grown h hg hne hmax hgrown hcount => exact hcount

theorem blocks_le (h : g.Prepared t n finalBlock metas datas data₁ n₁)
    (hn : n.blocks ≤ INode.MAX_BLOCKS) : n₁.blocks ≤ INode.MAX_BLOCKS := by
  rw [h.grows.blocks]
  cases h with
  | enough h => exact hn
  | grown h hg hne hmax hgrown => exact hmax

variable (h : g.Prepared t n finalBlock metas datas data₁ n₁) (hnd : (n.owned t.data).Nodup)
  (hmark : ∀ b ∈ n.owned t.data, t.dbit b = true)

include h hmark

theorem disjoint {b : Nat} (hb : b ∈ metas ++ datas) : b ∉ n.owned t.data := by
  intro howned
  have hset := hmark b howned
  rw [h.fresh.clear b hb] at hset
  cases hset

theorem zeroed_of_owned {b : Nat} (hb : b ∈ n.owned t.data) : zeroed t.data datas b = t.data b :=
  zeroed_of_not_mem fun hd => h.disjoint hmark (List.mem_append_right _ hd) hb

theorem pointers_eq : n₁.pointers data₁ =
    n.pointers t.data ++ metas.take (blocksNecessaryToGrowN n datas.length) := by
  rw [h.grows.pointers, INode.pointers_congr fun p hp =>
    h.zeroed_of_owned hmark (List.mem_append_right _ hp)]

theorem content_eq : n₁.content data₁ = n.content t.data ++ datas := by
  rw [h.grows.content, INode.content_congr fun p hp =>
    h.zeroed_of_owned hmark (List.mem_append_right _ hp)]

theorem owned_perm : (n₁.owned data₁).Perm (n.owned t.data ++ took n metas datas) := by
  rw [INode.owned, h.content_eq hmark, h.pointers_eq hmark, INode.owned, took,
    List.append_assoc, List.append_assoc]
  refine List.Perm.append_left _ ?_
  exact List.perm_append_comm.trans (by rw [List.append_assoc])

theorem data_eq {b : Nat} (hp : b ∉ n.pointers t.data) (hm : b ∉ metas) :
    data₁ b = zeroed t.data datas b := by
  refine h.grows.frame b ?_
  rw [INode.pointers_congr fun p hp => h.zeroed_of_owned hmark (List.mem_append_right _ hp)]
  intro hb
  rcases List.mem_append.mp hb with hb | hb
  · exact hp hb
  · exact hm (List.mem_of_mem_take hb)

theorem mapped (hm : n.Mapped g t.data) : n₁.Mapped g data₁ where
  blocks_le := h.blocks_le hm.blocks_le
  lt b hb := by
    rcases List.mem_append.mp ((h.owned_perm hmark).mem_iff.mp hb) with hb | hb
    · exact hm.lt b hb
    · exact h.fresh.lt b (took_sublist.subset hb)

include hnd

theorem nodup : (n₁.owned data₁).Nodup := by
  refine (h.owned_perm hmark).nodup_iff.mpr (List.nodup_append.mpr ⟨hnd, ?_, ?_⟩)
  · exact h.fresh.nodup.sublist took_sublist
  · rintro b hb _ hb' rfl
    exact h.disjoint hmark (took_sublist.subset hb') hb

/-- The bytes of the file go on with zeros. -/
theorem fileBytes_eq : n₁.fileBytes data₁ =
    n.fileBytes t.data ++ List.replicate (BLOCK_SIZE * datas.length) 0 := by
  obtain ⟨-, hdnd, hdis⟩ := List.nodup_append.mp h.fresh.nodup
  have hold : (n.content t.data).map (fun b => (data₁ b).bytes) =
      (n.content t.data).map fun b => (t.data b).bytes := by
    refine List.map_congr_left fun b hb => ?_
    have howned : b ∈ n.owned t.data := List.mem_append_left _ hb
    rw [h.data_eq hmark, h.zeroed_of_owned hmark howned]
    · exact fun hp => (List.nodup_append.mp hnd).2.2 b hb b hp rfl
    · exact fun hm => h.disjoint hmark (List.mem_append_left _ hm) howned
  have hnew : datas.map (fun b => (data₁ b).bytes) =
      datas.map fun _ => List.replicate BLOCK_SIZE 0 := by
    refine List.map_congr_left fun b hb => ?_
    rw [h.data_eq hmark, zeroed, if_pos hb]
    · rfl
    · exact fun hp => h.disjoint hmark (List.mem_append_right _ hb) (List.mem_append_right _ hp)
    · exact fun hm => hdis b hm b hb rfl
  rw [INode.fileBytes, h.content_eq hmark, List.map_append, List.flatten_append, hold, hnew,
    INode.fileBytes]
  congr 1
  rw [List.map_const', List.flatten_replicate_replicate, Nat.mul_comm]

end Prepared

/-- How `write` succeeds on a buffer that is not empty: it wrote `k` bytes of it. -/
structure Wrote (g : Geom) (t : St) (id : Nat) (m : FileMetadata) (buf : List UInt8)
    (now : UInt64) (metas datas : List Nat) (data₁ : Region) (n₁ : INode) (data' : Region)
    (k : Nat) (t' : St) : Prop where
  opened : t.openFiles id = some m
  nonempty : buf ≠ []
  last_lt : m.offset + buf.length < U64
  prepared : g.Prepared t (t.ino m.inode) ((m.offset + buf.length - 1) / BLOCK_SIZE % U32)
    metas datas data₁ n₁
  count : k = min buf.length (BLOCK_SIZE * n₁.blocks -
    (BLOCK_SIZE * (m.offset / BLOCK_SIZE % U32) + m.offset % BLOCK_SIZE))
  bytes : n₁.fileBytes data' = splice (n₁.fileBytes data₁)
    (BLOCK_SIZE * (m.offset / BLOCK_SIZE % U32) + m.offset % BLOCK_SIZE) (buf.take k)
  frame : ∀ b, b ∉ n₁.content data₁ → data' b = data₁ b
  state : t' = { (grownState t metas datas data₁).written id m (m.offset + k) data' with
    ino := Function.update t.ino m.inode
      { n₁ with size := max n₁.size (m.offset + k), modified := now.toNat } }

/-- How `write` fails. -/
inductive WriteFailed (g : Geom) (t : St) (id : Nat) (len : Nat) : FSError → St → Prop where
  | closed (hopen : t.openFiles id = none) : WriteFailed g t id len (.fileNotOpen id) t
  | grow {m : FileMetadata} {e : FSError} {t' : St} (hopen : t.openFiles id = some m)
      (hne : len ≠ 0) (hlast : m.offset + len < U64)
      (hfinal : ¬ (m.offset + len - 1) / BLOCK_SIZE % U32 < (t.ino m.inode).blocks)
      (h : g.GrowFailed t (t.ino m.inode)
        ((m.offset + len - 1) / BLOCK_SIZE % U32 - (t.ino m.inode).blocks + 1) e t') :
      WriteFailed g t id len e t'

/-- When `write` panics: the position after the last byte is no `u64`, or the growth
panics. -/
inductive WritePanics (g : Geom) (t : St) (id : Nat) (len : Nat) : Prop where
  | position {m : FileMetadata} (hopen : t.openFiles id = some m) (hne : len ≠ 0)
      (h : ¬ m.offset + len < U64)
  | grow {m : FileMetadata} (hopen : t.openFiles id = some m) (hne : len ≠ 0)
      (hfinal : ¬ (m.offset + len - 1) / BLOCK_SIZE % U32 < (t.ino m.inode).blocks)
      (h : g.GrowPanics t (t.ino m.inode)
        ((m.offset + len - 1) / BLOCK_SIZE % U32 - (t.ino m.inode).blocks + 1))

theorem grownState_nil : grownState t [] [] t.data = t := by
  simp [grownState, St.marked, setBits_nil]

/-- There is only one file behind a handle. -/
theorem Usable.handle {id : Nat} {m : FileMetadata} (hu : g.Usable t m.inode)
    (hopen : t.openFiles id = some m) :
    ∀ m', t.openFiles id = some m' → g.Usable t m'.inode := by
  intro m' hm'
  rw [hopen] at hm'
  cases hm'
  exact hu

theorem wpa_handle {β : Type} {f : FileMetadata → FsM β} {Q : β → St → Prop}
    {E : FSError → St → Prop} {A : Prop} {id : Nat}
    (herr : t.openFiles id = none → E (.fileNotOpen id) t)
    (h : ∀ m, t.openFiles id = some m → Prog.wpa g.Rep (f m) Q E A t) :
    Prog.wpa g.Rep (handle id >>= f) Q E A t := by
  cases hopen : t.openFiles id with
  | none =>
      refine Prog.wpa_bind (runs_getFormat.andThen ?_)
      have hf : (g.format t).openFiles id = none := hopen
      rw [hf]
      exact Prog.wpa_fail (herr hopen)
  | some m => exact (runs_handle hopen).andThen (h m hopen)

theorem wpr_handle {β : Type} {f : FileMetadata → FsM β} {Q : β → St → Prop}
    {E : FSError → St → Prop} {id : Nat}
    (herr : t.openFiles id = none → E (.fileNotOpen id) t)
    (h : ∀ m, t.openFiles id = some m → Prog.wpr g.Rep (f m) Q E t) :
    Prog.wpr g.Rep (handle id >>= f) Q E t :=
  wpa_handle herr h

theorem wpa_write {id : Nat} {buf : List UInt8} {now : UInt64}
    (h : ∀ m, t.openFiles id = some m → g.Usable t m.inode) :
    Prog.wpa g.Rep (write id buf now)
      (fun r t' => buf = [] ∧ r = 0 ∧ t' = t ∨ ∃ m metas datas data₁ n₁ data',
        g.Wrote t id m buf now metas datas data₁ n₁ data' r t')
      (fun e t' => g.WriteFailed t id buf.length e t') (g.WritePanics t id buf.length) t := by
  refine wpa_handle .closed fun m hopen => ?_
  refine Prog.wpa_ite (fun hnil => Prog.wpa_pure (.inl ⟨hnil, rfl, rfl⟩)) fun hne => ?_
  have hlen : buf.length ≠ 0 := fun h0 => hne (List.length_eq_zero_iff.mp h0)
  have h := h m hopen
  have hlt := h.lt
  refine runs_getFormat.andThen ?_
  refine (runs_onDevice (runs_readInode hlt)).andThen ?_
  refine Prog.wpa_checkedAdd (fun hlast => ?_) (.position hopen hlen)
  have hnd := h.nodup
  have hmark := h.marked
  have hrest : ∀ {metas datas data₁ n₁} (allocated : Bool), g.Prepared t (t.ino m.inode)
      ((m.offset + buf.length - 1) / BLOCK_SIZE % U32) metas datas data₁ n₁ →
      Prog.wpa g.Rep (do
        let wrote ← writeLoop id n₁ (buf.length + 1) ((m.offset / BLOCK_SIZE) % U32)
          (m.offset % BLOCK_SIZE) Block.zero buf 0
        let m ← handle id
        onDevice (g.inodeHandler.writeInode m.inode
          { n₁ with size := max n₁.size m.offset, modified := now.toNat })
        if allocated then writeSuperblock
        pure wrote)
        (fun r t' => buf = [] ∧ r = 0 ∧ t' = t ∨ ∃ m metas datas data₁ n₁ data',
          g.Wrote t id m buf now metas datas data₁ n₁ data' r t')
        (fun e t' => g.WriteFailed t id buf.length e t') (g.WritePanics t id buf.length)
        (grownState t metas datas data₁) := by
    intro metas datas data₁ n₁ allocated hprep
    have hmapped : n₁.Mapped g data₁ := hprep.mapped hmark h.mapped
    have hopen₁ : (grownState t metas datas data₁).openFiles id = some m := hopen
    obtain ⟨k, data', hk, hruns, hbytes, hframe⟩ := runs_writeLoop (buf.length + 1)
      (m.offset / BLOCK_SIZE % U32) (m.offset % BLOCK_SIZE) Block.zero buf 0 m
      (grownState t metas datas data₁) hmapped (hprep.nodup hnd hmark) hopen₁
      (Nat.lt_succ_self _) (Nat.mod_lt _ (by decide))
    rw [Nat.zero_add] at hruns
    refine hruns.andThen ((runs_handle (St.written_openFiles _ _)).andThen ?_)
    have hr : ({ n₁ with size := max n₁.size (m.offset + k), modified := now.toNat } :
        INode).InRange :=
      { hprep.grows.inRange h.inRange with
        modified := now.toNat_lt
        size := by
          have hsize := h.inRange.size
          rw [← hprep.grows.size] at hsize
          simp only [U64] at hlast
          dsimp only
          omega }
    refine (runs_onDevice (runs_writeInode hlt hr)).andThen ?_
    have hdone : g.Wrote t id m buf now metas datas data₁ n₁ data' k _ :=
      ⟨hopen, hne, hlast, hprep, hk, hbytes, hframe, rfl⟩
    refine Prog.wpa_ite (fun _ => runs_writeSuperblock.andThen (Prog.wpa_pure ?_))
      fun _ => Prog.wpa_pure ?_
    · exact .inr ⟨_, _, _, _, _, _, hdone⟩
    · exact .inr ⟨_, _, _, _, _, _, hdone⟩
  refine Prog.wpa_ite (fun hfinal => ?_) fun hfinal => ?_
  · have hfinal : ¬ (m.offset + buf.length - 1) / BLOCK_SIZE % U32 < (t.ino m.inode).blocks := by
      simpa using hfinal
    have hgrow := Prog.wpa_mono (wpa_growForWrite h.cursors h.mapped hnd hmark hfinal)
      (fun _ _ hq => hq) (fun _ _ he => he) (WritePanics.grow hopen hlen hfinal)
    refine Prog.wpa_seq hgrow ?_ fun _ _ hf => .grow hopen hlen hlast hfinal hf
    rintro n₁ _ ⟨metas, datas, data₁, hprep, rfl⟩
    exact hrest _ hprep
  · have hfinal : (m.offset + buf.length - 1) / BLOCK_SIZE % U32 < (t.ino m.inode).blocks := by
      simpa using hfinal
    have hthis := hrest (decide ((m.offset + buf.length - 1) / BLOCK_SIZE % U32 ≥
      (t.ino m.inode).blocks)) (.enough hfinal)
    rw [grownState_nil] at hthis
    exact (Prog.Runs.pure _ _).andThen hthis

theorem wpr_write {id : Nat} {buf : List UInt8} {now : UInt64}
    (h : ∀ m, t.openFiles id = some m → g.Usable t m.inode) :
    Prog.wpr g.Rep (write id buf now)
      (fun r t' => buf = [] ∧ r = 0 ∧ t' = t ∨ ∃ m metas datas data₁ n₁ data',
        g.Wrote t id m buf now metas datas data₁ n₁ data' r t')
      (fun e t' => g.WriteFailed t id buf.length e t') t :=
  (wpa_write h).wpr

theorem setBits_marked {metas datas : List Nat} :
    ((t.marked metas).marked datas).dbit = setBits t.dbit (metas ++ datas) true :=
  setBits_append

theorem cursorsIn_grown {metas datas : List Nat} (hcur : t.CursorsIn g)
    (hfresh : g.FreshData t (metas ++ datas)) : ((t.marked metas).marked datas).CursorsIn g := by
  have hbits := hfresh.bits
  refine ⟨hcur.lastInode, getLastD_lt (getLastD_lt hcur.lastData ?_) ?_⟩
  · exact fun b hb => hbits b (List.mem_append_left _ hb)
  · exact fun b hb => hbits b (List.mem_append_right _ hb)

namespace Wrote

variable {id : Nat} {m : FileMetadata} {buf : List UInt8} {now : UInt64}
  {metas datas : List Nat} {data₁ data' : Region} {n₁ : INode} {k : Nat}
  (hw : g.Wrote t id m buf now metas datas data₁ n₁ data' k t')

include hw

theorem ino_self : t'.ino m.inode =
    { n₁ with size := max n₁.size (m.offset + k), modified := now.toNat } := by
  rw [hw.state]
  exact Function.update_self ..

theorem ino_other {j : Nat} (hj : j ≠ m.inode) : t'.ino j = t.ino j := by
  rw [hw.state]
  exact Function.update_of_ne hj _ _

theorem data_eq : t'.data = data' := by
  rw [hw.state]
  rfl

theorem openFiles_eq : t'.openFiles =
    Function.update t.openFiles id (some { m with offset := m.offset + k }) := by
  rw [hw.state]
  rfl

/-- The pointers are not written. -/
theorem pointers_same (h : g.Usable t m.inode) : ∀ b ∈ n₁.pointers data₁, data' b = data₁ b := by
  have hnd := hw.prepared.nodup h.nodup h.marked
  intro b hb
  refine hw.frame b fun hc => ?_
  exact (List.nodup_append.mp hnd).2.2 b hc b hb rfl

theorem owned_eq (h : g.Usable t m.inode) : t'.owned m.inode = n₁.owned data₁ := by
  have hptr := hw.pointers_same h
  rw [View.owned, hw.ino_self, hw.data_eq]
  show n₁.owned data' = n₁.owned data₁
  rw [INode.owned, INode.content_congr hptr, INode.pointers_congr hptr, INode.owned]

theorem inRange (hr : (t.ino m.inode).InRange) : (t'.ino m.inode).InRange := by
  have hsize := (hw.prepared.grows.inRange hr).size
  have hlast := hw.last_lt
  have hk := hw.count
  rw [hw.ino_self]
  exact { hw.prepared.grows.inRange hr with
    modified := now.toNat_lt
    size := by
      simp only [U64] at hlast
      dsimp only
      omega }

theorem cursors (hc : t.CursorsIn g) : t'.CursorsIn g := by
  have hgrown := cursorsIn_grown hc hw.prepared.fresh
  rw [hw.state]
  exact ⟨hgrown.lastInode, hgrown.lastData⟩

/-- The file can be written again. -/
theorem usable (h : g.Usable t m.inode) : g.Usable t' m.inode where
  cursors := hw.cursors h.cursors
  lt := h.lt
  inRange := hw.inRange h.inRange
  mapped :=
    { blocks_le := by
        rw [hw.ino_self]
        exact hw.prepared.blocks_le h.mapped.blocks_le
      lt := by
        intro b hb
        have howned : b ∈ t'.owned m.inode := hb
        rw [hw.owned_eq h] at howned
        exact (hw.prepared.mapped h.marked h.mapped).lt b howned }
  nodup := by
    rw [hw.owned_eq h]
    exact hw.prepared.nodup h.nodup h.marked
  marked := by
    intro b hb
    rw [hw.owned_eq h, (hw.prepared.owned_perm h.marked).mem_iff] at hb
    have hdbit : t'.dbit = setBits t.dbit (metas ++ datas) true := by
      rw [hw.state]
      exact setBits_marked
    rw [hdbit, setBits]
    split
    · rfl
    · rename_i hnew
      refine h.marked b ((List.mem_append.mp hb).resolve_right fun htook => hnew ?_)
      exact Prepared.took_sublist.subset htook

theorem leaf (h : g.Intact gaps t) (hlive : t.ibit m.inode = true)
    (hfile : (t.ino m.inode).fileType = .file) : Inv.Leaf g t t' m.inode
    (Prepared.took (t.ino m.inode) metas datas) (metas ++ datas) := by
  have hmark := h.owning.owns.marked m.inode hlive
  have hgrows := hw.prepared.grows
  refine
    { live := hlive
      leaf := by simp [hfile]
      ibit := by rw [hw.state]; rfl
      dbit := by rw [hw.state]; exact setBits_marked
      fresh := hw.prepared.fresh
      sub := Prepared.took_sublist
      other := fun j hj => hw.ino_other hj
      fileType := by rw [hw.ino_self]; exact hgrows.fileType
      links := by rw [hw.ino_self]; exact hgrows.links
      inRange := hw.inRange (h.inRange _)
      blocks_le := by
        rw [hw.ino_self]
        exact hw.prepared.blocks_le (h.mapped hlive).blocks_le
      owned := by
        rw [hw.owned_eq (h.usable hlive)]
        exact hw.prepared.owned_perm hmark
      frame := ?_ }
  intro b hb hfresh
  have hb' : b ∉ n₁.content data₁ := by
    rw [hw.prepared.content_eq hmark]
    intro hc
    rcases List.mem_append.mp hc with hc | hc
    · exact hb (List.mem_append_left _ hc)
    · exact hfresh (List.mem_append_right _ hc)
  rw [hw.data_eq, hw.frame b hb', hw.prepared.data_eq hmark]
  · exact zeroed_of_not_mem fun hd => hfresh (List.mem_append_right _ hd)
  · exact fun hp => hb (List.mem_append_right _ hp)
  · exact fun hm => hfresh (List.mem_append_left _ hm)

theorem inv (h : g.Inv gaps t) (hh : t.Handled) : g.Inv gaps t' :=
  have hopen := hh id m hw.opened
  (hw.leaf h.toIntact hopen.1 hopen.2).inv h (hw.cursors h.cursors)

theorem handled (h : g.Inv gaps t) (hh : t.Handled) : t'.Handled := by
  have hopen := hh id m hw.opened
  have hl := hw.leaf h.toIntact hopen.1 hopen.2
  have hkept : ∀ j, t.ibit j = true ∧ (t.ino j).fileType = .file →
      t'.ibit j = true ∧ (t'.ino j).fileType = .file := by
    intro j hj
    rw [hl.ibit]
    by_cases hjm : j = m.inode
    · rw [hjm, hl.fileType, ← hjm]
      exact hj
    · rw [hl.other j hjm]
      exact hj
  intro id' m' hm'
  rw [hw.openFiles_eq, Function.update_apply] at hm'
  split at hm'
  · cases hm'
    exact hkept _ (hh id m hw.opened)
  · exact hkept _ (hh id' m' hm')

end Wrote

namespace GrowFailed

variable {i need : Nat} {err : FSError}

/-- What was marked in vain belongs to nobody. -/
theorem leaf (h : g.Inv gaps t) (hi : t.ibit i = true) (hfile : (t.ino i).fileType ≠ .directory)
    {metas datas : List Nat} (hg : g.Growth t (t.ino i) need metas datas) :
    Inv.Leaf g t (((t.marked metas).marked datas).withData (zeroed t.data datas)) i []
      (metas ++ datas) := by
  have hsame : ∀ b ∈ t.owned i, zeroed t.data datas b = t.data b := fun b hb =>
    zeroed_of_not_mem fun hd =>
      h.fresh_not_owned hi (hg.fresh.clear b (List.mem_append_right _ hd)) hb
  refine
    { live := hi
      leaf := hfile
      ibit := rfl
      dbit := setBits_marked
      fresh := hg.fresh
      sub := List.nil_sublist _
      other := fun _ _ => rfl
      fileType := rfl
      links := rfl
      inRange := h.inRange i
      blocks_le := (h.mapped hi).blocks_le
      owned := ?_
      frame := fun b _ hb => zeroed_of_not_mem fun hd => hb (List.mem_append_right _ hd) }
  have hown : (((t.marked metas).marked datas).withData (zeroed t.data datas)).owned i =
      t.owned i := INode.owned_congr hsame
  rw [hown, List.append_nil]

theorem inv (h : g.Inv gaps t) (hi : t.ibit i = true) (hfile : (t.ino i).fileType ≠ .directory)
    (hf : g.GrowFailed t (t.ino i) need err t') : g.Inv gaps t' := by
  cases hf with
  | short => exact h
  | empty hg =>
      refine h.congr rfl ⟨h.cursors.lastInode, ?_⟩
      exact getLastD_lt h.cursors.lastData
        fun b hb => hg.fresh.bits b (List.mem_append_left _ hb)
  | tooLarge hg hne hmax =>
      have hc := cursorsIn_grown h.cursors hg.fresh
      exact (leaf h hi hfile hg).inv h ⟨hc.lastInode, hc.lastData⟩

end GrowFailed

theorem WriteFailed.inv {id len : Nat} {err : FSError} (h : g.Inv gaps t) (hh : t.Handled)
    (hf : g.WriteFailed t id len err t') : g.Inv gaps t' := by
  cases hf with
  | closed => exact h
  | grow hopen _ _ _ hf =>
      obtain ⟨hlive, hfile⟩ := hh _ _ hopen
      exact hf.inv h hlive (by simp [hfile])

theorem WriteFailed.handled {id len : Nat} {err : FSError} (hh : t.Handled)
    (hf : g.WriteFailed t id len err t') : t'.Handled := by
  cases hf with
  | closed => exact hh
  | grow hopen _ _ _ hf =>
      cases hf with
      | short => exact hh
      | empty => exact hh
      | tooLarge => exact hh

end Geom

end FerrisFS
