import FerrisFS.Lib.Rows
import FerrisFS.V1.Delete

/-!
# The bytes of a file

The loops of `read` and `write` work block by block; here they are read as one
slice, and one overwritten range, of the bytes that the content blocks hold in
order.
-/

namespace FerrisFS

open Lib DirectoryHandler INodeTableHandler FormatV1

namespace INode

variable {n : INode} {data data' : Region}

/-- The bytes of the content blocks, in order. -/
def fileBytes (n : INode) (data : Region) : List UInt8 :=
  ((n.content data).map fun b => (data b).bytes).flatten

theorem uniform (n : INode) (data : Region) :
    Uniform BLOCK_SIZE ((n.content data).map fun b => (data b).bytes) := by
  intro l hl
  obtain ⟨b, -, rfl⟩ := List.mem_map.mp hl
  exact (data b).size

theorem fileBytes_length : (n.fileBytes data).length = BLOCK_SIZE * n.blocks := by
  rw [fileBytes, (uniform n data).flatten_length, List.length_map, content_length]

theorem fileBytes_congr (hp : ∀ b ∈ n.pointers data, data' b = data b)
    (hc : ∀ b ∈ n.content data, data' b = data b) : n.fileBytes data' = n.fileBytes data := by
  rw [fileBytes, content_congr hp, fileBytes]
  congr 1
  exact List.map_congr_left fun b hb => by rw [hc b hb]

theorem fileBytes_slice {i o k : Nat} (hi : i < n.blocks) (hk : o + k ≤ BLOCK_SIZE) :
    slice (n.fileBytes data) (BLOCK_SIZE * i + o) k =
      (data (n.blockAt data i)).slice o k := by
  have hlen : i < ((n.content data).map fun b => (data b).bytes).length := by
    rw [List.length_map, content_length]
    exact hi
  have hlen' : i < (n.content data).length := by
    rw [content_length]
    exact hi
  rw [fileBytes, (uniform n data).slice_eq hlen hk, List.getElem_map]
  have hget : (n.content data)[i] = n.blockAt data i := by
    simp [content]
  rw [hget]
  rfl

/-- Overwriting a range of one content block. -/
theorem fileBytes_update {i o : Nat} {bs : List UInt8} {b : Block} (hi : i < n.blocks)
    (hk : o + bs.length ≤ BLOCK_SIZE) (hnd : (n.owned data).Nodup)
    (hb : b.bytes = splice (data (n.blockAt data i)).bytes o bs) :
    n.fileBytes (Function.update data (n.blockAt data i) b) =
      splice (n.fileBytes data) (BLOCK_SIZE * i + o) bs := by
  obtain ⟨hndc, -, hdis⟩ := List.nodup_append.mp hnd
  have hmem : n.blockAt data i ∈ n.content data := blockAt_mem_content hi
  have hcon : n.content (Function.update data (n.blockAt data i) b) = n.content data := by
    refine content_congr fun p hp => Function.update_of_ne ?_ _ _
    rintro rfl
    exact hdis _ hmem _ hp rfl
  have hlen : i < (n.content data).length := by
    rw [content_length]
    exact hi
  have hget : (n.content data)[i] = n.blockAt data i := by
    simp [content]
  have hset : ((n.content data).map fun x => (Function.update data (n.blockAt data i) b x).bytes) =
      ((n.content data).map fun x => (data x).bytes).set i b.bytes := by
    refine List.ext_getElem (by simp) fun j hj hj' => ?_
    rw [List.length_map] at hj
    rw [List.getElem_map, List.getElem_set, List.getElem_map, Function.update_apply]
    by_cases hij : i = j
    · subst hij
      rw [if_pos hget, if_pos rfl]
    · rw [if_neg hij, if_neg]
      intro heq
      exact hij ((List.Nodup.getElem_inj_iff hndc).mp (hget.trans heq.symm))
  have hrow : i < ((n.content data).map fun x => (data x).bytes).length := by
    rw [List.length_map]
    exact hlen
  have heq := (uniform n data).splice_eq hrow hk
  rw [List.getElem_map, hget, ← hb] at heq
  rw [fileBytes, hcon, hset, heq, fileBytes]

end INode

namespace St

/-- The handle `id` moved to `offset`. -/
def withOffset (t : St) (id : Nat) (m : FileMetadata) (offset : Nat) : St :=
  { t with openFiles := Function.update t.openFiles id (some { m with offset := offset }) }

variable {t : St} {id : Nat} {m : FileMetadata}

theorem withOffset_self (h : t.openFiles id = some m) : t.withOffset id m m.offset = t := by
  have hm : ({ m with offset := m.offset } : FileMetadata) = m := rfl
  rw [withOffset, hm, ← h, Function.update_eq_self]

@[simp] theorem withOffset_openFiles (x : Nat) :
    (t.withOffset id m x).openFiles id = some { m with offset := x } := by
  simp [withOffset]

@[simp] theorem withOffset_withOffset (x y : Nat) :
    (t.withOffset id m x).withOffset id { m with offset := x } y = t.withOffset id m y := by
  simp [withOffset]

/-- The handle `id` moved to `offset`, and the data region changed. -/
def written (t : St) (id : Nat) (m : FileMetadata) (offset : Nat) (data : Region) : St :=
  { t with
    data := data
    openFiles := Function.update t.openFiles id (some { m with offset := offset }) }

theorem written_written (x y : Nat) (data data' : Region) :
    (t.written id m x data).written id { m with offset := x } y data' =
      t.written id m y data' := by
  simp [written]

theorem written_openFiles (x : Nat) (data : Region) :
    (t.written id m x data).openFiles id = some { m with offset := x } := by
  simp [written]

theorem written_self (h : t.openFiles id = some m) : t.written id m m.offset t.data = t := by
  have hm : ({ m with offset := m.offset } : FileMetadata) = m := rfl
  rw [written, hm, ← h, Function.update_eq_self]

end St

namespace Geom

variable {g : Geom} {gaps : Bool} {t : St} {id : Nat} {m : FileMetadata} {n : INode}

theorem runs_handle (h : t.openFiles id = some m) :
    Prog.Runs g.Rep (handle id) t m t := by
  refine runs_getFormat.bind ?_
  have hf : (g.format t).openFiles id = some m := h
  rw [hf]
  exact Prog.Runs.pure _ _

theorem runs_setOffset (x : Nat) :
    Prog.Runs g.Rep (setOffset id m x) t () (t.withOffset id m x) :=
  runs_modifyFormat rfl rfl

theorem runs_checkAddress {n : INode} {block b : Nat} (hb : b < g.cap) :
    Prog.Runs g.Rep (checkAddress n block b g.cap) t () t := by
  have hcap := g.cap_lt
  refine Prog.Runs.guard ?_ (Prog.Runs.guard ?_ (Prog.Runs.pure _ _))
  · simp only [INVALID_ADDRESS]
    omega
  · omega

/-- The loop of `read` from a position inside the file. -/
theorem runs_readLoop (len : Nat) (hsize : n.size ≤ n.blocks * BLOCK_SIZE) :
    ∀ (fuel block inBlock : Nat) (out : List UInt8) (m : FileMetadata) (t : St),
      n.Mapped g t.data → t.openFiles id = some m → len - out.length < fuel →
      (out.length < len → m.offset < n.size →
        BLOCK_SIZE * block + inBlock = m.offset ∧ inBlock < BLOCK_SIZE) →
      Prog.Runs g.Rep (readLoop id n len fuel block inBlock out) t
        (out ++ slice (n.fileBytes t.data) m.offset
          (min (len - out.length) (n.size - m.offset)))
        (t.withOffset id m (m.offset + min (len - out.length) (n.size - m.offset)))
  | 0, _, _, _, _, _, _, _, hfuel, _ => absurd hfuel (Nat.not_lt_zero _)
  | fuel + 1, block, inBlock, out, m, t, hm, hopen, hfuel, hpos => by
      refine (runs_handle hopen).bind ?_
      by_cases hc : out.length < len ∧ m.offset < n.size
      · obtain ⟨hoff, hin⟩ := hpos hc.1 hc.2
        have hbs : BLOCK_SIZE = 256 := rfl
        have hblock : block < n.blocks := by
          rw [hbs] at hoff hin hsize
          omega
        have hb := hm.content _ (INode.blockAt_mem_content hblock)
        refine Prog.Runs.branch hc (runs_getFormat.bind ?_)
        refine (runs_onDevice (runs_getBlock hblock hm.blocks_le hm.pointers)).bind ?_
        refine (runs_checkAddress hb).bind ?_
        refine (Prog.Runs.checkedAdd (ptr_small hb)).bind ?_
        refine (runs_onDevice (runs_readData hb)).bind ?_
        refine (runs_setOffset _).bind ?_
        generalize hr : min (min (BLOCK_SIZE - inBlock) (len - out.length))
          (n.size - m.offset) = r
        have hslice : (t.data (n.blockAt t.data block)).slice inBlock r =
            slice (n.fileBytes t.data) m.offset r := by
          rw [← hoff, INode.fileBytes_slice hblock (by omega)]
        have hrlen : (slice (n.fileBytes t.data) m.offset r).length = r := by
          refine slice_length ?_
          rw [INode.fileBytes_length, hbs]
          rw [hbs] at hsize
          omega
        have hout : (out ++ slice (n.fileBytes t.data) m.offset r).length = out.length + r := by
          rw [List.length_append, hrlen]
        have hmul : BLOCK_SIZE * (block + 1) = BLOCK_SIZE * block + BLOCK_SIZE :=
          Nat.mul_succ _ _
        -- a round that does not end at a block boundary is the last one
        have hnext := runs_readLoop len hsize fuel (block + 1) 0
          (out ++ slice (n.fileBytes t.data) m.offset r) { m with offset := m.offset + r }
          (t.withOffset id m (m.offset + r)) hm (St.withOffset_openFiles _)
          (by rw [hout]; omega) (by rw [hout]; dsimp only; omega)
        have hsum : r + min (len - (out.length + r)) (n.size - (m.offset + r)) =
            min (len - out.length) (n.size - m.offset) := by omega
        rw [St.withOffset_withOffset, hout, List.append_assoc] at hnext
        have hpiece : slice (n.fileBytes t.data) m.offset
            (min (len - out.length) (n.size - m.offset)) =
              slice (n.fileBytes t.data) m.offset r ++ slice (n.fileBytes t.data) (m.offset + r)
                (min (len - (out.length + r)) (n.size - (m.offset + r))) := by
          rw [← hsum, slice_add]
        have hoffset : m.offset + min (len - out.length) (n.size - m.offset) =
            m.offset + r + min (len - (out.length + r)) (n.size - (m.offset + r)) := by omega
        rw [hpiece, hoffset, hslice]
        exact hnext
      · refine Prog.Runs.guard hc ?_
        have hzero : min (len - out.length) (n.size - m.offset) = 0 := by omega
        rw [hzero, slice_zero, List.append_nil, Nat.add_zero, St.withOffset_self hopen]
        exact Prog.Runs.pure _ _

/-- The block after one round of `write`: a part of it is read first, unless all of it
is overwritten. -/
theorem written_bytes {old buf : Block} {o : Nat} {bs : List UInt8}
    (hfit : o + bs.length ≤ BLOCK_SIZE) :
    ((if bs.length < BLOCK_SIZE then old else buf).splice o bs).bytes =
      splice old.bytes o bs := by
  rw [Block.splice_bytes hfit]
  split
  · rfl
  · have ho : o = 0 := by omega
    have hlen : bs.length = BLOCK_SIZE := by omega
    simp [splice, ho, hlen, List.drop_eq_nil_of_le (Nat.le_of_eq old.size),
      List.drop_eq_nil_of_le (Nat.le_of_eq buf.size)]

/-- The loop of `write` overwrites as much as the blocks hold. -/
theorem runs_writeLoop : ∀ (fuel block inBlock : Nat) (buf : Block) (rest : List UInt8)
    (wrote : Nat) (m : FileMetadata) (t : St), n.Mapped g t.data → (n.owned t.data).Nodup →
    t.openFiles id = some m → rest.length < fuel → inBlock < BLOCK_SIZE →
    ∃ k data', k = min rest.length (BLOCK_SIZE * n.blocks - (BLOCK_SIZE * block + inBlock)) ∧
      Prog.Runs g.Rep (writeLoop id n fuel block inBlock buf rest wrote) t (wrote + k)
        (t.written id m (m.offset + k) data') ∧
      n.fileBytes data' =
        splice (n.fileBytes t.data) (BLOCK_SIZE * block + inBlock) (rest.take k) ∧
      ∀ b, b ∉ n.content t.data → data' b = t.data b
  | 0, _, _, _, _, _, _, _, _, _, _, hfuel, _ => absurd hfuel (Nat.not_lt_zero _)
  | fuel + 1, block, inBlock, buf, rest, wrote, m, t, hm, hnd, hopen, hfuel, hin => by
      have hbs : BLOCK_SIZE = 256 := rfl
      have hmul : BLOCK_SIZE * (block + 1) = BLOCK_SIZE * block + BLOCK_SIZE := Nat.mul_succ _ _
      by_cases hc : rest ≠ [] ∧ block < n.blocks
      · have hblock := hc.2
        have hmem : n.blockAt t.data block ∈ n.content t.data := INode.blockAt_mem_content hblock
        have hb := hm.content _ hmem
        have hle : BLOCK_SIZE * (block + 1) ≤ BLOCK_SIZE * n.blocks :=
          Nat.mul_le_mul_left _ hblock
        generalize hw : min (BLOCK_SIZE - inBlock) rest.length = w
        have hpos : 0 < w := by
          have := List.length_pos_of_ne_nil hc.1
          omega
        have htake : (rest.take w).length = w := by
          rw [List.length_take]
          omega
        have hfit : inBlock + (rest.take w).length ≤ BLOCK_SIZE := by
          rw [htake]
          omega
        obtain ⟨blk, hblk⟩ : ∃ blk, blk = (if w < BLOCK_SIZE then
            t.data (n.blockAt t.data block) else buf).splice inBlock (rest.take w) := ⟨_, rfl⟩
        have hbytes : blk.bytes =
            splice (t.data (n.blockAt t.data block)).bytes inBlock (rest.take w) := by
          have := @written_bytes (t.data (n.blockAt t.data block)) buf _ _ hfit
          rw [htake] at this
          rw [hblk, this]
        have hfile := INode.fileBytes_update hblock hfit hnd hbytes
        have hptr : ∀ p ∈ n.pointers t.data,
            Function.update t.data (n.blockAt t.data block) blk p = t.data p := by
          intro p hp
          refine Function.update_of_ne ?_ _ _
          rintro rfl
          exact (List.nodup_append.mp hnd).2.2 _ hmem _ hp rfl
        have hcon := INode.content_congr hptr
        have hown : n.owned (Function.update t.data (n.blockAt t.data block) blk) =
            n.owned t.data := by
          rw [INode.owned, hcon, INode.pointers_congr hptr, INode.owned]
        obtain ⟨k', data', hk', hruns, hbytes', hframe⟩ := runs_writeLoop fuel (block + 1) 0 blk
          (rest.drop w) (wrote + w) { m with offset := m.offset + w }
          (t.written id m (m.offset + w) (Function.update t.data (n.blockAt t.data block) blk))
          ⟨hm.blocks_le, fun b hb => hm.lt b (hown ▸ hb)⟩ (hown.symm ▸ hnd)
          (St.written_openFiles _ _) (by rw [List.length_drop]; omega) (by omega)
        rw [List.length_drop] at hk'
        rw [St.written_written] at hruns
        refine ⟨w + k', data', by omega, ?_, ?_, ?_⟩
        · have hoff : m.offset + (w + k') = m.offset + w + k' := by omega
          have hret : wrote + (w + k') = wrote + w + k' := by omega
          rw [hoff, hret]
          refine Prog.Runs.branch hc (runs_getFormat.bind ?_)
          refine (runs_handle hopen).bind ?_
          refine (runs_onDevice (runs_getBlock hblock hm.blocks_le hm.pointers)).bind ?_
          refine (runs_checkAddress hb).bind ?_
          refine (Prog.Runs.checkedAdd (ptr_small hb)).bind ?_
          dsimp only
          rw [hw]
          by_cases hwlt : w < BLOCK_SIZE
          · rw [if_pos hwlt] at hblk
            refine Prog.Runs.branch hwlt ((runs_onDevice (runs_readData hb)).bind ?_)
            refine (runs_onDevice (runs_writeData hb)).bind ?_
            rw [← hblk]
            exact (runs_setOffset _).bind hruns
          · rw [if_neg hwlt] at hblk
            refine Prog.Runs.guard hwlt ((Prog.Runs.pure _ _).bind ?_)
            refine (runs_onDevice (runs_writeData hb)).bind ?_
            rw [← hblk]
            exact (runs_setOffset _).bind hruns
        · refine hbytes'.trans ?_
          show splice (n.fileBytes (Function.update t.data (n.blockAt t.data block) blk)) _ _ = _
          rw [hfile, List.take_add]
          by_cases hend : w = BLOCK_SIZE - inBlock
          · have hnext : BLOCK_SIZE * (block + 1) + 0 =
                BLOCK_SIZE * block + inBlock + (rest.take w).length := by
              rw [htake]
              omega
            rw [hnext]
            refine splice_splice ?_
            rw [INode.fileBytes_length, htake, List.length_take, List.length_drop]
            omega
          · have hk0 : k' = 0 := by omega
            rw [hk0, List.take_zero, splice_nil, List.append_nil]
        · intro b hnot
          have hnot' : b ∉ n.content (Function.update t.data (n.blockAt t.data block) blk) := by
            rw [hcon]
            exact hnot
          refine (hframe b hnot').trans (Function.update_of_ne ?_ _ _)
          rintro rfl
          exact hnot hmem
      · have hzero : min rest.length
            (BLOCK_SIZE * n.blocks - (BLOCK_SIZE * block + inBlock)) = 0 := by
          rcases not_and_or.mp hc with hr | hr
          · simp [not_not.mp hr]
          · have : BLOCK_SIZE * n.blocks ≤ BLOCK_SIZE * block :=
              Nat.mul_le_mul_left _ (Nat.not_lt.mp hr)
            omega
        refine ⟨0, t.data, hzero.symm, ?_, ?_, fun _ _ => rfl⟩
        · refine Prog.Runs.guard hc ?_
          rw [Nat.add_zero, Nat.add_zero, St.written_self hopen]
          exact Prog.Runs.pure _ _
        · rw [List.take_zero, splice_nil]

end Geom

end FerrisFS
