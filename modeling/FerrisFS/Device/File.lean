import FerrisFS.Device.Stack
import FerrisFS.Lib.Rows
import Mathlib.Data.List.Induction

/-!
# The file device

`device/file_device.rs`. The host file is a byte array with a position; the device keeps
its number of blocks beside it. `Mirrors` ties such a device to a vector of blocks, and
calls keep it.
-/

namespace FerrisFS

open Lib

/-- An open file of the host. -/
structure HostFile where
  bytes : List UInt8
  pos : Nat

namespace HostFile

def seek (pos : Nat) : Prog FSError HostFile Unit :=
  Prog.modify fun f => { f with pos := pos }

/-- `read_exact` into a block; at the end of the file it fails. -/
def readExact : Prog FSError HostFile Block := fun f =>
  if h : (slice f.bytes f.pos BLOCK_SIZE).length = BLOCK_SIZE then
    .ok ⟨slice f.bytes f.pos BLOCK_SIZE, h⟩ { f with pos := f.pos + BLOCK_SIZE }
  else .err (.io .unexpectedEof) { f with pos := max f.pos f.bytes.length }

/-- `write_all` of a block; a gap before the position is filled with zeros. -/
def writeAll (buf : Block) : Prog FSError HostFile Unit :=
  Prog.modify fun f =>
    { bytes := splice (f.bytes ++ List.replicate (f.pos - f.bytes.length) 0) f.pos buf.bytes
      pos := f.pos + BLOCK_SIZE }

def setLen (len : Nat) : Prog FSError HostFile Unit :=
  Prog.modify fun f => { f with bytes := MemoryDevice.setLen f.bytes len }

end HostFile

structure FileDevice where
  file : HostFile
  /-- number of blocks -/
  size : Nat

/-- Programs on the file device. -/
abbrev FileM := Prog FSError FileDevice

namespace FileDevice

def onFile {α : Type} (m : Prog FSError HostFile α) : FileM α :=
  Prog.zoom (fun d => d.file) (fun f d => { d with file := f }) m

def readBlock (block : Nat) : FileM Block := do
  let d ← Prog.get
  if block ≥ d.size then Prog.fail (.invalidInput (.blockIndexOOB block d.size))
  onFile (HostFile.seek (block * BLOCK_SIZE))
  onFile HostFile.readExact

def writeBlock (block : Nat) (buf : Block) : FileM Unit := do
  let d ← Prog.get
  if block ≥ d.size then Prog.fail (.invalidInput (.blockIndexOOB block d.size))
  onFile (HostFile.seek (block * BLOCK_SIZE))
  onFile (HostFile.writeAll buf)

def resize (blocks : Nat) : FileM Unit := do
  Prog.modify fun d => { d with size := blocks }
  onFile (HostFile.setLen (blocks * BLOCK_SIZE))

instance : BlockDevice FileDevice where
  readBlock := readBlock
  writeBlock := writeBlock
  blockCount d := d.size
  resize := resize
  flush _ := pure ()
  enumerates _ _ := True

/-- The bytes of a new image of the requested size. -/
def createDiskFile (blocks : Nat) : List UInt8 := MemoryDevice.setLen [] (blocks * BLOCK_SIZE)

/-- `from_path`, of a file with the given bytes. -/
def fromPath (bytes : List UInt8) : FileDevice := ⟨⟨bytes, 0⟩, bytes.length / BLOCK_SIZE % U32⟩

/-- The file holds the blocks of `m` one after the other. -/
structure Mirrors (f : FileDevice) (m : MemoryDevice) : Prop where
  bytes : f.file.bytes = (m.blocks.map Block.bytes).flatten
  size : f.size = m.blocks.length
  small : m.blocks.length < U32

variable {f : FileDevice} {m : MemoryDevice}

theorem uniform_blocks (m : MemoryDevice) : Uniform BLOCK_SIZE (m.blocks.map Block.bytes) := by
  intro l hl
  obtain ⟨b, -, rfl⟩ := List.mem_map.mp hl
  exact b.size

namespace Mirrors

theorem blockCount (h : Mirrors f m) : m.blockCount = f.size := by
  rw [MemoryDevice.blockCount, Nat.mod_eq_of_lt h.small, h.size]

theorem length (h : Mirrors f m) : f.file.bytes.length = BLOCK_SIZE * m.blocks.length := by
  rw [h.bytes, (uniform_blocks m).flatten_length, List.length_map]

/-- The bytes of a block that is in range. -/
theorem slice_eq (h : Mirrors f m) {b : Nat} (hb : b < m.blocks.length) :
    slice f.file.bytes (b * BLOCK_SIZE) BLOCK_SIZE = (m.block b).bytes := by
  have hrow : b < (m.blocks.map Block.bytes).length := by
    rw [List.length_map]
    exact hb
  have hslice := (uniform_blocks m).slice_eq (o := 0) (n := BLOCK_SIZE) hrow (Nat.le_refl _)
  rw [Nat.add_zero, List.getElem_map, Nat.mul_comm] at hslice
  rw [h.bytes, hslice]
  have hwhole : ∀ x : Block, slice x.bytes 0 BLOCK_SIZE = x.bytes := by
    intro x
    rw [slice, List.drop_zero, List.take_of_length_le (Nat.le_of_eq x.size)]
  rw [hwhole, MemoryDevice.block, List.getD_eq_getElem?_getD, List.getElem?_eq_getElem hb]
  rfl

theorem read (h : Mirrors f m) {b : Nat} (hb : b < f.size) :
    ∃ f', readBlock b f = .ok (m.block b) f' ∧ Mirrors f' m := by
  have hlt : b < m.blocks.length := by
    rw [← h.size]
    exact hb
  have hslice := h.slice_eq hlt
  have hlen : (slice f.file.bytes (b * BLOCK_SIZE) BLOCK_SIZE).length = BLOCK_SIZE := by
    rw [hslice, (m.block b).size]
  have hexact : HostFile.readExact ⟨f.file.bytes, b * BLOCK_SIZE⟩ =
      .ok (m.block b) ⟨f.file.bytes, b * BLOCK_SIZE + BLOCK_SIZE⟩ := by
    refine (dif_pos hlen).trans ?_
    congr 1
    exact Block.ext hslice
  refine ⟨⟨⟨f.file.bytes, b * BLOCK_SIZE + BLOCK_SIZE⟩, f.size⟩, ?_, h.bytes, h.size, h.small⟩
  refine (congrFun (if_neg (Nat.not_le.mpr hb)) f).trans ?_
  have hseek : onFile (HostFile.seek (b * BLOCK_SIZE)) f =
      .ok () ⟨⟨f.file.bytes, b * BLOCK_SIZE⟩, f.size⟩ := rfl
  refine (Prog.bind_of_ok hseek _).trans ?_
  have hread : onFile HostFile.readExact ⟨⟨f.file.bytes, b * BLOCK_SIZE⟩, f.size⟩ =
      .ok (m.block b) ⟨⟨f.file.bytes, b * BLOCK_SIZE + BLOCK_SIZE⟩, f.size⟩ :=
    Prog.zoom_of_ok hexact
  exact hread

theorem write (h : Mirrors f m) {b : Nat} (hb : b < f.size) (buf : Block) :
    ∃ f', writeBlock b buf f = .ok () f' ∧ Mirrors f' (m.setBlock b buf) := by
  have hlt : b < m.blocks.length := by
    rw [← h.size]
    exact hb
  have hrow : b < (m.blocks.map Block.bytes).length := by
    rw [List.length_map]
    exact hlt
  -- the position lies inside the file, so there is no gap to fill
  have hgap : b * BLOCK_SIZE - f.file.bytes.length = 0 := by
    rw [h.length, Nat.mul_comm]
    exact Nat.sub_eq_zero_of_le (Nat.mul_le_mul_left _ (Nat.le_of_lt hlt))
  have hbytes : splice f.file.bytes (b * BLOCK_SIZE) buf.bytes =
      ((m.setBlock b buf).blocks.map Block.bytes).flatten := by
    have hsplice := (uniform_blocks m).splice_eq (o := 0) hrow (Nat.le_of_eq
      ((Nat.zero_add _).trans buf.size))
    have hwhole : splice (m.blocks.map Block.bytes)[b] 0 buf.bytes = buf.bytes := by
      rw [List.getElem_map, splice, List.take_zero, List.nil_append, List.drop_of_length_le,
        List.append_nil]
      rw [m.blocks[b].size, Nat.zero_add, buf.size]
    rw [hwhole, Nat.add_zero, Nat.mul_comm, ← h.bytes] at hsplice
    rw [← hsplice, MemoryDevice.setBlock, List.map_set]
  refine ⟨⟨⟨splice (f.file.bytes ++ List.replicate (b * BLOCK_SIZE - f.file.bytes.length) 0)
    (b * BLOCK_SIZE) buf.bytes, b * BLOCK_SIZE + BLOCK_SIZE⟩, f.size⟩, ?_, ?_, ?_, ?_⟩
  · exact congrFun (if_neg (Nat.not_le.mpr hb)) f
  · rw [hgap, List.replicate_zero, List.append_nil]
    exact hbytes
  · rw [MemoryDevice.setBlock_length]
    exact h.size
  · rw [MemoryDevice.setBlock_length]
    exact h.small

theorem setLen_flatten (blocks : List Block) (n : Nat) :
    MemoryDevice.setLen (blocks.map Block.bytes).flatten (n * BLOCK_SIZE) =
      ((MemoryDevice.resized ⟨blocks⟩ n).blocks.map Block.bytes).flatten := by
  have hlen : (blocks.map Block.bytes).flatten.length = blocks.length * BLOCK_SIZE := by
    rw [← List.flatMap_def]
    exact MemoryDevice.flatMap_bytes_length blocks
  have hzero : ∀ k, List.replicate (k * BLOCK_SIZE) (0 : UInt8) =
      ((List.replicate k Block.zero).map Block.bytes).flatten := by
    intro k
    rw [List.map_replicate]
    exact List.flatten_replicate_replicate.symm
  rw [MemoryDevice.setLen, MemoryDevice.resized, List.map_append, List.flatten_append, hlen,
    ← Nat.sub_mul, hzero]
  congr 1
  by_cases hn : n ≤ blocks.length
  · have htake := MemoryDevice.take_flatMap_bytes blocks n [] hn
    rw [List.append_nil] at htake
    rw [← List.flatMap_def, ← List.flatMap_def]
    exact htake
  · have hle : blocks.length * BLOCK_SIZE ≤ n * BLOCK_SIZE := Nat.mul_le_mul_right _ (by omega)
    have hlong : blocks.length ≤ n := by omega
    rw [List.take_of_length_le (by omega), List.take_of_length_le hlong]

theorem resized (h : Mirrors f m) {n : Nat} (hn : n < U32) :
    ∃ f', resize n f = .ok () f' ∧ Mirrors f' (m.resized n) := by
  refine ⟨⟨⟨MemoryDevice.setLen f.file.bytes (n * BLOCK_SIZE), f.file.pos⟩, n⟩, rfl, ?_, ?_, ?_⟩
  · show MemoryDevice.setLen f.file.bytes (n * BLOCK_SIZE) = _
    rw [h.bytes]
    exact setLen_flatten m.blocks n
  · simp only [MemoryDevice.resized, List.length_append, List.length_take,
      List.length_replicate]
    omega
  · simp only [MemoryDevice.resized, List.length_append, List.length_take,
      List.length_replicate]
    omega

/-- A new image and a new vector of blocks of one size. -/
theorem create {blocks : Nat} (hblocks : blocks < U32) :
    Mirrors (fromPath (createDiskFile blocks)) (MemoryDevice.empty blocks) where
  bytes := by
    have hset := setLen_flatten [] blocks
    rw [MemoryDevice.resized, List.length_nil, Nat.sub_zero, List.take_nil,
      List.nil_append] at hset
    exact hset
  size := by
    have hlen : (createDiskFile blocks).length = blocks * BLOCK_SIZE := by
      simp [createDiskFile, MemoryDevice.setLen]
    show (createDiskFile blocks).length / BLOCK_SIZE % U32 = _
    rw [hlen, Nat.mul_div_cancel _ (by decide), Nat.mod_eq_of_lt hblocks, MemoryDevice.empty,
      List.length_replicate]
  small := by
    rw [MemoryDevice.empty, List.length_replicate]
    exact hblocks

end Mirrors

end FileDevice

/-! ## Sequences of calls -/

/-- A size is a `u32`. -/
def DeviceOp.Sized : DeviceOp → Prop
  | .resize blocks => blocks < U32
  | _ => True

namespace FileDevice

variable {f : FileDevice} {m : MemoryDevice}

/-- One call is answered alike. -/
theorem Mirrors.answers (h : Mirrors f m) {op : DeviceOp} (hop : op.Sized) :
    ∃ a f' m', Answers f op a f' ∧ Answers m op a m' ∧ Mirrors f' m' := by
  have hcount := h.blockCount
  cases op with
  | read b =>
      by_cases hb : b < f.size
      · obtain ⟨f', hok, h'⟩ := h.read hb
        refine ⟨.ok (some (m.block b)), f', m, .ok ?_, .ok ?_, h'⟩
        · exact Prog.bind_of_ok hok _
        · exact Prog.bind_of_ok (readBlock_of_lt (hcount ▸ hb)) _
      · have hge : b ≥ m.blockCount := by omega
        refine ⟨.error (.invalidInput (.blockIndexOOB b f.size)), f, m, .err ?_, .err ?_, h⟩
        · exact Prog.bind_of_err (congrFun (if_pos (Nat.not_lt.mp hb)) f) _
        · refine Prog.bind_of_err (?_ : FerrisFS.readBlock b m = _) _
          rw [FerrisFS.readBlock, if_pos hge, hcount]
  | write b buf =>
      by_cases hb : b < f.size
      · obtain ⟨f', hok, h'⟩ := h.write hb buf
        refine ⟨.ok none, f', m.setBlock b buf, .ok ?_, .ok ?_, h'⟩
        · exact Prog.bind_of_ok hok _
        · exact Prog.bind_of_ok (writeBlock_of_lt (hcount ▸ hb)) _
      · have hge : b ≥ m.blockCount := by omega
        refine ⟨.error (.invalidInput (.blockIndexOOB b f.size)), f, m, .err ?_, .err ?_, h⟩
        · exact Prog.bind_of_err (congrFun (if_pos (Nat.not_lt.mp hb)) f) _
        · refine Prog.bind_of_err (?_ : FerrisFS.writeBlock b buf m = _) _
          rw [FerrisFS.writeBlock, if_pos hge, hcount]
  | flush order => exact ⟨.ok none, f, m, .ok rfl, .ok rfl, h⟩
  | resize n =>
      obtain ⟨f', hok, h'⟩ := h.resized hop
      exact ⟨.ok none, f', m.resized n, .ok (Prog.bind_of_ok hok _), .ok rfl, h'⟩

theorem Mirrors.traces (h : Mirrors f m) (ops : List DeviceOp) (hops : ∀ op ∈ ops, op.Sized) :
    ∃ l f' m', l.map Prod.fst = ops ∧ Trace f l f' ∧ Trace m l m' ∧ Mirrors f' m' := by
  induction ops using List.reverseRecOn with
  | nil => exact ⟨[], f, m, rfl, .nil, .nil, h⟩
  | append_singleton ops op ih =>
      obtain ⟨l, f₁, m₁, hl, hf, hm, h₁⟩ := ih fun x hx => hops x (List.mem_append_left _ hx)
      obtain ⟨a, f', m', haf, ham, h'⟩ :=
        h₁.answers (hops op (List.mem_append_right _ List.mem_cons_self))
      have hordf : op.Ordered f₁ := by cases op <;> trivial
      have hordm : op.Ordered m₁ := by cases op <;> trivial
      refine ⟨l ++ [(op, a)], f', m', ?_, hf.snoc hordf haf, hm.snoc hordm ham, h'⟩
      rw [List.map_append, hl]
      rfl

end FileDevice

/-- A file device and a memory device that start with the same number of blocks answer
every sequence of calls alike. -/
theorem file_memory_interchangeable {blocks : Nat} (hblocks : blocks < U32)
    (ops : List DeviceOp) (hops : ∀ op ∈ ops, op.Sized) :
    ∃ (l : List (DeviceOp × Answer)) (f : FileDevice) (m : MemoryDevice),
      l.map Prod.fst = ops ∧
      Trace (FileDevice.fromPath (FileDevice.createDiskFile blocks)) l f ∧
      Trace (MemoryDevice.empty blocks) l m ∧
      BlockDevice.blockCount f = BlockDevice.blockCount m ∧
      (∀ l' f', l'.map Prod.fst = ops →
        Trace (FileDevice.fromPath (FileDevice.createDiskFile blocks)) l' f' → l' = l) ∧
      ∀ l' m', l'.map Prod.fst = ops → Trace (MemoryDevice.empty blocks) l' m' → l' = l := by
  obtain ⟨l, f, m, hl, hf, hm, h⟩ := (FileDevice.Mirrors.create hblocks).traces ops hops
  refine ⟨l, f, m, hl, hf, hm, h.blockCount.symm, ?_, ?_⟩
  · intro l' f' hl' hf'
    exact (hf'.unique hf (hl'.trans hl.symm)).1
  · intro l' m' hl' hm'
    exact (hm'.unique hm (hl'.trans hl.symm)).1

/-- A write, a shrink, a growth and a read of the block that went and came back. -/
theorem file_memory_interchangeable_shrunk : ∃ (l : List (DeviceOp × Answer)) (f : FileDevice),
    l.map Prod.fst = [.write 1 (Block.zero.splice 0 [7]), .resize 1, .read 1, .resize 2,
      .read 1] ∧
    Trace (FileDevice.fromPath (FileDevice.createDiskFile 2)) l f := by
  obtain ⟨l, f, m, hl, hf, -⟩ := @file_memory_interchangeable 2 (by decide)
    [.write 1 (Block.zero.splice 0 [7]), .resize 1, .read 1, .resize 2, .read 1] (by
      intro op hop
      simp only [List.mem_cons, List.not_mem_nil, or_false] at hop
      rcases hop with rfl | rfl | rfl | rfl | rfl
      · trivial
      · show 1 < U32
        decide
      · trivial
      · show 2 < U32
        decide
      · trivial)
  exact ⟨l, f, hl, hf⟩

end FerrisFS
