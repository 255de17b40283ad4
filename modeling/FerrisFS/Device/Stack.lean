import FerrisFS.Device.Transparency

/-!
# Stacks of caches and the images they save

A cache is a block device, so caches can be stacked. `flush` writes the dirty
entries of the outermost cache to the device right below it and no further, and
`save` writes out the memory device of a single cache as it is, dirty entries or
not.
-/

namespace FerrisFS

open Lib

/-! ## Image files -/

namespace MemoryDevice

/-- `File::set_len`: cut off or filled with zeros. -/
def setLen (file : List UInt8) (len : Nat) : List UInt8 :=
  file.take len ++ List.replicate (len - file.length) 0

/-- `save`, into a file that holds `old`. -/
def save (d : MemoryDevice) (old : List UInt8) : List UInt8 :=
  let written := d.blocks.flatMap Block.bytes
  setLen (written ++ old.drop written.length) (d.blockCount * BLOCK_SIZE)

/-- The loop of `from_file`: whole blocks, up to the end of the file. -/
def blocksOf : Nat → List UInt8 → List Block
  | 0, _ => []
  | fuel + 1, file =>
      if h : (file.take BLOCK_SIZE).length = BLOCK_SIZE then
        ⟨file.take BLOCK_SIZE, h⟩ :: blocksOf fuel (file.drop BLOCK_SIZE)
      else []

def fromFile (file : List UInt8) : MemoryDevice := ⟨blocksOf (file.length + 1) file⟩

theorem flatMap_bytes_length (blocks : List Block) :
    (blocks.flatMap Block.bytes).length = blocks.length * BLOCK_SIZE := by
  induction blocks with
  | nil => simp
  | cons b blocks ih =>
      rw [List.flatMap_cons, List.length_append, ih, b.size, List.length_cons, Nat.succ_mul,
        Nat.add_comm]

theorem take_flatMap_bytes (blocks : List Block) (n : Nat) (rest : List UInt8)
    (hn : n ≤ blocks.length) :
    (blocks.flatMap Block.bytes ++ rest).take (n * BLOCK_SIZE) =
      (blocks.take n).flatMap Block.bytes := by
  have hsplit : blocks.flatMap Block.bytes =
      (blocks.take n).flatMap Block.bytes ++ (blocks.drop n).flatMap Block.bytes := by
    rw [← List.flatMap_append, List.take_append_drop]
  have hlen : ((blocks.take n).flatMap Block.bytes).length = n * BLOCK_SIZE := by
    rw [flatMap_bytes_length, List.length_take, Nat.min_eq_left hn]
  rw [hsplit, List.append_assoc, List.take_left' hlen]

theorem blocksOf_flatMap (blocks : List Block) {fuel : Nat} (hfuel : blocks.length < fuel) :
    blocksOf fuel (blocks.flatMap Block.bytes) = blocks := by
  induction blocks generalizing fuel with
  | nil =>
      cases fuel with
      | zero => rfl
      | succ fuel => rfl
  | cons b blocks ih =>
      obtain ⟨fuel, rfl⟩ := Nat.exists_eq_add_of_lt hfuel
      have htake : (b.bytes ++ blocks.flatMap Block.bytes).take BLOCK_SIZE = b.bytes :=
        List.take_left' b.size
      have hdrop : (b.bytes ++ blocks.flatMap Block.bytes).drop BLOCK_SIZE =
          blocks.flatMap Block.bytes := List.drop_left' b.size
      rw [List.flatMap_cons, blocksOf]
      simp only [htake, hdrop, b.size, dif_pos]
      rw [ih (by simp only [List.length_cons]; omega)]

/-- A saved image gives back the blocks that `read_block` can reach. -/
theorem fromFile_save (d : MemoryDevice) (old : List UInt8) :
    fromFile (d.save old) = ⟨d.blocks.take d.blockCount⟩ := by
  have hcount : d.blockCount ≤ d.blocks.length := Nat.mod_le _ _
  have hsave : d.save old = (d.blocks.take d.blockCount).flatMap Block.bytes := by
    rw [save, setLen, take_flatMap_bytes _ _ _ hcount, List.length_append, flatMap_bytes_length]
    have hzero : d.blockCount * BLOCK_SIZE -
        (d.blocks.length * BLOCK_SIZE + (old.drop (d.blocks.length * BLOCK_SIZE)).length) = 0 := by
      have := Nat.mul_le_mul_right BLOCK_SIZE hcount
      omega
    rw [hzero, List.replicate_zero, List.append_nil]
  rw [fromFile, hsave, blocksOf_flatMap]
  rw [flatMap_bytes_length]
  have := Nat.le_mul_of_pos_right (d.blocks.take d.blockCount).length (by decide : 0 < BLOCK_SIZE)
  omega

theorem block_fromFile_save {d : MemoryDevice} (old : List UInt8) {b : Nat}
    (hb : b < d.blockCount) :
    (fromFile (d.save old)).block b = d.block b := by
  rw [fromFile_save, block, block, List.getD_eq_getElem?_getD, List.getD_eq_getElem?_getD,
    List.getElem?_take_of_lt hb]

end MemoryDevice

/-- `CachedDevice::save`, and `FFS::save` over a cache. -/
def CachedDevice.save (c : CachedDevice MemoryDevice) (old : List UInt8) : List UInt8 :=
  c.device.save old

/-! ## Stacks -/

/-- `n` caches over a memory device. -/
def Stack : Nat → Type
  | 0 => MemoryDevice
  | n + 1 => CachedDevice (Stack n)

namespace Stack

instance instBlockDevice : (n : Nat) → BlockDevice (Stack n)
  | 0 => inferInstanceAs (BlockDevice MemoryDevice)
  | n + 1 =>
      have : BlockDevice (Stack n) := instBlockDevice n
      inferInstanceAs (BlockDevice (CachedDevice (Stack n)))

/-- The memory device at the bottom. -/
def bottom : (n : Nat) → Stack n → MemoryDevice
  | 0, d => d
  | n + 1, s => bottom n (CachedDevice.device s)

/-- The stack over `d` with the given capacities, the outermost first. -/
def new (d : MemoryDevice) : (capacities : List Nat) → Stack capacities.length
  | [] => d
  | capacity :: rest => CachedDevice.new (new d rest) capacity

/-- No entry of any cache is dirty. -/
def Clean : (n : Nat) → Stack n → Prop
  | 0, _ => True
  | n + 1, s => (∀ b e, CachedDevice.cache s b = some e → e.dirty = false) ∧
      Clean n (CachedDevice.device s)

/-- The contents a stack shows. -/
def Shows : (n : Nat) → Stack n → MemoryDevice → Prop
  | 0 => fun d m => d = m
  | n + 1 => CachedDevice.Layer (Shows n)

theorem simulates : (n : Nat) → Simulates (Shows n)
  | 0 => simulates_memory
  | n + 1 => CachedDevice.simulates_layer (simulates n)

theorem shows_new (m : MemoryDevice) : (capacities : List Nat) →
    Shows capacities.length (new m capacities) m
  | [] => rfl
  | capacity :: rest => CachedDevice.layer_new (shows_new m rest) capacity

theorem bottom_eq {n : Nat} {s : Stack n} {m : MemoryDevice} (h : Shows n s m)
    (hclean : Clean n s) : bottom n s = m := by
  induction n generalizing m with
  | zero => exact h
  | succ n ih =>
    obtain ⟨base, hs⟩ := h
    exact (ih hs.device hclean.2).trans (hs.coherent.eq_of_clean hclean.1)

end Stack

namespace CachedDevice

variable {D : Type} [BlockDevice D] {c c' : CachedDevice D}

/-- Without dirty entries a flush does nothing. -/
theorem flush_of_clean (h : ∀ b e, c.cache b = some e → e.dirty = false) (order : List Nat) :
    flush order c = .ok () c := by
  induction order with
  | nil => rfl
  | cons key rest ih =>
    have hentry : flushEntry key c = .ok () c := by
      cases he : c.cache key with
      | none => exact flushEntry_uncached he
      | some e =>
        rw [flushEntry_cached he, h key e he]
        rfl
    exact (Prog.bind_of_ok hentry _).trans ih

theorem eq_of_flush_clean (h : ∀ b e, c.cache b = some e → e.dirty = false) {order : List Nat}
    {a : Answer} (ha : Answers c (.flush order) a c') : c' = c := by
  have hexec : (DeviceOp.flush order).exec c = .ok none c :=
    Prog.bind_of_ok (flush_of_clean h order) _
  cases ha with
  | ok ha =>
    rw [hexec] at ha
    cases ha
    rfl
  | err ha =>
    rw [hexec] at ha
    cases ha

/-- The saved image holds the contents exactly when each dirty entry holds what is
already below it. -/
theorem save_holds_iff {c : CachedDevice MemoryDevice} {m : MemoryDevice} (hc : ShowsMemory c m)
    (old : List UInt8) :
    (∀ b < m.blockCount, (MemoryDevice.fromFile (c.save old)).block b = m.block b) ↔
      ∀ b e, c.cache b = some e → e.dirty = true → c.device.block b = e.data := by
  obtain ⟨base, hc⟩ := hc
  have hbase : c.device = base := hc.device
  have hcount := hc.coherent.blockCount
  constructor
  · intro h b e he _
    obtain ⟨hb, hdata⟩ := hc.coherent.cached he
    have himage := h b hb
    rw [save, MemoryDevice.block_fromFile_save old (by rw [hbase, hcount]; exact hb)] at himage
    rw [himage, hdata]
  · intro h b hb
    rw [save, MemoryDevice.block_fromFile_save old (by rw [hbase, hcount]; exact hb)]
    by_cases hdirty : ∃ e, c.cache b = some e ∧ e.dirty = true
    · obtain ⟨e, he, hdirty⟩ := hdirty
      rw [h b e he hdirty, (hc.coherent.cached he).2]
    · rw [hbase]
      refine hc.coherent.clean fun e he => ?_
      by_contra hne
      exact hdirty ⟨e, he, by simpa using hne⟩

end CachedDevice

/-- What a read through a device that shows `m` returns. -/
theorem Simulates.read_eq {D : Type} [BlockDevice D] {R : D → MemoryDevice → Prop}
    (hR : Simulates R) {d d' : D} {m : MemoryDevice} (hd : R d m) {b : Nat} {data : Block}
    (h : BlockDevice.readBlock b d = .ok data d') : b < m.blockCount ∧ data = m.block b := by
  obtain ⟨hb, hdata, -⟩ := (hR.read b hd).of_ok h
  exact ⟨hb, hdata⟩

/-- One cache, or a stack without dirty entries, leaves its contents at the bottom
when it is flushed; and a single cache saves its contents when every dirty entry holds
what is already below it. -/
theorem persisted_image (m : MemoryDevice) (calls : List (DeviceOp × Answer))
    (hrange : ∀ x ∈ calls, x.1.InRange m.blockCount) :
    (∀ (capacities : List Nat) (s : Stack capacities.length), capacities ≠ [] →
      Trace (Stack.new m capacities) calls s → capacities.length = 1 ∨ Stack.Clean _ s →
      ∀ order a s', (DeviceOp.flush order).Ordered s → Answers s (.flush order) (.ok a) s' →
      ∀ b data s'', BlockDevice.readBlock b s' = .ok data s'' →
        (Stack.bottom _ s').block b = data) ∧
    (∀ (capacity : Nat) (c : CachedDevice MemoryDevice),
      Trace (CachedDevice.new m capacity) calls c →
      (∀ b e, c.cache b = some e → e.dirty = true → c.device.block b = e.data) →
      ∀ old, (MemoryDevice.fromFile (c.save old)).blockCount = BlockDevice.blockCount c ∧
        ∀ b data c', BlockDevice.readBlock b c = .ok data c' →
          (MemoryDevice.fromFile (c.save old)).block b = data) := by
  constructor
  · intro capacities s hne h hcond order a s' ho ha b data s'' hread
    have hR := Stack.simulates capacities.length
    obtain ⟨m', -, hs, -⟩ := trace_simulates hR (Stack.shows_new m capacities) h hrange
    have hop : (DeviceOp.flush order).InRange m'.blockCount := trivial
    obtain ⟨m'', -, hs'⟩ := answers_simulates hR hs hop ha
    have hclean : Stack.Clean _ s' := by
      cases capacities with
      | nil => exact absurd rfl hne
      | cons capacity rest =>
        rcases hcond with hone | hclean
        · obtain rfl : rest = [] := by simpa using hone
          exact ⟨clean_of_flush simulates_memory hs ho ha, trivial⟩
        · rw [CachedDevice.eq_of_flush_clean hclean.1 ha]
          exact hclean
    rw [Stack.bottom_eq hs' hclean, (hR.read_eq hs' hread).2]
  · intro capacity c h hcond old
    have hR := CachedDevice.simulates_layer simulates_memory
    obtain ⟨m', -, hc, -⟩ := trace_simulates hR
      (CachedDevice.layer_new (R := fun d m : MemoryDevice => d = m) (Eq.refl m) capacity) h hrange
    refine ⟨?_, fun b data c' hread => ?_⟩
    · rw [CachedDevice.save, MemoryDevice.fromFile_save]
      change (c.device.blocks.take c.device.blockCount).length % U32 = c.device.blockCount
      have hle : c.device.blockCount ≤ c.device.blocks.length := Nat.mod_le _ _
      rw [List.length_take, Nat.min_eq_left hle]
      exact Nat.mod_mod _ _
    · obtain ⟨hb, rfl⟩ := hR.read_eq hc hread
      exact (CachedDevice.save_holds_iff hc old).mpr hcond b hb

/-- A block that differs from the zeroed one. -/
def Block.marked : Block := Block.zero.splice 0 [1]

theorem Block.zero_ne_marked : Block.zero ≠ Block.marked := by
  intro h
  have hbyte := congrArg (fun b => b.byte 0) h
  revert hbyte
  decide

theorem inRange_write_zero (a : Answer) : ∀ x ∈ [(DeviceOp.write 0 Block.marked, a)],
    x.1.InRange (MemoryDevice.empty 1).blockCount := by
  simp [DeviceOp.InRange, MemoryDevice.empty, MemoryDevice.blockCount, U32]

/-- The order of a cache whose only entry is block 0. -/
theorem ordered_zero (e : CachedBlock) (key : Nat) :
    key ∈ [0] ↔ (Function.update (fun _ => none) 0 (some e) key).isSome := by
  by_cases hkey : key = 0
  · simp [hkey]
  · simp [hkey]

/-- Block 0 is written through a single cache, which is then flushed and read, or
flushed and saved. -/
theorem persisted_image_single :
    (∃ (s' s'' : Stack 1) (data : Block), (Stack.bottom 1 s').block 0 = data ∧
      BlockDevice.readBlock 0 s' = .ok data s'' ∧ data = Block.marked) ∧
    (∃ (c c' : CachedDevice MemoryDevice) (data : Block),
      (MemoryDevice.fromFile (c.save [])).block 0 = data ∧
      BlockDevice.readBlock 0 c = .ok data c' ∧ data = Block.marked) := by
  constructor
  · have himage := (persisted_image (MemoryDevice.empty 1) _ (inRange_write_zero _)).1 [2] _
      (by decide) (.snoc (o := .write 0 Block.marked) .nil trivial (.ok rfl)) (Or.inl rfl) [0]
      none _ ⟨by decide, fun key => ordered_zero _ key⟩ (.ok rfl) 0 Block.marked _ rfl
    exact ⟨_, _, _, himage, rfl, rfl⟩
  · have himage := ((persisted_image (MemoryDevice.empty 1) _ ?_).2 2 _
      (.snoc (o := .flush [0]) (.snoc (o := .write 0 Block.marked) .nil trivial (.ok rfl))
        ⟨by decide, fun key => ordered_zero _ key⟩ (.ok rfl)) ?_ []).2 0 Block.marked _ rfl
    · exact ⟨_, _, _, himage, rfl, rfl⟩
    · simp [DeviceOp.InRange, MemoryDevice.empty, MemoryDevice.blockCount, U32]
    · intro b e he hdirty
      change Function.update (Function.update (fun _ => none) 0 _) 0 (some _) b = some e at he
      by_cases hb : b = 0
      · rw [hb, Function.update_self] at he
        cases he
        cases hdirty
      · rw [Function.update_of_ne hb, Function.update_of_ne hb] at he
        cases he

/-- Two caches: after a flush of the outer one the written block is in the inner one.
One cache: a save right after a write does not have it. -/
theorem persisted_image_stale :
    (∃ (calls : List (DeviceOp × Answer)) (s s' s'' : Stack 2) (order : List Nat) (data : Block),
      Trace (Stack.new (MemoryDevice.empty 1) [2, 2]) calls s ∧
      (∀ x ∈ calls, x.1.InRange (MemoryDevice.empty 1).blockCount) ∧
      (DeviceOp.flush order).Ordered s ∧ Answers s (.flush order) (.ok none) s' ∧
      BlockDevice.readBlock 0 s' = .ok data s'' ∧ (Stack.bottom 2 s').block 0 ≠ data) ∧
    (∃ (calls : List (DeviceOp × Answer)) (c c' : CachedDevice MemoryDevice) (data : Block),
      Trace (CachedDevice.new (MemoryDevice.empty 1) 2) calls c ∧
      (∀ x ∈ calls, x.1.InRange (MemoryDevice.empty 1).blockCount) ∧
      BlockDevice.readBlock 0 c = .ok data c' ∧
      (MemoryDevice.fromFile (c.save [])).block 0 ≠ data) := by
  constructor
  · refine ⟨_, _, _, _, [0], Block.marked,
      .snoc (o := .write 0 Block.marked) .nil trivial (.ok rfl), inRange_write_zero _,
      ⟨by decide, fun key => ordered_zero _ key⟩, .ok rfl, rfl, Block.zero_ne_marked⟩
  · refine ⟨_, _, _, Block.marked,
      .snoc (o := .write 0 Block.marked) .nil trivial (.ok rfl), inRange_write_zero _, rfl, ?_⟩
    rw [CachedDevice.save, MemoryDevice.block_fromFile_save]
    · exact Block.zero_ne_marked
    · exact (by decide : 0 < (MemoryDevice.empty 1).blockCount)

end FerrisFS
