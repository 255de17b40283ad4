import FerrisFS.Device.Memory

/-!
# Block devices and the cache over them

`device/block_device.rs` and `device/cached_device.rs`. The cache is a hash map;
the order in which a map yields its entries is not fixed, so `flush` gets that
order as an argument, and `enumerates` says which orders there can be.
-/

namespace FerrisFS

open Lib

/-- Abstracts where the physical storage is. -/
class BlockDevice (D : Type) where
  readBlock : Nat → Prog FSError D Block
  writeBlock : Nat → Block → Prog FSError D Unit
  blockCount : D → Nat
  resize : Nat → Prog FSError D Unit
  flush : List Nat → Prog FSError D Unit
  /-- the orders in which `flush` may meet its entries -/
  enumerates : D → List Nat → Prop

namespace MemoryDevice

/-- `Vec::resize` with zeroed blocks. -/
def resized (d : MemoryDevice) (blocks : Nat) : MemoryDevice :=
  ⟨d.blocks.take blocks ++ List.replicate (blocks - d.blocks.length) Block.zero⟩

def resize (blocks : Nat) : DevM Unit := Prog.modify fun d => d.resized blocks

end MemoryDevice

instance : BlockDevice MemoryDevice where
  readBlock := FerrisFS.readBlock
  writeBlock := FerrisFS.writeBlock
  blockCount := MemoryDevice.blockCount
  resize := MemoryDevice.resize
  flush _ := pure ()
  enumerates _ _ := True

structure CachedBlock where
  data : Block
  dirty : Bool
  /-- address of the block accessed right after this one -/
  moreRecent : Nat
  /-- address of the block accessed right before this one -/
  lessRecent : Nat
  deriving DecidableEq

structure CachedDevice (D : Type) where
  device : D
  /-- number of cached blocks, greater than 1 -/
  size : Nat
  cache : Nat → Option CachedBlock
  cachedCount : Nat
  /-- least recently used block address -/
  lru : Nat
  /-- most recently used block address -/
  mru : Nat

namespace CachedDevice

variable {D : Type} [BlockDevice D]

abbrev CacheM (D : Type) := Prog FSError (CachedDevice D)

def new (device : D) (size : Nat) : CachedDevice D where
  device := device
  size := max size 2
  cache := fun _ => none
  cachedCount := 0
  lru := INVALID_ADDRESS
  mru := INVALID_ADDRESS

/-- Run an operation of the device below. -/
def onInner {α : Type} (m : Prog FSError D α) : CacheM D α :=
  Prog.zoom CachedDevice.device (fun d s => { s with device := d }) m

/-- `self.cache.get_mut(&key).unwrap()`, then an update of the entry. -/
def update (key : Nat) (f : CachedBlock → CachedBlock) : CacheM D Unit := fun s =>
  match s.cache key with
  | some e => .ok () { s with cache := Function.update s.cache key (some (f e)) }
  | none => .panic

/-- The first part of a hit: the entry is taken out of the list, unless it is at its
end. -/
def unlink (block : Nat) (entry : CachedBlock) : CacheM D Unit := do
  if entry.moreRecent ≠ INVALID_ADDRESS then do
    update entry.moreRecent fun e => { e with lessRecent := entry.lessRecent }
    if entry.lessRecent ≠ INVALID_ADDRESS then
      update entry.lessRecent fun e => { e with moreRecent := entry.moreRecent }
  Prog.modify fun s =>
    if s.lru = block ∧ entry.moreRecent ≠ INVALID_ADDRESS then { s with lru := entry.moreRecent }
    else s

/-- What a hit does to the links: the entry goes to the end of the list. -/
def hitUpdate (block : Nat) (entry : CachedBlock) : CacheM D Unit := do
  unlink block entry
  let s ← Prog.get
  update s.mru fun e => { e with moreRecent := block }
  update block fun e => { e with moreRecent := INVALID_ADDRESS, lessRecent := s.mru }
  Prog.modify fun s => { s with mru := block }

def missUpdate (block : Nat) : CacheM D Unit := do
  let s ← Prog.get
  if s.mru ≠ INVALID_ADDRESS then update s.mru fun e => { e with moreRecent := block }
  else Prog.modify fun s => { s with lru := block }
  Prog.modify fun s => { s with mru := block }

/-- A dirty entry goes to the device below. -/
def writeBack (key : Nat) (entry : CachedBlock) : CacheM D Unit :=
  if entry.dirty then onInner (BlockDevice.writeBlock key entry.data) else pure ()

/-- The replacement part of `insert`: the lru is written back and removed. -/
def evict : CacheM D Unit := do
  let s ← Prog.get
  let toRemove := s.lru
  let lru ← Prog.unwrap (s.cache s.lru)
  writeBack s.lru lru
  Prog.modify fun s => { s with lru := lru.moreRecent }
  update lru.moreRecent fun e => { e with lessRecent := INVALID_ADDRESS }
  Prog.modify fun s => { s with
    cache := Function.update s.cache toRemove none
    cachedCount := s.cachedCount - 1 }

def insert (block : Nat) (entry : CachedBlock) : CacheM D Unit := do
  let s ← Prog.get
  if s.cachedCount ≥ s.size then evict
  Prog.modify fun s => { s with
    cachedCount := s.cachedCount + 1
    cache := Function.update s.cache block (some entry) }

def readBlock (block : Nat) : CacheM D Block := do
  let s ← Prog.get
  match s.cache block with
  | some entry => do
    hitUpdate block entry
    pure entry.data
  | none => do
    let data ← onInner (BlockDevice.readBlock block)
    let s ← Prog.get
    missUpdate block
    insert block ⟨data, false, INVALID_ADDRESS, s.mru⟩
    pure data

def writeBlock (block : Nat) (buf : Block) : CacheM D Unit := do
  let s ← Prog.get
  match s.cache block with
  | some entry => do
    hitUpdate block entry
    update block fun e => { e with dirty := true, data := buf }
  | none => do
    missUpdate block
    insert block ⟨buf, true, INVALID_ADDRESS, s.mru⟩

/-- The body of the loop of `flush`. -/
def flushEntry (key : Nat) : CacheM D Unit := do
  let s ← Prog.get
  match s.cache key with
  | some e =>
    if e.dirty then do
      onInner (BlockDevice.writeBlock key e.data)
      update key fun e => { e with dirty := false }
  | none => pure ()

/-- The loop of `flush`, over the entries in the given order. -/
def flush : List Nat → CacheM D Unit
  | [] => pure ()
  | key :: rest => do
    flushEntry key
    flush rest

/-- The order names every entry once. -/
def Enumerates (s : CachedDevice D) (order : List Nat) : Prop :=
  order.Nodup ∧ ∀ key, key ∈ order ↔ (s.cache key).isSome

instance : BlockDevice (CachedDevice D) where
  readBlock := readBlock
  writeBlock := writeBlock
  blockCount s := BlockDevice.blockCount s.device
  resize blocks := onInner (BlockDevice.resize blocks)
  flush := flush
  enumerates := Enumerates

/-! What a call does with a block that has an entry, and with one that has none. -/

section Entry

variable {s : CachedDevice D} {b : Nat} {e : CachedBlock}

theorem readBlock_cached (he : s.cache b = some e) :
    readBlock b s = (hitUpdate b e >>= fun _ => pure e.data : CacheM D Block) s := by
  unfold readBlock
  rw [Prog.bind_apply]
  simp only [Prog.get, he]

theorem readBlock_uncached (he : s.cache b = none) :
    readBlock b s = (do
      let data ← onInner (BlockDevice.readBlock b)
      let s ← Prog.get
      missUpdate b
      insert b ⟨data, false, INVALID_ADDRESS, s.mru⟩
      pure data : CacheM D Block) s := by
  unfold readBlock
  rw [Prog.bind_apply]
  simp only [Prog.get, he]

theorem writeBlock_cached (he : s.cache b = some e) (buf : Block) :
    writeBlock b buf s = (do
      hitUpdate b e
      update b fun e => { e with dirty := true, data := buf } : CacheM D Unit) s := by
  unfold writeBlock
  rw [Prog.bind_apply]
  simp only [Prog.get, he]

theorem writeBlock_uncached (he : s.cache b = none) (buf : Block) :
    writeBlock b buf s = (do
      missUpdate b
      insert b ⟨buf, true, INVALID_ADDRESS, s.mru⟩ : CacheM D Unit) s := by
  unfold writeBlock
  rw [Prog.bind_apply]
  simp only [Prog.get, he]

theorem flushEntry_cached (he : s.cache b = some e) :
    flushEntry b s = (if e.dirty then do
        onInner (BlockDevice.writeBlock b e.data)
        update b fun e => { e with dirty := false }
      else pure () : CacheM D Unit) s := by
  unfold flushEntry
  rw [Prog.bind_apply]
  simp only [Prog.get, he]

theorem flushEntry_uncached (he : s.cache b = none) :
    flushEntry b s = (pure () : CacheM D Unit) s := by
  unfold flushEntry
  rw [Prog.bind_apply]
  simp only [Prog.get, he]

end Entry

end CachedDevice

/-! ## Sequences of calls -/

inductive DeviceOp where
  | read (block : Nat)
  | write (block : Nat) (buf : Block)
  | flush (order : List Nat)
  | resize (blocks : Nat)

namespace DeviceOp

variable {D : Type} [BlockDevice D]

/-- The call; a read returns its bytes. -/
def exec : DeviceOp → Prog FSError D (Option Block)
  | .read block => do
    let data ← BlockDevice.readBlock block
    pure (some data)
  | .write block buf => do
    BlockDevice.writeBlock block buf
    pure none
  | .flush order => do
    BlockDevice.flush order
    pure none
  | .resize blocks => do
    BlockDevice.resize blocks
    pure none

/-- The block that a read or a write names. -/
def block? : DeviceOp → Option Nat
  | .read block => some block
  | .write block _ => some block
  | .flush _ => none
  | .resize _ => none

/-- A read or a write of a block below `count`, or a flush. -/
def InRange (count : Nat) : DeviceOp → Prop
  | .read block => block < count
  | .write block _ => block < count
  | .flush _ => True
  | .resize _ => False

instance (count : Nat) : (op : DeviceOp) → Decidable (op.InRange count)
  | .read block => inferInstanceAs (Decidable (block < count))
  | .write block _ => inferInstanceAs (Decidable (block < count))
  | .flush _ => inferInstanceAs (Decidable True)
  | .resize _ => inferInstanceAs (Decidable False)

/-- A `flush` meets the entries in an order there can be. -/
def Ordered (s : D) : DeviceOp → Prop
  | .flush order => BlockDevice.enumerates s order
  | _ => True

end DeviceOp

/-- What a call answers. -/
abbrev Answer := Except FSError (Option Block)

/-- The call answers and leaves `s'`: it does not panic. -/
inductive Answers {D : Type} [BlockDevice D] (s : D) (op : DeviceOp) : Answer → D → Prop where
  | ok {a s'} (h : op.exec s = .ok a s') : Answers s op (.ok a) s'
  | err {e s'} (h : op.exec s = .err e s') : Answers s op (.error e) s'

/-- A sequence of calls with their answers, up to any call before the first panic. -/
inductive Trace {D : Type} [BlockDevice D] (s : D) : List (DeviceOp × Answer) → D → Prop where
  | nil : Trace s [] s
  | snoc {l o a s' s''} (h : Trace s l s') (ho : o.Ordered s') (ha : Answers s' o a s'') :
      Trace s (l ++ [(o, a)]) s''

theorem Trace.of_nil {D : Type} [BlockDevice D] {s s' : D} (h : Trace s [] s') : s' = s := by
  generalize hl : ([] : List (DeviceOp × Answer)) = l at h
  cases h with
  | nil => rfl
  | snoc => simp at hl

theorem Trace.of_snoc {D : Type} [BlockDevice D] {s s'' : D} {l : List (DeviceOp × Answer)}
    {op : DeviceOp} {a : Answer} (h : Trace s (l ++ [(op, a)]) s'') :
    ∃ s', Trace s l s' ∧ op.Ordered s' ∧ Answers s' op a s'' := by
  generalize hl : l ++ [(op, a)] = l' at h
  cases h with
  | nil => simp at hl
  | snoc h ho ha =>
    obtain ⟨rfl, heq⟩ := List.append_inj' hl rfl
    cases heq
    exact ⟨_, h, ho, ha⟩

section Determinism

variable {D : Type} [BlockDevice D] {s s₁ s₂ : D} {op : DeviceOp} {a a' : Answer}

theorem Answers.unique (h : Answers s op a s₁) (h' : Answers s op a' s₂) : a = a' ∧ s₁ = s₂ := by
  cases h with
  | ok h =>
      cases h' with
      | ok h' =>
          rw [h] at h'
          cases h'
          exact ⟨rfl, rfl⟩
      | err h' =>
          rw [h] at h'
          cases h'
  | err h =>
      cases h' with
      | ok h' =>
          rw [h] at h'
          cases h'
      | err h' =>
          rw [h] at h'
          cases h'
          exact ⟨rfl, rfl⟩

/-- The calls decide the answers. -/
theorem Trace.unique {l l' : List (DeviceOp × Answer)} (h : Trace s l s₁) (h' : Trace s l' s₂)
    (hops : l.map Prod.fst = l'.map Prod.fst) : l = l' ∧ s₁ = s₂ := by
  induction h generalizing l' s₂ with
  | nil =>
      have hnil : l' = [] := by simpa using hops.symm
      subst hnil
      exact ⟨rfl, h'.of_nil.symm⟩
  | @snoc l o a s' s'' _ _ ha ih =>
      cases h' with
      | nil => simp at hops
      | @snoc l₂ o₂ a₂ t' t'' h₂ _ ha₂ =>
          rw [List.map_append, List.map_append] at hops
          obtain ⟨hinit, hlast⟩ := List.append_inj' hops rfl
          obtain ⟨rfl, rfl⟩ := ih h₂ hinit
          have ho : o = o₂ := by simpa using hlast
          subst ho
          obtain ⟨rfl, rfl⟩ := ha.unique ha₂
          exact ⟨rfl, rfl⟩

end Determinism

/-- The blocks that the reads and writes of a sequence name. -/
def accesses (l : List (DeviceOp × Answer)) : List Nat := l.filterMap fun x => x.1.block?

theorem accesses_snoc (l : List (DeviceOp × Answer)) (op : DeviceOp) (a : Answer) :
    accesses (l ++ [(op, a)]) = accesses l ++ op.block?.toList := by
  rw [accesses, List.filterMap_append, ← accesses]
  cases h : op.block? <;> simp [h]

end FerrisFS
