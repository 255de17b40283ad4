import FerrisFS.Device.Lru
import FerrisFS.Device.Transparency

/-!
# An eviction that fails

A miss on a full cache has made its block the mru before `insert` writes the lru back.
When the device below refuses that write, the call answers the error and the block
never gets an entry: `mru` names nothing from then on. Every later write and every
later hit unwraps that entry, and so does every later read that its device answers.
-/

namespace FerrisFS

open Lib

namespace CachedDevice

variable {D : Type} {s s' : CachedDevice D} {l : List Nat} {b : Nat} {e : CachedBlock}

/-! ## A cache whose mru has no entry -/

/-- The entry of the mru is missing. -/
def Lacking (s : CachedDevice D) : Prop := s.cache s.mru = none

/-- The cache is full, and the entry of its mru is missing. -/
structure Stuck (s : CachedDevice D) : Prop where
  lacking : s.Lacking
  full : s.size ≤ s.cachedCount

theorem Lacking.update (h : s.Lacking) (key : Nat) (f : CachedBlock → CachedBlock) :
    Prog.wp (update key f) (fun _ s' => s'.Lacking) (fun _ _ => False) s := by
  refine wp_update fun e he => ?_
  have hne : s.mru ≠ key := by
    intro heq
    have hnone : s.cache s.mru = none := h
    rw [heq, he] at hnone
    cases hnone
  change Function.update s.cache key _ s.mru = none
  rw [Function.update_of_ne hne]
  exact h

theorem Lacking.unlink (h : s.Lacking) :
    Prog.wp (unlink b e) (fun _ s' => s'.Lacking) (fun _ _ => False) s := by
  have hlru : ∀ s' : CachedDevice D, s'.Lacking → Prog.wp (Prog.modify fun s =>
      if s.lru = b ∧ e.moreRecent ≠ INVALID_ADDRESS then { s with lru := e.moreRecent } else s :
        CacheM D Unit) (fun _ s' => s'.Lacking) (fun _ _ => False) s' := by
    intro s' h'
    rw [Prog.wp_modify]
    split
    · exact h'
    · exact h'
  unfold CachedDevice.unlink
  refine Prog.wp_ite (fun _ => ?_) fun _ => hlru s h
  refine Prog.wp_seq (h.update _ _) (fun _ s' h' => ?_) fun _ _ hf => hf
  refine Prog.wp_ite (fun _ => ?_) fun _ => hlru s' h'
  exact Prog.wp_seq (h'.update _ _) (fun _ s₂ h₂ => hlru s₂ h₂) fun _ _ hf => hf

/-- A hit looks the mru up. -/
theorem Lacking.hitUpdate (h : s.Lacking) : hitUpdate b e s = .panic := by
  apply Prog.panic_of_wp
  refine Prog.wp_seq h.unlink (fun _ s' h' => ?_) fun _ _ hf => hf
  change Prog.wp (CachedDevice.update s'.mru _ >>= _) _ _ s'
  refine Prog.wp_bind.mpr (wp_update fun e' he' => ?_)
  have hnone : s'.cache s'.mru = none := h'
  rw [he'] at hnone
  cases hnone

theorem missUpdate_of_lacking (h : s.Lacking) (hmru : s.mru ≠ INVALID_ADDRESS) :
    missUpdate b s = .panic := by
  apply Prog.panic_of_wp
  refine Prog.wp_bind.mpr (Prog.wp_ite (fun _ => ?_) fun hc => absurd hmru hc)
  refine Prog.wp_bind.mpr (wp_update fun e he => ?_)
  have hnone : s.cache s.mru = none := h
  rw [he] at hnone
  cases hnone

variable [BlockDevice D]

omit [BlockDevice D] in
theorem Stuck.onDevice (h : s.Stuck) (d : D) : Stuck { s with device := d } :=
  ⟨h.lacking, h.full⟩

/-- A miss looks the mru up too. Where the mru is the address that stands for none, the
block becomes the lru, and the replacement looks that one up. -/
theorem Stuck.miss (h : s.Stuck) (hb : s.cache b = none) : (do
    missUpdate b
    insert b e : CacheM D Unit) s = .panic := by
  by_cases hmru : s.mru = INVALID_ADDRESS
  · have hmiss : missUpdate b s = .ok () { s with lru := b, mru := b } := by
      change (if s.mru ≠ INVALID_ADDRESS then _ else _ : CacheM D Unit) s = _
      rw [if_neg (not_not_intro hmru)]
      rfl
    rw [Prog.bind_of_ok hmiss]
    change (if s.size ≤ s.cachedCount then _ else _ : CacheM D Unit) _ = _
    rw [if_pos h.full]
    apply Prog.bind_of_panic
    change (Prog.unwrap (s.cache b) >>= _ : CacheM D Unit) _ = _
    rw [hb]
    rfl
  · exact Prog.bind_of_panic (missUpdate_of_lacking h.lacking hmru) _

theorem Stuck.writeBlock (h : s.Stuck) (b : Nat) (buf : Block) : writeBlock b buf s = .panic := by
  cases hb : s.cache b with
  | some e =>
    rw [writeBlock_cached hb]
    exact Prog.bind_of_panic h.lacking.hitUpdate _
  | none =>
    rw [writeBlock_uncached hb]
    exact h.miss hb

theorem Stuck.readBlock_hit (h : s.Stuck) (hb : s.cache b = some e) : readBlock b s = .panic := by
  rw [readBlock_cached hb]
  exact Prog.bind_of_panic h.lacking.hitUpdate _

theorem Stuck.readBlock_miss (h : s.Stuck) (hb : s.cache b = none) {data : Block} {d : D}
    (hd : BlockDevice.readBlock b s.device = .ok data d) : readBlock b s = .panic := by
  rw [readBlock_uncached hb]
  refine (Prog.bind_of_ok (onInner_of_ok hd) _).trans ?_
  have hmiss := (h.onDevice d).miss (e := ⟨data, false, INVALID_ADDRESS, s.mru⟩) hb
  change (missUpdate b >>= fun _ => insert b _ >>= fun _ => pure data) _ = _
  rw [← Prog.bind_assoc]
  exact Prog.bind_of_panic hmiss _

/-! ## The call whose eviction fails -/

/-- A read or a write of a block that is not cached, while the device below refuses to
take the lru back; a read has been answered by then. -/
inductive EvictionFails (s : CachedDevice D) : DeviceOp → FSError → D → Prop where
  | read {b : Nat} {data : Block} {e : CachedBlock} {err : FSError} {d d' : D}
      (miss : s.cache b = none) (answer : BlockDevice.readBlock b s.device = .ok data d)
      (entry : s.cache s.lru = some e) (dirty : e.dirty)
      (refused : BlockDevice.writeBlock s.lru e.data d = .err err d') :
      EvictionFails s (.read b) err d'
  | write {b : Nat} {buf : Block} {e : CachedBlock} {err : FSError} {d' : D}
      (miss : s.cache b = none) (entry : s.cache s.lru = some e) (dirty : e.dirty)
      (refused : BlockDevice.writeBlock s.lru e.data s.device = .err err d') :
      EvictionFails s (.write b buf) err d'

/-- The cached blocks with their data, flags and links, the ends of the list and the
count are as before. -/
structure KeepsCache (s s' : CachedDevice D) : Prop where
  cache : s'.cache = s.cache
  lru : s'.lru = s.lru
  mru : s'.mru = s.mru
  count : s'.cachedCount = s.cachedCount

/-- What such a call leaves: `miss_update` has run, `insert` has not. -/
def missed (s : CachedDevice D) (b : Nat) (d : D) : CachedDevice D :=
  { s.updated s.mru fun e => { e with moreRecent := b } with mru := b, device := d }

omit [BlockDevice D] in
theorem stuck_missed (hb : s.cache b = none) (hfull : s.size ≤ s.cachedCount) (d : D) :
    (s.missed b d).Stuck := by
  constructor
  · have hsome : ((s.updated s.mru fun e => { e with moreRecent := b }).cache b).isSome =
        (s.cache b).isSome := updated_isSome
    rw [hb, Option.isSome_none] at hsome
    exact Option.isNone_iff_eq_none.mp (Option.isSome_eq_false_iff.mp hsome)
  · exact hfull

omit [BlockDevice D] in
theorem Threaded.mru_mem (h : s.Threaded l) (hne : l ≠ []) : s.mru ∈ l := by
  rw [h.mru, List.getLastD_eq_getLast?, List.getLast?_eq_some_getLast hne]
  exact List.getLast_mem hne

omit [BlockDevice D] in
theorem missUpdate_of_threaded (h : s.Threaded l) (hne : l ≠ []) :
    missUpdate b s = .ok () (s.missed b s.device) := by
  have hmem := h.mru_mem hne
  have hvalid : s.mru ≠ INVALID_ADDRESS := fun heq => h.valid (heq ▸ hmem)
  change (if s.mru ≠ INVALID_ADDRESS then _ else _ : CacheM D Unit) s = _
  rw [if_pos hvalid, Prog.bind_of_ok (update_of_isSome ((h.keys _).mp hmem))]
  rfl

/-- The replacement, up to the write that the device below refuses. -/
theorem insert_refused (hfull : s.size ≤ s.cachedCount) (he : s.cache s.lru = some e)
    (hdirty : e.dirty) {err : FSError} {d : D}
    (hd : BlockDevice.writeBlock s.lru e.data s.device = .err err d) (entry : CachedBlock) :
    insert b entry s = .err err { s with device := d } := by
  change (if s.size ≤ s.cachedCount then _ else _ : CacheM D Unit) _ = _
  rw [if_pos hfull]
  apply Prog.bind_of_err
  change (Prog.unwrap (s.cache s.lru) >>= _ : CacheM D Unit) _ = _
  rw [he]
  change (writeBack s.lru e >>= _) s = _
  apply Prog.bind_of_err
  rw [writeBack, if_pos hdirty]
  exact Prog.zoom_of_err hd

theorem miss_refused (h : s.Threaded l) (hfull : s.size ≤ s.cachedCount)
    (he : s.cache s.lru = some e) (hdirty : e.dirty) {err : FSError} {d : D}
    (hd : BlockDevice.writeBlock s.lru e.data s.device = .err err d) (entry : CachedBlock) : (do
    missUpdate b
    insert b entry : CacheM D Unit) s = .err err (s.missed b d) := by
  have hne : l ≠ [] := by
    rintro rfl
    have hlru := (h.keys s.lru).mpr (by simp [he])
    simp at hlru
  rw [Prog.bind_of_ok (missUpdate_of_threaded h hne)]
  -- `miss_update` may have changed a link of the entry, not its bytes
  obtain ⟨e', he', hdata, hdirty'⟩ : ∃ e', (s.missed b s.device).cache s.lru = some e' ∧
      e'.data = e.data ∧ e'.dirty = e.dirty := by
    change ∃ e', Function.update s.cache s.mru _ s.lru = some e' ∧ _
    by_cases hmru : s.lru = s.mru
    · rw [← hmru, Function.update_self, he]
      exact ⟨_, rfl, rfl, rfl⟩
    · rw [Function.update_of_ne hmru]
      exact ⟨e, he, rfl, rfl⟩
  rw [← hdata] at hd
  exact insert_refused (s := s.missed b s.device) hfull he' (hdirty'.trans hdirty) hd entry

theorem exec_refused (h : s.Threaded l) (hfull : s.size ≤ s.cachedCount) {op : DeviceOp}
    {err : FSError} {d : D} (hfail : s.EvictionFails op err d) :
    ∃ b, s.cache b = none ∧ op.exec s = .err err (s.missed b d) := by
  cases hfail with
  | @read b data e _ d₁ _ hb hread he hdirty hd =>
    refine ⟨b, hb, Prog.bind_of_err ?_ _⟩
    change readBlock b s = _
    rw [readBlock_uncached hb]
    refine (Prog.bind_of_ok (onInner_of_ok hread) _).trans ?_
    have h₁ : Threaded { s with device := d₁ } l :=
      ⟨h.once, h.keys, h.valid, h.count, h.bound, h.lru, h.mru, h.chain⟩
    change (missUpdate b >>= fun _ => insert b _ >>= fun _ => pure data) _ = _
    rw [← Prog.bind_assoc]
    exact Prog.bind_of_err (miss_refused (b := b) h₁ hfull he hdirty hd _) _
  | @write b buf e _ _ hb he hdirty hd =>
    refine ⟨b, hb, Prog.bind_of_err ?_ _⟩
    change writeBlock b buf s = _
    rw [writeBlock_uncached hb]
    exact miss_refused h hfull he hdirty hd _

omit [BlockDevice D] in
theorem not_keepsCache_missed (h : s.Threaded l) (hne : l ≠ []) (hb : s.cache b = none) (d : D) :
    ¬ s.KeepsCache (s.missed b d) := by
  intro hk
  have hmru : b = s.mru := hk.mru
  have hsome := (h.keys s.mru).mp (h.mru_mem hne)
  rw [← hmru, hb] at hsome
  cases hsome

/-- Whatever the cache holds, a call whose eviction fails answers the error of the device
below and does not leave the cache as it was. From then on every write panics, and so
does every read of a cached block and every read that the device below answers. -/
theorem failed_eviction (h : s.Threaded l) (hfull : s.size ≤ s.cachedCount) {op : DeviceOp}
    {err : FSError} {d : D} (hfail : s.EvictionFails op err d) :
    ∃ s', op.exec s = .err err s' ∧ ¬ s.KeepsCache s' ∧
      (∀ b buf, (DeviceOp.write b buf).exec s' = .panic) ∧
      (∀ b, (s'.cache b).isSome → (DeviceOp.read b).exec s' = .panic) ∧
      ∀ b data d', BlockDevice.readBlock b s'.device = .ok data d' →
        (DeviceOp.read b).exec s' = .panic := by
  obtain ⟨b, hb, hrun⟩ := exec_refused h hfull hfail
  have hne : l ≠ [] := by
    rintro rfl
    have hkeys := h.keys s.lru
    cases hfail with
    | read _ _ he => simp [he] at hkeys
    | write _ he => simp [he] at hkeys
  have hstuck := stuck_missed hb hfull d
  refine ⟨s.missed b d, hrun, not_keepsCache_missed h hne hb d, ?_, ?_, ?_⟩
  · intro k buf
    exact Prog.bind_of_panic (hstuck.writeBlock k buf) _
  · intro k hk
    obtain ⟨e, he⟩ := Option.isSome_iff_exists.mp hk
    exact Prog.bind_of_panic (hstuck.readBlock_hit he) _
  · intro k data d' hd
    cases hk : (s.missed b d).cache k with
    | some e => exact Prog.bind_of_panic (hstuck.readBlock_hit hk) _
    | none => exact Prog.bind_of_panic (hstuck.readBlock_miss hk hd) _

/-- The cache after writes of the blocks 5 and 0, over a device of three blocks. -/
def twoWritten : CachedDevice MemoryDevice where
  device := MemoryDevice.empty 3
  size := 2
  cache := Function.update (Function.update (Function.update (fun _ => none)
    5 (some ⟨Block.zero, true, INVALID_ADDRESS, INVALID_ADDRESS⟩))
    5 (some ⟨Block.zero, true, 0, INVALID_ADDRESS⟩))
    0 (some ⟨Block.zero, true, INVALID_ADDRESS, 5⟩)
  cachedCount := 2
  lru := 5
  mru := 0

theorem trace_twoWritten : ∃ calls, Trace (new (MemoryDevice.empty 3) 2) calls twoWritten :=
  ⟨_, .snoc (o := .write 0 Block.zero) (.snoc (o := .write 5 Block.zero) .nil trivial (.ok rfl))
    trivial (.ok rfl)⟩

theorem threaded_twoWritten : twoWritten.Threaded [5, 0] where
  once := by decide
  keys b := by
    by_cases h₀ : b = 0
    · subst h₀
      simp [twoWritten]
    · by_cases h₅ : b = 5
      · subst h₅
        simp [twoWritten]
      · simp [twoWritten, h₀, h₅]
  valid := by decide
  count := rfl
  bound := by decide
  lru := rfl
  mru := rfl
  chain := ⟨rfl, rfl, trivial⟩

theorem evictionFails_twoWritten : twoWritten.EvictionFails (.write 1 Block.zero)
    (.invalidInput (.blockIndexOOB 5 3)) (MemoryDevice.empty 3) :=
  .write rfl rfl rfl rfl

theorem failed_eviction_twoWritten : ∃ s',
    (DeviceOp.write 1 Block.zero).exec twoWritten = .err (.invalidInput (.blockIndexOOB 5 3)) s' ∧
    (DeviceOp.write 2 Block.zero).exec s' = .panic := by
  obtain ⟨s', hrun, -, hwrite, -⟩ :=
    failed_eviction threaded_twoWritten (by decide) evictionFails_twoWritten
  exact ⟨s', hrun, hwrite 2 Block.zero⟩

/-- Two writes and a third whose eviction fails: the mru names block 1, which has no entry,
and a read of block 0 panics. -/
theorem failed_eviction_breaks : ∃ (calls : List (DeviceOp × Answer))
    (c : CachedDevice MemoryDevice) (l : List Nat) (op : DeviceOp) (err : FSError)
    (d : MemoryDevice),
    Trace (new (MemoryDevice.empty 3) 2) calls c ∧ c.Threaded l ∧ c.size ≤ c.cachedCount ∧
    c.EvictionFails op err d ∧ (¬ ∃ e s', op.exec c = .err e s' ∧ c.KeepsCache s') ∧
    ∃ s', op.exec c = .err err s' ∧ (DeviceOp.read 0).exec s' = .panic := by
  obtain ⟨calls, htrace⟩ := trace_twoWritten
  refine ⟨calls, twoWritten, [5, 0], _, _, _, htrace, threaded_twoWritten, by decide,
    evictionFails_twoWritten, ?_, _, rfl, rfl⟩
  rintro ⟨e, s', hrun, hk⟩
  cases hrun
  have hmru : 1 = 0 := hk.mru
  cases hmru

end CachedDevice

end FerrisFS
