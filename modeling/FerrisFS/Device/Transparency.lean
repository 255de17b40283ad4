import FerrisFS.Device.Cached

/-!
# What the cache shows and what the device below holds

`Coherent cache base m`: the contents seen through the cache are `m`, while the
device below holds `base`; a block where the two differ has a dirty entry. The links
of the list play no part in it: whatever block they make the replacement pick, its
data is written back first. `Simulates R` collects what a device does when `R` ties
its states to the contents it shows, and `simulates_layer` is the step from a device
to a cache over it.
-/

namespace FerrisFS

open Lib

/-- The error of an index at or past `block_count`. -/
abbrev outOfRange (m : MemoryDevice) (b : Nat) : FSError :=
  .invalidInput (.blockIndexOOB b m.blockCount)

namespace MemoryDevice

theorem ext_blocks {m m' : MemoryDevice} (hlen : m.blocks.length = m'.blocks.length)
    (h : ∀ b, m.block b = m'.block b) : m = m' := by
  have hblocks : m.blocks = m'.blocks := by
    refine List.ext_getElem hlen fun i hi hi' => ?_
    have hb := h i
    simpa [block, List.getD_eq_getElem?_getD, hi, hi'] using hb
  cases m
  cases m'
  exact congrArg _ hblocks

end MemoryDevice

/-- The cache shows `m` over `base`. -/
structure Coherent (cache : Nat → Option CachedBlock) (base m : MemoryDevice) : Prop where
  length : base.blocks.length = m.blocks.length
  cached : ∀ {b e}, cache b = some e → b < m.blockCount ∧ e.data = m.block b
  clean : ∀ {b}, (∀ e, cache b = some e → e.dirty = false) → base.block b = m.block b

namespace Coherent

variable {cache : Nat → Option CachedBlock} {base m : MemoryDevice} {b k : Nat}
  {e : CachedBlock}

theorem blockCount (h : Coherent cache base m) : base.blockCount = m.blockCount := by
  rw [MemoryDevice.blockCount, h.length]
  rfl

/-- The links do not count. -/
theorem relink (h : Coherent cache base m) (e' : CachedBlock) (he : cache k = some e)
    (hdata : e'.data = e.data) (hdirty : e'.dirty = e.dirty) :
    Coherent (Function.update cache k (some e')) base m where
  length := h.length
  cached {b e₁} he₁ := by
    by_cases hb : b = k
    · subst hb
      rw [Function.update_self] at he₁
      cases he₁
      rw [hdata]
      exact h.cached he
    · rw [Function.update_of_ne hb] at he₁
      exact h.cached he₁
  clean {b} hclean := by
    by_cases hb : b = k
    · subst hb
      refine h.clean fun e₁ he₁ => ?_
      rw [he] at he₁
      cases he₁
      rw [← hdirty]
      exact hclean e' (Function.update_self ..)
    · rw [Function.update_of_ne hb] at hclean
      exact h.clean hclean

/-- An entry that agrees with the device below can go. -/
theorem remove (h : Coherent cache base m) (hk : base.block k = m.block k) :
    Coherent (Function.update cache k none) base m where
  length := h.length
  cached {b e} he := by
    by_cases hb : b = k
    · simp [hb] at he
    · rw [Function.update_of_ne hb] at he
      exact h.cached he
  clean {b} hclean := by
    by_cases hb : b = k
    · rw [hb]
      exact hk
    · rw [Function.update_of_ne hb] at hclean
      exact h.clean hclean

/-- The data of an entry is written to the device below. -/
theorem writeBack (h : Coherent cache base m) (he : cache k = some e) :
    Coherent cache (base.setBlock k e.data) m where
  length := by simpa using h.length
  cached := h.cached
  clean {b} hclean := by
    obtain ⟨hk, hdata⟩ := h.cached he
    rw [MemoryDevice.block_setBlock (h.blockCount ▸ hk)]
    split
    · rename_i hb
      rw [hb, hdata]
    · exact h.clean hclean

theorem block_writeBack (h : Coherent cache base m) (he : cache k = some e) :
    (base.setBlock k e.data).block k = m.block k := by
  obtain ⟨hk, hdata⟩ := h.cached he
  rw [MemoryDevice.block_setBlock (h.blockCount ▸ hk), if_pos rfl, hdata]

/-- A block that was read is kept. -/
theorem insertRead (h : Coherent cache base m) (hb : b < m.blockCount) (hnone : cache b = none)
    (hdata : e.data = m.block b) : Coherent (Function.update cache b (some e)) base m where
  length := h.length
  cached {k e'} he' := by
    by_cases hk : k = b
    · subst hk
      rw [Function.update_self] at he'
      cases he'
      exact ⟨hb, hdata⟩
    · rw [Function.update_of_ne hk] at he'
      exact h.cached he'
  clean {k} hclean := by
    by_cases hk : k = b
    · subst hk
      exact h.clean (by simp [hnone])
    · rw [Function.update_of_ne hk] at hclean
      exact h.clean hclean

/-- A dirty entry changes the contents. -/
theorem insertWrite (h : Coherent cache base m) (hb : b < m.blockCount) (hdirty : e.dirty = true) :
    Coherent (Function.update cache b (some e)) base (m.setBlock b e.data) where
  length := by simpa using h.length
  cached {k e'} he' := by
    rw [MemoryDevice.setBlock_blockCount, MemoryDevice.block_setBlock hb]
    by_cases hk : k = b
    · subst hk
      rw [Function.update_self] at he'
      cases he'
      exact ⟨hb, (if_pos rfl).symm⟩
    · rw [Function.update_of_ne hk] at he'
      rw [if_neg hk]
      exact h.cached he'
  clean {k} hclean := by
    rw [MemoryDevice.block_setBlock hb]
    by_cases hk : k = b
    · subst hk
      have := hclean e (Function.update_self ..)
      rw [hdirty] at this
      cases this
    · rw [Function.update_of_ne hk] at hclean
      rw [if_neg hk]
      exact h.clean hclean

/-- An entry that agrees with the device below is marked clean. -/
theorem markClean (h : Coherent cache base m) (he : cache k = some e)
    (hk : base.block k = m.block k) :
    Coherent (Function.update cache k (some { e with dirty := false })) base m where
  length := h.length
  cached {b e'} he' := by
    by_cases hb : b = k
    · subst hb
      rw [Function.update_self] at he'
      cases he'
      have hcached := h.cached he
      exact hcached
    · rw [Function.update_of_ne hb] at he'
      exact h.cached he'
  clean {b} hclean := by
    by_cases hb : b = k
    · rw [hb]
      exact hk
    · rw [Function.update_of_ne hb] at hclean
      exact h.clean hclean

/-- Without dirty entries the device below holds the contents. -/
theorem eq_of_clean (h : Coherent cache base m)
    (hclean : ∀ b e, cache b = some e → e.dirty = false) : base = m :=
  MemoryDevice.ext_blocks h.length fun _ => h.clean (hclean _)

end Coherent

/-! ## Devices that show contents -/

/-- `R` ties the states of a device to the contents it shows: reads answer as the
bare memory device does, and writes in range change the contents as they do there. -/
structure Simulates {D : Type} [BlockDevice D] (R : D → MemoryDevice → Prop) : Prop where
  count : ∀ {d m}, R d m → BlockDevice.blockCount d = m.blockCount
  read : ∀ {d m} (b : Nat), R d m → Prog.wp (BlockDevice.readBlock b)
    (fun data d' => b < m.blockCount ∧ data = m.block b ∧ R d' m)
    (fun e d' => m.blockCount ≤ b ∧ e = outOfRange m b ∧ R d' m) d
  write : ∀ {d m} {b : Nat} (buf : Block), R d m → b < m.blockCount →
    Prog.wp (BlockDevice.writeBlock b buf) (fun _ d' => R d' (m.setBlock b buf))
      (fun _ _ => False) d
  flush : ∀ {d m} (order : List Nat), R d m →
    Prog.wp (BlockDevice.flush order) (fun _ d' => R d' m) (fun _ _ => False) d

theorem simulates_memory : Simulates (fun d m : MemoryDevice => d = m) where
  count := by
    rintro d _ rfl
    rfl
  read := by
    rintro d _ b rfl
    change Prog.wp (readBlock b) _ _ d
    unfold Prog.wp readBlock
    split
    · rename_i hb
      split at hb <;> cases hb
      exact ⟨by omega, rfl, rfl⟩
    · rename_i hb
      split at hb <;> cases hb
      exact ⟨by omega, rfl, rfl⟩
    · trivial
  write := by
    rintro d _ b buf rfl hb
    exact (Prog.wp_of_ok (writeBlock_of_lt hb)).mpr rfl
  flush _ h := h

namespace CachedDevice

variable {D : Type} [BlockDevice D] {R : D → MemoryDevice → Prop} {s : CachedDevice D}
  {base m : MemoryDevice} {b key : Nat} {e : CachedBlock}

/-- The cache shows `m` over a device that shows `base`. -/
structure Over (R : D → MemoryDevice → Prop) (base m : MemoryDevice) (s : CachedDevice D) :
    Prop where
  device : R s.device base
  coherent : Coherent s.cache base m

/-- The contents shown by a cache over a device. -/
def Layer (R : D → MemoryDevice → Prop) (s : CachedDevice D) (m : MemoryDevice) : Prop :=
  ∃ base, Over R base m s

omit [BlockDevice D] in
theorem wp_onInner {α : Type} {p : Prog FSError D α} {Q : α → CachedDevice D → Prop}
    {E : FSError → CachedDevice D → Prop} :
    Prog.wp (onInner p) Q E s ↔
      Prog.wp p (fun a d => Q a { s with device := d }) (fun e d => E e { s with device := d })
        s.device :=
  Prog.wp_zoom

omit [BlockDevice D] in
theorem wp_update {f : CachedBlock → CachedBlock} {Q : Unit → CachedDevice D → Prop}
    {E : FSError → CachedDevice D → Prop}
    (h : ∀ e, s.cache key = some e →
      Q () { s with cache := Function.update s.cache key (some (f e)) }) :
    Prog.wp (update key f) Q E s := by
  unfold Prog.wp update
  cases he : s.cache key with
  | none => trivial
  | some e => exact h e he

omit [BlockDevice D] in
/-- An update of links alone, then the rest. -/
theorem wp_relink_then {α : Type} {f : CachedBlock → CachedBlock} {p : CacheM D α}
    {Q : α → CachedDevice D → Prop} {E : FSError → CachedDevice D → Prop} (hs : Over R base m s)
    (hf : ∀ e, (f e).data = e.data ∧ (f e).dirty = e.dirty)
    (hp : ∀ s', Over R base m s' → Prog.wp p Q E s') :
    Prog.wp (update key f >>= fun _ => p) Q E s :=
  Prog.wp_bind.mpr (wp_update fun e he =>
    hp _ ⟨hs.device, hs.coherent.relink _ he (hf e).1 (hf e).2⟩)

variable {E : FSError → CachedDevice D → Prop}

omit [BlockDevice D] in
theorem wp_unlink (hs : Over R base m s) :
    Prog.wp (unlink b e) (fun _ s' => Over R base m s') E s := by
  have hlru : ∀ s' : CachedDevice D, Over R base m s' → Prog.wp (Prog.modify fun s =>
      if s.lru = b ∧ e.moreRecent ≠ INVALID_ADDRESS then { s with lru := e.moreRecent } else s)
      (fun _ s' => Over R base m s') E s' := by
    intro s' hs'
    rw [Prog.wp_modify]
    split
    · exact ⟨hs'.device, hs'.coherent⟩
    · exact hs'
  unfold unlink
  refine Prog.wp_ite (fun _ => wp_relink_then hs (fun _ => ⟨rfl, rfl⟩) fun s₁ hs₁ => ?_)
    fun _ => hlru s hs
  exact Prog.wp_ite (fun _ => wp_relink_then hs₁ (fun _ => ⟨rfl, rfl⟩) hlru) fun _ => hlru s₁ hs₁

omit [BlockDevice D] in
theorem wp_hitUpdate (hs : Over R base m s) :
    Prog.wp (hitUpdate b e) (fun _ s' => Over R base m s') E s := by
  refine Prog.wp_seq (wp_unlink (E := E) hs) (fun _ s₁ hs₁ => ?_) fun _ _ h => h
  refine Prog.wp_bind.mpr ?_
  refine wp_relink_then hs₁ (fun _ => ⟨rfl, rfl⟩) fun s₂ hs₂ => ?_
  exact wp_relink_then hs₂ (fun _ => ⟨rfl, rfl⟩) fun s₃ hs₃ => ⟨hs₃.device, hs₃.coherent⟩

omit [BlockDevice D] in
/-- The entry of the block itself stays out of the cache. -/
theorem wp_missUpdate (hs : Over R base m s) (hb : s.cache b = none) :
    Prog.wp (missUpdate b) (fun _ s' => Over R base m s' ∧ s'.cache b = none) E s := by
  have hmru : ∀ s' : CachedDevice D, Over R base m s' → s'.cache b = none →
      Prog.wp (Prog.modify fun s => { s with mru := b })
        (fun _ s' => Over R base m s' ∧ s'.cache b = none) E s' :=
    fun s' hs' hb' => ⟨⟨hs'.device, hs'.coherent⟩, hb'⟩
  refine Prog.wp_bind.mpr (Prog.wp_ite (fun _ => ?_) fun _ => ?_)
  · refine Prog.wp_bind.mpr (wp_update fun e he =>
      hmru _ ⟨hs.device, hs.coherent.relink _ he rfl rfl⟩ ?_)
    have hne : b ≠ s.mru := by
      rintro rfl
      rw [hb] at he
      cases he
    change Function.update s.cache s.mru _ b = none
    rw [Function.update_of_ne hne, hb]
  · exact Prog.wp_bind.mpr (hmru { s with lru := b } ⟨hs.device, hs.coherent⟩ hb)

/-- A written-back entry agrees with the device below. -/
theorem wp_writeBack (hR : Simulates R) (hs : Over R base m s) (he : s.cache key = some e) :
    Prog.wp (writeBack key e)
      (fun _ s' => ∃ base', Over R base' m s' ∧ base'.block key = m.block key ∧ s'.cache = s.cache)
      (fun _ _ => False) s := by
  unfold writeBack
  refine Prog.wp_ite (fun _ => ?_) fun hclean => ?_
  · have hkey := (hs.coherent.cached he).1
    refine wp_onInner.mpr (Prog.wp_mono (hR.write e.data hs.device (hs.coherent.blockCount ▸ hkey))
      (fun _ d hd => ?_) fun _ _ h => h)
    exact ⟨_, ⟨hd, hs.coherent.writeBack he⟩, hs.coherent.block_writeBack he, rfl⟩
  · refine ⟨base, hs, hs.coherent.clean fun e' he' => ?_, rfl⟩
    rw [he] at he'
    cases he'
    simpa using hclean

theorem wp_evict (hR : Simulates R) (hs : Over R base m s) (hb : s.cache b = none) :
    Prog.wp evict (fun _ s' => Layer R s' m ∧ s'.cache b = none) (fun _ _ => False) s := by
  refine Prog.wp_bind.mpr ?_
  change Prog.wp (Prog.unwrap (s.cache s.lru) >>= _) _ _ s
  refine Prog.wp_bind.mpr (Prog.wp_unwrap fun e he => ?_)
  refine Prog.wp_seq (wp_writeBack hR hs he) ?_ fun _ _ h => h
  rintro - s₁ ⟨base', hs₁, hagree, hcache⟩
  refine Prog.wp_bind.mpr ?_
  change Prog.wp (update _ _ >>= _) _ _ { s₁ with lru := e.moreRecent }
  refine Prog.wp_bind.mpr (wp_update fun e' he' => ?_)
  have hrelink := hs₁.coherent.relink { e' with lessRecent := INVALID_ADDRESS } he' rfl rfl
  refine ⟨⟨base', hs₁.device, hrelink.remove hagree⟩, ?_⟩
  have he'' : s.cache e.moreRecent = some e' := by
    rw [← hcache]
    exact he'
  have hne : b ≠ e.moreRecent := by
    rintro rfl
    rw [hb] at he''
    cases he''
  by_cases hlru : b = s.lru
  · rw [hlru]
    exact Function.update_self ..
  · refine (Function.update_of_ne hlru ..).trans ((Function.update_of_ne hne ..).trans ?_)
    change s₁.cache b = none
    rw [hcache, hb]

/-- The entry comes in over whatever the replacement leaves. -/
theorem wp_insert (hR : Simulates R) (hs : Over R base m s) (hb : s.cache b = none)
    {m' : MemoryDevice}
    (hin : ∀ {base' cache}, Coherent cache base' m → cache b = none →
      Coherent (Function.update cache b (some e)) base' m') :
    Prog.wp (insert b e) (fun _ s' => Layer R s' m') (fun _ _ => False) s := by
  have hput : ∀ s' : CachedDevice D, Layer R s' m ∧ s'.cache b = none →
      Prog.wp (Prog.modify fun s => { s with
        cachedCount := s.cachedCount + 1
        cache := Function.update s.cache b (some e) } : CacheM D Unit)
        (fun _ s' => Layer R s' m') (fun _ _ => False) s' := by
    rintro s' ⟨⟨base', hs'⟩, hb'⟩
    exact ⟨base', hs'.device, hin hs'.coherent hb'⟩
  refine Prog.wp_bind.mpr (Prog.wp_ite (fun _ => ?_) fun _ => hput s ⟨⟨base, hs⟩, hb⟩)
  exact Prog.wp_seq (wp_evict hR hs hb) (fun _ => hput) fun _ _ h => h

theorem wp_readBlock (hR : Simulates R) (hs : Over R base m s) :
    Prog.wp (readBlock b) (fun data s' => b < m.blockCount ∧ data = m.block b ∧ Layer R s' m)
      (fun err s' => m.blockCount ≤ b ∧ err = outOfRange m b ∧ Layer R s' m) s := by
  cases he : s.cache b with
  | some e =>
    refine Prog.wp_congr (readBlock_cached he) ?_
    obtain ⟨hb, hdata⟩ := hs.coherent.cached he
    refine Prog.wp_seq (wp_hitUpdate (E := fun _ _ => False) hs) ?_ fun _ _ h => h.elim
    exact fun _ s' hs' => ⟨hb, hdata, base, hs'⟩
  | none =>
    refine Prog.wp_congr (readBlock_uncached he) ?_
    have hcount := hs.coherent.blockCount
    refine Prog.wp_bind.mpr (wp_onInner.mpr (Prog.wp_mono (hR.read b hs.device) ?_ ?_))
    · rintro data d ⟨hb, rfl, hd⟩
      rw [hcount] at hb
      have hdata : base.block b = m.block b := hs.coherent.clean (by simp [he])
      have hs₁ : Over R base m { s with device := d } := ⟨hd, hs.coherent⟩
      refine Prog.wp_bind.mpr ?_
      refine Prog.wp_seq (wp_missUpdate (E := fun _ _ => False) hs₁ he) ?_ fun _ _ h => h.elim
      rintro - s₂ ⟨hs₂, he₂⟩
      refine Prog.wp_seq (wp_insert hR hs₂ he₂ fun hc hnone => hc.insertRead hb hnone hdata) ?_
        fun _ _ h => h.elim
      exact fun _ s₃ hs₃ => ⟨hb, hdata, hs₃⟩
    · rintro err d ⟨hb, rfl, hd⟩
      rw [hcount] at hb
      refine ⟨hb, ?_, base, hd, hs.coherent⟩
      rw [outOfRange, hcount]

theorem wp_writeBlock (hR : Simulates R) (hs : Over R base m s) (hb : b < m.blockCount)
    (buf : Block) :
    Prog.wp (writeBlock b buf) (fun _ s' => Layer R s' (m.setBlock b buf)) (fun _ _ => False)
      s := by
  cases he : s.cache b with
  | some e =>
    refine Prog.wp_congr (writeBlock_cached he buf) ?_
    refine Prog.wp_seq (wp_hitUpdate (E := fun _ _ => False) hs) ?_ fun _ _ h => h
    intro _ s₁ hs₁
    refine wp_update fun e₁ _ => ⟨base, hs₁.device, ?_⟩
    exact hs₁.coherent.insertWrite (e := { e₁ with dirty := true, data := buf }) hb rfl
  | none =>
    refine Prog.wp_congr (writeBlock_uncached he buf) ?_
    refine Prog.wp_seq (wp_missUpdate (E := fun _ _ => False) hs he) ?_ fun _ _ h => h
    rintro - s₁ ⟨hs₁, he₁⟩
    exact wp_insert hR hs₁ he₁ fun hc _ =>
      hc.insertWrite (e := ⟨buf, true, INVALID_ADDRESS, s.mru⟩) hb rfl

/-- What is dirty after a loop over `order` was dirty before and is not in it. -/
def Flushed (order : List Nat) (s s' : CachedDevice D) : Prop :=
  ∀ k e', s'.cache k = some e' → e'.dirty = true →
    k ∉ order ∧ ∃ e, s.cache k = some e ∧ e.dirty = true

theorem wp_flushEntry (hR : Simulates R) (hs : Over R base m s) :
    Prog.wp (flushEntry key) (fun _ s' => Layer R s' m ∧ Flushed [key] s s')
      (fun _ _ => False) s := by
  cases he : s.cache key with
  | none =>
    refine Prog.wp_congr (flushEntry_uncached he) ?_
    refine ⟨⟨base, hs⟩, fun k e' he' hdirty => ⟨?_, e', he', hdirty⟩⟩
    rw [List.mem_singleton]
    rintro rfl
    rw [he] at he'
    cases he'
  | some e =>
    refine Prog.wp_congr (flushEntry_cached he) ?_
    refine Prog.wp_ite (fun hdirty => ?_) fun hclean => ?_
    · have hkey := (hs.coherent.cached he).1
      refine Prog.wp_bind.mpr (wp_onInner.mpr (Prog.wp_mono
        (hR.write e.data hs.device (hs.coherent.blockCount ▸ hkey)) (fun _ d hd => ?_)
        fun _ _ h => h))
      refine wp_update fun e₁ he₁ => ⟨⟨_, hd, ?_⟩, ?_⟩
      · exact (hs.coherent.writeBack he).markClean he₁ (hs.coherent.block_writeBack he)
      · intro k e' he' hdirty'
        change Function.update s.cache key _ k = some e' at he'
        by_cases hk : k = key
        · subst hk
          rw [Function.update_self] at he'
          cases he'
          cases hdirty'
        · rw [Function.update_of_ne hk] at he'
          exact ⟨by simpa using hk, e', he', hdirty'⟩
    · refine ⟨⟨base, hs⟩, fun k e' he' hdirty => ⟨?_, e', he', hdirty⟩⟩
      rw [List.mem_singleton]
      rintro rfl
      rw [he] at he'
      cases he'
      exact hclean hdirty

theorem wp_flush (hR : Simulates R) (order : List Nat) (hs : Layer R s m) :
    Prog.wp (flush order) (fun _ s' => Layer R s' m ∧ Flushed order s s') (fun _ _ => False) s := by
  induction order generalizing s with
  | nil => exact ⟨hs, fun k e' he' hdirty => ⟨List.not_mem_nil, e', he', hdirty⟩⟩
  | cons key rest ih =>
    obtain ⟨base, hs⟩ := hs
    refine Prog.wp_seq (wp_flushEntry hR hs) ?_ fun _ _ h => h
    rintro - s₁ ⟨hs₁, hclean₁⟩
    refine Prog.wp_mono (ih hs₁) ?_ fun _ _ h => h
    rintro - s₂ ⟨hs₂, hclean₂⟩
    refine ⟨hs₂, fun k e' he' hdirty => ?_⟩
    obtain ⟨hrest, e₁, he₁, hdirty₁⟩ := hclean₂ k e' he' hdirty
    obtain ⟨hkey, hbefore⟩ := hclean₁ k e₁ he₁ hdirty₁
    refine ⟨?_, hbefore⟩
    rw [List.mem_cons, not_or]
    exact ⟨fun heq => hkey (by rw [heq, List.mem_singleton]), hrest⟩

/-- From a device that shows contents to a cache over it. -/
theorem simulates_layer (hR : Simulates R) : Simulates (Layer R) where
  count := by
    rintro s m ⟨base, hs⟩
    exact (hR.count hs.device).trans hs.coherent.blockCount
  read := by
    rintro s m b ⟨base, hs⟩
    exact wp_readBlock hR hs
  write := by
    rintro s m b buf ⟨base, hs⟩ hb
    exact wp_writeBlock hR hs hb buf
  flush := by
    rintro s m order hs
    exact Prog.wp_mono (wp_flush hR order hs) (fun _ _ h => h.1) fun _ _ h => h

omit [BlockDevice D] in
theorem layer_new {d : D} (h : R d m) (capacity : Nat) : Layer R (new d capacity) m :=
  ⟨m, h,
    { length := rfl, cached := fun he => (Option.some_ne_none _ he.symm).elim,
      clean := fun _ => rfl }⟩

end CachedDevice

/-! ## Sequences of calls -/

variable {D : Type} [BlockDevice D] {R : D → MemoryDevice → Prop} {d d' : D} {m : MemoryDevice}

/-- The answer of the bare memory device, and the contents it leaves. -/
def Mirrored (R : D → MemoryDevice → Prop) (m : MemoryDevice) (op : DeviceOp) (a : Answer)
    (d' : D) : Prop :=
  ∃ m', Answers m op a m' ∧ R d' m'

theorem wp_exec_read (hR : Simulates R) (hd : R d m) (b : Nat) :
    Prog.wp (DeviceOp.read b).exec (fun a d' => Mirrored R m (.read b) (.ok a) d')
      (fun e d' => Mirrored R m (.read b) (.error e) d') d := by
  refine Prog.wp_seq (hR.read b hd) ?_ ?_
  · rintro data d' ⟨hb, rfl, hd'⟩
    exact ⟨m, .ok (Prog.bind_of_ok (readBlock_of_lt hb) _), hd'⟩
  · rintro e d' ⟨hb, rfl, hd'⟩
    refine ⟨m, .err (Prog.bind_of_err ?_ _), hd'⟩
    exact if_pos hb

theorem wp_exec_write (hR : Simulates R) (hd : R d m) {b : Nat} (buf : Block)
    (hb : b < m.blockCount) :
    Prog.wp (DeviceOp.write b buf).exec (fun a d' => Mirrored R m (.write b buf) (.ok a) d')
      (fun _ _ => False) d := by
  refine Prog.wp_seq (hR.write buf hd hb) ?_ fun _ _ h => h
  intro _ d' hd'
  exact ⟨_, .ok (Prog.bind_of_ok (writeBlock_of_lt hb) _), hd'⟩

theorem wp_exec_flush (hR : Simulates R) (hd : R d m) (order : List Nat) :
    Prog.wp (DeviceOp.flush order).exec (fun a d' => Mirrored R m (.flush order) (.ok a) d')
      (fun _ _ => False) d := by
  refine Prog.wp_seq (hR.flush order hd) ?_ fun _ _ h => h
  intro _ d' hd'
  exact ⟨m, .ok rfl, hd'⟩

theorem mirrored_of_wp {op : DeviceOp} {a : Answer}
    (h : Prog.wp op.exec (fun a d' => Mirrored R m op (.ok a) d')
      (fun e d' => Mirrored R m op (.error e) d') d) (ha : Answers d op a d') :
    Mirrored R m op a d' := by
  cases ha with
  | ok ha => exact h.of_ok ha
  | err ha => exact h.of_err ha

/-- A call in range answers as on the bare memory device. -/
theorem answers_simulates (hR : Simulates R) (hd : R d m) {op : DeviceOp} {a : Answer}
    (hop : op.InRange m.blockCount) (ha : Answers d op a d') : Mirrored R m op a d' := by
  refine mirrored_of_wp ?_ ha
  cases op with
  | read b => exact wp_exec_read hR hd b
  | write b buf =>
    exact Prog.wp_mono (wp_exec_write hR hd buf hop) (fun _ _ h => h) fun _ _ h => h.elim
  | flush order =>
    exact Prog.wp_mono (wp_exec_flush hR hd order) (fun _ _ h => h) fun _ _ h => h.elim
  | resize n => exact absurd hop id

theorem blockCount_of_answers {m' : MemoryDevice} {op : DeviceOp} {a : Answer}
    (hop : op.InRange m.blockCount) (ha : Answers m op a m') : m'.blockCount = m.blockCount := by
  have hwp : Prog.wp op.exec (fun _ m' => m'.blockCount = m.blockCount)
      (fun _ m' => m'.blockCount = m.blockCount) m := by
    cases op with
    | read b =>
      refine Prog.wp_seq (simulates_memory.read b rfl) ?_ ?_
      · rintro _ _ ⟨-, -, rfl⟩
        rfl
      · rintro _ _ ⟨-, -, rfl⟩
        rfl
    | write b buf =>
      refine Prog.wp_seq (simulates_memory.write buf rfl hop) ?_ fun _ _ h => h.elim
      rintro _ _ rfl
      exact MemoryDevice.setBlock_blockCount ..
    | flush order => exact rfl
    | resize n => exact absurd hop id
  cases ha with
  | ok ha => exact hwp.of_ok ha
  | err ha => exact hwp.of_err ha

/-- Calls in range answer as on the bare memory device. -/
theorem trace_simulates (hR : Simulates R) (hd : R d m) {calls : List (DeviceOp × Answer)}
    (h : Trace d calls d') (hrange : ∀ x ∈ calls, x.1.InRange m.blockCount) :
    ∃ m', Trace m calls m' ∧ R d' m' ∧ m'.blockCount = m.blockCount := by
  induction h with
  | nil => exact ⟨m, .nil, hd, rfl⟩
  | @snoc calls op a d₁ d₂ _ _ ha ih =>
    obtain ⟨m₁, htrace, hd₁, hcount⟩ := ih fun x hx => hrange x (List.mem_append_left _ hx)
    have hop := hrange (op, a) (by simp)
    rw [← hcount] at hop
    obtain ⟨m₂, ha₂, hd₂⟩ := answers_simulates hR hd₁ hop ha
    have hordered : op.Ordered m₁ := by cases op <;> trivial
    exact ⟨m₂, htrace.snoc hordered ha₂, hd₂, (blockCount_of_answers hop ha₂).trans hcount⟩

/-- After a flush there is no dirty entry. -/
theorem clean_of_flush (hR : Simulates R) {c c' : CachedDevice D} (hc : CachedDevice.Layer R c m)
    {order : List Nat} {a : Answer} (ho : (DeviceOp.flush order).Ordered c)
    (ha : Answers c (.flush order) a c') : ∀ b e, c'.cache b = some e → e.dirty = false := by
  have hwp : Prog.wp (DeviceOp.flush order).exec (fun _ c' => CachedDevice.Flushed order c c')
      (fun _ _ => False) c :=
    Prog.wp_seq (CachedDevice.wp_flush hR order hc) (fun _ _ h => h.2) fun _ _ h => h
  have hflushed : CachedDevice.Flushed order c c' := by
    cases ha with
    | ok ha => exact hwp.of_ok ha
    | err ha => exact (hwp.of_err ha).elim
  intro b e he
  by_contra hdirty
  obtain ⟨hb, e₀, he₀, -⟩ := hflushed b e he (by simpa using hdirty)
  exact hb ((ho.2 b).mpr (by rw [he₀]; rfl))

/-! ## Resizing -/

namespace MemoryDevice

theorem block_resized (m : MemoryDevice) (n b : Nat) :
    (m.resized n).block b = if b < n then m.block b else Block.zero := by
  rw [block, resized, block, List.getD_eq_getElem?_getD, List.getD_eq_getElem?_getD,
    List.getElem?_append, List.length_take]
  by_cases hb : b < n
  · rw [if_pos hb]
    by_cases hlen : b < m.blocks.length
    · rw [if_pos (by omega), List.getElem?_take_of_lt hb]
    · rw [if_neg (by omega), List.getElem?_replicate, if_pos (by omega),
        List.getElem?_eq_none (by omega)]
      rfl
  · rw [if_neg hb, if_neg (by omega), List.getElem?_replicate, if_neg (by omega)]
    rfl

theorem resized_length (m : MemoryDevice) (n : Nat) : (m.resized n).blocks.length = n := by
  rw [resized, List.length_append, List.length_take, List.length_replicate]
  omega

theorem resized_blockCount (m : MemoryDevice) {n : Nat} (hn : n < U32) :
    (m.resized n).blockCount = n := by
  rw [blockCount, resized_length, Nat.mod_eq_of_lt hn]

/-- What a shrink cuts off reads as zeros after growing again. -/
theorem block_resized_resized (m : MemoryDevice) {n b : Nat} (hb : n ≤ b) (n' : Nat) :
    ((m.resized n).resized n').block b = Block.zero := by
  rw [block_resized, block_resized, if_neg (Nat.not_lt.mpr hb), ite_self]

end MemoryDevice

theorem Coherent.resize {cache : Nat → Option CachedBlock} {base m : MemoryDevice}
    (h : Coherent cache base m) {n : Nat} (hn : n < U32) (hcached : ∀ b, (cache b).isSome → b < n) :
    Coherent cache (base.resized n) (m.resized n) where
  length := by rw [MemoryDevice.resized_length, MemoryDevice.resized_length]
  cached {b e} he := by
    have hb := hcached b (by rw [he]; rfl)
    rw [MemoryDevice.resized_blockCount _ hn, MemoryDevice.block_resized, if_pos hb]
    exact ⟨hb, (h.cached he).2⟩
  clean {b} hclean := by
    rw [MemoryDevice.block_resized, MemoryDevice.block_resized, h.clean hclean]

/-- A write names a block of the device, and a new size, which is a `u32`, leaves
every cached block in range. -/
def CachedDevice.Fits (c : CachedDevice D) : DeviceOp → Prop
  | .read _ => True
  | .write b _ => b < BlockDevice.blockCount c
  | .flush _ => True
  | .resize n => n < U32 ∧ ∀ b, (c.cache b).isSome → b < n

abbrev ShowsMemory : CachedDevice MemoryDevice → MemoryDevice → Prop :=
  CachedDevice.Layer fun d m => d = m

theorem answers_fits {c c' : CachedDevice MemoryDevice} {op : DeviceOp} {a : Answer}
    (hc : ShowsMemory c m) (hop : c.Fits op) (ha : Answers c op a c') :
    Mirrored ShowsMemory m op a c' := by
  have hR := CachedDevice.simulates_layer simulates_memory
  cases op with
  | read b => exact mirrored_of_wp (wp_exec_read hR hc b) ha
  | write b buf => exact answers_simulates hR hc (hR.count hc ▸ hop : b < m.blockCount) ha
  | flush order => exact answers_simulates hR hc trivial ha
  | resize n =>
    obtain ⟨base, hc⟩ := hc
    have hresized : ShowsMemory { c with device := c.device.resized n } (m.resized n) :=
      ⟨_, hc.device ▸ rfl, hc.coherent.resize hop.1 hop.2⟩
    cases ha with
    | ok ha =>
      cases ha
      exact ⟨m.resized n, .ok rfl, hresized⟩
    | err ha => cases ha

/-! ## Runs that are computed -/

/-- The blocks of the cache are in range. -/
theorem ShowsMemory.cached_lt {c : CachedDevice MemoryDevice} (hc : ShowsMemory c m)
    {b : Nat} (hb : (c.cache b).isSome) : b < BlockDevice.blockCount c := by
  obtain ⟨base, hc⟩ := hc
  obtain ⟨e, he⟩ := Option.isSome_iff_exists.mp hb
  have hlt := (hc.coherent.cached he).1
  rw [← hc.coherent.blockCount, ← hc.device] at hlt
  exact hlt

/-- `Fits`, and for a flush `Ordered`, with a look at the blocks in range only. -/
def CachedDevice.Checks (c : CachedDevice MemoryDevice) : DeviceOp → Bool
  | .read _ => true
  | .write b _ => b < BlockDevice.blockCount c
  | .flush order => order.Nodup ∧ (∀ b ∈ order, (c.cache b).isSome) ∧
      ∀ b < BlockDevice.blockCount c, (c.cache b).isSome → b ∈ order
  | .resize n => n < U32 ∧ ∀ b < BlockDevice.blockCount c, (c.cache b).isSome → b < n

theorem ShowsMemory.fits_of_checks {c : CachedDevice MemoryDevice} {op : DeviceOp}
    (hc : ShowsMemory c m) (h : c.Checks op = true) : c.Fits op ∧ op.Ordered c := by
  cases op with
  | read => exact ⟨trivial, trivial⟩
  | write b =>
    have hlt : b < BlockDevice.blockCount c := of_decide_eq_true h
    exact ⟨hlt, trivial⟩
  | flush order =>
    obtain ⟨hnodup, hcached, hall⟩ := decide_eq_true_eq.mp h
    exact ⟨trivial, hnodup, fun b => ⟨hcached b, fun hb => hall b (hc.cached_lt hb) hb⟩⟩
  | resize n =>
    obtain ⟨hn, hall⟩ := decide_eq_true_eq.mp h
    exact ⟨⟨hn, fun b hb => hall b (hc.cached_lt hb) hb⟩, trivial⟩

/-- The calls fit, and each of them answers as it should. -/
def CachedDevice.replay : List (DeviceOp × Option Block) → CachedDevice MemoryDevice →
    Option (CachedDevice MemoryDevice)
  | [], c => some c
  | (op, x) :: rest, c =>
    if c.Checks op = true ∧ (op.exec c).value? = some x then
      (op.exec c).state?.bind (replay rest)
    else none

/-- The calls with their answers. -/
def withAnswers (calls : List (DeviceOp × Option Block)) : List (DeviceOp × Answer) :=
  calls.map fun x => (x.1, .ok x.2)

/-- Every call of the trace fits. -/
def FitsAll (d : CachedDevice MemoryDevice) (calls : List (DeviceOp × Answer)) : Prop :=
  ∀ before op a after c, calls = before ++ (op, a) :: after → Trace d before c → c.Fits op

theorem FitsAll.snoc {d c : CachedDevice MemoryDevice} {calls : List (DeviceOp × Answer)}
    {o : DeviceOp} {x : Answer} (hfits : FitsAll d calls) (h : Trace d calls c)
    (ho : c.Fits o) : FitsAll d (calls ++ [(o, x)]) := by
  intro before op a after c' heq hbefore
  rcases List.eq_nil_or_concat after with rfl | ⟨after, y, rfl⟩
  · obtain ⟨rfl, hlast⟩ := List.append_inj' heq rfl
    cases hlast
    obtain ⟨-, rfl⟩ := h.unique hbefore rfl
    exact ho
  · rw [List.concat_eq_append, ← List.cons_append, ← List.append_assoc] at heq
    obtain ⟨rfl, -⟩ := List.append_inj' heq rfl
    exact hfits before op a after c' rfl hbefore

/-- What was computed is a trace. -/
theorem trace_of_replay {d c c' : CachedDevice MemoryDevice}
    {rest : List (DeviceOp × Option Block)} (h : c.replay rest = some c') :
    ∀ {calls m}, Trace d calls c → FitsAll d calls → ShowsMemory c m →
      Trace d (calls ++ withAnswers rest) c' ∧ FitsAll d (calls ++ withAnswers rest) := by
  induction rest generalizing c with
  | nil =>
    intro calls m htrace hfits _
    cases h
    rw [withAnswers, List.map_nil, List.append_nil]
    exact ⟨htrace, hfits⟩
  | cons x rest ih =>
    intro calls m htrace hfits hc
    obtain ⟨op, x⟩ := x
    rw [CachedDevice.replay] at h
    split at h
    case isFalse => cases h
    rename_i hstep
    obtain ⟨hchecks, hvalue⟩ := hstep
    obtain ⟨hop, hordered⟩ := hc.fits_of_checks hchecks
    obtain ⟨c₁, hok⟩ := Outcome.value?_eq_some.mp hvalue
    rw [hok] at h
    obtain ⟨m₁, -, hc₁⟩ := answers_fits hc hop (.ok hok)
    have hnext := ih h (htrace.snoc hordered (.ok hok)) (hfits.snoc htrace hop) hc₁
    rw [List.append_assoc] at hnext
    exact hnext

theorem fitsAll_nil {d : CachedDevice MemoryDevice} : FitsAll d [] := by
  intro before op a after c heq
  cases before <;> cases heq

/-- A block of which the first byte is set. -/
def markedBlock (x : UInt8) : Block := Block.zero.splice 0 [x]

/-! ## Transparency -/

/-- Through a cache of any capacity, calls in range answer as on the bare memory
device, and a flush leaves the device below with the contents of the bare one. -/
theorem cache_transparent (m : MemoryDevice) (capacity : Nat) (calls : List (DeviceOp × Answer))
    (c : CachedDevice MemoryDevice) (h : Trace (CachedDevice.new m capacity) calls c)
    (hrange : ∀ x ∈ calls, x.1.InRange m.blockCount) :
    ∃ m', Trace m calls m' ∧
      ∀ before order a, calls = before ++ [(.flush order, .ok a)] → c.device = m' := by
  have hR := CachedDevice.simulates_layer simulates_memory
  have hnew := CachedDevice.layer_new (R := fun d m : MemoryDevice => d = m) (Eq.refl m) capacity
  obtain ⟨m', htrace, ⟨base, hc⟩, -⟩ := trace_simulates hR hnew h hrange
  refine ⟨m', htrace, ?_⟩
  rintro before order a rfl
  obtain ⟨c₁, h₁, ho, ha⟩ := h.of_snoc
  obtain ⟨m₁, -, hc₁, -⟩ :=
    trace_simulates hR hnew h₁ fun x hx => hrange x (List.mem_append_left _ hx)
  exact hc.device.trans (hc.coherent.eq_of_clean (clean_of_flush simulates_memory hc₁ ho ha))

/-- A block is written and stays dirty, two others are read, so that it is written back, and it
is read again. -/
def evictingCalls : List (DeviceOp × Option Block) :=
  [(.write 1 (markedBlock 7), none), (.read 2, some Block.zero), (.read 0, some Block.zero),
    (.read 1, some (markedBlock 7)), (.write 0 (markedBlock 8), none), (.flush [0, 1], none)]

theorem cache_transparent_write_flush : ∃ (c : CachedDevice MemoryDevice) (m' : MemoryDevice),
    Trace (CachedDevice.new (MemoryDevice.empty 3) 2) (withAnswers evictingCalls) c ∧
    (∀ x ∈ withAnswers evictingCalls, x.1.InRange (MemoryDevice.empty 3).blockCount) ∧
    Trace (MemoryDevice.empty 3) (withAnswers evictingCalls) m' ∧ c.device = m' := by
  have hcalls : ((CachedDevice.new (MemoryDevice.empty 3) 2).replay evictingCalls).isSome =
      true := by
    decide +kernel
  obtain ⟨c, hc⟩ := Option.isSome_iff_exists.mp hcalls
  obtain ⟨h, -⟩ := trace_of_replay hc .nil fitsAll_nil (CachedDevice.layer_new rfl 2)
  have hrange : ∀ x ∈ withAnswers evictingCalls,
      x.1.InRange (MemoryDevice.empty 3).blockCount := by
    simp [withAnswers, evictingCalls, DeviceOp.InRange, MemoryDevice.empty,
      MemoryDevice.blockCount, U32]
  obtain ⟨m', htrace, hflush⟩ := cache_transparent (MemoryDevice.empty 3) 2 _ c h hrange
  exact ⟨c, m', h, hrange, htrace, hflush (withAnswers (evictingCalls.take 5)) [0, 1] none rfl⟩

/-- While writes are in range and no resize cuts off a cached block, every call
answers as on the bare memory device. -/
theorem cache_transparent_resize (m : MemoryDevice) (capacity : Nat)
    (calls : List (DeviceOp × Answer)) (c : CachedDevice MemoryDevice)
    (h : Trace (CachedDevice.new m capacity) calls c)
    (hfits : ∀ before op a after c', calls = before ++ (op, a) :: after →
      Trace (CachedDevice.new m capacity) before c' → c'.Fits op) :
    ∃ m', Trace m calls m' ∧ ∀ n n' b, n ≤ b → n < U32 →
      (m'.resized n).blockCount ≤ b ∧ ((m'.resized n).resized n').block b = Block.zero := by
  suffices ∃ m', Trace m calls m' ∧ ShowsMemory c m' by
    obtain ⟨m', htrace, -⟩ := this
    refine ⟨m', htrace, fun n n' b hb hn => ⟨?_, m'.block_resized_resized hb n'⟩⟩
    rw [MemoryDevice.resized_blockCount _ hn]
    exact hb
  induction h with
  | nil => exact ⟨m, .nil, CachedDevice.layer_new rfl capacity⟩
  | @snoc calls op a c₁ c₂ h ho ha ih =>
    obtain ⟨m₁, htrace, hc₁⟩ := ih fun before op' a' after c' heq =>
      hfits before op' a' (after ++ [(op, a)]) c' (by rw [heq, List.append_assoc]; rfl)
    obtain ⟨m₂, ha₂, hc₂⟩ := answers_fits hc₁ (hfits calls op a [] c₁ rfl h) ha
    have hordered : op.Ordered m₁ := by cases op <;> trivial
    exact ⟨m₂, htrace.snoc hordered ha₂, hc₂⟩

/-- Two blocks are written and stay dirty, the device grows, one of them and a new block are
read, so that the other is written back, and the cache is flushed. -/
def growingCalls : List (DeviceOp × Option Block) :=
  [(.write 0 (markedBlock 7), none), (.write 1 (markedBlock 8), none), (.resize 3, none),
    (.read 1, some (markedBlock 8)), (.read 2, some Block.zero), (.flush [1, 2], none),
    (.read 0, some (markedBlock 7))]

theorem cache_transparent_resize_grow : ∃ (c : CachedDevice MemoryDevice) (m' : MemoryDevice),
    Trace (CachedDevice.new (MemoryDevice.empty 2) 2) (withAnswers growingCalls) c ∧
    FitsAll (CachedDevice.new (MemoryDevice.empty 2) 2) (withAnswers growingCalls) ∧
    Trace (MemoryDevice.empty 2) (withAnswers growingCalls) m' := by
  have hcalls : ((CachedDevice.new (MemoryDevice.empty 2) 2).replay growingCalls).isSome =
      true := by
    decide +kernel
  obtain ⟨c, hc⟩ := Option.isSome_iff_exists.mp hcalls
  obtain ⟨h, hfits⟩ := trace_of_replay hc .nil fitsAll_nil (CachedDevice.layer_new rfl 2)
  obtain ⟨m', htrace, -⟩ := cache_transparent_resize (MemoryDevice.empty 2) 2 _ c h hfits
  exact ⟨c, m', h, hfits, htrace⟩

/-- A block that was read before a shrink is still read after it. -/
theorem cache_transparent_resize_shrink :
    ∃ (calls : List (DeviceOp × Answer)) (c : CachedDevice MemoryDevice),
      Trace (CachedDevice.new (MemoryDevice.empty 2) 2) calls c ∧
      ¬ ∃ m', Trace (MemoryDevice.empty 2) calls m' := by
  refine ⟨_, _, .snoc (o := .read 1) (.snoc (o := .resize 1) (.snoc (o := .read 1) .nil
    trivial (.ok rfl)) trivial (.ok rfl)) trivial (.ok rfl), ?_⟩
  rintro ⟨m₃, h₃⟩
  obtain ⟨m₂, h₂, -, ha₃⟩ := h₃.of_snoc
  obtain ⟨m₁, h₁, -, ha₂⟩ := h₂.of_snoc
  obtain ⟨m₀, h₀, -, ha₁⟩ := h₁.of_snoc
  obtain rfl := h₀.of_nil
  cases ha₁ with
  | ok ha₁ =>
    cases ha₁
    cases ha₂ with
    | ok ha₂ =>
      cases ha₂
      cases ha₃ with
      | ok ha₃ => cases ha₃

end FerrisFS
