import FerrisFS.Device.Cached
import FerrisFS.Lib.Recency
import Mathlib.Data.List.Chain

/-!
# The list of the cache

The entries of the cache form a list from the least to the most recently used one.
`Threaded s l` says that the list is `l`, and `wp_hitUpdate` and its siblings say
what each part of an access does to it. An access moves its block to the end,
provided that it is not there already: a hit on the last block makes its
`less_recent` the block itself.
-/

namespace FerrisFS

open Lib

namespace CachedDevice

variable {D : Type}

/-- The links of the entries. -/
def links (s : CachedDevice D) (b : Nat) : Option (Link Nat) :=
  (s.cache b).map fun e => ⟨e.lessRecent, e.moreRecent⟩

/-- The entries form the list `l`, from the lru to the mru. -/
structure Threaded (s : CachedDevice D) (l : List Nat) : Prop where
  once : l.Nodup
  keys : ∀ b, b ∈ l ↔ (s.cache b).isSome
  valid : INVALID_ADDRESS ∉ l
  count : s.cachedCount = l.length
  bound : l.length ≤ s.size
  lru : s.lru = l.headD INVALID_ADDRESS
  mru : s.mru = l.getLastD INVALID_ADDRESS
  chain : Seg s.links INVALID_ADDRESS l INVALID_ADDRESS

/-- Following `more_recent` from the lru meets the entries in the order of `l`. -/
theorem Threaded.follow {s : CachedDevice D} {l : List Nat} (h : s.Threaded l) :
    Lib.follow s.links INVALID_ADDRESS (s.cachedCount + 1) s.lru = l := by
  rw [h.lru, h.count]
  exact h.chain.follow h.valid (Nat.lt_succ_self _)

/-! ## Updates of one entry -/

/-- The state after an update. -/
def updated (s : CachedDevice D) (key : Nat) (f : CachedBlock → CachedBlock) : CachedDevice D :=
  { s with cache := Function.update s.cache key ((s.cache key).map f) }

variable {s : CachedDevice D} {key : Nat} {e : CachedBlock} {f : CachedBlock → CachedBlock}

theorem update_of_isSome (h : (s.cache key).isSome) :
    update key f s = .ok () (s.updated key f) := by
  obtain ⟨e, he⟩ := Option.isSome_iff_exists.mp h
  simp [update, updated, he]

@[simp] theorem updated_isSome {k : Nat} :
    ((s.updated key f).cache k).isSome = (s.cache k).isSome := by
  by_cases hk : k = key
  · subst hk
    simp [updated]
  · simp [updated, hk]

theorem links_updated_of_ne {k : Nat} (hk : k ≠ key) : (s.updated key f).links k = s.links k := by
  simp [links, updated, hk]

theorem links_updated_self : (s.updated key f).links key =
    (s.cache key).map fun e => ⟨(f e).lessRecent, (f e).moreRecent⟩ := by
  simp [links, updated, Function.comp_def]

theorem chain_setMore {p n m x : Nat} {l : List Nat} (h : Seg s.links p (l ++ [x]) n)
    (hnd : (l ++ [x]).Nodup) :
    Seg (s.updated x fun e => { e with moreRecent := m }).links p (l ++ [x]) m := by
  refine h.setNext hnd ?_ fun k hk => links_updated_of_ne hk
  intro e he
  rw [links_updated_self]
  obtain ⟨c, hc, rfl⟩ := Option.map_eq_some_iff.mp he
  rw [hc]
  rfl

theorem chain_setLess {p q n x : Nat} {l : List Nat} (h : Seg s.links p (x :: l) n)
    (hnd : (x :: l).Nodup) :
    Seg (s.updated x fun e => { e with lessRecent := q }).links q (x :: l) n := by
  refine h.setPrev hnd ?_ fun k hk => links_updated_of_ne hk
  intro e he
  rw [links_updated_self]
  obtain ⟨c, hc, rfl⟩ := Option.map_eq_some_iff.mp he
  rw [hc]
  rfl

/-- Links and ends of the list aside, nothing is changed. -/
structure Relinked (s s' : CachedDevice D) : Prop where
  device : s'.device = s.device
  size : s'.size = s.size
  count : s'.cachedCount = s.cachedCount
  keys : ∀ k, (s'.cache k).isSome = (s.cache k).isSome

theorem relinked_updated : Relinked s (s.updated key f) :=
  ⟨rfl, rfl, rfl, fun _ => updated_isSome⟩

theorem Relinked.trans {s s' s'' : CachedDevice D} (h : Relinked s s') (h' : Relinked s' s'') :
    Relinked s s'' :=
  ⟨h'.device.trans h.device, h'.size.trans h.size, h'.count.trans h.count,
    fun k => (h'.keys k).trans (h.keys k)⟩

/-! ## Accesses -/

variable {b y : Nat} {l l₁ l₂ : List Nat}

/-- The block is taken out of the list. -/
theorem unlink_spec (h : s.Threaded (l₁ ++ b :: y :: l₂)) (he : s.cache b = some e) :
    ∃ s', unlink b e s = .ok () s' ∧ Relinked s s' ∧ s'.mru = s.mru ∧
      s'.lru = (l₁ ++ y :: l₂).headD INVALID_ADDRESS ∧
      Seg s'.links INVALID_ADDRESS (l₁ ++ y :: l₂) INVALID_ADDRESS := by
  have hy : y ≠ INVALID_ADDRESS := fun heq => h.valid (heq ▸ by simp)
  have hlinks := h.chain.middle
  simp only [links, he, Option.map_some, Option.some.injEq, Link.mk.injEq, List.headD_cons]
    at hlinks
  obtain ⟨hless, hmore⟩ := hlinks
  obtain ⟨hfront, hback⟩ := Seg.append.mp h.chain
  obtain ⟨hnd₁, hnd₂, hdisj⟩ := List.nodup_append.mp h.once
  obtain ⟨hb₂, hnd₂⟩ := List.nodup_cons.mp hnd₂
  have hysome : (s.cache y).isSome := (h.keys y).mp (by simp)
  have hback' := chain_setLess (q := e.lessRecent) hback.2 hnd₂
  have hfront' : Seg (s.updated y fun e' => { e' with lessRecent := e.lessRecent }).links
      INVALID_ADDRESS l₁ b := by
    refine (Seg.congr fun k hk => links_updated_of_ne ?_).mp hfront
    rintro rfl
    exact hdisj k hk k (by simp) rfl
  rcases List.eq_nil_or_concat l₁ with rfl | ⟨l₀, x, rfl⟩
  · have hless : e.lessRecent = INVALID_ADDRESS := hless
    have hlru : s.lru = b := h.lru
    refine ⟨{ s with
        cache := (s.updated y fun e' => { e' with lessRecent := e.lessRecent }).cache
        lru := y }, ?_, ⟨rfl, rfl, rfl, fun _ => updated_isSome⟩, rfl, rfl, ?_⟩
    · simp only [unlink, hmore, hless, ne_eq, hy, not_false_eq_true, if_true, not_true_eq_false,
        if_false]
      rw [Prog.bind_of_ok (update_of_isSome hysome)]
      exact congrArg _ (if_pos ⟨hlru, trivial⟩)
    · rw [hless] at hback' ⊢
      exact hback'
  · rw [List.concat_eq_append] at *
    have hx : e.lessRecent = x := by
      rw [hless]
      simp
    have hxv : x ≠ INVALID_ADDRESS := fun heq => h.valid (heq ▸ by simp)
    have hlru : s.lru = (l₀ ++ [x]).headD b := by
      rw [h.lru, headD_append]
      rfl
    have hne : s.lru ≠ b := by
      intro heq
      have hmem : b ∈ l₀ ++ [x] := by
        rw [← heq, hlru]
        cases l₀ <;> simp
      exact hdisj b hmem b (by simp) rfl
    rw [hx] at hback' hfront'
    have hfront'' := chain_setMore (m := y) hfront' hnd₁
    refine ⟨(s.updated y fun e' => { e' with lessRecent := x }).updated x fun e' =>
      { e' with moreRecent := y }, ?_, relinked_updated.trans relinked_updated, rfl, ?_, ?_⟩
    · simp only [unlink, hmore, hx, ne_eq, hy, not_false_eq_true, if_true, hxv]
      rw [Prog.bind_of_ok (update_of_isSome hysome), Prog.bind_of_ok (update_of_isSome _)]
      · exact congrArg _ (if_neg fun hc => hne hc.1)
      · rw [updated_isSome]
        exact (h.keys x).mp (by simp)
    · change s.lru = _
      rw [hlru]
      cases l₀ <;> rfl
    · refine Seg.append.mpr ⟨hfront'', ?_⟩
      rw [List.getLastD_concat]
      refine (Seg.congr fun k hk => links_updated_of_ne ?_).mp hback'
      rintro rfl
      exact hdisj k (by simp) k (List.mem_cons_of_mem _ hk) rfl

/-- A list followed by one more block. -/
theorem threaded_snoc {r : List Nat} (hnd : r.Nodup) (hb : b ∉ r) (hvalid : INVALID_ADDRESS ∉ r)
    (hbv : b ≠ INVALID_ADDRESS) (hkeys : ∀ k, (s.cache k).isSome ↔ k ∈ r ∨ k = b)
    (hcount : s.cachedCount = r.length + 1) (hbound : r.length + 1 ≤ s.size)
    (hlru : s.lru = r.headD b) (hmru : s.mru = b) (hchain : Seg s.links INVALID_ADDRESS r b)
    (hlinks : s.links b = some ⟨r.getLastD INVALID_ADDRESS, INVALID_ADDRESS⟩) :
    s.Threaded (r ++ [b]) where
  once := by
    refine List.nodup_append.mpr ⟨hnd, List.nodup_singleton b, ?_⟩
    rintro x hx _ hx' rfl
    rw [List.mem_singleton] at hx'
    exact hb (hx' ▸ hx)
  keys k := by simp [hkeys]
  valid := by
    rw [List.mem_append, List.mem_singleton]
    rintro (hm | hm)
    · exact hvalid hm
    · exact hbv hm.symm
  count := by simpa using hcount
  bound := by simpa using hbound
  lru := by
    rw [headD_append]
    exact hlru
  mru := by simp [hmru]
  chain := Seg.append.mpr ⟨hchain, hlinks, trivial⟩

/-- A hit on another block than the mru moves the block to the end of the list. -/
theorem hitUpdate_spec (h : s.Threaded l) (he : s.cache b = some e) (hb : b ≠ s.mru) :
    ∃ s', hitUpdate b e s = .ok () s' ∧ Relinked s s' ∧ s'.Threaded (l.erase b ++ [b]) := by
  have hbl : b ∈ l := (h.keys b).mpr (by simp [he])
  have hbv : b ≠ INVALID_ADDRESS := fun heq => h.valid (heq ▸ hbl)
  obtain ⟨l₁, l₂, rfl⟩ := List.append_of_mem hbl
  obtain ⟨-, hnd₂, hdisj⟩ := List.nodup_append.mp h.once
  have hb₁ : b ∉ l₁ := fun hm => hdisj b hm b (by simp) rfl
  have hb₂ : b ∉ l₂ := (List.nodup_cons.mp hnd₂).1
  cases l₂ with
  | nil => exact absurd (by simp [h.mru]) hb
  | cons y l₂ =>
    obtain ⟨s₁, hrun, hkept, hmru, hlru, hchain⟩ := unlink_spec h he
    obtain ⟨r, z, hr⟩ : ∃ r z, l₁ ++ y :: l₂ = r ++ [z] := by
      rcases List.eq_nil_or_concat (l₁ ++ y :: l₂) with hnil | ⟨r, z, hr⟩
      · simp at hnil
      · exact ⟨r, z, hr.trans (List.concat_eq_append ..)⟩
    have hlast : (l₁ ++ b :: y :: l₂).getLastD INVALID_ADDRESS =
        (l₁ ++ y :: l₂).getLastD INVALID_ADDRESS := by
      simp [List.getLastD_eq_getLast?, List.getLast?_append]
    have hz : s₁.mru = z := by rw [hmru, h.mru, hlast, hr, List.getLastD_concat]
    have herase : (l₁ ++ b :: y :: l₂).erase b = r ++ [z] := by
      rw [List.erase_append_right _ hb₁, List.erase_cons_head, hr]
    have hmem : ∀ k, k ∈ l₁ ++ b :: y :: l₂ ↔ k ∈ r ++ [z] ∨ k = b := by
      intro k
      rw [← hr, List.mem_append, List.mem_append, List.mem_cons]
      tauto
    have hlen : (l₁ ++ b :: y :: l₂).length = (r ++ [z]).length + 1 := by
      rw [← hr]
      simp
      rfl
    have hnd : (r ++ [z]).Nodup := herase ▸ h.once.erase b
    have hbr : b ∉ r ++ [z] := herase ▸ h.once.not_mem_erase
    have hzb : b ≠ z := fun heq => hbr (heq ▸ by simp)
    have hzsome : (s₁.cache z).isSome := by
      rw [hkept.keys]
      exact (h.keys z).mp ((hmem z).mpr (Or.inl (by simp)))
    have hbsome : ((s₁.updated z fun e => { e with moreRecent := b }).cache b).isSome := by
      rw [updated_isSome, hkept.keys, he]
      rfl
    rw [hr] at hchain hlru
    refine ⟨{ s₁ with
      cache := ((s₁.updated z fun e => { e with moreRecent := b }).updated b fun e =>
        { e with moreRecent := INVALID_ADDRESS, lessRecent := z }).cache
      mru := b }, ?_, ?_, ?_⟩
    · rw [hitUpdate, Prog.bind_of_ok hrun]
      change (update s₁.mru _ >>= _) s₁ = _
      rw [hz, Prog.bind_of_ok (update_of_isSome hzsome), Prog.bind_of_ok (update_of_isSome hbsome)]
      rfl
    · exact hkept.trans ⟨rfl, rfl, rfl, fun k => updated_isSome.trans updated_isSome⟩
    · rw [herase]
      refine threaded_snoc hnd hbr ?_ hbv ?_ ?_ ?_ ?_ rfl ?_ ?_
      · exact fun hm => h.valid ((hmem _).mpr (Or.inl hm))
      · intro k
        rw [← hmem, h.keys, ← hkept.keys]
        exact Bool.eq_iff_iff.mp (updated_isSome.trans updated_isSome)
      · exact (hkept.count.trans h.count).trans hlen
      · rw [← hlen]
        exact hkept.size ▸ h.bound
      · rw [headD_append] at hlru ⊢
        exact hlru
      · refine (Seg.congr fun k hk => links_updated_of_ne ?_).mp (chain_setMore hchain hnd)
        rintro rfl
        exact hbr hk
      · obtain ⟨e', he'⟩ := Option.isSome_iff_exists.mp hbsome
        refine links_updated_self.trans ?_
        rw [he', List.getLastD_concat]
        rfl

/-- A miss puts the block after the mru; its entry is still to come. -/
theorem missUpdate_spec (h : s.Threaded l) :
    ∃ s', missUpdate b s = .ok () s' ∧ Relinked s s' ∧ s'.mru = b ∧ s'.lru = l.headD b ∧
      Seg s'.links INVALID_ADDRESS l b := by
  rcases List.eq_nil_or_concat l with rfl | ⟨r, z, rfl⟩
  · have hmru : s.mru = INVALID_ADDRESS := h.mru
    refine ⟨{ s with lru := b, mru := b }, ?_, ⟨rfl, rfl, rfl, fun _ => rfl⟩, rfl, rfl, trivial⟩
    change (if s.mru ≠ INVALID_ADDRESS then _ else _ : CacheM D Unit) s = _
    rw [if_neg (not_not_intro hmru)]
    rfl
  · rw [List.concat_eq_append] at *
    have hz : s.mru = z := by rw [h.mru, List.getLastD_concat]
    have hzv : z ≠ INVALID_ADDRESS := fun heq => h.valid (heq ▸ by simp)
    have hzsome : (s.cache z).isSome := (h.keys z).mp (by simp)
    refine ⟨{ s with
      cache := (s.updated z fun e => { e with moreRecent := b }).cache
      mru := b }, ?_, ⟨rfl, rfl, rfl, fun _ => updated_isSome⟩, rfl, ?_,
      chain_setMore h.chain h.once⟩
    · change (if s.mru ≠ INVALID_ADDRESS then _ else _ : CacheM D Unit) s = _
      rw [hz, if_pos hzv, Prog.bind_of_ok (update_of_isSome hzsome)]
      rfl
    · have hlru := h.lru
      rw [headD_append] at hlru ⊢
      exact hlru

end CachedDevice

/-! ## Over a device that never fails -/

/-- From a good state, every call on a block below `count` returns and leaves a good
state. -/
structure Dependable (D : Type) [BlockDevice D] (count : Nat) (good : D → Prop) : Prop where
  /-- `block_count` is a `u32` -/
  count_lt : count < U32
  blockCount : ∀ {d : D}, good d → BlockDevice.blockCount d = count
  read : ∀ {d : D} {b : Nat}, good d → b < count →
    ∃ data d', BlockDevice.readBlock b d = .ok data d' ∧ good d'
  write : ∀ {d : D} {b : Nat} (buf : Block), good d → b < count →
    ∃ d', BlockDevice.writeBlock b buf d = .ok () d' ∧ good d'

namespace CachedDevice

variable {D : Type} [BlockDevice D] {count : Nat} {good : D → Prop} {s : CachedDevice D}
  {b : Nat} {l : List Nat} {e : CachedBlock}

omit [BlockDevice D] in
theorem onInner_of_ok {α : Type} {m : Prog FSError D α} {a : α} {d : D}
    (h : m s.device = .ok a d) : onInner m s = .ok a { s with device := d } :=
  Prog.zoom_of_ok h

/-- The replacement takes the first block out of the list. -/
theorem evict_spec (hD : Dependable D count good) {x y : Nat} {r : List Nat}
    (hnd : (x :: y :: r).Nodup) (hkeys : ∀ k, k ∈ x :: y :: r ↔ (s.cache k).isSome)
    (hlru : s.lru = x) (hchain : Seg s.links INVALID_ADDRESS (x :: y :: r) b)
    (hgood : good s.device) (hx : x < count) :
    ∃ s', evict s = .ok () s' ∧ good s'.device ∧ s'.size = s.size ∧
      s'.cachedCount = s.cachedCount - 1 ∧ s'.mru = s.mru ∧ s'.lru = y ∧
      (∀ k, (s'.cache k).isSome ↔ k ∈ y :: r) ∧ Seg s'.links INVALID_ADDRESS (y :: r) b := by
  obtain ⟨e, he⟩ := Option.isSome_iff_exists.mp ((hkeys x).mp (by simp))
  obtain ⟨hxr, hndr⟩ := List.nodup_cons.mp hnd
  have hmore : e.moreRecent = y := by
    have hlinks := hchain.1
    simp only [links, he, Option.map_some, Option.some.injEq, Link.mk.injEq] at hlinks
    exact hlinks.2
  obtain ⟨d, hwrite, hd⟩ : ∃ d, writeBack x e s = .ok () { s with device := d } ∧
      good d := by
    unfold writeBack
    split
    · obtain ⟨d, hd, hg⟩ := hD.write e.data hgood hx
      exact ⟨d, onInner_of_ok hd, hg⟩
    · exact ⟨s.device, rfl, hgood⟩
  have hysome : (s.cache y).isSome := (hkeys y).mp (by simp)
  refine ⟨{ s with
    device := d
    cache := Function.update
      (s.updated y fun e => { e with lessRecent := INVALID_ADDRESS }).cache x none
    cachedCount := s.cachedCount - 1
    lru := y }, ?_, hd, rfl, rfl, rfl, rfl, ?_, ?_⟩
  · unfold evict
    change (Prog.unwrap (s.cache s.lru) >>= _) s = _
    rw [hlru, he]
    change (writeBack x e >>= _) s = _
    rw [Prog.bind_of_ok hwrite, hmore]
    exact Prog.bind_of_ok (update_of_isSome (s := { s with device := d, lru := y }) hysome) _
  · intro k
    by_cases hk : k = x
    · subst hk
      simpa using hxr
    · simp only [Function.update_of_ne hk, updated_isSome, ← hkeys, List.mem_cons, hk, false_or]
  · refine (Seg.congr fun k hk => ?_).mp (chain_setLess hchain.2 hndr)
    have hkx : k ≠ x := fun heq => hxr (heq ▸ hk)
    simp only [links, Function.update_of_ne hkx]

/-- A block and its entry come in at the end; a full list loses its first block. -/
theorem insert_spec (hD : Dependable D count good) (hsize : 2 ≤ s.size) (hnd : l.Nodup)
    (hkeys : ∀ k, k ∈ l ↔ (s.cache k).isSome) (hvalid : INVALID_ADDRESS ∉ l)
    (hcount : s.cachedCount = l.length) (hbound : l.length ≤ s.size) (hlru : s.lru = l.headD b)
    (hmru : s.mru = b) (hchain : Seg s.links INVALID_ADDRESS l b) (hgood : good s.device)
    (hrange : ∀ k ∈ l, k < count) (hb : b ∉ l) (hbv : b ≠ INVALID_ADDRESS)
    (hmore : e.moreRecent = INVALID_ADDRESS) (hless : e.lessRecent = l.getLastD INVALID_ADDRESS) :
    ∃ s', insert b e s = .ok () s' ∧ good s'.device ∧ s'.size = s.size ∧
      s'.Threaded (touch s.size l b) := by
  have hlinks : ∀ (s₁ : CachedDevice D) (r : List Nat), b ∉ r → Seg s₁.links INVALID_ADDRESS r b →
      Seg (links { s₁ with
        cachedCount := s₁.cachedCount + 1
        cache := Function.update s₁.cache b (some e) }) INVALID_ADDRESS r b := by
    intro s₁ r hr h
    refine (Seg.congr fun k hk => ?_).mp h
    have hkb : k ≠ b := fun heq => hr (heq ▸ hk)
    simp only [links, Function.update_of_ne hkb]
  by_cases hfull : s.cachedCount ≥ s.size
  · obtain ⟨x, y, r, rfl⟩ : ∃ x y r, l = x :: y :: r := by
      match l, hcount with
      | [], hcount => exact absurd hcount (by simp; omega)
      | [_], hcount => exact absurd hcount (by simp; omega)
      | x :: y :: r, _ => exact ⟨x, y, r, rfl⟩
    have hlen : (y :: r).length + 1 = s.size := by
      rw [hcount] at hfull
      exact Nat.le_antisymm hbound hfull
    have hbr : b ∉ y :: r := fun hm => hb (List.mem_cons_of_mem _ hm)
    obtain ⟨s₁, hrun, hg, hs₁, hc₁, hm₁, hl₁, hk₁, hchain₁⟩ :=
      evict_spec hD hnd hkeys hlru hchain hgood (hrange x (by simp))
    refine ⟨{ s₁ with
      cachedCount := s₁.cachedCount + 1
      cache := Function.update s₁.cache b (some e) }, ?_, hg, hs₁, ?_⟩
    · change (if s.cachedCount ≥ s.size then _ else _ : CacheM D Unit) s = _
      rw [if_pos hfull, Prog.bind_of_ok hrun]
      rfl
    · rw [touch, if_neg hb, if_neg (by simp only [List.length_cons] at hlen ⊢; omega)]
      refine threaded_snoc (List.nodup_cons.mp hnd).2 hbr ?_ hbv ?_ ?_ ?_ hl₁ (hm₁.trans hmru)
        (hlinks s₁ _ hbr hchain₁) ?_
      · exact fun hm => hvalid (List.mem_cons_of_mem _ hm)
      · intro k
        by_cases hk : k = b
        · simp [hk]
        · simp only [Function.update_of_ne hk, hk₁, hk, or_false]
          rfl
      · change s₁.cachedCount + 1 = _
        rw [hc₁, hcount]
        rfl
      · exact (hs₁ ▸ hlen).le
      · simp [links, hmore, hless]
  · refine ⟨{ s with
      cachedCount := s.cachedCount + 1
      cache := Function.update s.cache b (some e) }, ?_, hgood, rfl, ?_⟩
    · change (if s.cachedCount ≥ s.size then _ else _ : CacheM D Unit) s = _
      rw [if_neg hfull]
      rfl
    · rw [touch, if_neg hb, if_pos (by omega)]
      refine threaded_snoc hnd hb hvalid hbv ?_ ?_ ?_ hlru hmru (hlinks s l hb hchain) ?_
      · intro k
        by_cases hk : k = b
        · simp [hk]
        · simp [hk, hkeys]
      · simp [hcount]
      · change l.length + 1 ≤ s.size
        omega
      · simp [links, hmore, hless]

/-- The invariant along a run: the list is `l`, and its blocks are in range. -/
structure Lru (count : Nat) (good : D → Prop) (s : CachedDevice D) (l : List Nat) : Prop where
  threaded : s.Threaded l
  size : 2 ≤ s.size
  good : good s.device
  range : ∀ k ∈ l, k < count

theorem lt_invalid (hD : Dependable D count good) (hb : b < count) : b ≠ INVALID_ADDRESS := by
  have := hD.count_lt
  have : INVALID_ADDRESS + 1 = U32 := rfl
  omega

theorem miss_spec (hD : Dependable D count good) (h : Lru count good s l) (hb : b < count)
    (hnone : s.cache b = none) (data : Block) (dirty : Bool) :
    ∃ s', (do
        missUpdate b
        insert b ⟨data, dirty, INVALID_ADDRESS, s.mru⟩ : CacheM D Unit) s = .ok () s' ∧
      s'.size = s.size ∧ Lru count good s' (touch s.size l b) := by
  have ht := h.threaded
  have hbl : b ∉ l := fun hm => by simpa [hnone] using (ht.keys b).mp hm
  obtain ⟨s₁, hrun, hkept, hmru, hlru, hchain⟩ := missUpdate_spec (b := b) ht
  obtain ⟨s₂, hins, hgood, hsize, ht₂⟩ := insert_spec hD (s := s₁) (l := l) (b := b)
    (e := ⟨data, dirty, INVALID_ADDRESS, s.mru⟩) (hkept.size ▸ h.size) ht.once
    (fun k => by rw [hkept.keys]; exact ht.keys k) ht.valid (hkept.count.trans ht.count)
    (hkept.size ▸ ht.bound) hlru hmru hchain (hkept.device ▸ h.good) h.range hbl
    (lt_invalid hD hb) rfl ht.mru
  refine ⟨s₂, (Prog.bind_of_ok hrun _).trans hins, hsize.trans hkept.size, ?_⟩
  rw [hkept.size] at ht₂
  refine ⟨ht₂, (hsize.trans hkept.size) ▸ h.size, hgood, fun k hk => ?_⟩
  rcases mem_of_mem_touch hk with hk | rfl
  · exact h.range k hk
  · exact hb

omit [BlockDevice D] in
theorem hit_spec (h : Lru count good s l) (he : s.cache b = some e) (hb : b ≠ s.mru) :
    ∃ s', hitUpdate b e s = .ok () s' ∧ s'.size = s.size ∧
      Lru count good s' (touch s.size l b) := by
  have hbl : b ∈ l := (h.threaded.keys b).mpr (by simp [he])
  obtain ⟨s', hrun, hkept, ht⟩ := hitUpdate_spec h.threaded he hb
  have htouch : touch s.size l b = l.erase b ++ [b] := by rw [touch, if_pos hbl]
  rw [htouch]
  refine ⟨s', hrun, hkept.size, ht, hkept.size ▸ h.size, hkept.device ▸ h.good, fun k hk => ?_⟩
  rw [← htouch] at hk
  rcases mem_of_mem_touch hk with hk | rfl
  · exact h.range k hk
  · exact h.range k hbl

omit [BlockDevice D] in
theorem Lru.updated (h : Lru count good s l) {f : CachedBlock → CachedBlock} {key : Nat}
    (hf : ∀ e, (f e).lessRecent = e.lessRecent ∧ (f e).moreRecent = e.moreRecent) :
    Lru count good (s.updated key f) l := by
  have ht := h.threaded
  refine ⟨⟨ht.once, fun b => ?_, ht.valid, ht.count, ht.bound, ht.lru, ht.mru, ?_⟩, h.size, h.good,
    h.range⟩
  · rw [updated_isSome]
    exact ht.keys b
  · refine (Seg.congr fun k _ => ?_).mp ht.chain
    by_cases hk : k = key
    · subst hk
      rw [links_updated_self, links]
      simp only [hf]
    · exact links_updated_of_ne hk

omit [BlockDevice D] in
theorem Lru.withDevice (h : Lru count good s l) {d : D} (hd : good d) :
    Lru count good { s with device := d } l :=
  ⟨⟨h.threaded.once, h.threaded.keys, h.threaded.valid, h.threaded.count, h.threaded.bound,
    h.threaded.lru, h.threaded.mru, h.threaded.chain⟩, h.size, hd, h.range⟩

theorem readBlock_spec (hD : Dependable D count good) (h : Lru count good s l) (hb : b < count)
    (hnew : b ≠ s.mru) : ∃ data s', readBlock b s = .ok data s' ∧ s'.size = s.size ∧
      Lru count good s' (touch s.size l b) := by
  cases he : s.cache b with
  | some e =>
    obtain ⟨s', hrun, hsize, hl⟩ := hit_spec h he hnew
    refine ⟨e.data, s', ?_, hsize, hl⟩
    rw [readBlock_cached he]
    exact Prog.bind_of_ok hrun _
  | none =>
    obtain ⟨data, d, hread, hd⟩ := hD.read h.good hb
    obtain ⟨s', hrun, hsize, hl⟩ := miss_spec hD (h.withDevice hd) hb he data false
    refine ⟨data, s', ?_, hsize, hl⟩
    rw [readBlock_uncached he]
    refine (Prog.bind_of_ok (onInner_of_ok hread) _).trans ?_
    rw [Prog.bind_apply] at hrun
    change (missUpdate b >>= fun _ => insert b _ >>= fun _ => pure data) _ = _
    rw [Prog.bind_apply]
    split at hrun
    · exact Prog.bind_of_ok hrun _
    · cases hrun
    · cases hrun

theorem writeBlock_spec (hD : Dependable D count good) (h : Lru count good s l) (hb : b < count)
    (hnew : b ≠ s.mru) (buf : Block) : ∃ s', writeBlock b buf s = .ok () s' ∧ s'.size = s.size ∧
      Lru count good s' (touch s.size l b) := by
  cases he : s.cache b with
  | some e =>
    obtain ⟨s', hrun, hsize, hl⟩ := hit_spec h he hnew
    have hsome : (s'.cache b).isSome := (hl.threaded.keys b).mp (by simp [touch])
    refine ⟨s'.updated b fun e => { e with dirty := true, data := buf }, ?_, hsize,
      hl.updated fun _ => ⟨rfl, rfl⟩⟩
    rw [writeBlock_cached he]
    exact (Prog.bind_of_ok hrun _).trans (update_of_isSome hsome)
  | none =>
    obtain ⟨s', hrun, hsize, hl⟩ := miss_spec hD h hb he buf true
    refine ⟨s', ?_, hsize, hl⟩
    rw [writeBlock_uncached he]
    exact hrun

theorem flushEntry_spec (hD : Dependable D count good) (key : Nat) (h : Lru count good s l) :
    ∃ s', flushEntry key s = .ok () s' ∧ s'.size = s.size ∧ Lru count good s' l := by
  cases he : s.cache key with
  | none => exact ⟨s, flushEntry_uncached he, rfl, h⟩
  | some e =>
    by_cases hdirty : e.dirty
    · have hkey : key < count := h.range key ((h.threaded.keys key).mpr (by simp [he]))
      obtain ⟨d, hwrite, hd⟩ := hD.write e.data h.good hkey
      have hsome : (s.cache key).isSome := by simp [he]
      refine ⟨updated { s with device := d } key fun e => { e with dirty := false }, ?_, rfl,
        (h.withDevice hd).updated fun _ => ⟨rfl, rfl⟩⟩
      rw [flushEntry_cached he]
      simp only [hdirty, if_true]
      exact (Prog.bind_of_ok (onInner_of_ok hwrite) _).trans
        (update_of_isSome (s := { s with device := d }) hsome)
    · refine ⟨s, ?_, rfl, h⟩
      rw [flushEntry_cached he]
      simp [hdirty]

theorem flush_spec (hD : Dependable D count good) (order : List Nat) (h : Lru count good s l) :
    ∃ s', flush order s = .ok () s' ∧ s'.size = s.size ∧ Lru count good s' l := by
  induction order generalizing s with
  | nil => exact ⟨s, rfl, rfl, h⟩
  | cons key rest ih =>
    obtain ⟨s₁, hstep, hsize, h₁⟩ := flushEntry_spec hD key h
    obtain ⟨s', hrun, hsize', h'⟩ := ih h₁
    exact ⟨s', (Prog.bind_of_ok hstep _).trans hrun, hsize'.trans hsize, h'⟩

/-! ## Runs -/

/-- The list after a call. -/
def order (size : Nat) (l : List Nat) (op : DeviceOp) : List Nat :=
  match op.block? with
  | some b => touch size l b
  | none => l

theorem exec_spec (hD : Dependable D count good) (h : Lru count good s l) {op : DeviceOp}
    (hop : op.InRange count) (hnew : ∀ b, op.block? = some b → b ≠ s.mru) :
    ∃ a s', op.exec s = .ok a s' ∧ s'.size = s.size ∧ Lru count good s' (order s.size l op) := by
  cases op with
  | read b =>
    obtain ⟨data, s', hrun, hsize, hl⟩ := readBlock_spec hD h hop (hnew b rfl)
    exact ⟨_, s', Prog.bind_of_ok hrun _, hsize, hl⟩
  | write b buf =>
    obtain ⟨s', hrun, hsize, hl⟩ := writeBlock_spec hD h hop (hnew b rfl) buf
    exact ⟨_, s', Prog.bind_of_ok hrun _, hsize, hl⟩
  | flush keys =>
    obtain ⟨s', hrun, hsize, hl⟩ := flush_spec hD keys h
    exact ⟨_, s', Prog.bind_of_ok hrun _, hsize, hl⟩
  | resize n => exact absurd hop id

omit [BlockDevice D] in
theorem new_lru {d : D} (hd : good d) (capacity : Nat) : Lru count good (new d capacity) [] where
  threaded :=
    ⟨List.nodup_nil, fun b => by simp [new], by simp, rfl, Nat.zero_le _, rfl, rfl, trivial⟩
  size := Nat.le_max_right _ _
  good := hd
  range := by simp

/-- Along a history the list is the one of the last accesses. -/
theorem order_recent {k : Nat} (hk : 0 < k) (h : List Nat) (op : DeviceOp) :
    order k (recent k h) op = recent k (h ++ op.block?.toList) := by
  unfold order
  cases op.block? with
  | none => simp
  | some b => exact (recent_snoc hk h b).symm

/-- The mru is the block accessed last. -/
theorem ne_mru (hD : Dependable D count good) {k : Nat} (hk : 0 < k) {h : List Nat}
    (hs : Lru count good s (recent k h)) (hb : b < count) (hne : b ∉ h.getLast?) : b ≠ s.mru := by
  rw [hs.threaded.mru, recent_getLastD hk, List.getLastD_eq_getLast?]
  cases hl : h.getLast? with
  | none => exact lt_invalid hD hb
  | some x =>
    rintro rfl
    exact hne hl

theorem block_lt {op : DeviceOp} (hop : op.InRange count) (hb : op.block? = some b) :
    b < count := by
  cases op <;> cases hb <;> exact hop

/-- A call that does not name the block accessed last. -/
theorem exec_recent (hD : Dependable D count good) {k : Nat} (hk : 0 < k) {h : List Nat}
    (hs : Lru count good s (recent k h)) (hsize : s.size = k) {op : DeviceOp}
    (hop : op.InRange count) (hnew : ∀ b, op.block? = some b → b ∉ h.getLast?) :
    ∃ a s', op.exec s = .ok a s' ∧ s'.size = k ∧
      Lru count good s' (recent k (h ++ op.block?.toList)) := by
  obtain ⟨a, s', hrun, hsize', hl⟩ := exec_spec hD hs hop fun b hb =>
    ne_mru hD hk hs (block_lt hop hb) (hnew b hb)
  refine ⟨a, s', hrun, hsize'.trans hsize, ?_⟩
  rw [hsize, order_recent hk] at hl
  exact hl

theorem trace_lru (hD : Dependable D count good) {d : D} (hd : good d) (capacity : Nat)
    {calls : List (DeviceOp × Answer)} {c : CachedDevice D} (h : Trace (new d capacity) calls c)
    (hrange : ∀ x ∈ calls, x.1.InRange count) (hnew : (accesses calls).IsChain (· ≠ ·)) :
    c.size = max capacity 2 ∧ Lru count good c (recent (max capacity 2) (accesses calls)) := by
  have hk : 0 < max capacity 2 := by omega
  induction h with
  | nil =>
    rw [show accesses [] = [] from rfl, recent_nil]
    exact ⟨rfl, new_lru hd capacity⟩
  | @snoc calls op a c c' _ _ ha ih =>
    rw [accesses_snoc, List.isChain_append] at hnew
    obtain ⟨hsize, hl⟩ := ih (fun x hx => hrange x (List.mem_append_left _ hx)) hnew.1
    obtain ⟨a', s', hrun, hsize', hl'⟩ := exec_recent hD hk hl hsize
      (hrange (op, a) (by simp)) fun b hb hlast => hnew.2.2 b hlast b (by simp [hb]) rfl
    rw [accesses_snoc]
    cases ha with
    | ok ha =>
      rw [hrun] at ha
      cases ha
      exact ⟨hsize', hl'⟩
    | err ha =>
      rw [hrun] at ha
      cases ha

/-- While no read or write names the block accessed last, the entries form the list
of the last `max(capacity, 2)` different blocks in the order of their last access, no
call panics, and a miss on a full cache removes the first of them. -/
theorem lru_list_of_no_repeat (hD : Dependable D count good) {d : D} (hd : good d) (capacity : Nat)
    {calls : List (DeviceOp × Answer)} {c : CachedDevice D} (h : Trace (new d capacity) calls c)
    (hrange : ∀ x ∈ calls, x.1.InRange count) (hnew : (accesses calls).IsChain (· ≠ ·)) :
    c.size = max capacity 2 ∧ c.Threaded (recent (max capacity 2) (accesses calls)) ∧
    Lib.follow c.links INVALID_ADDRESS (c.cachedCount + 1) c.lru =
      recent (max capacity 2) (accesses calls) ∧
    ∀ op : DeviceOp, op.InRange count → (∀ b, op.block? = some b → b ∉ (accesses calls).getLast?) →
      ∃ a c', op.exec c = .ok a c' ∧
        ∀ b, op.block? = some b → c.cache b = none → c.cachedCount = c.size →
          ∀ k, (c'.cache k).isSome ↔ k = b ∨ k ≠ c.lru ∧ (c.cache k).isSome := by
  have hk : 0 < max capacity 2 := by omega
  obtain ⟨hsize, hl⟩ := trace_lru hD hd capacity h hrange hnew
  refine ⟨hsize, hl.threaded, hl.threaded.follow, fun op hop hfresh => ?_⟩
  obtain ⟨a, c', hrun, -, hl'⟩ := exec_recent hD hk hl hsize hop hfresh
  refine ⟨a, c', hrun, fun b hb hmiss hfull k => ?_⟩
  have ht := hl.threaded
  have hbr : b ∉ recent (max capacity 2) (accesses calls) := by
    rw [ht.keys, hmiss]
    simp
  have hlen : (recent (max capacity 2) (accesses calls)).length = max capacity 2 := by
    rw [← ht.count, hfull, hsize]
  have horder : order (max capacity 2) (recent (max capacity 2) (accesses calls)) op =
      touch (max capacity 2) (recent (max capacity 2) (accesses calls)) b := by simp [order, hb]
  rw [← order_recent hk, horder] at hl'
  rw [← hl'.threaded.keys, ← ht.keys, ht.lru, touch, if_neg hbr, if_neg (by omega)]
  have hnd := ht.once
  cases hr : recent (max capacity 2) (accesses calls) with
  | nil =>
    rw [hr, List.length_nil] at hlen
    omega
  | cons x r =>
    rw [hr] at hnd
    have hxr := (List.nodup_cons.mp hnd).1
    simp only [List.tail_cons, List.mem_append, List.headD_cons, List.mem_cons, List.not_mem_nil,
      or_false]
    constructor
    · rintro (hm | hm)
      · exact Or.inr ⟨fun heq => hxr (heq ▸ hm), Or.inr hm⟩
      · exact Or.inl hm
    · rintro (hm | ⟨hne, hm⟩)
      · exact Or.inr hm
      · exact Or.inl (hm.resolve_left hne)

end CachedDevice

theorem MemoryDevice.dependable (n : Nat) :
    Dependable MemoryDevice (n % U32) fun d => d.blocks.length = n where
  count_lt := Nat.mod_lt _ (by decide)
  blockCount h := by
    change MemoryDevice.blockCount _ = _
    rw [MemoryDevice.blockCount, h]
  read {d b} h hb := ⟨d.block b, d, readBlock_of_lt (by rwa [MemoryDevice.blockCount, h]), h⟩
  write {d b} buf h hb := ⟨d.setBlock b buf,
    writeBlock_of_lt (by rwa [MemoryDevice.blockCount, h]), by simpa using h⟩

theorem CachedDevice.lru_list_read_read :
    ∃ (calls : List (DeviceOp × Answer)) (c : CachedDevice MemoryDevice),
      Trace (CachedDevice.new (MemoryDevice.empty 3) 2) calls c ∧
      (∀ x ∈ calls, x.1.InRange 3) ∧ (accesses calls).IsChain (· ≠ ·) ∧
      c.Threaded (recent 2 (accesses calls)) ∧ accesses calls = [1, 2] := by
  obtain ⟨c, data, data', h⟩ : ∃ c data data', Trace (CachedDevice.new (MemoryDevice.empty 3) 2)
      ([] ++ [(.read 1, data)] ++ [(.read 2, data')]) c :=
    ⟨_, _, _, .snoc (o := .read 2) (.snoc (o := .read 1) .nil trivial (.ok rfl)) trivial (.ok rfl)⟩
  have hrange : ∀ x ∈ [(DeviceOp.read 1, data), (.read 2, data')], x.1.InRange (3 % U32) := by
    simp [DeviceOp.InRange, U32]
  have hnew : (accesses [(.read 1, data), (.read 2, data')]).IsChain (· ≠ ·) := by
    change [1, 2].IsChain (· ≠ ·)
    decide
  exact ⟨_, c, h, hrange, hnew, (CachedDevice.lru_list_of_no_repeat (MemoryDevice.dependable 3)
    (List.length_replicate) 2 h hrange hnew).2.1, rfl⟩

/-- A second read of the block accessed last, and what follows from it: the fifth read
loses block 2 from the list, and the next hit on it looks for an entry that is no
longer there. -/
theorem CachedDevice.lru_list_repeated_read :
    ∃ (calls : List (DeviceOp × Answer)) (c : CachedDevice MemoryDevice),
      Trace (CachedDevice.new (MemoryDevice.empty 5) 3) calls c ∧
      (∀ x ∈ calls, x.1.InRange 5) ∧ accesses calls = [0, 1, 1, 2, 1, 3, 4] ∧
      (DeviceOp.read 2).exec c = .panic := by
  refine ⟨_, _, .snoc (o := .read 4) (.snoc (o := .read 3) (.snoc (o := .read 1)
    (.snoc (o := .read 2) (.snoc (o := .read 1) (.snoc (o := .read 1) (.snoc (o := .read 0) .nil
    trivial (.ok rfl)) trivial (.ok rfl)) trivial (.ok rfl)) trivial (.ok rfl)) trivial (.ok rfl))
    trivial (.ok rfl)) trivial (.ok rfl), by decide, rfl, rfl⟩

end FerrisFS
