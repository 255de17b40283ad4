import FerrisFS.V1.Resolve
import FerrisFS.V1.Slots

/-!
# Entering a record in a directory

The part that `create` and `create_hardlink` share: the record goes where
`can_fit` found room, or into a new block of the parent, taken with its pointer
blocks from freshly allocated ones. The parent need not be a directory: neither
function checks.
-/

namespace FerrisFS

open Lib DirectoryHandler INodeTableHandler

/-- The record `entry` is entered in the inode `n`, where `fit` says or in a new
block; `fresh` are the blocks it takes. -/
inductive Entered (data : Region) (n : INode) (entry : DirEntry) :
    Option (Nat × Nat) → List Nat → Region → INode → Prop where
  | here {b off : Nat} {e : DirEntry} (hb : b ∈ n.content data)
      (hmem : (off, e) ∈ (data b).records) (hfit : Fits entry e) :
      Entered data n entry (some (b, off)) []
        (Function.update data b ((data b).insertAt entry off)) n
  | grow {blk : Nat} {pool : List Nat} {data₁ : Region} {n₁ : INode}
      (hmax : n.blocks < INode.MAX_BLOCKS) (hpool : pool.length = blocksNecessaryToGrow n)
      (hgrown : INode.Grown data n data₁ n₁ [blk] pool) :
      Entered data n entry none (blk :: pool)
        (Function.update data₁ blk (Block.growBlock entry))
        { n₁ with size := n₁.size + BLOCK_SIZE }

/-- What `can_fit` has to say about the blocks the entry takes. -/
def Needs (n : INode) (fit : Option (Nat × Nat)) : Nat :=
  if fit.isSome then 0 else 1 + blocksNecessaryToGrow n

namespace Entered

variable {data data' : Region} {n n' : INode} {entry : DirEntry} {fit : Option (Nat × Nat)}
  {fresh : List Nat}

theorem fileType (h : Entered data n entry fit fresh data' n') : n'.fileType = n.fileType := by
  cases h with
  | here => rfl
  | grow _ _ hg => exact hg.fileType

theorem links (h : Entered data n entry fit fresh data' n') : n'.links = n.links := by
  cases h with
  | here => rfl
  | grow _ _ hg => exact hg.links

theorem growable (h : Entered data n entry fit fresh data' n') (hfit : fit = none) :
    n.blocks < INode.MAX_BLOCKS := by
  cases h with
  | here => cases hfit
  | grow hmax => exact hmax

/-- Only blocks of the inode and the fresh ones are written. -/
theorem frame (h : Entered data n entry fit fresh data' n') {p : Nat} (hp : p ∉ n.owned data)
    (hfresh : p ∉ fresh) : data' p = data p := by
  cases h with
  | here hb _ _ =>
      refine Function.update_of_ne ?_ _ _
      rintro rfl
      exact hp (List.mem_append_left _ hb)
  | grow _ _ hg =>
      rw [Function.update_of_ne fun heq => hfresh (by rw [heq]; exact List.mem_cons_self)]
      refine hg.frame p fun hmem => ?_
      rcases List.mem_append.mp hmem with hmem | hmem
      · exact hp (List.mem_append_right _ hmem)
      · exact hfresh (List.mem_cons_of_mem _ hmem)

/-- Fresh blocks: distinct, and none of them the inode's own. -/
structure Clear (data : Region) (n : INode) (fresh : List Nat) : Prop where
  own : (n.owned data).Nodup
  nodup : fresh.Nodup
  disjoint : ∀ b ∈ fresh, b ∉ n.owned data

theorem content_eq (h : Entered data n entry fit fresh data' n') (hc : Clear data n fresh) :
    n'.content data' = n.content data ++ fresh.take 1 := by
  cases h with
  | @here b off e hb _ _ =>
      rw [List.take_nil, List.append_nil]
      refine INode.content_congr fun p hp => Function.update_of_ne ?_ _ _
      rintro rfl
      exact (List.nodup_append.mp hc.own).2.2 _ hb _ hp rfl
  | @grow blk pool data₁ n₁ _ _ hg =>
      have hgrown : n₁.content data₁ = n.content data ++ [blk] := hg.content
      rw [List.take_one, List.head?_cons, Option.toList_some, ← hgrown]
      show n₁.content _ = n₁.content data₁
      refine INode.content_congr fun p hp => Function.update_of_ne ?_ _ _
      rintro rfl
      rw [hg.pointers] at hp
      rcases List.mem_append.mp hp with hp | hp
      · exact hc.disjoint _ List.mem_cons_self (List.mem_append_right _ hp)
      · exact (List.nodup_cons.mp hc.nodup).1 hp

theorem pointers_eq (h : Entered data n entry fit fresh data' n') (hc : Clear data n fresh) :
    n'.pointers data' = n.pointers data ++ fresh.drop 1 := by
  cases h with
  | @here b off e hb _ _ =>
      rw [List.drop_nil, List.append_nil]
      refine INode.pointers_congr fun p hp => Function.update_of_ne ?_ _ _
      rintro rfl
      exact (List.nodup_append.mp hc.own).2.2 _ hb _ hp rfl
  | @grow blk pool data₁ n₁ _ _ hg =>
      have hgrown : n₁.pointers data₁ = n.pointers data ++ pool := hg.pointers
      rw [List.drop_one, List.tail_cons, ← hgrown]
      show n₁.pointers _ = n₁.pointers data₁
      refine INode.pointers_congr fun p hp => Function.update_of_ne ?_ _ _
      rintro rfl
      rw [hgrown] at hp
      rcases List.mem_append.mp hp with hp | hp
      · exact hc.disjoint _ List.mem_cons_self (List.mem_append_right _ hp)
      · exact (List.nodup_cons.mp hc.nodup).1 hp

theorem owned_perm (h : Entered data n entry fit fresh data' n') (hc : Clear data n fresh) :
    (n'.owned data').Perm (n.owned data ++ fresh) := by
  rw [INode.owned, h.content_eq hc, h.pointers_eq hc, INode.owned]
  have hsplit : fresh.take 1 ++ fresh.drop 1 = fresh := List.take_append_drop 1 fresh
  calc (n.content data ++ fresh.take 1 ++ (n.pointers data ++ fresh.drop 1)).Perm
        (n.content data ++ (n.pointers data ++ (fresh.take 1 ++ fresh.drop 1))) := by
        rw [List.append_assoc]
        refine List.Perm.append_left _ ?_
        rw [← List.append_assoc, ← List.append_assoc]
        exact List.Perm.append_right _ List.perm_append_comm
    _ = n.content data ++ n.pointers data ++ fresh := by
        rw [hsplit, List.append_assoc]

theorem le_blocks (h : Entered data n entry fit fresh data' n') : n.blocks ≤ n'.blocks := by
  cases h with
  | here => exact Nat.le_refl _
  | grow _ _ hg =>
      show n.blocks ≤ _
      rw [hg.blocks]
      exact Nat.le_add_right _ _

theorem blocks_le (h : Entered data n entry fit fresh data' n')
    (hmax : n.blocks ≤ INode.MAX_BLOCKS) : n'.blocks ≤ INode.MAX_BLOCKS := by
  cases h with
  | here => exact hmax
  | grow hlt _ hg =>
      have hb := hg.blocks
      simp only [List.length_singleton] at hb
      dsimp only
      omega

/-- The inode's blocks are rows of records. -/
def Rows (gaps : Bool) (data : Region) (n : INode) : Prop :=
  ∀ b ∈ n.content data, ∃ cs, TidyLayout gaps (data b) cs

/-- Where the record ends up. -/
def place (fit : Option (Nat × Nat)) (fresh : List Nat) : Nat × Nat :=
  fit.getD (fresh.headD 0, 0)

/-- The region that `can_fit` chose does not leave exactly `min_free_size` bytes. -/
def Snug (data : Region) (entry : DirEntry) (fit : Option (Nat × Nat)) : Prop :=
  ∀ b off, fit = some (b, off) →
    (DirEntry.ofBytes (data b) off).recordLen ≠ entry.recordLen + DirEntry.minFreeSize

/-- The insertion is one that the blocks allow for. -/
def Roomy (gaps : Bool) (data : Region) (entry : DirEntry) (fit : Option (Nat × Nat)) : Prop :=
  gaps = true ∨ Snug data entry fit

variable {gaps : Bool}

/-- The blocks the inode had, and the one it got. -/
theorem content_cases (h : Entered data n entry fit fresh data' n') (hc : Clear data n fresh)
    {b : Nat} (hb : b ∈ n'.content data') :
    b ∈ n.content data ∨ fit = none ∧ b = (place fit fresh).1 := by
  rw [h.content_eq hc] at hb
  cases h with
  | here => simpa using hb
  | grow => simpa [place] using hb

/-- What the walk meets in each block of the inode. -/
theorem slots (h : Entered data n entry fit fresh data' n') (hc : Clear data n fresh)
    (he : entry.Valid) (hrows : Rows gaps data n) (hroom : Roomy gaps data entry fit) :
    (place fit fresh).1 ∈ n'.content data' ∧
      (∃ cs, TidyLayout gaps (data' (place fit fresh).1) cs) ∧
      (∀ b ∈ n.content data, b ≠ (place fit fresh).1 → data' b = data b) ∧
      ∃ s₁ s₂, (data' (place fit fresh).1).slots =
          s₁ ++ ((place fit fresh).2, .live entry) :: s₂ ∧
        ((fit = none ∧ (place fit fresh).1 ∉ n.content data ∧
            s₁ = [] ∧ ∀ x ∈ s₂, x.2.isFree = true) ∨
          ∃ m s, (place fit fresh).1 ∈ n.content data ∧
            (data (place fit fresh).1).slots = s₁ ++ ((place fit fresh).2, .free m) :: s ∧
            s₂ = tailAfter m entry.recordLen (place fit fresh).2 s ∧
            (Snug data entry fit → m ≠ entry.recordLen + DirEntry.minFreeSize)) := by
  have hcontent := h.content_eq hc
  cases h with
  | @here b off e hb hmem hfit =>
      obtain ⟨cs, hlay⟩ := hrows b hb
      obtain ⟨-, heq, -⟩ := Block.recordsFrom_sound hmem
      have hslot : (off, Slot.free e.recordLen) ∈ (data b).slots := by
        refine List.mem_map.mpr ⟨(off, e), hmem, ?_⟩
        simp [DirEntry.slot, hfit.1]
      have hlong : e.recordLen = entry.recordLen ∨
          entry.recordLen + DirEntry.minFreeSize ≤ e.recordLen := by
        rcases hfit.2 with hr | hr
        · exact .inr hr
        · exact .inl hr
      have hgaps : gaps = true ∨ e.recordLen ≠ entry.recordLen + DirEntry.minFreeSize := by
        rcases hroom with hon | hsnug
        · exact .inl hon
        · right
          rw [heq]
          exact hsnug b off rfl
      obtain ⟨htidy, s₁, s₂, hold, hnew⟩ := hlay.insertAt hslot he hlong hgaps
      have hupd : Function.update data b ((data b).insertAt entry off) b =
          (data b).insertAt entry off := Function.update_self _ _ _
      simp only [place, Option.getD_some, hupd]
      refine ⟨?_, htidy, fun b' _ hne => Function.update_of_ne hne _ _, s₁, _, hnew, .inr ?_⟩
      · rw [hcontent]
        simpa using hb
      · refine ⟨e.recordLen, s₂, hb, hold, rfl, fun hsnug => ?_⟩
        rw [heq]
        exact hsnug b off rfl
  | @grow blk pool data₁ n₁ hmax hpool hgrown =>
      obtain ⟨htidy, hslots⟩ := TidyLayout.growBlock he
      have hblk : blk ∉ n.content data := fun hb =>
        hc.disjoint blk List.mem_cons_self (List.mem_append_left _ hb)
      simp only [place, Option.getD_none, List.headD_cons, Function.update_self]
      refine ⟨?_, htidy, ?_, [], _, hslots, .inl ⟨trivial, hblk, rfl, ?_⟩⟩
      · rw [hcontent]
        simp
      · intro b hb hne
        rw [Function.update_of_ne hne]
        refine hgrown.frame b fun hmem => ?_
        rcases List.mem_append.mp hmem with hmem | hmem
        · exact (List.nodup_append.mp hc.own).2.2 _ hb _ hmem rfl
        · exact hc.disjoint b (List.mem_cons_of_mem _ hmem) (List.mem_append_left _ hb)
      · simp [Slot.isFree]

/-- The blocks stay rows of records. -/
theorem rows (h : Entered data n entry fit fresh data' n') (hc : Clear data n fresh)
    (he : entry.Valid) (hrows : Rows gaps data n) (hroom : Roomy gaps data entry fit) :
    Rows gaps data' n' := by
  obtain ⟨-, htidy, hframe, -⟩ := h.slots hc he hrows hroom
  intro b hb
  by_cases hne : b = (place fit fresh).1
  · exact hne ▸ htidy
  · rcases h.content_cases hc hb with hb | ⟨-, hb⟩
    · rw [hframe b hb hne]
      exact hrows b hb
    · exact absurd hb hne

/-- A record of the inode is the new one or was there before. -/
theorem live_cases (h : Entered data n entry fit fresh data' n') (hc : Clear data n fresh)
    (he : entry.Valid) (hrows : Rows gaps data n) (hroom : Roomy gaps data entry fit)
    {b o : Nat} {e : DirEntry}
    (hb : b ∈ n'.content data') (hs : (o, Slot.live e) ∈ (data' b).slots) :
    b ∈ n.content data ∧ (o, Slot.live e) ∈ (data b).slots ∧ (b, o) ≠ place fit fresh ∨
      (b, o) = place fit fresh ∧ e = entry := by
  obtain ⟨-, -, hframe, s₁, s₂, hnew, hcase⟩ := h.slots hc he hrows hroom
  by_cases hne : b = (place fit fresh).1
  · subst hne
    rw [hnew] at hs
    rcases List.mem_append.mp hs with hs' | hs'
    · rcases hcase with ⟨-, -, rfl, -⟩ | ⟨m, s, hold, hslots, -, -⟩
      · exact absurd hs' List.not_mem_nil
      · refine .inl ⟨hold, by rw [hslots]; exact List.mem_append_left _ hs', ?_⟩
        intro heq
        exact Block.not_mem_of_split hslots (List.mem_append_left _ hs') (congrArg Prod.snd heq)
    rcases List.mem_cons.mp hs' with heq | hs'
    · cases heq
      exact .inr ⟨rfl, rfl⟩
    · rcases hcase with ⟨-, -, -, hfree⟩ | ⟨m, s, hold, hslots, rfl, -⟩
      · exact absurd (hfree _ hs') (by simp [Slot.isFree])
      · have hs₂ : (o, Slot.live e) ∈ s := by
          unfold tailAfter at hs'
          split at hs'
          · exact hs'
          · split at hs'
            · exact absurd hs' List.not_mem_nil
            · rcases List.mem_cons.mp hs' with heq | hs'
              · cases heq
              · exact hs'
        refine .inl ⟨hold, ?_, ?_⟩
        · rw [hslots]
          exact List.mem_append_right _ (List.mem_cons_of_mem _ hs₂)
        · intro heq
          exact Block.not_mem_of_split hslots (List.mem_append_right _ hs₂)
            (congrArg Prod.snd heq)
  · rcases h.content_cases hc hb with hb | ⟨-, hb⟩
    · rw [hframe b hb hne] at hs
      exact .inl ⟨hb, hs, fun heq => hne (congrArg Prod.fst heq)⟩
    · exact absurd hb hne

/-- The new record is there. -/
theorem live_new (h : Entered data n entry fit fresh data' n') (hc : Clear data n fresh)
    (he : entry.Valid) (hrows : Rows gaps data n) (hroom : Roomy gaps data entry fit) :
    (place fit fresh).1 ∈ n'.content data' ∧
      ((place fit fresh).2, Slot.live entry) ∈ (data' (place fit fresh).1).slots := by
  obtain ⟨hmem, -, -, s₁, s₂, hnew, -⟩ := h.slots hc he hrows hroom
  refine ⟨hmem, ?_⟩
  rw [hnew]
  simp

/-- There was no record where the new one is. -/
theorem place_free (h : Entered data n entry fit fresh data' n') (hc : Clear data n fresh)
    (he : entry.Valid) (hrows : Rows gaps data n) (hroom : Roomy gaps data entry fit)
    {e : DirEntry} (hb : (place fit fresh).1 ∈ n.content data) :
    ((place fit fresh).2, Slot.live e) ∉ (data (place fit fresh).1).slots := by
  obtain ⟨-, -, -, s₁, s₂, -, hcase⟩ := h.slots hc he hrows hroom
  intro hs
  rcases hcase with ⟨-, hnot, -⟩ | ⟨m, s, -, hslots, -⟩
  · exact hnot hb
  · have hfree : ((place fit fresh).2, Slot.free m) ∈ (data (place fit fresh).1).slots := by
      rw [hslots]
      simp
    have := Block.slots_unique hs hfree
    cases this

/-- Unless eight bytes are left over, every record that was there still is. -/
theorem live_old (h : Entered data n entry fit fresh data' n') (hc : Clear data n fresh)
    (he : entry.Valid) (hrows : Rows gaps data n) (hsnug : Snug data entry fit) {b o : Nat}
    {e : DirEntry} (hb : b ∈ n.content data) (hs : (o, Slot.live e) ∈ (data b).slots) :
    b ∈ n'.content data' ∧ (o, Slot.live e) ∈ (data' b).slots := by
  obtain ⟨-, -, hframe, s₁, s₂, hnew, hcase⟩ := h.slots hc he hrows (.inr hsnug)
  refine ⟨by rw [h.content_eq hc]; exact List.mem_append_left _ hb, ?_⟩
  by_cases hne : b = (place fit fresh).1
  · subst hne
    rcases hcase with ⟨-, hnot, -⟩ | ⟨m, s, -, hslots, rfl, hm⟩
    · exact absurd hb hnot
    rw [hslots] at hs
    rw [hnew]
    have htail : (o, Slot.live e) ∈ s →
        (o, Slot.live e) ∈ tailAfter m entry.recordLen (place fit fresh).2 s := by
      intro hs
      unfold tailAfter
      split
      · exact hs
      · rw [if_neg (hm hsnug)]
        exact List.mem_cons_of_mem _ hs
    rcases List.mem_append.mp hs with hs | hs
    · exact List.mem_append_left _ hs
    · rcases List.mem_cons.mp hs with heq | hs
      · cases heq
      · exact List.mem_append_right _ (List.mem_cons_of_mem _ (htail hs))
  · rw [hframe b hb hne]
    exact hs

end Entered

namespace Geom

variable {g : Geom} {t : St} {n : INode} {entry : DirEntry} {fit : Option (Nat × Nat)}
  {fresh : List Nat}

theorem wpa_writeEntry (hm : n.Mapped g t.data) (hr : n.InRange) (he : entry.Valid)
    (hfit : FitOf t.data (n.content t.data) entry fit) (hlen : fresh.length = Needs n fit)
    (hnd : (n.pointers t.data ++ fresh).Nodup) (hlt : ∀ b ∈ fresh, b < g.cap) :
    Prog.wpa g.Rep (FormatV1.writeEntry n entry fit fresh)
      (fun n' t' => ∃ data', t' = { t with data := data' } ∧
        Entered t.data n entry fit fresh data' n' ∧ n'.InRange)
      (fun _ t' => t' = t ∧ fit = none ∧ n.blocks ≥ INode.MAX_BLOCKS)
      (fit = none ∧ n.blocks < INode.MAX_BLOCKS ∧ ¬ n.size + BLOCK_SIZE < U64) t := by
  unfold FormatV1.writeEntry
  refine runs_getFormat.andThen ?_
  match fit with
  | none =>
      match fresh with
      | [] =>
          simp only [Needs, Option.isSome_none, List.length_nil] at hlen
          simp at hlen
          omega
      | blk :: pool =>
          have hpool : pool.length = blocksNecessaryToGrow n := by
            simp only [Needs, Option.isSome_none, List.length_cons, Bool.false_eq_true,
              if_false] at hlen
            omega
          have hcap := g.cap_lt
          have hblk := hlt blk List.mem_cons_self
          have hb32 : blk < 2 ^ 32 := by omega
          have hndp : (n.pointers t.data ++ pool).Nodup :=
            (List.nodup_middle.mp hnd).of_cons
          have hltp : ∀ p ∈ n.pointers t.data ++ pool, p < g.cap := by
            intro p hp
            rcases List.mem_append.mp hp with hp | hp
            · exact hm.pointers p hp
            · exact hlt p (List.mem_cons_of_mem _ hp)
          have hdrop : ((blk :: pool).drop 1).take (blocksNecessaryToGrow n) = pool := by
            rw [List.drop_one, List.tail_cons, ← hpool, List.take_length]
          have hadd := wpa_addBlock (v := t.toView) hb32 (Nat.le_of_eq hpool.symm) hndp hltp
          rw [← hpool, List.take_length] at hadd
          refine Prog.Runs.andThen (Prog.Runs.unwrap rfl) ?_
          have henough : ¬ (blk :: pool).length < 1 + blocksNecessaryToGrow n := by
            rw [List.length_cons]
            omega
          refine Prog.wpa_assert (fun hfew => absurd hfew henough) fun _ => ?_
          rw [hdrop]
          refine Prog.wpa_bind (wpa_onDevice (Prog.wpa_mono hadd ?_ ?_ False.elim))
          · rintro n₁ v₁ ⟨data₁, rfl, hmax, hgrown⟩
            refine (runs_onDevice (runs_addEntryGrow hblk he)).andThen ?_
            refine Prog.wpa_checkedAdd (fun hsize => Prog.wpa_pure ?_) fun hsize => ?_
            · refine ⟨_, rfl, .grow hmax hpool hgrown, ?_⟩
              have hr₁ := hgrown.inRange hr
              exact { hr₁ with size := hsize }
            · rw [hgrown.size] at hsize
              exact ⟨rfl, hmax, hsize⟩
          · rintro e v₁ ⟨rfl, hmax⟩
            exact ⟨rfl, rfl, hmax⟩
  | some (b, off) =>
      have hnil : fresh = [] := by
        simp only [Needs, Option.isSome_some, if_true] at hlen
        exact List.length_eq_zero_iff.mp hlen
      subst hnil
      rcases hfit.cases with ⟨b', hb, off', e, hmem, hf, heq⟩ | ⟨-, heq⟩
      · cases heq
        obtain ⟨hs, heq, -⟩ := Block.recordsFrom_sound hmem
        refine (runs_onDevice (runs_addEntryHere (hm.content b hb) he hs (heq ▸ hf))).andThen ?_
        exact Prog.wpa_pure ⟨_, rfl, .here hb hmem hf, hr⟩
      · cases heq

end Geom

end FerrisFS
