import FerrisFS.V1.Directory
import FerrisFS.V1.Tree

/-!
# The records of a directory block

`Block.records` is the list of records the walk of `iterate` passes, and
`Block.stopAt` the offset where it ends: at the end of the block, or at the first
record that makes it fail. What the callbacks of the handler return is stated in
these terms, for any block.
-/

namespace FerrisFS

open Lib

namespace Block

/-- The record at `off` can be read and stays in the block. -/
def Sound (b : Block) (off : Nat) : Prop :=
  off + 9 ≤ BLOCK_SIZE ∧ (DirEntry.ofBytes b off).recordLen ≠ 0 ∧
    off + (DirEntry.ofBytes b off).recordLen ≤ BLOCK_SIZE

instance (b : Block) (off : Nat) : Decidable (b.Sound off) :=
  inferInstanceAs (Decidable (_ ∧ _ ∧ _))

/-- The records from `off` on, with their offsets, up to the first that is not
sound. -/
def recordsFrom (b : Block) : Nat → Nat → List (Nat × DirEntry)
  | 0, _ => []
  | fuel + 1, off =>
    if b.Sound off then
      (off, DirEntry.ofBytes b off) ::
        recordsFrom b fuel (off + (DirEntry.ofBytes b off).recordLen)
    else []

/-- Where that walk ends. -/
def stopFrom (b : Block) : Nat → Nat → Nat
  | 0, off => off
  | fuel + 1, off =>
    if b.Sound off then stopFrom b fuel (off + (DirEntry.ofBytes b off).recordLen) else off

def records (b : Block) : List (Nat × DirEntry) := b.recordsFrom BLOCK_SIZE 0

def stopAt (b : Block) : Nat := b.stopFrom BLOCK_SIZE 0

/-- The walk reaches the end of the block. -/
def Complete (b : Block) : Prop := b.stopAt = BLOCK_SIZE

variable {b : Block}

theorem recordsFrom_fuel : ∀ {fuel fuel' off : Nat}, BLOCK_SIZE ≤ off + fuel →
    BLOCK_SIZE ≤ off + fuel' → b.recordsFrom fuel off = b.recordsFrom fuel' off := by
  intro fuel
  induction fuel with
  | zero =>
      intro fuel' off h _
      have hns : ¬ b.Sound off := fun hs => by
        have := hs.1
        omega
      cases fuel' <;> simp [recordsFrom, hns]
  | succ fuel ih =>
      intro fuel' off h h'
      by_cases hs : b.Sound off
      · cases fuel' with
        | zero =>
            have := hs.1
            omega
        | succ fuel' =>
            have hpos := hs.2.1
            simp only [recordsFrom, hs, if_true]
            rw [@ih fuel' _ (by omega) (by omega)]
      · cases fuel' <;> simp [recordsFrom, hs]

theorem stopFrom_fuel : ∀ {fuel fuel' off : Nat}, BLOCK_SIZE ≤ off + fuel →
    BLOCK_SIZE ≤ off + fuel' → b.stopFrom fuel off = b.stopFrom fuel' off := by
  intro fuel
  induction fuel with
  | zero =>
      intro fuel' off h _
      have hns : ¬ b.Sound off := fun hs => by
        have := hs.1
        omega
      cases fuel' <;> simp [stopFrom, hns]
  | succ fuel ih =>
      intro fuel' off h h'
      by_cases hs : b.Sound off
      · cases fuel' with
        | zero =>
            have := hs.1
            omega
        | succ fuel' =>
            have hpos := hs.2.1
            simp only [stopFrom, hs, if_true]
            rw [@ih fuel' _ (by omega) (by omega)]
      · cases fuel' <;> simp [stopFrom, hs]

theorem recordsFrom_sound : ∀ {fuel off o : Nat} {e : DirEntry}, (o, e) ∈ b.recordsFrom fuel off →
    b.Sound o ∧ e = DirEntry.ofBytes b o ∧ off ≤ o := by
  intro fuel
  induction fuel with
  | zero => intro off o e h; simp [recordsFrom] at h
  | succ fuel ih =>
      intro off o e h
      by_cases hs : b.Sound off
      · simp only [recordsFrom, hs, if_true, List.mem_cons, Prod.mk.injEq] at h
        rcases h with ⟨rfl, rfl⟩ | h
        · exact ⟨hs, rfl, Nat.le_refl _⟩
        · obtain ⟨h1, h2, h3⟩ := ih h
          exact ⟨h1, h2, by omega⟩
      · simp [recordsFrom, hs] at h

end Block

namespace DirectoryHandler

variable {α σ : Type}

/-! ## Folding a callback over the records -/

/-- The callback over a list of records: the result and whether it stopped, or a
panic. -/
def foldRecords (callback : Callback α) (block : Nat) :
    List (Nat × DirEntry) → α → Option (α × Bool)
  | [], acc => some (acc, false)
  | (off, e) :: rest, acc =>
    match callback e block off acc with
    | none => none
    | some (acc, true) => some (acc, true)
    | some (acc, false) => foldRecords callback block rest acc

theorem wp_deserialize {buf : Block} {off : Nat} {f : DirEntry → Prog FSError σ α}
    {Q : α → σ → Prop} {E : FSError → σ → Prop} {s : σ}
    (h : off + 9 ≤ BLOCK_SIZE → Prog.wp (f (DirEntry.ofBytes buf off)) Q E s) :
    Prog.wp (DirEntry.deserialize buf off >>= f) Q E s :=
  Prog.wp_bind.mpr (Prog.wp_ite h fun _ => trivial)

/-- A walk over one block that returns has folded the callback over the block's
records; if nothing stopped it, it has seen all of them. -/
theorem wp_iterateBlock {callback : Callback α} {buf : Block} {block : Nat} {s : σ} :
    ∀ {fuel off : Nat} {acc : α}, BLOCK_SIZE ≤ off + fuel → off ≤ BLOCK_SIZE →
      Prog.wp (iterateBlock callback buf block fuel off acc)
        (fun r s' => s' = s ∧
          foldRecords callback block (buf.recordsFrom fuel off) acc = some r ∧
          (r.2 = false → buf.stopFrom fuel off = BLOCK_SIZE))
        (fun _ s' => s' = s) s := by
  intro fuel
  induction fuel with
  | zero =>
      intro off acc hf hle
      exact ⟨rfl, rfl, fun _ => by simp only [Block.stopFrom]; omega⟩
  | succ fuel ih =>
      intro off acc hf hle
      refine Prog.wp_ite ?_ ?_
      · intro hlt
        refine wp_deserialize fun h9 => ?_
        refine Prog.wp_bind.mpr (Prog.wp_unwrap fun res hcb => ?_)
        obtain ⟨acc', stop⟩ := res
        refine Prog.wp_guard (fun _ => rfl) fun hover => ?_
        refine Prog.wp_guard (fun _ => rfl) fun hzero => ?_
        have hs : buf.Sound off := ⟨h9, hzero, by omega⟩
        simp only [Block.recordsFrom, Block.stopFrom, hs, if_true, foldRecords, hcb]
        refine Prog.wp_ite ?_ ?_
        · rintro rfl
          exact ⟨rfl, rfl, fun h => by cases h⟩
        · intro hstop
          rw [Bool.not_eq_true] at hstop
          subst hstop
          exact ih (by omega) (by omega)
      · intro hlt
        have hns : ¬ buf.Sound off := fun hs => hlt (by have := hs.1; omega)
        simp only [Block.recordsFrom, Block.stopFrom, hns, if_false]
        exact ⟨rfl, rfl, fun _ => by omega⟩

/-- A walk that nothing stops, or that is stopped before it fails, returns. -/
theorem iterateBlock_of_fold {callback : Callback α} {buf : Block} {block : Nat} {s : σ}
    {r : α × Bool} : ∀ {fuel off : Nat} {acc : α},
      foldRecords callback block (buf.recordsFrom fuel off) acc = some r →
      (r.2 = false → buf.stopFrom fuel off = BLOCK_SIZE) →
      iterateBlock callback buf block fuel off acc s = .ok r s := by
  intro fuel
  induction fuel with
  | zero =>
      intro off acc hfold _
      cases hfold
      rfl
  | succ fuel ih =>
      intro off acc hfold hstop
      by_cases hs : buf.Sound off
      · have hlt : off < BLOCK_SIZE := by
          have := hs.1
          omega
        simp only [Block.recordsFrom, Block.stopFrom, hs, if_true, foldRecords] at hfold hstop
        refine (congrFun (if_pos hlt) s).trans ?_
        have hparse : (DirEntry.deserialize buf off : Prog FSError σ DirEntry) s =
            .ok (DirEntry.ofBytes buf off) s := congrFun (if_pos hs.1) s
        refine (Prog.bind_of_ok hparse _).trans ?_
        cases hcb : callback (DirEntry.ofBytes buf off) block off acc with
        | none =>
            rw [hcb] at hfold
            cases hfold
        | some res =>
            obtain ⟨acc', stop⟩ := res
            rw [hcb] at hfold
            refine (Prog.bind_of_ok (rfl : (Prog.unwrap (some (acc', stop)) :
              Prog FSError σ (α × Bool)) s = .ok (acc', stop) s) _).trans ?_
            refine (congrFun (if_neg (Nat.not_lt.mpr hs.2.2)) s).trans ?_
            refine (congrFun (if_neg hs.2.1) s).trans ?_
            cases stop with
            | true =>
                cases hfold
                rfl
            | false => exact ih hfold hstop
      · simp only [Block.recordsFrom, Block.stopFrom, hs, if_false] at hfold hstop
        cases hfold
        have hend : ¬ off < BLOCK_SIZE := by
          have := hstop rfl
          omega
        exact congrFun (if_neg hend) s

/-- The callback over the records of several blocks. -/
def foldBlocks (callback : Callback α) (data : Region) : List Nat → α → Option (α × Bool)
  | [], acc => some (acc, false)
  | b :: bs, acc =>
    match foldRecords callback b (data b).records acc with
    | none => none
    | some (acc, true) => some (acc, true)
    | some (acc, false) => foldBlocks callback data bs acc

end DirectoryHandler

/-- The blocks of the inode are on the device. -/
structure INode.Mapped (g : Geom) (data : Region) (n : INode) : Prop where
  blocks_le : n.blocks ≤ INode.MAX_BLOCKS
  lt : ∀ b ∈ n.owned data, b < g.cap

theorem INode.Mapped.pointers {g : Geom} {data : Region} {n : INode} (h : n.Mapped g data) :
    ∀ p ∈ n.pointers data, p < g.cap := fun p hp => h.lt p (List.mem_append_right _ hp)

theorem INode.Mapped.content {g : Geom} {data : Region} {n : INode} (h : n.Mapped g data) :
    ∀ p ∈ n.content data, p < g.cap := fun p hp => h.lt p (List.mem_append_left _ hp)

namespace Geom

open DirectoryHandler

/-- The handler of this layout's directories. -/
def directoryHandler (g : Geom) : DirectoryHandler := ⟨g.dataStart, 0⟩

variable {g : Geom} {v : View} {n : INode} {α : Type}

/-- `iterate` returns the fold of its callback; if nothing stopped it, every block
was walked to its end. -/
theorem wpr_iterateBlocks {callback : Callback α} (hm : n.Mapped g v.data) :
    ∀ (is : List Nat) (acc : α), (∀ i ∈ is, i < n.blocks) →
      Prog.wpr g.Holds (g.directoryHandler.iterateBlocks n g.inodeHandler callback is acc)
        (fun acc' v' => v' = v ∧ ∃ stop,
          foldBlocks callback v.data (is.map (n.blockAt v.data)) acc = some (acc', stop) ∧
          (stop = false → ∀ i ∈ is, (v.data (n.blockAt v.data i)).Complete))
        (fun _ v' => v' = v) v := by
  intro is
  induction is with
  | nil =>
      intro acc _
      exact Prog.wpr_pure ⟨rfl, false, rfl, fun _ i hi => absurd hi List.not_mem_nil⟩
  | cons i is ih =>
      intro acc his
      have hi := his i List.mem_cons_self
      have hb := hm.content _ (INode.blockAt_mem_content hi)
      refine (runs_getBlock hi hm.blocks_le hm.pointers).seq ?_
      refine (Prog.Runs.checkedAdd (by rw [Nat.add_comm]; exact ptr_small hb)).seq ?_
      rw [Nat.add_comm]
      refine (runs_readData hb).seq ?_
      refine Prog.wpr_seq (P := fun r v' => v' = v ∧
          foldRecords callback (n.blockAt v.data i) (v.data (n.blockAt v.data i)).records acc =
            some r ∧ (r.2 = false → (v.data (n.blockAt v.data i)).Complete))
        (F := fun _ v' => v' = v) ?_ ?_ (fun _ _ h => h)
      · intro d hd
        refine Prog.wp_mono (wp_iterateBlock (Nat.le_add_left _ _) (Nat.zero_le _)) ?_ ?_
        · rintro r _ ⟨rfl, hfold, hstop⟩
          exact ⟨v, hd, rfl, hfold, hstop⟩
        · rintro e _ rfl
          exact ⟨v, hd, rfl⟩
      rintro ⟨acc', stop⟩ _ ⟨rfl, hfold, hcomplete⟩
      simp only [List.map_cons, foldBlocks, hfold]
      refine Prog.wpr_ite ?_ ?_
      · rintro rfl
        exact Prog.wpr_pure ⟨rfl, true, rfl, fun h => by cases h⟩
      · intro hstop
        rw [Bool.not_eq_true] at hstop
        subst hstop
        refine Prog.wpr_mono (ih acc' fun k hk => his k (List.mem_cons_of_mem _ hk)) ?_
          (fun _ _ h => h)
        rintro acc'' _ ⟨rfl, stop, hrest, hall⟩
        refine ⟨rfl, stop, hrest, fun hs k hk => ?_⟩
        rcases List.mem_cons.mp hk with rfl | hk
        · exact hcomplete rfl
        · exact hall hs k hk

theorem wpr_iterate {callback : Callback α} {acc : α} (hm : n.Mapped g v.data) :
    Prog.wpr g.Holds (g.directoryHandler.iterate n g.inodeHandler callback acc)
      (fun acc' v' => v' = v ∧ ∃ stop,
        foldBlocks callback v.data (n.content v.data) acc = some (acc', stop) ∧
        (stop = false → ∀ b ∈ n.content v.data, (v.data b).Complete))
      (fun _ v' => v' = v) v := by
  refine Prog.wpr_mono (wpr_iterateBlocks hm (List.range n.blocks) acc
    fun i hi => List.mem_range.mp hi) ?_ (fun _ _ h => h)
  rintro acc' _ ⟨rfl, stop, hfold, hall⟩
  refine ⟨rfl, stop, hfold, fun hs b hb => ?_⟩
  obtain ⟨i, hi, rfl⟩ := INode.mem_content.mp hb
  exact hall hs i (List.mem_range.mpr hi)

theorem runs_iterateBlocks {callback : Callback α} (hm : n.Mapped g v.data) {r : α × Bool} :
    ∀ (is : List Nat) (acc : α), (∀ i ∈ is, i < n.blocks) →
      (∀ i ∈ is, (v.data (n.blockAt v.data i)).Complete) →
      foldBlocks callback v.data (is.map (n.blockAt v.data)) acc = some r →
      Prog.Runs g.Holds (g.directoryHandler.iterateBlocks n g.inodeHandler callback is acc) v
        r.1 v := by
  intro is
  induction is with
  | nil =>
      intro acc _ _ hfold
      cases hfold
      exact Prog.Runs.pure _ _
  | cons i is ih =>
      intro acc his hall hfold
      have hi := his i List.mem_cons_self
      have hb := hm.content _ (INode.blockAt_mem_content hi)
      refine (runs_getBlock hi hm.blocks_le hm.pointers).bind ?_
      refine (Prog.Runs.checkedAdd (by rw [Nat.add_comm]; exact ptr_small hb)).bind ?_
      rw [Nat.add_comm]
      refine (runs_readData hb).bind ?_
      rw [List.map_cons, foldBlocks] at hfold
      cases hrec : foldRecords callback (n.blockAt v.data i)
          (v.data (n.blockAt v.data i)).records acc with
      | none =>
          rw [hrec] at hfold
          cases hfold
      | some res =>
          obtain ⟨acc', stop⟩ := res
          rw [hrec] at hfold
          have hblock : Prog.Runs g.Holds (iterateBlock callback (v.data (n.blockAt v.data i))
              (n.blockAt v.data i) BLOCK_SIZE 0 acc) v (acc', stop) v := fun d hd =>
            ⟨d, iterateBlock_of_fold hrec fun _ => hall i List.mem_cons_self, hd⟩
          refine hblock.bind ?_
          cases stop with
          | true =>
              cases hfold
              exact Prog.Runs.pure _ _
          | false =>
              exact ih acc' (fun k hk => his k (List.mem_cons_of_mem _ hk))
                (fun k hk => hall k (List.mem_cons_of_mem _ hk)) hfold

/-- `iterate` over blocks that can be walked to their ends. -/
theorem runs_iterate {callback : Callback α} {acc : α} {r : α × Bool} (hm : n.Mapped g v.data)
    (hall : ∀ b ∈ n.content v.data, (v.data b).Complete)
    (hfold : foldBlocks callback v.data (n.content v.data) acc = some r) :
    Prog.Runs g.Holds (g.directoryHandler.iterate n g.inodeHandler callback acc) v r.1 v :=
  runs_iterateBlocks hm (List.range n.blocks) acc (fun _ hi => List.mem_range.mp hi)
    (fun _ hi => hall _ (INode.blockAt_mem_content (List.mem_range.mp hi))) hfold

end Geom

/-! ## The callbacks -/

namespace DirectoryHandler

variable {α : Type} {data : Region}

/-- A callback that only ever changes its result when it stops: the fold ends at
the first record it accepts, or has seen all of them. -/
theorem foldRecords_find {callback : Callback (Option α)} {hit : DirEntry → Prop}
    {block : Nat} {val : DirEntry → Nat → α}
    (hcb : ∀ e off r, callback e block off none = some r →
      (hit e ∧ r = (some (val e off), true)) ∨ (¬ hit e ∧ r = (none, false))) :
    ∀ {l : List (Nat × DirEntry)} {r : Option α × Bool},
      foldRecords callback block l none = some r →
      (∃ off e, (off, e) ∈ l ∧ hit e ∧ r = (some (val e off), true)) ∨
        ((∀ x ∈ l, ¬ hit x.2) ∧ r = (none, false)) := by
  intro l
  induction l with
  | nil =>
      intro r h
      cases h
      exact .inr ⟨fun x hx => absurd hx List.not_mem_nil, rfl⟩
  | cons x l ih =>
      intro r h
      obtain ⟨off, e⟩ := x
      simp only [foldRecords] at h
      cases hc : callback e block off none with
      | none =>
          rw [hc] at h
          cases h
      | some q =>
          rw [hc] at h
          rcases hcb e off q hc with ⟨hhit, rfl⟩ | ⟨hmiss, rfl⟩
          · cases h
            exact .inl ⟨off, e, List.mem_cons_self, hhit, rfl⟩
          · rcases ih h with ⟨o, e', hmem, hhit, hr⟩ | ⟨hall, hr⟩
            · exact .inl ⟨o, e', List.mem_cons_of_mem _ hmem, hhit, hr⟩
            · refine .inr ⟨fun y hy => ?_, hr⟩
              rcases List.mem_cons.mp hy with rfl | hy
              · exact hmiss
              · exact hall y hy

theorem foldBlocks_find {callback : Callback (Option α)} {hit : DirEntry → Prop}
    {val : DirEntry → Nat → Nat → α}
    (hcb : ∀ e block off r, callback e block off none = some r →
      (hit e ∧ r = (some (val e block off), true)) ∨ (¬ hit e ∧ r = (none, false))) :
    ∀ {bs : List Nat} {r : Option α × Bool}, foldBlocks callback data bs none = some r →
      (∃ b ∈ bs, ∃ off e, (off, e) ∈ (data b).records ∧ hit e ∧ r = (some (val e b off), true)) ∨
        ((∀ b ∈ bs, ∀ x ∈ (data b).records, ¬ hit x.2) ∧ r = (none, false)) := by
  intro bs
  induction bs with
  | nil =>
      intro r h
      cases h
      exact .inr ⟨fun b hb => absurd hb List.not_mem_nil, rfl⟩
  | cons b bs ih =>
      intro r h
      simp only [foldBlocks] at h
      cases hc : foldRecords callback b (data b).records none with
      | none =>
          rw [hc] at h
          cases h
      | some q =>
          rw [hc] at h
          rcases foldRecords_find
              (fun e off r hr => hcb e b off r hr) hc with
            ⟨off, e, hmem, hhit, rfl⟩ | ⟨hall, rfl⟩
          · cases h
            exact .inl ⟨b, List.mem_cons_self, off, e, hmem, hhit, rfl⟩
          · rcases ih h with ⟨b', hb', o, e', hmem, hhit, hr⟩ | ⟨hall', hr⟩
            · exact .inl ⟨b', List.mem_cons_of_mem _ hb', o, e', hmem, hhit, hr⟩
            · refine .inr ⟨fun k hk => ?_, hr⟩
              rcases List.mem_cons.mp hk with rfl | hk
              · exact hall
              · exact hall' k hk

/-- A record that `find_entry` looks for. -/
def Named (name : List UInt8) (e : DirEntry) : Prop :=
  e.isFree = false ∧ e.nameLen ≤ DirEntry.MAX_NAME ∧ e.name.take e.nameLen = name

theorem findCallback_cases {name : List UInt8} {e : DirEntry} {block off : Nat}
    {r : Option (DirEntry × Nat × Nat) × Bool}
    (h : findCallback name e block off none = some r) :
    (Named name e ∧ r = (some (e, block, off), true)) ∨
      (¬ Named name e ∧ r = (none, false)) := by
  unfold findCallback at h
  by_cases hfree : e.isFree = true
  · simp only [hfree, if_true] at h
    cases h
    exact .inr ⟨fun hn => by simp [hn.1] at hfree, rfl⟩
  by_cases hlen : e.nameLen > DirEntry.MAX_NAME
  · simp [hfree, hlen] at h
  by_cases hname : e.name.take e.nameLen = name
  · simp only [hfree, hlen, hname, if_true] at h
    cases h
    exact .inl ⟨⟨by simpa using hfree, by omega, hname⟩, rfl⟩
  · simp only [hfree, hlen, hname, if_false] at h
    cases h
    exact .inr ⟨fun hn => hname hn.2.2, rfl⟩

/-- A free region that takes the entry. -/
def Fits (toInsert e : DirEntry) : Prop :=
  e.isFree = true ∧ (e.recordLen ≥ toInsert.recordLen + DirEntry.minFreeSize ∨
    e.recordLen = toInsert.recordLen)

instance (toInsert e : DirEntry) : Decidable (Fits toInsert e) :=
  inferInstanceAs (Decidable (_ ∧ _))

theorem fitCallback_cases {toInsert e : DirEntry} {block off : Nat}
    {r : Option (Nat × Nat) × Bool} (h : fitCallback toInsert e block off none = some r) :
    (Fits toInsert e ∧ r = (some (block, off), true)) ∨
      (¬ Fits toInsert e ∧ r = (none, false)) := by
  unfold fitCallback at h
  by_cases hfree : e.isFree = true
  · rw [if_pos hfree] at h
    split at h
    · by_cases hroom : e.recordLen ≥ toInsert.recordLen + DirEntry.minFreeSize ∨
        e.recordLen = toInsert.recordLen
      · rw [if_pos hroom] at h
        cases h
        exact .inl ⟨⟨hfree, hroom⟩, rfl⟩
      · rw [if_neg hroom] at h
        cases h
        exact .inr ⟨fun hfit => hroom hfit.2, rfl⟩
    · cases h
  · rw [if_neg hfree] at h
    cases h
    exact .inr ⟨fun hfit => hfree hfit.1, rfl⟩

/-- A record that is small enough is compared with the regions. -/
theorem fitCallback_eq {toInsert e : DirEntry} {block off : Nat} {r : Option (Nat × Nat)}
    (hlen : toInsert.recordLen + DirEntry.minFreeSize < U16) : fitCallback toInsert e block off r =
      if Fits toInsert e then some (some (block, off), true) else some (r, false) := by
  by_cases hfree : e.isFree = true
  · simp only [fitCallback, Fits, if_pos hlen, hfree, if_true, true_and]
  · rw [fitCallback, if_neg hfree, if_neg fun hfit : Fits toInsert e => hfree hfit.1]

end DirectoryHandler

namespace Geom

open DirectoryHandler

variable {g : Geom} {v : View} {n : INode}

theorem wpr_findEntry {name : List UInt8} (hm : n.Mapped g v.data) :
    Prog.wpr g.Holds (g.directoryHandler.findEntry n g.inodeHandler name)
      (fun r v' => v' = v ∧
        ((∃ b ∈ n.content v.data, ∃ off e, (off, e) ∈ (v.data b).records ∧ Named name e ∧
            r = some (e, b, off)) ∨
          ((∀ b ∈ n.content v.data, (v.data b).Complete ∧
            ∀ x ∈ (v.data b).records, ¬ Named name x.2) ∧ r = none)))
      (fun _ v' => v' = v) v := by
  refine Prog.wpr_mono (wpr_iterate hm) ?_ (fun _ _ h => h)
  rintro r _ ⟨rfl, stop, hfold, hall⟩
  refine ⟨rfl, ?_⟩
  rcases foldBlocks_find
      (fun e block off q hq => findCallback_cases hq) hfold with
    ⟨b, hb, off, e, hmem, hhit, hr⟩ | ⟨hnone, hr⟩
  · cases hr
    exact .inl ⟨b, hb, off, e, hmem, hhit, rfl⟩
  · cases hr
    exact .inr ⟨fun b hb => ⟨hall rfl b hb, hnone b hb⟩, rfl⟩

/-- `fit` is what `can_fit` finds for the entry in the blocks `bs`. -/
def FitOf (data : Region) (bs : List Nat) (entry : DirEntry) (fit : Option (Nat × Nat)) : Prop :=
  ∃ stop, foldBlocks (fitCallback entry) data bs none = some (fit, stop)

theorem FitOf.cases {data : Region} {bs : List Nat} {entry : DirEntry}
    {fit : Option (Nat × Nat)} (h : FitOf data bs entry fit) :
    (∃ b ∈ bs, ∃ off e, (off, e) ∈ (data b).records ∧ Fits entry e ∧ fit = some (b, off)) ∨
      ((∀ b ∈ bs, ∀ x ∈ (data b).records, ¬ Fits entry x.2) ∧ fit = none) := by
  obtain ⟨stop, hfold⟩ := h
  rcases foldBlocks_find
      (fun e block off q hq => fitCallback_cases hq) hfold with
    ⟨b, hb, off, e, hmem, hhit, hr⟩ | ⟨hnone, hr⟩
  · cases hr
    exact .inl ⟨b, hb, off, e, hmem, hhit, rfl⟩
  · cases hr
    exact .inr ⟨hnone, rfl⟩

theorem FitOf.unique {data : Region} {bs : List Nat} {entry : DirEntry}
    {fit fit' : Option (Nat × Nat)} (h : FitOf data bs entry fit)
    (h' : FitOf data bs entry fit') : fit = fit' := by
  obtain ⟨stop, hfold⟩ := h
  obtain ⟨stop', hfold'⟩ := h'
  rw [hfold] at hfold'
  cases hfold'
  rfl

theorem wpr_canFit {entry : DirEntry} (hm : n.Mapped g v.data) :
    Prog.wpr g.Holds (g.directoryHandler.canFit n g.inodeHandler entry)
      (fun fit v' => v' = v ∧ FitOf v.data (n.content v.data) entry fit)
      (fun _ v' => v' = v) v := by
  refine Prog.wpr_mono (wpr_iterate hm) ?_ (fun _ _ h => h)
  rintro r _ ⟨rfl, stop, hfold, -⟩
  exact ⟨rfl, stop, hfold⟩

/-- A callback that answers for all records. -/
theorem foldRecords_total {α : Type} {callback : Callback α} {block : Nat} :
    ∀ {l : List (Nat × DirEntry)} {acc : α},
      (∀ x ∈ l, ∀ acc, ∃ r, callback x.2 block x.1 acc = some r) →
      ∃ r, foldRecords callback block l acc = some r := by
  intro l
  induction l with
  | nil => exact fun _ => ⟨_, rfl⟩
  | cons x l ih =>
      intro acc hcb
      obtain ⟨⟨acc', stop⟩, hr⟩ := hcb x List.mem_cons_self acc
      simp only [foldRecords, hr]
      cases stop with
      | true => exact ⟨_, rfl⟩
      | false => exact ih fun y hy => hcb y (List.mem_cons_of_mem _ hy)

theorem foldBlocks_total {α : Type} {callback : Callback α} {data : Region} :
    ∀ {bs : List Nat} {acc : α},
      (∀ b ∈ bs, ∀ x ∈ (data b).records, ∀ acc, ∃ r, callback x.2 b x.1 acc = some r) →
      ∃ r, foldBlocks callback data bs acc = some r := by
  intro bs
  induction bs with
  | nil => exact fun _ => ⟨_, rfl⟩
  | cons b bs ih =>
      intro acc hcb
      obtain ⟨⟨acc', stop⟩, hr⟩ :=
        @foldRecords_total _ callback b _ acc (hcb b List.mem_cons_self)
      simp only [foldBlocks, hr]
      cases stop with
      | true => exact ⟨_, rfl⟩
      | false => exact ih fun b' hb' => hcb b' (List.mem_cons_of_mem _ hb')

end Geom

/-- The directory can be read: its blocks are walked to their ends, and no name is longer
than its array. -/
structure INode.Walks (data : Region) (n : INode) : Prop where
  complete : ∀ b ∈ n.content data, (data b).Complete
  named : ∀ b ∈ n.content data, ∀ x ∈ (data b).records, x.2.isFree = false →
    x.2.nameLen ≤ DirEntry.MAX_NAME

namespace Geom

open DirectoryHandler

variable {g : Geom} {v : View} {n : INode}

theorem runs_findEntry {name : List UInt8} (hm : n.Mapped g v.data) (hw : n.Walks v.data) :
    ∃ r, Prog.Runs g.Holds (g.directoryHandler.findEntry n g.inodeHandler name) v r v ∧
      ((∃ b ∈ n.content v.data, ∃ off e, (off, e) ∈ (v.data b).records ∧ Named name e ∧
          r = some (e, b, off)) ∨
        (∀ b ∈ n.content v.data, ∀ x ∈ (v.data b).records, ¬ Named name x.2) ∧ r = none) := by
  obtain ⟨⟨r, stop⟩, hfold⟩ := @foldBlocks_total _ (findCallback name) v.data
    (n.content v.data) none (by
      intro b hb x hx acc
      unfold findCallback
      by_cases hfree : x.2.isFree = true
      · exact ⟨_, if_pos hfree⟩
      · have hle := hw.named b hb x hx (by simpa using hfree)
        rw [if_neg hfree, if_neg (Nat.not_lt.mpr hle)]
        split
        · exact ⟨_, rfl⟩
        · exact ⟨_, rfl⟩)
  refine ⟨r, runs_iterate hm hw.complete hfold, ?_⟩
  rcases foldBlocks_find (fun e block off q hq => findCallback_cases hq) hfold with
    ⟨b, hb, off, e, hmem, hhit, hr⟩ | ⟨hnone, hr⟩
  · cases hr
    exact .inl ⟨b, hb, off, e, hmem, hhit, rfl⟩
  · cases hr
    exact .inr ⟨hnone, rfl⟩

theorem runs_canFit {entry : DirEntry} (hlen : entry.recordLen + DirEntry.minFreeSize < U16)
    (hm : n.Mapped g v.data) (hw : n.Walks v.data) :
    ∃ fit, Prog.Runs g.Holds (g.directoryHandler.canFit n g.inodeHandler entry) v fit v ∧
      FitOf v.data (n.content v.data) entry fit := by
  obtain ⟨⟨fit, stop⟩, hfold⟩ := @foldBlocks_total _ (fitCallback entry) v.data
    (n.content v.data) none (by
      intro b hb x hx acc
      rw [fitCallback_eq hlen]
      split
      · exact ⟨_, rfl⟩
      · exact ⟨_, rfl⟩)
  exact ⟨fit, runs_iterate hm hw.complete hfold, stop, hfold⟩

end Geom

namespace Geom

open DirectoryHandler

variable {g : Geom} {v : View} {n : INode}

/-- Only a search that cannot walk its directory fails or panics. -/
theorem wpa_findEntry {name : List UInt8} (hm : n.Mapped g v.data)
    {Q : Option (DirEntry × Nat × Nat) → View → Prop} {E : FSError → View → Prop}
    (h : Prog.wpr g.Holds (g.directoryHandler.findEntry n g.inodeHandler name) Q E v) :
    Prog.wpa g.Holds (g.directoryHandler.findEntry n g.inodeHandler name) Q
      (fun e v' => E e v' ∧ ¬ n.Walks v.data) (¬ n.Walks v.data) v := by
  by_cases hw : n.Walks v.data
  · obtain ⟨r, hrun, -⟩ := @runs_findEntry g v n name hm hw
    exact hrun.wpa_of_wpr h
  · exact Prog.wpa_of_wpr (Prog.wpr_mono h (fun _ _ hq => hq) fun _ _ he => ⟨he, hw⟩) hw

theorem wpa_canFit {entry : DirEntry} (hlen : entry.recordLen + DirEntry.minFreeSize < U16)
    (hm : n.Mapped g v.data)
    {Q : Option (Nat × Nat) → View → Prop} {E : FSError → View → Prop}
    (h : Prog.wpr g.Holds (g.directoryHandler.canFit n g.inodeHandler entry) Q E v) :
    Prog.wpa g.Holds (g.directoryHandler.canFit n g.inodeHandler entry) Q
      (fun e v' => E e v' ∧ ¬ n.Walks v.data) (¬ n.Walks v.data) v := by
  by_cases hw : n.Walks v.data
  · obtain ⟨r, hrun, -⟩ := @runs_canFit g v n entry hlen hm hw
    exact hrun.wpa_of_wpr h
  · exact Prog.wpa_of_wpr (Prog.wpr_mono h (fun _ _ hq => hq) fun _ _ he => ⟨he, hw⟩) hw

end Geom

/-- The records of a block that are not free. -/
def Block.entries (b : Block) : List DirEntry :=
  (b.records.map Prod.snd).filter fun e => !e.isFree

/-- The records of a directory. -/
def INode.entries (data : Region) (n : INode) : List DirEntry :=
  (n.content data).flatMap fun b => (data b).entries

namespace Geom

open DirectoryHandler

variable {g : Geom} {v : View} {n : INode}

theorem foldRecords_entries {block : Nat} : ∀ {l : List (Nat × DirEntry)} {acc : List DirEntry},
    foldRecords (fun entry _ _ res => if !entry.isFree then some (res ++ [entry], false)
      else some (res, false)) block l acc =
      some (acc ++ (l.map Prod.snd).filter fun e => !e.isFree, false) := by
  intro l
  induction l with
  | nil =>
      intro acc
      rw [List.map_nil, List.filter_nil, List.append_nil]
      rfl
  | cons x l ih =>
      intro acc
      by_cases hfree : (!x.2.isFree) = true
      · simp only [foldRecords, List.map_cons, List.filter_cons, if_pos hfree]
        rw [ih, List.append_assoc]
        rfl
      · simp only [foldRecords, List.map_cons, List.filter_cons, if_neg hfree]
        exact ih

theorem foldBlocks_entries {data : Region} : ∀ {bs : List Nat} {acc : List DirEntry},
    foldBlocks (fun entry _ _ res => if !entry.isFree then some (res ++ [entry], false)
      else some (res, false)) data bs acc =
      some (acc ++ bs.flatMap fun b => (data b).entries, false) := by
  intro bs
  induction bs with
  | nil =>
      intro acc
      rw [List.flatMap_nil, List.append_nil]
      rfl
  | cons b bs ih =>
      intro acc
      simp only [foldBlocks, foldRecords_entries, List.flatMap_cons]
      rw [ih, List.append_assoc]
      rfl

/-- `get_entries` returns all records that are not free, if the directory can be walked. -/
theorem runs_getEntries (hm : n.Mapped g v.data)
    (hall : ∀ b ∈ n.content v.data, (v.data b).Complete) :
    Prog.Runs g.Holds (g.directoryHandler.getEntries n g.inodeHandler false) v
      (n.entries v.data) v :=
  runs_iterate hm hall (r := (n.entries v.data, false))
    (foldBlocks_entries.trans (by rw [List.nil_append]; rfl))

theorem wpr_getEntries (hm : n.Mapped g v.data) :
    Prog.wpr g.Holds (g.directoryHandler.getEntries n g.inodeHandler false)
      (fun _ _ => ∀ b ∈ n.content v.data, (v.data b).Complete) (fun _ _ => True) v := by
  refine Prog.wpr_mono (wpr_iterate hm) ?_ fun _ _ _ => trivial
  intro l v' h
  obtain ⟨rfl, stop, hfold, hall⟩ := h
  have hstop : stop = false := by
    have heq := hfold.symm.trans (@foldBlocks_entries v'.data _ [])
    cases heq
    rfl
  exact hall hstop

end Geom

end FerrisFS
