import FerrisFS.V1.Observe

/-!
# The grammar of a directory

A directory block is a sequence of records, each with its own length, that fills the block
exactly. `Block.Splits` is that grammar; it asks of a record only that its inode number and
its length lie in the block. `iterate` reads nine bytes of every record it comes to, and
`find_entry` takes as many bytes of its name array as the record says: `visits` lists the
places they come to, and the walk ends without a panic iff every one of them can be read.
-/

namespace FerrisFS

open Lib DirectoryHandler

namespace Block

/-- The bytes from an offset on split into records: each has its inode number and its
length in the block, no length is zero, and the last record ends with the block. -/
inductive Splits (b : Block) : Nat → List (Nat × DirEntry) → Prop where
  | done : Splits b BLOCK_SIZE []
  | record {off : Nat} {l : List (Nat × DirEntry)} (hhead : off + 6 ≤ BLOCK_SIZE)
      (hlen : (DirEntry.ofBytes b off).recordLen ≠ 0)
      (hrest : Splits b (off + (DirEntry.ofBytes b off).recordLen) l) :
      Splits b off ((off, DirEntry.ofBytes b off) :: l)

/-- The offsets that a walk from `off` comes to, when it stops at the records that `stop`
accepts: it goes on from a record only if that is sound. -/
def visitedFrom (b : Block) (stop : DirEntry → Bool) : Nat → Nat → List Nat
  | 0, _ => []
  | fuel + 1, off =>
    if off < BLOCK_SIZE then
      off :: (if b.Sound off ∧ stop (DirEntry.ofBytes b off) = false then
        visitedFrom b stop fuel (off + (DirEntry.ofBytes b off).recordLen) else [])
    else []

def visited (b : Block) (stop : DirEntry → Bool) : List Nat := b.visitedFrom stop BLOCK_SIZE 0

/-- The walk from `off` reaches the end of the block, and nothing stops it. -/
def PassedFrom (b : Block) (stop : DirEntry → Bool) (fuel off : Nat) : Prop :=
  b.stopFrom fuel off = BLOCK_SIZE ∧ ∀ x ∈ b.recordsFrom fuel off, stop x.2 = false

instance (b : Block) (stop : DirEntry → Bool) (fuel off : Nat) :
    Decidable (b.PassedFrom stop fuel off) :=
  inferInstanceAs (Decidable (_ ∧ _))

def Passed (b : Block) (stop : DirEntry → Bool) : Prop := b.PassedFrom stop BLOCK_SIZE 0

instance (b : Block) (stop : DirEntry → Bool) : Decidable (b.Passed stop) :=
  inferInstanceAs (Decidable (b.PassedFrom stop BLOCK_SIZE 0))

variable {b : Block} {stop : DirEntry → Bool}

theorem passedFrom_sound {fuel off : Nat} (hs : b.Sound off) :
    b.PassedFrom stop (fuel + 1) off ↔ stop (DirEntry.ofBytes b off) = false ∧
      b.PassedFrom stop fuel (off + (DirEntry.ofBytes b off).recordLen) := by
  simp only [PassedFrom, stopFrom, recordsFrom, hs, if_true, List.forall_mem_cons]
  exact and_left_comm

theorem passedFrom_unsound {fuel off : Nat} (hs : ¬ b.Sound off) :
    b.PassedFrom stop (fuel + 1) off ↔ off = BLOCK_SIZE := by
  simp [PassedFrom, stopFrom, recordsFrom, hs]

theorem Splits.le {off : Nat} {l : List (Nat × DirEntry)} (h : b.Splits off l) :
    off ≤ BLOCK_SIZE := by
  cases h with
  | done => exact Nat.le_refl _
  | record hhead _ _ => omega

/-- A walk to the end of the block splits it. -/
theorem splits_of_stopFrom : ∀ {fuel off : Nat}, b.stopFrom fuel off = BLOCK_SIZE →
    b.Splits off (b.recordsFrom fuel off) := by
  intro fuel
  induction fuel with
  | zero =>
      intro off h
      simp only [stopFrom] at h
      subst h
      exact .done
  | succ fuel ih =>
      intro off h
      by_cases hs : b.Sound off
      · simp only [stopFrom, recordsFrom, hs, if_true] at h ⊢
        have := hs.1
        exact .record (by omega) hs.2.1 (ih h)
      · simp only [stopFrom, recordsFrom, hs, if_false] at h ⊢
        subst h
        exact .done

/-- The records of a block are the only way to split it, if the walk over them can be
read. -/
theorem Splits.walked {off : Nat} {l : List (Nat × DirEntry)} (h : b.Splits off l) :
    ∀ {fuel : Nat}, BLOCK_SIZE ≤ off + fuel →
      (∀ a ∈ b.visitedFrom (fun _ => false) fuel off, a + 9 ≤ BLOCK_SIZE) →
      l = b.recordsFrom fuel off ∧ b.stopFrom fuel off = BLOCK_SIZE := by
  induction h with
  | done =>
      intro fuel _ _
      have hns : ¬ b.Sound BLOCK_SIZE := fun hs => by
        have := hs.1
        omega
      cases fuel <;> simp [recordsFrom, stopFrom, hns]
  | @record off l hhead hlen hrest ih =>
      intro fuel hf hread
      cases fuel with
      | zero => omega
      | succ fuel =>
          have hlt : off < BLOCK_SIZE := by omega
          have hs : b.Sound off := by
            refine ⟨hread off ?_, hlen, hrest.le⟩
            simp [visitedFrom, hlt]
          obtain ⟨hl, hstop⟩ := @ih fuel (by omega) (by
            intro a ha
            refine hread a ?_
            simp [visitedFrom, hlt, hs, ha])
          simp only [recordsFrom, stopFrom, hs, if_true]
          exact ⟨by rw [hl], hstop⟩

end Block

/-- The records of the blocks `bs`, each with its block and offset. -/
inductive Parse (data : Region) : List Nat → List (Nat × Nat × DirEntry) → Prop where
  | nil : Parse data [] []
  | cons {b : Nat} {bs : List Nat} {l : List (Nat × DirEntry)}
      {rest : List (Nat × Nat × DirEntry)} (hblock : (data b).Splits 0 l)
      (hrest : Parse data bs rest) : Parse data (b :: bs) (l.map (Prod.mk b) ++ rest)

/-- The places that a walk over the blocks `bs` comes to. -/
def visits (data : Region) (stop : DirEntry → Bool) : List Nat → List (Nat × Nat)
  | [] => []
  | b :: bs => ((data b).visited stop).map (Prod.mk b) ++
      if (data b).Passed stop then visits data stop bs else []

theorem mem_visits_cons {data : Region} {stop : DirEntry → Bool} {b : Nat} {bs : List Nat}
    {x : Nat × Nat} : x ∈ visits data stop (b :: bs) ↔
      (x.1 = b ∧ x.2 ∈ (data b).visited stop) ∨
        ((data b).Passed stop ∧ x ∈ visits data stop bs) := by
  simp only [visits, List.mem_append, List.mem_map]
  constructor
  · intro h
    rcases h with ⟨a, ha, rfl⟩ | h
    · exact .inl ⟨rfl, ha⟩
    · split at h
      · rename_i hp
        exact .inr ⟨hp, h⟩
      · cases h
  · intro h
    rcases h with ⟨rfl, ha⟩ | ⟨hp, h⟩
    · exact .inl ⟨x.2, ha, rfl⟩
    · rw [if_pos hp]
      exact .inr h

/-- The records that the walk itself lists. -/
def walked (data : Region) (bs : List Nat) : List (Nat × Nat × DirEntry) :=
  bs.flatMap fun b => (data b).records.map (Prod.mk b)

/-- A walk that can read every record it comes to parses just what the grammar allows. -/
theorem parse_iff {data : Region} : ∀ {bs : List Nat} {l : List (Nat × Nat × DirEntry)},
    (∀ x ∈ visits data (fun _ => false) bs, x.2 + 9 ≤ BLOCK_SIZE) →
    (Parse data bs l ↔ (∀ b ∈ bs, (data b).Complete) ∧ l = walked data bs) := by
  intro bs
  induction bs with
  | nil =>
      intro l _
      constructor
      · intro h
        cases h
        exact ⟨fun b hb => absurd hb List.not_mem_nil, rfl⟩
      · intro h
        rw [h.2]
        exact .nil
  | cons b bs ih =>
      intro l hread
      have hpassed : (data b).Complete → (data b).Passed fun _ => false := fun hc =>
        ⟨hc, fun _ _ => rfl⟩
      have hrest : (data b).Complete → ∀ x ∈ visits data (fun _ => false) bs,
          x.2 + 9 ≤ BLOCK_SIZE := fun hc x hx =>
        hread x (mem_visits_cons.mpr (.inr ⟨hpassed hc, hx⟩))
      constructor
      · intro h
        cases h with
        | cons hblock htail =>
            obtain ⟨rfl, hc⟩ := hblock.walked (Nat.le_add_left _ _) fun a ha =>
              hread (b, a) (mem_visits_cons.mpr (.inl ⟨rfl, ha⟩))
            obtain ⟨hall, rfl⟩ := (ih (hrest hc)).mp htail
            refine ⟨List.forall_mem_cons.mpr ⟨hc, hall⟩, ?_⟩
            simp only [walked, List.flatMap_cons]
            rfl
      · intro h
        obtain ⟨hall, rfl⟩ := h
        obtain ⟨hc, hall⟩ := List.forall_mem_cons.mp hall
        have htail := (ih (hrest hc)).mpr ⟨hall, rfl⟩
        exact .cons (Block.splits_of_stopFrom hc) htail

namespace DirectoryHandler

variable {α σ : Type}

/-- The errors that an ill-formed directory block is reported with. -/
inductive Malformed : FSError → Prop where
  | dir (kind : InvalidDirKind) (block off : Nat) : Malformed (.invalidDir kind block off)
  | entry (kind : InvalidDirEntryKind) (block off : Nat) :
      Malformed (.invalidDirEntry kind block off)

/-- The callback panics on the records `boom` and stops at the records `stop`, whatever it
has captured. -/
structure Replies (callback : Callback α) (stop boom : DirEntry → Bool) : Prop where
  panics : ∀ e block off acc, boom e = true → callback e block off acc = none
  goes : ∀ e block off acc, boom e = false → ∃ acc', callback e block off acc = some (acc', stop e)

/-- The walk can read the record at `off` and hand it to its callback. -/
def Legible (boom : DirEntry → Bool) (buf : Block) (off : Nat) : Prop :=
  off + 9 ≤ BLOCK_SIZE ∧ boom (DirEntry.ofBytes buf off) = false

/-- How the walk over one block ends: in a panic iff it comes to a record that cannot be
read, else at a record that stops it or at the end, or in the report of an ill-formed
record. -/
theorem iterateBlock_cases {callback : Callback α} {stop boom : DirEntry → Bool} {buf : Block}
    {block : Nat} {s : σ} (hcb : Replies callback stop boom) :
    ∀ {fuel off : Nat} {acc : α}, BLOCK_SIZE ≤ off + fuel → off ≤ BLOCK_SIZE →
      ((∃ a ∈ buf.visitedFrom stop fuel off, ¬ Legible boom buf a) ∧
        iterateBlock callback buf block fuel off acc s = .panic) ∨
      ((∀ a ∈ buf.visitedFrom stop fuel off, Legible boom buf a) ∧
        ((∃ acc' halt, iterateBlock callback buf block fuel off acc s = .ok (acc', halt) s ∧
            (halt = false ↔ buf.PassedFrom stop fuel off)) ∨
          ∃ e, iterateBlock callback buf block fuel off acc s = .err e s ∧ Malformed e ∧
            ¬ buf.PassedFrom stop fuel off)) := by
  intro fuel
  induction fuel with
  | zero =>
      intro off acc hf hle
      have hend : off = BLOCK_SIZE := by omega
      exact .inr ⟨fun a ha => absurd ha List.not_mem_nil, .inl ⟨acc, false, rfl,
        ⟨fun _ => ⟨hend, fun x hx => absurd hx List.not_mem_nil⟩, fun _ => rfl⟩⟩⟩
  | succ fuel ih =>
      intro off acc hf hle
      by_cases hlt : off < BLOCK_SIZE
      · have hstart : iterateBlock callback buf block (fuel + 1) off acc s = _ :=
          congrFun (if_pos hlt) s
        simp only [Block.visitedFrom, if_pos hlt, List.forall_mem_cons, List.exists_mem_cons_iff]
        by_cases h9 : off + 9 ≤ BLOCK_SIZE
        · have hparse : (DirEntry.deserialize buf off : Prog FSError σ DirEntry) s =
              .ok (DirEntry.ofBytes buf off) s := congrFun (if_pos h9) s
          rw [Prog.bind_of_ok hparse] at hstart
          by_cases hboom : boom (DirEntry.ofBytes buf off) = true
          · refine .inl ⟨.inl fun h => Bool.noConfusion (h.2.symm.trans hboom), ?_⟩
            rw [hstart, hcb.panics _ _ _ _ hboom]
            rfl
          rw [Bool.not_eq_true] at hboom
          have hhere : Legible boom buf off := ⟨h9, hboom⟩
          obtain ⟨acc', hanswer⟩ := hcb.goes _ block off acc hboom
          rw [hanswer, Prog.bind_of_ok (rfl : (Prog.unwrap (some (acc', _)) :
            Prog FSError σ (α × Bool)) s = .ok (acc', _) s)] at hstart
          by_cases hover : off + (DirEntry.ofBytes buf off).recordLen > BLOCK_SIZE
          · -- the record does not stay in the block
            have hs : ¬ buf.Sound off := fun hs => Nat.not_lt.mpr hs.2.2 hover
            simp only [hs, false_and, if_false]
            refine .inr ⟨⟨hhere, fun a ha => absurd ha List.not_mem_nil⟩, .inr
              ⟨_, hstart.trans (congrFun (if_pos hover) s), .dir _ _ _, ?_⟩⟩
            rw [Block.passedFrom_unsound hs]
            omega
          replace hstart := hstart.trans (congrFun (if_neg hover) s)
          by_cases hzero : (DirEntry.ofBytes buf off).recordLen = 0
          · -- the record has no length
            have hs : ¬ buf.Sound off := fun hs => hs.2.1 hzero
            simp only [hs, false_and, if_false]
            refine .inr ⟨⟨hhere, fun a ha => absurd ha List.not_mem_nil⟩, .inr
              ⟨_, hstart.trans (congrFun (if_pos hzero) s), .entry _ _ _, ?_⟩⟩
            rw [Block.passedFrom_unsound hs]
            omega
          replace hstart := hstart.trans (congrFun (if_neg hzero) s)
          have hs : buf.Sound off := ⟨h9, hzero, by omega⟩
          rw [Block.passedFrom_sound hs]
          by_cases hstop : stop (DirEntry.ofBytes buf off) = true
          · simp only [hstop, and_false, Bool.true_eq_false, if_false]
            refine .inr ⟨⟨hhere, fun a ha => absurd ha List.not_mem_nil⟩, .inl
              ⟨acc', true, hstart.trans (congrFun (if_pos hstop) s), by simp⟩⟩
          · replace hstart := hstart.trans (congrFun (if_neg hstop) s)
            rw [Bool.not_eq_true] at hstop
            simp only [hs, hstop, and_self, if_true, true_and, hhere, not_true, false_or]
            rw [hstart]
            exact ih (by omega) (by omega)
        · refine .inl ⟨.inl fun h => h9 h.1, ?_⟩
          rw [hstart, Prog.bind_of_panic (congrFun (if_neg h9) s)]
      · have hs : ¬ buf.Sound off := fun hs => hlt (by have := hs.1; omega)
        refine .inr ⟨?_, .inl ⟨acc, false, congrFun (if_neg hlt) s, ?_⟩⟩
        · simp [Block.visitedFrom, hlt]
        · rw [Block.passedFrom_unsound hs]
          simp only [true_iff]
          omega

/-- The callback that takes every record and never stops. -/
def observe (f : DirEntry → Nat → Nat → α → α) : Callback α :=
  fun e block off acc => some (f e block off acc, false)

theorem replies_observe (f : DirEntry → Nat → Nat → α → α) :
    Replies (observe f) (fun _ => false) fun _ => false where
  panics _ _ _ _ h := by cases h
  goes _ _ _ _ _ := ⟨_, rfl⟩

instance (name : List UInt8) (e : DirEntry) : Decidable (Named name e) :=
  inferInstanceAs (Decidable (_ ∧ _ ∧ _))

/-- A live record whose name is longer than its array. -/
def overlong (e : DirEntry) : Bool := !e.isFree && decide (e.nameLen > DirEntry.MAX_NAME)

theorem replies_find (name : List UInt8) :
    Replies (findCallback name) (fun e => decide (Named name e)) overlong where
  panics e _ _ _ h := by
    simp only [overlong, Bool.and_eq_true, Bool.not_eq_true', decide_eq_true_eq] at h
    simp [findCallback, h.1, h.2]
  goes e block off acc h := by
    unfold findCallback
    by_cases hfree : e.isFree = true
    · rw [if_pos hfree]
      exact ⟨_, by rw [decide_eq_false fun hn => by simp [hn.1] at hfree]⟩
    have hlen : e.nameLen ≤ DirEntry.MAX_NAME := by
      simpa [overlong, hfree] using h
    rw [if_neg hfree, if_neg (Nat.not_lt.mpr hlen)]
    by_cases hname : e.name.take e.nameLen = name
    · rw [if_pos hname]
      exact ⟨_, by rw [decide_eq_true ⟨by simpa using hfree, hlen, hname⟩]⟩
    · rw [if_neg hname]
      exact ⟨_, by rw [decide_eq_false fun hn => hname hn.2.2]⟩

/-- A free record that a record as long as `toInsert` cannot be compared with. -/
def incomparable (toInsert e : DirEntry) : Bool :=
  e.isFree && decide (U16 ≤ toInsert.recordLen + DirEntry.minFreeSize)

theorem replies_fit (toInsert : DirEntry) : Replies (fitCallback toInsert)
    (fun e => decide (Fits toInsert e)) (incomparable toInsert) where
  panics e block off acc h := by
    simp only [incomparable, Bool.and_eq_true, decide_eq_true_eq] at h
    rw [fitCallback, if_pos h.1, if_neg (Nat.not_lt.mpr h.2)]
  goes e block off acc h := by
    by_cases hlen : toInsert.recordLen + DirEntry.minFreeSize < U16
    · rw [fitCallback_eq hlen]
      by_cases hfit : Fits toInsert e
      · exact ⟨_, by rw [if_pos hfit, decide_eq_true hfit]⟩
      · exact ⟨_, by rw [if_neg hfit, decide_eq_false hfit]⟩
    · have hfree : ¬ e.isFree = true := by
        simpa [incomparable, Nat.not_lt.mp hlen] using h
      rw [fitCallback, if_neg hfree]
      exact ⟨_, by rw [decide_eq_false fun hfit : Fits toInsert e => hfree hfit.1]⟩

theorem replies_entries (includeFree : Bool) :
    Replies (fun entry _ _ res => if includeFree || !entry.isFree then some (res ++ [entry], false)
      else some (res, false)) (fun _ => false) fun _ => false where
  panics _ _ _ _ h := by cases h
  goes e _ _ acc _ := by
    by_cases h : (includeFree || !e.isFree) = true
    · exact ⟨_, if_pos h⟩
    · exact ⟨_, if_neg h⟩

/-- What the walk with a callback that never stops is to do: hand it the records of a
directory that parses, once each and in order, and refuse any other. -/
def Parses (data : Region) (bs : List Nat) (f : DirEntry → Nat → Nat → α → α) (acc : α)
    (out : Outcome FSError MemoryDevice α) : Prop :=
  (∃ l, Parse data bs l ∧
    out.answer? = some (.ok (l.foldl (fun acc x => f x.2.2 x.1 x.2.1 acc) acc))) ∨
  (∀ l, ¬ Parse data bs l) ∧ ∃ e, Malformed e ∧ out.answer? = some (.error e)

theorem foldRecords_observe {f : DirEntry → Nat → Nat → α → α} {block : Nat} :
    ∀ {l : List (Nat × DirEntry)} {acc : α}, foldRecords (observe f) block l acc =
      some (l.foldl (fun acc x => f x.2 block x.1 acc) acc, false) := by
  intro l
  induction l with
  | nil => exact rfl
  | cons x l ih =>
      intro acc
      simp only [foldRecords, observe, List.foldl_cons]
      exact ih

theorem foldBlocks_observe {f : DirEntry → Nat → Nat → α → α} {data : Region} :
    ∀ {bs : List Nat} {acc : α}, foldBlocks (observe f) data bs acc =
      some ((walked data bs).foldl (fun acc x => f x.2.2 x.1 x.2.1 acc) acc, false) := by
  intro bs
  induction bs with
  | nil => exact rfl
  | cons b bs ih =>
      intro acc
      simp only [foldBlocks, foldRecords_observe, walked, List.flatMap_cons, List.foldl_append,
        List.foldl_map]
      exact ih

end DirectoryHandler

namespace Geom

open DirectoryHandler

variable {g : Geom} {v : View} {n : INode} {d : MemoryDevice} {α : Type}

/-- How `iterate` ends on a device: in a panic iff it comes to a record that cannot be
read, else with a result or with the report of an ill-formed record. -/
theorem iterateBlocks_cases {callback : Callback α} {stop boom : DirEntry → Bool}
    (hcb : Replies callback stop boom) (hm : n.Mapped g v.data) :
    ∀ (is : List Nat) (acc : α) (d : MemoryDevice), (∀ i ∈ is, i < n.blocks) → g.Holds d v →
      ((∃ x ∈ visits v.data stop (is.map (n.blockAt v.data)),
          ¬ Legible boom (v.data x.1) x.2) ∧
        g.directoryHandler.iterateBlocks n g.inodeHandler callback is acc d = .panic) ∨
      ((∀ x ∈ visits v.data stop (is.map (n.blockAt v.data)), Legible boom (v.data x.1) x.2) ∧
        ((∃ acc' d', g.directoryHandler.iterateBlocks n g.inodeHandler callback is acc d =
            .ok acc' d') ∨
          ∃ e d', g.directoryHandler.iterateBlocks n g.inodeHandler callback is acc d =
            .err e d' ∧ Malformed e)) := by
  intro is
  induction is with
  | nil =>
      intro acc d _ _
      exact .inr ⟨fun x hx => absurd hx List.not_mem_nil, .inl ⟨acc, d, rfl⟩⟩
  | cons i is ih =>
      intro acc d his hd
      have hi := his i List.mem_cons_self
      have hb := hm.content _ (INode.blockAt_mem_content hi)
      -- the reads in front of the walk over the block
      obtain ⟨d₁, hget, hd₁⟩ := runs_getBlock hi hm.blocks_le hm.pointers d hd
      obtain ⟨d₂, hadd, hd₂⟩ := (Prog.Runs.checkedAdd (R := g.Holds) (t := v) (ε := FSError)
        (by rw [Nat.add_comm]; exact ptr_small hb)) d₁ hd₁
      rw [Nat.add_comm] at hadd
      obtain ⟨d₃, hread, hd₃⟩ := runs_readData hb d₂ hd₂
      have hrun : g.directoryHandler.iterateBlocks n g.inodeHandler callback (i :: is) acc d = _ :=
        (Prog.bind_of_ok hget _).trans ((Prog.bind_of_ok hadd _).trans (Prog.bind_of_ok hread _))
      rw [hrun]
      simp only [List.map_cons, mem_visits_cons]
      rcases @iterateBlock_cases _ _ _ _ _ (v.data (n.blockAt v.data i)) (n.blockAt v.data i) d₃ hcb
          BLOCK_SIZE 0 acc (Nat.le_add_left _ _) (Nat.zero_le _) with ⟨hbad, hpanic⟩ | ⟨hall, hends⟩
      · obtain ⟨a, ha, hbad⟩ := hbad
        exact .inl ⟨⟨(_, a), .inl ⟨rfl, ha⟩, hbad⟩, Prog.bind_of_panic hpanic _⟩
      rcases hends with ⟨acc', halt, hok, hhalt⟩ | ⟨e, herr, hmal, hnot⟩
      · rw [Prog.bind_of_ok hok]
        by_cases hpass : (v.data (n.blockAt v.data i)).Passed stop
        · obtain rfl := hhalt.mpr hpass
          rcases ih acc' d₃ (fun k hk => his k (List.mem_cons_of_mem _ hk)) hd₃ with
            ⟨⟨x, hx, hbad⟩, hpanic⟩ | ⟨hrest, hends⟩
          · exact .inl ⟨⟨x, .inr ⟨hpass, hx⟩, hbad⟩, hpanic⟩
          · refine .inr ⟨fun x hx => ?_, hends⟩
            rcases hx with ⟨hxb, hx⟩ | ⟨-, hx⟩
            · rw [hxb]
              exact hall _ hx
            · exact hrest x hx
        · have hhalt' : halt = true := by
            cases halt with
            | true => rfl
            | false => exact absurd (hhalt.mp rfl) hpass
          subst hhalt'
          refine .inr ⟨fun x hx => ?_, .inl ⟨acc', d₃, rfl⟩⟩
          rcases hx with ⟨hxb, hx⟩ | ⟨hp, -⟩
          · rw [hxb]
            exact hall _ hx
          · exact absurd hp hpass
      · refine .inr ⟨fun x hx => ?_, .inr ⟨e, d₃, Prog.bind_of_err herr _, hmal⟩⟩
        rcases hx with ⟨hxb, hx⟩ | ⟨hp, -⟩
        · rw [hxb]
          exact hall _ hx
        · exact absurd hp hnot

theorem iterate_panics_iff {callback : Callback α} {stop boom : DirEntry → Bool}
    (hcb : Replies callback stop boom) (hm : n.Mapped g v.data) (hd : g.Holds d v) {acc : α} :
    g.directoryHandler.iterate n g.inodeHandler callback acc d ≠ .panic ↔
      ∀ x ∈ visits v.data stop (n.content v.data), Legible boom (v.data x.1) x.2 := by
  rcases iterateBlocks_cases hcb hm (List.range n.blocks) acc d
      (fun i hi => List.mem_range.mp hi) hd with ⟨⟨x, hx, hbad⟩, hpanic⟩ | ⟨hall, hends⟩
  · exact ⟨fun h => absurd hpanic h, fun h => absurd (h x hx) hbad⟩
  · refine ⟨fun _ => hall, fun _ hpanic => ?_⟩
    rcases hends with ⟨acc', d', hok⟩ | ⟨e, d', herr, -⟩
    · exact nomatch hok.symm.trans hpanic
    · exact nomatch herr.symm.trans hpanic

theorem iterate_malformed {callback : Callback α} {stop boom : DirEntry → Bool}
    (hcb : Replies callback stop boom) (hm : n.Mapped g v.data) (hd : g.Holds d v) {acc : α}
    {e : FSError} {d' : MemoryDevice}
    (herr : g.directoryHandler.iterate n g.inodeHandler callback acc d = .err e d') :
    Malformed e := by
  rcases iterateBlocks_cases hcb hm (List.range n.blocks) acc d
      (fun i hi => List.mem_range.mp hi) hd with ⟨-, hpanic⟩ | ⟨-, hends⟩
  · exact nomatch herr.symm.trans hpanic
  rcases hends with ⟨acc', d₁, hok⟩ | ⟨e', d₁, herr', hmal⟩
  · exact nomatch herr.symm.trans hok
  · cases herr.symm.trans herr'
    exact hmal

/-- `iterate` parses a directory iff nine bytes can be read at every place it comes to. -/
theorem parses_iff {f : DirEntry → Nat → Nat → α → α} {acc : α} (hm : n.Mapped g v.data)
    (hd : g.Holds d v) :
    Parses v.data (n.content v.data) f acc
        (g.directoryHandler.iterate n g.inodeHandler (observe f) acc d) ↔
      ∀ x ∈ visits v.data (fun _ => false) (n.content v.data), x.2 + 9 ≤ BLOCK_SIZE := by
  have hpanics : g.directoryHandler.iterate n g.inodeHandler (observe f) acc d ≠ .panic ↔ _ :=
    iterate_panics_iff (replies_observe f) hm hd
  constructor
  · intro h x hx
    refine (hpanics.mp (fun hpanic => ?_) x hx).1
    rw [hpanic] at h
    rcases h with ⟨l, -, hans⟩ | ⟨-, e, -, hans⟩
    · cases hans
    · cases hans
  · intro hread
    have hnot := hpanics.mpr fun x hx => ⟨hread x hx, rfl⟩
    cases hrun : g.directoryHandler.iterate n g.inodeHandler (observe f) acc d with
    | panic => exact absurd hrun hnot
    | ok acc' d' =>
        obtain ⟨v', -, -, stop, hfold, hcomplete⟩ := (wpr_iterate hm).of_ok hd hrun
        cases hfold.symm.trans foldBlocks_observe
        exact .inl ⟨_, (parse_iff hread).mpr ⟨hcomplete rfl, rfl⟩, rfl⟩
    | err e d' =>
        refine .inr ⟨fun l hl => ?_, e, iterate_malformed (replies_observe f) hm hd hrun, rfl⟩
        have hall := ((parse_iff hread).mp hl).1
        obtain ⟨d₁, hok, -⟩ := runs_iterate hm hall foldBlocks_observe d hd
        exact nomatch hrun.symm.trans hok

/-- The four readers of a directory with arbitrary bytes in its blocks. `iterate` with a
callback that never stops returns what the grammar says, and the others do not panic, iff
the walk finds nine bytes at every place it comes to; `find_entry` moreover must not come to
a live record whose name is longer than its array. -/
theorem parser_iff (hm : n.Mapped g v.data) (hd : g.Holds d v) :
    (∀ (α : Type) (f : DirEntry → Nat → Nat → α → α) (acc : α),
      Parses v.data (n.content v.data) f acc
          (g.directoryHandler.iterate n g.inodeHandler (observe f) acc d) ↔
        ∀ x ∈ visits v.data (fun _ => false) (n.content v.data), x.2 + 9 ≤ BLOCK_SIZE) ∧
    (∀ name, g.directoryHandler.findEntry n g.inodeHandler name d ≠ .panic ↔
      ∀ x ∈ visits v.data (fun e => decide (Named name e)) (n.content v.data),
        x.2 + 9 ≤ BLOCK_SIZE ∧ ((DirEntry.ofBytes (v.data x.1) x.2).isFree = true ∨
          (DirEntry.ofBytes (v.data x.1) x.2).nameLen ≤ DirEntry.MAX_NAME)) ∧
    (∀ toInsert, g.directoryHandler.canFit n g.inodeHandler toInsert d ≠ .panic ↔
      ∀ x ∈ visits v.data (fun e => decide (Fits toInsert e)) (n.content v.data),
        x.2 + 9 ≤ BLOCK_SIZE ∧ ((DirEntry.ofBytes (v.data x.1) x.2).isFree = true →
          toInsert.recordLen + DirEntry.minFreeSize < U16)) ∧
    (∀ includeFree, g.directoryHandler.getEntries n g.inodeHandler includeFree d ≠ .panic ↔
      ∀ x ∈ visits v.data (fun _ => false) (n.content v.data), x.2 + 9 ≤ BLOCK_SIZE) := by
  refine ⟨fun α f acc => parses_iff hm hd, fun name => ?_, fun toInsert => ?_,
    fun includeFree => ?_⟩
  · refine (iterate_panics_iff (replies_find name) hm hd).trans (forall₂_congr fun x _ => ?_)
    simp [Legible, overlong, imp_iff_not_or]
  · refine (iterate_panics_iff (replies_fit toInsert) hm hd).trans (forall₂_congr fun x _ => ?_)
    simp [Legible, incomparable, imp_iff_not_or]
  · refine (iterate_panics_iff (replies_entries includeFree) hm hd).trans
      (forall₂_congr fun x _ => ?_)
    simp [Legible]

/-- Four blocks of metadata and a data region of one block. -/
def five : Geom where
  totalBlocks := 5
  inodeBitmapBlocks := 1
  blockBitmapBlocks := 1
  inodeTableBlocks := 1
  hasData := by decide
  small := by decide
  inodeBitmap_pos := by decide
  inodeTable_pos := by decide
  blockBitmap_covers := by decide
  bitmaps_indexed := by decide

/-- A device of that layout with `b` in its data region. -/
def five.device (b : Block) : MemoryDevice :=
  ⟨[Block.zero, Block.zero, Block.zero, Block.zero, b]⟩

/-- A directory in that block. -/
def five.dir : INode := { INode.empty .directory 0 0 with blocks := 1, direct := fun _ => 0 }

theorem five.dir_mapped (data : Region) : five.dir.Mapped five data where
  blocks_le := by decide
  lt b hb := by
    have howned : five.dir.owned data = [0] := rfl
    rw [howned, List.mem_singleton] at hb
    rw [hb]
    decide

/-- A live record of 248 bytes and a free one of eight. -/
def five.tail : Block :=
  (Block.zero.splice 0 [1, 0, 0, 0, 248, 0, 1, 0, 0, 97]).splice 248 [255, 255, 255, 255, 8, 0]

/-- A live record whose name is longer than 64 bytes. -/
def five.long : Block := Block.zero.splice 0 [1, 0, 0, 0, 0, 1, 65, 0, 0, 97]

theorem five.holds (b : Block) : five.Holds (five.device b) (five.view (five.device b)) :=
  holds_self rfl

/-- The eight bytes of a record at 248 do not hold its nine header bytes, and a name of 65
bytes does not fit its array: the readers panic, in the first case on a block that splits
into records. -/
theorem readers_panic :
    five.Holds (five.device five.tail) (five.view (five.device five.tail)) ∧
    five.dir.Mapped five (five.view (five.device five.tail)).data ∧
    (∃ l, Parse (five.view (five.device five.tail)).data
      (five.dir.content (five.view (five.device five.tail)).data) l) ∧
    five.directoryHandler.iterate five.dir five.inodeHandler
      (observe fun _ _ _ k => k + 1) 0 (five.device five.tail) = .panic ∧
    five.directoryHandler.findEntry five.dir five.inodeHandler [98]
      (five.device five.tail) = .panic ∧
    five.directoryHandler.canFit five.dir five.inodeHandler (DirEntry.new 1 .file [98])
      (five.device five.tail) = .panic ∧
    five.directoryHandler.getEntries five.dir five.inodeHandler false
      (five.device five.tail) = .panic ∧
    five.directoryHandler.findEntry five.dir five.inodeHandler [98]
      (five.device five.long) = .panic := by
  refine ⟨five.holds _, five.dir_mapped _, ?_, rfl, rfl, rfl, rfl, rfl⟩
  have hsplit : five.tail.Splits 0 _ :=
    .record (by decide) (by decide) (.record (by decide) (by decide) .done)
  exact ⟨_, .cons hsplit .nil⟩

/-- The condition read on these two blocks: the place 248 is one that the walk comes to, and
so is the record with the long name. -/
theorem parser_iff_five :
    ¬ Parses (five.view (five.device five.tail)).data [0] (fun _ _ _ k => k + 1) 0
      (five.directoryHandler.iterate five.dir five.inodeHandler (observe fun _ _ _ k => k + 1) 0
        (five.device five.tail)) ∧
    ¬ five.directoryHandler.findEntry five.dir five.inodeHandler [98]
      (five.device five.long) ≠ .panic := by
  constructor
  · intro h
    have hread := ((parser_iff (five.dir_mapped _) (five.holds five.tail)).1 Nat _ 0).mp h
    exact absurd (hread (0, 248) (by decide)) (by decide)
  · intro h
    have hread := ((parser_iff (five.dir_mapped _) (five.holds five.long)).2.1 [98]).mp h
    exact absurd (hread (0, 0) (by decide)) (by decide)

end Geom

/-! ## The directories of the filesystem -/

namespace Block

variable {b : Block} {stop : DirEntry → Bool}

/-- The walk over a block that can be walked to its end comes to records only. -/
theorem visitedFrom_records : ∀ {fuel off a : Nat}, BLOCK_SIZE ≤ off + fuel →
    b.stopFrom fuel off = BLOCK_SIZE → a ∈ b.visitedFrom stop fuel off →
    (a, DirEntry.ofBytes b a) ∈ b.recordsFrom fuel off := by
  intro fuel
  induction fuel with
  | zero =>
      intro off a _ _ ha
      cases ha
  | succ fuel ih =>
      intro off a hf hstop ha
      by_cases hs : b.Sound off
      · simp only [stopFrom, recordsFrom, visitedFrom, hs, if_true, true_and] at hstop ha ⊢
        have hlt : off < BLOCK_SIZE := by
          have := hs.1
          omega
        have hlen := hs.2.1
        rw [if_pos hlt] at ha
        rcases List.mem_cons.mp ha with rfl | ha
        · exact List.mem_cons_self
        · split at ha
          · exact List.mem_cons_of_mem _ (ih (by omega) hstop ha)
          · cases ha
      · simp only [stopFrom, hs, if_false] at hstop
        subst hstop
        simp [visitedFrom] at ha

end Block

/-- A directory whose blocks are complete and whose names fit their array is read without a
panic, whatever is looked for. -/
theorem INode.Walks.legible {data : Region} {n : INode} (h : n.Walks data)
    {stop : DirEntry → Bool} : ∀ x ∈ visits data stop (n.content data),
      Legible overlong (data x.1) x.2 := by
  obtain ⟨hcomplete, hnamed⟩ := h
  revert hcomplete hnamed
  generalize n.content data = bs
  induction bs with
  | nil =>
      intro _ _ x hx
      cases hx
  | cons b bs ih =>
      intro hcomplete hnamed x hx
      rcases mem_visits_cons.mp hx with ⟨hxb, hx⟩ | ⟨-, hx⟩
      · have hmem := Block.visitedFrom_records (Nat.le_add_left _ _)
          (hcomplete b List.mem_cons_self) hx
        have hname := hnamed b List.mem_cons_self _ hmem
        rw [hxb]
        refine ⟨(Block.recordsFrom_sound hmem).1.1, ?_⟩
        simpa [overlong, ← imp_iff_not_or] using hname
      · exact ih (fun b' hb' => hcomplete b' (List.mem_cons_of_mem _ hb'))
          (fun b' hb' => hnamed b' (List.mem_cons_of_mem _ hb')) x hx

end FerrisFS
