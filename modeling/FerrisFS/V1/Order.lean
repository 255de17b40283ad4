import FerrisFS.V1.Clean

/-!
# Directory blocks in order

What the integrity checker wants of a directory block: its records fill it, a filled record is
of minimal length and names an inode of the table, no two free records are adjacent, and the
first block begins with `.` and `..`. The scan of a block finds nothing exactly when the block
is in order, and then it gathers the inodes that the records name.
-/

namespace FerrisFS

open Lib DirectoryHandler FormatV1

/-- The checker finds nothing wrong with the record by itself. -/
structure DirEntry.Passes (maxIndex : Nat) (e : DirEntry) : Prop where
  fileType : e.fileType ≠ .unknown
  nameLen : e.nameLen ≤ DirEntry.MAX_NAME
  inode : e.isFree = false → e.inode ≤ maxIndex
  minimal : e.isFree = false → e.recordLen = DirEntry.minRecordLen e.nameLen

instance (maxIndex : Nat) (e : DirEntry) : Decidable (e.Passes maxIndex) :=
  decidable_of_iff (e.fileType ≠ .unknown ∧ e.nameLen ≤ DirEntry.MAX_NAME ∧
      (e.isFree = false → e.inode ≤ maxIndex ∧ e.recordLen = DirEntry.minRecordLen e.nameLen))
    ⟨fun h => ⟨h.1, h.2.1, fun hf => (h.2.2 hf).1, fun hf => (h.2.2 hf).2⟩,
      fun h => ⟨h.fileType, h.nameLen, fun hf => ⟨h.inode hf, h.minimal hf⟩⟩⟩

/-- The records behind `count` others, the last of which was free or not. -/
def InOrderFrom (maxIndex : Nat) (first : Bool) : Nat → Bool → List (Nat × DirEntry) → Prop
  | _, _, [] => True
  | count, lastFree, x :: rest =>
      (x.2.Passes maxIndex ∧ structureErrors x.2 first count = [] ∧
        (x.2.isFree = true → lastFree = false)) ∧
      InOrderFrom maxIndex first (count + 1) x.2.isFree rest

instance decidableInOrderFrom (maxIndex : Nat) (first : Bool) : (count : Nat) →
    (lastFree : Bool) → (l : List (Nat × DirEntry)) →
      Decidable (InOrderFrom maxIndex first count lastFree l)
  | _, _, [] => .isTrue trivial
  | count, _, x :: rest =>
      have := decidableInOrderFrom maxIndex first (count + 1) x.2.isFree rest
      inferInstanceAs (Decidable (_ ∧ _))

/-- The records that are looked at for subdirectories: all but the first two of the first
block. -/
def behindDots (first : Bool) (count : Nat) (l : List (Nat × DirEntry)) : List (Nat × DirEntry) :=
  l.drop (if first then 2 - count else 0)

/-- The inodes that records of directories name. -/
def dirsOf (l : List (Nat × DirEntry)) : List Nat :=
  (l.filter fun x => !x.2.isFree && decide (x.2.fileType = .directory)).map (·.2.inode)

/-- The inodes that the other filled records name. -/
def leavesOf (l : List (Nat × DirEntry)) : List Nat :=
  (l.filter fun x => !x.2.isFree && decide (x.2.fileType ≠ .directory)).map (·.2.inode)

namespace Block

def InOrder (maxIndex : Nat) (first : Bool) (b : Block) : Prop :=
  b.Complete ∧ InOrderFrom maxIndex first 0 false b.records

instance (maxIndex : Nat) (first : Bool) (b : Block) : Decidable (b.InOrder maxIndex first) :=
  have : Decidable b.Complete := inferInstanceAs (Decidable (b.stopAt = BLOCK_SIZE))
  inferInstanceAs (Decidable (_ ∧ _))

def dirs (first : Bool) (b : Block) : List Nat := dirsOf (behindDots first 0 b.records)

def leaves (b : Block) : List Nat := leavesOf b.records

end Block

section Lists

variable {first : Bool} {count : Nat} {x : Nat × DirEntry} {l : List (Nat × DirEntry)}

theorem dirsOf_cons : dirsOf (x :: l) =
    (if x.2.isFree = false ∧ x.2.fileType = .directory then [x.2.inode] else []) ++ dirsOf l := by
  by_cases hx : x.2.isFree = false ∧ x.2.fileType = .directory
  · simp [dirsOf, hx]
  · have : (!x.2.isFree && decide (x.2.fileType = .directory)) = false := by
      simpa using hx
    simp [dirsOf, hx, this]

theorem leavesOf_cons : leavesOf (x :: l) =
    (if x.2.isFree = false ∧ x.2.fileType ≠ .directory then [x.2.inode] else []) ++
      leavesOf l := by
  by_cases hx : x.2.isFree = false ∧ x.2.fileType ≠ .directory
  · simp [leavesOf, hx]
  · have : (!x.2.isFree && decide (x.2.fileType ≠ .directory)) = false := by
      simpa using hx
    simp only [leavesOf, if_neg hx, List.filter_cons, this]
    rfl

theorem behindDots_cons : behindDots first count (x :: l) =
    if first = true ∧ (count = 0 ∨ count = 1) then behindDots first (count + 1) l
    else x :: behindDots first (count + 1) l := by
  cases first with
  | false => simp [behindDots]
  | true =>
      match count with
      | 0 => rfl
      | 1 => rfl
      | n + 2 => simp [behindDots]

theorem mem_dirsOf {i : Nat} : i ∈ dirsOf l ↔
    ∃ x ∈ l, x.2.isFree = false ∧ x.2.fileType = .directory ∧ x.2.inode = i := by
  simp only [dirsOf, List.mem_map, List.mem_filter, Bool.and_eq_true, Bool.not_eq_true',
    decide_eq_true_eq, and_assoc]

theorem mem_leavesOf {i : Nat} : i ∈ leavesOf l ↔
    ∃ x ∈ l, x.2.isFree = false ∧ x.2.fileType ≠ .directory ∧ x.2.inode = i := by
  simp only [leavesOf, List.mem_map, List.mem_filter, Bool.and_eq_true, Bool.not_eq_true',
    decide_eq_true_eq, and_assoc]

end Lists

/-! ## The scan -/

namespace FormatV1

variable {f : FormatV1} {first : Bool} {dir block off : Nat} {e : DirEntry}
  {s s' : EntryScan} {stop : Bool} {l : List (Nat × DirEntry)}

/-- The scan behind the record `e`. -/
def EntryScan.next (s : EntryScan) (first : Bool) (off : Nat) (e : DirEntry) : EntryScan where
  errors := s.errors
  childDirs := if e.isFree = false ∧ e.fileType = .directory ∧
      ¬ (first = true ∧ (s.count = 0 ∨ s.count = 1)) then s.childDirs ++ [e.inode] else s.childDirs
  childOthers := if e.isFree = false ∧ e.fileType ≠ .directory then s.childOthers ++ [e.inode]
    else s.childOthers
  count := s.count + 1
  lastEntryFree := e.isFree
  lastEntryOffset := off
  lastEntrySize := e.recordLen

/-- A record at which nothing is found passes, fits and is in its place; the scan goes on. -/
theorem checkEntry_clean (hrun : checkEntry f first dir e block off s = some (s', stop))
    (hclean : s'.errors = []) : s.errors = [] ∧ e.Passes f.inodeAllocator.maxIndex ∧
      structureErrors e first s.count = [] ∧ (e.isFree = true → s.lastEntryFree = false) ∧
      off + e.recordLen ≤ BLOCK_SIZE ∧ stop = false ∧ s' = s.next first off e := by
  unfold checkEntry at hrun
  cases hfree : e.isFree with
  | true =>
      simp only [hfree, if_true, Option.bind_eq_bind, Option.bind_some, Option.some.injEq,
        Prod.mk.injEq] at hrun
      obtain ⟨rfl, rfl⟩ := hrun
      simp only [List.append_eq_nil_iff, Bool.false_eq_true, if_false, true_and] at hclean
      obtain ⟨⟨⟨⟨⟨⟨herrors, htype⟩, hplace⟩, -⟩, hover⟩, hadj⟩, hname⟩ := hclean
      have htype : e.fileType ≠ .unknown := fun h => by simp [h] at htype
      have hover : ¬ e.recordLen + off > BLOCK_SIZE := fun h => by simp [h] at hover
      have hadj : s.lastEntryFree = false := by
        by_contra h
        simp [h] at hadj
      have hname : ¬ e.nameLen > DirEntry.MAX_NAME := fun h => by simp [h] at hname
      refine ⟨herrors, ⟨htype, Nat.not_lt.mp hname, fun h => ?_, fun h => ?_⟩, hplace,
        fun _ => hadj, by omega, ?_, ?_⟩
      · rw [hfree] at h
        cases h
      · rw [hfree] at h
        cases h
      · simp [hover]
      · simp [EntryScan.next, herrors, htype, hplace, hover, hadj, hname, hfree, pointerErrors]
  | false =>
      cases hmin : minRecordLen16 e.nameLen with
      | none => simp [hfree, hmin] at hrun
      | some len =>
          have hlen : len = DirEntry.minRecordLen e.nameLen := by
            unfold minRecordLen16 at hmin
            split at hmin
            · exact (Option.some.inj hmin).symm
            · cases hmin
          simp only [hfree, Bool.false_eq_true, if_false, hmin, Option.map_some,
            Option.bind_eq_bind, Option.bind_some, Option.some.injEq, Prod.mk.injEq] at hrun
          obtain ⟨rfl, rfl⟩ := hrun
          simp only [List.append_eq_nil_iff, false_and, if_false] at hclean
          obtain ⟨⟨⟨⟨⟨⟨herrors, htype⟩, hplace⟩, hpointer⟩, hover⟩, hfit⟩, hname⟩ := hclean
          have htype : e.fileType ≠ .unknown := fun h => by simp [h] at htype
          have hover : ¬ e.recordLen + off > BLOCK_SIZE := fun h => by simp [h] at hover
          have hfit : e.recordLen = len := by
            by_contra h
            simp [h] at hfit
          have hname : ¬ e.nameLen > DirEntry.MAX_NAME := fun h => by simp [h] at hname
          have hinode : e.inode ≤ f.inodeAllocator.maxIndex := by
            by_contra h
            unfold pointerErrors at hpointer
            rw [if_neg (by simp [hfree])] at hpointer
            split at hpointer
            · cases hpointer
            · rw [if_pos (Nat.lt_of_not_le h)] at hpointer
              cases hpointer
          refine ⟨herrors, ⟨htype, Nat.not_lt.mp hname, fun _ => hinode, fun _ => ?_⟩, hplace,
            fun h => absurd h Bool.false_ne_true, by omega, ?_, ?_⟩
          · rw [hfit, hlen]
          · rw [hfit] at hover
            simp [hover, hfit]
          · rw [hfit] at hover
            simp [EntryScan.next, herrors, htype, hplace, hover, hpointer, hname, hfree, hfit]

/-- A record that passes is passed. -/
theorem checkEntry_next (hpass : e.Passes f.inodeAllocator.maxIndex)
    (hplace : structureErrors e first s.count = [])
    (hlast : e.isFree = true → s.lastEntryFree = false) (hfits : off + e.recordLen ≤ BLOCK_SIZE) :
    checkEntry f first dir e block off s = some (s.next first off e, false) := by
  have hfits : e.recordLen + off ≤ BLOCK_SIZE := by omega
  cases hfree : e.isFree with
  | true =>
      rw [checkEntry_free hfree hpass.fileType hpass.nameLen hfits hplace (hlast hfree)]
      simp [EntryScan.next, hfree]
  | false =>
      rw [checkEntry_live hfree hpass.fileType (hpass.inode hfree) (hpass.minimal hfree)
        hpass.nameLen hfits hplace]
      simp [EntryScan.next, hfree]

/-- What the scan of the records `l` adds to what was gathered before. -/
structure EntryScan.Gathers (s : EntryScan) (first : Bool) (l : List (Nat × DirEntry))
    (r : EntryScan) : Prop where
  errors : r.errors = s.errors
  childDirs : r.childDirs = s.childDirs ++ dirsOf (behindDots first s.count l)
  childOthers : r.childOthers = s.childOthers ++ leavesOf l

theorem EntryScan.Gathers.nil (s : EntryScan) : s.Gathers first [] s where
  errors := rfl
  childDirs := by simp [behindDots, dirsOf]
  childOthers := by simp [leavesOf]

theorem EntryScan.Gathers.cons {x : Nat × DirEntry} {r : EntryScan}
    (h : (s.next first x.1 x.2).Gathers first l r) : s.Gathers first (x :: l) r where
  errors := h.errors
  childDirs := by
    rw [h.childDirs, behindDots_cons]
    by_cases hdots : first = true ∧ (s.count = 0 ∨ s.count = 1)
    · simp [EntryScan.next, hdots]
    · rw [if_neg hdots, dirsOf_cons]
      by_cases hdir : x.2.isFree = false ∧ x.2.fileType = .directory
      · simp [EntryScan.next, hdots, hdir]
      · have hnot : ¬ (x.2.isFree = false ∧ x.2.fileType = .directory ∧
            ¬ (first = true ∧ (s.count = 0 ∨ s.count = 1))) := fun h => hdir ⟨h.1, h.2.1⟩
        simp only [EntryScan.next, if_neg hnot, if_neg hdir, List.nil_append]
  childOthers := by
    rw [h.childOthers, leavesOf_cons]
    by_cases hleaf : x.2.isFree = false ∧ x.2.fileType ≠ .directory
    · simp [EntryScan.next, hleaf]
    · simp [EntryScan.next, hleaf]

/-- The scan of records in order. -/
theorem foldRecords_inOrder : ∀ {l : List (Nat × DirEntry)} {s : EntryScan},
    InOrderFrom f.inodeAllocator.maxIndex first s.count s.lastEntryFree l →
    (∀ x ∈ l, x.1 + x.2.recordLen ≤ BLOCK_SIZE) →
      ∃ r, foldRecords (checkEntry f first dir) block l s = some (r, false) ∧
        s.Gathers first l r
  | [], s, _, _ => ⟨s, rfl, .nil s⟩
  | (off, e) :: l, s, h, hfit => by
      obtain ⟨⟨hpass, hplace, hlast⟩, hrest⟩ := h
      obtain ⟨r, hfold, hr⟩ := @foldRecords_inOrder l (s.next first off e) hrest
        fun x hx => hfit x (List.mem_cons_of_mem _ hx)
      refine ⟨r, ?_, hr.cons⟩
      simp only [foldRecords, checkEntry_next hpass hplace hlast (hfit _ List.mem_cons_self)]
      exact hfold

end FormatV1

namespace DirectoryHandler

variable {f : FormatV1} {first : Bool} {dir block : Nat} {buf : Block}

/-- A scan that finds nothing has seen records in order up to the end of the block. -/
theorem iterateUnchecked_clean {σ : Type} {x x' : σ} : ∀ {fuel off : Nat} {s r : EntryScan},
    iterateUnchecked (checkEntry f first dir) buf block fuel off s x = .ok r x' →
    r.errors = [] → x' = x ∧ s.errors = [] ∧ (off ≤ BLOCK_SIZE → ∀ fuel', BLOCK_SIZE ≤ off + fuel' →
      buf.stopFrom fuel' off = BLOCK_SIZE ∧
      InOrderFrom f.inodeAllocator.maxIndex first s.count s.lastEntryFree
        (buf.recordsFrom fuel' off) ∧
      s.Gathers first (buf.recordsFrom fuel' off) r) := by
  intro fuel
  induction fuel with
  | zero =>
      intro off s r hrun _
      cases hrun
  | succ fuel ih =>
      intro off s r hrun hclean
      unfold iterateUnchecked at hrun
      split at hrun
      · rename_i hlt
        obtain ⟨e, x₁, hparse, hcall⟩ := Prog.of_ok_bind hrun
        clear hrun
        unfold DirEntry.deserialize at hparse
        split at hparse
        · rename_i h9
          cases hparse
          obtain ⟨res, x₂, hres, hnext⟩ := Prog.of_ok_bind hcall
          clear hcall
          cases hcb : checkEntry f first dir (DirEntry.ofBytes buf off) block off s with
          | none =>
              rw [hcb] at hres
              cases hres
          | some res' =>
              obtain ⟨s', stop⟩ := res'
              rw [hcb] at hres
              cases hres
              cases stop with
              | true =>
                  -- nothing stops a scan but what it reports
                  cases hnext
                  obtain ⟨-, -, -, -, -, hstop, -⟩ := checkEntry_clean hcb hclean
                  cases hstop
              | false =>
                  obtain ⟨hsame, hclean', hlater⟩ := ih hnext hclean
                  obtain ⟨herrors, hpass, hplace, hlast, hfit, -, rfl⟩ :=
                    checkEntry_clean hcb hclean'
                  refine ⟨hsame, herrors, fun hle fuel' hfuel => ?_⟩
                  by_cases hzero : (DirEntry.ofBytes buf off).recordLen = 0
                  · -- the walk would have ended where it stands
                    rw [hzero, Nat.add_zero] at hlater
                    have hns : ¬ buf.Sound off := fun hs => hs.2.1 hzero
                    obtain ⟨hstop, -⟩ := hlater hle fuel' hfuel
                    have hstay : buf.stopFrom fuel' off = off := by
                      cases fuel' <;> simp [Block.stopFrom, hns]
                    omega
                  · have hs : buf.Sound off := ⟨h9, hzero, hfit⟩
                    cases fuel' with
                    | zero => omega
                    | succ fuel' =>
                        obtain ⟨hstop, horder, hgathers⟩ :=
                          hlater hfit fuel' (by omega)
                        simp only [Block.stopFrom, Block.recordsFrom, hs, if_true]
                        exact ⟨hstop, ⟨⟨hpass, hplace, hlast⟩, horder⟩, hgathers.cons⟩
        · cases hparse
      · rename_i hge
        cases hrun
        refine ⟨rfl, hclean, fun hle fuel' _ => ?_⟩
        have hns : ¬ buf.Sound off := fun hs => by
          have := hs.1
          omega
        have hrecords : buf.recordsFrom fuel' off = [] := by
          cases fuel' <;> simp [Block.recordsFrom, hns]
        have hstay : buf.stopFrom fuel' off = off := by
          cases fuel' <;> simp [Block.stopFrom, hns]
        rw [hrecords, hstay]
        exact ⟨by omega, trivial, .nil _⟩

end DirectoryHandler

/-! ## On the device -/

namespace Geom

variable {g : Geom} {d d' : MemoryDevice} {v : View} {t : St} {first : Bool} {dir b : Nat}
  {dirs dirs' others others' : List Nat}

theorem of_readData {buf : Block} (hd : g.Holds d v)
    (hrun : readBlock (g.dataStart + b) d = .ok buf d') :
    d' = d ∧ b < g.cap ∧ buf = v.data b := by
  unfold readBlock at hrun
  split at hrun
  · cases hrun
  · rename_i hlt
    cases hrun
    have hstart := g.dataStart_add_cap
    have hb : b < g.cap := by
      rw [hd.1] at hlt
      omega
    refine ⟨rfl, hb, ?_⟩
    rw [← hd.2]
    simp only [view, hb, if_true]

/-- The scan of a block that finds nothing. -/
theorem entries_clean (hd : g.Holds d v)
    (hrun : checkIntegrityEntriesInBlock (g.format t) b first dir dirs others d =
      .ok ([], dirs', others') d') :
    d' = d ∧ b < g.cap ∧ (v.data b).InOrder g.inodes first ∧
      dirs' = dirs ++ (v.data b).dirs first ∧ others' = others ++ (v.data b).leaves := by
  obtain ⟨r, d₁, hscan, hlast⟩ := Prog.of_ok_bind hrun
  clear hrun
  obtain ⟨addr, d₂, hadd, hread⟩ := Prog.of_ok_bind hscan
  clear hscan
  unfold add32 Prog.checkedAdd at hadd
  split at hadd
  · cases hadd
    obtain ⟨buf, d₃, hbuf, hwalk⟩ := Prog.of_ok_bind hread
    rw [Nat.add_comm] at hbuf
    obtain ⟨rfl, hb, rfl⟩ := of_readData hd hbuf
    obtain ⟨hreply, rfl⟩ := Outcome.ok.inj hlast
    obtain ⟨hr, hchildren⟩ := Prod.mk.inj hreply
    obtain ⟨rfl, rfl⟩ := Prod.mk.inj hchildren
    obtain ⟨rfl, -, hlater⟩ := iterateUnchecked_clean hwalk hr
    obtain ⟨hstop, horder, hgathers⟩ := hlater (Nat.zero_le _) BLOCK_SIZE (by omega)
    exact ⟨rfl, hb, ⟨hstop, horder⟩, hgathers.childDirs, hgathers.childOthers⟩
  · cases hadd

/-- The scan of a block in order finds nothing. -/
theorem runs_entries_inOrder (hb : b < g.cap) (h : (v.data b).InOrder g.inodes first) :
    Prog.Runs g.Holds (checkIntegrityEntriesInBlock (g.format t) b first dir dirs others) v
      ([], dirs ++ (v.data b).dirs first, others ++ (v.data b).leaves) v := by
  obtain ⟨hfull, horder⟩ := h
  obtain ⟨r, hfold, hr⟩ := @foldRecords_inOrder (g.format t) first dir b (v.data b).records
    ⟨[], dirs, others, 0, false, 0, BLOCK_SIZE⟩ horder fun x hx => by
      obtain ⟨hs, heq, -⟩ := Block.recordsFrom_sound hx
      rw [heq]
      exact hs.2.2
  refine (runs_iterateBlockUnchecked hb hfull hfold).bind ?_
  rw [hr.errors, hr.childDirs, hr.childOthers]
  exact Prog.Runs.pure _ _

end Geom

end FerrisFS
