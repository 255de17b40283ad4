import FerrisFS.V1.Inspect
import FerrisFS.V1.Sessions
import FerrisFS.V1.Siblings

/-!
# What failed calls leave behind

The calls that create, link and delete names by path. A failure before anything is
allocated changes nothing. `allocate` overwrites a count in memory when it finds fewer
inodes or blocks than the count promises, and a directory that cannot grow any more is
noticed after its new block was taken.
-/

namespace FerrisFS

open Lib Lib.Prog DirectoryHandler INodeTableHandler FormatV1

/-- The calls that create, link and delete names by path. -/
def Op.ByPath : Op → Prop
  | .createFile _ _ | .createDirectory _ _ | .createSymlink _ _ _ _ | .createHardlink _ _ _
  | .delete _ _ => True
  | _ => False

namespace FFS

/-- The device and the superblock in memory are what they were. -/
structure Preserved (s s' : FFS) : Prop where
  device : s'.device = s.device
  superblock : s'.format.superblock = s.format.superblock

/-- If the call fails it has changed nothing. -/
def FailsClean {α : Type} (s : FFS) (m : FsM α) : Prop :=
  ∀ e s', m s = .err e s' → s.Preserved s'

/-- The name is free, there is an answer to where the record fits, and the counts allow for
`n` inodes and `k` data blocks besides those that the directory needs. -/
structure Asks (s : FFS) (p : Nat) (entry : DirEntry) (n k : Nat) (fit : Option (Nat × Nat)) :
    Prop where
  unnamed : s.findEntry p entry.name = some none
  room : s.canFit p entry = some fit
  inodes_le : n ≤ s.format.superblock.freeInodes
  data_le : k + Needs (s.view.ino p) fit ≤ s.format.superblock.freeData

/-- The bitmaps do not have what the counts promise, or the directory cannot grow. -/
def Lacks (s : FFS) (p n k : Nat) (fit : Option (Nat × Nat)) : Prop :=
  (s.format.inodeAllocator.pick s.view.ibit n).length < n ∨
    (s.format.blockAllocator.pick s.view.dbit (k + Needs (s.view.ino p) fit)).length <
      k + Needs (s.view.ino p) fit ∨
    (fit = none ∧ INode.MAX_BLOCKS ≤ (s.view.ino p).blocks)

/-- The call fails once it has started to change something. -/
inductive FailsLate (s : FFS) (op : Op) : Prop where
  | create {p ft name now fit} (h : Creates s op p ft name now)
      (hasks : s.Asks p (newEntry ft name) 1 (fileBlocks ft) fit)
      (hlacks : s.Lacks p 1 (fileBlocks ft) fit) : FailsLate s op
  | link {i p name now fit} (h : Links s op i p name now)
      (hasks : s.Asks p (DirEntry.new i .file name) 0 0 fit) (hlacks : s.Lacks p 0 0 fit) :
      FailsLate s op

variable {α β : Type} {s s' : FFS}

theorem Preserved.refl : s.Preserved s := ⟨rfl, rfl⟩

theorem FailsClean.of_eq {m m' : FsM α} (h : m s = m' s) : s.FailsClean m ↔ s.FailsClean m' := by
  unfold FailsClean
  rw [h]

/-- What cannot fail does not matter. -/
theorem failsClean_bind_iff {m : FsM α} {f : α → FsM β}
    (hf : ∀ a s₁, m s = .ok a s₁ → ∀ e s', f a s₁ ≠ .err e s') :
    s.FailsClean (m >>= f) ↔ s.FailsClean m := by
  constructor
  · intro h e s' herr
    exact h e s' (bind_of_err herr f)
  · intro h e s' herr
    rw [bind_apply] at herr
    cases hm : m s with
    | ok a s₁ =>
        rw [hm] at herr
        exact absurd herr (hf a s₁ hm e s')
    | err e₁ s₁ =>
        rw [hm] at herr
        cases herr
        exact h e s' hm
    | panic =>
        rw [hm] at herr
        cases herr

theorem failsClean_getFormat {f : FormatV1 → FsM α} :
    s.FailsClean (getFormat >>= f) ↔ s.FailsClean (f s.format) := Iff.rfl

theorem failsClean_fail {e : FSError} : s.FailsClean (Prog.fail e : FsM α) := by
  intro _ s' herr
  cases herr
  exact .refl

theorem failsClean_guard {c : Prop} [Decidable c] {e : FSError} {f : α → FsM β} {m : FsM β} :
    s.FailsClean (if c then Prog.fail e >>= f else m) ↔ (¬ c → s.FailsClean m) := by
  by_cases hc : c
  · rw [if_pos hc]
    exact ⟨fun _ hne => absurd hc hne, fun _ => failsClean_fail⟩
  · rw [if_neg hc]
    exact ⟨fun h _ => h, fun h => h hc⟩

theorem failsClean_unwrap {o : Option α} {f : α → FsM β} :
    s.FailsClean (Prog.unwrap o >>= f) ↔ ∀ a, o = some a → s.FailsClean (f a) := by
  cases o with
  | none =>
      constructor
      · intro _ a ha
        cases ha
      · intro _ e s' herr
        cases herr
  | some a =>
      constructor
      · intro h b hb
        cases hb
        exact h
      · intro h
        exact h a rfl

/-- A part that only reads fails without a trace. -/
theorem failsClean_read {m : DevM α} (hro : Prog.ReadOnly m) {f : α → FsM β} :
    s.FailsClean (onDevice m >>= f) ↔
      ∀ a, (m s.device).value? = some a → s.FailsClean (f a) := by
  cases hm : m s.device with
  | ok a d =>
      have hrun : (onDevice m >>= f) s = f a s := by
        rw [bind_of_ok (Geom.onDevice_of_value hro (by rw [hm]; rfl))]
      rw [FailsClean.of_eq hrun]
      constructor
      · intro h b hb
        cases hb
        exact h
      · intro h
        exact h a rfl
  | err e d =>
      constructor
      · intro _ a ha
        cases ha
      · intro _ e' s' herr
        rw [bind_of_err (Geom.onDevice_of_err hro hm)] at herr
        cases herr
        exact .refl
  | panic =>
      constructor
      · intro _ a ha
        cases ha
      · intro _ e s' herr
        rw [bind_of_panic (Geom.onDevice_of_panic hm)] at herr
        cases herr

/-- What never fails. -/
theorem failsClean_of_wpr {g : Geom} {t : St} {m : FsM α} {Q : α → St → Prop} (hs : g.Rep s t)
    (h : Prog.wpr g.Rep m Q (fun _ _ => False) t) : s.FailsClean m := by
  intro e s' herr
  obtain ⟨-, -, hf⟩ := h.of_err hs herr
  exact hf.elim

/-- The look-ups before `allocate` stand in the way, or the counts do, or nothing lacks. -/
theorem not_asks_iff {p n k : Nat} {entry : DirEntry} :
    (s.findEntry p entry.name = some none → ∀ fit, s.canFit p entry = some fit →
        ¬ (n ≤ s.format.superblock.freeInodes ∧
          k + Needs (s.view.ino p) fit ≤ s.format.superblock.freeData ∧ s.Lacks p n k fit)) ↔
      ¬ ∃ fit, s.Asks p entry n k fit ∧ s.Lacks p n k fit := by
  constructor
  · intro h hex
    obtain ⟨fit, hasks, hlacks⟩ := hex
    exact h hasks.unnamed fit hasks.room ⟨hasks.inodes_le, hasks.data_le, hlacks⟩
  · intro h hfree fit hfit hbad
    obtain ⟨hn, hk, hlacks⟩ := hbad
    exact h ⟨fit, ⟨hfree, hfit, hn, hk⟩, hlacks⟩

end FFS

namespace Geom

variable {α : Type} {g : Geom} {gaps : Bool} {s s' : FFS} {t t' : St} {p i n k : Nat}
  {ft : FileType} {name : Str} {now : UInt64}

/-- The counts in memory are kept with the superblock. -/
theorem counts_of_preserved (hs : g.Rep s t) (hs' : g.Rep s' t') (h : s.Preserved s') :
    t'.freeInodes = t.freeInodes ∧ t'.freeData = t.freeData := by
  have hfmt := hs.2
  have hfmt' := hs'.2
  have hinodes := congrArg Superblock.freeInodes h.superblock
  have hdata := congrArg Superblock.freeData h.superblock
  rw [hfmt, hfmt'] at hinodes hdata
  exact ⟨hinodes, hdata⟩

/-- `allocate` refuses at once, or it overwrites a count. -/
theorem allocate_failed (hs : g.Rep s t) (hc : t.CursorsIn g) {e : FSError}
    (h : FormatV1.allocate n k s = .err e s') :
    ((t.freeInodes < n ∨ t.freeData < k) ∧ s' = s) ∨
      ((n ≤ t.freeInodes ∧ k ≤ t.freeData ∧
        ((g.pickInodes t n).length < n ∨ (g.pickData t k).length < k)) ∧ ¬ s.Preserved s') := by
  obtain ⟨t', hs', hfail⟩ := (wpr_allocate hc).of_err hs h
  have hfmt := hs.2
  cases hfail with
  | refused hlt =>
      refine .inl ⟨hlt, ?_⟩
      have hwp : wp (FormatV1.allocate n k) (fun _ _ => True) (fun _ s' => s' = s) s := by
        refine wp_getFormat ?_
        rw [hfmt]
        refine wp_guard (fun _ => rfl) fun hn => wp_guard (fun _ => rfl) fun hk => ?_
        exact (hlt.elim hn hk).elim
      exact hwp.of_err h
  | inodes hn hk hshort =>
      refine .inr ⟨⟨hn, hk, .inl hshort⟩, fun hkept => ?_⟩
      have hcount : (g.pickInodes t n).length = t.freeInodes :=
        (counts_of_preserved hs hs' hkept).1
      omega
  | data hn hk hshort =>
      refine .inr ⟨⟨hn, hk, .inr hshort⟩, fun hkept => ?_⟩
      have hcount : (g.pickData t k).length = t.freeData := (counts_of_preserved hs hs' hkept).2
      omega

/-- What begins with `allocate` leaves a trace of its failure exactly when the bitmaps have
less than the counts promise, or when `bad` is in the way of the rest. -/
theorem failsClean_allocate (hs : g.Rep s t) (hc : t.CursorsIn g)
    {rest : List Nat × List Nat → FsM α} {bad : Prop} (hpos : bad → 0 < n + k)
    (hrest : ∀ is ds, g.Allocated t n k is ds (t.taken is ds) →
      Prog.wpa g.Rep (rest (is, ds)) (fun _ _ => ¬ bad)
        (fun _ t' => bad ∧ t'.freeInodes = t.freeInodes - n ∧ t'.freeData = t.freeData - k)
        (¬ bad) (t.taken is ds)) :
    s.FailsClean (FormatV1.allocate n k >>= rest) ↔
      ¬ (n ≤ s.format.superblock.freeInodes ∧ k ≤ s.format.superblock.freeData ∧
        ((s.format.inodeAllocator.pick s.view.ibit n).length < n ∨
          (s.format.blockAllocator.pick s.view.dbit k).length < k ∨ bad)) := by
  have hcond : (n ≤ s.format.superblock.freeInodes ∧ k ≤ s.format.superblock.freeData ∧
      ((s.format.inodeAllocator.pick s.view.ibit n).length < n ∨
        (s.format.blockAllocator.pick s.view.dbit k).length < k ∨ bad)) ↔
      (n ≤ t.freeInodes ∧ k ≤ t.freeData ∧
        ((g.pickInodes t n).length < n ∨ (g.pickData t k).length < k ∨ bad)) := by
    rw [hs.view_eq, hs.2]
    exact Iff.rfl
  rw [hcond]
  cases hm : FormatV1.allocate n k s with
  | ok taken s₁ =>
      obtain ⟨is, ds⟩ := taken
      obtain ⟨t₁, hs₁, halloc⟩ := (wpr_allocate hc).of_ok hs hm
      obtain rfl := halloc.state
      have hi : (g.pickInodes t n).length = n := halloc.inodes_eq ▸ halloc.inodes_length
      have hd : (g.pickData t k).length = k := halloc.data_eq ▸ halloc.data_length
      have hrun := hrest is ds halloc s₁ hs₁
      have heq : (FormatV1.allocate n k >>= rest) s = rest (is, ds) s₁ := bind_of_ok hm rest
      rw [hi, hd]
      cases hr : rest (is, ds) s₁ with
      | ok a s₂ =>
          rw [hr] at hrun
          obtain ⟨-, -, hbad⟩ := hrun
          refine iff_of_true ?_ fun h => h.2.2.elim (Nat.lt_irrefl n) fun h =>
            h.elim (Nat.lt_irrefl k) hbad
          intro e s' herr
          rw [heq, hr] at herr
          cases herr
      | err e s₂ =>
          rw [hr] at hrun
          obtain ⟨t₂, hs₂, hbad, hinodes, hdata⟩ := hrun
          refine iff_of_false ?_ fun h => h ⟨halloc.inodes_le, halloc.data_le, .inr (.inr hbad)⟩
          intro hclean
          have hkept := counts_of_preserved hs hs₂ (hclean e s₂ (heq.trans hr))
          have hle := halloc.inodes_le
          have hle' := halloc.data_le
          have hsome := hpos hbad
          omega
      | panic =>
          rw [hr] at hrun
          refine iff_of_true ?_ fun h => h.2.2.elim (Nat.lt_irrefl n) fun h =>
            h.elim (Nat.lt_irrefl k) hrun
          intro e s' herr
          rw [heq, hr] at herr
          cases herr
  | err e s₁ =>
      have heq : (FormatV1.allocate n k >>= rest) s = .err e s₁ := bind_of_err hm rest
      rcases allocate_failed hs hc hm with ⟨hlt, rfl⟩ | ⟨⟨hn, hk, hshort⟩, hnot⟩
      · refine iff_of_true ?_ fun h => ?_
        · intro e' s' herr
          rw [heq] at herr
          cases herr
          exact .refl
        · have hn := h.1
          have hk := h.2.1
          omega
      · refine iff_of_false (fun hclean => hnot (hclean e s₁ heq)) fun h => ?_
        exact h ⟨hn, hk, hshort.elim .inl fun hd => .inr (.inl hd)⟩
  | panic => exact ((wpa_allocate hc).of_panic hs hm).elim

/-- `create` from the search for room on. -/
theorem failsClean_createFit (hs : g.Rep s t) (h : g.Intact gaps t) (hp : t.ibit p = true) :
    s.FailsClean (onDevice (s.format.directoryHandler.canFit (s.view.ino p)
        s.format.inodeHandler (newEntry ft name)) >>= fun fit =>
      FormatV1.allocate 1 (if fit.isSome then fileBlocks ft
        else fileBlocks ft + 1 + blocksNecessaryToGrow (s.view.ino p)) >>=
      createRest s.format p (s.view.ino p) ft name now fit) ↔
    ∀ fit, s.canFit p (newEntry ft name) = some fit →
      ¬ (1 ≤ s.format.superblock.freeInodes ∧
        fileBlocks ft + Needs (s.view.ino p) fit ≤ s.format.superblock.freeData ∧
        s.Lacks p 1 (fileBlocks ft) fit) := by
  refine (FFS.failsClean_read (readOnly_canFit _ _ _ _)).trans ?_
  refine forall_congr' fun fit => forall_congr' fun hfit => ?_
  have hfitOf := hs.canFit (h.mapped hp) hfit
  have hneed : (if fit.isSome then fileBlocks ft
      else fileBlocks ft + 1 + blocksNecessaryToGrow (s.view.ino p)) =
      fileBlocks ft + Needs (s.view.ino p) fit := by
    unfold Needs
    split <;> omega
  have hrest : ∀ is ds,
      g.Allocated t 1 (fileBlocks ft + Needs (s.view.ino p) fit) is ds (t.taken is ds) →
      Prog.wpa g.Rep (createRest s.format p (s.view.ino p) ft name now fit (is, ds))
        (fun _ _ => ¬ (fit = none ∧ INode.MAX_BLOCKS ≤ (s.view.ino p).blocks))
        (fun _ t' => (fit = none ∧ INode.MAX_BLOCKS ≤ (s.view.ino p).blocks) ∧
          t'.freeInodes = t.freeInodes - 1 ∧
          t'.freeData = t.freeData - (fileBlocks ft + Needs (s.view.ino p) fit))
        (¬ (fit = none ∧ INode.MAX_BLOCKS ≤ (s.view.ino p).blocks)) (t.taken is ds) := by
    rw [hs.view_eq, hs.2]
    intro is ds halloc
    obtain ⟨i, rfl⟩ : ∃ i, is = [i] := List.length_eq_one_iff.mp halloc.inodes_length
    refine Prog.wpa_mono (wpa_createRest h hp hfitOf halloc) ?_ ?_ ?_
    · intro r t' hcreated hstuck
      obtain ⟨-, n', data', hent, -, -⟩ := hcreated
      have hlt := hent.growable hstuck.1
      omega
    · intro e t' hstuck
      obtain ⟨hnone, hmax, rfl⟩ := hstuck
      refine ⟨⟨hnone, hmax⟩, rfl, ?_⟩
      rw [← halloc.data_length]
      rfl
    · intro hsize hstuck
      have hlt := hsize.2.1
      omega
  rw [hneed]
  exact failsClean_allocate hs h.cursors (fun _ => by omega) hrest

/-- The common body of `create` and `create_child`. -/
theorem failsClean_createIn (hs : g.Rep s t) (h : g.Intact gaps t) (hp : t.ibit p = true)
    (hft : ft ≠ .unknown) {onExists : DirEntry → FSError} :
    s.FailsClean (createIn p (s.view.ino p) ft name onExists now) ↔
      ¬ ∃ fit, s.Asks p (newEntry ft name) 1 (fileBlocks ft) fit ∧
        s.Lacks p 1 (fileBlocks ft) fit := by
  have hfit := @failsClean_createFit g gaps s t p ft name now hs h hp
  refine Iff.trans ?_ FFS.not_asks_iff
  unfold createIn
  rw [FFS.failsClean_getFormat, FFS.failsClean_read (readOnly_findEntry _ _ _ _)]
  constructor
  · intro hall hnone
    have hclean := hall none hnone
    dsimp only at hclean
    rw [if_neg hft] at hclean
    exact hfit.mp hclean
  · intro hall existing hexisting
    match existing with
    | some (e, b, off) => exact FFS.failsClean_fail
    | none =>
        dsimp only
        rw [if_neg hft]
        exact hfit.mpr (hall hexisting)

/-- `create_hardlink` from the search for room on. -/
theorem failsClean_linkFit (hs : g.Rep s t) (h : g.Intact gaps t) (hi : i < g.inodes)
    (hp : t.ibit p = true) :
    s.FailsClean (onDevice (s.format.directoryHandler.canFit (s.view.ino p)
        s.format.inodeHandler (DirEntry.new i .file name)) >>= fun fit =>
      FormatV1.allocate 0 (if fit.isSome then 0
        else 1 + blocksNecessaryToGrow (s.view.ino p)) >>=
      linkRest s.format (s.view.ino i) i name (s.view.ino p) p now fit) ↔
    ∀ fit, s.canFit p (DirEntry.new i .file name) = some fit →
      ¬ (0 ≤ s.format.superblock.freeInodes ∧
        0 + Needs (s.view.ino p) fit ≤ s.format.superblock.freeData ∧ s.Lacks p 0 0 fit) := by
  refine (FFS.failsClean_read (readOnly_canFit _ _ _ _)).trans ?_
  refine forall_congr' fun fit => forall_congr' fun hfit => ?_
  have hfitOf := hs.canFit (h.mapped hp) hfit
  have hneed : (if fit.isSome then 0 else 1 + blocksNecessaryToGrow (s.view.ino p)) =
      0 + Needs (s.view.ino p) fit := by
    rw [Nat.zero_add]
    rfl
  have hrest : ∀ is ds, g.Allocated t 0 (0 + Needs (s.view.ino p) fit) is ds (t.taken is ds) →
      Prog.wpa g.Rep (linkRest s.format (s.view.ino i) i name (s.view.ino p) p now fit (is, ds))
        (fun _ _ => ¬ (fit = none ∧ INode.MAX_BLOCKS ≤ (s.view.ino p).blocks))
        (fun _ t' => (fit = none ∧ INode.MAX_BLOCKS ≤ (s.view.ino p).blocks) ∧
          t'.freeInodes = t.freeInodes - 0 ∧
          t'.freeData = t.freeData - (0 + Needs (s.view.ino p) fit))
        (¬ (fit = none ∧ INode.MAX_BLOCKS ≤ (s.view.ino p).blocks)) (t.taken is ds) := by
    rw [hs.view_eq, hs.2]
    intro is ds halloc
    obtain rfl : is = [] := List.length_eq_zero_iff.mp halloc.inodes_length
    rw [Nat.zero_add] at halloc ⊢
    refine Prog.wpa_mono (wpa_linkRest h hi hp hfitOf halloc) ?_ ?_ ?_
    · intro _ t' hlinked hstuck
      obtain ⟨n', data', hent, -, -, -⟩ := hlinked
      have hlt := hent.growable hstuck.1
      omega
    · intro e t' hstuck
      obtain ⟨hnone, hmax, rfl⟩ := hstuck
      refine ⟨⟨hnone, hmax⟩, rfl, ?_⟩
      rw [← halloc.data_length]
      rfl
    · intro hpanic hstuck
      have hlt : (t.ino p).blocks < INode.MAX_BLOCKS :=
        hpanic.elim (fun hsize => hsize.2.1) fun hlinks => hlinks.1 hstuck.1
      omega
  rw [hneed]
  refine failsClean_allocate hs h.cursors (fun hstuck => ?_) hrest
  have hpos : Needs (s.view.ino p) none = 1 + blocksNecessaryToGrow (s.view.ino p) := rfl
  rw [hstuck.1, hpos]
  omega

/-- The common body of `create_hardlink` and `create_child_hardlink`. -/
theorem failsClean_linkIn (hs : g.Rep s t) (h : g.Intact gaps t) (hi : i < g.inodes)
    (hp : t.ibit p = true) {dst : Str} :
    s.FailsClean (linkIn (s.view.ino i) i dst name (s.view.ino p) p now) ↔
      ¬ ∃ fit, s.Asks p (DirEntry.new i .file name) 0 0 fit ∧ s.Lacks p 0 0 fit := by
  have hfit := @failsClean_linkFit g gaps s t p i name now hs h hi hp
  refine Iff.trans ?_ FFS.not_asks_iff
  unfold linkIn
  rw [FFS.failsClean_getFormat, FFS.failsClean_read (readOnly_findEntry _ _ _ _)]
  constructor
  · intro hall hnone
    have hclean := FFS.failsClean_guard.mp (hall none hnone) Bool.false_ne_true
    dsimp only at hclean
    exact hfit.mp hclean
  · intro hall existing hexisting
    refine FFS.failsClean_guard.mpr fun hnone => ?_
    obtain rfl : existing = none := by simpa using hnone
    dsimp only
    exact hfit.mpr (hall hexisting)

/-! ## The calls -/

theorem resolve_live (hs : g.Rep s t) (h : g.Inv gaps t) {path : List Component}
    (hpath : Path.Proper path) {final : Bool} {r : ResolutionResult}
    (hr : s.resolve path final = some r) : t.ibit r.targetInodeIndex = true := by
  have hrun := onDevice_of_value (readOnly_resolve _ _ _ _ _) hr
  obtain ⟨-, -, hres, -⟩ := (wp_resolve hs h hpath final).of_ok hrun
  exact h.reach_live hres.reach

theorem resolve_view (hs : g.Rep s t) {path : List Component} {final : Bool}
    {r : ResolutionResult} (hr : s.resolve path final = some r) :
    r.targetInode = s.view.ino r.targetInodeIndex := by
  rw [hs.view_eq]
  exact resolve_inode hs hr

/-- `create` once the path is split. -/
theorem create_of_split {path : Str} {parent : List Component}
    (hsplit : Path.split path = some (parent, name)) (hft : ft ≠ .unknown) :
    create path ft now s =
      (onDevice (s.format.directoryHandler.resolve parent s.format.superblock.rootInode
        s.format.inodeHandler true) >>= fun r =>
      createIn r.targetInodeIndex r.targetInode ft name (fun _ => .alreadyExists path) now) s := by
  unfold create
  rw [if_neg hft, hsplit]
  rfl

theorem failsClean_create (hs : g.Rep s t) (h : g.Inv gaps t) (hft : ft ≠ .unknown)
    {path : Str} : s.FailsClean (create path ft now) ↔
      ¬ ∃ parent name r, Path.split path = some (parent, name) ∧
        s.resolve parent true = some r ∧
        ∃ fit, s.Asks r.targetInodeIndex (newEntry ft name) 1 (fileBlocks ft) fit ∧
          s.Lacks r.targetInodeIndex 1 (fileBlocks ft) fit := by
  cases hsplit : Path.split path with
  | none =>
      have hpanic : create path ft now s = .panic := by
        unfold create
        rw [if_neg hft, hsplit]
        rfl
      constructor
      · intro _ hex
        obtain ⟨parent, name, r, hsome, -⟩ := hex
        cases hsome
      · intro _ e s' herr
        rw [hpanic] at herr
        cases herr
  | some split =>
      obtain ⟨parent, name⟩ := split
      have hproper := (Path.proper_split hsplit).1
      rw [FFS.FailsClean.of_eq (create_of_split hsplit hft),
        FFS.failsClean_read (readOnly_resolve _ _ _ _ _)]
      have hbody : ∀ r, s.resolve parent true = some r →
          (s.FailsClean (createIn r.targetInodeIndex r.targetInode ft name
            (fun _ => .alreadyExists path) now) ↔
          ¬ ∃ fit, s.Asks r.targetInodeIndex (newEntry ft name) 1 (fileBlocks ft) fit ∧
            s.Lacks r.targetInodeIndex 1 (fileBlocks ft) fit) := by
        intro r hr
        rw [resolve_view hs hr]
        exact failsClean_createIn hs h.toIntact (resolve_live hs h hproper hr) hft
      constructor
      · intro hall hex
        obtain ⟨parent', name', r, hsome, hr, hlate⟩ := hex
        cases hsome
        exact (hbody r hr).mp (hall r hr) hlate
      · intro hnot r hr
        exact (hbody r hr).mpr fun hlate => hnot ⟨parent, name, r, rfl, hr, hlate⟩

/-- `create_hardlink` once the source is found. -/
theorem failsClean_linkTo (hs : g.Rep s t) (h : g.Inv gaps t) {src dst : Str}
    {a : ResolutionResult} (ha : s.resolve (Path.components src) true = some a) :
    s.FailsClean (Prog.unwrap (Path.split dst) >>= fun x =>
      onDevice (s.format.directoryHandler.resolve x.1 s.format.superblock.rootInode
        s.format.inodeHandler true) >>= fun r =>
      linkIn a.targetInode a.targetInodeIndex dst x.2 r.targetInode r.targetInodeIndex now) ↔
    ¬ ∃ parent name r, Path.split dst = some (parent, name) ∧ s.resolve parent true = some r ∧
      ∃ fit, s.Asks r.targetInodeIndex (DirEntry.new a.targetInodeIndex .file name) 0 0 fit ∧
        s.Lacks r.targetInodeIndex 0 0 fit := by
  have hlt := h.lt (resolve_live hs h (Path.proper_components src) ha)
  cases hsplit : Path.split dst with
  | none =>
      constructor
      · intro _ hex
        obtain ⟨parent, name, r, hsome, -⟩ := hex
        cases hsome
      · intro _ e s' herr
        cases herr
  | some split =>
      obtain ⟨parent, name⟩ := split
      have hproper := (Path.proper_split hsplit).1
      have hbody : ∀ r, s.resolve parent true = some r →
          (s.FailsClean (linkIn a.targetInode a.targetInodeIndex dst name r.targetInode
            r.targetInodeIndex now) ↔
          ¬ ∃ fit, s.Asks r.targetInodeIndex (DirEntry.new a.targetInodeIndex .file name) 0 0 fit ∧
            s.Lacks r.targetInodeIndex 0 0 fit) := by
        intro r hr
        rw [resolve_view hs hr, resolve_view hs ha]
        exact failsClean_linkIn hs h.toIntact hlt (resolve_live hs h hproper hr)
      rw [FFS.failsClean_unwrap]
      constructor
      · intro hall hex
        obtain ⟨parent', name', r, hsome, hr, hlate⟩ := hex
        cases hsome
        have hclean := hall (parent, name) rfl
        rw [FFS.failsClean_read (readOnly_resolve _ _ _ _ _)] at hclean
        exact (hbody r hr).mp (hclean r hr) hlate
      · intro hnot x hx
        cases hx
        rw [FFS.failsClean_read (readOnly_resolve _ _ _ _ _)]
        intro r hr
        exact (hbody r hr).mpr fun hlate => hnot ⟨parent, name, r, rfl, hr, hlate⟩

theorem failsClean_createHardlink (hs : g.Rep s t) (h : g.Inv gaps t) {src dst : Str} :
    s.FailsClean (createHardlink src dst now) ↔ ¬ ∃ a parent name r,
      s.resolve (Path.components src) true = some a ∧ a.targetInode.fileType = .file ∧
      Path.split dst = some (parent, name) ∧ s.resolve parent true = some r ∧
      ∃ fit, s.Asks r.targetInodeIndex (DirEntry.new a.targetInodeIndex .file name) 0 0 fit ∧
        s.Lacks r.targetInodeIndex 0 0 fit := by
  unfold createHardlink
  rw [FFS.failsClean_getFormat, FFS.failsClean_read (readOnly_resolve _ _ _ _ _)]
  constructor
  · intro hall hex
    obtain ⟨a, parent, name, r, ha, hfile, hlate⟩ := hex
    have hclean := FFS.failsClean_guard.mp (hall a ha) (not_not.mpr hfile)
    exact (failsClean_linkTo hs h ha).mp hclean ⟨parent, name, r, hlate⟩
  · intro hnot a ha
    refine FFS.failsClean_guard.mpr fun hfile => (failsClean_linkTo hs h ha).mpr fun hlate => ?_
    obtain ⟨parent, name, r, hlate⟩ := hlate
    exact hnot ⟨a, parent, name, r, ha, not_not.mp hfile, hlate⟩

/-- Deleting fails at the emptiness check or not at all. -/
theorem failsClean_unlink {k : Nat × Nat} {e : DirEntry} (hs : g.Rep s t) (h : g.Intact gaps t)
    (hr : t.Rec p k e) (htarget : e.inode = i) (hlive : t.ibit i = true) (hd : e.label ≠ [dot])
    (hup : e.label = [dot, dot] → ¬ Empty t i ∧ (t.ino i).fileType = .directory)
    {notEmpty : FSError} :
    s.FailsClean (unlink (t.ino i) i (t.ino p) p k.1 k.2 notEmpty now) := by
  have hrest := fun hempty : (t.ino i).fileType = .directory → Empty t i =>
    FFS.failsClean_of_wpr hs (wpr_dropLink now h hr htarget hlive
      ⟨hd, fun hl => (hup hl).1 (hempty (hup hl).2)⟩ hempty)
  unfold unlink
  rw [FFS.failsClean_getFormat, hs.2]
  by_cases hdir : (t.ino i).fileType = .directory
  · rw [if_pos hdir]
    refine (FFS.failsClean_read (readOnly_iterateBlocks _ _ _ _ _ _)).mpr fun empty hvalue => ?_
    refine FFS.failsClean_guard.mpr fun hne => hrest fun _ => ?_
    obtain ⟨d, hrun⟩ := Outcome.value?_eq_some.mp hvalue
    obtain ⟨-, -, -, hempty⟩ := (wpr_emptyCheck (h.mapped hlive)).of_ok hs.1 hrun
    exact hempty (by simpa using hne)
  · rw [if_neg hdir]
    exact hrest fun hd => absurd hd hdir

theorem failsClean_delete (hs : g.Rep s t) (h : g.Inv gaps t) {path : Str} :
    s.FailsClean (delete path now) := by
  unfold delete
  rw [FFS.failsClean_getFormat, FFS.failsClean_read (readOnly_resolve _ _ _ _ _)]
  intro r hr
  refine FFS.failsClean_guard.mpr fun hroot => ?_
  refine (FFS.failsClean_read (readOnly_readInode _ _)).mpr fun n hn => ?_
  have hrun := onDevice_of_value (readOnly_resolve _ _ _ _ _) hr
  obtain ⟨-, -, hres, hloc⟩ :=
    (wp_resolve hs h (Path.proper_components path) false).of_ok hrun
  have hfmt := hs.2
  rw [hfmt] at hroot
  have hne : r.targetInodeIndex ≠ 0 := hroot
  have hloc := (hloc rfl).resolve_left hne
  have hup : r.dirEntry.label = [dot, dot] → ¬ Empty t r.targetInodeIndex ∧
      (t.ino r.targetInodeIndex).fileType = .directory := fun hl =>
    hloc.target ▸ not_empty_of_up h hloc.parent hloc.record hl (hloc.target.symm ▸ hne)
  have hread := hs.readInode (h.lt hloc.record.live)
  obtain rfl : t.ino r.parentInodeIndex = n := Option.some.inj (hread.symm.trans hn)
  rw [hres.inode]
  exact failsClean_unlink hs h.toIntact hloc.record hloc.target (h.reach_live hres.reach)
    hloc.label hup

theorem failsClean_createSymlink (hs : g.Rep s t) (h : g.Inv true t) {path target : Str}
    {now' : UInt64} : s.FailsClean (createSymlink path target now now') ↔
      s.FailsClean (create path .symlink now) := by
  refine FFS.failsClean_bind_iff fun a s₁ hcreate e s' herr => ?_
  have hspec := @wp_create g true s t (.createSymlink path target now now') hs h path .symlink
    now fun hsplit hr => .symlink hsplit hr
  obtain ⟨p, name, fit, ds, n', data', t', hs', hc, hp, hd, hdd, hfit, hn, hcr⟩ :=
    hspec.of_ok hcreate
  have hnode : a.1 = t'.ino a.2 := by
    rw [hcr.ino_new h.toIntact hp]
    exact hn
  have hlive : t'.ibit a.2 = true := hcr.ibit_iff.mpr (.inr rfl)
  have hwrite := @wpr_writeSymlink g true t' a.2 target now' (hcr.inv h hp hd hdd (.inl rfl))
    hlive (hcr.direct_mem h hp)
  rw [← hnode] at hwrite
  obtain ⟨-, -, hf⟩ := hwrite.of_err hs' herr
  exact hf.elim

/-- A call that creates a name of type `ft` at `path`. -/
theorem failsLate_create_iff {op : Op} {path : Str} (hlink : op.link? s = none)
    (hcreation : op.creation? s = (s.parent? path).map fun x => (x.1, ft, x.2, now)) :
    s.FailsLate op ↔ ∃ parent name r, Path.split path = some (parent, name) ∧
      s.resolve parent true = some r ∧
      ∃ fit, s.Asks r.targetInodeIndex (newEntry ft name) 1 (fileBlocks ft) fit ∧
        s.Lacks r.targetInodeIndex 1 (fileBlocks ft) fit := by
  constructor
  · intro hlate
    cases hlate with
    | create hc hasks hlacks =>
        have hsome := creates_iff.mp hc
        rw [hcreation] at hsome
        obtain ⟨⟨p, name⟩, hp, heq⟩ := Option.map_eq_some_iff.mp hsome
        cases heq
        obtain ⟨parent, r, hsplit, hr, rfl⟩ := FFS.parent?_eq_some.mp hp
        exact ⟨parent, name, r, hsplit, hr, _, hasks, hlacks⟩
    | link hl =>
        have hsome := links_iff.mp hl
        rw [hlink] at hsome
        cases hsome
  · intro hex
    obtain ⟨parent, name, r, hsplit, hr, fit, hasks, hlacks⟩ := hex
    have hc : Creates s op r.targetInodeIndex ft name now := by
      rw [creates_iff, hcreation, FFS.parent?_eq_some.mpr ⟨parent, r, hsplit, hr, rfl⟩]
      rfl
    exact .create hc hasks hlacks

theorem failsLate_createHardlink_iff {src dst : Str} :
    s.FailsLate (.createHardlink src dst now) ↔ ∃ a parent name r,
      s.resolve (Path.components src) true = some a ∧ a.targetInode.fileType = .file ∧
      Path.split dst = some (parent, name) ∧ s.resolve parent true = some r ∧
      ∃ fit, s.Asks r.targetInodeIndex (DirEntry.new a.targetInodeIndex .file name) 0 0 fit ∧
        s.Lacks r.targetInodeIndex 0 0 fit := by
  constructor
  · intro hlate
    cases hlate with
    | create hc => cases hc
    | link hl hasks hlacks =>
        cases hl with
        | path ha hfile hsplit hr =>
            exact ⟨_, _, _, _, ha, hfile, hsplit, hr, _, hasks, hlacks⟩
  · intro hex
    obtain ⟨a, parent, name, r, ha, hfile, hsplit, hr, fit, hasks, hlacks⟩ := hex
    exact .link (.path ha hfile hsplit hr) hasks hlacks

end Geom

/-- A call by path that fails has changed nothing, unless it fails late. -/
theorem failsClean_iff {d : MemoryDevice} {s₀ s : FFS} {now : UInt64}
    (hstart : start now d = some s₀) (hsession : Session s₀ s) {op : Op} (hop : op.ByPath) :
    s.FailsClean op.exec ↔ ¬ s.FailsLate op := by
  obtain ⟨g, t, hs, hsteady⟩ := Geom.steady_of_start hstart hsession
  have h := hsteady.toInv
  cases op with
  | createFile path now' =>
      rw [Geom.failsLate_create_iff rfl rfl]
      have hcreate := @Geom.failsClean_create g true s t .file now' hs h (by decide) path
      refine Iff.trans (FFS.failsClean_bind_iff ?_) hcreate
      intro _ _ _ _ _ herr
      cases herr
  | createDirectory path now' =>
      rw [Geom.failsLate_create_iff rfl rfl]
      have hcreate := @Geom.failsClean_create g true s t .directory now' hs h (by decide) path
      refine Iff.trans (FFS.failsClean_bind_iff ?_) hcreate
      intro _ _ _ _ _ herr
      cases herr
  | createSymlink path target now' now'' =>
      rw [Geom.failsLate_create_iff rfl rfl]
      exact (Geom.failsClean_createSymlink hs h).trans (Geom.failsClean_create hs h (by decide))
  | createHardlink src dst now' =>
      rw [Geom.failsLate_createHardlink_iff]
      exact Geom.failsClean_createHardlink hs h
  | delete path now' =>
      refine iff_of_true (Geom.failsClean_delete hs h) fun hlate => ?_
      cases hlate with
      | create hc => cases hc
      | link hl => cases hl
  | _ => exact hop.elim

/-- A parent that does not exist. -/
theorem failsClean_orphan : ∃ s₀ s s' : FFS, ∃ e, start 0 (MemoryDevice.empty 14) = some s₀ ∧
    Session s₀ s ∧ Op.exec (.createFile [47, 120, 47, 97] 0) s = .err e s' ∧ s.Preserved s' := by
  have hfacts : ((start 0 (MemoryDevice.empty 14)).bind
      (checked (fun s op => op.Tame s) [.createFile [47, 97] 0])).any (fun s =>
        (Op.exec (.createFile [47, 120, 47, 97] 0) s).state?.isSome &&
          (Op.exec (.createFile [47, 120, 47, 97] 0) s).value?.isNone &&
          (Op.creation? s (.createFile [47, 120, 47, 97] 0)).isNone) = true := by
    decide +kernel
  obtain ⟨s, hs, hfacts⟩ := (Option.any_eq_true _ _).mp hfacts
  obtain ⟨s₀, hstart, hchecked⟩ := Option.bind_eq_some_iff.mp hs
  simp only [Bool.and_eq_true, Option.isSome_iff_exists, Option.isNone_iff_eq_none] at hfacts
  obtain ⟨⟨⟨s', hstate⟩, hvalue⟩, hnone⟩ := hfacts
  have hsession : Session s₀ s :=
    Session.of_run (run_of_checked hchecked) fun _ _ hop => hop.careful
  obtain ⟨e, herr⟩ := Outcome.err_of_state hstate hvalue
  have hlate : ¬ s.FailsLate (.createFile [47, 120, 47, 97] 0) := by
    intro hlate
    cases hlate with
    | create hc =>
        rw [creates_iff.mp hc] at hnone
        cases hnone
    | link hl => cases hl
  have hop : Op.ByPath (.createFile [47, 120, 47, 97] 0) := trivial
  exact ⟨s₀, s, s', e, hstart, hsession, herr,
    (failsClean_iff hstart hsession hop).mpr hlate e s' herr⟩

/-- A block is free before the byte that the search starts in: the count of free blocks
is overwritten with what the search found. -/
theorem failsClean_missed : ∃ s₀ s s' : FFS, ∃ e, start 0 (MemoryDevice.empty 14) = some s₀ ∧
    Session s₀ s ∧ s.view.dbit 1 = false ∧ s.format.superblock.freeData = 1 ∧
    Op.exec (.createDirectory [47, 99] 0) s = .err e s' ∧ s'.format.superblock.freeData = 0 ∧
    ¬ s.FailsClean (Op.exec (.createDirectory [47, 99] 0)) := by
  have hfacts : ((start 0 (MemoryDevice.empty 14)).bind
      (checked (fun s op => op.Tame s) [.createDirectory [47, 98] 0, .createFile [47, 97] 0,
        .openFile [47, 97], .write 0 (List.replicate (7 * 256) 1) 0])).any (fun s =>
        ((s.resolve (Path.components [47, 98]) false).any fun r =>
          decide ((s.view.ino r.targetInodeIndex).fileType = .directory)) &&
        (Op.exec (.delete [47, 98] 0) s).state?.any fun s =>
          decide (s.view.dbit 1 = false ∧ s.format.superblock.freeData = 1) &&
          (Op.exec (.createDirectory [47, 99] 0) s).value?.isNone &&
          (Op.exec (.createDirectory [47, 99] 0) s).state?.any fun s' =>
            decide (s'.format.superblock.freeData = 0)) = true := by
    decide +kernel
  obtain ⟨s₁, hs₁, hfacts⟩ := (Option.any_eq_true _ _).mp hfacts
  obtain ⟨s₀, hstart, hchecked⟩ := Option.bind_eq_some_iff.mp hs₁
  simp only [Bool.and_eq_true, Option.any_eq_true, decide_eq_true_eq,
    Option.isNone_iff_eq_none] at hfacts
  obtain ⟨⟨r, hr, hdir⟩, s, hdelete, ⟨⟨hbit, hfree⟩, hvalue⟩, s', hstate, hzero⟩ := hfacts
  have hrun := run_of_checked hchecked
  obtain ⟨g, t, -, hst, h, hh⟩ := Geom.tame_run hstart hrun
  have hsession : Session s₀ s₁ := Session.of_run hrun fun _ _ hop => hop.careful
  -- the directory that is deleted is no open file
  have hcareful : Op.Careful s₁ (.delete [47, 98] 0) := by
    refine ⟨trivial, fun i hdel _ id m hopen => ?_⟩
    cases hdel with
    | path hr' =>
        rw [hr] at hr'
        cases hr'
        intro heq
        obtain ⟨-, hfile⟩ := hh id m (hst.openFiles_eq ▸ hopen)
        rw [heq] at hfile
        rw [hst.view_eq, hfile] at hdir
        cases hdir
  obtain ⟨e, herr⟩ := Outcome.err_of_state hstate hvalue
  refine ⟨s₀, s, s', e, hstart, hsession.call hcareful hdelete, hbit, hfree, herr, hzero, ?_⟩
  intro hclean
  have hkept := congrArg Superblock.freeData (hclean e s' herr).superblock
  omega

end FerrisFS
