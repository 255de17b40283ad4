import FerrisFS.V1.Positions

/-!
# What is left of a truncated file

`truncate` lowers the size and keeps the blocks with their bytes. A later write past the new
end raises the size again, and what it skips is zero only where the blocks are new or were
zero before.
-/

namespace FerrisFS

open Lib INodeTableHandler FormatV1

/-- Seeks and complete writes through handles on the inode `i`. `ws` are the ranges that
were written: where each starts, and how many bytes it has. -/
inductive Later (i : Nat) : FFS → List (Nat × Nat) → FFS → Prop where
  | done {s : FFS} : Later i s [] s
  | seek {s s' s'' : FFS} {ws : List (Nat × Nat)} {id r : Nat} {m : FileMetadata}
      {pos : SeekFrom} (hopen : s.format.openFiles id = some m) (hm : m.inode = i)
      (hrun : FormatV1.seek id pos s = .ok r s') (h : Later i s' ws s'') : Later i s ws s''
  | write {s s' s'' : FFS} {ws : List (Nat × Nat)} {id : Nat} {m : FileMetadata}
      {buf : List UInt8} {now : UInt64} (hopen : s.format.openFiles id = some m)
      (hm : m.inode = i) (hrun : FormatV1.write id buf now s = .ok buf.length s')
      (h : Later i s' ws s'') : Later i s ((m.offset, buf.length) :: ws) s''

/-- None of the writes covers `p`. -/
def Uncovered (ws : List (Nat × Nat)) (p : Nat) : Prop :=
  ∀ w ∈ ws, p < w.1 ∨ w.1 + w.2 ≤ p

/-- Every write starts where its block number is not cut. -/
def AllLow (ws : List (Nat × Nat)) : Prop := ∀ w ∈ ws, w.2 ≠ 0 → w.1 < 2 ^ 40

/-- The size after the writes. -/
def sizeAfter : Nat → List (Nat × Nat) → Nat
  | size, [] => size
  | size, w :: ws => sizeAfter (if w.2 = 0 then size else max size (w.1 + w.2)) ws

namespace FFS

/-- The byte at `p`, read through the handle `id`. -/
def readAt (s : FFS) (id : Nat) (p : UInt64) : Option (List UInt8) :=
  Outcome.value? ((FormatV1.seek id (.start p) >>= fun _ => FormatV1.read id 1) s)

/-- What lies from `size` on, and was not written, reads as zero. -/
def ZeroFrom (s : FFS) (id i size : Nat) (ws : List (Nat × Nat)) : Prop :=
  ∀ p : UInt64, size ≤ p.toNat → p.toNat < (s.view.ino i).size → Uncovered ws p.toNat →
    s.readAt id p = some [0]

/-- The blocks hold zeros where the writes `ws` will skip them, and these stay low. -/
def SkipsZeros (s : FFS) (i size : Nat) (ws : List (Nat × Nat)) : Prop :=
  ∀ p, size ≤ p → p < sizeAfter size ws → Uncovered ws p →
    AllLow ws ∧ (s.bytes i).getD p 0 = 0

end FFS

/-! ## Sizes -/

theorem le_sizeAfter {size : Nat} {ws : List (Nat × Nat)} : size ≤ sizeAfter size ws := by
  induction ws generalizing size with
  | nil => exact Nat.le_refl _
  | cons w ws ih =>
      refine Nat.le_trans ?_ ih
      split
      · exact Nat.le_refl _
      · exact Nat.le_max_left _ _

theorem end_le_sizeAfter {size : Nat} {ws : List (Nat × Nat)} {w : Nat × Nat} (hw : w ∈ ws)
    (hne : w.2 ≠ 0) : w.1 + w.2 ≤ sizeAfter size ws := by
  induction ws generalizing size with
  | nil => cases hw
  | cons w' ws ih =>
      rcases List.mem_cons.mp hw with rfl | hw
      · rw [sizeAfter, if_neg hne]
        exact Nat.le_trans (Nat.le_max_right _ _) le_sizeAfter
      · exact ih hw

theorem sizeAfter_append {size : Nat} {ws ws' : List (Nat × Nat)} :
    sizeAfter size (ws ++ ws') = sizeAfter (sizeAfter size ws) ws' := by
  induction ws generalizing size with
  | nil => rfl
  | cons w ws ih => exact ih

/-- The size is the old one, or a write ends there. -/
theorem sizeAfter_eq {size : Nat} {ws : List (Nat × Nat)} : sizeAfter size ws = size ∨
    ∃ w ∈ ws, w.2 ≠ 0 ∧ sizeAfter size ws = w.1 + w.2 := by
  induction ws generalizing size with
  | nil => exact .inl rfl
  | cons w ws ih =>
      by_cases hne : w.2 = 0
      · rw [sizeAfter, if_pos hne]
        refine ih.imp_right fun h => ?_
        obtain ⟨w', hw', h⟩ := h
        exact ⟨w', List.mem_cons_of_mem _ hw', h⟩
      · rw [sizeAfter, if_neg hne]
        rcases ih with hsize | ⟨w', hw', h⟩
        · rw [hsize]
          rcases Nat.le_total size (w.1 + w.2) with hle | hle
          · exact .inr ⟨w, List.mem_cons_self, hne, Nat.max_eq_right hle⟩
          · exact .inl (Nat.max_eq_left hle)
        · exact .inr ⟨w', List.mem_cons_of_mem _ hw', h⟩

namespace Geom

variable {g : Geom} {s s' s'' : FFS} {t t' : St} {id i : Nat} {m : FileMetadata}
  {ws : List (Nat × Nat)}

/-! ## Later calls -/

/-- What seeks and complete writes do to inode `i`. -/
structure Continued (g : Geom) (t : St) (i : Nat) (ws : List (Nat × Nat)) (t' : St) : Prop where
  usable : g.Usable t' i
  size : (t'.ino i).size = sizeAfter (t.ino i).size ws
  handles : ∀ id m, t.openFiles id = some m → m.inode = i →
    ∃ m', t'.openFiles id = some m' ∧ m'.inode = i
  blocks_le : (t.ino i).blocks ≤ (t'.ino i).blocks
  within : AllLow ws → ∀ w ∈ ws, w.2 ≠ 0 → w.1 + w.2 ≤ BLOCK_SIZE * (t'.ino i).blocks
  bytes : AllLow ws → ∀ p, Uncovered ws p →
    ((t'.ino i).fileBytes t'.data).getD p 0 = ((t.ino i).fileBytes t.data).getD p 0

theorem Continued.refl (hu : g.Usable t i) : g.Continued t i [] t where
  usable := hu
  size := rfl
  handles _ m hm hi := ⟨m, hm, hi⟩
  blocks_le := Nat.le_refl _
  within _ w hw := by cases hw
  bytes _ _ _ := rfl

theorem Continued.append {ws' : List (Nat × Nat)} {t'' : St} (h : g.Continued t i ws t')
    (h' : g.Continued t' i ws' t'') : g.Continued t i (ws ++ ws') t'' where
  usable := h'.usable
  size := by rw [h'.size, h.size, sizeAfter_append]
  handles id m hm hi := by
    obtain ⟨m', hm', hi'⟩ := h.handles id m hm hi
    exact h'.handles id m' hm' hi'
  blocks_le := Nat.le_trans h.blocks_le h'.blocks_le
  within hlow w hw hne := by
    have hlow₁ : AllLow ws := fun w hw => hlow w (List.mem_append_left _ hw)
    have hlow₂ : AllLow ws' := fun w hw => hlow w (List.mem_append_right _ hw)
    rcases List.mem_append.mp hw with hw | hw
    · refine Nat.le_trans (h.within hlow₁ w hw hne) (Nat.mul_le_mul_left _ h'.blocks_le)
    · exact h'.within hlow₂ w hw hne
  bytes hlow p hp := by
    have hlow₁ : AllLow ws := fun w hw => hlow w (List.mem_append_left _ hw)
    have hlow₂ : AllLow ws' := fun w hw => hlow w (List.mem_append_right _ hw)
    rw [h'.bytes hlow₂ p fun w hw => hp w (List.mem_append_right _ hw),
      h.bytes hlow₁ p fun w hw => hp w (List.mem_append_left _ hw)]

theorem continued_seek (hu : g.Usable t m.inode) (hopen : t.openFiles id = some m) (x : Nat) :
    g.Continued t m.inode [] (t.withOffset id m x) where
  usable := hu.withOffset x
  size := rfl
  handles id' m' hm' hi := by
    by_cases hid : id' = id
    · subst hid
      exact ⟨_, St.withOffset_openFiles x, rfl⟩
    · exact ⟨m', (Function.update_of_ne hid _ _).trans hm', hi⟩
  blocks_le := Nat.le_refl _
  within _ w hw := by cases hw
  bytes _ _ _ := rfl

theorem continued_empty (hu : g.Usable t i) (x : Nat) : g.Continued t i [(x, 0)] t where
  usable := hu
  size := rfl
  handles _ m hm hi := ⟨m, hm, hi⟩
  blocks_le := Nat.le_refl _
  within _ w hw hne := by
    cases List.mem_singleton.mp hw
    exact absurd rfl hne
  bytes _ _ _ := rfl

theorem Wrote.continued {buf : List UInt8} {now : UInt64} {metas datas : List Nat}
    {data₁ data' : Region} {n₁ : INode} (hs : g.Rep s t) (hs' : g.Rep s' t')
    (hu : g.Usable t m.inode)
    (hw : g.Wrote t id m buf now metas datas data₁ n₁ data' buf.length t') :
    g.Continued t m.inode [(m.offset, buf.length)] t' where
  usable := hw.usable hu
  size := by
    have hne : buf.length ≠ 0 := fun h0 => hw.nonempty (List.length_eq_zero_iff.mp h0)
    rw [hw.ino_self, sizeAfter, if_neg hne]
    show max n₁.size (m.offset + buf.length) = max (t.ino m.inode).size (m.offset + buf.length)
    rw [hw.prepared.grows.size]
  handles id' m' hm' hi := by
    rw [hw.openFiles_eq]
    by_cases hid : id' = id
    · subst hid
      exact ⟨_, Function.update_self _ _ _, rfl⟩
    · exact ⟨m', (Function.update_of_ne hid _ _).trans hm', hi⟩
  blocks_le := by
    rw [hw.ino_self]
    show (t.ino m.inode).blocks ≤ n₁.blocks
    rw [hw.prepared.grows.blocks]
    exact Nat.le_add_right _ _
  within hlow w hmem hne := by
    cases List.mem_singleton.mp hmem
    have hlow : m.offset < 2 ^ 40 := hlow _ hmem hne
    have hcount := hw.count
    rw [blockPosition_eq hlow] at hcount
    rw [hw.ino_self]
    show m.offset + buf.length ≤ BLOCK_SIZE * n₁.blocks
    have hne : buf.length ≠ 0 := hne
    omega
  bytes hlow p hp := by
    have hne : buf.length ≠ 0 := fun h0 => hw.nonempty (List.length_eq_zero_iff.mp h0)
    have hlow : m.offset < 2 ^ 40 := hlow _ List.mem_cons_self hne
    have hover := (hw.overwrites_iff hs hs' hu).mpr (.inl hlow)
    rw [List.take_length, FFS.bytes, FFS.bytes, hs.view_eq, hs'.view_eq] at hover
    exact hover.outside p (hp _ List.mem_cons_self)

theorem continued_later (hlater : Later i s ws s') (hs : g.Rep s t) (hu : g.Usable t i) :
    ∃ t', g.Rep s' t' ∧ g.Continued t i ws t' := by
  induction hlater generalizing t with
  | done => exact ⟨t, hs, .refl hu⟩
  | @seek s s₁ s₂ ws id r m pos hopen hm hrun hlater ih =>
      subst hm
      have hopen : t.openFiles id = some m := hs.openFiles_eq ▸ hopen
      obtain ⟨t₁, hs₁, m', hm', -, rfl⟩ := (wpa_seek (hu.handle hopen)).wpr.of_ok hs hrun
      rw [hopen] at hm'
      cases hm'
      obtain ⟨t₂, hs₂, hcont⟩ := ih hs₁ (hu.withOffset r)
      exact ⟨t₂, hs₂, (continued_seek hu hopen r).append hcont⟩
  | @write s s₁ s₂ ws id m buf now hopen hm hrun hlater ih =>
      subst hm
      have hopen : t.openFiles id = some m := hs.openFiles_eq ▸ hopen
      obtain ⟨t₁, hs₁, hstep⟩ := (wpr_write (hu.handle hopen)).of_ok hs hrun
      have hfirst : g.Continued t m.inode [(m.offset, buf.length)] t₁ := by
        rcases hstep with ⟨hnil, -, rfl⟩ | ⟨m', metas, datas, data₁, n₁, data', hw⟩
        · rw [hnil]
          exact continued_empty hu _
        · have hm' := hw.opened
          rw [hopen] at hm'
          cases hm'
          exact hw.continued hs hs₁ hu
      obtain ⟨t₂, hs₂, hcont⟩ := ih hs₁ hfirst.usable
      exact ⟨t₂, hs₂, hfirst.append hcont⟩

/-! ## Reading -/

/-- A position inside the file reads as zero when the file can be read, and has a zero
there. -/
theorem readAt_zero_iff (hs : g.Rep s t) (hopen : t.openFiles id = some m)
    (hu : g.Usable t m.inode) {p : UInt64} (hp : p.toNat < (t.ino m.inode).size) :
    s.readAt id p = some [0] ↔ (t.ino m.inode).size ≤ (t.ino m.inode).blocks * BLOCK_SIZE ∧
      ((t.ino m.inode).fileBytes t.data).getD p.toNat 0 = 0 := by
  have hseek : Prog.Runs g.Rep (FormatV1.seek id (.start p)) t p.toNat
      (t.withOffset id m p.toNat) :=
    (runs_handle hopen).bind (runs_getFormat.bind ((Prog.Runs.pure _ _).bind
      ((runs_setOffset _).bind (Prog.Runs.pure _ _))))
  obtain ⟨s₁, hs₁, hrep₁⟩ := hseek s hs
  have hu₁ : g.Usable (t.withOffset id m p.toNat) m.inode := hu.withOffset _
  have hopen₁ : (t.withOffset id m p.toNat).openFiles id = some { m with offset := p.toNat } :=
    St.withOffset_openFiles _
  have heq : s.readAt id p = (FormatV1.read id 1 s₁).value? := by
    rw [FFS.readAt, Prog.bind_of_ok hs₁]
  rw [heq]
  have hbs : BLOCK_SIZE = 256 := rfl
  by_cases hsize : (t.ino m.inode).size ≤ (t.ino m.inode).blocks * BLOCK_SIZE
  · have hread := @runs_read g _ id { m with offset := p.toNat } hu₁ hopen₁ 1 (by decide) hsize
    obtain ⟨s₂, hs₂, -⟩ := hread s₁ hrep₁
    have hlt : p.toNat < ((t.ino m.inode).fileBytes t.data).length := by
      rw [INode.fileBytes_length, hbs]
      rw [hbs] at hsize
      omega
    have hbyte : readBytes (t.withOffset id m p.toNat) { m with offset := p.toNat } 1 =
        [((t.ino m.inode).fileBytes t.data).getD p.toNat 0] := by
      show slice ((t.ino m.inode).fileBytes t.data) p.toNat
        (min 1 ((t.ino m.inode).size - p.toNat)) = _
      rw [Nat.min_eq_left (by omega), slice, List.drop_eq_getElem_cons hlt, List.take_succ_cons,
        List.take_zero, List.getD_eq_getElem _ _ hlt]
    rw [hs₂, hbyte]
    simp only [Outcome.value?, Option.some.injEq, List.cons.injEq, and_true]
    exact ⟨fun h => ⟨hsize, h⟩, fun h => h.2⟩
  · refine iff_of_false (fun h => ?_) fun h => hsize h.1
    obtain ⟨s₂, hs₂⟩ := Outcome.value?_eq_some.mp h
    have hhandle := @Usable.handle g _ id { m with offset := p.toNat } hu₁ hopen₁
    have hspec := @wpr_readFile g _ id hhandle 1
    obtain ⟨t₂, -, ⟨-, hnil⟩ | ⟨m', hm', hle, -⟩⟩ := hspec.of_ok hrep₁ hs₂
    · cases hnil
    · rw [hopen₁] at hm'
      cases hm'
      exact hsize hle

/-- Truncated bytes stay away exactly when the writes skip none that is not zero. -/
theorem truncatedZero_iff {s₁ s₂ : FFS} {size now : UInt64} {ws : List (Nat × Nat)}
    (hs : g.Rep s t) (hopen : s.format.openFiles id = some m) (hu : g.Usable t m.inode)
    (hsize : size.toNat < (s.view.ino m.inode).size)
    (hrun : truncate id size now s = .ok () s₁) (hlater : Later m.inode s₁ ws s₂) :
    s₂.ZeroFrom id m.inode size.toNat ws ↔ s.SkipsZeros m.inode size.toNat ws := by
  have hopen : t.openFiles id = some m := hs.openFiles_eq ▸ hopen
  rw [hs.view_eq] at hsize
  obtain ⟨s₁', hrun', hs₁⟩ := Geom.runs_truncate hu hopen hsize s hs
  rw [hrun] at hrun'
  cases hrun'
  have hu₁ := hu.truncated size now
  obtain ⟨t₂, hs₂, hcont⟩ := Geom.continued_later hlater hs₁ hu₁
  obtain ⟨m₂, hm₂, hi⟩ := hcont.handles id m hopen rfl
  have hold : ((t.truncated m.inode size.toNat now).ino m.inode).fileBytes t.data =
      s.bytes m.inode := by
    rw [FFS.bytes, hs.view_eq, t.truncated_ino]
    rfl
  have hsize₂ : (s₂.view.ino m.inode).size = sizeAfter size.toNat ws := by
    rw [hs₂.view_eq, hcont.size, t.truncated_ino]
  have hread : ∀ p : UInt64, p.toNat < sizeAfter size.toNat ws →
      (s₂.readAt id p = some [0] ↔
        sizeAfter size.toNat ws ≤ (t₂.ino m.inode).blocks * BLOCK_SIZE ∧
          ((t₂.ino m.inode).fileBytes t₂.data).getD p.toNat 0 = 0) := by
    intro p hp
    have hsize' : (t₂.ino m₂.inode).size = sizeAfter size.toNat ws := by
      rw [hi, ← hsize₂, hs₂.view_eq]
    have h := @Geom.readAt_zero_iff g s₂ t₂ id m₂ hs₂ hm₂ (hi ▸ hcont.usable) p (hsize' ▸ hp)
    rw [hsize', hi] at h
    exact h
  constructor
  · intro h p hle hlt hp
    have hbound := hcont.usable.inRange.size
    rw [← hsize₂, hs₂.view_eq] at hlt
    have htoNat : (UInt64.ofNat p).toNat = p :=
      UInt64.toNat_ofNat_of_lt' (Nat.lt_trans hlt hbound)
    have hzero := h (UInt64.ofNat p) (by omega) (by rw [hs₂.view_eq]; omega)
      (by rw [htoNat]; exact hp)
    rw [hs₂.view_eq] at hsize₂
    obtain ⟨hreadable, hbyte⟩ := (hread _ (by omega)).mp hzero
    have hlow : AllLow ws := by
      intro w hw hne
      by_contra hhigh
      -- the size is then larger than that of any file
      have hend := @end_le_sizeAfter size.toNat ws w hw hne
      have hblocks := hcont.usable.mapped.blocks_le
      have hmax : INode.MAX_BLOCKS = 4172 := rfl
      have hbs : BLOCK_SIZE = 256 := rfl
      rw [hbs] at hreadable
      omega
    rw [htoNat, hcont.bytes hlow p hp] at hbyte
    exact ⟨hlow, hold ▸ hbyte⟩
  · intro h p hle hlt hp
    rw [hsize₂] at hlt
    obtain ⟨hlow, hzero⟩ := h p.toNat hle hlt hp
    refine (hread p hlt).mpr ⟨?_, ?_⟩
    · rcases @sizeAfter_eq size.toNat ws with hsame | ⟨w, hw, hne, hend⟩
      · omega
      · rw [hend, Nat.mul_comm]
        exact hcont.within hlow w hw hne
    · rw [hcont.bytes hlow p.toNat hp]
      exact hold ▸ hzero

end Geom

/-- A file of three bytes is cut to one, and one byte is written at position `pos`. -/
def FFS.cutAndWrite (s : FFS) (pos : UInt64) : Option (FFS × FFS) :=
  match truncate 0 1 0 s with
  | .ok _ s₁ =>
    match seek 0 (.start pos) s₁ with
    | .ok _ s₂ =>
      match write 0 [9] 0 s₂ with
      | .ok n s₃ =>
        if n = 1 ∧ s₁.format.openFiles 0 = some ⟨1, 3⟩ ∧
            s₂.format.openFiles 0 = some ⟨1, pos.toNat⟩ then
          some (s₁, s₃)
        else none
      | _ => none
    | _ => none
  | _ => none

theorem FFS.cutAndWrite_later {s s₁ s₃ : FFS} {pos : UInt64}
    (h : s.cutAndWrite pos = some (s₁, s₃)) :
    truncate 0 1 0 s = .ok () s₁ ∧ Later 1 s₁ [(pos.toNat, 1)] s₃ := by
  unfold FFS.cutAndWrite at h
  split at h
  case h_2 => cases h
  split at h
  case h_2 => cases h
  split at h
  case h_2 => cases h
  split at h
  case isFalse => cases h
  rename_i htruncate _ _ _ hseek _ _ _ hwrite hchecks
  obtain ⟨rfl, hopen₁, hopen₂⟩ := hchecks
  cases h
  exact ⟨htruncate, .seek hopen₁ rfl hseek (.write hopen₂ rfl hwrite .done)⟩

/-- What there is to decide about a file of three bytes, of which one is left. -/
def FFS.CutFacts (s : FFS) (pos : UInt64) (s₃ : FFS) : Prop :=
  s.Opened ⟨1, 3⟩ ∧ (s.view.ino 1).size = 3 ∧ (s₃.view.ino 1).size = pos.toNat + 1

instance {s s₃ : FFS} {pos : UInt64} : Decidable (s.CutFacts pos s₃) :=
  inferInstanceAs (Decidable (_ ∧ _ ∧ _))

end FerrisFS
