import FerrisFS.V1.Runs
import FerrisFS.V1.WellFormed

/-!
# Sessions

A session goes on from a mounted filesystem with calls that leave the open files alone and
with edits of symlinks. Beside the invariant, every symlink keeps the block that its target
is in.
-/

namespace FerrisFS

open Lib DirectoryHandler INodeTableHandler FormatV1

/-- Every symlink has a block. -/
def St.Targeted (t : St) : Prop :=
  ∀ i, t.ibit i = true → (t.ino i).fileType = .symlink → 0 < (t.ino i).blocks

/-- `s'` is reached from `s` by careful calls and edits of symlinks. -/
inductive Session (s : FFS) : FFS → Prop where
  | nil : Session s s
  | call {s' s'' : FFS} {op : Op} (h : Session s s') (hok : op.Careful s')
      (hstep : Step s' op s'') : Session s s''
  | edit {s' s'' : FFS} {path target : Str} {now : UInt64} (h : Session s s')
      (hstep : (editSymlink path target now s').state? = some s'') : Session s s''

theorem Session.of_run {ok : FFS → Op → Prop} {s s' : FFS} (h : Run ok s s')
    (hok : ∀ s op, ok s op → op.Careful s) : Session s s' := by
  induction h with
  | nil => exact .nil
  | snoc _ hcall hstep ih => exact .call ih (hok _ _ hcall) hstep

/-- The block of a symlink is a block of its content. -/
theorem INode.direct_mem {n : INode} {data : Region} (h : 0 < n.blocks) :
    n.direct 0 ∈ n.content data := by
  have hmem := @INode.blockAt_mem_content n data 0 h
  rwa [INode.blockAt_direct (by decide)] at hmem

namespace Geom

variable {g : Geom} {gaps : Bool} {s s' : FFS} {t t' : St} {i : Nat} {path target : Str}
  {now : UInt64}

/-- What a session keeps. -/
structure Steady (g : Geom) (t : St) : Prop extends Inv g true t where
  handled : t.Handled
  targeted : t.Targeted

theorem Targeted.of_kept (h : t.Targeted)
    (hkeep : ∀ j, t'.ibit j = true → (t'.ino j).fileType = .symlink →
      t.ibit j = true ∧ (t.ino j).fileType = .symlink ∧ (t.ino j).blocks ≤ (t'.ino j).blocks) :
    t'.Targeted := by
  intro j hj hsym
  obtain ⟨hlive, hold, hle⟩ := hkeep j hj hsym
  exact Nat.lt_of_lt_of_le (h j hlive hold) hle

/-- Writing a target leaves the blocks alone. -/
theorem Targeted.withTarget (h : t.Targeted) (i : Nat) : (t.withTarget i target now).Targeted := by
  apply Targeted.of_kept h
  intro j hj hsym
  by_cases hji : j = i
  · subst hji
    simp only [St.withTarget, Function.update_self] at hsym ⊢
    exact ⟨hj, hsym, Nat.le_refl _⟩
  · simp only [St.withTarget, Function.update_of_ne hji] at hsym ⊢
    exact ⟨hj, hsym, Nat.le_refl _⟩

/-- No call takes the block of a symlink. -/
theorem targeted_of_effect {op : Op} (h : g.Inv gaps t) (hh : t.Handled) (ht : t.Targeted)
    (he : Effect g gaps s t op t') : t'.Targeted := by
  have hcreated : ∀ {p ft name now fit i ds n' data' t₁}, t.ibit p = true →
      g.Created t p ft name now fit i ds n' data' t₁ → t₁.Targeted := by
    intro p ft name now fit i ds n' data' t₁ hp hc j hj hsym
    by_cases hjp : j = p
    · subst hjp
      rw [hc.parent_fileType] at hsym
      rw [hc.ino_parent]
      exact Nat.lt_of_lt_of_le (ht j hp hsym) hc.entered.le_blocks
    rcases hc.ibit_iff.mp hj with hlive | rfl
    · rw [hc.ino_other hjp (hc.ne_of_live h.toIntact hlive)] at hsym ⊢
      exact ht j hlive hsym
    · rw [hc.ino_new h.toIntact hp] at hsym ⊢
      rw [firstNode_fileType] at hsym
      rw [firstNode_blocks, hsym]
      decide
  cases he with
  | same => exact ht
  | created hc hp hd hdd hfit hcr => exact hcreated hp hcr
  | symlinked hc hp hd hdd hfit hcr hlen =>
      exact Targeted.withTarget (hcreated hp hcr) _
  | full hr hf => cases hf <;> exact ht
  | orphaned hc hp hfit hmax ha ho =>
      intro j hj hsym
      rcases ho.ibit_iff.mp hj with hlive | rfl
      · rw [(ho.same h.toIntact hlive).ino] at hsym ⊢
        exact ht j hlive hsym
      · rw [ho.ino_new] at hsym ⊢
        rw [firstNode_fileType] at hsym
        rw [firstNode_blocks, hsym]
        decide
  | @linked i p name now fit ds n' data' t' hl hi hp hfile hd hdd hfit hk =>
      apply Targeted.of_kept ht
      intro j hj hsym
      refine ⟨hk.ibit_eq ▸ hj, hk.fileType j ▸ hsym, ?_⟩
      by_cases hjp : j = p
      · rw [hjp, hk.ino_parent]
        exact hk.entered.le_blocks
      by_cases hji : j = i
      · rw [hji, hk.ino_target (hji ▸ hjp)]
      · rw [hk.ino_other hjp hji]
  | wasted hl hfit hmax ha =>
      apply Targeted.of_kept ht
      intro j hj hsym
      refine ⟨?_, hsym, Nat.le_refl _⟩
      rwa [St.taken, setBits_nil] at hj
  | unlinked hdel hu =>
      apply Targeted.of_kept ht
      intro j hj hsym
      have hcut := hu.cut
      exact ⟨hcut.live j hj, hcut.fileType j ▸ hsym, Nat.le_of_eq (hcut.blocks j).symm⟩
  | removed hdel hu =>
      apply Targeted.of_kept ht
      intro j hj hsym
      have hcut := hu.cut
      exact ⟨hcut.live j hj, hcut.fileType j ▸ hsym, Nat.le_of_eq (hcut.blocks j).symm⟩
  | opened ho hr hi hfile => exact ht
  | closed ho => exact ht
  | moved ho hopen => exact ht
  | @wrote id m buf now metas datas data₁ n₁ data' k t' ho hw =>
      obtain ⟨hlive, hfile⟩ := hh id m hw.opened
      have hleaf := hw.leaf h.toIntact hlive hfile
      intro j hj hsym
      by_cases hjm : j = m.inode
      · rw [hjm, hleaf.fileType, hfile] at hsym
        cases hsym
      · rw [hleaf.ibit] at hj
        rw [hleaf.other j hjm] at hsym ⊢
        exact ht j hj hsym
  | writeFailed ho hf =>
      cases hf with
      | closed => exact ht
      | grow _ _ _ _ hf => cases hf <;> exact ht
  | @truncated id m size now ho hopen hlt =>
      apply Targeted.of_kept ht
      intro j hj hsym
      by_cases hjm : j = m.inode
      · subst hjm
        rw [St.truncated_ino] at hsym ⊢
        exact ⟨hj, hsym, Nat.le_refl _⟩
      · simp only [St.truncated, Function.update_of_ne hjm] at hsym ⊢
        exact ⟨hj, hsym, Nat.le_refl _⟩

/-- `edit_symlink` stores the target, or it changes nothing. -/
theorem wp_editSymlink (hs : g.Rep s t) (h : g.Inv gaps t) (ht : t.Targeted) :
    Prog.wp (editSymlink path target now)
      (fun _ s' => ∃ r, s.resolve (Path.components path) false = some r ∧
        t.ibit r.targetInodeIndex = true ∧ (t.ino r.targetInodeIndex).fileType = .symlink ∧
        target.length ≤ BLOCK_SIZE ∧ g.Rep s' (t.withTarget r.targetInodeIndex target now))
      (fun _ s' => s' = s) s := by
  refine wp_getFormat ?_
  refine Prog.wp_seq (wp_resolve hs h (Path.proper_components path) false) ?_ fun _ _ he => he
  intro r s' hres
  obtain ⟨rfl, hr, hres, -⟩ := hres
  refine Prog.wp_guard (fun _ => rfl) fun hsym => ?_
  rw [hres.inode] at hsym ⊢
  have hsym := not_not.mp hsym
  have hlive := h.reach_live hres.reach
  have hmem := @INode.direct_mem _ t.data (ht _ hlive hsym)
  refine Prog.wp_mono (wpr_writeSymlink h hlive hmem s' hs) ?_ ?_
  · intro _ s'' hstored
    obtain ⟨t'', hs'', rfl, hlen⟩ := hstored
    exact ⟨r, hr, hlive, hsym, hlen, hs''⟩
  · intro _ s'' hf
    obtain ⟨-, -, hf⟩ := hf
    exact hf.elim

/-- A stored target leaves the filesystem as it should be. -/
theorem Steady.withTarget (h : g.Steady t) (hi : t.ibit i = true)
    (hsym : (t.ino i).fileType = .symlink) (hlen : target.length ≤ BLOCK_SIZE) :
    g.Steady (t.withTarget i target now) where
  toInv := by
    have hmem := @INode.direct_mem _ t.data (h.targeted i hi hsym)
    refine (leaf_withTarget h.toInv hi ?_ hmem hlen).inv h.toInv
      ⟨h.cursors.lastInode, h.cursors.lastData⟩
    rw [hsym]
    decide
  handled := by
    intro id m hm
    obtain ⟨hlive, hfile⟩ := h.handled id m hm
    have hne : m.inode ≠ i := by
      intro heq
      rw [heq, hsym] at hfile
      cases hfile
    refine ⟨hlive, ?_⟩
    simp only [St.withTarget, Function.update_of_ne hne]
    exact hfile
  targeted := Targeted.withTarget h.targeted i

theorem Steady.of_initial {now : UInt64} (h : g.Initial now t) : g.Steady t where
  toInv := h.inv
  handled := h.handled
  targeted := by
    intro i hi hsym
    rw [(h.ibit i).mp hi, h.root, firstNode_fileType] at hsym
    cases hsym

/-- A session keeps what it starts with. -/
theorem steady_of_session (h : Session s s') (hs : g.Rep s t) (ht : g.Steady t) :
    ∃ t', g.Rep s' t' ∧ g.Steady t' := by
  induction h with
  | nil => exact ⟨t, hs, ht⟩
  | call _ hok hstep ih =>
      obtain ⟨t₁, hs₁, h₁⟩ := ih
      have hroom := fun s : FFS => fun op : Op => (.inl rfl : op.Roomy true s)
      obtain ⟨t₂, hs₂, he⟩ :=
        effect_of_step hs₁ h₁.toInv (fun _ => h₁.handled) hok.1 (hroom _ _) hstep
      exact ⟨t₂, hs₂, inv_of_effect hs₁ h₁.toInv (fun _ => h₁.handled) (hroom _ _) he,
        handled_of_effect hs₁ h₁.toInv h₁.handled hok.2 he,
        targeted_of_effect h₁.toInv h₁.handled h₁.targeted he⟩
  | @edit s₁ s₂ path target now _ hstep ih =>
      obtain ⟨t₁, hs₁, h₁⟩ := ih
      have hedit : Prog.wp (editSymlink path target now)
          (fun _ s' => ∃ t', g.Rep s' t' ∧ g.Steady t')
          (fun _ s' => ∃ t', g.Rep s' t' ∧ g.Steady t') s₁ := by
        refine Prog.wp_mono (wp_editSymlink hs₁ h₁.toInv h₁.targeted) ?_ ?_
        · intro _ s₃ hstored
          obtain ⟨r, -, hlive, hsym, hlen, hs₃⟩ := hstored
          exact ⟨_, hs₃, h₁.withTarget hlive hsym hlen⟩
        · intro _ s₃ heq
          rw [heq]
          exact ⟨t₁, hs₁, h₁⟩
      exact hedit.of_state hstep

/-- The states that sessions on a formatted and mounted device reach. -/
theorem steady_of_start {d : MemoryDevice} (hstart : start now d = some s) (h : Session s s') :
    ∃ g t, g.Rep s' t ∧ Steady g t := by
  obtain ⟨g, t, -, hs, hinit⟩ := start_initial hstart
  obtain ⟨t', hs', ht'⟩ := steady_of_session h hs (.of_initial hinit)
  exact ⟨g, t', hs', ht'⟩

end Geom

end FerrisFS
