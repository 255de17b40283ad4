import FerrisFS.V1.Mount
import FerrisFS.V1.Steps

/-!
# Runs of a mounted filesystem

A run starts with formatting and mounting a device and goes on with calls, each of
which may return or fail. `Run ok` are the runs whose calls all satisfy `ok` in the
state they meet. The invariant holds along every run that keeps its open files.
-/

namespace FerrisFS

open Lib DirectoryHandler INodeTableHandler FormatV1

/-- `format`, then `mount`. -/
def start (now : UInt64) (d : MemoryDevice) : Option FFS :=
  match FormatV1.format now d with
  | .ok _ d =>
      match FormatV1.mount d with
      | .ok f d => some ⟨d, f⟩
      | _ => none
  | _ => none

/-- `s'` is reached from `s` by calls that satisfy `ok`. -/
inductive Run (ok : FFS → Op → Prop) (s : FFS) : FFS → Prop where
  | nil : Run ok s s
  | snoc {s' s'' : FFS} {op : Op} (h : Run ok s s') (hok : ok s' op) (hstep : Step s' op s'') :
      Run ok s s''

theorem Run.imp {ok ok' : FFS → Op → Prop} {s s' : FFS} (himp : ∀ s op, ok s op → ok' s op)
    (h : Run ok s s') : Run ok' s s' := by
  induction h with
  | nil => exact .nil
  | snoc _ hok hstep ih => exact ih.snoc (himp _ _ hok) hstep

/-- Calls that leave the open files alone. -/
def Op.Careful (s : FFS) (op : Op) : Prop := op.Sane s ∧ op.Keeps s

namespace Geom

variable {g : Geom} {gaps : Bool} {s s' : FFS} {t t' : St} {op : Op}

/-- What `format` and `mount` leave. -/
theorem start_fresh {now : UInt64} {d : MemoryDevice} (h : start now d = some s) :
    ∃ g : Geom, g.totalBlocks = d.blockCount ∧ g.Fresh now s.device ∧
      s.format = g.format (g.mounted s.device (g.inodes - 1) (g.cap - 1)) := by
  unfold start at h
  split at h
  · rename_i d' hformat
    obtain ⟨h5, hsmall⟩ := blockCount_of_format hformat
    obtain ⟨d'', hok, hfresh⟩ := format_ok h5 hsmall now
    rw [hok] at hformat
    cases hformat
    rw [hfresh.mount] at h
    cases h
    exact ⟨_, rfl, hfresh, rfl⟩
  · cases h

/-- What a mounted filesystem starts with. -/
theorem start_initial {now : UInt64} {d : MemoryDevice} (h : start now d = some s) :
    ∃ (g : Geom) (t : St), g.totalBlocks = d.blockCount ∧ g.Rep s t ∧ g.Initial now t := by
  obtain ⟨g, hcount, hfresh, hfmt⟩ := start_fresh h
  exact ⟨g, _, hcount, ⟨holds_self hfresh.count, hfmt⟩, hfresh.initial⟩

/-- Every way a call can end keeps the invariant. -/
theorem inv_of_effect (hs : g.Rep s t) (h : g.Inv gaps t) (hh : op.OnHandle → t.Handled)
    (hroom : op.Roomy gaps s) (he : Effect g gaps s t op t') : g.Inv gaps t' := by
  have hcur : t.CursorsIn g := h.cursors
  cases he with
  | same => exact h
  | created hc hp hd hdd hfit hcr =>
      exact hcr.inv h hp hd hdd (hs.roomy hroom (.create hc) hfit)
  | symlinked hc hp hd hdd hfit hcr hlen =>
      have h' := hcr.inv h hp hd hdd (hs.roomy hroom (.create hc) hfit)
      have hlive := hcr.ibit_iff.mpr (.inr rfl)
      exact (leaf_withTarget h' hlive
        (by rw [hcr.ino_new h.toIntact hp, firstNode_fileType]; decide)
        (hcr.direct_mem h hp) hlen).inv h' ⟨h'.cursors.lastInode, h'.cursors.lastData⟩
  | full hr hf => exact hf.inv h
  | orphaned hc hp hfit hmax ha ho => exact ho.inv h hp
  | linked hl hi hp hfile hd hdd hfit hk =>
      exact hk.inv h hi hfile hp hd hdd (hs.roomy hroom (.link hl) hfit)
  | wasted hl hfit hmax ha => exact inv_wasted h ha
  | unlinked hdel hu => exact hu.inv h
  | removed hdel hu => exact hu.inv h
  | opened ho hr hi hfile => exact h.congr rfl ⟨hcur.lastInode, hcur.lastData⟩
  | closed ho => exact h.congr rfl ⟨hcur.lastInode, hcur.lastData⟩
  | moved ho hopen => exact h.congr rfl ⟨hcur.lastInode, hcur.lastData⟩
  | wrote ho hw =>
      subst ho
      exact hw.inv h (hh trivial)
  | writeFailed ho hf =>
      subst ho
      exact hf.inv h (hh trivial)
  | truncated ho hopen hlt =>
      subst ho
      obtain ⟨hlive, hfile⟩ := hh trivial _ _ hopen
      exact inv_truncated h hlive (by simp [hfile]) hlt

/-- An operation that deallocates no open file keeps the open files allocated. -/
theorem handled_of_effect (hs : g.Rep s t) (h : g.Inv gaps t) (hh : t.Handled)
    (hkeeps : op.Keeps s) (he : Effect g gaps s t op t') : t'.Handled := by
  -- most calls leave the handles and the types of the files alone
  have hsame : ∀ {t₁ : St}, t₁.openFiles = t.openFiles →
      (∀ id m, t.openFiles id = some m → t₁.ibit m.inode = true) →
      (∀ id m, t.openFiles id = some m →
        (t₁.ino m.inode).fileType = (t.ino m.inode).fileType) → t₁.Handled := by
    intro t₁ hopen hlive htype id m hm
    rw [hopen] at hm
    exact ⟨hlive id m hm, (htype id m hm).trans (hh id m hm).2⟩
  cases he with
  | same => exact hh
  | created hc hp hd hdd hfit hcr => exact hcr.handled h hh
  | symlinked hc hp hd hdd hfit hcr hlen =>
      have hh' := hcr.handled h hh
      intro id m hm
      obtain ⟨hlive, hfile⟩ := hh' id m hm
      refine ⟨hlive, ?_⟩
      simp only [St.withTarget, Function.update_apply]
      split
      · rename_i hmi
        rw [← hmi]
        exact hfile
      · exact hfile
  | full hr hf =>
      cases hf with
      | refused => exact hh
      | inodes => exact hh
      | data => exact hh
  | orphaned hc hp hfit hmax ha ho =>
      apply hsame
      · rw [ho.state]
        rfl
      · intro id m hm
        exact ho.ibit_iff.mpr (.inl (hh id m hm).1)
      · intro id m hm
        rw [(ho.same h.toIntact (hh id m hm).1).ino]
  | linked hl hi hp hfile hd hdd hfit hk =>
      apply hsame
      · rw [hk.state]
        rfl
      · intro id m hm
        rw [hk.ibit_eq]
        exact (hh id m hm).1
      · intro id m _
        exact hk.fileType _
  | wasted hl hfit hmax ha =>
      apply hsame
      · rfl
      · intro id m hm
        show setBits t.ibit [] true m.inode = true
        rw [setBits_nil]
        exact (hh id m hm).1
      · exact fun _ _ _ => rfl
  | unlinked hdel hu =>
      apply hsame
      · rw [hu.state]
      · intro id m hm
        rw [hu.ibit_eq]
        exact (hh id m hm).1
      · intro id m _
        exact hu.cut.fileType _
  | @removed i p k e now b' t' hdel hu =>
      have hview := hs.view_eq
      have hformat := hs.2
      apply hsame
      · rw [hu.state]
      · intro id m hm
        refine hu.ibit_iff.mpr ⟨(hh id m hm).1, hkeeps i hdel ?_ id m ?_⟩
        · rw [hview]
          exact hu.last
        · rw [hformat]
          exact hm
      · intro id m _
        exact hu.cut.fileType _
  | opened ho hr hi hfile => exact handled_opened hh (h.reach_live hi) hfile
  | closed ho => exact handled_closed hh
  | moved ho hopen => exact handled_withOffset hh hopen _
  | wrote ho hw => exact hw.handled h hh
  | writeFailed ho hf => exact hf.handled hh
  | truncated ho hopen hlt =>
      apply hsame
      · rfl
      · exact fun id m hm => (hh id m hm).1
      · intro id m _
        simp only [St.truncated, Function.update_apply]
        split
        · rename_i hmi
          rw [hmi]
        · rfl

/-- What holds at the start and is kept by every effect holds along a run, beside the
invariant. -/
theorem run_induct {ok : FFS → Op → Prop} {P : St → Prop} (hrun : Run ok s s') (hs : g.Rep s t)
    (h : g.Inv gaps t) (hP : P t) (hok : ∀ s op, ok s op → op.Sane s ∧ op.Roomy gaps s)
    (hhandled : ∀ s t op, ok s op → P t → op.OnHandle → t.Handled)
    (hstep : ∀ s t op t', g.Rep s t → g.Inv gaps t → P t → ok s op →
      Effect g gaps s t op t' → P t') :
    ∃ t', g.Rep s' t' ∧ g.Inv gaps t' ∧ P t' := by
  induction hrun with
  | nil => exact ⟨t, hs, h, hP⟩
  | snoc _ hcall hend ih =>
      obtain ⟨t₁, hs₁, h₁, hP₁⟩ := ih
      obtain ⟨hsane, hroom⟩ := hok _ _ hcall
      have hh₁ := hhandled _ t₁ _ hcall hP₁
      obtain ⟨t₂, hs₂, he⟩ := effect_of_step hs₁ h₁ hh₁ hsane hroom hend
      exact ⟨t₂, hs₂, inv_of_effect hs₁ h₁ hh₁ hroom he, hstep _ _ _ _ hs₁ h₁ hP₁ hcall he⟩

/-- The invariant along a run of careful calls. -/
theorem run_inv {ok : FFS → Op → Prop} (hrun : Run ok s s') (hs : g.Rep s t) (h : g.Inv gaps t)
    (hh : t.Handled) (hok : ∀ s op, ok s op → op.Careful s ∧ op.Roomy gaps s) :
    ∃ t', g.Rep s' t' ∧ g.Inv gaps t' ∧ t'.Handled := by
  apply run_induct hrun hs h hh
  · intro s op hcall
    obtain ⟨⟨hsane, -⟩, hroom⟩ := hok s op hcall
    exact ⟨hsane, hroom⟩
  · exact fun _ _ _ _ hh _ => hh
  · intro s t op t' hs h hh hcall he
    obtain ⟨⟨-, hkeeps⟩, -⟩ := hok s op hcall
    exact handled_of_effect hs h hh hkeeps he

end Geom

end FerrisFS
