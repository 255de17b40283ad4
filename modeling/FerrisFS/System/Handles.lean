import FerrisFS.System.Store
import FerrisFS.System.Upright

/-!
# File ids

A file id stands for one file until it is closed. Through an id that is open every read is
answered, and through one that is not open every call is refused and changes nothing.
-/

namespace FerrisFS

open Lib DirectoryHandler INodeTableHandler FormatV1

/-- What a call closes. -/
def Op.closed? : Op → Option Nat
  | .closeFile id => some id
  | _ => none

theorem Op.closed?_iff {op : Op} {id : Nat} : op = .closeFile id ↔ op.closed? = some id := by
  constructor
  · rintro rfl
    rfl
  · intro h
    cases op with
    | closeFile =>
        cases h
        rfl
    | _ => cases h

instance {op : Op} {id : Nat} : Decidable (op ≠ .closeFile id) :=
  decidable_of_iff (op.closed? ≠ some id) (not_congr Op.closed?_iff.symm)

/-- What a call does to the open files. -/
inductive St.Rehandled (t t' : St) (op : Op) : Prop where
  | same (hopen : t'.openFiles = t.openFiles) (hnext : t'.nextFileId = t.nextFileId)
  | opened {i : Nat} (hopen : t'.openFiles = Function.update t.openFiles t.nextFileId (some ⟨i, 0⟩))
      (hnext : t'.nextFileId = t.nextFileId + 1)
  | closed {id : Nat} (hop : op = .closeFile id)
      (hopen : t'.openFiles = Function.update t.openFiles id none)
      (hnext : t'.nextFileId = t.nextFileId)
  | moved {id : Nat} {m : FileMetadata} {x : Nat} (hold : t.openFiles id = some m)
      (hopen : t'.openFiles = Function.update t.openFiles id (some { m with offset := x }))
      (hnext : t'.nextFileId = t.nextFileId)

namespace St.Rehandled

variable {t t' : St} {op : Op}

theorem numbered (h : t.Rehandled t' op) (ht : t.Numbered) : t'.Numbered := by
  intro id m hm
  cases h with
  | same hopen hnext =>
      rw [hopen] at hm
      rw [hnext]
      exact ht id m hm
  | @opened i hopen hnext =>
      rw [hopen, Function.update_apply] at hm
      rw [hnext]
      split at hm
      · rename_i heq
        rw [heq]
        exact Nat.lt_succ_self _
      · exact Nat.lt_succ_of_lt (ht id m hm)
  | @closed id' hop hopen hnext =>
      rw [hopen, Function.update_apply] at hm
      rw [hnext]
      split at hm
      · cases hm
      · exact ht id m hm
  | @moved id' m' x hold hopen hnext =>
      rw [hopen, Function.update_apply] at hm
      rw [hnext]
      split at hm
      · rename_i heq
        rw [heq]
        exact ht id' m' hold
      · exact ht id m hm

/-- An id that is not closed stays with its file. -/
theorem stays (h : t.Rehandled t' op) (ht : t.Numbered) {id : Nat} {m : FileMetadata}
    (hm : t.openFiles id = some m) (hop : op ≠ .closeFile id) :
    ∃ m', t'.openFiles id = some m' ∧ m'.inode = m.inode := by
  cases h with
  | same hopen hnext =>
      rw [hopen]
      exact ⟨m, hm, rfl⟩
  | opened hopen hnext =>
      rw [hopen, Function.update_of_ne (Nat.ne_of_lt (ht id m hm))]
      exact ⟨m, hm, rfl⟩
  | @closed id' hclose hopen hnext =>
      have hne : id ≠ id' := by
        rintro rfl
        exact hop hclose
      rw [hopen, Function.update_of_ne hne]
      exact ⟨m, hm, rfl⟩
  | @moved id' m' x hold hopen hnext =>
      rw [hopen]
      by_cases hid : id = id'
      · subst hid
        cases hold.symm.trans hm
        exact ⟨_, Function.update_self .., rfl⟩
      · rw [Function.update_of_ne hid]
        exact ⟨m, hm, rfl⟩

end St.Rehandled

namespace Geom

variable {g : Geom} {gaps : Bool} {s s' s₁ s₂ : FFS} {t t' : St} {op : Op} {id : Nat}

theorem rehandled_of_effect (he : Effect g gaps s t op t') : t.Rehandled t' op := by
  cases he with
  | same => exact .same rfl rfl
  | created hc hp hd hdd hfit hcr =>
      have hstate := hcr.state
      exact .same (by rw [hstate]; rfl) (by rw [hstate]; rfl)
  | symlinked hc hp hd hdd hfit hcr hlen =>
      have hstate := hcr.state
      exact .same (by rw [hstate]; rfl) (by rw [hstate]; rfl)
  | full hr hf => cases hf <;> exact .same rfl rfl
  | orphaned hc hp hfit hmax ha ho =>
      have hstate := ho.state
      exact .same (by rw [hstate]; rfl) (by rw [hstate]; rfl)
  | linked hl hi hp hfile hd hdd hfit hk =>
      have hstate := hk.state
      exact .same (by rw [hstate]; rfl) (by rw [hstate]; rfl)
  | wasted hl hfit hmax ha => exact .same rfl rfl
  | unlinked hdel hu =>
      have hstate := hu.state
      exact .same (by rw [hstate]) (by rw [hstate])
  | removed hdel hu =>
      have hstate := hu.state
      exact .same (by rw [hstate]) (by rw [hstate])
  | opened ho hr hi hfile => exact .opened rfl rfl
  | closed ho => exact .closed ho rfl rfl
  | moved ho hopen => exact .moved hopen rfl rfl
  | wrote ho hw =>
      have hstate := hw.state
      exact .moved hw.opened hw.openFiles_eq (by rw [hstate]; rfl)
  | writeFailed ho hf =>
      cases hf with
      | closed => exact .same rfl rfl
      | grow _ _ _ _ hf => cases hf <;> exact .same rfl rfl
  | truncated ho hopen hlt => exact .same rfl rfl

theorem numbered_of_initial {now : UInt64} (h : g.Initial now t) : t.Numbered := by
  intro id m hm
  rw [h.openFiles] at hm
  cases hm

/-- What every call keeps of the open files and every edit of a symlink leaves alone holds
along a session. -/
theorem session_induct {P : St → Prop} (h : Session s s') (hs : g.Rep s t)
    (ht : g.Upright true t) (hP : P t)
    (hcall : ∀ t op t', t.Rehandled t' op → P t → P t')
    (hedit : ∀ t i target now, P t → P (t.withTarget i target now)) :
    ∃ t', g.Rep s' t' ∧ g.Upright true t' ∧ P t' := by
  induction h with
  | nil => exact ⟨t, hs, ht, hP⟩
  | @call s₁ s₂ op _ hok hstep ih =>
      obtain ⟨t₁, hs₁, h₁, hP₁⟩ := ih
      obtain ⟨t₂, hs₂, he⟩ :=
        effect_of_step hs₁ h₁.toInv (fun _ => h₁.handled) hok.1 (.inl rfl) hstep
      exact ⟨t₂, hs₂, upright_of_effect hs₁ h₁ hok (.inl rfl) he,
        hcall t₁ op t₂ (rehandled_of_effect he) hP₁⟩
  | @edit s₁ s₂ path target now _ hstep ih =>
      obtain ⟨t₁, hs₁, h₁, hP₁⟩ := ih
      have hwp : Prog.wp (editSymlink path target now)
          (fun _ s' => ∃ t', g.Rep s' t' ∧ g.Upright true t' ∧ P t')
          (fun _ s' => ∃ t', g.Rep s' t' ∧ g.Upright true t' ∧ P t') s₁ := by
        refine Prog.wp_mono (wp_editSymlink hs₁ h₁.toInv h₁.targeted) ?_ ?_
        · intro _ s₃ hstored
          obtain ⟨r, -, hlive, hsym, hlen, hs₃⟩ := hstored
          exact ⟨_, hs₃, h₁.withTarget hlive hsym hlen, hedit t₁ _ _ _ hP₁⟩
        · intro _ s₃ heq
          rw [heq]
          exact ⟨t₁, hs₁, h₁, hP₁⟩
      exact hwp.of_state hstep

theorem numbered_of_session (h : Session s s') (hs : g.Rep s t) (ht : g.Upright true t)
    (hnum : t.Numbered) : ∃ t', g.Rep s' t' ∧ g.Upright true t' ∧ t'.Numbered :=
  session_induct h hs ht hnum (fun _ _ _ hr hn => hr.numbered hn) fun _ _ _ _ hn => hn

/-- A file that has just been opened. -/
theorem opened_of_session {path : Str} {d : MemoryDevice} {now : UInt64} {s₀ : FFS}
    (hstart : start now d = some s₀) (h : Session s₀ s) (hopen : openFile path s = .ok id s₁) :
    ∃ (g : Geom) (t : St) (r : ResolutionResult),
      s.resolve (Path.components path) true = some r ∧ t.nextFileId = id ∧
      g.Rep s₁ (t.opened r.targetInodeIndex) ∧ g.Upright true (t.opened r.targetInodeIndex) ∧
      (t.opened r.targetInodeIndex).Numbered := by
  obtain ⟨g, t₀, -, hs₀, hinit⟩ := start_initial hstart
  obtain ⟨t, hs, ht, hnum⟩ :=
    numbered_of_session h hs₀ (.of_initial hinit) (numbered_of_initial hinit)
  obtain ⟨r, hr, hreach, hfile, rfl, hs₁⟩ := (wp_openFile hs ht.toInv).of_ok hopen
  have hhandles : t.Rehandled (t.opened r.targetInodeIndex) (.openFile path) := .opened rfl rfl
  exact ⟨g, t, r, hr, rfl, hs₁, ht.opened (ht.reach_live hreach) hfile, hhandles.numbered hnum⟩

/-- Careful calls that do not close an id leave it with its file. -/
theorem stays_of_run {i : Nat}
    (hrun : Run (fun s op => op.Careful s ∧ op ≠ .closeFile id) s s') (hs : g.Rep s t)
    (ht : g.Upright true t) (hnum : t.Numbered)
    (hid : ∃ m, t.openFiles id = some m ∧ m.inode = i) :
    ∃ t', g.Rep s' t' ∧ t'.Handled ∧ ∃ m, t'.openFiles id = some m ∧ m.inode = i := by
  have hend : ∃ t', g.Rep s' t' ∧ g.Inv true t' ∧ t'.Handled ∧ t'.Numbered ∧
      ∃ m, t'.openFiles id = some m ∧ m.inode = i := by
    apply run_induct hrun hs ht.toInv ⟨ht.handled, hnum, hid⟩
    · exact fun s op hok => ⟨hok.1.1, .inl rfl⟩
    · exact fun s t op hok hP _ => hP.1
    · intro s t op t' hs h hP hok he
      obtain ⟨hh, hnum, m, hm, rfl⟩ := hP
      have hre := rehandled_of_effect he
      exact ⟨handled_of_effect hs h hh hok.1.2 he, hre.numbered hnum, hre.stays hnum hm hok.2⟩
  obtain ⟨t', hs', -, hh, -, hm⟩ := hend
  exact ⟨t', hs', hh, hm⟩

end Geom

namespace Geom

variable {g : Geom} {s : FFS} {t : St} {id : Nat} {m : FileMetadata}

/-- A read through an open file gives what the store has there. -/
theorem read_answers (hs : g.Rep s t) (ht : g.Following t) (hopen : t.openFiles id = some m)
    (len : Nat) : ∃ s', read id len s = .ok (((t.fileData m.inode).drop m.offset).take len) s' := by
  have hfile : t.IsFile m.inode := ht.handled id m hopen
  by_cases h0 : len = 0
  · subst h0
    have hnone : Prog.Runs g.Rep (read id 0) t [] t :=
      (runs_handle hopen).bind (Prog.Runs.branch rfl (Prog.Runs.pure _ _))
    obtain ⟨s', hok, -⟩ := hnone s hs
    exact ⟨s', by rw [hok, List.take_zero]⟩
  · have hsize : (t.ino m.inode).size ≤ (t.ino m.inode).blocks * BLOCK_SIZE := by
      rw [Nat.mul_comm]
      exact ht.fitting _ hfile
    obtain ⟨s', hok, -⟩ := runs_read (ht.usable hfile.1) hopen h0 hsize s hs
    exact ⟨s', by rw [hok, readBytes_eq]⟩

theorem seek_answers (hs : g.Rep s t) (hopen : t.openFiles id = some m) (offset : UInt64) :
    ∃ s', seek id (.start offset) s = .ok offset.toNat s' := by
  have hruns : Prog.Runs g.Rep (seek id (.start offset)) t offset.toNat
      (t.withOffset id m offset.toNat) :=
    (runs_handle hopen).bind (runs_getFormat.bind ((Prog.Runs.pure _ _).bind
      ((runs_setOffset _).bind (Prog.Runs.pure _ _))))
  obtain ⟨s', hok, -⟩ := hruns s hs
  exact ⟨s', hok⟩

theorem truncate_answers (hs : g.Rep s t) (hu : g.Usable t m.inode)
    (hopen : t.openFiles id = some m) (size now : UInt64) :
    ∃ s', truncate id size now s = .ok () s' := by
  by_cases hlt : size.toNat < (t.ino m.inode).size
  · have hruns : Prog.Runs g.Rep (truncate id size now) t () _ := runs_truncate hu hopen hlt
    obtain ⟨s', hok, -⟩ := hruns s hs
    exact ⟨s', hok⟩
  · have hruns : Prog.Runs g.Rep (truncate id size now) t () t :=
      (runs_handle hopen).bind (runs_getFormat.bind ((runs_onDevice (runs_readInode hu.lt)).bind
        (Prog.Runs.guard hlt (Prog.Runs.pure _ _))))
    obtain ⟨s', hok, -⟩ := hruns s hs
    exact ⟨s', hok⟩

end Geom

/-- Every call on a handle begins with a look at it. -/
theorem handle_refused {α : Type} {f : FileMetadata → FsM α} {s : FFS} {id : Nat}
    (hopen : s.format.openFiles id = none) :
    (handle id >>= f) s = .err (.fileNotOpen id) s := by
  have hnone : handle id s = .err (.fileNotOpen id) s := by
    unfold handle
    rw [Prog.bind_apply]
    simp only [getFormat, hopen]
    rfl
  exact Prog.bind_of_err hnone f

/-- After any tracked run, a handle of the store can be read, moved and cut, and what is read is
what the store has behind its position. Calls on any other id are refused and change nothing. -/
theorem handles_answer {d : MemoryDevice} {now : UInt64} {s₀ s : FFS}
    (hstart : start now d = some s₀) (hrun : Run Op.Tracked s₀ s) (id : Nat) :
    (∀ i p, s.store.handles id = some (i, p) → ∃ c, s.store.files i = some c ∧
      (∀ len, ∃ s', read id len s = .ok ((c.drop p).take len) s') ∧
      (∀ offset, ∃ s', seek id (.start offset) s = .ok offset.toNat s') ∧
      ∀ size now', ∃ s', truncate id size now' s = .ok () s') ∧
    (s.store.handles id = none →
      (∀ len, read id len s = .err (.fileNotOpen id) s) ∧
      (∀ buf now', write id buf now' s = .err (.fileNotOpen id) s) ∧
      (∀ pos, seek id pos s = .err (.fileNotOpen id) s) ∧
      ∀ size now', truncate id size now' s = .err (.fileNotOpen id) s) := by
  constructor
  · intro i p hopen
    obtain ⟨g, t₀, -, hs₀, hinit⟩ := Geom.start_initial hstart
    obtain ⟨h₀, -⟩ := Geom.following_of_initial hinit
    obtain ⟨t, -, hs, ht, -⟩ := Geom.following_of_run hrun hs₀ h₀
    rw [hs.store_eq] at hopen ⊢
    obtain ⟨m, hm, heq⟩ := Option.map_eq_some_iff.mp hopen
    cases heq
    have hfile : t.IsFile m.inode := ht.handled id m hm
    exact ⟨_, Geom.store_file hfile, Geom.read_answers hs ht hm, Geom.seek_answers hs hm,
      Geom.truncate_answers hs (ht.usable hfile.1) hm⟩
  · intro hclosed
    have hnone : s.format.openFiles id = none := Option.map_eq_none_iff.mp hclosed
    exact ⟨fun _ => handle_refused hnone, fun _ _ => handle_refused hnone,
      fun _ => handle_refused hnone, fun _ _ => handle_refused hnone⟩

/-- `/a` is open and holds two bytes, and id 1 is not open. -/
theorem handles_answer_small : ∃ s₀ s, start 0 (MemoryDevice.empty 14) = some s₀ ∧
    Run Op.Tracked s₀ s ∧ (∃ s', read 0 2 s = .ok [104, 105] s') ∧
    (∃ s', truncate 0 1 0 s = .ok () s') ∧ read 1 2 s = .err (.fileNotOpen 1) s := by
  have hcalls : ((start 0 (MemoryDevice.empty 14)).bind (checked (fun s op => op.Traced s)
      [.createFile [47, 97] 0, .openFile [47, 97], .write 0 [104, 105] 0,
        .seek 0 (.start 0)])).any (fun s => decide (s.store.handles 0 = some (1, 0)) &&
          decide (s.store.handles 1 = none) &&
          decide (s.store.files 1 = some [104, 105])) = true := by
    decide +kernel
  obtain ⟨s, hs, hfinal⟩ := (Option.any_eq_true _ _).mp hcalls
  obtain ⟨s₀, hstart, hchecked⟩ := Option.bind_eq_some_iff.mp hs
  simp only [Bool.and_eq_true, decide_eq_true_eq] at hfinal
  obtain ⟨⟨hopen, hclosed⟩, hfile⟩ := hfinal
  have hrun := (run_of_checked hchecked).imp fun _ _ hop => hop.tracked
  obtain ⟨c, hc, hread, -, hcut⟩ := (handles_answer hstart hrun 0).1 1 0 hopen
  rw [hfile] at hc
  cases hc
  exact ⟨s₀, s, hstart, hrun, hread 2, hcut 1 0, ((handles_answer hstart hrun 1).2 hclosed).1 2⟩

end FerrisFS
