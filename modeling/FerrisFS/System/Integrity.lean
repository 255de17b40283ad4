import FerrisFS.System.Sound
import FerrisFS.V1.Consistent

/-!
# What a report of the integrity checker means

On any device a clean report says that the walk over the directories finds everything in order.
After a session this comes down to what no call looks at: whether anything is lost, and whether
records say what they name. Some of it no session with a large file or a symlink can satisfy.
-/

namespace FerrisFS

open Lib DirectoryHandler INodeTableHandler FormatV1

/-- The integrity checker has nothing to report. -/
def FFS.Clear (s : FFS) : Prop := (checkIntegrity s).value? = some []

instance {s : FFS} : Decidable s.Clear := inferInstanceAs (Decidable (_ = _))

/-- Everything that is allocated hangs together, records say what they name, and the counts are
right. -/
def FFS.Consistent (s : FFS) : Prop :=
  s.CountsMatch ∧
    s.view.Consistent s.format.inodeAllocator.maxIndex s.format.blockAllocator.maxIndex

namespace Geom

variable {g : Geom} {gaps : Bool} {s : FFS} {t : St} {ns xs : List Nat}

theorem of_ok_onDevice {α : Type} {m : DevM α} {a : α} {s' : FFS}
    (h : onDevice m s = .ok a s') : ∃ d', m s.device = .ok a d' := by
  cases hm : m s.device with
  | ok b d' =>
      rw [onDevice, Prog.zoom_of_ok hm] at h
      cases h
      exact ⟨d', rfl⟩
  | err e d' =>
      rw [onDevice, Prog.zoom_of_err hm] at h
      cases h
  | panic =>
      rw [onDevice, Prog.zoom_of_panic hm] at h
      cases h

theorem verified_of_clear (hs : g.Rep s t) (hl : g.Legible t.toView) (h : s.Clear) :
    ∃ ns xs, g.Verified t ns xs := by
  obtain ⟨s', hok⟩ := Outcome.value?_eq_some.mp h
  obtain ⟨f, s₁, hget, hrun⟩ := Prog.of_ok_bind hok
  cases hget
  obtain ⟨d', hd'⟩ := of_ok_onDevice hrun
  rw [hs.2] at hd'
  exact checkDevice_clean hs.1 hl hd'

theorem Verified.clear (h : g.Verified t ns xs) (hs : g.Rep s t) : s.Clear := by
  have hrun : Prog.Runs g.Rep checkIntegrity t [] t :=
    runs_getFormat.bind (runs_onDevice h.runs_checkDevice)
  obtain ⟨s', hok, -⟩ := hrun s hs
  rw [FFS.Clear, hok]
  rfl

theorem consistent_iff (hs : g.Rep s t) : s.Consistent ↔
    t.Consistent g.inodes g.cap ∧
      t.freeInodes = (List.range g.inodes).countP (fun i => !t.ibit i) ∧
      t.freeData = (List.range g.cap).countP fun b => !t.dbit b := by
  rw [FFS.Consistent, FFS.CountsMatch, hs.view_eq, hs.2, and_comm]
  rfl

theorem Upright.clear_iff (h : g.Upright gaps t) (hs : g.Rep s t) :
    s.Clear ↔ s.Consistent := by
  rw [consistent_iff hs, ← verified_iff h.toInv h.acyclic]
  constructor
  · exact verified_of_clear hs (h.toInv.legible fun _ => hs.1.ibit_lt)
  · rintro ⟨ns, xs, hv⟩
    exact hv.clear hs

/-- No inode of a consistent filesystem has pointer blocks: these are allocated, but the checker
does not visit them. -/
theorem Upright.blocks_le (h : g.Upright gaps t) (hc : t.Consistent g.inodes g.cap) {i : Nat}
    (hi : t.ibit i = true) : (t.ino i).blocks ≤ 12 := by
  by_contra hlt
  have hp := @INode.indirect_mem (t.ino i) t.data (Nat.not_le.mp hlt)
  have howned : (t.ino i).indirect ∈ t.owned i := List.mem_append_right _ hp
  obtain ⟨j, hj, hb⟩ := hc.blocks _ ((h.mapped hi).lt _ howned) (h.owning.owns.marked i hi _ howned)
  exact h.owning.pointer_ne hj hi hb hp rfl

end Geom

/-- On whatever device, the checker reports nothing exactly where the walk over the directories
ends, finds every record, inode and block that it meets in order, and meets everything. -/
theorem clear_iff_verified {g : Geom} {s : FFS} {t : St} (hs : g.Rep s t)
    (hl : g.Legible t.toView) : s.Clear ↔ ∃ ns xs, g.Verified t ns xs :=
  ⟨Geom.verified_of_clear hs hl, fun ⟨_, _, h⟩ => h.clear hs⟩

/-- A directory with a file in it and a file with content. -/
theorem clear_iff_verified_small : ∃ (g : Geom) (s : FFS) (t : St), g.Rep s t ∧
    g.Legible t.toView ∧ ∃ ns xs, g.Verified t ns xs := by
  have hfacts : ((start 0 (MemoryDevice.empty 14)).bind (checked (fun s op => op.Tame s)
      [.createFile [47, 97] 0, .createDirectory [47, 100] 0, .createFile [47, 100, 47, 98] 0,
        .openFile [47, 97], .write 0 [104, 105] 0])).any (fun s => decide s.Clear) = true := by
    decide +kernel
  obtain ⟨s, hs, hclear⟩ := (Option.any_eq_true _ _).mp hfacts
  obtain ⟨s₀, hstart, hchecked⟩ := Option.bind_eq_some_iff.mp hs
  have hsession : Session s₀ s := .of_run (run_of_checked hchecked) fun _ _ hop => hop.careful
  obtain ⟨g, t₀, -, hs₀, hinit⟩ := Geom.start_initial hstart
  obtain ⟨t, hs, ht⟩ := Geom.upright_of_session hsession hs₀ (.of_initial hinit)
  have hl : g.Legible t.toView := ht.toInv.legible fun _ => hs.1.ibit_lt
  exact ⟨g, s, t, hs, hl, (clear_iff_verified hs hl).mp (of_decide_eq_true hclear)⟩

/-- After every session the checker reports nothing exactly where the filesystem is consistent. -/
theorem session_clear_iff {d : MemoryDevice} {now : UInt64} {s₀ s : FFS}
    (hstart : start now d = some s₀) (h : Session s₀ s) : s.Clear ↔ s.Consistent := by
  obtain ⟨g, t₀, -, hs₀, hinit⟩ := Geom.start_initial hstart
  obtain ⟨t, hs, ht⟩ := Geom.upright_of_session h hs₀ (.of_initial hinit)
  exact ht.clear_iff hs

/-- Two directories, one in the other, and an empty file. -/
theorem session_clear_iff_small : ∃ s₀ s, start 0 (MemoryDevice.empty 14) = some s₀ ∧
    Session s₀ s ∧ s.Consistent := by
  have hfacts : ((start 0 (MemoryDevice.empty 14)).bind (checked (fun s op => op.Tame s)
      [.createDirectory [47, 100] 0, .createDirectory [47, 100, 47, 101] 0,
        .createFile [47, 97] 0])).any (fun s => decide s.Clear) = true := by
    decide +kernel
  obtain ⟨s, hs, hclear⟩ := (Option.any_eq_true _ _).mp hfacts
  obtain ⟨s₀, hstart, hchecked⟩ := Option.bind_eq_some_iff.mp hs
  have hsession : Session s₀ s := .of_run (run_of_checked hchecked) fun _ _ hop => hop.careful
  exact ⟨s₀, s, hstart, hsession,
    (session_clear_iff hstart hsession).mp (of_decide_eq_true hclear)⟩

/-- No session with a symlink or with an inode of more than 12 blocks gets a clean report,
sound as the filesystem is. -/
theorem session_alarm {d : MemoryDevice} {now : UInt64} {s₀ s : FFS} {i : Nat}
    (hstart : start now d = some s₀) (h : Session s₀ s) (hi : s.view.ibit i = true)
    (hbad : (s.view.ino i).fileType = .symlink ∨ 12 < (s.view.ino i).blocks) :
    s.Sound true ∧ ¬ s.Clear := by
  obtain ⟨g, t₀, -, hs₀, hinit⟩ := Geom.start_initial hstart
  obtain ⟨t, hs, ht⟩ := Geom.upright_of_session h hs₀ (.of_initial hinit)
  refine ⟨ht.sound hs, fun hclear => ?_⟩
  have hc := ((Geom.consistent_iff hs).mp ((ht.clear_iff hs).mp hclear)).1
  rw [hs.view_eq] at hi hbad
  rcases hbad with hsym | hlt
  · rcases hc.plain i hi with htype | htype
    · rw [htype] at hsym
      cases hsym
    · rw [htype] at hsym
      cases hsym
  · exact absurd (ht.blocks_le hc hi) (Nat.not_le.mpr hlt)

/-- A symlink is made and nothing else. -/
theorem session_alarm_small : ∃ s₀ s, start 0 (MemoryDevice.empty 14) = some s₀ ∧
    Session s₀ s ∧ s.Sound true ∧ ¬ s.Clear := by
  have hfacts : ((start 0 (MemoryDevice.empty 14)).bind (checked (fun s op => op.Tame s)
      [.createSymlink [47, 108] [97] 0 0])).any (fun s => s.view.ibit 1 &&
        decide ((s.view.ino 1).fileType = .symlink)) = true := by
    decide +kernel
  obtain ⟨s, hs, hfacts⟩ := (Option.any_eq_true _ _).mp hfacts
  obtain ⟨hlive, hsym⟩ := Bool.and_eq_true_iff.mp hfacts
  obtain ⟨s₀, hstart, hchecked⟩ := Option.bind_eq_some_iff.mp hs
  have hsession : Session s₀ s := .of_run (run_of_checked hchecked) fun _ _ hop => hop.careful
  exact ⟨s₀, s, hstart, hsession,
    session_alarm hstart hsession hlive (.inl (of_decide_eq_true hsym))⟩

end FerrisFS
