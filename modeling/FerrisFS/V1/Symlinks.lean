import FerrisFS.V1.Follow
import FerrisFS.V1.Siblings

/-!
# How many symlinks a resolution follows

`it` counts how deep the followed symlinks are nested, not how many there are: a path may
lead through any number of them as long as each one is followed at most 40 levels deep.
-/

namespace FerrisFS

open Lib DirectoryHandler INodeTableHandler

namespace DirectoryHandler

variable {h : DirectoryHandler} {ih : INodeTableHandler} {d : MemoryDevice} {final : Bool}
  {path : List Component} {src : Nat} {r : ResolutionResult}

/-- The number of calls of `_resolve_symlink` in a call of `resolve`. -/
def followed (h : DirectoryHandler) (ih : INodeTableHandler) (d : MemoryDevice)
    (path : List Component) (src : Nat) (final : Bool) : Nat :=
  match h.loggedResolve path src ih final (d, []) with
  | .ok _ t => t.2.length
  | .err _ t => t.2.length
  | .panic => 0

/-- The four ways `resolve` ends, beside those of the resolution along the links. -/
theorem resolve_cases (h : DirectoryHandler) (ih : INodeTableHandler) (d : MemoryDevice)
    (final : Bool) (path : List Component) (src : Nat) :
    (∃ n k r, (h.links ih d).resolve 40 final path src = .found n k ∧
      h.resolve path src ih final d = .ok r d ∧ Found r n ∧
      h.followed ih d path src final = k) ∨
    ((h.links ih d).resolve 40 final path src = .lost .refused ∧
      ∃ e, h.resolve path src ih final d = .err e d) ∨
    ((h.links ih d).resolve 40 final path src = .lost .panicked ∧
      h.resolve path src ih final d = .panic) ∨
    ((h.links ih d).resolve 40 final path src = .deep ∧
      ∃ p, h.resolve path src ih final d = .err (.maximumSymlinkDepthReached p 40) d) := by
  have hends := @ends_resolve h ih d final path src []
  have herase := @erases_from h ih 41 0 final path src
  unfold followed
  cases hrun : h.loggedResolve path src ih final (d, []) with
  | ok a t =>
      have hcode := herase.of_ok hrun
      rw [hrun] at hends
      generalize (h.links ih d).resolve 40 final path src = res at hends
      cases hends with
      | found l' hn => exact .inl ⟨_, _, a, rfl, hcode, hn, rfl⟩
  | err e t =>
      have hcode := herase.of_err hrun
      rw [hrun] at hends
      generalize (h.links ih d).resolve 40 final path src = res at hends
      cases hends with
      | refused e l' => exact .inr (.inl ⟨rfl, e, hcode⟩)
      | deep p l' => exact .inr (.inr (.inr ⟨rfl, p, hcode⟩))
  | panic =>
      have hcode := herase.of_panic hrun
      rw [hrun] at hends
      generalize (h.links ih d).resolve 40 final path src = res at hends
      cases hends
      exact .inr (.inr (.inl ⟨rfl, hcode⟩))

/-- How `resolve` ends when the resolution along the links ends so. -/
def EndsAs (d : MemoryDevice) (out : Outcome FSError MemoryDevice ResolutionResult) :
    Res Failure Node → Prop
  | .found n _ => ∃ r, out = .ok r d ∧ Found r n
  | .lost .refused => ∃ e, out = .err e d
  | .lost .panicked => out = .panic
  | .deep => ∃ p, out = .err (.maximumSymlinkDepthReached p 40) d

theorem resolve_endsAs (h : DirectoryHandler) (ih : INodeTableHandler) (d : MemoryDevice)
    (final : Bool) (path : List Component) (src : Nat) :
    EndsAs d (h.resolve path src ih final d) ((h.links ih d).resolve 40 final path src) := by
  obtain ⟨n, k, r, hres, hr, hf, -⟩ | ⟨hres, hr⟩ | ⟨hres, hr⟩ | ⟨hres, hr⟩ :=
    resolve_cases h ih d final path src
  · rw [hres]
    exact ⟨r, hr, hf⟩
  all_goals
    rw [hres]
    exact hr

theorem resolve_of_found {n : Node} {k : Nat}
    (hres : (h.links ih d).resolve 40 final path src = .found n k) :
    ∃ r, h.resolve path src ih final d = .ok r d ∧ Found r n := by
  have hends := resolve_endsAs h ih d final path src
  rwa [hres] at hends

theorem resolve_of_refused (hres : (h.links ih d).resolve 40 final path src = .lost .refused) :
    ∃ e, h.resolve path src ih final d = .err e d := by
  have hends := resolve_endsAs h ih d final path src
  rwa [hres] at hends

theorem resolve_of_panicked
    (hres : (h.links ih d).resolve 40 final path src = .lost .panicked) :
    h.resolve path src ih final d = .panic := by
  have hends := resolve_endsAs h ih d final path src
  rwa [hres] at hends

theorem resolve_of_deep (hres : (h.links ih d).resolve 40 final path src = .deep) :
    ∃ p, h.resolve path src ih final d = .err (.maximumSymlinkDepthReached p 40) d := by
  have hends := resolve_endsAs h ih d final path src
  rwa [hres] at hends

/-- A call that returns has found its result along the links. -/
theorem found_of_resolve {d' : MemoryDevice} (hok : h.resolve path src ih final d = .ok r d') :
    ∃ n k, (h.links ih d).resolve 40 final path src = .found n k ∧ Found r n ∧
      h.followed ih d path src final = k := by
  obtain ⟨n, k, r', hres, hr, hn, hk⟩ | ⟨-, e, hr⟩ | ⟨-, hr⟩ | ⟨-, p, hr⟩ :=
    resolve_cases h ih d final path src
  · rw [hok] at hr
    cases hr
    exact ⟨n, k, hres, hn, hk⟩
  · rw [hok] at hr
    cases hr
  · rw [hok] at hr
    cases hr
  · rw [hok] at hr
    cases hr

/-- When links are replaced by their targets one after the other, the first link of the
path each time, no more than 40 of them are met. -/
def FewLinks (h : DirectoryHandler) (ih : INodeTableHandler) (d : MemoryDevice)
    (path : List Component) (src : Nat) (final : Bool) : Prop :=
  ∃ n, (h.links ih d).start path src = .ok n ∧ (h.links ih d).flat 40 final path n ≠ .deep

/-- A call of `resolve` that returns has followed at most 40 symlinks if and only if
replacing links by their targets meets at most 40 of them. -/
theorem followed_le_iff {d' : MemoryDevice}
    (hok : h.resolve path src ih final d = .ok r d') :
    h.followed ih d path src final ≤ 40 ↔ h.FewLinks ih d path src final := by
  obtain ⟨n, k, hres, -, hk⟩ := found_of_resolve hok
  rw [hk]
  cases hstart : (h.links ih d).start path src with
  | error e =>
      rw [Links.resolve_eq, Links.enter, hstart] at hres
      cases hres
  | ok m =>
      rw [Links.resolve_of_start hstart] at hres
      have hflat := Links.flat_of_walk hres 40
      constructor
      · intro hle
        refine ⟨m, hstart, ?_⟩
        rw [hflat, if_pos hle]
        simp
      · intro hfew
        obtain ⟨m', hm', hne⟩ := hfew
        rw [hstart] at hm'
        cases hm'
        by_contra hgt
        rw [hflat, if_neg hgt] at hne
        exact hne rfl

end DirectoryHandler

namespace FFS

/-- What `resolve` follows from the root. -/
def followed (s : FFS) (path : List Component) (final : Bool) : Nat :=
  s.format.directoryHandler.followed s.format.inodeHandler s.device path
    s.format.superblock.rootInode final

theorem resolve_run {s : FFS} {path : List Component} {final : Bool}
    (h : (s.resolve path final).isSome = true) :
    ∃ r, s.format.directoryHandler.resolve path s.format.superblock.rootInode
      s.format.inodeHandler final s.device = .ok r s.device := by
  obtain ⟨r, hr⟩ := Option.isSome_iff_exists.mp h
  obtain ⟨d, hd⟩ := Outcome.value?_eq_some.mp hr
  obtain rfl := (readOnly_resolve _ _ _ _ _).of_ok hd
  exact ⟨r, hd⟩

end FFS

/-- `/s` is a symlink to `/`, and `/s/s` is resolved. -/
theorem followed_le_two : ∃ s₀ s r, start 0 (MemoryDevice.empty 14) = some s₀ ∧
    Step s₀ (.createSymlink [47, 115] [47] 0 0) s ∧
    s.format.directoryHandler.resolve (Path.components [47, 115, 47, 115])
      s.format.superblock.rootInode s.format.inodeHandler true s.device = .ok r s.device ∧
    s.format.directoryHandler.FewLinks s.format.inodeHandler s.device
      (Path.components [47, 115, 47, 115]) s.format.superblock.rootInode true := by
  have hcalls : ((start 0 (MemoryDevice.empty 14)).bind fun s =>
      ((Op.createSymlink [47, 115] [47] 0 0).exec s).state?).any (fun s =>
        (s.resolve (Path.components [47, 115, 47, 115]) true).isSome &&
          decide (s.followed (Path.components [47, 115, 47, 115]) true ≤ 40)) = true := by
    decide +kernel
  obtain ⟨s, hs, hfinal⟩ := (Option.any_eq_true _ _).mp hcalls
  obtain ⟨s₀, hstart, hstep⟩ := Option.bind_eq_some_iff.mp hs
  simp only [Bool.and_eq_true, decide_eq_true_eq] at hfinal
  obtain ⟨r, hr⟩ := FFS.resolve_run hfinal.1
  exact ⟨s₀, s, r, hstart, hstep, hr, (followed_le_iff hr).mp hfinal.2⟩

/-- `/s` is a symlink to `/`, and `/s/s/…/s` with 41 of them is resolved. -/
theorem followed_many : ∃ s₀ s r, start 0 (MemoryDevice.empty 14) = some s₀ ∧
    Step s₀ (.createSymlink [47, 115] [47] 0 0) s ∧
    s.format.directoryHandler.resolve (Path.components (List.replicate 41 [47, 115]).flatten)
      s.format.superblock.rootInode s.format.inodeHandler true s.device = .ok r s.device ∧
    ¬ s.format.directoryHandler.followed s.format.inodeHandler s.device
      (Path.components (List.replicate 41 [47, 115]).flatten)
      s.format.superblock.rootInode true ≤ 40 := by
  have hcalls : ((start 0 (MemoryDevice.empty 14)).bind fun s =>
      ((Op.createSymlink [47, 115] [47] 0 0).exec s).state?).any (fun s =>
        (s.resolve (Path.components (List.replicate 41 [47, 115]).flatten) true).isSome &&
          decide (40 < s.followed
            (Path.components (List.replicate 41 [47, 115]).flatten) true)) = true := by
    decide +kernel
  obtain ⟨s, hs, hfinal⟩ := (Option.any_eq_true _ _).mp hcalls
  obtain ⟨s₀, hstart, hstep⟩ := Option.bind_eq_some_iff.mp hs
  simp only [Bool.and_eq_true, decide_eq_true_eq] at hfinal
  obtain ⟨r, hr⟩ := FFS.resolve_run hfinal.1
  exact ⟨s₀, s, r, hstart, hstep, hr, Nat.not_le.mpr hfinal.2⟩

end FerrisFS
