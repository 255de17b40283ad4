import FerrisFS.V1.Runs

/-!
# Checking a run

What a call is aimed at can be computed, so conditions on calls can be decided and a
concrete sequence of calls can be checked to be a run.
-/

namespace FerrisFS

open Lib

/-! ## What a call is aimed at -/

/-- Where the parent of a path is, and the name in it. -/
def FFS.parent? (s : FFS) (path : Str) : Option (Nat × Str) :=
  (Path.split path).bind fun x => (s.resolve x.1 true).map fun r => (r.targetInodeIndex, x.2)

/-- What `op` creates. -/
def Op.creation? (s : FFS) : Op → Option (Nat × FileType × Str × UInt64)
  | .createFile path now => (s.parent? path).map fun x => (x.1, .file, x.2, now)
  | .createDirectory path now => (s.parent? path).map fun x => (x.1, .directory, x.2, now)
  | .createSymlink path _ now _ => (s.parent? path).map fun x => (x.1, .symlink, x.2, now)
  | .createChild fileType name p now => some (p, fileType, name, now)
  | _ => none

/-- What `op` links. -/
def Op.link? (s : FFS) : Op → Option (Nat × Nat × Str × UInt64)
  | .createHardlink src dst now =>
      (s.resolve (Path.components src) true).bind fun a =>
        if a.targetInode.fileType = .file then
          (s.parent? dst).map fun x => (a.targetInodeIndex, x.1, x.2, now)
        else none
  | .createChildHardlink i dst p now => (Path.split dst).map fun x => (i, p, x.2, now)
  | _ => none

/-- What `op` enters. -/
def Op.entry? (s : FFS) (op : Op) : Option (Nat × DirEntry) :=
  ((op.creation? s).map fun x => (x.1, newEntry x.2.1 x.2.2.1)).or
    ((op.link? s).map fun x => (x.2.1, DirEntry.new x.1 .file x.2.2.1))

theorem FFS.parent?_eq_some {s : FFS} {path : Str} {p : Nat} {name : Str} :
    s.parent? path = some (p, name) ↔ ∃ parent r, Path.split path = some (parent, name) ∧
      s.resolve parent true = some r ∧ r.targetInodeIndex = p := by
  simp only [parent?, Option.bind_eq_some_iff, Option.map_eq_some_iff, Prod.exists,
    Prod.mk.injEq]
  constructor
  · rintro ⟨parent, name', hsplit, r, hr, rfl, rfl⟩
    exact ⟨parent, r, hsplit, hr, rfl⟩
  · rintro ⟨parent, r, hsplit, hr, rfl⟩
    exact ⟨parent, name, hsplit, r, hr, rfl, rfl⟩

variable {s : FFS} {op : Op} {i p : Nat} {ft : FileType} {name : Str} {now : UInt64}

theorem creates_iff : Creates s op p ft name now ↔ op.creation? s = some (p, ft, name, now) := by
  constructor
  · intro h
    cases h with
    | file hsplit hr =>
        simp only [Op.creation?, FFS.parent?_eq_some.mpr ⟨_, _, hsplit, hr, rfl⟩, Option.map_some]
    | directory hsplit hr =>
        simp only [Op.creation?, FFS.parent?_eq_some.mpr ⟨_, _, hsplit, hr, rfl⟩, Option.map_some]
    | symlink hsplit hr =>
        simp only [Op.creation?, FFS.parent?_eq_some.mpr ⟨_, _, hsplit, hr, rfl⟩, Option.map_some]
    | child => rfl
  · intro h
    have hparent : ∀ {path : Str} {ft' : FileType} {now' : UInt64},
        ((s.parent? path).map fun x => (x.1, ft', x.2, now')) = some (p, ft, name, now) →
        ft' = ft ∧ now' = now ∧ ∃ parent r, Path.split path = some (parent, name) ∧
          s.resolve parent true = some r ∧ r.targetInodeIndex = p := by
      intro path ft' now' hmap
      obtain ⟨⟨p', name'⟩, hp, heq⟩ := Option.map_eq_some_iff.mp hmap
      cases heq
      exact ⟨rfl, rfl, FFS.parent?_eq_some.mp hp⟩
    cases op with
    | createFile path now' =>
        obtain ⟨rfl, rfl, parent, r, hsplit, hr, rfl⟩ := hparent h
        exact .file hsplit hr
    | createDirectory path now' =>
        obtain ⟨rfl, rfl, parent, r, hsplit, hr, rfl⟩ := hparent h
        exact .directory hsplit hr
    | createSymlink path target now' now'' =>
        obtain ⟨rfl, rfl, parent, r, hsplit, hr, rfl⟩ := hparent h
        exact .symlink hsplit hr
    | createChild =>
        cases h
        exact .child
    | _ => cases h

theorem links_iff : Links s op i p name now ↔ op.link? s = some (i, p, name, now) := by
  constructor
  · intro h
    cases h with
    | path ha hfile hsplit hr =>
        simp only [Op.link?, ha, Option.bind_some, hfile, if_true,
          FFS.parent?_eq_some.mpr ⟨_, _, hsplit, hr, rfl⟩, Option.map_some]
    | child hsplit => simp only [Op.link?, hsplit, Option.map_some]
  · intro h
    cases op with
    | createHardlink src dst now' =>
        obtain ⟨a, ha, h⟩ := Option.bind_eq_some_iff.mp h
        split at h
        · rename_i hfile
          obtain ⟨⟨p', name'⟩, hp, heq⟩ := Option.map_eq_some_iff.mp h
          cases heq
          obtain ⟨parent, r, hsplit, hr, rfl⟩ := FFS.parent?_eq_some.mp hp
          exact .path ha hfile hsplit hr
        · cases h
    | createChildHardlink j dst q now' =>
        obtain ⟨⟨parent, name'⟩, hsplit, heq⟩ := Option.map_eq_some_iff.mp h
        cases heq
        exact .child hsplit
    | _ => cases h

/-- No call both creates and links. -/
theorem Op.link?_of_creation? {x : Nat × FileType × Str × UInt64}
    (h : op.creation? s = some x) : op.link? s = none := by
  cases op with
  | createHardlink => cases h
  | createChildHardlink => cases h
  | _ => rfl

theorem enters_iff {e : DirEntry} : Enters s op p e ↔ op.entry? s = some (p, e) := by
  constructor
  · intro h
    cases h with
    | create hc => simp only [creates_iff.mp hc, Op.entry?, Option.map_some, Option.some_or]
    | link hl =>
        have hnone : op.creation? s = none := by
          cases hx : op.creation? s with
          | none => rfl
          | some x =>
              have := links_iff.mp hl
              rw [Op.link?_of_creation? hx] at this
              cases this
        simp only [hnone, Op.entry?, links_iff.mp hl, Option.map_none, Option.map_some,
          Option.none_or]
  · intro h
    rcases Option.or_eq_some_iff.mp h with hc | ⟨-, hl⟩
    · obtain ⟨⟨p', ft, name, now⟩, hx, heq⟩ := Option.map_eq_some_iff.mp hc
      cases heq
      exact .create (creates_iff.mpr hx)
    · obtain ⟨⟨i, p', name, now⟩, hx, heq⟩ := Option.map_eq_some_iff.mp hl
      cases heq
      exact .link (links_iff.mpr hx)

theorem forall_enters {P : Nat → DirEntry → Prop} :
    (∀ p e, Enters s op p e → P p e) ↔ ∀ x ∈ op.entry? s, P x.1 x.2 := by
  constructor
  · intro h x hx
    exact h x.1 x.2 (enters_iff.mpr hx)
  · intro h p e he
    exact h (p, e) (enters_iff.mp he)

instance {data : Region} {entry : DirEntry} {fit : Option (Nat × Nat)} :
    Decidable (Entered.Snug data entry fit) :=
  decidable_of_iff (∀ x ∈ fit, (DirEntry.ofBytes (data x.1) x.2).recordLen ≠
      entry.recordLen + DirEntry.minFreeSize)
    ⟨fun h b off hx => h (b, off) hx, fun h x hx => h x.1 x.2 hx⟩

instance : Decidable (op.Snug s) :=
  decidable_of_iff (∀ x ∈ op.entry? s, ∀ fit ∈ s.canFit x.1 x.2,
      Entered.Snug s.view.data x.2 fit)
    ⟨fun h p e fit he hfit => h (p, e) (enters_iff.mp he) fit hfit,
      fun h x hx fit hfit => h x.1 x.2 fit (enters_iff.mpr hx) hfit⟩

/-! ## Concrete runs -/

theorem Run.cons {ok : FFS → Op → Prop} {s s₁ s' : FFS} {op : Op} (hok : ok s op)
    (hstep : Step s op s₁) (h : Run ok s₁ s') : Run ok s s' := by
  induction h with
  | nil => exact .snoc .nil hok hstep
  | snoc _ hcall hend ih => exact .snoc ih hcall hend

/-- The state after the calls, if each of them satisfies `ok` and ends. -/
def checked (ok : FFS → Op → Prop) [∀ s op, Decidable (ok s op)] : List Op → FFS → Option FFS
  | [], s => some s
  | op :: rest, s => if ok s op then (op.exec s).state?.bind (checked ok rest) else none

theorem run_of_checked {ok : FFS → Op → Prop} [∀ s op, Decidable (ok s op)] {s' : FFS} :
    ∀ {ops : List Op} {s : FFS}, checked ok ops s = some s' → Run ok s s'
  | [], s, h => by
      cases h
      exact .nil
  | op :: rest, s, h => by
      unfold checked at h
      split at h
      · rename_i hok
        obtain ⟨s₁, hstep, hrest⟩ := Option.bind_eq_some_iff.mp h
        exact .cons hok hstep (run_of_checked hrest)
      · cases h

end FerrisFS
