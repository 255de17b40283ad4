import FerrisFS.V1.Inspect

/-!
# The path operations and the inode operations

`create`, `delete` and `create_hardlink` find the parent directory by its path,
`create_child`, `delete_child` and `create_child_hardlink` are given its inode. On the
same parent they do the same, except that only `delete` refuses the root.
-/

namespace FerrisFS

open Lib DirectoryHandler INodeTableHandler FormatV1

/-! ## Resolution -/

namespace Path

theorem components_of_split {path : Str} {parent : List Component} {name : Str}
    (h : split path = some (parent, name)) : components path = parent ++ [.normal name] := by
  unfold split at h
  dsimp only at h
  split at h
  · rename_i n hlast
    cases h
    exact (List.dropLast_append_getLast? _ hlast).symm
  · cases h

end Path

namespace DirectoryHandler

variable {h : DirectoryHandler} {ih : INodeTableHandler} {d : MemoryDevice}
  {follow : List Component → Nat → DevM ResolutionResult} {it : Nat}

/-- The inode of the result is what the device holds. -/
def Reads (ih : INodeTableHandler) (d : MemoryDevice) (r : ResolutionResult) : Prop :=
  ih.readInode r.targetInodeIndex d = .ok r.targetInode d

/-- A program that answers with what the device holds. -/
def Reader (ih : INodeTableHandler) (m : DevM ResolutionResult) : Prop :=
  ∀ d, Prog.wp m (fun r d' => d' = d ∧ Reads ih d r) (fun _ d' => d' = d) d

theorem reads_resolveComponent (hfollow : ∀ target src, Reader ih (follow target src))
    {final last : Bool} {comp : Component} {c : Cursor} :
    Prog.wp (h.resolveComponent ih follow final it comp last c)
      (fun c' d' => d' = d ∧ Reads ih d c'.result) (fun _ d' => d' = d) d := by
  refine Prog.wp_seq (readOnly_findEntry _ _ _ _ d) ?_ fun _ _ he => he
  intro found d' hd
  subst hd
  match found with
  | none => exact Prog.wp_fail _ |>.mpr rfl
  | some (e, b, off) =>
    refine Prog.wp_guard (fun _ => rfl) fun _ => ?_
    refine Prog.wp_seq ((readOnly_readInode ih e.inode).wp_self _) ?_ fun _ _ he => he.1
    intro inode d' hread
    obtain ⟨hd, hread⟩ := hread
    subst hd
    refine Prog.wp_ite (fun _ => ?_) fun _ => ?_
    · refine Prog.wp_guard (fun _ => rfl) fun _ => ?_
      refine Prog.wp_guard (fun _ => rfl) fun _ => ?_
      refine Prog.wp_seq (readOnly_symlinkTarget _ _ _ _) ?_ fun _ _ he => he
      intro target d' hd
      subst hd
      refine Prog.wp_seq (hfollow target.1 target.2 _) ?_ fun _ _ he => he
      intro res d' hres
      obtain ⟨hd, hres⟩ := hres
      subst hd
      refine Prog.wp_guard (fun _ => rfl) fun _ => ?_
      exact ⟨rfl, hres⟩
    · refine Prog.wp_ite (fun _ => rfl) fun _ => ?_
      exact ⟨rfl, hread⟩

theorem reads_resolveLoop (hfollow : ∀ target src, Reader ih (follow target src))
    {final : Bool} : ∀ (comps : List Component) (c : Cursor), Reads ih d c.result →
      Prog.wp (h.resolveLoop ih follow final it comps c)
        (fun c' d' => d' = d ∧ Reads ih d c'.result) (fun _ d' => d' = d) d := by
  intro comps
  induction comps with
  | nil =>
      intro c hc
      exact ⟨rfl, hc⟩
  | cons comp rest ih' =>
      intro c hc
      refine Prog.wp_ite (fun _ => ih' c hc) fun _ => ?_
      refine Prog.wp_seq (reads_resolveComponent hfollow) ?_ fun _ _ he => he
      intro c' d' hc'
      obtain ⟨hd, hc'⟩ := hc'
      subst hd
      exact ih' c' hc'

/-- `_resolve` answers with the inode that is on the device. -/
theorem reader_resolveFrom : ∀ (fuel it : Nat) (final : Bool) (path : List Component)
    (src : Nat), Reader ih (h.resolveFrom ih fuel it final path src) := by
  intro fuel
  induction fuel with
  | zero => exact fun _ _ _ _ _ => trivial
  | succ fuel hfuel =>
      intro it final path src d
      refine Prog.wp_seq ((readOnly_readInode ih src).wp_self d) ?_ fun _ _ he => he.1
      intro cur d' hcur
      obtain ⟨hd, hcur⟩ := hcur
      subst hd
      refine Prog.wp_ite (fun _ => ⟨rfl, hcur⟩) fun _ => Prog.wp_ite (fun _ => ?_) fun _ => ?_
      · refine Prog.wp_seq ((readOnly_readInode ih h.rootInodeInd).wp_self _) ?_
          fun _ _ he => he.1
        intro root d' hroot
        obtain ⟨hd, hroot⟩ := hroot
        subst hd
        exact ⟨rfl, hroot⟩
      · refine Prog.wp_seq (reads_resolveLoop (fun target src => hfuel _ _ target src) path _
          hcur) ?_ fun _ _ he => he
        intro c d' hc
        exact hc

/-- Before the last component a symlink is followed in any case. -/
theorem resolveComponent_mid {comp : Component} {c c' : Cursor} {d' : MemoryDevice}
    (hrun : h.resolveComponent ih follow true it comp true c d = .ok c' d')
    (hdir : c'.inode.fileType = .directory) :
    h.resolveComponent ih follow false it comp false c d = .ok c' d' := by
  unfold resolveComponent at hrun ⊢
  obtain ⟨found, d₁, hfound, hrun⟩ := Prog.of_ok_bind hrun
  rw [Prog.bind_of_ok hfound]
  match found with
  | none => cases hrun
  | some (e, b, off) =>
    obtain ⟨hne, hrun⟩ := Prog.of_ok_guard hrun
    obtain ⟨inode, d₂, hinode, hrun⟩ := Prog.of_ok_bind hrun
    dsimp only
    rw [if_neg hne, Prog.bind_of_ok hinode]
    by_cases hsym : inode.fileType = .symlink
    · rw [if_pos ⟨hsym, .inr rfl⟩] at hrun
      rw [if_pos ⟨hsym, .inl Bool.false_ne_true⟩]
      obtain ⟨hit, hrun⟩ := Prog.of_ok_guard hrun
      obtain ⟨hsize, hrun⟩ := Prog.of_ok_guard hrun
      obtain ⟨target, d₃, htarget, hrun⟩ := Prog.of_ok_bind hrun
      obtain ⟨res, d₄, hres, hrun⟩ := Prog.of_ok_bind hrun
      obtain ⟨-, hrun⟩ := Prog.of_ok_guard hrun
      rw [if_neg hit, if_neg hsize, Prog.bind_of_ok htarget, Prog.bind_of_ok hres]
      cases hrun
      exact congrFun (if_neg fun hnd => hnd.1 hdir) _
    · rw [if_neg fun hs => hsym hs.1] at hrun ⊢
      rw [if_neg fun hnd => hnd.2 rfl] at hrun
      cases hrun
      exact congrFun (if_neg fun hnd => hnd.1 hdir) _

/-- Before the last component it does not matter whether a final symlink is followed. -/
theorem resolveComponent_inner (final final' : Bool) (comp : Component) (c : Cursor) :
    h.resolveComponent ih follow final it comp false c =
      h.resolveComponent ih follow final' it comp false c := by
  unfold resolveComponent
  simp only [Bool.false_eq_true, not_false_eq_true, true_or, and_true]

/-- One more component is looked up where the path to its parent led. -/
theorem resolveLoop_snoc {comp : Component} (hcomp : ¬ (comp = .curDir ∨ comp = .rootDir)) :
    ∀ (comps : List Component) (c c' : Cursor) (d d' : MemoryDevice),
      h.resolveLoop ih follow true it comps c d = .ok c' d' →
      c'.inode.fileType = .directory →
      h.resolveLoop ih follow false it (comps ++ [comp]) c d =
        h.resolveComponent ih follow false it comp true c' d' := by
  intro comps
  induction comps with
  | nil =>
      intro c c' d d' hrun _
      cases hrun
      show h.resolveLoop ih follow false it [comp] c d = _
      unfold resolveLoop
      rw [if_neg hcomp]
      show (h.resolveComponent ih follow false it comp true c >>= fun c => pure c) d = _
      rw [Prog.bind_apply]
      cases h.resolveComponent ih follow false it comp true c d <;> rfl
  | cons first rest ih' =>
      intro c c' d d' hrun hdir
      rw [List.cons_append]
      unfold resolveLoop at hrun ⊢
      by_cases hs : first = .curDir ∨ first = .rootDir
      · rw [if_pos hs] at hrun ⊢
        exact ih' c c' d d' hrun hdir
      · rw [if_neg hs] at hrun ⊢
        have hlast : (rest ++ [comp]).isEmpty = false := by simp
        rw [hlast]
        obtain ⟨c₁, d₁, hfirst, hrun⟩ := Prog.of_ok_bind hrun
        have hmid : h.resolveComponent ih follow false it first false c d = .ok c₁ d₁ := by
          cases rest with
          | nil =>
              cases hrun
              exact resolveComponent_mid hfirst hdir
          | cons _ _ =>
              rw [resolveComponent_inner false true]
              exact hfirst
        rw [Prog.bind_of_ok hmid]
        exact ih' c₁ c' d₁ d' hrun hdir

/-- What `_resolve` does with the last component when it does not follow it. -/
def lookUp (h : DirectoryHandler) (ih : INodeTableHandler) (parent : INode) (parentInd : Nat)
    (name progress : Str) : DevM ResolutionResult := do
  let found ← h.findEntry parent ih name
  match found with
  | none => Prog.fail (.doesNotExist progress)
  | some (entry, entryBlock, entryOffset) => do
    if entry.inode = INVALID_ADDRESS then
      Prog.fail (.invalidDirEntry .invalidINode entryBlock entryOffset)
    let inode ← ih.readInode entry.inode
    pure ⟨inode, entry.inode, parentInd, entry, entryBlock, entryOffset⟩

theorem resolveComponent_last (comp : Component) (c : Cursor) :
    (h.resolveComponent ih follow false it comp true c >>= fun c => pure c.result) d =
    h.lookUp ih c.inode c.inodeInd (Path.componentBytes comp) (Path.join c.progress comp) d := by
  unfold resolveComponent lookUp
  rw [Prog.bind_assoc]
  refine congrFun (congrArg _ (funext fun found => ?_)) d
  match found with
  | none => rfl
  | some (e, b, off) =>
    dsimp only
    split
    · rfl
    · rw [Prog.bind_assoc]
      refine congrArg _ (funext fun inode => ?_)
      simp only [not_true_eq_false, Bool.false_eq_true, or_false, and_false, if_false]
      rfl

/-- One more component, from the root. -/
theorem resolve_snoc {parent : List Component} {src : Nat} {r : ResolutionResult}
    {comp : Component} (hcomp : ¬ (comp = .curDir ∨ comp = .rootDir))
    (hsrc : h.rootInodeInd = src) (hr : h.resolve parent src ih true d = .ok r d)
    (hdir : r.targetInode.fileType = .directory) :
    ∃ progress, h.resolve (parent ++ [comp]) src ih false d =
      h.lookUp ih r.targetInode r.targetInodeIndex (Path.componentBytes comp) progress d := by
  -- the loop over the parent, from the inode the walk starts at
  have hloop : ∀ cur, ih.readInode src d = .ok cur d → ∀ c, h.resolveLoop ih
      (fun target src => h.resolveFrom ih 40 1 true target src) true 0 parent
        ⟨cur, src, src, DirEntry.free 0, 0, 0, []⟩ d = .ok c d →
      c.inode = r.targetInode → c.inodeInd = r.targetInodeIndex →
      ∃ progress, h.resolve (parent ++ [comp]) src ih false d =
        h.lookUp ih r.targetInode r.targetInodeIndex (Path.componentBytes comp) progress d := by
    intro cur hcur c hc hinode hind
    refine ⟨Path.join c.progress comp, ?_⟩
    have hlast : ∀ last, parent ++ [comp] = [last] → comp = last := by
      intro last heq
      have := congrArg List.getLast? heq
      simpa using this
    have hne : ¬ (parent ++ [comp] = [] ∨ parent ++ [comp] = [.curDir]) := by
      intro heq
      rcases heq with heq | heq
      · simp at heq
      · exact hcomp (.inl (hlast _ heq))
    have hne' : ¬ parent ++ [comp] = [.rootDir] := by
      intro heq
      exact hcomp (.inr (hlast _ heq))
    show (ih.readInode src >>= _) d = _
    rw [Prog.bind_of_ok hcur, if_neg hne, if_neg hne', Prog.bind_apply,
      resolveLoop_snoc hcomp parent _ c d d hc (hinode ▸ hdir), ← Prog.bind_apply,
      resolveComponent_last, hinode, hind]
  obtain ⟨cur, d₁, hcur, hrun⟩ := Prog.of_ok_bind hr
  obtain rfl := (readOnly_readInode ih src).of_ok hcur
  by_cases hempty : parent = [] ∨ parent = [.curDir]
  · rw [if_pos hempty] at hrun
    cases hrun
    refine hloop cur hcur ⟨cur, src, src, DirEntry.free 0, 0, 0, []⟩ ?_ rfl rfl
    rcases hempty with rfl | rfl <;> rfl
  rw [if_neg hempty] at hrun
  by_cases hroot : parent = [.rootDir]
  · rw [if_pos hroot, hsrc] at hrun
    rw [Prog.bind_of_ok hcur] at hrun
    cases hrun
    refine hloop cur hcur ⟨cur, src, src, DirEntry.free 0, 0, 0, []⟩ ?_ rfl rfl
    rw [hroot]
    rfl
  · rw [if_neg hroot] at hrun
    obtain ⟨c, d₂, hc, hrun⟩ := Prog.of_ok_bind hrun
    cases hrun
    exact hloop cur hcur c hc rfl rfl

end DirectoryHandler

/-! ## The common bodies -/

section Bodies

variable {s : FFS} {now : UInt64}

theorem same_createIn {p : Nat} {n : INode} {ft : FileType} {name : Str}
    {onExists onExists' : DirEntry → FSError} :
    (createIn p n ft name onExists now s).Same (createIn p n ft name onExists' now s) := by
  apply Prog.same_bind
  intro f s₁ _
  apply Prog.same_bind
  intro existing s₂ _
  match existing with
  | some (e, _, _) => exact .err _ _ s₂
  | none => exact .refl _

theorem same_linkIn {i p : Nat} {n parent : INode} {dst dst' name : Str} :
    (linkIn n i dst name parent p now s).Same (linkIn n i dst' name parent p now s) := by
  apply Prog.same_bind
  intro f s₁ _
  apply Prog.same_bind
  intro existing s₂ _
  exact Prog.same_guard fun _ => .refl _

theorem same_unlink {i p b off : Nat} {n parent : INode} {e e' : FSError} :
    (unlink n i parent p b off e now s).Same (unlink n i parent p b off e' now s) := by
  apply Prog.same_bind
  intro f s₁ _
  apply Prog.same_ite
  · intro _
    apply Prog.same_bind
    intro empty s₂ _
    exact Prog.same_guard fun _ => .refl _
  · intro _
    exact .refl _

end Bodies

/-! ## The operations -/

namespace FFS

/-- What the emptiness check of `delete` answers for the inode `i`. -/
def emptyCheck (s : FFS) (i : Nat) : Option (Except FSError Bool) :=
  (s.format.directoryHandler.iterate (s.view.ino i) s.format.inodeHandler emptyCallback true
    s.device).answer?

/-- The operations on `path` and those on `name` in the inode `p` end alike. -/
structure Agree (s : FFS) (path name : Str) (p : Nat) : Prop where
  create : ∀ fileType now, fileType ≠ .unknown →
    (create path fileType now s).Same (createChild fileType name p now s)
  delete : ∀ now, (delete path now s).Same (deleteChild name p none now s)
  link : ∀ src a dst parent now, s.resolve (Path.components src) true = some a →
    a.targetInode.fileType = .file → Path.split dst = some (parent, name) →
    (createHardlink src path now s).Same (createChildHardlink (s.view.ino a.targetInodeIndex)
      a.targetInodeIndex dst (s.view.ino p) p now s)

/-- `name` in the inode `p` is not the root, or the root is a directory that the
emptiness check refuses to remove. -/
def SparesRoot (s : FFS) (p : Nat) (name : Str) : Prop :=
  ∀ e b off, s.findEntry p name = some (some (e, b, off)) → e.inode = 0 →
    (s.view.ino 0).fileType = .directory ∧ ∃ x, s.emptyCheck 0 = some x ∧ x ≠ .ok true

end FFS

namespace Geom

variable {g : Geom} {s : FFS} {t : St}

/-- `resolve` answers with the inode that is on the device. -/
theorem resolve_reads {path : List Component} {final : Bool} {r : ResolutionResult}
    (hr : s.resolve path final = some r) :
    (s.format.inodeHandler.readInode r.targetInodeIndex s.device).value? =
      some r.targetInode := by
  obtain ⟨d, hd⟩ := Outcome.value?_eq_some.mp hr
  obtain ⟨-, hread⟩ := (reader_resolveFrom 41 0 final path _ s.device).of_ok hd
  rw [hread]
  rfl

theorem resolve_inode (hs : g.Rep s t) {path : List Component} {final : Bool}
    {r : ResolutionResult} (hr : s.resolve path final = some r) :
    r.targetInode = t.ino r.targetInodeIndex := by
  obtain ⟨d, hd⟩ := Outcome.value?_eq_some.mp (resolve_reads hr)
  rw [hs.2] at hd
  have hspec := wpr_readInode (g := g) (v := t.toView) (i := r.targetInodeIndex)
    (Q := fun n _ => n = t.ino r.targetInodeIndex) (E := fun _ _ => True)
    (fun _ => rfl) fun _ => trivial
  obtain ⟨_, -, hn⟩ := hspec.of_ok hs.1 hd
  exact hn

variable {path : Str} {parent : List Component} {name : Str} {r : ResolutionResult}
  {now : UInt64} {e : DirEntry} {b off : Nat}

theorem create_eq (hsplit : Path.split path = some (parent, name))
    (hr : s.resolve parent true = some r) {ft : FileType} (hft : ft ≠ .unknown) :
    create path ft now s = createIn r.targetInodeIndex r.targetInode ft name
      (fun _ => .alreadyExists path) now s := by
  unfold create
  rw [if_neg hft, hsplit]
  exact Prog.bind_of_ok (onDevice_of_value (readOnly_resolve _ _ _ _ _) hr) _

theorem createChild_eq {p : Nat} {n : INode} {ft : FileType}
    (halloc : (s.format.inodeAllocator.isAllocated p s.device).value? = some true)
    (hread : (s.format.inodeHandler.readInode p s.device).value? = some n)
    (hdir : n.fileType = .directory) :
    createChild ft name p now s = createIn p n ft name
      (fun e => .alreadyExists (natStr e.inode)) now s := by
  refine (Prog.bind_of_ok (onDevice_of_value (readOnly_isAllocated _ _) halloc) _).trans ?_
  refine (Prog.bind_of_ok (onDevice_of_value (readOnly_readInode _ _) hread) _).trans ?_
  exact congrFun (if_neg (not_not.mpr hdir)) s

theorem createHardlink_eq {src dst : Str} {a : ResolutionResult}
    (ha : s.resolve (Path.components src) true = some a)
    (hfile : a.targetInode.fileType = .file)
    (hsplit : Path.split dst = some (parent, name)) (hr : s.resolve parent true = some r) :
    createHardlink src dst now s = linkIn a.targetInode a.targetInodeIndex dst name
      r.targetInode r.targetInodeIndex now s := by
  refine (Prog.bind_of_ok (onDevice_of_value (readOnly_resolve _ _ _ _ _) ha) _).trans ?_
  rw [if_neg (not_not.mpr hfile), hsplit]
  exact Prog.bind_of_ok (onDevice_of_value (readOnly_resolve _ _ _ _ _) hr) _

theorem delete_eq (hr : s.resolve (Path.components path) false = some r) {n : INode}
    (hread : (s.format.inodeHandler.readInode r.parentInodeIndex s.device).value? = some n)
    (hroot : r.targetInodeIndex ≠ s.format.superblock.rootInode) :
    delete path now s = unlink r.targetInode r.targetInodeIndex n r.parentInodeIndex
      r.dirEntryBlockIndex r.dirEntryOffset (.directoryNotEmpty path) now s := by
  refine (Prog.bind_of_ok (onDevice_of_value (readOnly_resolve _ _ _ _ _) hr) _).trans ?_
  rw [if_neg hroot]
  exact Prog.bind_of_ok (onDevice_of_value (readOnly_readInode _ _) hread) _

theorem delete_root (hr : s.resolve (Path.components path) false = some r)
    (hroot : r.targetInodeIndex = s.format.superblock.rootInode) :
    delete path now s = .err (.deletingRoot path) s := by
  refine (Prog.bind_of_ok (onDevice_of_value (readOnly_resolve _ _ _ _ _) hr) _).trans ?_
  rw [if_pos hroot]
  rfl

/-- `delete_child` up to the search for the name. -/
theorem deleteChild_eq {p : Nat} {n : INode} (hname : name ≠ [dot] ∧ name ≠ [dot, dot])
    (halloc : (s.format.inodeAllocator.isAllocated p s.device).value? = some true)
    (hread : (s.format.inodeHandler.readInode p s.device).value? = some n)
    (hdir : n.fileType = .directory) :
    deleteChild name p none now s =
      (onDevice (s.format.directoryHandler.findEntry n s.format.inodeHandler name) >>=
        fun existing => match existing with
        | none => Prog.fail (.doesNotExist (natStr p))
        | some (dirEntry, entryBlock, entryOffset) => do
          let fileInode ← onDevice (s.format.inodeHandler.readInode dirEntry.inode)
          unlink fileInode dirEntry.inode n p entryBlock entryOffset
            (.directoryNotEmpty (natStr p)) now) s := by
  unfold deleteChild
  rw [if_neg (not_or.mpr hname)]
  refine (Prog.bind_of_ok (onDevice_of_value (readOnly_isAllocated _ _) halloc) _).trans ?_
  refine (Prog.bind_of_ok (onDevice_of_value (readOnly_readInode _ _) hread) _).trans ?_
  rewrite [if_neg (not_not.mpr hdir)]
  rfl

end Geom

/-- `path` is `name` in an allocated directory, which its parent resolves to. -/
structure FFS.Child (s : FFS) (path name : Str) (parent : List Component)
    (r : ResolutionResult) : Prop where
  split : Path.split path = some (parent, name)
  resolve : s.resolve parent true = some r
  live : s.view.ibit r.targetInodeIndex = true
  dir : r.targetInode.fileType = .directory

namespace Geom

section Child

variable {g : Geom} {s : FFS} {t : St} {path : Str} {parent : List Component} {name : Str}
  {r : ResolutionResult} {now : UInt64} {e : DirEntry} {b off : Nat}

theorem WellFormed.intact (hs : g.Rep s t) (h : g.WellFormed t) : g.Intact false t :=
  ⟨h.cursors, view_ino_inRange hs.1, h.owning, h.parse⟩

theorem child_live (hs : g.Rep s t) (hc : s.Child path name parent r) :
    t.ibit r.targetInodeIndex = true := hs.view_eq ▸ hc.live

theorem child_dir (hs : g.Rep s t) (hc : s.Child path name parent r) :
    (t.ino r.targetInodeIndex).fileType = .directory :=
  resolve_inode hs hc.resolve ▸ hc.dir

theorem child_allocated (hs : g.Rep s t) (hwf : g.WellFormed t)
    (hc : s.Child path name parent r) :
    (s.format.inodeAllocator.isAllocated r.targetInodeIndex s.device).value? = some true :=
  hs.isAllocated (child_live hs hc) (hwf.owning.ibit_lt _ (child_live hs hc))

theorem same_create (hs : g.Rep s t) (hwf : g.WellFormed t) (hc : s.Child path name parent r)
    {ft : FileType} (hft : ft ≠ .unknown) :
    (create path ft now s).Same (createChild ft name r.targetInodeIndex now s) := by
  rw [create_eq hc.split hc.resolve hft,
    createChild_eq (child_allocated hs hwf hc) (resolve_reads hc.resolve) hc.dir]
  exact same_createIn

theorem same_link (hs : g.Rep s t) (hc : s.Child path name parent r) {src dst : Str}
    {a : ResolutionResult} {parent' : List Component}
    (ha : s.resolve (Path.components src) true = some a)
    (hfile : a.targetInode.fileType = .file) (hdst : Path.split dst = some (parent', name)) :
    (createHardlink src path now s).Same (createChildHardlink
      (s.view.ino a.targetInodeIndex) a.targetInodeIndex dst (s.view.ino r.targetInodeIndex)
      r.targetInodeIndex now s) := by
  rw [createHardlink_eq ha hfile hc.split hc.resolve, hs.view_eq, ← resolve_inode hs ha,
    ← resolve_inode hs hc.resolve]
  unfold createChildHardlink
  rw [hdst]
  exact same_linkIn

/-- The look-up of the name in the parent, as `delete` does it. -/
theorem resolve_child (hs : g.Rep s t) (hc : s.Child path name parent r) : ∃ progress,
    s.format.directoryHandler.resolve (Path.components path) s.format.superblock.rootInode
        s.format.inodeHandler false s.device =
      s.format.directoryHandler.lookUp s.format.inodeHandler r.targetInode r.targetInodeIndex
        name progress s.device := by
  obtain ⟨d, hd⟩ := Outcome.value?_eq_some.mp hc.resolve
  obtain rfl := (readOnly_resolve _ _ _ _ _).of_ok hd
  have hroot : s.format.directoryHandler.rootInodeInd = s.format.superblock.rootInode := by
    rw [hs.2]
    rfl
  rw [Path.components_of_split hc.split]
  have hcomp : ¬ (Component.normal name = .curDir ∨ Component.normal name = .rootDir) := by
    simp
  exact resolve_snoc hcomp hroot hd hc.dir

theorem Rep.readInode {i : Nat} (hs : g.Rep s t) (hi : i < g.inodes) :
    (s.format.inodeHandler.readInode i s.device).value? = some (t.ino i) := by
  obtain ⟨d, hd, -⟩ := runs_readInode hi s.device hs.1
  rw [hs.2]
  show (g.inodeHandler.readInode i s.device).value? = _
  rw [hd]
  rfl

/-- A record that a look-up finds. -/
theorem Rep.rec_of_found {p : Nat} (hs : g.Rep s t) (h : g.Intact false t)
    (hp : t.ibit p = true) (hdir : (t.ino p).fileType = .directory)
    (hfound : s.findEntry p name = some (some (e, b, off))) :
    t.Rec p (b, off) e ∧ e.label = name := by
  rw [FFS.findEntry, hs.view_eq, hs.2] at hfound
  obtain ⟨d, hd⟩ := Outcome.value?_eq_some.mp hfound
  obtain ⟨v', -, -, hspec⟩ := (wpr_lookup (h.mapped hp) name hp hdir).of_ok hs.1 hd
  exact hspec e b off rfl

/-- `delete_child` once the name is found. -/
theorem deleteChild_found {p : Nat} (hs : g.Rep s t) (h : g.Intact false t)
    (hp : t.ibit p = true) (hdir : (t.ino p).fileType = .directory)
    (hname : name ≠ [dot] ∧ name ≠ [dot, dot])
    (hfound : s.findEntry p name = some (some (e, b, off))) (hlive : t.ibit e.inode = true) :
    deleteChild name p none now s = unlink (t.ino e.inode) e.inode (t.ino p) p b off
      (.directoryNotEmpty (natStr p)) now s := by
  rw [deleteChild_eq hname (hs.isAllocated hp (h.lt hp)) (hs.readInode (h.lt hp)) hdir]
  rw [FFS.findEntry, hs.view_eq] at hfound
  refine (Prog.bind_of_ok (onDevice_of_value (readOnly_findEntry _ _ _ _) hfound) _).trans ?_
  exact Prog.bind_of_ok
    (onDevice_of_value (readOnly_readInode _ _) (hs.readInode (h.lt hlive))) _

/-- What a path resolves to whose name is found. -/
theorem resolve_found (hs : g.Rep s t) (h : g.Intact false t) (hc : s.Child path name parent r)
    (hfound : s.findEntry r.targetInodeIndex name = some (some (e, b, off)))
    (hlive : t.ibit e.inode = true) :
    s.resolve (Path.components path) false =
      some ⟨t.ino e.inode, e.inode, r.targetInodeIndex, e, b, off⟩ := by
  rw [FFS.findEntry, hs.view_eq] at hfound
  obtain ⟨d, hd⟩ := Outcome.value?_eq_some.mp hfound
  obtain rfl := (readOnly_findEntry _ _ _ _).of_ok hd
  obtain ⟨progress, hres⟩ := resolve_child hs hc
  rw [FFS.resolve, hres, resolve_inode hs hc.resolve]
  unfold lookUp
  have hne : e.inode ≠ INVALID_ADDRESS := Nat.ne_of_lt (inode_small (h.lt hlive))
  obtain ⟨d', hd'⟩ := Outcome.value?_eq_some.mp (hs.readInode (h.lt hlive))
  rw [Prog.bind_of_ok hd]
  dsimp only
  rw [if_neg hne, Prog.bind_of_ok hd']
  rfl

/-- A name that is found. -/
theorem child_found (hs : g.Rep s t) (hwf : g.WellFormed t) (hc : s.Child path name parent r)
    (hfound : s.findEntry r.targetInodeIndex name = some (some (e, b, off))) :
    t.Rec r.targetInodeIndex (b, off) e ∧ e.label = name ∧ t.ibit e.inode = true ∧
      s.resolve (Path.components path) false =
        some ⟨t.ino e.inode, e.inode, r.targetInodeIndex, e, b, off⟩ ∧
      ∀ now, deleteChild name r.targetInodeIndex none now s =
        unlink (t.ino e.inode) e.inode (t.ino r.targetInodeIndex) r.targetInodeIndex b off
          (.directoryNotEmpty (natStr r.targetInodeIndex)) now s := by
  have h := hwf.intact hs
  obtain ⟨hrec, hlabel⟩ := hs.rec_of_found h (child_live hs hc) (child_dir hs hc) hfound
  obtain ⟨hlive, -⟩ := hwf.typed hrec
  obtain ⟨-, -, hn1, hn2⟩ := Path.proper_split hc.split
  refine ⟨hrec, hlabel, hlive, resolve_found hs h hc hfound hlive, fun now => ?_⟩
  exact deleteChild_found hs h (child_live hs hc) (child_dir hs hc) ⟨hn1, hn2⟩ hfound hlive

/-- Short of the root, `delete` and `delete_child` end alike. -/
theorem same_delete (hs : g.Rep s t) (hwf : g.WellFormed t) (hc : s.Child path name parent r)
    (hother : ∀ e b off, s.findEntry r.targetInodeIndex name = some (some (e, b, off)) →
      e.inode ≠ 0) :
    (delete path now s).Same (deleteChild name r.targetInodeIndex none now s) := by
  obtain ⟨-, -, hn1, hn2⟩ := Path.proper_split hc.split
  have hinode := resolve_inode hs hc.resolve
  have hchild := @deleteChild_eq s name now _ _ ⟨hn1, hn2⟩ (child_allocated hs hwf hc)
    (resolve_reads hc.resolve) hc.dir
  obtain ⟨progress, hres⟩ := resolve_child hs hc
  cases hfind : s.format.directoryHandler.findEntry r.targetInode s.format.inodeHandler name
      s.device with
  | ok found d =>
      match found with
      | none =>
          obtain rfl := (readOnly_findEntry _ _ _ _).of_ok hfind
          have hnone : s.format.directoryHandler.lookUp s.format.inodeHandler r.targetInode
              r.targetInodeIndex name progress s.device =
                .err (.doesNotExist progress) s.device := by
            unfold lookUp
            rw [Prog.bind_of_ok hfind]
            rfl
          have hdelete : delete path now s = .err (.doesNotExist progress) s :=
            Prog.bind_of_err
              (onDevice_of_err (readOnly_resolve _ _ _ _ _) (hres.trans hnone)) _
          have hstop := hchild.trans (Prog.bind_of_ok
            (onDevice_of_value (readOnly_findEntry _ _ _ _) (by rw [hfind]; rfl)) _)
          rw [hstop, hdelete]
          exact .err _ _ s
      | some (e, b, off) =>
          have hfound : s.findEntry r.targetInodeIndex name = some (some (e, b, off)) := by
            rw [FFS.findEntry, hs.view_eq, ← hinode, hfind]
            rfl
          obtain ⟨hrec, -, -, hr, hdel⟩ := child_found hs hwf hc hfound
          have hroot : s.format.superblock.rootInode = 0 := by
            rw [hs.2]
            rfl
          have hread := resolve_reads hc.resolve
          rw [hinode] at hread
          rw [delete_eq hr hread (by rw [hroot]; exact hother e b off hfound), hdel]
          exact same_unlink
  | err err d =>
      obtain rfl := (readOnly_findEntry _ _ _ _).of_err hfind
      have hdelete : delete path now s = .err err s :=
        Prog.bind_of_err (onDevice_of_err (readOnly_resolve _ _ _ _ _)
          (hres.trans (Prog.bind_of_err hfind _))) _
      have hstop := hchild.trans
        (Prog.bind_of_err (onDevice_of_err (readOnly_findEntry _ _ _ _) hfind) _)
      rw [hstop, hdelete]
      exact .err _ _ s
  | panic =>
      have hdelete : delete path now s = .panic :=
        Prog.bind_of_panic (onDevice_of_panic (hres.trans (Prog.bind_of_panic hfind _))) _
      have hstop := hchild.trans (Prog.bind_of_panic (onDevice_of_panic hfind) _)
      rw [hstop, hdelete]
      exact .panic

theorem Rep.emptyCheck (hs : g.Rep s t) (i : Nat) : s.emptyCheck i =
    (g.directoryHandler.iterate (t.ino i) g.inodeHandler emptyCallback true
      s.device).answer? := by
  rw [FFS.emptyCheck, hs.view_eq, hs.2]
  rfl

/-- `unlink` fails at the emptiness check or not at all. -/
theorem wp_unlink_refused (hs : g.Rep s t) (h : g.Intact false t) {p : Nat}
    (hrec : t.Rec p (b, off) e) (hlive : t.ibit e.inode = true)
    (hnamed : e.label ≠ [dot] ∧ e.label ≠ [dot, dot]) {notEmpty : FSError} :
    Prog.wp (unlink (t.ino e.inode) e.inode (t.ino p) p b off notEmpty now) (fun _ _ => True)
      (fun _ _ => (t.ino e.inode).fileType = .directory ∧
        ∃ x, s.emptyCheck e.inode = some x ∧ x ≠ .ok true) s := by
  have hfmt := hs.2
  refine wp_getFormat ?_
  rw [hfmt, hs.emptyCheck]
  refine Prog.wp_ite (fun hdir => ?_) fun hdir => ?_
  · refine Prog.wp_bind.mpr (Prog.wp_zoom.mpr ?_)
    have hspec := wpr_emptyCheck (h.mapped hlive) s.device hs.1
    refine Prog.wp_mono (Prog.wp_and hspec
      ((readOnly_iterateBlocks _ _ _ _ _ _).wp_self s.device)) ?_ ?_
    · intro empty d hempty
      obtain ⟨⟨v', -, -, hempty⟩, rfl, hrun⟩ := hempty
      refine Prog.wp_guard (fun hne => ⟨hdir, .ok empty, congrArg Outcome.answer? hrun, ?_⟩)
        fun hne => ?_
      · intro heq
        cases heq
        exact hne rfl
      · refine Prog.wp_mono (wpr_dropLink now h hrec rfl hlive hnamed
          (fun _ => hempty (by simpa using hne)) s hs) (fun _ _ _ => trivial) ?_
        intro _ _ hfalse
        obtain ⟨_, -, hfalse⟩ := hfalse
        exact hfalse.elim
    · intro err d herr
      obtain ⟨-, -, hrun⟩ := herr
      exact ⟨hdir, .error err, congrArg Outcome.answer? hrun, by simp⟩
  · refine Prog.wp_mono (wpr_dropLink now h hrec rfl hlive hnamed (fun hd => absurd hd hdir) s
      hs) (fun _ _ _ => trivial) ?_
    intro _ _ hfalse
    obtain ⟨_, -, hfalse⟩ := hfalse
    exact hfalse.elim

theorem unlink_of_refused (hs : g.Rep s t) {i p : Nat} {n : INode}
    (hdir : (t.ino i).fileType = .directory) {x : Except FSError Bool}
    (hx : s.emptyCheck i = some x) (hne : x ≠ .ok true) {notEmpty : FSError} :
    ∃ err, unlink (t.ino i) i n p b off notEmpty now s = .err err s := by
  rw [hs.emptyCheck] at hx
  have hro := readOnly_iterateBlocks g.directoryHandler (t.ino i) g.inodeHandler emptyCallback
    (List.range (t.ino i).blocks) true
  have hstart : getFormat s = .ok (g.format t) s := by rw [getFormat, hs.2]
  cases hrun : g.directoryHandler.iterate (t.ino i) g.inodeHandler emptyCallback true
      s.device with
  | ok empty d =>
      obtain rfl := hro.of_ok hrun
      rw [hrun] at hx
      cases hx
      have hfalse : empty = false := by
        cases empty with
        | false => rfl
        | true => exact absurd rfl hne
      subst hfalse
      refine ⟨notEmpty, (Prog.bind_of_ok hstart _).trans ?_⟩
      refine (congrFun (if_pos hdir) s).trans ?_
      exact Prog.bind_of_ok (onDevice_of_value hro (congrArg Outcome.value? hrun)) _
  | err err d =>
      refine ⟨err, (Prog.bind_of_ok hstart _).trans ?_⟩
      refine (congrFun (if_pos hdir) s).trans ?_
      exact Prog.bind_of_err (onDevice_of_err hro hrun) _
  | panic =>
      rw [hrun] at hx
      cases hx

/-- At the root they end alike when the emptiness check refuses it. -/
theorem same_delete_root_iff (hs : g.Rep s t) (hwf : g.WellFormed t)
    (hc : s.Child path name parent r)
    (hfound : s.findEntry r.targetInodeIndex name = some (some (e, b, off)))
    (hzero : e.inode = 0) :
    (delete path now s).Same (deleteChild name r.targetInodeIndex none now s) ↔
      (s.view.ino 0).fileType = .directory ∧ ∃ x, s.emptyCheck 0 = some x ∧ x ≠ .ok true := by
  obtain ⟨hrec, hlabel, hlive, hr, hdel⟩ := child_found hs hwf hc hfound
  have hroot : s.format.superblock.rootInode = 0 := by
    rw [hs.2]
    rfl
  obtain ⟨-, -, hn1, hn2⟩ := Path.proper_split hc.split
  have hnamed : e.label ≠ [dot] ∧ e.label ≠ [dot, dot] := hlabel ▸ ⟨hn1, hn2⟩
  rw [delete_root hr (by rw [hroot]; exact hzero), hdel, ← hzero]
  rw [hs.view_eq]
  constructor
  · intro hsame
    cases hrun : unlink (t.ino e.inode) e.inode (t.ino r.targetInodeIndex) r.targetInodeIndex b
        off (.directoryNotEmpty (natStr r.targetInodeIndex)) now s with
    | ok a s' =>
        rw [hrun] at hsame
        cases hsame
    | err err s' =>
        exact (wp_unlink_refused hs (hwf.intact hs) hrec hlive hnamed).of_err hrun
    | panic =>
        rw [hrun] at hsame
        cases hsame
  · intro hrefused
    obtain ⟨hdir, x, hx, hne⟩ := hrefused
    obtain ⟨err, hrun⟩ := unlink_of_refused hs hdir hx hne
    rw [hrun]
    exact .err _ _ s

end Child

end Geom

/-- The path operations and the inode operations end alike exactly when the name is not
the root or the root cannot be removed. -/
theorem siblings_agree_iff {g : Geom} {s : FFS} {t : St} (hs : g.Rep s t)
    (hwf : g.WellFormed t) {path name : Str} {parent : List Component} {r : ResolutionResult}
    (hc : s.Child path name parent r) :
    s.Agree path name r.targetInodeIndex ↔ s.SparesRoot r.targetInodeIndex name := by
  constructor
  · intro hagree e b off hfound hzero
    exact (Geom.same_delete_root_iff hs hwf hc hfound hzero).mp (hagree.delete 0)
  · intro hspares
    refine ⟨fun ft now hft => Geom.same_create hs hwf hc hft, fun now => ?_,
      fun src a dst parent' now ha hfile hdst => Geom.same_link hs hc ha hfile hdst⟩
    by_cases hroot : ∃ e b off, s.findEntry r.targetInodeIndex name = some (some (e, b, off)) ∧
        e.inode = 0
    · obtain ⟨e, b, off, hfound, hzero⟩ := hroot
      exact (Geom.same_delete_root_iff hs hwf hc hfound hzero).mpr
        (hspares e b off hfound hzero)
    · apply Geom.same_delete hs hwf hc
      intro e b off hfound hzero
      exact hroot ⟨e, b, off, hfound, hzero⟩

/-- A file with two names: one of them is removed, and it gets a third. -/
theorem siblings_agree_new : ∃ (g : Geom) (s₀ s : FFS) (t : St) (r : ResolutionResult),
    start 0 (MemoryDevice.empty 14) = some s₀ ∧ Run (fun s op => op.Tame s) s₀ s ∧
    g.Rep s t ∧ g.WellFormed t ∧
    (s.Child [47, 120] [120] [.rootDir] r ∧ (delete [47, 120] 0 s).value?.isSome ∧
      s.SparesRoot r.targetInodeIndex [120] ∧
      s.Agree [47, 120] [120] r.targetInodeIndex) ∧
    s.Child [47, 122] [122] [.rootDir] r ∧
    (createHardlink [47, 120] [47, 122] 0 s).value?.isSome ∧
    s.SparesRoot r.targetInodeIndex [122] ∧ s.Agree [47, 122] [122] r.targetInodeIndex := by
  have hcalls : ((start 0 (MemoryDevice.empty 14)).bind
      (checked (fun s op => op.Tame s) [.createFile [47, 120] 0,
        .createHardlink [47, 120] [47, 121] 0])).any (fun s =>
        decide s.TypedRecords && (delete [47, 120] 0 s).value?.isSome &&
        (createHardlink [47, 120] [47, 122] 0 s).value?.isSome &&
        (s.resolve [.rootDir] true).any fun r =>
          s.view.ibit r.targetInodeIndex && r.targetInode.fileType == .directory &&
          (s.findEntry r.targetInodeIndex [122]).any Option.isNone &&
          (s.findEntry r.targetInodeIndex [120]).any fun found =>
            found.any fun x => x.1.inode != 0) = true := by
    decide +kernel
  obtain ⟨s, hs, hfinal⟩ := (Option.any_eq_true _ _).mp hcalls
  obtain ⟨s₀, hstart, hchecked⟩ := Option.bind_eq_some_iff.mp hs
  simp only [Bool.and_eq_true, decide_eq_true_eq, beq_iff_eq, bne_iff_ne, Option.any_eq_true,
    Option.isNone_iff_eq_none] at hfinal
  obtain ⟨⟨⟨htyped, hdelete⟩, hlink⟩, r, hr, ⟨⟨hlive, hdir⟩, found, hnew, rfl⟩, _, hold, x,
    rfl, hx⟩ := hfinal
  have hrun := run_of_checked hchecked
  obtain ⟨g, t, -, hrep, h, -⟩ := Geom.tame_run hstart hrun
  have hwf := h.toIntact.wellFormed hrep htyped
  have hcx : s.Child [47, 120] [120] [.rootDir] r := ⟨by decide, hr, hlive, hdir⟩
  have hcz : s.Child [47, 122] [122] [.rootDir] r := ⟨by decide, hr, hlive, hdir⟩
  have hsx : s.SparesRoot r.targetInodeIndex [120] := by
    intro e b off hsome hzero
    rw [hold] at hsome
    cases hsome
    exact absurd hzero hx
  have hsz : s.SparesRoot r.targetInodeIndex [122] := by
    intro e b off hsome
    rw [hnew] at hsome
    cases hsome
  exact ⟨g, s₀, s, t, r, hstart, hrun, hrep, hwf,
    ⟨hcx, hdelete, hsx, (siblings_agree_iff hrep hwf hcx).mpr hsx⟩,
    hcz, hlink, hsz, (siblings_agree_iff hrep hwf hcz).mpr hsz⟩

/-! ## A root that can be removed -/

/-- The free counts are the numbers of clear bits. -/
def FFS.CountsMatch (s : FFS) : Prop :=
  s.format.superblock.freeInodes =
      (List.range s.format.inodeAllocator.maxIndex).countP (fun i => !s.view.ibit i) ∧
    s.format.superblock.freeData =
      (List.range s.format.blockAllocator.maxIndex).countP (fun b => !s.view.dbit b)

instance {s : FFS} : Decidable s.CountsMatch := inferInstanceAs (Decidable (_ ∧ _))

/-- The directory that holds `x`, a record for the root. -/
def aboveRoot : Block := (Block.newDir 1 0).insertAt (DirEntry.new 0 .directory [120]) 24

/-- The root is empty, and its `..` is inode 1, where the root is called `x`. -/
def FFS.turned (s : FFS) : FFS :=
  let root := s.device.setBlock s.format.superblock.dataStart (Block.newDir 0 1)
  { s with device := root.setBlock (s.format.superblock.dataStart + 1) aboveRoot }

/-- The record names an allocated inode of its type. -/
def View.SlotTyped (t : View) : Slot → Prop
  | .live e => t.ibit e.inode = true ∧ (t.ino e.inode).fileType = e.fileType
  | .free _ => True

instance {t : View} : (x : Slot) → Decidable (t.SlotTyped x)
  | .live _ => inferInstanceAs (Decidable (_ ∧ _))
  | .free _ => inferInstanceAs (Decidable True)

/-- What is computed about the turned filesystem. -/
structure FFS.TurnedFacts (s : FFS) : Prop where
  space : 1 < s.format.blockAllocator.maxIndex
  flat : ∀ i < s.format.inodeAllocator.maxIndex, s.view.ibit i = true →
    (s.view.ino i).pointers s.view.data = []
  blocks : ∀ i < s.format.inodeAllocator.maxIndex, s.view.ibit i = true →
    ∀ b ∈ s.view.content i, b < 2
  typed : ∀ i < s.format.inodeAllocator.maxIndex, s.view.ibit i = true →
    ∀ b ∈ s.view.content i, ∀ x ∈ (s.turned.view.data b).slots, s.view.SlotTyped x.2
  counts : s.turned.CountsMatch
  live : s.view.ibit 1 = true
  parent : (s.turned.resolve [.rootDir, .parentDir] true).any (fun r =>
    r.targetInodeIndex == 1 && r.targetInode.fileType == .directory) = true
  name : (s.turned.findEntry 1 [120]).join.any (fun x => x.1.inode == 0) = true
  empty : (s.turned.emptyCheck 0).any (fun x => x.toOption.getD false) = true

instance {s : FFS} : Decidable s.TurnedFacts :=
  decidable_of_iff (_ ∧ _ ∧ _ ∧ _ ∧ _ ∧ _ ∧ _ ∧ _ ∧ _)
    ⟨fun ⟨h1, h2, h3, h4, h5, h6, h7, h8, h9⟩ => ⟨h1, h2, h3, h4, h5, h6, h7, h8, h9⟩,
      fun ⟨h1, h2, h3, h4, h5, h6, h7, h8, h9⟩ => ⟨h1, h2, h3, h4, h5, h6, h7, h8, h9⟩⟩

namespace Geom

variable {g : Geom} {s : FFS} {t : St}

theorem tidy_aboveRoot : ∃ cs, TidyLayout false aboveRoot cs := by
  obtain ⟨⟨cs, hlay⟩, hslots⟩ :=
    @TidyLayout.newDir false 1 0 (by decide) (by decide)
  refine (hlay.insertAt (n := 232) ?_ (DirEntry.valid_new .directory [120] (by decide)) ?_ ?_).1
  · rw [hslots]
    simp
  · exact .inr (by decide)
  · exact .inr (by decide)

/-- The two blocks are overwritten. -/
def turnedData (data : Region) : Region :=
  Function.update (Function.update data 0 (Block.newDir 0 1)) 1 aboveRoot

theorem rep_turned (hs : g.Rep s t) (hspace : 1 < g.cap) :
    g.Rep s.turned { t with data := turnedData t.data } := by
  obtain ⟨hd, hf⟩ := hs
  have hdata : s.format.superblock.dataStart = g.dataStart := by
    rw [hf]
    rfl
  obtain ⟨d₁, hw₁, hd₁⟩ := @runs_writeData g _ _ (Block.newDir 0 1) (by omega : 0 < g.cap) _ hd
  obtain ⟨d₂, hw₂, hd₂⟩ := @runs_writeData g _ _ aboveRoot hspace _ hd₁
  rw [writeBlock_of_lt (hd.data_lt (by omega : 0 < g.cap))] at hw₁
  cases hw₁
  rw [writeBlock_of_lt (hd₁.data_lt hspace)] at hw₂
  cases hw₂
  refine ⟨?_, hf⟩
  show g.Holds ((s.device.setBlock s.format.superblock.dataStart _).setBlock _ _) _
  rw [hdata]
  exact hd₂

/-- Other contents of directories keep a filesystem without pointer blocks well formed if
they are well formed themselves. -/
theorem WellFormed.of_data (h : g.Intact false t) {data : Region}
    (hflat : ∀ i, t.ibit i = true → (t.ino i).pointers t.data = [])
    (hparse : ∀ d, t.ibit d = true → (t.ino d).fileType = .directory →
      ∀ b ∈ t.content d, ∃ cs, TidyLayout false (data b) cs)
    (htyped : ∀ d, t.ibit d = true → (t.ino d).fileType = .directory → ∀ b ∈ t.content d,
      ∀ x ∈ (data b).slots, t.SlotTyped x.2) :
    g.WellFormed { t with data := data } := by
  have hptr : ∀ i, t.ibit i = true → ∀ p ∈ (t.ino i).pointers t.data, data p = t.data p := by
    intro i hi p hp
    rw [hflat i hi] at hp
    exact absurd hp List.not_mem_nil
  have hcontent : ∀ i, t.ibit i = true → (t.ino i).content data = (t.ino i).content t.data :=
    fun i hi => INode.content_congr (hptr i hi)
  have howned : ∀ i, t.ibit i = true → (t.ino i).owned data = (t.ino i).owned t.data := by
    intro i hi
    rw [INode.owned, INode.owned, hcontent i hi, INode.pointers_congr (hptr i hi)]
  refine ⟨⟨h.cursors.lastInode, h.cursors.lastData⟩,
    ⟨h.owning.ibit_lt, fun i hi => ?_, ?_⟩, fun d hd hdir b hb => ?_, ?_⟩
  · refine ⟨(h.mapped hi).blocks_le, fun b hb => ?_⟩
    exact (h.mapped hi).lt b (howned i hi ▸ hb)
  · exact h.owning.owns.mono (fun i hi => ⟨hi, howned i hi⟩) fun _ _ _ _ hb => hb
  · have hb : b ∈ (t.ino d).content data := hb
    rw [hcontent d hd] at hb
    exact hparse d hd hdir b hb
  · intro d k e hr
    have hb : k.1 ∈ (t.ino d).content data := hr.block
    rw [hcontent d hr.live] at hb
    exact htyped d hr.live hr.dir k.1 hb _ hr.slot

theorem wellFormed_turned (hs : g.Rep s t) (h : g.Intact false t) (hf : s.TurnedFacts) :
    g.WellFormed { t with data := turnedData t.data } := by
  have hview := hs.view_eq
  have hlt : ∀ i, t.ibit i = true → i < s.format.inodeAllocator.maxIndex := by
    intro i hi
    rw [hs.2]
    exact h.lt hi
  have hspace : 1 < g.cap := by
    have := hf.space
    rwa [hs.2] at this
  have hblocks : ∀ i, t.ibit i = true → ∀ b ∈ t.content i, b < 2 := by
    intro i hi b hb
    have := hf.blocks i (hlt i hi)
    rw [hview] at this
    exact this hi b hb
  have hdata : s.turned.view.data = turnedData t.data := by
    rw [(rep_turned hs hspace).view_eq]
  apply WellFormed.of_data h
  · intro i hi
    have := hf.flat i (hlt i hi)
    rw [hview] at this
    exact this hi
  · intro d hd _ b hb
    have hb2 := hblocks d hd b hb
    by_cases hb1 : b = 1
    · rw [hb1, turnedData, Function.update_self]
      exact tidy_aboveRoot
    · have hb0 : b = 0 := by omega
      rw [hb0, turnedData, Function.update_of_ne Nat.zero_ne_one, Function.update_self]
      exact (@TidyLayout.newDir false 0 1 (by decide) (by decide)).1
  · intro d hd _ b hb x hx
    have := hf.typed d (hlt d hd)
    rw [hview, hdata] at this
    exact this hd b hb x hx

end Geom

/-- A root that is empty and has a name below another directory: `delete` refuses it,
`delete_child` removes it. -/
theorem siblings_disagree_root : ∃ (g : Geom) (s : FFS) (t : St) (r : ResolutionResult),
    g.Rep s t ∧ g.WellFormed t ∧ s.CountsMatch ∧
    s.Child [47, 46, 46, 47, 120] [120] [.rootDir, .parentDir] r ∧
    ¬ s.Agree [47, 46, 46, 47, 120] [120] r.targetInodeIndex := by
  have hfacts : (start 0 (MemoryDevice.empty 14)).any (fun s =>
      decide (Op.Snug s (.createDirectory [47, 100] 0)) &&
        (Op.exec (.createDirectory [47, 100] 0) s).state?.any fun s =>
          decide s.TurnedFacts) = true := by
    decide +kernel
  obtain ⟨s₀, hstart, hfacts⟩ := (Option.any_eq_true _ _).mp hfacts
  simp only [Bool.and_eq_true, decide_eq_true_eq] at hfacts
  obtain ⟨hsnug, hfacts⟩ := hfacts
  obtain ⟨s, hstep, hfacts⟩ := (Option.any_eq_true _ _).mp hfacts
  have hf : s.TurnedFacts := decide_eq_true_eq.mp hfacts
  obtain ⟨g, t₀, -, hs₀, hinit⟩ := Geom.start_initial hstart
  have hoff : Op.OnHandle (.createDirectory [47, 100] 0) → t₀.Handled := fun hon =>
    False.elim hon
  obtain ⟨t, hs, heffect⟩ := Geom.effect_of_step hs₀ hinit.inv hoff trivial (.inr hsnug) hstep
  have hinv : g.Inv false t := Geom.inv_of_effect hs₀ hinit.inv hoff (.inr hsnug) heffect
  have hwf := Geom.wellFormed_turned hs hinv.toIntact hf
  have hspace : 1 < g.cap := by
    have := hf.space
    rwa [hs.2] at this
  have hs' := Geom.rep_turned hs hspace
  obtain ⟨r, hr, hparent⟩ := (Option.any_eq_true _ _).mp hf.parent
  simp only [Bool.and_eq_true, beq_iff_eq] at hparent
  obtain ⟨hone, hdir⟩ := hparent
  have hlive : s.turned.view.ibit r.targetInodeIndex = true := by
    rw [hone, hs'.view_eq]
    have := hf.live
    rwa [hs.view_eq] at this
  have hc : s.turned.Child [47, 46, 46, 47, 120] [120] [.rootDir, .parentDir] r :=
    ⟨by decide, hr, hlive, hdir⟩
  refine ⟨g, s.turned, _, r, hs', hwf, hf.counts, hc, fun hagree => ?_⟩
  obtain ⟨⟨e, b, off⟩, hname, hzero⟩ := (Option.any_eq_true _ _).mp hf.name
  have hfound : s.turned.findEntry r.targetInodeIndex [120] = some (some (e, b, off)) := by
    rw [hone]
    exact Option.join_eq_some_iff.mp hname
  obtain ⟨-, x, hx, hne⟩ := (Geom.same_delete_root_iff hs' hwf hc hfound
    (beq_iff_eq.mp hzero)).mp (hagree.delete 0)
  obtain ⟨y, hy, hempty⟩ := (Option.any_eq_true _ _).mp hf.empty
  rw [hx] at hy
  cases hy
  cases x with
  | error err => cases hempty
  | ok empty => exact hne (congrArg Except.ok hempty)

end FerrisFS
