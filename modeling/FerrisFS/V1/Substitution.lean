import FerrisFS.V1.Symlinks

/-!
# A symlink stands for its target

Resolving a path through a symlink and resolving the path in which the target of the link
stands in its place lead to the same inode, as long as the links are not nested too deep.
-/

namespace FerrisFS

open Lib DirectoryHandler INodeTableHandler

/-- The two runs return the same inode, or both return an error, or both panic. -/
def SameTarget : (o o' : Outcome FSError MemoryDevice ResolutionResult) → Prop
  | .ok r _, .ok r' _ => r.targetInodeIndex = r'.targetInodeIndex
  | .err _ _, .err _ _ => True
  | .panic, .panic => True
  | _, _ => False

/-- `Path::join`: an absolute path replaces the other one; a `.` is kept only in front. -/
def Path.push (q : List Component) (t : Str) : List Component :=
  if t.head? = some slash ∨ q = [] then Path.components t
  else q ++ (Path.components t).filter (· ≠ .curDir)

namespace DirectoryHandler

variable {h : DirectoryHandler} {ih : INodeTableHandler} {d : MemoryDevice}

/-- The target of the symlink `s` in a directory, as it is stored. -/
def linkTarget (h : DirectoryHandler) (ih : INodeTableHandler) (d : MemoryDevice) (dir : INode)
    (s : Component) : Option Str :=
  match (h.findEntry dir ih (Path.componentBytes s) d).value? with
  | some (some (e, _, _)) =>
    match (ih.readInode e.inode d).value? with
    | some link =>
      if e.inode ≠ INVALID_ADDRESS ∧ link.fileType = .symlink ∧ link.blocks ≠ 0 ∧
          link.size ≤ BLOCK_SIZE ∧ h.dataStart + link.direct 0 < U32 then
        (readBlock (h.dataStart + link.direct 0) d).value?.map fun buf => buf.slice 0 link.size
      else none
    | none => none
  | _ => none

theorem answerOf_of_value {α : Type} {o : Outcome FSError MemoryDevice α} {a : α}
    (hv : o.value? = some a) : answerOf o = .ok a := by
  obtain ⟨d, rfl⟩ := Outcome.value?_eq_some.mp hv
  rfl

/-- `_resolve_symlink` reads the target that is stored. -/
theorem answerOf_symlinkTarget {link : INode} {dir : Nat} {buf : Block} {t : Str}
    (hlt : h.dataStart + link.direct 0 < U32)
    (hread : readBlock (h.dataStart + link.direct 0) d = .ok buf d)
    (hsize : link.size ≤ BLOCK_SIZE) (ht : buf.slice 0 link.size = t) (hne : t ≠ [])
    (hutf : Path.validUtf8 t [] = true) :
    answerOf (h.symlinkTarget link dir d) =
      .ok (Path.components t, if t.head? = some slash then h.rootInodeInd else dir) := by
  subst ht
  cases hhead : (buf.slice 0 link.size).head? with
  | none => exact absurd (List.head?_eq_none_iff.mp hhead) hne
  | some first =>
      have hrun : h.symlinkTarget link dir d = .ok (Path.components (buf.slice 0 link.size),
          if first = slash then h.rootInodeInd else dir) d := by
        unfold symlinkTarget
        rw [Prog.bind_of_ok (Prog.checkedAdd_of_lt hlt), Prog.bind_of_ok hread,
          if_neg (Nat.not_lt.mpr hsize)]
        dsimp only
        rw [if_neg (by simp [hutf]), hhead]
        rfl
      rw [hrun]
      simp [answerOf]

/-- What a symlink in a directory leads to. -/
theorem look_of_linkTarget {i : Nat} {dir : INode} {s : Component} {t : Str}
    (hs : ¬ (s = .curDir ∨ s = .rootDir)) (ht : h.linkTarget ih d dir s = some t) (hne : t ≠ [])
    (hutf : Path.validUtf8 t [] = true) :
    ∃ self, (h.links ih d).look (i, dir) s = .link self (.ok (Path.components t,
      if t.head? = some slash then h.rootInodeInd else i)) := by
  unfold linkTarget at ht
  split at ht
  · rename_i e b off hfind
    split at ht
    · rename_i link hlink
      split at ht
      · rename_i hcond
        obtain ⟨hvalid, hsym, hblocks, hsize, hlt⟩ := hcond
        obtain ⟨buf, hbuf, hslice⟩ := Option.map_eq_some_iff.mp ht
        obtain ⟨d', hread⟩ := Outcome.value?_eq_some.mp hbuf
        obtain rfl : d' = d := by
          unfold readBlock at hread
          split at hread
          · cases hread
          · cases hread
            rfl
        have hpos : ¬ (link.size = 0 ∨ link.blocks = 0) := by
          intro hz
          rcases hz with hz | hz
          · rw [hz] at hslice
            exact hne (by rw [← hslice]; simp [Block.slice, Lib.slice])
          · exact hblocks hz
        refine ⟨(e.inode, link), ?_⟩
        show h.look ih d' (i, dir) s = _
        unfold look entry
        rw [if_neg hs, answerOf_of_value hfind]
        dsimp only
        rw [if_neg hvalid]
        dsimp only
        rw [node_of_read (answerOf_of_value hlink)]
        dsimp only
        rw [if_pos hsym]
        unfold target
        rw [if_neg hpos, answerOf_symlinkTarget hlt hread hsize hslice hne hutf]
      · cases ht
    · cases ht
  · cases ht

/-- Resolutions along the links that end alike are those of calls that end alike. -/
theorem sameTarget_of_links {path path' : List Component} {src : Nat} {final : Bool} {j k : Nat}
    {res : Res Failure Node} (hres : (h.links ih d).resolve 40 final path src = res.add j)
    (hres' : (h.links ih d).resolve 40 final path' src = res.add k) :
    SameTarget (h.resolve path src ih final d) (h.resolve path' src ih final d) := by
  cases res with
  | found n m =>
      obtain ⟨r, hr, hf⟩ := resolve_of_found hres
      obtain ⟨r', hr', hf'⟩ := resolve_of_found hres'
      rw [hr, hr']
      exact congrArg Prod.fst (hf.symm.trans hf')
  | lost e =>
      cases e with
      | refused =>
          obtain ⟨e, hr⟩ := resolve_of_refused hres
          obtain ⟨e', hr'⟩ := resolve_of_refused hres'
          rw [hr, hr']
          trivial
      | panicked =>
          rw [resolve_of_panicked hres, resolve_of_panicked hres']
          trivial
  | deep =>
      obtain ⟨p, hr⟩ := resolve_of_deep hres
      obtain ⟨p', hr'⟩ := resolve_of_deep hres'
      rw [hr, hr']
      trivial

/-- A `.` leads nowhere, and stands in front only. -/
theorem walk_components {f : Option (List Component → Nat → Res Failure Node)} {final : Bool}
    (t : Str) (rest : List Component) (n : Node) (ht : t.head? ≠ some slash) :
    (h.links ih d).walk f final ((Path.components t).filter (· ≠ .curDir) ++ rest) n =
      (h.links ih d).walk f final (Path.components t ++ rest) n := by
  have hbody : ∀ l : List Str, (l.filterMap Path.part).filter (· ≠ Component.curDir) =
      l.filterMap Path.part := by
    intro l
    rw [List.filter_eq_self]
    intro c hc
    rcases Path.body_spec hc with rfl | ⟨name, rfl, -⟩ <;> simp
  unfold Path.components
  dsimp only
  rw [if_neg ht]
  split
  · rw [List.filter_cons_of_neg (by simp), hbody, List.cons_append,
      Links.walk_stay (look_skip (.inl rfl))]
  · rw [hbody]

/-- A relative target is not the root. -/
theorem components_ne_root {t : Str} (ht : t.head? ≠ some slash) :
    Path.components t ≠ [.rootDir] := by
  intro heq
  unfold Path.components at heq
  dsimp only at heq
  rw [if_neg ht] at heq
  split at heq
  · simp at heq
  · have hmem : Component.rootDir ∈ (t.splitOn slash).filterMap Path.part := by
      rw [heq]
      exact List.mem_singleton_self _
    rcases Path.body_spec hmem with hc | ⟨name, hc, -⟩ <;> cases hc

/-- A path through a symlink ends where it ends with the target of the link in its place. -/
theorem symlink_subst {q r : List Component} {s : Component} {t : Str} {root : INode}
    {dir : ResolutionResult}
    (hroot : ih.readInode h.rootInodeInd d = .ok root d) (hrootdir : root.fileType = .directory)
    (hq : h.resolve q h.rootInodeInd ih true d = .ok dir d)
    (hdir : dir.targetInode.fileType = .directory)
    (hname : ¬ (s = .curDir ∨ s = .rootDir))
    (hs : h.linkTarget ih d dir.targetInode s = some t) (hne : t ≠ [])
    (hutf : Path.validUtf8 t [] = true)
    (hfit : ∀ p, h.resolve (q ++ s :: r) h.rootInodeInd ih true d ≠
      .err (.maximumSymlinkDepthReached p 40) d) :
    SameTarget (h.resolve (q ++ s :: r) h.rootInodeInd ih true d)
      (h.resolve (Path.push q t ++ r) h.rootInodeInd ih true d) := by
  have hstart : ∀ path, (h.links ih d).start path h.rootInodeInd =
      .ok (h.rootInodeInd, root) := by
    intro path
    have hnode : ih.node d h.rootInodeInd = .ok (h.rootInodeInd, root) :=
      node_of_read (by rw [hroot]; rfl)
    simp only [links, hnode]
    split <;> rfl
  have hin : (h.links ih d).inner (h.rootInodeInd, root) = true := by simp [links, hrootdir]
  obtain ⟨n, k, hres, hn, -⟩ := found_of_resolve hq
  rw [Links.resolve_of_start (hstart q)] at hres
  obtain rfl : n = (dir.targetInodeIndex, dir.targetInode) := hn
  set n : Node := (dir.targetInodeIndex, dir.targetInode) with hndef
  have hnin : (h.links ih d).inner n = true := by simp [links, hndef, hdir]
  -- both paths begin with `q`
  have hafter : ∀ rest, (h.links ih d).resolve 40 true (q ++ rest) h.rootInodeInd =
      ((h.links ih d).walk ((h.links ih d).follow 40) true rest n).add k := by
    intro rest
    rw [Links.resolve_of_start (hstart _), Links.walk_append (fun _ => rfl) q _ hin, hres,
      Res.next_found, Links.pass_of _ (.inr hnin)]
  have hdeep : (h.links ih d).walk ((h.links ih d).follow 40) true (s :: r) n ≠ .deep := by
    intro hd
    obtain ⟨p, hp⟩ := resolve_of_deep (hafter (s :: r) ▸ Res.add_eq_deep.mpr hd)
    exact hfit p hp
  obtain ⟨self, hlook⟩ := look_of_linkTarget (i := dir.targetInodeIndex) hname hs hne hutf
  by_cases habs : t.head? = some slash
  · -- the target starts at the root
    rw [if_pos habs] at hlook
    have hsubst := Links.walk_subst hlook (hstart _) hin hdeep
    have hleft := hafter (s :: r)
    rw [hsubst, Res.add_add] at hleft
    have hright : (h.links ih d).resolve 40 true (Path.push q t ++ r) h.rootInodeInd =
        ((h.links ih d).walk ((h.links ih d).follow 40) true (Path.components t ++ r)
          (h.rootInodeInd, root)).add 0 := by
      rw [Path.push, if_pos (.inl habs), Links.resolve_of_start (hstart _), Res.add_zero]
    exact sameTarget_of_links hleft hright
  · -- the target starts in the directory of the link
    rw [if_neg habs] at hlook
    have hread : ih.readInode dir.targetInodeIndex d = .ok dir.targetInode d :=
      ((reader_resolveFrom 41 0 true q _ d).of_ok hq).2
    have hbase : (h.links ih d).start (Path.components t) dir.targetInodeIndex = .ok n := by
      have hnode : ih.node d dir.targetInodeIndex = .ok n :=
        node_of_read (by rw [hread]; rfl)
      simp only [links, hnode, if_neg (components_ne_root habs)]
    have hsubst := Links.walk_subst hlook hbase hnin hdeep
    have hleft := hafter (s :: r)
    rw [hsubst, Res.add_add] at hleft
    have hright : (h.links ih d).resolve 40 true (Path.push q t ++ r) h.rootInodeInd =
        ((h.links ih d).walk ((h.links ih d).follow 40) true (Path.components t ++ r) n).add
          k := by
      by_cases hnil : q = []
      · subst hnil
        obtain ⟨hroot', rfl⟩ := Res.found.inj hres
        rw [Path.push, if_pos (.inr rfl), Links.resolve_of_start (hstart _), hroot',
          Res.add_zero]
      · rw [Path.push, if_neg (by simp [habs, hnil]), List.append_assoc, hafter,
          walk_components t r n habs]
    exact sameTarget_of_links hleft hright

end DirectoryHandler

/-- `/d/s` is a symlink to `../f`, and `/d/s` leads where `/d/../f` leads. -/
theorem symlink_subst_parent : ∃ s₀ s, start 0 (MemoryDevice.empty 14) = some s₀ ∧
    Run (fun _ _ => True) s₀ s ∧
    SameTarget
      (s.format.directoryHandler.resolve ([.rootDir, .normal [100]] ++ .normal [115] :: [])
        s.format.directoryHandler.rootInodeInd s.format.inodeHandler true s.device)
      (s.format.directoryHandler.resolve
        (Path.push [.rootDir, .normal [100]] [46, 46, 47, 102] ++ [])
        s.format.directoryHandler.rootInodeInd s.format.inodeHandler true s.device) := by
  have hcalls : ((start 0 (MemoryDevice.empty 14)).bind
      (checked (fun _ _ => True) [.createDirectory [47, 100] 0, .createFile [47, 102] 0,
        .createSymlink [47, 100, 47, 115] [46, 46, 47, 102] 0 0])).any (fun s =>
        (s.format.inodeHandler.readInode s.format.directoryHandler.rootInodeInd
          s.device).value?.any (fun root => root.fileType == .directory) &&
        (s.format.directoryHandler.resolve [.rootDir, .normal [100]]
          s.format.directoryHandler.rootInodeInd s.format.inodeHandler true s.device).value?.any
          (fun dir => dir.targetInode.fileType == .directory &&
            s.format.directoryHandler.linkTarget s.format.inodeHandler s.device dir.targetInode
              (.normal [115]) == some [46, 46, 47, 102]) &&
        (s.format.directoryHandler.resolve ([.rootDir, .normal [100]] ++ .normal [115] :: [])
          s.format.directoryHandler.rootInodeInd s.format.inodeHandler true
          s.device).value?.isSome) = true := by
    decide +kernel
  obtain ⟨s, hs, hfinal⟩ := (Option.any_eq_true _ _).mp hcalls
  obtain ⟨s₀, hstart, hchecked⟩ := Option.bind_eq_some_iff.mp hs
  simp only [Bool.and_eq_true, beq_iff_eq, Option.any_eq_true, Outcome.value?_eq_some,
    Option.isSome_iff_exists] at hfinal
  obtain ⟨⟨⟨root, ⟨d, hroot⟩, hrootdir⟩, dir, ⟨d', hdir⟩, hdirdir, hlink⟩, r, d'', hr⟩ := hfinal
  obtain rfl := (readOnly_readInode _ _).of_ok hroot
  obtain rfl := (readOnly_resolve _ _ _ _ _).of_ok hdir
  refine ⟨s₀, s, hstart, run_of_checked hchecked, ?_⟩
  refine symlink_subst hroot hrootdir hdir hdirdir (by simp) hlink (by simp) (by decide) ?_
  intro p hp
  rw [hr] at hp
  cases hp

end FerrisFS
