import FerrisFS.V1.Invariant

/-!
# Path resolution

`_resolve` only reads, looks components up in directories only, and ends at an
inode that is reachable from the root. Without following a final symlink it also
returns the record that names the target, unless the target is where it started.
-/

namespace FerrisFS

open Lib

namespace Path

/-- The components a string can have: normal ones are names, and the root and `.`
come first or not at all. -/
structure Proper (comps : List Component) : Prop where
  name : ∀ name, Component.normal name ∈ comps →
    name ≠ [] ∧ name ≠ [dot] ∧ name ≠ [dot, dot]
  tail : ∀ comp ∈ comps.tail, ¬ (comp = .curDir ∨ comp = .rootDir)

theorem part_spec {p : Str} {comp : Component} (h : part p = some comp) :
    comp = .parentDir ∨
      ∃ name, comp = .normal name ∧ name ≠ [] ∧ name ≠ [dot] ∧ name ≠ [dot, dot] := by
  unfold part at h
  split at h
  · cases h
  · rename_i hne
    split at h
    · cases h
      exact .inl rfl
    · rename_i hdd
      cases h
      exact .inr ⟨p, rfl, fun hp => hne (.inl hp), fun hp => hne (.inr hp), hdd⟩

theorem body_spec {parts : List Str} {comp : Component} (h : comp ∈ parts.filterMap part) :
    comp = .parentDir ∨
      ∃ name, comp = .normal name ∧ name ≠ [] ∧ name ≠ [dot] ∧ name ≠ [dot, dot] := by
  obtain ⟨p, -, hp⟩ := List.mem_filterMap.mp h
  exact part_spec hp

theorem proper_cons {c : Component} {body : List Component} (hc : ∀ name, c ≠ .normal name)
    (hbody : ∀ comp ∈ body, comp = .parentDir ∨
      ∃ name, comp = .normal name ∧ name ≠ [] ∧ name ≠ [dot] ∧ name ≠ [dot, dot]) :
    Proper (c :: body) where
  name name hmem := by
    rcases List.mem_cons.mp hmem with heq | hmem
    · exact absurd heq.symm (hc name)
    · rcases hbody _ hmem with heq | ⟨name', heq, hn⟩
      · cases heq
      · cases heq
        exact hn
  tail comp hmem := by
    rcases hbody comp hmem with rfl | ⟨name, rfl, -⟩ <;> simp

theorem proper_body {body : List Component}
    (hbody : ∀ comp ∈ body, comp = .parentDir ∨
      ∃ name, comp = .normal name ∧ name ≠ [] ∧ name ≠ [dot] ∧ name ≠ [dot, dot]) :
    Proper body where
  name name hmem := by
    rcases hbody _ hmem with heq | ⟨name', heq, hn⟩
    · cases heq
    · cases heq
      exact hn
  tail comp hmem := by
    rcases hbody comp (List.mem_of_mem_tail hmem) with rfl | ⟨name, rfl, -⟩ <;> simp

theorem proper_components (path : Str) : Proper (components path) := by
  unfold components
  dsimp only
  split
  · exact proper_cons (fun _ h => by cases h) fun _ => body_spec
  · split
    · exact proper_cons (fun _ h => by cases h) fun _ => body_spec
    · exact proper_body fun _ => body_spec

theorem Proper.dropLast {comps : List Component} (h : Proper comps) : Proper comps.dropLast where
  name name hmem := h.name name (List.dropLast_subset _ hmem)
  tail comp hmem := by
    rw [List.tail_dropLast] at hmem
    exact h.tail comp (List.dropLast_subset _ hmem)

/-- `parent` and `file_name` of a path: a proper path and a name. -/
theorem proper_split {path : Str} {parent : List Component} {name : Str}
    (h : split path = some (parent, name)) :
    Proper parent ∧ name ≠ [] ∧ name ≠ [dot] ∧ name ≠ [dot, dot] := by
  unfold split at h
  dsimp only at h
  split at h
  · rename_i n hlast
    cases h
    have hp := proper_components path
    exact ⟨hp.dropLast, hp.name _ (List.mem_of_getLast? hlast)⟩
  · cases h

end Path

namespace DirectoryHandler

variable {t : St} {d i : Nat} {k : Nat × Nat} {e : DirEntry} {r : ResolutionResult}

/-- `r` names a reachable inode. -/
structure Resolved (t : St) (r : ResolutionResult) : Prop where
  reach : t.Reach r.targetInodeIndex
  inode : r.targetInode = t.ino r.targetInodeIndex

/-- `r` carries the record that names its target. -/
structure Located (t : St) (r : ResolutionResult) : Prop where
  parent : t.Reach r.parentInodeIndex
  record : t.Rec r.parentInodeIndex (r.dirEntryBlockIndex, r.dirEntryOffset) r.dirEntry
  label : r.dirEntry.label ≠ [dot]
  target : r.dirEntry.inode = r.targetInodeIndex

end DirectoryHandler

namespace Geom

open DirectoryHandler

variable {g : Geom} {gaps : Bool} {t : St} {d i : Nat} {k : Nat × Nat} {e : DirEntry}

namespace Inv

/-- A record other than `.` leads from a reachable directory to a reachable inode. -/
theorem reach_of_rec (h : g.Inv gaps t) (hd : t.Reach d) (hr : t.Rec d k e)
    (hl : e.label ≠ [dot]) : t.Reach e.inode := by
  by_cases hup : e.label = [dot, dot]
  · exact (Lib.Namespace.Reach.up h.graph hd ⟨k, e, hr, hup, rfl⟩).1
  · exact .step hd ⟨e, hr, hl, hup, rfl⟩

end Inv

/-- A record that the walk over a directory has met. -/
theorem rec_of_mem {b off : Nat} (hlive : t.ibit d = true)
    (hdir : (t.ino d).fileType = .directory) (hb : b ∈ t.content d)
    (hmem : (off, e) ∈ (t.data b).records) (hfree : e.isFree = false) :
    t.Rec d (b, off) e where
  live := hlive
  dir := hdir
  block := hb
  slot := by
    refine List.mem_map.mpr ⟨(off, e), hmem, ?_⟩
    simp [DirEntry.slot, hfree]

/-- Looking a name up in a directory. -/
theorem wpr_lookup (hm : (t.ino d).Mapped g t.data) (name : List UInt8) (hlive : t.ibit d = true)
    (hdir : (t.ino d).fileType = .directory) :
    Prog.wpr g.Holds (g.directoryHandler.findEntry (t.ino d) g.inodeHandler name)
      (fun r v' => v' = t.toView ∧ ∀ e b off, r = some (e, b, off) →
        t.Rec d (b, off) e ∧ e.label = name)
      (fun _ v' => v' = t.toView) t.toView := by
  refine Prog.wpr_mono (wpr_findEntry hm) ?_ fun _ _ he => he
  rintro r v' ⟨rfl, ⟨b, hb, off, e, hmem, hn, rfl⟩ | ⟨-, rfl⟩⟩
  · refine ⟨rfl, ?_⟩
    rintro e' b' off' ⟨⟩
    exact ⟨rec_of_mem hlive hdir hb hmem hn.1, hn.2.2⟩
  · exact ⟨rfl, by rintro _ _ _ ⟨⟩⟩

/-- Where the walk over the components stands. -/
structure CursorAt (t : St) (c : Cursor) : Prop where
  reach : t.Reach c.inodeInd
  inode : c.inode = t.ino c.inodeInd

/-- What is asked of a resolution that starts in a reachable directory. -/
def ResolveSpec (g : Geom) (t : St) (m : DevM ResolutionResult) : Prop :=
  Prog.wpr g.Holds m (fun r v' => v' = t.toView ∧ Resolved t r) (fun _ v' => v' = t.toView)
    t.toView

theorem wpr_symlinkTarget (h : g.Inv gaps t) (hi : t.ibit i = true) (hb : (t.ino i).blocks ≠ 0)
    {src : Nat} :
    Prog.wpr g.Holds (g.directoryHandler.symlinkTarget (t.ino i) src)
      (fun r v' => v' = t.toView ∧ Path.Proper r.1 ∧ (r.2 = 0 ∨ r.2 = src))
      (fun _ v' => v' = t.toView) t.toView := by
  have hmem : (t.ino i).direct 0 ∈ (t.ino i).content t.data :=
    INode.mem_content.mpr ⟨0, Nat.pos_of_ne_zero hb, INode.blockAt_direct (by decide)⟩
  refine Prog.wpr_checkedAdd fun _ => ?_
  refine (runs_readData ((h.mapped hi).content _ hmem)).seq ?_
  refine Prog.wpr_assert fun _ => Prog.wpr_assert fun _ => Prog.wpr_unwrap fun first _ => ?_
  refine Prog.wpr_pure ⟨rfl, Path.proper_components _, ?_⟩
  dsimp only
  split
  · exact .inl rfl
  · exact .inr rfl

/-- One component, looked up in a directory. -/
theorem wpr_resolveComponent (h : g.Inv gaps t)
    {follow : List Component → Nat → DevM ResolutionResult}
    (hfollow : ∀ target src, Path.Proper target → t.Reach src →
      (t.ino src).fileType = .directory → g.ResolveSpec t (follow target src))
    {final last : Bool} {it : Nat} {comp : Component} {c : Cursor}
    (hcomp : Path.componentBytes comp ≠ [dot]) (hc : CursorAt t c)
    (hdir : c.inode.fileType = .directory) :
    Prog.wpr g.Holds
      (g.directoryHandler.resolveComponent g.inodeHandler follow final it comp last c)
      (fun c' v' => v' = t.toView ∧ CursorAt t c' ∧
        (last = false → c'.inode.fileType = .directory) ∧
        (last = true → final = false → Located t c'.result))
      (fun _ v' => v' = t.toView) t.toView := by
  have hlive := h.reach_live hc.reach
  have hdir' : (t.ino c.inodeInd).fileType = .directory := hc.inode ▸ hdir
  unfold resolveComponent
  rw [hc.inode]
  refine Prog.wpr_seq (wpr_lookup (h.mapped hlive) _ hlive hdir') ?_ fun _ _ he => he
  rintro found v' ⟨rfl, hfound⟩
  match found with
  | none => exact Prog.wpr_fail rfl
  | some (e, b, off) =>
    obtain ⟨hrec, hlabel⟩ := hfound e b off rfl
    have hne : e.label ≠ [dot] := hlabel ▸ hcomp
    have hreach := h.reach_of_rec hc.reach hrec hne
    have htarget := h.reach_live hreach
    refine Prog.wpr_guard (fun _ => rfl) fun _ => ?_
    refine (runs_readInode (h.lt htarget)).seq ?_
    refine Prog.wpr_ite (fun hsym => ?_) fun hsym => ?_
    · refine Prog.wpr_guard (fun _ => rfl) fun _ => ?_
      refine Prog.wpr_guard (fun _ => rfl) fun hne => ?_
      refine Prog.wpr_seq (wpr_symlinkTarget h htarget fun hb => hne (.inr hb)) ?_
        fun _ _ he => he
      rintro ⟨target, src⟩ v' ⟨rfl, hproper, hsrc⟩
      have hsrc' : t.Reach src ∧ (t.ino src).fileType = .directory := by
        rcases hsrc with hsrc | hsrc <;> dsimp only at hsrc <;> subst hsrc
        · exact ⟨.root, h.root_dir⟩
        · exact ⟨hc.reach, hdir'⟩
      refine Prog.wpr_seq (hfollow target src hproper hsrc'.1 hsrc'.2) ?_ fun _ _ he => he
      rintro res v' ⟨rfl, hres⟩
      refine Prog.wpr_guard (fun _ => rfl) fun hdirs => ?_
      refine Prog.wpr_pure ⟨rfl, ⟨hres.reach, hres.inode⟩, ?_, ?_⟩
      · intro hlast
        by_contra hnd
        exact hdirs ⟨hnd, by simp [hlast]⟩
      · intro hlast hfinal
        simp [hlast, hfinal] at hsym
    · refine Prog.wpr_ite (fun _ => Prog.wpr_fail rfl) fun hdirs => ?_
      refine Prog.wpr_pure ⟨rfl, ⟨hreach, rfl⟩, ?_, ?_⟩
      · intro hlast
        by_contra hnd
        exact hdirs ⟨hnd, by simp [hlast]⟩
      · intro _ _
        exact ⟨hc.reach, hrec, hne, rfl⟩

/-- The loop over components that are names or `..`. -/
theorem wpr_resolveLoop (h : g.Inv gaps t)
    {follow : List Component → Nat → DevM ResolutionResult}
    (hfollow : ∀ target src, Path.Proper target → t.Reach src →
      (t.ino src).fileType = .directory → g.ResolveSpec t (follow target src))
    {final : Bool} {it : Nat} :
    ∀ (comps : List Component) (c : Cursor),
      (∀ comp ∈ comps, ¬ (comp = .curDir ∨ comp = .rootDir)) →
      (∀ comp ∈ comps, Path.componentBytes comp ≠ [dot]) → CursorAt t c →
      (comps ≠ [] → c.inode.fileType = .directory) →
      Prog.wpr g.Holds (g.directoryHandler.resolveLoop g.inodeHandler follow final it comps c)
        (fun c' v' => v' = t.toView ∧ CursorAt t c' ∧
          (comps = [] → c' = c) ∧ (comps ≠ [] → final = false → Located t c'.result))
        (fun _ v' => v' = t.toView) t.toView
  | [], c, _, _, hc, _ => Prog.wpr_pure ⟨rfl, hc, fun _ => rfl, fun hne => absurd rfl hne⟩
  | comp :: rest, c, hskip, hbytes, hc, hdir => by
      unfold resolveLoop
      refine Prog.wpr_ite (fun hs => absurd hs (hskip comp List.mem_cons_self)) fun _ => ?_
      refine Prog.wpr_seq (wpr_resolveComponent h hfollow (hbytes comp List.mem_cons_self) hc
        (hdir (List.cons_ne_nil _ _))) ?_ fun _ _ he => he
      rintro c' v' ⟨rfl, hc', hmid, hend⟩
      refine Prog.wpr_mono (wpr_resolveLoop h hfollow rest c'
        (fun comp hmem => hskip comp (List.mem_cons_of_mem _ hmem))
        (fun comp hmem => hbytes comp (List.mem_cons_of_mem _ hmem)) hc' ?_) ?_ fun _ _ he => he
      · intro hne
        exact hmid (by simpa using hne)
      · rintro c'' v'' ⟨rfl, hc'', hnil, hcons⟩
        refine ⟨rfl, hc'', fun hne => absurd hne (List.cons_ne_nil _ _), fun _ hfinal => ?_⟩
        by_cases hrest : rest = []
        · rw [hnil hrest]
          exact hend (by simp [hrest]) hfinal
        · exact hcons hrest hfinal

theorem proper_bytes {comps : List Component} (hp : Path.Proper comps) {comp : Component}
    (hmem : comp ∈ comps) (hskip : ¬ (comp = .curDir ∨ comp = .rootDir)) :
    Path.componentBytes comp ≠ [dot] := by
  cases comp with
  | rootDir => exact absurd (.inr rfl) hskip
  | curDir => exact absurd (.inl rfl) hskip
  | parentDir => simp [Path.componentBytes]
  | normal name => exact (hp.name name hmem).2.1

/-- `_resolve`, by induction on the symlink expansions that are left. -/
theorem wpr_resolveFrom (h : g.Inv gaps t) : ∀ (fuel it : Nat) (final : Bool)
    (path : List Component) (src : Nat), Path.Proper path → t.Reach src →
    (t.ino src).fileType = .directory →
    Prog.wpr g.Holds (g.directoryHandler.resolveFrom g.inodeHandler fuel it final path src)
      (fun r v' => v' = t.toView ∧ Resolved t r ∧ (final = false →
        r.targetInodeIndex = 0 ∨ r.targetInodeIndex = src ∨ Located t r))
      (fun _ v' => v' = t.toView) t.toView
  | 0, _, _, _, _, _, _, _ => Prog.wpr_abort
  | fuel + 1, it, final, path, src, hpath, hsrc, hdir => by
      have hfollow : ∀ target src, Path.Proper target → t.Reach src →
          (t.ino src).fileType = .directory → g.ResolveSpec t
            (g.directoryHandler.resolveFrom g.inodeHandler fuel (it + 1) true target src) := by
        intro target src ht hs hd
        refine Prog.wpr_mono (wpr_resolveFrom h fuel (it + 1) true target src ht hs hd) ?_
          fun _ _ he => he
        rintro r v' ⟨rfl, hr, -⟩
        exact ⟨rfl, hr⟩
      have hloop : ∀ (comps : List Component), (∀ comp ∈ comps, comp ∈ path) →
          (∀ comp ∈ comps, ¬ (comp = .curDir ∨ comp = .rootDir)) →
          Prog.wpr g.Holds (g.directoryHandler.resolveLoop g.inodeHandler
              (fun target src => g.directoryHandler.resolveFrom g.inodeHandler fuel (it + 1)
                true target src) final it comps
              ⟨t.ino src, src, src, DirEntry.free 0, 0, 0, []⟩)
            (fun c' v' => v' = t.toView ∧ Resolved t c'.result ∧ (final = false →
              c'.result.targetInodeIndex = 0 ∨ c'.result.targetInodeIndex = src ∨
                Located t c'.result))
            (fun _ v' => v' = t.toView) t.toView := by
        intro comps hsub hskip
        refine Prog.wpr_mono (wpr_resolveLoop h hfollow comps _ hskip
          (fun comp hmem => proper_bytes hpath (hsub comp hmem) (hskip comp hmem))
          ⟨hsrc, rfl⟩ fun _ => hdir) ?_ fun _ _ he => he
        rintro c' v' ⟨rfl, hc', hnil, hcons⟩
        refine ⟨rfl, ⟨hc'.reach, hc'.inode⟩, fun hfinal => ?_⟩
        by_cases hne : comps = []
        · exact .inr (.inl (by rw [hnil hne]; rfl))
        · exact .inr (.inr (hcons hne hfinal))
      unfold resolveFrom
      refine (runs_readInode (h.lt (h.reach_live hsrc))).seq ?_
      refine Prog.wpr_ite (fun _ => Prog.wpr_pure ⟨rfl, ⟨hsrc, rfl⟩, fun _ => .inr (.inl rfl)⟩)
        fun hne => ?_
      refine Prog.wpr_ite (fun _ => ?_) fun _ => ?_
      · refine (runs_readInode (h.lt h.root_live)).seq ?_
        exact Prog.wpr_pure ⟨rfl, ⟨.root, rfl⟩, fun _ => .inl rfl⟩
      · refine Prog.wpr_seq ?_ (fun c' v' hc' => Prog.wpr_pure hc') fun _ _ he => he
        match path, hpath with
        | [], _ => exact absurd (.inl rfl) hne
        | comp :: rest, hpath =>
          by_cases hs : comp = .curDir ∨ comp = .rootDir
          · -- a leading root or `.` is skipped
            unfold resolveLoop
            rw [if_pos hs]
            exact hloop rest (fun comp hmem => List.mem_cons_of_mem _ hmem) hpath.tail
          · refine hloop (comp :: rest) (fun comp hmem => hmem) ?_
            intro comp' hmem
            rcases List.mem_cons.mp hmem with rfl | hmem
            · exact hs
            · exact hpath.tail comp' hmem

/-- Resolution from the root. -/
theorem wpr_resolve (h : g.Inv gaps t) {path : List Component} (hpath : Path.Proper path)
    (final : Bool) :
    Prog.wpr g.Holds (g.directoryHandler.resolve path 0 g.inodeHandler final)
      (fun r v' => v' = t.toView ∧ Resolved t r ∧
        (final = false → r.targetInodeIndex = 0 ∨ Located t r))
      (fun _ v' => v' = t.toView) t.toView := by
  refine Prog.wpr_mono (wpr_resolveFrom h 41 0 final path 0 hpath .root h.root_dir) ?_
    fun _ _ he => he
  rintro r v' ⟨rfl, hr, hl⟩
  refine ⟨rfl, hr, fun hf => ?_⟩
  rcases hl hf with h0 | h0 | hl
  · exact .inl h0
  · exact .inl h0
  · exact .inr hl

end Geom

end FerrisFS
