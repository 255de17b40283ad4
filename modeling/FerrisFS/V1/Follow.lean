import FerrisFS.Lib.Ghost
import FerrisFS.Lib.Links
import FerrisFS.V1.Observe

/-!
# Following symlinks

`_resolve` beside a log of its calls of `_resolve_symlink`, and what it computes: the
resolution of a path through the links that the device holds, nested at most 40 deep.
Nothing is assumed of the device.
-/

namespace FerrisFS

open Lib DirectoryHandler INodeTableHandler

/-! ## The links on a device -/

/-- Why a run has no result. -/
inductive Failure where
  | refused
  | panicked
  deriving DecidableEq

/-- What a run returns. -/
def answerOf {α : Type} : Outcome FSError MemoryDevice α → Except Failure α
  | .ok a _ => .ok a
  | .err _ _ => .error .refused
  | .panic => .error .panicked

/-- An inode with its index. -/
abbrev Node : Type := Nat × INode

def INodeTableHandler.node (ih : INodeTableHandler) (d : MemoryDevice) (i : Nat) :
    Except Failure Node :=
  match answerOf (ih.readInode i d) with
  | .ok n => .ok (i, n)
  | .error e => .error e

namespace DirectoryHandler

variable {h : DirectoryHandler} {ih : INodeTableHandler} {d : MemoryDevice} {final : Bool}
  {it : Nat}

/-- The path a symlink stands for; an empty one stands for none. -/
def target (h : DirectoryHandler) (d : MemoryDevice) (link : INode) (dir : Nat) :
    Except Failure (List Component × Nat) :=
  if link.size = 0 ∨ link.blocks = 0 then .error .refused
  else answerOf (h.symlinkTarget link dir d)

/-- The record of that name, without the place where it is. -/
def entry (h : DirectoryHandler) (ih : INodeTableHandler) (d : MemoryDevice) (dir : INode)
    (comp : Component) : Except Failure DirEntry :=
  match answerOf (h.findEntry dir ih (Path.componentBytes comp) d) with
  | .ok (some (e, _, _)) => if e.inode = INVALID_ADDRESS then .error .refused else .ok e
  | .ok none => .error .refused
  | .error f => .error f

/-- What a component leads to in a directory. -/
def look (h : DirectoryHandler) (ih : INodeTableHandler) (d : MemoryDevice) (dir : Node)
    (comp : Component) : Look Component Nat Failure Node :=
  if comp = .curDir ∨ comp = .rootDir then .stay
  else match h.entry ih d dir.2 comp with
    | .error e => .absent e
    | .ok e =>
      match ih.node d e.inode with
      | .error e => .absent e
      | .ok n =>
        if n.2.fileType = .symlink then .link n (h.target d n.2 dir.1) else .node n

/-- The names and the symlinks on the device. -/
def links (h : DirectoryHandler) (ih : INodeTableHandler) (d : MemoryDevice) :
    Links Component Nat Failure Node where
  start path src :=
    match ih.node d src with
    | .error e => .error e
    | .ok n => if path = [.rootDir] then ih.node d h.rootInodeInd else .ok n
  look dir comp := h.look ih d dir comp
  inner n := n.2.fileType = .directory
  outside := .refused

theorem look_skip {dir : Node} {comp : Component} (hskip : comp = .curDir ∨ comp = .rootDir) :
    (h.links ih d).look dir comp = .stay := if_pos hskip

theorem look_ne_stay {dir : Node} {comp : Component}
    (hcomp : ¬ (comp = .curDir ∨ comp = .rootDir)) :
    (h.links ih d).look dir comp ≠ .stay := by
  intro hstay
  have hlook : h.look ih d dir comp = .stay := hstay
  unfold look at hlook
  rw [if_neg hcomp] at hlook
  split at hlook
  · cases hlook
  · split at hlook
    · cases hlook
    · split at hlook <;> cases hlook

/-! ## Resolution with its log -/

/-- Programs on the device that log the nesting depth of each symlink they follow. -/
abbrev LogM := Logged Nat FSError MemoryDevice

/-- `resolveComponent`, noting the call of `_resolve_symlink`. -/
def loggedComponent (h : DirectoryHandler) (inodeHandler : INodeTableHandler)
    (follow : List Component → Nat → LogM ResolutionResult) (resolveFinalSymlink : Bool)
    (it : Nat) (comp : Component) (isFinal : Bool) (c : Cursor) : LogM Cursor := do
  let progress := Path.join c.progress comp
  let found ← Logged.quiet (h.findEntry c.inode inodeHandler (Path.componentBytes comp))
  match found with
  | none => Prog.fail (.doesNotExist progress)
  | some (entry, entryBlock, entryOffset) => do
    if entry.inode = INVALID_ADDRESS then
      Prog.fail (.invalidDirEntry .invalidINode entryBlock entryOffset)
    let inode ← Logged.quiet (inodeHandler.readInode entry.inode)
    if inode.fileType = .symlink ∧ (¬ isFinal ∨ resolveFinalSymlink) then do
      if it ≥ 40 then Prog.fail (.maximumSymlinkDepthReached progress 40)
      if inode.size = 0 ∨ inode.blocks = 0 then Prog.fail (.emptySymlink progress)
      Logged.note (it + 1)
      let (target, src) ← Logged.quiet (h.symlinkTarget inode c.inodeInd)
      let res ← follow target src
      if res.targetInode.fileType ≠ .directory ∧ ¬ isFinal then
        Prog.fail (.notADirectory progress)
      pure ⟨res.targetInode, res.targetInodeIndex, res.parentInodeIndex, entry,
        res.dirEntryBlockIndex, res.dirEntryOffset, progress⟩
    else if inode.fileType ≠ .directory ∧ ¬ isFinal then Prog.fail (.notADirectory progress)
    else pure ⟨inode, entry.inode, c.inodeInd, entry, entryBlock, entryOffset, progress⟩

def loggedLoop (h : DirectoryHandler) (inodeHandler : INodeTableHandler)
    (follow : List Component → Nat → LogM ResolutionResult) (resolveFinalSymlink : Bool)
    (it : Nat) : List Component → Cursor → LogM Cursor
  | [], c => pure c
  | comp :: rest, c =>
    if comp = .curDir ∨ comp = .rootDir then
      loggedLoop h inodeHandler follow resolveFinalSymlink it rest c
    else do
      let c ← h.loggedComponent inodeHandler follow resolveFinalSymlink it comp rest.isEmpty c
      loggedLoop h inodeHandler follow resolveFinalSymlink it rest c

def loggedFrom (h : DirectoryHandler) (inodeHandler : INodeTableHandler) :
    (fuel it : Nat) → (resolveFinalSymlink : Bool) → List Component → Nat →
    LogM ResolutionResult
  | 0, _, _, _, _ => Prog.abort
  | fuel + 1, it, resolveFinalSymlink, path, src => do
    let cur ← Logged.quiet (inodeHandler.readInode src)
    if path = [] ∨ path = [.curDir] then
      pure ⟨cur, src, src, DirEntry.free 0, 0, 0⟩
    else if path = [.rootDir] then do
      let root ← Logged.quiet (inodeHandler.readInode h.rootInodeInd)
      pure ⟨root, h.rootInodeInd, h.rootInodeInd, DirEntry.free 0, 0, 0⟩
    else do
      let c ← h.loggedLoop inodeHandler
        (fun target src => loggedFrom h inodeHandler fuel (it + 1) true target src)
        resolveFinalSymlink it path ⟨cur, src, src, DirEntry.free 0, 0, 0, []⟩
      pure c.result

/-- `resolve` with the log of the symlinks it follows. -/
def loggedResolve (h : DirectoryHandler) (path : List Component) (src : Nat)
    (inodeHandler : INodeTableHandler) (resolveFinalSymlink : Bool) : LogM ResolutionResult :=
  h.loggedFrom inodeHandler 41 0 resolveFinalSymlink path src

/-! ## Without its log it is the code -/

open Logged in
theorem erases_component {follow : List Component → Nat → LogM ResolutionResult}
    {follow' : List Component → Nat → DevM ResolutionResult}
    (hfollow : ∀ t src, Erases (follow t src) (follow' t src)) (comp : Component) (last : Bool)
    (c : Cursor) :
    Erases (h.loggedComponent ih follow final it comp last c)
      (h.resolveComponent ih follow' final it comp last c) := by
  refine Erases.bind (Erases.quiet _) fun found => ?_
  match found with
  | none => exact Erases.fail _
  | some (e, b, off) =>
    refine Erases.guard ?_
    refine Erases.bind (Erases.quiet _) fun inode => ?_
    refine Erases.ite ?_ (Erases.ite (Erases.fail _) (Erases.pure _))
    refine Erases.guard (Erases.guard (Erases.note ?_))
    refine Erases.bind (Erases.quiet _) fun target => ?_
    refine Erases.bind (hfollow _ _) fun res => ?_
    exact Erases.guard (Erases.pure _)

open Logged in
theorem erases_loop {follow : List Component → Nat → LogM ResolutionResult}
    {follow' : List Component → Nat → DevM ResolutionResult}
    (hfollow : ∀ t src, Erases (follow t src) (follow' t src)) :
    ∀ (comps : List Component) (c : Cursor),
      Erases (h.loggedLoop ih follow final it comps c)
        (h.resolveLoop ih follow' final it comps c) := by
  intro comps
  induction comps with
  | nil => exact fun c => Erases.pure c
  | cons comp rest ih' =>
      intro c
      exact Erases.ite (ih' c) (Erases.bind (erases_component hfollow _ _ c) ih')

open Logged in
theorem erases_from (fuel : Nat) : ∀ (it : Nat) (final : Bool) (path : List Component)
    (src : Nat), Erases (h.loggedFrom ih fuel it final path src)
      (h.resolveFrom ih fuel it final path src) := by
  induction fuel with
  | zero => exact fun _ _ _ _ => Erases.abort
  | succ fuel hfuel =>
      intro it final path src
      refine Erases.bind (Erases.quiet _) fun cur => ?_
      refine Erases.ite (Erases.pure _) (Erases.ite ?_ ?_)
      · exact Erases.bind (Erases.quiet _) fun root => Erases.pure _
      · exact Erases.bind (erases_loop (fun t src => hfuel _ _ _ _) path _)
          fun c => Erases.pure _

/-! ## What it computes -/

/-- A run that began with the log `l` has ended as `r` does: in a result that `At` relates
to the node found, with the links followed added to the log. -/
inductive Ended {α : Type} (d : MemoryDevice) (At : α → Node → Prop) (l : List Nat) :
    Outcome FSError (MemoryDevice × List Nat) α → Res Failure Node → Prop where
  | found {a n} (l') : At a n → Ended d At l (.ok a (d, l ++ l')) (.found n l'.length)
  | refused (e l') : Ended d At l (.err e (d, l')) (.lost .refused)
  | panicked : Ended d At l .panic (.lost .panicked)
  | deep (p l') : Ended d At l (.err (.maximumSymlinkDepthReached p 40) (d, l')) .deep

def Ends {α : Type} (d : MemoryDevice) (At : α → Node → Prop) (m : LogM α)
    (r : Res Failure Node) : Prop :=
  ∀ l, Ended d At l (m (d, l)) r

namespace Ends

variable {α β : Type} {At : α → Node → Prop} {At' : β → Node → Prop} {m : LogM α}
  {r : Res Failure Node}

theorem pure {a : α} {n : Node} (ha : At a n) : Ends d At (pure a) (.found n 0) := by
  intro l
  have := Ended.found (d := d) (l := l) [] ha
  simpa using this

theorem fail (e : FSError) : Ends d At (Prog.fail e) (.lost .refused) :=
  fun l => .refused e l

theorem bind {f : α → LogM β} {g : Node → Res Failure Node} (h : Ends d At m r)
    (hf : ∀ a n, At a n → Ends d At' (f a) (g n)) : Ends d At' (m >>= f) (r.next g) := by
  intro l
  rw [Prog.bind_apply]
  cases hm : m (d, l) with
  | panic =>
      have := h l
      rw [hm] at this
      cases this
      exact .panicked
  | err e t =>
      have := h l
      rw [hm] at this
      cases this with
      | refused e l' => exact .refused e l'
      | deep p l' => exact .deep p l'
  | ok a t =>
      have := h l
      rw [hm] at this
      cases this with
      | found l' ha =>
          rename_i n
          have hrest := hf a n ha (l ++ l')
          rw [Res.next_found]
          generalize g n = r' at hrest
          dsimp only
          generalize f a (d, l ++ l') = o at hrest
          cases hrest with
          | found l'' hb =>
              have := Ended.found (d := d) (l := l) (l' ++ l'') hb
              simpa [Nat.add_comm] using this
          | refused e l'' => exact .refused e l''
          | panicked => exact .panicked
          | deep p l'' => exact .deep p l''

theorem note {w : Nat} {f : Unit → LogM α} (h : Ends d At (f ()) r) :
    Ends d At (Logged.note w >>= f) (r.add 1) := by
  intro l
  have hrest := h (l ++ [w])
  show Ended d At l (f () (d, l ++ [w])) _
  generalize f () (d, l ++ [w]) = o at hrest
  cases hrest with
  | found l' ha =>
      have := Ended.found (d := d) (l := l) (w :: l') ha
      simpa using this
  | refused e l' => exact .refused e l'
  | panicked => exact .panicked
  | deep p l' => exact .deep p l'

/-- A part that only reads the device. -/
theorem read {m : DevM β} {f : β → LogM α} (hm : Prog.ReadOnly m)
    (hok : ∀ a, answerOf (m d) = .ok a → m d = .ok a d → Ends d At (f a) r)
    (herr : ∀ e, answerOf (m d) = .error e → r = .lost e) :
    Ends d At (Logged.quiet m >>= f) r := by
  intro l
  rw [Prog.bind_apply]
  unfold Logged.quiet Prog.zoom
  dsimp only
  cases hd : m d with
  | ok a d' =>
      obtain rfl := hm.of_ok hd
      exact hok a (by rw [hd]; rfl) hd l
  | err e d' =>
      obtain rfl := hm.of_err hd
      obtain rfl := herr .refused (by rw [hd]; rfl)
      exact .refused e l
  | panic =>
      obtain rfl := herr .panicked (by rw [hd]; rfl)
      exact .panicked

theorem ite {c : Prop} [Decidable c] {m' : LogM α} (h : c → Ends d At m r)
    (h' : ¬ c → Ends d At m' r) : Ends d At (if c then m else m') r := by
  split
  · exact h ‹_›
  · exact h' ‹_›

theorem guard {c : Prop} [Decidable c] {e : FSError} {f : β → LogM α}
    (herr : c → r = .lost .refused) (h : ¬ c → Ends d At m r) :
    Ends d At (if c then Prog.fail e >>= f else m) r := by
  refine ite (fun hc => ?_) h
  rw [herr hc]
  exact fun l => .refused e l

end Ends

/-- The result is that node. -/
def Found (r : ResolutionResult) (n : Node) : Prop := n = (r.targetInodeIndex, r.targetInode)

theorem node_of_read {i : Nat} {n : INode} (hr : answerOf (ih.readInode i d) = .ok n) :
    ih.node d i = .ok (i, n) := by
  unfold INodeTableHandler.node
  rw [hr]

theorem node_of_error {i : Nat} {e : Failure} (hr : answerOf (ih.readInode i d) = .error e) :
    ih.node d i = .error e := by
  unfold INodeTableHandler.node
  rw [hr]

section Component

variable {follow : List Component → Nat → LogM ResolutionResult}
  {f : Option (List Component → Nat → Res Failure Node)}

/-- Only the last component may lead to something that is not a directory. -/
theorem ends_land {α : Type} {At : α → Node → Prop} {m m' : LogM α} {n : Node} {last : Bool}
    (hm : Ends d At m (.lost .refused)) (hm' : Ends d At m' (.found n 0)) :
    Ends d At (if n.2.fileType ≠ .directory ∧ ¬ last = true then m else m')
      ((h.links ih d).land last n) := by
  unfold Links.land
  by_cases hland : last = true ∨ (h.links ih d).inner n = true
  · rw [if_pos hland]
    have hdir : ¬ (n.2.fileType ≠ .directory ∧ ¬ last = true) := by
      simp only [links, decide_eq_true_eq] at hland
      tauto
    rw [if_neg hdir]
    exact hm'
  · rw [if_neg hland]
    have hdir : n.2.fileType ≠ .directory ∧ ¬ last = true := by
      simp only [links, decide_eq_true_eq] at hland
      tauto
    rw [if_pos hdir]
    exact hm

/-- The call of `_resolve_symlink`, and what is done with its result. -/
theorem ends_expand {g : List Component → Nat → Res Failure Node} {w dir : Nat}
    {inode : INode} {last : Bool} {e : FSError} {k : ResolutionResult → Cursor}
    (hfollow : ∀ t src, Ends d Found (follow t src) (g t src))
    (hk : ∀ r, (k r).result.targetInode = r.targetInode ∧
      (k r).result.targetInodeIndex = r.targetInodeIndex) :
    Ends d (fun c => Found c.result)
      (Logged.note w >>= fun _ => Logged.quiet (h.symlinkTarget inode dir) >>= fun t =>
        follow t.1 t.2 >>= fun r =>
          if r.targetInode.fileType ≠ .directory ∧ ¬ last = true then
            (Prog.fail e : LogM Unit) >>= fun _ => pure (k r)
          else pure (k r))
      (match answerOf (h.symlinkTarget inode dir d) with
      | .error e => .lost e
      | .ok (t, base) => ((g t base).next ((h.links ih d).land last)).add 1) := by
  cases hread : answerOf (h.symlinkTarget inode dir d) with
  | error e =>
      refine Ends.note (r := .lost e) (Ends.read (readOnly_symlinkTarget _ _ _) ?_ ?_)
      · intro t hok
        rw [hread] at hok
        cases hok
      · intro e' herr
        rw [hread] at herr
        cases herr
        rfl
  | ok target =>
      refine Ends.note (Ends.read (readOnly_symlinkTarget _ _ _) ?_ ?_)
      · intro t hok _
        rw [hread] at hok
        cases hok
        refine Ends.bind (hfollow _ _) fun r n hr => ?_
        cases hr
        refine ends_land (n := (r.targetInodeIndex, r.targetInode)) (fun l => .refused _ l)
          (Ends.pure ?_)
        rw [Found, (hk r).1, (hk r).2]
      · intro e' herr
        rw [hread] at herr
        cases herr

/-- One component: a step in the links on the device. -/
theorem ends_component (hit : it ≥ 40 ↔ f = none)
    (hfollow : ∀ g, f = some g → ∀ t src, Ends d Found (follow t src) (g t src))
    {comp : Component} (hcomp : ¬ (comp = .curDir ∨ comp = .rootDir)) (last : Bool)
    (c : Cursor) :
    Ends d (fun c => Found c.result) (h.loggedComponent ih follow final it comp last c)
      ((h.links ih d).step f final last (c.inodeInd, c.inode) comp) := by
  -- how the component is looked up on the device
  have hlook : (h.links ih d).look (c.inodeInd, c.inode) comp =
      match h.entry ih d c.inode comp with
      | .error e => .absent e
      | .ok e =>
        match ih.node d e.inode with
        | .error e => .absent e
        | .ok n =>
          if n.2.fileType = .symlink then .link n (h.target d n.2 c.inodeInd) else .node n :=
    if_neg hcomp
  unfold loggedComponent Links.step
  rw [hlook]
  refine Ends.read (readOnly_findEntry _ _ _ _) ?_ ?_
  · intro found hans _
    unfold entry
    rw [hans]
    match found with
    | none => exact Ends.fail _
    | some (e, b, off) =>
      dsimp only
      refine Ends.guard (fun hinv => by rw [if_pos hinv]) fun hinv => ?_
      rw [if_neg hinv]
      dsimp only
      refine Ends.read (readOnly_readInode _ _) ?_ ?_
      · intro inode hread _
        rw [node_of_read hread]
        dsimp only
        by_cases hsym : inode.fileType = .symlink
        · rw [if_pos hsym]
          dsimp only
          by_cases hself : last = true ∧ final = false
          · rw [if_pos hself, if_neg (by simp [hself.1, hself.2]), if_neg (by simp [hself.1])]
            exact Ends.pure rfl
          · rw [if_neg hself, if_pos ⟨hsym, by cases last <;> cases final <;> simp_all⟩]
            cases f with
            | none =>
                rw [if_pos (hit.mpr rfl)]
                exact fun l => .deep _ l
            | some f =>
                rw [if_neg fun hge => by cases hit.mp hge]
                unfold target
                by_cases hempty : inode.size = 0 ∨ inode.blocks = 0
                · rw [if_pos hempty, if_pos hempty]
                  exact fun l => .refused _ l
                · rw [if_neg hempty, if_neg hempty]
                  convert ends_expand (k := fun r => ⟨r.targetInode, r.targetInodeIndex,
                    r.parentInodeIndex, e, r.dirEntryBlockIndex, r.dirEntryOffset,
                    Path.join c.progress comp⟩) (hfollow f rfl) fun r => ⟨rfl, rfl⟩ using 1
                  cases answerOf (h.symlinkTarget inode c.inodeInd d) <;> rfl
        · rw [if_neg hsym, if_neg (fun hs => hsym hs.1)]
          exact ends_land (n := (e.inode, inode)) (Ends.fail _) (Ends.pure rfl)
      · intro e' hread
        rw [node_of_error hread]
  · intro e hans
    unfold entry
    rw [hans]

/-- The component loop: the walk. -/
theorem ends_loop (hit : it ≥ 40 ↔ f = none)
    (hfollow : ∀ g, f = some g → ∀ t src, Ends d Found (follow t src) (g t src)) :
    ∀ (comps : List Component) (c : Cursor),
      Ends d (fun c => Found c.result) (h.loggedLoop ih follow final it comps c)
        ((h.links ih d).walk f final comps (c.inodeInd, c.inode)) := by
  intro comps
  induction comps with
  | nil => exact fun c => Ends.pure rfl
  | cons comp rest ih' =>
      intro c
      unfold loggedLoop
      by_cases hskip : comp = .curDir ∨ comp = .rootDir
      · rw [if_pos hskip, Links.walk_stay (look_skip hskip)]
        exact ih' c
      · rw [if_neg hskip, Links.walk_cons]
        refine Ends.bind (ends_component hit hfollow hskip rest.isEmpty c) ?_
        intro c' n hn
        cases hn
        exact ih' c'

theorem ends_enter {fuel : Nat} {path : List Component} {src : Nat}
    (hit : it ≥ 40 ↔ f = none)
    (hfollow : ∀ g, f = some g → ∀ t src,
      Ends d Found (h.loggedFrom ih fuel (it + 1) true t src) (g t src)) :
    Ends d Found (h.loggedFrom ih (fuel + 1) it final path src)
      ((h.links ih d).enter f final path src) := by
  unfold loggedFrom Links.enter
  refine Ends.read (readOnly_readInode _ _) ?_ ?_
  · intro cur hread _
    by_cases hroot : path = [.rootDir]
    · subst hroot
      have hstart : (h.links ih d).start [.rootDir] src = ih.node d h.rootInodeInd := by
        simp only [links, node_of_read hread, if_true]
      rw [hstart, if_neg (by simp), if_pos rfl]
      refine Ends.read (readOnly_readInode _ _) ?_ ?_
      · intro root hread' _
        rw [node_of_read hread']
        exact Ends.pure rfl
      · intro e hread'
        rw [node_of_error hread']
    · have hstart : (h.links ih d).start path src = .ok (src, cur) := by
        simp only [links, node_of_read hread, if_neg hroot]
      rw [hstart]
      dsimp only
      by_cases hempty : path = [] ∨ path = [.curDir]
      · rw [if_pos hempty]
        have hwalk : (h.links ih d).walk f final path (src, cur) = .found (src, cur) 0 := by
          rcases hempty with rfl | rfl
          · rfl
          · exact Links.walk_stay (look_skip (.inl rfl))
        rw [hwalk]
        exact Ends.pure rfl
      · rw [if_neg hempty, if_neg hroot]
        have hloop := @ends_loop h ih d final _ _ _ hit hfollow path
          ⟨cur, src, src, DirEntry.free 0, 0, 0, []⟩
        rw [← Res.next_found_self ((h.links ih d).walk f final path (src, cur))]
        exact Ends.bind hloop fun c n hc => Ends.pure hc
  · intro e hread
    have hstart : (h.links ih d).start path src = .error e := by
      simp only [links, node_of_error hread]
    rw [hstart]

end Component

/-- `_resolve` resolves its path along the links on the device; with more fuel than the
nesting that `it` leaves it never runs out of it. -/
theorem ends_from (depth : Nat) : ∀ (fuel it : Nat), it + depth = 40 → depth < fuel →
    ∀ (final : Bool) (path : List Component) (src : Nat),
      Ends d Found (h.loggedFrom ih fuel it final path src)
        ((h.links ih d).resolve depth final path src) := by
  induction depth with
  | zero =>
      intro fuel it hit hfuel final path src
      cases fuel with
      | zero => omega
      | succ fuel =>
          exact ends_enter (f := none) (by simp; omega) (fun g hg => by cases hg)
  | succ depth hdepth =>
      intro fuel it hit hfuel final path src
      cases fuel with
      | zero => omega
      | succ fuel =>
          refine ends_enter (f := some ((h.links ih d).resolve depth true)) (by simp; omega) ?_
          intro g hg t src'
          cases hg
          exact hdepth fuel (it + 1) (by omega) (by omega) true t src'

theorem ends_resolve (path : List Component) (src : Nat) :
    Ends d Found (h.loggedResolve path src ih final)
      ((h.links ih d).resolve 40 final path src) :=
  ends_from 40 41 0 rfl (by omega) final path src

end DirectoryHandler

end FerrisFS
