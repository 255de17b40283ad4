import FerrisFS.V1.Substitution

/-!
# How deep symlinks are nested

Every expansion of a symlink raises `it`, and none is begun at 40, so resolution comes to
an end on any device. On a tree whose directories can be walked and whose targets can be
read it ends in a result or an error.
-/

namespace FerrisFS

open Lib DirectoryHandler INodeTableHandler

/-! ## Depth -/

namespace DirectoryHandler

variable {h : DirectoryHandler} {ih : INodeTableHandler} {d : MemoryDevice} {final : Bool}
  {it : Nat}

/-- Every entry of the log is at most 40. -/
def Shallow (l : List Nat) : Prop := ∀ k ∈ l, k ≤ 40

/-- Runs that begin with a shallow log end with one. -/
def KeepsShallow {α : Type} (m : LogM α) : Prop :=
  ∀ t : MemoryDevice × List Nat, Shallow t.2 →
    Prog.wp m (fun _ t' => Shallow t'.2) (fun _ t' => Shallow t'.2) t

namespace KeepsShallow

variable {α β : Type} {m : LogM α}

theorem pure (a : α) : KeepsShallow (pure a) := fun _ ht => ht

theorem fail (e : FSError) : KeepsShallow (Prog.fail e : LogM α) := fun _ ht => ht

theorem abort : KeepsShallow (Prog.abort : LogM α) := fun _ _ => trivial

theorem bind {f : α → LogM β} (h : KeepsShallow m) (hf : ∀ a, KeepsShallow (f a)) :
    KeepsShallow (m >>= f) := by
  intro t ht
  exact Prog.wp_seq (h t ht) (fun a t' ht' => hf a t' ht') fun _ _ he => he

theorem quiet (m : DevM α) : KeepsShallow (Logged.quiet m) := by
  intro t ht
  exact Prog.wp_zoom.mpr (Prog.wp_of_forall (fun _ _ => ht) fun _ _ => ht)

theorem note {k : Nat} (hk : k ≤ 40) : KeepsShallow (Logged.note k) := by
  intro t ht
  show Shallow (t.2 ++ [k])
  intro j hj
  rcases List.mem_append.mp hj with hj | hj
  · exact ht j hj
  · rw [List.mem_singleton.mp hj]
    exact hk

theorem ite {c : Prop} [Decidable c] {m' : LogM α} (h : c → KeepsShallow m)
    (h' : ¬ c → KeepsShallow m') : KeepsShallow (if c then m else m') := by
  split
  · exact h ‹_›
  · exact h' ‹_›

theorem guard {c : Prop} [Decidable c] {e : FSError} {f : β → LogM α}
    (h : ¬ c → KeepsShallow m) : KeepsShallow (if c then Prog.fail e >>= f else m) :=
  ite (fun _ _ ht => ht) h

end KeepsShallow

theorem keepsShallow_component {follow : List Component → Nat → LogM ResolutionResult}
    (hfollow : ∀ t src, KeepsShallow (follow t src)) (comp : Component) (last : Bool)
    (c : Cursor) : KeepsShallow (h.loggedComponent ih follow final it comp last c) := by
  refine .bind (.quiet _) fun found => ?_
  match found with
  | none => exact .fail _
  | some (e, b, off) =>
    refine .guard fun _ => .bind (.quiet _) fun inode => ?_
    refine .ite (fun _ => ?_) fun _ => .ite (fun _ => .fail _) fun _ => .pure _
    -- the guard leaves `it + 1` at most 40
    refine .guard fun hit => .guard fun _ => .bind (.note (by omega)) fun _ => ?_
    refine .bind (.quiet _) fun target => .bind (hfollow _ _) fun res => ?_
    exact .guard fun _ => .pure _

theorem keepsShallow_loop {follow : List Component → Nat → LogM ResolutionResult}
    (hfollow : ∀ t src, KeepsShallow (follow t src)) :
    ∀ (comps : List Component) (c : Cursor),
      KeepsShallow (h.loggedLoop ih follow final it comps c) := by
  intro comps
  induction comps with
  | nil => exact fun c => .pure c
  | cons comp rest ih' =>
      intro c
      exact .ite (fun _ => ih' c) fun _ => .bind (keepsShallow_component hfollow _ _ c) ih'

theorem keepsShallow_from (fuel : Nat) : ∀ (it : Nat) (final : Bool) (path : List Component)
    (src : Nat), KeepsShallow (h.loggedFrom ih fuel it final path src) := by
  induction fuel with
  | zero => exact fun _ _ _ _ => .abort
  | succ fuel hfuel =>
      intro it final path src
      refine .bind (.quiet _) fun cur => .ite (fun _ => .pure _) fun _ => ?_
      refine .ite (fun _ => .bind (.quiet _) fun root => .pure _) fun _ => ?_
      exact .bind (keepsShallow_loop (fun t src => hfuel _ _ t src) path _) fun c => .pure _

/-! ## Fuel -/

theorem resolveComponent_congr {follow follow' : List Component → Nat → DevM ResolutionResult}
    (hfollow : it < 40 → follow = follow') (comp : Component) (last : Bool) (c : Cursor) :
    h.resolveComponent ih follow final it comp last c =
      h.resolveComponent ih follow' final it comp last c := by
  by_cases hit : it < 40
  · rw [hfollow hit]
  · have hge : it ≥ 40 := by omega
    unfold resolveComponent
    simp only [if_pos hge]
    rfl

theorem resolveLoop_congr {follow follow' : List Component → Nat → DevM ResolutionResult}
    (hfollow : it < 40 → follow = follow') : ∀ (comps : List Component) (c : Cursor),
      h.resolveLoop ih follow final it comps c = h.resolveLoop ih follow' final it comps c := by
  intro comps
  induction comps with
  | nil => exact fun _ => rfl
  | cons comp rest ih' =>
      intro c
      unfold resolveLoop
      split
      · exact ih' c
      · rw [resolveComponent_congr hfollow]
        congr 1
        funext c'
        exact ih' c'

theorem resolveFrom_congr {fuel fuel' : Nat}
    (hfuel : it < 40 → ∀ t src, h.resolveFrom ih fuel (it + 1) true t src =
      h.resolveFrom ih fuel' (it + 1) true t src) (path : List Component) (src : Nat) :
    h.resolveFrom ih (fuel + 1) it final path src =
      h.resolveFrom ih (fuel' + 1) it final path src := by
  unfold resolveFrom
  congr 1
  funext cur
  split
  · rfl
  · split
    · rfl
    · rw [resolveLoop_congr fun hit => funext fun t => funext fun src => hfuel hit t src]

/-- Fuel beyond the nesting that is left is not used. -/
theorem resolveFrom_fuel (depth : Nat) : ∀ (fuel fuel' it : Nat), it + depth = 40 →
    depth ≤ fuel → depth ≤ fuel' → ∀ (final : Bool) (path : List Component) (src : Nat),
      h.resolveFrom ih (fuel + 1) it final path src =
        h.resolveFrom ih (fuel' + 1) it final path src := by
  induction depth with
  | zero =>
      intro fuel fuel' it hit _ _ final path src
      exact resolveFrom_congr (fun hlt => by omega) path src
  | succ depth hdepth =>
      intro fuel fuel' it hit hf hf' final path src
      refine resolveFrom_congr (fun _ t src' => ?_) path src
      obtain ⟨k, rfl⟩ : ∃ k, fuel = k + 1 := ⟨fuel - 1, by omega⟩
      obtain ⟨k', rfl⟩ : ∃ k', fuel' = k' + 1 := ⟨fuel' - 1, by omega⟩
      exact hdepth k k' (it + 1) (by omega) (by omega) (by omega) true t src'

end DirectoryHandler

/-! ## Readable trees -/

/-- The inodes that records name, from the root on. -/
inductive View.Met (v : View) : Nat → Prop where
  | root : Met v 0
  | name {i b off e} : Met v i → (v.ino i).fileType = .directory → b ∈ v.content i →
      (off, e) ∈ (v.data b).records → e.isFree = false → Met v e.inode

namespace Geom

/-- The directories of the tree can be walked, and its symlinks have targets to read. -/
structure Readable (g : Geom) (v : View) : Prop where
  root : (v.ino 0).fileType = .directory
  dir : ∀ i, v.Met i → i < g.inodes → (v.ino i).fileType = .directory →
    (v.ino i).Mapped g v.data ∧ (v.ino i).Walks v.data
  target : ∀ i, v.Met i → i < g.inodes → (v.ino i).fileType = .symlink →
    (v.ino i).size ≠ 0 → (v.ino i).blocks ≠ 0 → (v.ino i).direct 0 < g.cap ∧
      (v.ino i).size ≤ BLOCK_SIZE ∧
      Path.validUtf8 ((v.data ((v.ino i).direct 0)).slice 0 (v.ino i).size) [] = true

variable {g : Geom} {v : View} {d : MemoryDevice}

/-- An inode of the tree, as the table holds it. -/
structure MetNode (g : Geom) (v : View) (n : Node) : Prop where
  met : v.Met n.1
  lt : n.1 < g.inodes
  eq : n.2 = v.ino n.1

theorem inodes_pos (g : Geom) : 0 < g.inodes := Nat.mul_pos g.inodeTable_pos (by decide)

theorem answerOf_of_runs {α : Type} {m : DevM α} {a : α} (h : Prog.Runs g.Holds m v a v)
    (hd : g.Holds d v) : answerOf (m d) = .ok a := by
  obtain ⟨d', hrun, -⟩ := h d hd
  rw [hrun]
  rfl

theorem node_of_lt (hd : g.Holds d v) {i : Nat} (hi : i < g.inodes) :
    g.inodeHandler.node d i = .ok (i, v.ino i) :=
  node_of_read (answerOf_of_runs (runs_readInode hi) hd)

/-- An index beyond the table is refused. -/
theorem node_of_ge {i : Nat} (hi : ¬ i < g.inodes) : g.inodeHandler.node d i = .error .refused := by
  refine node_of_error ?_
  have hrun : ∃ e, g.inodeHandler.readInode i d = .err e d := by
    unfold INodeTableHandler.readInode
    rw [Prog.bind_of_ok (mul32_inodes d), if_pos (Nat.le_of_not_lt hi)]
    exact ⟨_, rfl⟩
  obtain ⟨e, he⟩ := hrun
  rw [he]
  rfl

/-- A lookup in a directory of the tree finds a record of the tree or nothing. -/
theorem entry_met (hd : g.Holds d v) (h : g.Readable v) {n : Node} (hn : g.MetNode v n)
    (hdir : n.2.fileType = .directory) (comp : Component) :
    g.directoryHandler.entry g.inodeHandler d n.2 comp = .error .refused ∨
      ∃ e, g.directoryHandler.entry g.inodeHandler d n.2 comp = .ok e ∧ v.Met e.inode := by
  rw [hn.eq] at hdir ⊢
  obtain ⟨hm, hw⟩ := h.dir n.1 hn.met hn.lt hdir
  obtain ⟨found, hrun, hfound⟩ := @runs_findEntry g v _ (Path.componentBytes comp) hm hw
  unfold DirectoryHandler.entry
  rw [answerOf_of_runs hrun hd]
  rcases hfound with ⟨b, hb, off, e, hmem, hname, rfl⟩ | ⟨-, rfl⟩
  · dsimp only
    split
    · exact .inl rfl
    · exact .inr ⟨e, rfl, .name hn.met hdir hb hmem hname.1⟩
  · exact .inl rfl

/-- The target of a symlink of the tree can be read, or there is none. -/
theorem target_met (hd : g.Holds d v) (h : g.Readable v) {n : Node} (hn : g.MetNode v n)
    (hsym : n.2.fileType = .symlink) (dir : Nat) :
    g.directoryHandler.target d n.2 dir = .error .refused ∨
      ∃ t base, g.directoryHandler.target d n.2 dir = .ok (t, base) ∧ (base = 0 ∨ base = dir) := by
  rw [hn.eq] at hsym ⊢
  unfold DirectoryHandler.target
  split
  · exact .inl rfl
  · rename_i hsize
    rw [not_or] at hsize
    obtain ⟨hlt, hle, hutf⟩ := h.target n.1 hn.met hn.lt hsym hsize.1 hsize.2
    have hread : readBlock (g.directoryHandler.dataStart + (v.ino n.1).direct 0) d =
        .ok (v.data ((v.ino n.1).direct 0)) d := by
      obtain ⟨d', hrun, -⟩ := runs_readData (v := v) hlt d hd
      have hblock := readBlock_of_lt (hd.data_lt hlt)
      rw [hblock] at hrun
      obtain ⟨heq, -⟩ := Outcome.ok.inj hrun
      rw [← heq]
      exact hblock
    have hne : (v.data ((v.ino n.1).direct 0)).slice 0 (v.ino n.1).size ≠ [] := by
      intro hnil
      have hlen := congrArg List.length hnil
      have hfull := (v.data ((v.ino n.1).direct 0)).size
      simp only [Block.slice, Lib.slice, List.length_take, List.length_drop, List.length_nil]
        at hlen
      omega
    refine .inr ⟨_, _, answerOf_symlinkTarget (ptr_small hlt) hread hle rfl hne hutf, ?_⟩
    split
    · exact .inl rfl
    · exact .inr rfl

theorem look_met (hd : g.Holds d v) (h : g.Readable v) {n : Node} (hn : g.MetNode v n)
    (hdir : n.2.fileType = .directory) (comp : Component) :
    (g.directoryHandler.links g.inodeHandler d).look n comp = .stay ∨
    (g.directoryHandler.links g.inodeHandler d).look n comp = .absent .refused ∨
    (∃ m, (g.directoryHandler.links g.inodeHandler d).look n comp = .node m ∧
      g.MetNode v m) ∨
    ∃ m target, (g.directoryHandler.links g.inodeHandler d).look n comp = .link m target ∧
      (target = .error .refused ∨ ∃ t base, target = .ok (t, base) ∧ (base = 0 ∨ base = n.1)) := by
  show g.directoryHandler.look g.inodeHandler d n comp = _ ∨ _
  unfold links DirectoryHandler.look
  dsimp only
  by_cases hskip : comp = .curDir ∨ comp = .rootDir
  · exact .inl (if_pos hskip)
  · rw [if_neg hskip]
    rcases entry_met hd h hn hdir comp with hent | ⟨e, hent, hmet⟩
    · rw [hent]
      exact .inr (.inl rfl)
    · rw [hent]
      dsimp only
      by_cases hlt : e.inode < g.inodes
      · have hm : g.MetNode v (e.inode, v.ino e.inode) := ⟨hmet, hlt, rfl⟩
        rw [node_of_lt hd hlt]
        dsimp only
        by_cases hsym : (v.ino e.inode).fileType = .symlink
        · rw [if_pos hsym]
          exact .inr (.inr (.inr ⟨_, _, rfl, target_met hd h hm hsym n.1⟩))
        · rw [if_neg hsym]
          exact .inr (.inr (.inl ⟨_, rfl, hm⟩))
      · rw [node_of_ge hlt]
        exact .inr (.inl rfl)

/-- A path starts at the root or in the directory it is given. -/
theorem start_met (hd : g.Holds d v) (h : g.Readable v) {n : Node} (hn : g.MetNode v n)
    (hdir : n.2.fileType = .directory) (t : List Component) {base : Nat}
    (hbase : base = 0 ∨ base = n.1) :
    ∃ m, (g.directoryHandler.links g.inodeHandler d).start t base = .ok m ∧ g.MetNode v m ∧
      m.2.fileType = .directory := by
  have hroot : g.MetNode v (0, v.ino 0) := ⟨.root, g.inodes_pos, rfl⟩
  have hat : ∃ m, g.inodeHandler.node d base = .ok m ∧ g.MetNode v m ∧
      m.2.fileType = .directory := by
    rcases hbase with rfl | rfl
    · exact ⟨_, node_of_lt hd g.inodes_pos, hroot, h.root⟩
    · refine ⟨_, node_of_lt hd hn.lt, ⟨hn.met, hn.lt, rfl⟩, ?_⟩
      rw [← hn.eq]
      exact hdir
  obtain ⟨m, hm, hmet, hmdir⟩ := hat
  unfold links
  dsimp only
  rw [hm]
  dsimp only
  split
  · exact ⟨_, node_of_lt hd g.inodes_pos, hroot, h.root⟩
  · exact ⟨m, rfl, hmet, hmdir⟩

/-- Resolution in a readable tree stays in it, and never panics. -/
theorem closed_readable (hd : g.Holds d v) (h : g.Readable v) :
    (g.directoryHandler.links g.inodeHandler d).Closed (g.MetNode v) (· = .refused) := by
  have hdir : ∀ {n : Node}, (g.directoryHandler.links g.inodeHandler d).inner n = true →
      n.2.fileType = .directory := fun hin => of_decide_eq_true hin
  constructor
  · intro n c e hn hin hlook
    rcases look_met hd h hn (hdir hin) c with hl | hl | ⟨m, hl, -⟩ | ⟨m, t, hl, -⟩
    all_goals
      rw [hlook] at hl
      cases hl
    rfl
  · intro n c b hn hin hlook
    rcases look_met hd h hn (hdir hin) c with hl | hl | ⟨m, hl, hm⟩ | ⟨m, t, hl, -⟩
    all_goals
      rw [hlook] at hl
      cases hl
    exact hm
  · intro n c self e hn hin hlook
    rcases look_met hd h hn (hdir hin) c with hl | hl | ⟨m, hl, -⟩ | ⟨m, t, hl, ht⟩
    all_goals
      rw [hlook] at hl
      cases hl
    rcases ht with ht | ⟨t, base, ht, -⟩
    all_goals cases ht
    rfl
  · intro n c self t base e hn hin hlook hs
    rcases look_met hd h hn (hdir hin) c with hl | hl | ⟨m, hl, -⟩ | ⟨m, target, hl, ht⟩
    all_goals
      rw [hlook] at hl
      cases hl
    rcases ht with ht | ⟨t, base, ht, hbase⟩
    all_goals cases ht
    obtain ⟨m, hm, -⟩ := start_met hd h hn (hdir hin) t hbase
    rw [hs] at hm
    cases hm
  · intro n c self t base m hn hin hlook hs
    rcases look_met hd h hn (hdir hin) c with hl | hl | ⟨m, hl, -⟩ | ⟨m, target, hl, ht⟩
    all_goals
      rw [hlook] at hl
      cases hl
    rcases ht with ht | ⟨t, base, ht, hbase⟩
    all_goals cases ht
    obtain ⟨m, hm, hmet, hmdir⟩ := start_met hd h hn (hdir hin) t hbase
    rw [hs] at hm
    cases hm
    exact ⟨hmet, decide_eq_true hmdir⟩
  · rfl

end Geom

/-! ## Termination -/

/-- `resolve` in a readable tree: it ends in a result or an error, however much fuel there
is; no symlink is followed more than 40 levels deep, and a path that needs a deeper one is
refused. -/
theorem resolve_terminates {g : Geom} {v : View} {d : MemoryDevice} (hd : g.Holds d v)
    (h : g.Readable v) {src : Nat} (hsrc : v.Met src) (hlt : src < g.inodes)
    (hdir : (v.ino src).fileType = .directory) (path : List Component) (final : Bool) :
    (∃ answer, (g.directoryHandler.resolve path src g.inodeHandler final d).answer? =
      some answer) ∧
    (∀ fuel, 41 ≤ fuel → g.directoryHandler.resolveFrom g.inodeHandler fuel 0 final path src =
      g.directoryHandler.resolve path src g.inodeHandler final) ∧
    (∀ t, (g.directoryHandler.loggedResolve path src g.inodeHandler final (d, [])).state? =
      some t → ∀ level ∈ t.2, level ≤ 40) ∧
    (∀ n, (g.directoryHandler.links g.inodeHandler d).start path src = .ok n →
      (g.directoryHandler.links g.inodeHandler d).Nests 41 final path n →
      ∃ p, g.directoryHandler.resolve path src g.inodeHandler final d =
        .err (.maximumSymlinkDepthReached p 40) d) := by
  refine ⟨?_, ?_, ?_, ?_⟩
  · obtain ⟨n, hstart, hn, hndir⟩ :=
      Geom.start_met hd h (n := (src, v.ino src)) ⟨hsrc, hlt, rfl⟩ hdir path (.inr rfl)
    have hwalk := (Geom.closed_readable hd h).walk 40 final path n hn (decide_eq_true hndir)
    rw [← Links.resolve_of_start hstart] at hwalk
    cases hres : (g.directoryHandler.links g.inodeHandler d).resolve 40 final path src with
    | found b k =>
        obtain ⟨r, hr, -⟩ := resolve_of_found hres
        exact ⟨.ok r, by rw [hr]; rfl⟩
    | lost e =>
        rw [hres] at hwalk
        obtain rfl : e = .refused := hwalk
        obtain ⟨e, hr⟩ := resolve_of_refused hres
        exact ⟨.error e, by rw [hr]; rfl⟩
    | deep =>
        obtain ⟨p, hr⟩ := resolve_of_deep hres
        exact ⟨.error _, by rw [hr]; rfl⟩
  · intro fuel hfuel
    obtain ⟨k, rfl⟩ : ∃ k, fuel = k + 1 := ⟨fuel - 1, by omega⟩
    exact resolveFrom_fuel 40 k 40 0 rfl (by omega) (by omega) final path src
  · intro t ht
    exact (keepsShallow_from 41 0 final path src (d, []) (by simp [Shallow])).of_state ht
  · intro n hstart hn
    exact resolve_of_deep (Links.resolve_deep_iff.mpr ⟨n, hstart, hn⟩)

/-- A directory whose records name inodes below `k` only. -/
structure FFS.WalksBelow (s : FFS) (k i : Nat) : Prop where
  blocks_le : (s.view.ino i).blocks ≤ INode.MAX_BLOCKS
  owned : ∀ b ∈ s.view.owned i, b < s.format.blockAllocator.maxIndex
  complete : ∀ b ∈ s.view.content i, (s.view.data b).stopAt = BLOCK_SIZE
  records : ∀ b ∈ s.view.content i, ∀ x ∈ (s.view.data b).records, x.2.isFree = false →
    x.2.nameLen ≤ DirEntry.MAX_NAME ∧ x.2.inode < k

instance (s : FFS) (k i : Nat) : Decidable (s.WalksBelow k i) :=
  decidable_of_iff (_ ∧ _ ∧ _ ∧ _)
    ⟨fun ⟨h₁, h₂, h₃, h₄⟩ => ⟨h₁, h₂, h₃, h₄⟩, fun ⟨h₁, h₂, h₃, h₄⟩ => ⟨h₁, h₂, h₃, h₄⟩⟩

/-- A symlink whose target can be read. -/
def FFS.TargetReads (s : FFS) (i : Nat) : Prop :=
  (s.view.ino i).direct 0 < s.format.blockAllocator.maxIndex ∧
    (s.view.ino i).size ≤ BLOCK_SIZE ∧ Path.validUtf8
      ((s.view.data ((s.view.ino i).direct 0)).slice 0 (s.view.ino i).size) [] = true

instance (s : FFS) (i : Nat) : Decidable (s.TargetReads i) :=
  inferInstanceAs (Decidable (_ ∧ _ ∧ _))

/-- The inodes below `k` are a readable tree; this can be computed. -/
structure FFS.ReadableBelow (s : FFS) (k : Nat) : Prop where
  pos : 0 < k
  root : (s.view.ino 0).fileType = .directory
  dir : ∀ i < k, (s.view.ino i).fileType = .directory → s.WalksBelow k i
  target : ∀ i < k, (s.view.ino i).fileType = .symlink → s.TargetReads i

instance (s : FFS) (k : Nat) : Decidable (s.ReadableBelow k) :=
  decidable_of_iff (_ ∧ _ ∧ _ ∧ _)
    ⟨fun ⟨h₁, h₂, h₃, h₄⟩ => ⟨h₁, h₂, h₃, h₄⟩, fun ⟨h₁, h₂, h₃, h₄⟩ => ⟨h₁, h₂, h₃, h₄⟩⟩

theorem FFS.ReadableBelow.readable {g : Geom} {s : FFS} {t : St} {k : Nat} (hs : g.Rep s t)
    (h : s.ReadableBelow k) : g.Readable s.view := by
  have hcap : s.format.blockAllocator.maxIndex = g.cap := by
    rw [hs.2]
    rfl
  have hbelow : ∀ {i}, s.view.Met i → i < k := by
    intro i hi
    induction hi with
    | root => exact h.pos
    | name _ hdir hb hmem hfree ih => exact ((h.dir _ ih hdir).records _ hb _ hmem hfree).2
  exact
    { root := h.root
      dir := by
        intro i hi _ hdir
        have hw := h.dir i (hbelow hi) hdir
        exact ⟨⟨hw.blocks_le, fun b hb => hcap ▸ hw.owned b hb⟩, hw.complete,
          fun b hb x hx hfree => (hw.records b hb x hx hfree).1⟩
      target := fun i hi _ hsym _ _ => hcap ▸ h.target i (hbelow hi) hsym }

/-- `/s` is a symlink to itself, and resolving it ends. -/
theorem resolve_terminates_loop : ∃ (s₀ s : FFS) (g : Geom),
    start 0 (MemoryDevice.empty 14) = some s₀ ∧
    Step s₀ (.createSymlink [47, 115] [115] 0 0) s ∧ g.Holds s.device s.view ∧
    g.Readable s.view ∧
    ∃ answer, (g.directoryHandler.resolve [.rootDir, .normal [115]] 0 g.inodeHandler true
      s.device).answer? = some answer := by
  have hcalls : ((start 0 (MemoryDevice.empty 14)).bind fun s =>
      ((Op.createSymlink [47, 115] [115] 0 0).exec s).state?).any
        (fun s => decide (s.ReadableBelow 2)) = true := by
    decide +kernel
  obtain ⟨s, hs, hfinal⟩ := (Option.any_eq_true _ _).mp hcalls
  obtain ⟨s₀, hstart, hstep⟩ := Option.bind_eq_some_iff.mp hs
  obtain ⟨g, t₀, -, hs₀, hinit⟩ := Geom.start_initial hstart
  have hoff : Op.OnHandle (.createSymlink [47, 115] [115] 0 0) → t₀.Handled :=
    fun hon => False.elim hon
  obtain ⟨t, hst, -⟩ := Geom.effect_of_step hs₀ (@Geom.Initial.inv _ true _ _ hinit) hoff
    trivial (.inl rfl) hstep
  have hd : g.Holds s.device s.view := hst.view_eq ▸ hst.1
  have hread : g.Readable s.view := (of_decide_eq_true hfinal).readable hst
  exact ⟨s₀, s, g, hstart, hstep, hd, hread,
    (resolve_terminates hd hread .root g.inodes_pos hread.root [.rootDir, .normal [115]] true).1⟩

end FerrisFS
