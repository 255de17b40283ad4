import Mathlib.Data.List.Nodup
import Mathlib.Logic.Relation
import Mathlib.Tactic.Common

/-!
# Rooted graphs of named links

A directory names other nodes at its places and names its parent. `Sound` is what
keeps such a graph a rooted tree with extra links to leaves: links lead to live
nodes, no node has more links than it counts, and whoever names a directory is the
one it calls its parent.
-/

namespace Lib

variable {ι κ : Type}

/-- `edge d k i`: the directory `d` names `i` at its place `k`. `up d q`: `d` calls
`q` its parent. -/
structure Namespace (ι κ : Type) where
  live : ι → Prop
  dir : ι → Prop
  edge : ι → κ → ι → Prop
  up : ι → ι → Prop
  links : ι → Nat

namespace Namespace

variable {N N' : Namespace ι κ} {root : ι}

/-- Any list of distinct places that name `i` is at most `n` long. -/
def AtMost (N : Namespace ι κ) (i : ι) (n : Nat) : Prop :=
  ∀ l : List (ι × κ), l.Nodup → (∀ x ∈ l, N.edge x.1 x.2 i) → l.length ≤ n

structure Sound (N : Namespace ι κ) (root : ι) : Prop where
  root_live : N.live root
  root_dir : N.dir root
  target_live : ∀ {d k i}, N.edge d k i → N.live i
  target_ne_root : ∀ {d k i}, N.edge d k i → i ≠ root
  target_ne_self : ∀ {d k i}, N.edge d k i → i ≠ d
  count : ∀ i, N.live i → N.AtMost i (N.links i)
  dir_links : ∀ i, N.live i → N.dir i → N.links i = 1
  up_root : ∀ {q}, N.up root q → q = root
  up_edge : ∀ {d q q' k}, N.up d q → N.edge q' k d → q' = q

/-- The nodes named, step by step, from the root. -/
inductive Reach (N : Namespace ι κ) (root : ι) : ι → Prop where
  | root : Reach N root root
  | step {d k i} : Reach N root d → N.edge d k i → Reach N root i

theorem Reach.live (h : N.Sound root) {i : ι} (hr : N.Reach root i) : N.live i := by
  cases hr with
  | root => exact h.root_live
  | step _ he => exact h.target_live he

/-- The parent of a reachable directory is reachable, and names it unless both are
the root. -/
theorem Reach.up (h : N.Sound root) {d q : ι} (hr : N.Reach root d) (hu : N.up d q) :
    N.Reach root q ∧ (d = root ∧ q = root ∨ ∃ k, N.edge q k d) := by
  cases hr with
  | root =>
      have hq := h.up_root hu
      subst hq
      exact ⟨.root, .inl ⟨rfl, rfl⟩⟩
  | step hd he =>
      have hq := h.up_edge hu he
      subst hq
      exact ⟨hd, .inr ⟨_, he⟩⟩

/-- The directory `d` names the directory `i`. -/
def DirStep (N : Namespace ι κ) (d i : ι) : Prop := N.dir i ∧ ∃ k, N.edge d k i

/-- No directory is below itself. -/
def Acyclic (N : Namespace ι κ) : Prop := ∀ d, ¬ Relation.TransGen N.DirStep d d

/-- Directories that are named once each, below a root that is not named at all. -/
theorem acyclic_of_once (htop : ∀ d k, ¬ N.edge d k root)
    (hreach : ∀ i, N.dir i → (∃ d k, N.edge d k i) → N.Reach root i)
    (honce : ∀ {d d' i}, N.DirStep d i → N.DirStep d' i → d = d') : N.Acyclic := by
  have hnot : ∀ i, N.Reach root i → ¬ Relation.TransGen N.DirStep i i := by
    intro i hi
    induction hi with
    | root =>
        intro hcycle
        obtain ⟨d, -, hstep⟩ := Relation.TransGen.tail'_iff.mp hcycle
        obtain ⟨-, k, he⟩ := hstep
        exact htop d k he
    | step _ he ih =>
        -- the step that closes the cycle comes from the one parent
        intro hcycle
        obtain ⟨d', hpath, hstep⟩ := Relation.TransGen.tail'_iff.mp hcycle
        have heq := honce hstep ⟨hstep.1, _, he⟩
        subst heq
        exact ih (Relation.TransGen.head' hstep hpath)
  intro i hcycle
  obtain ⟨d, -, hstep⟩ := Relation.TransGen.tail'_iff.mp hcycle
  obtain ⟨hdir, k, he⟩ := hstep
  exact hnot i (hreach i hdir ⟨d, k, he⟩) hcycle

theorem Acyclic.mono (h : N.Acyclic) (hstep : ∀ {d i}, N'.DirStep d i → N.DirStep d i) :
    N'.Acyclic := by
  intro d hcycle
  exact h d (Relation.TransGen.mono (fun _ _ hs => hstep hs) d d hcycle)

/-- A node that names no directory closes no cycle. -/
theorem Acyclic.addNode (h : N.Acyclic) {n : ι} (hout : ∀ i, ¬ N'.DirStep n i)
    (hstep : ∀ {d i}, i ≠ n → N'.DirStep d i → N.DirStep d i) : N'.Acyclic := by
  have hpath : ∀ {d i}, Relation.TransGen N'.DirStep d i → i ≠ n →
      Relation.TransGen N.DirStep d i := by
    intro d i hp
    induction hp with
    | single hs => exact fun hi => .single (hstep hi hs)
    | tail _ hs ih =>
        intro hi
        refine .tail (ih ?_) (hstep hi hs)
        intro hmid
        exact hout _ (hmid ▸ hs)
  intro d hcycle
  obtain ⟨i, hs, -⟩ := Relation.TransGen.head'_iff.mp hcycle
  exact h d (hpath hcycle fun hd => hout i (hd ▸ hs))

/-- Moving a leaf leaves nothing behind: what was named before is reached still. -/
theorem Reach.moveLeaf {i q : ι} {k : κ} (hleaf : ¬ N.dir i)
    (hfrom : ∀ {d k j}, N.edge d k j → N.dir d)
    (hkeep : ∀ {d k j}, N.edge d k j → N'.edge d k j ∨ j = i) (hq : N.Reach root q)
    (hqdir : N.dir q) (hnew : N'.edge q k i) {j : ι} (hj : N.Reach root j) :
    N'.Reach root j := by
  have hdirs : ∀ d, N.Reach root d → N.dir d → N'.Reach root d := by
    intro d hd
    induction hd with
    | root => exact fun _ => .root
    | step _ he ih =>
        intro hdir
        rcases hkeep he with he' | heq
        · exact .step (ih (hfrom he)) he'
        · exact absurd (heq ▸ hdir) hleaf
  cases hj with
  | root => exact .root
  | step hd he =>
      rcases hkeep he with he' | heq
      · exact .step (hdirs _ hd (hfrom he)) he'
      · rw [heq]
        exact .step (hdirs q hq hqdir) hnew

theorem AtMost.mono {i : ι} {n : Nat} (h : N.AtMost i n)
    (hedge : ∀ d k, N'.edge d k i → N.edge d k i) : N'.AtMost i n :=
  fun l hnd hl => h l hnd fun x hx => hedge _ _ (hl x hx)

/-- One more place. -/
theorem AtMost.add [DecidableEq ι] [DecidableEq κ] {i : ι} {n : Nat} (h : N.AtMost i n)
    {p : ι} {k : κ} (hedge : ∀ d k', N'.edge d k' i → N.edge d k' i ∨ d = p ∧ k' = k) :
    N'.AtMost i (n + 1) := by
  intro l hnd hl
  have hlen : l.length ≤ (l.erase (p, k)).length + 1 := by
    rw [List.length_erase]
    split <;> omega
  refine Nat.le_trans hlen (Nat.succ_le_succ (h _ (hnd.erase _) ?_))
  intro x hx
  obtain ⟨hne, hxl⟩ := (hnd.mem_erase_iff).mp hx
  rcases hedge _ _ (hl x hxl) with he | ⟨h1, h2⟩
  · exact he
  · exact absurd (Prod.ext h1 h2) hne

/-- One place less. -/
theorem AtMost.remove {i : ι} {n : Nat} (h : N.AtMost i n) {p : ι} {k : κ}
    (he : N.edge p k i)
    (hedge : ∀ d k', N'.edge d k' i → N.edge d k' i ∧ ¬ (d = p ∧ k' = k)) :
    N'.AtMost i (n - 1) := by
  intro l hnd hl
  have hcons := h ((p, k) :: l) ?_ ?_
  · rw [List.length_cons] at hcons
    omega
  · refine List.nodup_cons.mpr ⟨fun hmem => ?_, hnd⟩
    exact (hedge _ _ (hl _ hmem)).2 ⟨rfl, rfl⟩
  · intro x hx
    rcases List.mem_cons.mp hx with rfl | hx
    · exact he
    · exact (hedge _ _ (hl x hx)).1

/-- Exactly `n` places name `i`. -/
def Exactly (N : Namespace ι κ) (i : ι) (n : Nat) : Prop :=
  ∃ l : List (ι × κ), l.Nodup ∧ (∀ d k, (d, k) ∈ l ↔ N.edge d k i) ∧ l.length = n

namespace Exactly

variable {i : ι} {n : Nat}

theorem atMost (h : N.Exactly i n) : N.AtMost i n := by
  obtain ⟨l, -, hmem, rfl⟩ := h
  intro l' hnd hl'
  exact hnd.length_le_of_subset fun x hx => (hmem x.1 x.2).mpr (hl' x hx)

theorem congr (h : N.Exactly i n) (hedge : ∀ d k, N'.edge d k i ↔ N.edge d k i) :
    N'.Exactly i n := by
  obtain ⟨l, hnd, hmem, hlen⟩ := h
  exact ⟨l, hnd, fun d k => (hmem d k).trans (hedge d k).symm, hlen⟩

/-- One more place. -/
theorem add (h : N.Exactly i n) {p : ι} {k : κ} (hnew : ¬ N.edge p k i)
    (hedge : ∀ d k', N'.edge d k' i ↔ N.edge d k' i ∨ d = p ∧ k' = k) :
    N'.Exactly i (n + 1) := by
  obtain ⟨l, hnd, hmem, rfl⟩ := h
  refine ⟨(p, k) :: l, ?_, ?_, rfl⟩
  · exact List.nodup_cons.mpr ⟨fun hx => hnew ((hmem p k).mp hx), hnd⟩
  · intro d k'
    rw [List.mem_cons, hmem, hedge, Prod.mk.injEq, or_comm]

/-- One place less. -/
theorem remove [DecidableEq ι] [DecidableEq κ] (h : N.Exactly i n) {p : ι} {k : κ}
    (he : N.edge p k i)
    (hedge : ∀ d k', N'.edge d k' i ↔ N.edge d k' i ∧ ¬ (d = p ∧ k' = k)) :
    N'.Exactly i (n - 1) := by
  obtain ⟨l, hnd, hmem, rfl⟩ := h
  have hin : (p, k) ∈ l := (hmem p k).mpr he
  refine ⟨l.erase (p, k), hnd.erase _, ?_, List.length_erase_of_mem hin⟩
  intro d k'
  rw [hnd.mem_erase_iff, hmem, hedge, ne_eq, Prod.mk.injEq, and_comm]

theorem exists_edge (h : N.Exactly i n) (hpos : 0 < n) : ∃ d k, N.edge d k i := by
  obtain ⟨l, -, hmem, rfl⟩ := h
  match l with
  | [] => exact absurd hpos (Nat.lt_irrefl 0)
  | (d, k) :: l => exact ⟨d, k, (hmem d k).mp List.mem_cons_self⟩

end Exactly

/-- Nodes keep their place and links may vanish. -/
theorem Sound.mono (h : N.Sound root) (hlive : ∀ i, N'.live i ↔ N.live i)
    (hdir : ∀ i, N.live i → (N'.dir i ↔ N.dir i))
    (hedge : ∀ {d k i}, N'.edge d k i → N.edge d k i) (hup : ∀ {d q}, N'.up d q → N.up d q)
    (hlinks : ∀ i, N.live i → N'.links i = N.links i) : N'.Sound root where
  root_live := (hlive root).mpr h.root_live
  root_dir := (hdir root h.root_live).mpr h.root_dir
  target_live he := (hlive _).mpr (h.target_live (hedge he))
  target_ne_root he := h.target_ne_root (hedge he)
  target_ne_self he := h.target_ne_self (hedge he)
  count i hi := by
    have hl := (hlive i).mp hi
    rw [hlinks i hl]
    exact (h.count i hl).mono fun _ _ => hedge
  dir_links i hi hd := by
    have hl := (hlive i).mp hi
    rw [hlinks i hl]
    exact h.dir_links i hl ((hdir i hl).mp hd)
  up_root hu := h.up_root (hup hu)
  up_edge hu he := h.up_edge (hup hu) (hedge he)

/-- A new node `n`, named at most by `p` at the place `k`, and calling at most `p`
its parent. -/
theorem Sound.addNode (h : N.Sound root) {n p : ι} {k : κ} (hn : ¬ N.live n) (hp : N.live p)
    (hlive : ∀ i, N'.live i ↔ N.live i ∨ i = n)
    (hdir : ∀ i, N.live i → (N'.dir i ↔ N.dir i))
    (hedge : ∀ {d k' i}, N'.edge d k' i → N.edge d k' i ∨ d = p ∧ k' = k ∧ i = n)
    (hup : ∀ {d q}, N'.up d q → N.up d q ∧ N.live d ∨ d = n ∧ q = p)
    (hlinks : ∀ i, N.live i → N'.links i = N.links i) (hlinksn : N'.links n = 1) :
    N'.Sound root := by
  have hnr : n ≠ root := fun hr => hn (hr ▸ h.root_live)
  have hpn : n ≠ p := fun hr => hn (hr ▸ hp)
  refine ⟨(hlive root).mpr (.inl h.root_live), (hdir root h.root_live).mpr h.root_dir,
    ?_, ?_, ?_, ?_, ?_, ?_, ?_⟩
  · intro d k' i he
    rcases hedge he with he | ⟨-, -, rfl⟩
    · exact (hlive _).mpr (.inl (h.target_live he))
    · exact (hlive _).mpr (.inr rfl)
  · intro d k' i he
    rcases hedge he with he | ⟨-, -, rfl⟩
    · exact h.target_ne_root he
    · exact hnr
  · intro d k' i he
    rcases hedge he with he | ⟨rfl, -, rfl⟩
    · exact h.target_ne_self he
    · exact hpn
  · intro i hi
    rcases (hlive i).mp hi with hl | rfl
    · rw [hlinks i hl]
      refine (h.count i hl).mono fun d k' he => ?_
      rcases hedge he with he | ⟨-, -, rfl⟩
      · exact he
      · exact absurd hl hn
    · rw [hlinksn]
      -- every place that names the new node is the one place
      have hone : ∀ d k', N'.edge d k' i → d = p ∧ k' = k := by
        intro d k' he
        rcases hedge he with he | ⟨hd, hk, -⟩
        · exact absurd (h.target_live he) hn
        · exact ⟨hd, hk⟩
      intro l hnd hl
      match l with
      | [] => exact Nat.zero_le _
      | [_] => exact Nat.le_refl _
      | x :: y :: rest =>
          have hx := hone _ _ (hl x (by simp))
          have hy := hone _ _ (hl y (by simp))
          have hxy : x = y := Prod.ext (hx.1.trans hy.1.symm) (hx.2.trans hy.2.symm)
          simp [hxy] at hnd
  · intro i hi hd
    rcases (hlive i).mp hi with hl | rfl
    · rw [hlinks i hl]
      exact h.dir_links i hl ((hdir i hl).mp hd)
    · exact hlinksn
  · intro q hu
    rcases hup hu with ⟨hu, -⟩ | ⟨hr, -⟩
    · exact h.up_root hu
    · exact absurd hr.symm hnr
  · intro d q q' k' hu he
    rcases hup hu with ⟨hu, hl⟩ | ⟨rfl, rfl⟩
    · rcases hedge he with he | ⟨-, -, rfl⟩
      · exact h.up_edge hu he
      · exact absurd hl hn
    · rcases hedge he with he | ⟨rfl, -, -⟩
      · exact absurd (h.target_live he) hn
      · rfl

/-- One more link to a leaf `i`, at most from `p` at the place `k`. -/
theorem Sound.addLink [DecidableEq ι] [DecidableEq κ] (h : N.Sound root) {i p : ι} {k : κ}
    (hi : N.live i) (hleaf : ¬ N.dir i) (hp : N.dir p)
    (hlive : ∀ j, N'.live j ↔ N.live j) (hdir : ∀ j, N.live j → (N'.dir j ↔ N.dir j))
    (hedge : ∀ {d k' j}, N'.edge d k' j → N.edge d k' j ∨ d = p ∧ k' = k ∧ j = i)
    (hup : ∀ {d q}, N'.up d q → N.up d q ∧ N.live d ∧ N.dir d)
    (hlinks : ∀ j, N.live j → j ≠ i → N'.links j = N.links j)
    (hlinksi : N'.links i = N.links i + 1) : N'.Sound root := by
  have hir : i ≠ root := fun hr => hleaf (hr ▸ h.root_dir)
  have hip : i ≠ p := fun hr => hleaf (hr ▸ hp)
  have hlinks' : ∀ j, N.live j → N.dir j → N'.links j = N.links j := fun j hj hd =>
    hlinks j hj fun hr => hleaf (hr ▸ hd)
  refine ⟨(hlive root).mpr h.root_live, (hdir root h.root_live).mpr h.root_dir,
    ?_, ?_, ?_, ?_, ?_, fun hu => h.up_root (hup hu).1, ?_⟩
  · intro d k' j he
    rcases hedge he with he | ⟨-, -, rfl⟩
    · exact (hlive _).mpr (h.target_live he)
    · exact (hlive _).mpr hi
  · intro d k' j he
    rcases hedge he with he | ⟨-, -, rfl⟩
    · exact h.target_ne_root he
    · exact hir
  · intro d k' j he
    rcases hedge he with he | ⟨rfl, -, rfl⟩
    · exact h.target_ne_self he
    · exact hip
  · intro j hj
    have hl := (hlive j).mp hj
    by_cases hji : j = i
    · subst hji
      rw [hlinksi]
      refine (h.count j hl).add (p := p) (k := k) fun d k' he => ?_
      rcases hedge he with he | ⟨hd, hk, -⟩
      · exact .inl he
      · exact .inr ⟨hd, hk⟩
    · rw [hlinks j hl hji]
      refine (h.count j hl).mono fun d k' he => ?_
      rcases hedge he with he | ⟨-, -, hr⟩
      · exact he
      · exact absurd hr hji
  · intro j hj hd
    have hl := (hlive j).mp hj
    have hd' := (hdir j hl).mp hd
    rw [hlinks' j hl hd']
    exact h.dir_links j hl hd'
  · intro d q q' k' hu he
    rcases hedge he with he | ⟨-, -, rfl⟩
    · exact h.up_edge (hup hu).1 he
    · exact absurd (hup hu).2.2 hleaf

/-- The link at `(p, k)` to `i` is taken away and no longer counted. -/
theorem Sound.dropLink (h : N.Sound root) {i p : ι} {k : κ} (he : N.edge p k i)
    (hmany : 1 < N.links i) (hlive : ∀ j, N'.live j ↔ N.live j)
    (hdir : ∀ j, N.live j → (N'.dir j ↔ N.dir j))
    (hedge : ∀ {d k' j}, N'.edge d k' j → N.edge d k' j ∧ ¬ (d = p ∧ k' = k))
    (hup : ∀ {d q}, N'.up d q → N.up d q)
    (hlinks : ∀ j, N.live j → j ≠ i → N'.links j = N.links j)
    (hlinksi : N'.links i = N.links i - 1) : N'.Sound root := by
  have hleaf : ¬ N.dir i := fun hd => by
    have := h.dir_links i (h.target_live he) hd
    omega
  have hlinks' : ∀ j, N.live j → N.dir j → N'.links j = N.links j := fun j hj hd =>
    hlinks j hj fun hr => hleaf (hr ▸ hd)
  refine ⟨(hlive root).mpr h.root_live, (hdir root h.root_live).mpr h.root_dir,
    fun he => (hlive _).mpr (h.target_live (hedge he).1),
    fun he => h.target_ne_root (hedge he).1, fun he => h.target_ne_self (hedge he).1,
    ?_, ?_, fun hu => h.up_root (hup hu), fun hu he => h.up_edge (hup hu) (hedge he).1⟩
  · intro j hj
    have hl := (hlive j).mp hj
    by_cases hji : j = i
    · subst hji
      rw [hlinksi]
      exact (h.count j hl).remove he fun d k' he' => hedge he'
    · rw [hlinks j hl hji]
      exact (h.count j hl).mono fun d k' he' => (hedge he').1
  · intro j hj hd
    have hl := (hlive j).mp hj
    have hd' := (hdir j hl).mp hd
    rw [hlinks' j hl hd']
    exact h.dir_links j hl hd'

/-- The node `i` goes with its only link, the one at `(p, k)`. -/
theorem Sound.dropNode (h : N.Sound root) {i p : ι} {k : κ} (he : N.edge p k i)
    (hlast : N.links i ≤ 1) (hlive : ∀ j, N'.live j ↔ N.live j ∧ j ≠ i)
    (hdir : ∀ j, N.live j → (N'.dir j ↔ N.dir j))
    (hedge : ∀ {d k' j}, N'.edge d k' j → N.edge d k' j ∧ ¬ (d = p ∧ k' = k))
    (hup : ∀ {d q}, N'.up d q → N.up d q)
    (hlinks : ∀ j, N.live j → j ≠ i → N'.links j = N.links j) : N'.Sound root := by
  -- a second link to `i` would be one more than it counts
  have hgone : ∀ {d k' j}, N'.edge d k' j → j ≠ i := by
    rintro d k' j he' rfl
    have hlen := h.count j (h.target_live he) [(p, k), (d, k')] ?_ ?_
    · simp only [List.length_cons, List.length_nil] at hlen
      omega
    · simp only [List.nodup_cons, List.mem_singleton, Prod.mk.injEq, List.not_mem_nil,
        not_false_eq_true, List.nodup_nil, and_self, and_true]
      exact fun hr => (hedge he').2 ⟨hr.1.symm, hr.2.symm⟩
    · intro x hx
      rcases List.mem_pair.mp hx with rfl | rfl
      · exact he
      · exact (hedge he').1
  have hroot : root ≠ i := fun hr => h.target_ne_root he hr.symm
  refine ⟨(hlive root).mpr ⟨h.root_live, hroot⟩, (hdir root h.root_live).mpr h.root_dir,
    fun he => (hlive _).mpr ⟨h.target_live (hedge he).1, hgone he⟩,
    fun he => h.target_ne_root (hedge he).1, fun he => h.target_ne_self (hedge he).1,
    ?_, ?_, fun hu => h.up_root (hup hu), fun hu he => h.up_edge (hup hu) (hedge he).1⟩
  · intro j hj
    obtain ⟨hl, hji⟩ := (hlive j).mp hj
    rw [hlinks j hl hji]
    exact (h.count j hl).mono fun d k' he' => (hedge he').1
  · intro j hj hd
    obtain ⟨hl, hji⟩ := (hlive j).mp hj
    rw [hlinks j hl hji]
    exact h.dir_links j hl ((hdir j hl).mp hd)

/-- The counts are exact: a leaf has one link for each place that names it. Every
directory but the root is named, and parents are directories. -/
structure Counted (N : Namespace ι κ) (root : ι) : Prop where
  exact : ∀ i, N.live i → ¬ N.dir i → N.Exactly i (N.links i)
  up_dir : ∀ {d q}, N.up d q → N.live q ∧ N.dir q
  named : ∀ d, N.live d → N.dir d → d ≠ root → ∃ q k, N.edge q k d

namespace Counted

variable {i p : ι} {k : κ}

/-- Nothing happens to the nodes and their links. -/
theorem congr (h : N.Counted root) (hlive : ∀ j, N'.live j ↔ N.live j)
    (hdir : ∀ j, N'.dir j ↔ N.dir j) (hedge : ∀ d k j, N'.edge d k j ↔ N.edge d k j)
    (hup : ∀ {d q}, N'.up d q → N.up d q) (hlinks : ∀ j, N'.links j = N.links j) :
    N'.Counted root where
  exact j hj hleaf := by
    rw [hlinks]
    exact (h.exact j ((hlive j).mp hj) fun hd => hleaf ((hdir j).mpr hd)).congr
      fun d k => hedge d k j
  up_dir hu := by
    obtain ⟨hq, hqd⟩ := h.up_dir (hup hu)
    exact ⟨(hlive _).mpr hq, (hdir _).mpr hqd⟩
  named d hd hdd hr := by
    obtain ⟨q, k, he⟩ := h.named d ((hlive d).mp hd) ((hdir d).mp hdd) hr
    exact ⟨q, k, (hedge q k d).mpr he⟩

/-- A new leaf `i`, named by `p` at the place `k`. -/
theorem addLeaf (h : N.Counted root) (hs : N.Sound root) (hi : ¬ N.live i) (hleaf : ¬ N'.dir i)
    (hlive : ∀ j, N'.live j ↔ N.live j ∨ j = i)
    (hdir : ∀ j, N.live j → (N'.dir j ↔ N.dir j))
    (hedge : ∀ d k' j, N'.edge d k' j ↔ N.edge d k' j ∨ d = p ∧ k' = k ∧ j = i)
    (hup : ∀ {d q}, N'.up d q → N.up d q) (hlinks : ∀ j, N.live j → N'.links j = N.links j)
    (hlinksi : N'.links i = 1) : N'.Counted root := by
  refine ⟨?_, ?_, ?_⟩
  · intro j hj hjl
    rcases (hlive j).mp hj with hl | rfl
    · rw [hlinks j hl]
      have hji : j ≠ i := fun hr => hi (hr ▸ hl)
      apply (h.exact j hl fun hd => hjl ((hdir j hl).mpr hd)).congr
      intro d k'
      rw [hedge]
      simp [hji]
    · rw [hlinksi]
      refine ⟨[(p, k)], List.nodup_singleton _, ?_, rfl⟩
      intro d k'
      rw [List.mem_singleton, Prod.mk.injEq, hedge]
      constructor
      · exact fun hr => .inr ⟨hr.1, hr.2, rfl⟩
      · rintro (he | ⟨hd, hk, -⟩)
        · exact absurd (hs.target_live he) hi
        · exact ⟨hd, hk⟩
  · intro d q hu
    obtain ⟨hq, hqd⟩ := h.up_dir (hup hu)
    exact ⟨(hlive q).mpr (.inl hq), (hdir q hq).mpr hqd⟩
  · intro d hd hdd hr
    rcases (hlive d).mp hd with hl | rfl
    · obtain ⟨q, k', he⟩ := h.named d hl ((hdir d hl).mp hdd) hr
      exact ⟨q, k', (hedge q k' d).mpr (.inl he)⟩
    · exact absurd hdd hleaf

/-- One more link to a leaf `i`, from `p` at the place `k`. -/
theorem addLink (h : N.Counted root) (hi : ¬ N.dir i) (hnew : ¬ N.edge p k i)
    (hlive : ∀ j, N'.live j ↔ N.live j) (hdir : ∀ j, N'.dir j ↔ N.dir j)
    (hedge : ∀ d k' j, N'.edge d k' j ↔ N.edge d k' j ∨ d = p ∧ k' = k ∧ j = i)
    (hup : ∀ {d q}, N'.up d q → N.up d q) (hlinks : ∀ j, j ≠ i → N'.links j = N.links j)
    (hlinksi : N'.links i = N.links i + 1) : N'.Counted root := by
  refine ⟨?_, ?_, ?_⟩
  · intro j hj hjl
    have hex := h.exact j ((hlive j).mp hj) fun hd => hjl ((hdir j).mpr hd)
    by_cases hji : j = i
    · subst hji
      rw [hlinksi]
      apply hex.add hnew
      intro d k'
      rw [hedge]
      simp
    · rw [hlinks j hji]
      apply hex.congr
      intro d k'
      rw [hedge]
      simp [hji]
  · intro d q hu
    obtain ⟨hq, hqd⟩ := h.up_dir (hup hu)
    exact ⟨(hlive q).mpr hq, (hdir q).mpr hqd⟩
  · intro d hd hdd hr
    obtain ⟨q, k', he⟩ := h.named d ((hlive d).mp hd) ((hdir d).mp hdd) hr
    exact ⟨q, k', (hedge q k' d).mpr (.inl he)⟩

/-- The link to the leaf `i` at `(p, k)` is taken away and no longer counted. -/
theorem dropLink [DecidableEq ι] [DecidableEq κ] (h : N.Counted root)
    (hplace : ∀ {d k i j}, N.edge d k i → N.edge d k j → i = j)
    (hi : ¬ N.dir i) (he : N.edge p k i)
    (hlive : ∀ j, N'.live j ↔ N.live j) (hdir : ∀ j, N'.dir j ↔ N.dir j)
    (hedge : ∀ d k' j, N'.edge d k' j ↔ N.edge d k' j ∧ ¬ (d = p ∧ k' = k))
    (hup : ∀ {d q}, N'.up d q → N.up d q) (hlinks : ∀ j, j ≠ i → N'.links j = N.links j)
    (hlinksi : N'.links i = N.links i - 1) : N'.Counted root := by
  -- the place named `i` only
  have hother : ∀ {d k' j}, j ≠ i → N.edge d k' j → ¬ (d = p ∧ k' = k) := by
    rintro d k' j hji he' ⟨rfl, rfl⟩
    exact hji (hplace he' he)
  refine ⟨?_, ?_, ?_⟩
  · intro j hj hjl
    have hex := h.exact j ((hlive j).mp hj) fun hd => hjl ((hdir j).mpr hd)
    by_cases hji : j = i
    · subst hji
      rw [hlinksi]
      exact hex.remove he fun d k' => hedge d k' j
    · rw [hlinks j hji]
      apply hex.congr
      intro d k'
      rw [hedge]
      exact ⟨fun hr => hr.1, fun hr => ⟨hr, hother hji hr⟩⟩
  · intro d q hu
    obtain ⟨hq, hqd⟩ := h.up_dir (hup hu)
    exact ⟨(hlive q).mpr hq, (hdir q).mpr hqd⟩
  · intro d hd hdd hr
    have hdi : d ≠ i := by
      intro hdi
      exact hi (hdi ▸ (hdir d).mp hdd)
    obtain ⟨q, k', he'⟩ := h.named d ((hlive d).mp hd) ((hdir d).mp hdd) hr
    exact ⟨q, k', (hedge q k' d).mpr ⟨he', hother hdi he'⟩⟩

/-- The node `i`, which names nothing, goes with the link at `(p, k)`. -/
theorem dropNode (h : N.Counted root) (hs : N.Sound root)
    (hplace : ∀ {d k i j}, N.edge d k i → N.edge d k j → i = j) (he : N.edge p k i)
    (hempty : ∀ {k' j}, ¬ N.edge i k' j) (hlive : ∀ j, N'.live j ↔ N.live j ∧ j ≠ i)
    (hdir : ∀ j, N'.dir j ↔ N.dir j)
    (hedge : ∀ d k' j, d ≠ i → (N'.edge d k' j ↔ N.edge d k' j ∧ ¬ (d = p ∧ k' = k)))
    (hsrc : ∀ {k' j}, ¬ N'.edge i k' j)
    (hup : ∀ {d q}, N'.up d q → N.up d q ∧ N.live d ∧ N.dir d)
    (hlinks : ∀ j, N'.links j = N.links j) : N'.Counted root := by
  have hkept : ∀ {d k' j}, j ≠ i → (N'.edge d k' j ↔ N.edge d k' j) := by
    intro d k' j hji
    by_cases hdi : d = i
    · rw [hdi]
      exact ⟨fun hr => (hsrc hr).elim, fun hr => (hempty hr).elim⟩
    · rw [hedge d k' j hdi]
      refine ⟨fun hr => hr.1, fun hr => ⟨hr, ?_⟩⟩
      rintro ⟨rfl, rfl⟩
      exact hji (hplace hr he)
  refine ⟨?_, ?_, ?_⟩
  · intro j hj hjl
    obtain ⟨hl, hji⟩ := (hlive j).mp hj
    rw [hlinks]
    exact (h.exact j hl fun hd => hjl ((hdir j).mpr hd)).congr fun d k' => hkept hji
  · intro d q hu
    obtain ⟨hu, hd, hdd⟩ := hup hu
    obtain ⟨hq, hqd⟩ := h.up_dir hu
    refine ⟨(hlive q).mpr ⟨hq, ?_⟩, (hdir q).mpr hqd⟩
    -- whoever calls `i` its parent is named by `i`
    rintro rfl
    by_cases hr : d = root
    · subst hr
      exact hs.target_ne_root he (hs.up_root hu)
    · obtain ⟨q', k', he'⟩ := h.named d hd hdd hr
      rw [hs.up_edge hu he'] at he'
      exact hempty he'
  · intro d hd hdd hr
    obtain ⟨hl, hdi⟩ := (hlive d).mp hd
    obtain ⟨q, k', he'⟩ := h.named d hl ((hdir d).mp hdd) hr
    exact ⟨q, k', (hkept hdi).mpr he'⟩

/-- What names a node can be read off its type and its count. -/
theorem named_iff (h : N.Counted root) (hs : N.Sound root) {j : ι} (hj : N.live j) :
    (∃ d k, N.edge d k j) ↔ N.dir j ∧ j ≠ root ∨ ¬ N.dir j ∧ 0 < N.links j := by
  by_cases hd : N.dir j
  · simp only [hd, true_and, not_true_eq_false, false_and, or_false]
    constructor
    · rintro ⟨d, k, he⟩
      exact hs.target_ne_root he
    · exact h.named j hj hd
  · simp only [hd, false_and, not_false_eq_true, true_and, false_or]
    constructor
    · rintro ⟨d, k, he⟩
      exact h.exact j hj hd |>.atMost [(d, k)] (List.nodup_singleton _) (by simpa using he)
    · exact (h.exact j hj hd).exists_edge

end Counted

end Namespace

end Lib
