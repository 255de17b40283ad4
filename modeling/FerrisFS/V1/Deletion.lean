import FerrisFS.V1.Coherent
import FerrisFS.V1.Inspect
import FerrisFS.V1.Removal

/-!
# What a deletion removes

`delete` on a consistent state. It removes the one record that the last component of the
path leads to; the other records of that directory and all other directories stay as they
are. A directory is deleted only if it lists nothing but itself and its parent.
-/

namespace FerrisFS

open Lib DirectoryHandler INodeTableHandler FormatV1

/-! ## Live records -/

namespace Block

variable {b b' : Block} {off : Nat} {e : DirEntry}

theorem liveRecords_sorted (b : Block) : b.liveRecords.Pairwise fun x y => x.1 < y.1 := by
  rw [liveRecords, List.pairwise_map]
  exact (recordsFrom_sorted _ _).sublist List.filter_sublist

/-- Freeing a record takes it out of the live records, which stay in their places. -/
theorem FreedAt.split (h : b.FreedAt b' off e) (hmem : (off, e) ∈ b.records)
    (hlive : e.isFree = false) : ∃ l₁ l₂,
      b.liveRecords = l₁ ++ (off, e, b.slice off e.recordLen) :: l₂ ∧
        b'.liveRecords = l₁ ++ l₂ := by
  have hx : (off, e, b.slice off e.recordLen) ∈ b.liveRecords :=
    mem_liveRecords.mpr ⟨hmem, hlive, rfl⟩
  obtain ⟨l₁, l₂, hsplit⟩ := List.append_of_mem hx
  refine ⟨l₁, l₂, hsplit, ?_⟩
  have hsorted := b.liveRecords_sorted
  rw [hsplit, List.pairwise_append, List.pairwise_cons] at hsorted
  obtain ⟨-, ⟨hafter, -⟩, hbefore⟩ := hsorted
  have h₁ : l₁.filter (fun x => x.1 ≠ off) = l₁ := by
    rw [List.filter_eq_self]
    intro x hx
    have := hbefore x hx _ List.mem_cons_self
    simp only [decide_eq_true_eq]
    exact Nat.ne_of_lt this
  have h₂ : l₂.filter (fun x => x.1 ≠ off) = l₂ := by
    rw [List.filter_eq_self]
    intro x hx
    have := hafter x hx
    simp only [decide_eq_true_eq]
    exact Nat.ne_of_gt this
  rw [h.live, hsplit, List.filter_append, List.filter_cons_of_neg (by simp), h₁, h₂]

end Block

namespace View

variable {t : View} {d : Nat} {k : Nat × Nat} {e : DirEntry}

/-- The live records of the data block `b`, each with its place and its bytes. -/
def blockRecords (t : View) (b : Nat) : List ((Nat × Nat) × DirEntry × List UInt8) :=
  (t.data b).liveRecords.map fun x => ((b, x.1), x.2)

/-- The live records of the directory `d`. -/
def liveRecords (t : View) (d : Nat) : List ((Nat × Nat) × DirEntry × List UInt8) :=
  (t.content d).flatMap t.blockRecords

/-- A record is a live record of a directory of its own. -/
theorem rec_iff_read : t.Rec d k e ↔ t.ibit d = true ∧ (t.ino d).fileType = .directory ∧
    k.1 ∈ t.content d ∧ (k.2, e) ∈ (t.data k.1).records ∧ e.isFree = false := by
  constructor
  · intro h
    obtain ⟨⟨off, e'⟩, hmem, heq⟩ := List.mem_map.mp h.slot
    obtain ⟨rfl, hlive⟩ := DirEntry.of_slot (congrArg Prod.snd heq)
    cases congrArg Prod.fst heq
    exact ⟨h.live, h.dir, h.block, hmem, hlive⟩
  · intro h
    obtain ⟨hlive, hdir, hb, hmem, hfree⟩ := h
    refine ⟨hlive, hdir, hb, List.mem_map.mpr ⟨(k.2, e), hmem, ?_⟩⟩
    simp [DirEntry.slot, hfree]

theorem mem_liveRecords (hlive : t.ibit d = true) (hdir : (t.ino d).fileType = .directory)
    {x : (Nat × Nat) × DirEntry × List UInt8} : x ∈ t.liveRecords d ↔
      t.Rec d x.1 x.2.1 ∧ x.2.2 = (t.data x.1.1).slice x.1.2 x.2.1.recordLen := by
  obtain ⟨⟨b, off⟩, e, bytes⟩ := x
  simp only [liveRecords, blockRecords, List.mem_flatMap, List.mem_map, rec_iff_read, hlive,
    hdir, true_and]
  constructor
  · intro h
    obtain ⟨b', hb, ⟨off', e', bytes'⟩, hy, heq⟩ := h
    cases heq
    obtain ⟨hmem, hfree, hbytes⟩ := Block.mem_liveRecords.mp hy
    exact ⟨⟨hb, hmem, hfree⟩, hbytes⟩
  · intro h
    obtain ⟨⟨hb, hmem, hfree⟩, hbytes⟩ := h
    exact ⟨b, hb, (off, e, bytes), Block.mem_liveRecords.mpr ⟨hmem, hfree, hbytes⟩, rfl⟩

/-- What a deletion does to the directory whose record it frees. -/
theorem liveRecords_split {t' : View} {b' : Block} (hr : t.Rec d k e)
    (hnodup : (t.content d).Nodup) (hcontent : t'.content d = t.content d)
    (hdata : ∀ b ∈ t.content d, t'.data b = Function.update t.data k.1 b' b)
    (hfreed : (t.data k.1).FreedAt b' k.2 e) : ∃ bytes l₁ l₂,
      t.liveRecords d = l₁ ++ (k, e, bytes) :: l₂ ∧ t'.liveRecords d = l₁ ++ l₂ := by
  obtain ⟨-, -, hb, hmem, hlive⟩ := rec_iff_read.mp hr
  obtain ⟨m₁, m₂, hold, hnew⟩ := hfreed.split hmem hlive
  obtain ⟨c₁, c₂, hsplit⟩ := List.append_of_mem hb
  rw [hsplit, List.nodup_append, List.nodup_cons] at hnodup
  obtain ⟨-, ⟨hafter, -⟩, hbefore⟩ := hnodup
  -- the other blocks of the directory are as before
  have hother : ∀ c : List Nat, (∀ b ∈ c, b ∈ t.content d) → (∀ b ∈ c, b ≠ k.1) →
      c.flatMap t'.blockRecords = c.flatMap t.blockRecords := by
    intro c hc hne
    refine List.flatMap_congr fun b hb => ?_
    rw [blockRecords, blockRecords, hdata b (hc b hb), Function.update_of_ne (hne b hb)]
  have h₁ := hother c₁ (fun b hb => by rw [hsplit]; exact List.mem_append_left _ hb)
    fun b hb => hbefore b hb k.1 List.mem_cons_self
  have h₂ := hother c₂
    (fun b hb => by rw [hsplit]; exact List.mem_append_right _ (List.mem_cons_of_mem _ hb))
    fun b hb heq => hafter (heq ▸ hb)
  have hk : t.blockRecords k.1 = m₁.map (fun x => ((k.1, x.1), x.2)) ++
      (k, e, (t.data k.1).slice k.2 e.recordLen) :: m₂.map (fun x => ((k.1, x.1), x.2)) := by
    rw [blockRecords, hold, List.map_append, List.map_cons]
  have hk' : t'.blockRecords k.1 = m₁.map (fun x => ((k.1, x.1), x.2)) ++
      m₂.map (fun x => ((k.1, x.1), x.2)) := by
    rw [blockRecords, hdata k.1 hb, Function.update_self, hnew, List.map_append]
  refine ⟨(t.data k.1).slice k.2 e.recordLen,
    c₁.flatMap t.blockRecords ++ m₁.map (fun x => ((k.1, x.1), x.2)),
    m₂.map (fun x => ((k.1, x.1), x.2)) ++ c₂.flatMap t.blockRecords, ?_, ?_⟩
  · rw [liveRecords, hsplit, List.flatMap_append, List.flatMap_cons, hk]
    simp only [List.append_assoc, List.cons_append]
  · rw [liveRecords, hcontent, hsplit, List.flatMap_append, List.flatMap_cons, h₁, h₂, hk']
    simp only [List.append_assoc]

end View

/-! ## Consistent states -/

namespace Geom

/-- Inodes own their blocks, directory blocks parse, live records name allocated inodes of
the recorded type, and each directory but the root has one name. -/
structure Consistent (g : Geom) (t : St) : Prop where
  owning : g.Owning t
  root_live : t.ibit 0 = true
  root_dir : (t.ino 0).fileType = .directory
  parsed : ∀ d, t.ibit d = true → (t.ino d).fileType = .directory →
    ∀ b ∈ t.content d, (t.data b).Parsed
  typed : ∀ {d k e}, t.Rec d k e →
    t.ibit e.inode = true ∧ (t.ino e.inode).fileType = e.fileType
  once : ∀ i, i ≠ 0 → t.ibit i = true → (t.ino i).fileType = .directory →
    ∃ d k, t.graph.edge d k i ∧ ∀ d' k', t.graph.edge d' k' i → (d', k') = (d, k)

variable {g : Geom} {s : FFS} {t : St} {path : Str} {r : ResolutionResult} {now : UInt64}

/-- A well-formed state whose directories form a tree is consistent, if their blocks parse. -/
theorem WellFormed.consistent (h : g.WellFormed t) (ht : t.Tree)
    (hparsed : ∀ d, t.ibit d = true → (t.ino d).fileType = .directory →
      ∀ b ∈ t.content d, (t.data b).Parsed) : g.Consistent t where
  owning := h.owning
  root_live := ht.root_live
  root_dir := ht.root_dir
  parsed := hparsed
  typed := h.typed
  once i hne hlive hdir := by
    obtain ⟨d, k, he⟩ := ht.named hlive hdir hne
    exact ⟨d, k, he, fun d' k' he' => ht.once hdir he' he⟩

/-- Resolution in a consistent state stays among the allocated inodes. -/
theorem closed_live {d : MemoryDevice} (hd : g.Holds d t.toView) (h : g.Consistent t) :
    (g.directoryHandler.links g.inodeHandler d).Closed
      (fun n => t.ibit n.1 = true ∧ n.2 = t.ino n.1) (fun _ => True) where
  absent _ _ _ := trivial
  unread _ _ _ := trivial
  unstarted _ _ _ _ := trivial
  outside := trivial
  node := by
    intro n c m hn hin hlook
    obtain ⟨hlive, heq⟩ := hn
    have hdir : n.2.fileType = .directory := of_decide_eq_true hin
    obtain ⟨e, b, off, hfind, hm⟩ := look_node hlook
    rw [heq] at hdir hfind
    obtain ⟨-, -, -, hspec⟩ :=
      (wpr_lookup (h.owning.mapped _ hlive) _ hlive hdir).of_ok hd hfind
    have hi := (h.typed (hspec e b off rfl).1).1
    have hnode := (look_cases.1 m hlook).2
    rw [hm, node_of_lt hd (h.owning.ibit_lt _ hi)] at hnode
    cases hnode
    exact ⟨hi, rfl⟩
  started := by
    intro n c self p base m hn hin hlook hstart
    obtain ⟨hlive, heq⟩ := hn
    have hdir : n.2.fileType = .directory := of_decide_eq_true hin
    have hroot : g.inodeHandler.node d 0 = .ok (0, t.ino 0) := node_of_lt hd g.inodes_pos
    have hat : ∃ i, g.inodeHandler.node d base = .ok (i, t.ino i) ∧ t.ibit i = true ∧
        (t.ino i).fileType = .directory := by
      rcases target_base (look_cases.2 _ _ hlook).symm with rfl | rfl
      · exact ⟨0, hroot, h.root_live, h.root_dir⟩
      · exact ⟨n.1, node_of_lt hd (h.owning.ibit_lt _ hlive), hlive, heq ▸ hdir⟩
    obtain ⟨i, hi, hilive, hidir⟩ := hat
    have hm : m = (0, t.ino 0) ∨ m = (i, t.ino i) := by
      unfold links at hstart
      dsimp only at hstart
      rw [hi] at hstart
      dsimp only at hstart
      split at hstart
      · cases hroot.symm.trans hstart
        exact .inl rfl
      · cases hstart
        exact .inr rfl
    rcases hm with rfl | rfl
    · exact ⟨⟨h.root_live, rfl⟩, decide_eq_true h.root_dir⟩
    · exact ⟨⟨hilive, rfl⟩, decide_eq_true hidir⟩

/-- What the path `path` leads to when its last component is not followed: the record of
that name in the directory that the path before it leads to. -/
structure LeadsTo (s : FFS) (t : St) (path : Str) (r : ResolutionResult) : Prop where
  parent : ∃ init comp rp, Path.components path = init ++ [comp] ∧
    s.resolve init true = some rp ∧ rp.targetInodeIndex = r.parentInodeIndex ∧
    r.dirEntry.label = Path.componentBytes comp
  record : t.Rec r.parentInodeIndex (r.dirEntryBlockIndex, r.dirEntryOffset) r.dirEntry
  target : r.dirEntry.inode = r.targetInodeIndex
  inode : r.targetInode = t.ino r.targetInodeIndex

theorem Rep.read_root (hs : g.Rep s t) :
    g.inodeHandler.readInode 0 s.device = .ok (t.ino 0) s.device := by
  obtain ⟨d, hd, -⟩ := runs_readInode g.inodes_pos s.device hs.1
  obtain rfl := (readOnly_readInode _ _).of_ok hd
  exact hd

/-- Resolution walks from the root. -/
theorem Rep.links_resolve (hs : g.Rep s t) (final : Bool) (p : List Component) :
    (g.directoryHandler.links g.inodeHandler s.device).resolve 40 final p
        g.directoryHandler.rootInodeInd =
      (g.directoryHandler.links g.inodeHandler s.device).walk
        ((g.directoryHandler.links g.inodeHandler s.device).follow 40) final p (0, t.ino 0) :=
  Links.resolve_of_start
    (@start_root g.directoryHandler g.inodeHandler s.device _ hs.read_root p)

/-- A path whose components are all passed over leads to the root. -/
theorem resolve_skipped (hs : g.Rep s t) (hr : s.resolve (Path.components path) false = some r)
    (hskip : ∀ c ∈ Path.components path, c = .curDir ∨ c = .rootDir) : r.targetInodeIndex = 0 := by
  have hstay : ∀ (p : List Component) (n : Node), (∀ c ∈ p, c = .curDir ∨ c = .rootDir) →
      (g.directoryHandler.links g.inodeHandler s.device).walk
        ((g.directoryHandler.links g.inodeHandler s.device).follow 40) false p n =
          .found n 0 := by
    intro p n
    induction p with
    | nil => exact fun _ => rfl
    | cons c p ih =>
        intro hp
        rw [Links.walk_stay (look_skip (hp c List.mem_cons_self))]
        exact ih fun c hc => hp c (List.mem_cons_of_mem _ hc)
  obtain ⟨d, hd⟩ := Outcome.value?_eq_some.mp hr
  rw [hs.2] at hd
  obtain ⟨n, k, hfound, hn, -⟩ := found_of_resolve hd
  have hroot := (hs.links_resolve false (Path.components path)).trans (hstay _ _ hskip)
  obtain ⟨rfl, -⟩ := Res.found.inj (hfound.symm.trans hroot)
  exact (congrArg Prod.fst hn).symm

/-- The result of a resolution is the record at its place. -/
theorem leadsTo_of_resolve (hs : g.Rep s t) (h : g.Consistent t)
    (hr : s.resolve (Path.components path) false = some r) (hne : r.targetInodeIndex ≠ 0) :
    LeadsTo s t path r := by
  have hcomp : ∃ c ∈ Path.components path, ¬ (c = .curDir ∨ c = .rootDir) := by
    by_contra hno
    refine hne (resolve_skipped hs hr fun c hc => ?_)
    by_contra hc'
    exact hno ⟨c, hc, hc'⟩
  obtain ⟨init, comp, hpath, hlast⟩ := split_last hcomp
  have hinode := resolve_inode hs hr
  obtain ⟨d, hd⟩ := Outcome.value?_eq_some.mp hr
  obtain rfl := (readOnly_resolve _ _ _ _ _).of_ok hd
  rw [hs.2, hpath] at hd
  obtain ⟨c₁, c', k, hwalk, hdir, -, hrun, rfl⟩ :=
    @resolve_last g.directoryHandler g.inodeHandler s.device false _ r init comp hs.read_root
      h.root_dir hlast hd
  -- the path before the last component leads to an allocated directory
  have hat : t.ibit c₁.inodeInd = true ∧ c₁.inode = t.ino c₁.inodeInd := by
    have hwithin := (closed_live hs.1 h).walk 40 true init (0, t.ino 0) ⟨h.root_live, rfl⟩
      (decide_eq_true h.root_dir)
    rw [← hs.links_resolve, hwalk] at hwithin
    exact hwithin.resolve_right Bool.noConfusion
  obtain ⟨hlive, heq⟩ := hat
  obtain ⟨e, b, off, inode, hfind, -, -, -, hcase⟩ := last_component hrun
  have hres := (hcase.resolve_left fun hf => Bool.noConfusion hf.2).2
  rw [heq] at hdir hfind
  obtain ⟨-, -, -, hspec⟩ :=
    (wpr_lookup (h.owning.mapped _ hlive) _ hlive hdir).of_ok hs.1 hfind
  obtain ⟨hrec, hlabel⟩ := hspec e b off rfl
  obtain ⟨rp, hrp, hfound⟩ := resolve_of_found hwalk
  rw [hres] at hinode ⊢
  refine ⟨⟨init, comp, rp, hpath, ?_, (congrArg Prod.fst hfound).symm, hlabel⟩, hrec, rfl, hinode⟩
  rw [FFS.resolve, hs.2]
  exact congrArg Outcome.value? hrp

/-! ## Freeing the record -/

theorem wpr_freeParsed {v : View} {b off : Nat} {e : DirEntry} (hb : b < g.cap)
    (hp : (v.data b).Parsed) (hmem : (off, e) ∈ (v.data b).records)
    (hlive : e.isFree = false) :
    Prog.wpr g.Holds (g.directoryHandler.freeRegion b off)
      (fun _ v' => ∃ b', (v.data b).FreedAt b' off e ∧
        v' = { v with data := Function.update v.data b b' })
      (fun _ _ => False) v := by
  intro d hd
  have hlt := hd.data_lt hb
  have hblock : d.block (g.dataStart + b) = v.data b := by
    obtain ⟨d', hread, -⟩ := runs_readData hb d hd
    rw [readBlock_of_lt hlt] at hread
    exact (Outcome.ok.inj hread).1
  rw [← hblock] at hp hmem
  obtain ⟨b', hfree, hfreed, -⟩ := @freeRegion_parsed g.directoryHandler d b off e hlt hp hmem hlive
  obtain ⟨d', hwrite, hd'⟩ := @runs_writeData g v b b' hb d hd
  rw [writeBlock_of_lt hlt] at hwrite
  obtain ⟨-, rfl⟩ := Outcome.ok.inj hwrite
  rw [← hblock]
  exact (Prog.wp_of_ok hfree).mpr ⟨_, hd', b', hfreed, rfl⟩

theorem wpr_freeAt {p : Nat} {k : Nat × Nat} {e : DirEntry} (h : g.Consistent t)
    (hr : t.Rec p k e) {t₁ : St} (hdata : t₁.data = t.data) :
    Prog.wpr g.Rep (onDevice (g.directoryHandler.freeRegion k.1 k.2))
      (fun _ t' => ∃ b', (t.data k.1).FreedAt b' k.2 e ∧
        t' = { t₁ with data := Function.update t.data k.1 b' })
      (fun _ _ => False) t₁ := by
  obtain ⟨-, -, -, hmem, hfree⟩ := View.rec_iff_read.mp hr
  have hp := h.parsed p hr.live hr.dir k.1 hr.block
  have hcap := (h.owning.mapped _ hr.live).content _ hr.block
  rw [← hdata] at hmem hp ⊢
  refine wpr_onDevice (Prog.wpr_mono (wpr_freeParsed hcap hp hmem hfree) ?_ fun _ _ he => he)
  intro _ v' hv
  obtain ⟨b', hfreed, rfl⟩ := hv
  exact ⟨b', hfreed, rfl⟩

/-- One block is rewritten, and inodes change in their links and times only. -/
structure Rewritten (t t' : View) (blk : Nat) (b' : Block) : Prop where
  ino : ∀ j, ∃ l m, t'.ino j = { t.ino j with links := l, modified := m }
  data : t'.data = Function.update t.data blk b'

theorem rewritten_unlinked (t : St) (i p : Nat) (blk : Nat) (b' : Block) :
    Rewritten t.toView (t.unlinked i p now blk b').toView blk b' where
  ino j := by
    simp only [St.unlinked, Function.update_apply]
    split
    · rename_i hj
      exact hj ▸ ⟨_, _, rfl⟩
    · split
      · rename_i hj
        exact hj ▸ ⟨_, _, rfl⟩
      · exact ⟨_, _, rfl⟩
  data := rfl

theorem rewritten_removed (t : St) (i p : Nat) (blk : Nat) (b' : Block) :
    Rewritten t.toView (t.removed i p now blk b').toView blk b' where
  ino j := by
    simp only [St.removed, Function.update_apply]
    split
    · rename_i hj
      exact hj ▸ ⟨_, _, rfl⟩
    · exact ⟨_, _, rfl⟩
  data := rfl

section Rewriting

variable {t' : View} {p j blk : Nat} {b' : Block}

theorem Rewritten.content_eq (hw : Rewritten t.toView t' blk b') (h : g.Owning t)
    (hp : t.ibit p = true) (hblk : blk ∈ t.content p) (hj : t.ibit j = true) :
    t'.content j = t.content j := by
  obtain ⟨l, m, hino⟩ := hw.ino j
  rw [View.content, hino, hw.data]
  exact INode.content_congr fun q hq =>
    Function.update_of_ne (h.pointer_ne hp hj hblk hq) _ _

theorem Rewritten.data_eq (hw : Rewritten t.toView t' blk b') (h : g.Owning t)
    (hp : t.ibit p = true) (hblk : blk ∈ t.content p) (hj : t.ibit j = true) (hne : j ≠ p) :
    ∀ b ∈ t.owned j, t'.data b = t.data b := by
  intro b hb
  rw [hw.data]
  refine Function.update_of_ne ?_ _ _
  rintro rfl
  exact hne (h.owner_unique hj hp hb (List.mem_append_left _ hblk))

end Rewriting

/-! ## `delete` -/

/-- The record `e` at `k` is removed from the directory `p`, and with the last link of the
inode it names the inode; nothing else is. -/
structure Deleted (t t' : View) (p : Nat) (k : Nat × Nat) (e : DirEntry) (now : UInt64) :
    Prop where
  parent : ∃ bytes l₁ l₂, t.liveRecords p = l₁ ++ (k, e, bytes) :: l₂ ∧
    t'.liveRecords p = l₁ ++ l₂
  modified : t'.ino p = { t.ino p with modified := now.toNat }
  others : ∀ d, t.ibit d = true → (t.ino d).fileType = .directory → d ≠ p →
    t'.liveRecords d = t.liveRecords d
  same : ∀ j, t.ibit j = true → j ≠ p → j ≠ e.inode → t.Same t' j
  target : t.ibit e.inode = true ∧ (t'.ibit e.inode = false ↔ (t.ino e.inode).links ≤ 1)
  allocated : ∀ j, j ≠ e.inode → t'.ibit j = t.ibit j
  empty : (t.ino e.inode).fileType = .directory →
    ∀ x ∈ t.liveRecords e.inode, x.2.1.label = [dot] ∨ x.2.1.label = [dot, dot]

/-- What is left of the parent and of the others once the block is rewritten. -/
theorem Rewritten.deleted {t' : View} {p : Nat} {k : Nat × Nat} {e : DirEntry} {b' : Block}
    (hw : Rewritten t.toView t' k.1 b') (h : g.Consistent t) (hr : t.Rec p k e)
    (hfreed : (t.data k.1).FreedAt b' k.2 e)
    (hmod : t'.ino p = { t.ino p with modified := now.toNat })
    (hino : ∀ j, j ≠ p → j ≠ e.inode → t'.ino j = t.ino j)
    (htarget : t'.ibit e.inode = false ↔ (t.ino e.inode).links ≤ 1)
    (hbits : ∀ j, j ≠ e.inode → t'.ibit j = t.ibit j)
    (hempty : (t.ino e.inode).fileType = .directory → Empty t e.inode) :
    Deleted t.toView t' p k e now where
  parent := by
    have hnodup := (List.nodup_append.mp (h.owning.owns.nodup p hr.live)).1
    refine View.liveRecords_split hr hnodup (hw.content_eq h.owning hr.live hr.block hr.live) ?_
      hfreed
    intro b _
    rw [hw.data]
  modified := hmod
  others d hd hdir hne := by
    have hdata := hw.data_eq h.owning hr.live hr.block hd hne
    rw [View.liveRecords, hw.content_eq h.owning hr.live hr.block hd, View.liveRecords]
    refine List.flatMap_congr fun b hb => ?_
    rw [View.blockRecords, hdata b (List.mem_append_left _ hb), View.blockRecords]
  same j hj hjp hji := ⟨hino j hjp hji, hw.data_eq h.owning hr.live hr.block hj hjp⟩
  target := ⟨(h.typed hr).1, htarget⟩
  allocated := hbits
  empty hdir x hx := by
    have hx := ((View.mem_liveRecords (h.typed hr).1 hdir).mp hx).1
    exact hempty hdir x.1 x.2.1 hx

/-- `unlink` on a consistent state. -/
theorem wpr_unlinkAt (hir : ∀ j, (t.ino j).InRange) (h : g.Consistent t) {p : Nat}
    {k : Nat × Nat} {e : DirEntry} (hr : t.Rec p k e) {notEmpty : FSError} :
    Prog.wpr g.Rep (unlink (t.ino e.inode) e.inode (t.ino p) p k.1 k.2 notEmpty now)
      (fun _ t' => Deleted t.toView t'.toView p k e now) (fun _ _ => True) t := by
  obtain ⟨hlive, -⟩ := h.typed hr
  have hm := h.owning.mapped _ hlive
  have hdrop := wpr_dropLink_of (k := k) (F := fun b' => (t.data k.1).FreedAt b' k.2 e) now hir
    (h.owning.ibit_lt _ hlive) (h.owning.ibit_lt _ hr.live) hm hlive
    fun t₁ hdata => wpr_freeAt h hr hdata
  have hrest : ((t.ino e.inode).fileType = .directory → Empty t e.inode) →
      Prog.wpr g.Rep _ (fun _ t' => Deleted t.toView t'.toView p k e now) (fun _ _ => True) t :=
    fun hempty => Prog.wpr_mono hdrop (by
      intro _ t' hstate
      obtain ⟨b', hfreed, ⟨hmany, rfl⟩ | ⟨hlast, rfl⟩⟩ := hstate
      · refine (rewritten_unlinked t e.inode p k.1 b').deleted h hr hfreed ?_ ?_ ?_ ?_ hempty
        · simp [St.unlinked]
        · intro j hjp hji
          simp [St.unlinked, hjp, hji]
        · simp [St.unlinked, hlive, hmany]
        · exact fun j _ => rfl
      · refine (rewritten_removed t e.inode p k.1 b').deleted h hr hfreed ?_ ?_ ?_ ?_ hempty
        · simp [St.removed]
        · intro j hjp _
          simp [St.removed, hjp]
        · simp [St.removed, setBits, hlast]
        · intro j hj
          simp [St.removed, setBits, hj]) fun _ _ _ => trivial
  refine runs_getFormat.seq ?_
  refine Prog.wpr_ite (fun hdir => ?_) fun hdir => hrest fun hd => absurd hd hdir
  refine wpr_read (wpr_emptyCheck hm) ?_ fun _ => trivial
  intro empty hempty
  refine Prog.wpr_guard (fun _ => trivial) fun hne => hrest fun _ => hempty ?_
  simpa using hne

theorem emptyCallback_total (e : DirEntry) (block off : Nat) (acc : Bool) :
    ∃ r, emptyCallback e block off acc = some r := by
  unfold emptyCallback
  split
  · exact ⟨_, rfl⟩
  · split
    · exact ⟨_, rfl⟩
    · exact ⟨_, rfl⟩

/-- The emptiness check finds a record other than `.` and `..`. -/
theorem runs_emptyCheck (h : g.Consistent t) {i : Nat} (hlive : t.ibit i = true)
    (hdir : (t.ino i).fileType = .directory) {k : Nat × Nat} {e : DirEntry} (hr : t.Rec i k e)
    (hlabel : e.label ≠ [dot] ∧ e.label ≠ [dot, dot]) :
    Prog.Runs g.Holds (g.directoryHandler.iterate (t.ino i) g.inodeHandler emptyCallback true)
      t.toView false t.toView := by
  obtain ⟨⟨empty, stop⟩, hfold⟩ := @foldBlocks_total _ emptyCallback t.data (t.content i) true
    fun b _ x _ acc => emptyCallback_total x.2 b x.1 acc
  have hrun := runs_iterate (h.owning.mapped i hlive)
    (fun b hb => (h.parsed i hlive hdir b hb).complete) hfold
  cases empty with
  | false => exact hrun
  | true =>
      obtain ⟨-, -, hb, hmem, hfree⟩ := View.rec_iff_read.mp hr
      have hpassed := foldBlocks_empty hfold k.1 hb _ hmem
      obtain ⟨-, hread, -⟩ := Block.recordsFrom_sound hmem
      rw [hread] at hpassed hfree hlabel
      rcases passedOver_iff.mp hpassed with hp | hp
      · rw [hfree] at hp
        cases hp
      · exact absurd hp (not_or.mpr hlabel)

/-- A directory with another record is refused. -/
theorem unlink_not_empty (hs : g.Rep s t) (h : g.Consistent t) {i : Nat}
    (hlive : t.ibit i = true) (hdir : (t.ino i).fileType = .directory) {k : Nat × Nat}
    {e : DirEntry} (hr : t.Rec i k e) (hlabel : e.label ≠ [dot] ∧ e.label ≠ [dot, dot])
    {parent : INode} {p b off : Nat} {notEmpty : FSError} :
    unlink (t.ino i) i parent p b off notEmpty now s = .err notEmpty s := by
  obtain ⟨d, hd, -⟩ := runs_emptyCheck h hlive hdir hr hlabel s.device hs.1
  have hcheck : onDevice (s.format.directoryHandler.iterate (t.ino i) s.format.inodeHandler
      emptyCallback true) s = .ok false s := by
    rw [hs.2]
    exact onDevice_of_value (readOnly_iterateBlocks _ _ _ _ _ _) (congrArg Outcome.value? hd)
  refine (congrFun (if_pos hdir) s).trans ?_
  exact Prog.bind_of_ok hcheck _

end Geom

open Geom in
/-- `delete` on a consistent state: when it returns, it has removed the record that the path
leads to and nothing else; a directory that lists anything but `.` and `..` is refused. -/
theorem delete_spec {g : Geom} {s : FFS} {t : St} (hs : g.Rep s t) (h : g.Consistent t)
    (path : Str) (now : UInt64) :
    (∀ s', delete path now s = .ok () s' → ∃ r t',
      s.resolve (Path.components path) false = some r ∧ LeadsTo s t path r ∧ g.Rep s' t' ∧
      Deleted t.toView t'.toView r.parentInodeIndex (r.dirEntryBlockIndex, r.dirEntryOffset)
        r.dirEntry now) ∧
    (∀ r, s.resolve (Path.components path) false = some r → r.targetInodeIndex ≠ 0 →
      r.targetInode.fileType = .directory →
      (∃ x ∈ t.liveRecords r.targetInodeIndex,
        x.2.1.label ≠ [dot] ∧ x.2.1.label ≠ [dot, dot]) →
      delete path now s = .err (.directoryNotEmpty path) s) := by
  -- short of the root, `delete` is `unlink` at the record that the path leads to
  have hunlink : ∀ r, s.resolve (Path.components path) false = some r →
      r.targetInodeIndex ≠ 0 → LeadsTo s t path r ∧
      delete path now s = unlink (t.ino r.dirEntry.inode) r.dirEntry.inode
        (t.ino r.parentInodeIndex) r.parentInodeIndex r.dirEntryBlockIndex r.dirEntryOffset
        (.directoryNotEmpty path) now s := by
    intro r hr hne
    have hleads := leadsTo_of_resolve hs h hr hne
    refine ⟨hleads, ?_⟩
    have hparent : (s.format.inodeHandler.readInode r.parentInodeIndex s.device).value? =
        some (t.ino r.parentInodeIndex) := by
      obtain ⟨d, hd, -⟩ := runs_readInode
        (h.owning.ibit_lt _ hleads.record.live) s.device hs.1
      rw [hs.2]
      exact congrArg Outcome.value? hd
    rw [delete_eq hr hparent (by rw [hs.2]; exact hne), hleads.inode, hleads.target]
  constructor
  · intro s' hrun
    obtain ⟨f, s₁, hf, hrest⟩ := Prog.of_ok_bind hrun
    cases hf
    obtain ⟨r, s₂, hres, -⟩ := Prog.of_ok_bind hrest
    obtain ⟨rfl, hr⟩ := (wp_readOnly (readOnly_resolve _ _ _ _ _)).of_ok hres
    by_cases hroot : r.targetInodeIndex = 0
    · rw [delete_root hr (by rw [hs.2]; exact hroot)] at hrun
      cases hrun
    obtain ⟨hleads, heq⟩ := hunlink r hr hroot
    rw [heq] at hrun
    obtain ⟨t', hs', hdel⟩ := (@wpr_unlinkAt g t now (view_ino_inRange hs.1) h
      r.parentInodeIndex (r.dirEntryBlockIndex, r.dirEntryOffset) r.dirEntry hleads.record
      (.directoryNotEmpty path)).of_ok hs hrun
    exact ⟨r, t', hr, hleads, hs', hdel⟩
  · intro r hr hne hdir hother
    obtain ⟨hleads, heq⟩ := hunlink r hr hne
    have hlive := (h.typed hleads.record).1
    obtain ⟨x, hx, hlabel⟩ := hother
    rw [hleads.inode] at hdir
    rw [hleads.target] at hlive heq
    have hrec := ((View.mem_liveRecords hlive hdir).mp hx).1
    rw [heq]
    exact unlink_not_empty hs h hlive hdir hrec hlabel

/-- The blocks of the directories are regular; this can be computed. -/
def FFS.RegularDirs (s : FFS) : Prop :=
  ∀ d < s.format.inodeAllocator.maxIndex, s.view.ibit d = true →
    (s.view.ino d).fileType = .directory → ∀ b ∈ s.view.content d, (s.view.data b).Regular

instance (s : FFS) : Decidable s.RegularDirs := inferInstanceAs (Decidable (∀ _ < _, _))

/-- `/d` with one file `f`: the file can be deleted, the directory cannot. -/
theorem delete_spec_nested : ∃ (g : Geom) (s₀ s s' : FFS) (t t' : St) (r : ResolutionResult),
    start 0 (MemoryDevice.empty 14) = some s₀ ∧ Run (fun s op => op.Tame s) s₀ s ∧
    g.Rep s t ∧ g.Consistent t ∧
    delete [47, 100, 47, 102] 0 s = .ok () s' ∧ g.Rep s' t' ∧
    Geom.LeadsTo s t [47, 100, 47, 102] r ∧
    Geom.Deleted t.toView t'.toView r.parentInodeIndex
      (r.dirEntryBlockIndex, r.dirEntryOffset) r.dirEntry 0 ∧
    delete [47, 100] 0 s = .err (.directoryNotEmpty [47, 100]) s := by
  have hcalls : ((start 0 (MemoryDevice.empty 14)).bind
      (checked (fun s op => op.Tame s) [.createDirectory [47, 100] 0,
        .createFile [47, 100, 47, 102] 0])).any (fun s =>
        decide s.Shallow && decide s.RegularDirs &&
        (delete [47, 100, 47, 102] 0 s).value?.isSome &&
        (s.resolve (Path.components [47, 100]) false).any fun r =>
          r.targetInodeIndex != 0 && r.targetInode.fileType == .directory &&
          (s.view.liveRecords r.targetInodeIndex).any fun x =>
            decide (x.2.1.label ≠ [dot] ∧ x.2.1.label ≠ [dot, dot])) = true := by
    decide +kernel
  obtain ⟨s, hs, hfinal⟩ := (Option.any_eq_true _ _).mp hcalls
  obtain ⟨s₀, hstart, hchecked⟩ := Option.bind_eq_some_iff.mp hs
  simp only [Bool.and_eq_true, decide_eq_true_eq, beq_iff_eq, bne_iff_ne, Option.any_eq_true,
    List.any_eq_true, Option.isSome_iff_exists, Outcome.value?_eq_some] at hfinal
  obtain ⟨⟨⟨hshallow, hregular⟩, _, s', hdelete⟩, q, hq, ⟨hne, hdir⟩, x, hx, hlabel⟩ := hfinal
  have hrun := run_of_checked hchecked
  obtain ⟨g, t, -, hrep, h, -⟩ := Geom.tame_run hstart hrun
  obtain ⟨hwf, htree, -, -⟩ := h.toIntact.shallow hrep hshallow
  have hcons : g.Consistent t := by
    refine hwf.consistent htree fun d hd hddir b hb => ?_
    have hlt : d < s.format.inodeAllocator.maxIndex := by
      rw [hrep.2]
      exact h.lt hd
    rw [FFS.RegularDirs, hrep.view_eq] at hregular
    exact (Block.regular_iff.mp (hregular d hlt hd hddir b hb)).1
  rw [hrep.view_eq] at hx
  obtain ⟨hok, -⟩ := delete_spec hrep hcons [47, 100, 47, 102] 0
  obtain ⟨r, t', -, hleads, hrep', hdel⟩ := hok s' hdelete
  exact ⟨g, s₀, s, s', t, t', r, hstart, hrun, hrep, hcons, hdelete, hrep', hleads, hdel,
    (delete_spec hrep hcons [47, 100] 0).2 q hq hne hdir ⟨x, hx, hlabel⟩⟩

end FerrisFS
