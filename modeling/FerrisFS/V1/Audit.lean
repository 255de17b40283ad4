import FerrisFS.Lib.Preorder
import FerrisFS.V1.Observe
import FerrisFS.V1.Order

/-!
# What a clean report says

The integrity checker walks over the directories from the root on, in preorder, and keeps
track of the inodes and blocks it has seen. If it finds nothing, on whatever device, every
inode and every block that it came to is in order.
-/

namespace FerrisFS

open Lib DirectoryHandler INodeTableHandler FormatV1

/-! ## Visited bits -/

/-- The bits of the list are set, and counted once each. -/
structure IntegrityCheckerBitmap.Marks (v : IntegrityCheckerBitmap) (l : List Nat) : Prop where
  bits : ∀ i, v.bitmap[i]? = some true ↔ i ∈ l
  count : v.count = l.toFinset.card

namespace IntegrityCheckerBitmap

variable {v v' : IntegrityCheckerBitmap} {l : List Nat} {i n : Nat} {seen : Bool}

theorem marks_new : (new n).Marks [] where
  bits i := by
    simp only [new, List.getElem?_replicate]
    split <;> simp
  count := rfl

/-- The bitmap after a visit. -/
def marked (v : IntegrityCheckerBitmap) (i : Nat) (seen : Bool) : IntegrityCheckerBitmap :=
  if seen then v else ⟨v.bitmap.set i true, v.count + 1⟩

theorem visit_of_lt {σ : Type} (hv : v.Marks l) (hi : i < v.bitmap.length) (s : σ) :
    (v.visit i : Prog FSError σ _) s = .ok (decide (i ∈ l), v.marked i (decide (i ∈ l))) s := by
  have hget : v.bitmap[i]? = some (decide (i ∈ l)) := by
    rw [List.getElem?_eq_getElem hi]
    have hbits := hv.bits i
    rw [List.getElem?_eq_getElem hi] at hbits
    congr 1
    by_cases hmem : i ∈ l
    · rw [decide_eq_true hmem]
      exact Option.some.inj (hbits.mpr hmem)
    · rw [decide_eq_false hmem]
      by_contra hne
      rw [Bool.not_eq_false] at hne
      exact hmem (hbits.mp (congrArg some hne))
  unfold visit visited marked
  rw [hget]
  by_cases hmem : i ∈ l <;> simp only [hmem, decide_true, decide_false] <;> rfl

theorem lt_of_visit {σ : Type} {s s' : σ}
    (hrun : (v.visit i : Prog FSError σ _) s = .ok (seen, v') s') : i < v.bitmap.length := by
  obtain ⟨b, s₁, hget, -⟩ := Prog.of_ok_bind hrun
  unfold visited at hget
  cases hb : v.bitmap[i]? with
  | none =>
      rw [hb] at hget
      cases hget
  | some x =>
      obtain ⟨hlt, -⟩ := List.getElem?_eq_some_iff.mp hb
      exact hlt

theorem Marks.marked (hv : v.Marks l) (hi : i < v.bitmap.length) :
    (v.marked i (decide (i ∈ l))).Marks (l ++ [i]) := by
  by_cases hmem : i ∈ l
  · simp only [IntegrityCheckerBitmap.marked, hmem, decide_true, if_true]
    refine ⟨fun j => (hv.bits j).trans ?_, ?_⟩
    · rw [List.mem_append, List.mem_singleton]
      exact ⟨.inl, fun h => h.elim id fun h => h ▸ hmem⟩
    · rw [hv.count, List.toFinset_append, List.toFinset_cons, List.toFinset_nil,
        insert_empty_eq, Finset.union_eq_left.mpr]
      exact Finset.singleton_subset_iff.mpr (List.mem_toFinset.mpr hmem)
  · simp only [IntegrityCheckerBitmap.marked, hmem, decide_false, Bool.false_eq_true, if_false]
    refine ⟨fun j => ?_, ?_⟩
    · rw [List.mem_append, List.mem_singleton, List.getElem?_set]
      by_cases hij : i = j
      · subst hij
        simp [hi]
      · rw [if_neg hij, hv.bits j]
        exact ⟨.inl, fun h => h.resolve_right (Ne.symm hij)⟩
    · have hdisj : Disjoint l.toFinset {i} :=
        Finset.disjoint_singleton_right.mpr fun h => hmem (List.mem_toFinset.mp h)
      rw [hv.count, List.toFinset_append, List.toFinset_cons, List.toFinset_nil, insert_empty_eq,
        Finset.card_union_of_disjoint hdisj, Finset.card_singleton]

/-- A visit adds the bit, and says whether it was there. -/
theorem Marks.visit {σ : Type} {s s' : σ} (hv : v.Marks l)
    (hrun : (v.visit i : Prog FSError σ _) s = .ok (seen, v') s') :
    s' = s ∧ seen = decide (i ∈ l) ∧ v'.Marks (l ++ [i]) := by
  have hi := lt_of_visit hrun
  rw [visit_of_lt hv hi] at hrun
  cases hrun
  exact ⟨rfl, rfl, hv.marked hi⟩

end IntegrityCheckerBitmap

/-! ## The walk -/

namespace View

variable {t : View} {d i : Nat}

/-- The inodes that the records of `d` call directories, `.` and `..` apart. -/
def subdirs (t : View) (d : Nat) : List Nat :=
  (List.range (t.ino d).blocks).flatMap fun k =>
    (t.data ((t.ino d).blockAt t.data k)).dirs (decide (k = 0))

/-- The other inodes that the records of `d` name. -/
def leaves (t : View) (d : Nat) : List Nat :=
  (List.range (t.ino d).blocks).flatMap fun k => (t.data ((t.ino d).blockAt t.data k)).leaves

/-- The walk from the directories `ds` comes to the directories `ns` and to the inodes `xs`. -/
def Walk (t : View) (ds ns xs : List Nat) : Prop := Preorder t.leaves t.subdirs ds ns xs

/-- The inodes that are met on the way down from the root. -/
inductive Walked (t : View) : Nat → Prop where
  | root : Walked t 0
  | step {d i : Nat} (hd : Walked t d) (hlive : t.ibit d = true)
      (hdir : (t.ino d).fileType = .directory) (hi : i ∈ t.leaves d ∨ i ∈ t.subdirs d) :
      Walked t i

/-- The inode and its blocks are allocated, and its pointers stay in the data region. -/
structure Checked (g : Geom) (t : View) (i : Nat) : Prop where
  live : t.ibit i = true
  lt : i < g.inodes
  mapped : (t.ino i).Mapped g t.data
  marked : ∀ b ∈ t.content i, t.dbit b = true

/-- The records of the directory are in order, and the leaves that they name are files. -/
structure CheckedDir (g : Geom) (t : View) (d : Nat) : Prop where
  dir : (t.ino d).fileType = .directory
  ordered : ∀ k < (t.ino d).blocks,
    (t.data ((t.ino d).blockAt t.data k)).InOrder g.inodes (decide (k = 0))
  files : ∀ i ∈ t.leaves d, (t.ino i).fileType = .file

end View

/-- The visited inodes are those of the list, the visited blocks are their content, and no
block was visited twice. -/
structure FormatV1.Visited.Saw (t : View) (v : Visited) (xs : List Nat) : Prop where
  inodes : v.inodes.Marks xs
  blocks : v.blocks.Marks (xs.flatMap t.content)
  nodup : (xs.flatMap t.content).Nodup

/-- The lookup of block `i` meets no pointer out of the data region. -/
structure INode.Reaches (g : Geom) (data : Region) (n : INode) (i : Nat) : Prop where
  lt : i < 4172
  indirect : 12 ≤ i → i < 76 → n.indirect < g.cap
  double : 76 ≤ i → n.double < g.cap ∧ data.ptr n.double ((i - 76) / 64) < g.cap

theorem INode.pointer_cases {data : Region} {n : INode} {p : Nat} (hp : p ∈ n.pointers data) :
    12 < n.blocks ∧ p = n.indirect ∨
      76 < n.blocks ∧ (p = n.double ∨ ∃ k < n.childCount, p = data.ptr n.double k) := by
  rcases List.mem_append.mp hp with hp | hp
  · split at hp
    · exact .inl ⟨‹_›, List.mem_singleton.mp hp⟩
    · cases hp
  · split at hp
    · refine .inr ⟨‹_›, (List.mem_cons.mp hp).imp id fun hp => ?_⟩
      obtain ⟨k, hk, heq⟩ := List.mem_map.mp hp
      exact ⟨k, List.mem_range.mp hk, heq.symm⟩
    · cases hp

/-- Every pointer block is met on the way to some block. -/
theorem INode.mapped_of_reaches {g : Geom} {data : Region} {n : INode}
    (h : ∀ i < n.blocks, n.Reaches g data i) (hcontent : ∀ b ∈ n.content data, b < g.cap) :
    n.Mapped g data where
  blocks_le := by
    rw [INode.maxBlocks_eq]
    by_contra hlt
    have := (h 4172 (by omega)).lt
    omega
  lt b hb := by
    rcases List.mem_append.mp hb with hb | hb
    · exact hcontent b hb
    rcases INode.pointer_cases hb with ⟨h12, rfl⟩ | ⟨h76, rfl | ⟨k, hk, rfl⟩⟩
    · exact (h 12 h12).indirect (Nat.le_refl _) (by decide)
    · exact ((h 76 h76).double (Nat.le_refl _)).1
    · simp only [INode.childCount] at hk
      have hreach := ((h (76 + 64 * k) (by omega)).double (Nat.le_add_right _ _)).2
      rwa [show (76 + 64 * k - 76) / 64 = k by omega] at hreach

namespace Geom

/-- What can be looked up in the bitmaps: the inodes that are met have a bit, and the bit behind
the last block is clear where an inode has that block. -/
structure Legible (g : Geom) (t : View) : Prop where
  inode : ∀ i, t.Walked i → i < g.inodes → i < 2048 * g.inodeBitmapBlocks
  block : ∀ i, t.ibit i = true → g.cap ∈ t.content i → t.dbit g.cap = false

variable {g : Geom} {d d' : MemoryDevice} {v : View} {t : St} {i b p k last : Nat} {n : INode}
  {x : Bool}

/-! ## Answers -/

theorem of_resolveIndirect (hd : g.Holds d v)
    (hrun : g.inodeHandler.resolveIndirect p k d = .ok b d') :
    d' = d ∧ p < g.cap ∧ b = v.data.ptr p k := by
  obtain ⟨addr, d₁, hadd, hread⟩ := Prog.of_ok_bind hrun
  clear hrun
  unfold add32 Prog.checkedAdd at hadd
  split at hadd
  · cases hadd
    obtain ⟨buf, d₂, hbuf, hlast⟩ := Prog.of_ok_bind hread
    obtain ⟨rfl, hp, rfl⟩ := of_readData hd hbuf
    cases hlast
    exact ⟨rfl, hp, rfl⟩
  · cases hadd

/-- The block that a lookup in the pointer tree finds, whatever the tree holds. -/
theorem of_getBlock (hd : g.Holds d v) (hrun : g.inodeHandler.getBlock n i d = .ok b d') :
    d' = d ∧ b = n.blockAt v.data i ∧ n.Reaches g v.data i := by
  obtain ⟨hmax, hsecond⟩ := Prog.of_ok_guard hrun
  obtain ⟨-, hthird⟩ := Prog.of_ok_guard hsecond
  clear hrun hsecond
  rw [INode.maxBlocks_eq] at hmax
  have hlt : i < 4172 := Nat.not_le.mp hmax
  split at hthird
  · rename_i h12
    cases hthird
    have h12 : i < 12 := h12
    exact ⟨rfl, (INode.blockAt_direct h12).symm, hlt, by omega, by omega⟩
  · rename_i h12
    dsimp only at hthird
    split at hthird
    · rename_i hind
      have h76 : i < 76 := by
        simp only [INode.DIRECT_COUNT, INode.indirectCount_eq] at hind h12
        omega
      obtain ⟨rfl, hp, rfl⟩ := of_resolveIndirect hd hthird
      exact ⟨rfl, (INode.blockAt_indirect h12 h76).symm, hlt, fun _ _ => hp, by omega⟩
    · rename_i hind
      have h76 : ¬ i < 76 := by
        simp only [INode.DIRECT_COUNT, INode.indirectCount_eq] at hind h12
        omega
      split at hthird
      · obtain ⟨q, d₁, hq, hlast⟩ := Prog.of_ok_bind hthird
        obtain ⟨rfl, hp, rfl⟩ := of_resolveIndirect hd hq
        obtain ⟨rfl, hc, rfl⟩ := of_resolveIndirect hd hlast
        have hsub : i - 12 - 64 = i - 76 := by omega
        refine ⟨rfl, ?_, hlt, by omega, fun _ => ⟨hp, ?_⟩⟩
        · rw [INode.blockAt_double h76]
          simp only [INode.DIRECT_COUNT, INode.indirectCount_eq, hsub]
        · simpa only [INode.DIRECT_COUNT, INode.indirectCount_eq, hsub] using hc
      · cases hthird

theorem of_readInode (hd : g.Holds d v) (hrun : g.inodeHandler.readInode i d = .ok n d') :
    d' = d ∧ i < g.inodes ∧ n = v.ino i := by
  by_cases hi : i < g.inodes
  · obtain ⟨d₁, hok, -⟩ := runs_readInode hi d hd
    have hsame := (readOnly_readInode g.inodeHandler i).of_ok hrun
    rw [hok] at hrun
    cases hrun
    exact ⟨hsame, hi, rfl⟩
  · obtain ⟨max, d₁, hmul, hguard⟩ := Prog.of_ok_bind hrun
    rw [mul32_inodes] at hmul
    cases hmul
    exact absurd (not_ge_inodes.mp (Prog.of_ok_guard hguard).1) hi

theorem of_isAllocated_inode (hd : g.Holds d v) (hi : i ≤ g.inodes)
    (hbits : i < 2048 * g.inodeBitmapBlocks)
    (hrun : (g.inodeAllocator last).isAllocated i d = .ok x d') : d' = d ∧ x = v.ibit i := by
  rw [BitmapAllocator.isAllocated_eq hd.inodeBitmap hi hbits] at hrun
  cases hrun
  refine ⟨rfl, ?_⟩
  rw [← hd.2]
  simp only [view, hbits, decide_true, Bool.true_and]
  rfl

theorem of_isAllocated_data (hd : g.Holds d v) (hb : b ≤ g.cap)
    (hrun : (g.blockAllocator last).isAllocated b d = .ok x d') : d' = d ∧ x = v.dbit b := by
  have hbits : b < 2048 * g.blockBitmapBlocks := by
    have h1 := g.blockBitmap_covers
    have h2 := g.dataStart_add_cap
    have h3 : 0 < g.dataStart := by
      simp only [dataStart, inodeTableStart, blockBitmapStart]
      omega
    omega
  rw [BitmapAllocator.isAllocated_eq hd.blockBitmap hb hbits] at hrun
  cases hrun
  refine ⟨rfl, ?_⟩
  rw [← hd.2]
  simp only [view, hbits, decide_true, Bool.true_and]
  rfl

/-! ## What the parts of the checker leave alone -/

theorem readOnly_visit {σ : Type} (vis : IntegrityCheckerBitmap) (i : Nat) :
    Prog.ReadOnly (vis.visit i : Prog FSError σ _) :=
  .bind (.unwrap _) fun _ => .ite (.pure _) (.pure _)

theorem readOnly_inodeAllocation {f : FormatV1} {vis : IntegrityCheckerBitmap} :
    Prog.ReadOnly (checkIntegrityInodeAllocation f i vis) :=
  .bind (readOnly_isAllocated _ _) fun _ =>
    .ite (.pure _) (.bind (readOnly_visit _ _) fun _ => .pure _)

theorem readOnly_findUnreachable {differ : Bool} {a : BitmapAllocator}
    {vis : IntegrityCheckerBitmap} {error : Nat → V1IntegrityError} {count : Nat} :
    Prog.ReadOnly (findUnreachable differ a vis error count) := by
  have hsearch : ∀ is, Prog.ReadOnly (unreachable a vis error is) := by
    intro is
    induction is with
    | nil => exact .pure _
    | cons i is ih =>
        have hend : ∀ lost : Bool, Prog.ReadOnly (do
            let errors ← unreachable a vis error is
            pure (if lost then error i :: errors else errors)) :=
          fun _ => .bind ih fun _ => .pure _
        refine .bind (readOnly_isAllocated a i) fun _ => .ite ?_ (hend _)
        exact .bind (.unwrap _) fun _ => hend _
  exact .ite (hsearch _) (.pure _)

/-- Errors that were found stay. -/
theorem errors_directoryBlocks {f : FormatV1} {ind : Nat} {is : List Nat} {s s' : DirectoryScan}
    (hrun : checkDirectoryBlocks f n ind is s d = .ok s' d') (hclean : s'.errors = []) :
    s.errors = [] := by
  induction is generalizing s d with
  | nil =>
      cases hrun
      exact hclean
  | cons k is ih =>
      obtain ⟨b, d₁, -, h₁⟩ := Prog.of_ok_bind hrun
      obtain ⟨allocated, d₂, -, h₂⟩ := Prog.of_ok_bind h₁
      clear hrun h₁
      split at h₂
      · have herrors := ih h₂
        simp at herrors
      · obtain ⟨⟨seen, blocks⟩, d₃, -, h₃⟩ := Prog.of_ok_bind h₂
        obtain ⟨⟨entryErrors, dirs, others⟩, d₄, -, h₄⟩ := Prog.of_ok_bind h₃
        have herrors := ih h₄
        simp only [List.append_eq_nil_iff] at herrors
        exact herrors.1.1.1

theorem of_checkedSub {x y r : Nat} (hrun : (Prog.checkedSub x y : DevM Nat) d = .ok r d') :
    d' = d ∧ r = x - y := by
  unfold Prog.checkedSub at hrun
  split at hrun
  · cases hrun
    exact ⟨rfl, rfl⟩
  · cases hrun

/-! ## One inode -/

variable {ind : Nat} {m is : List Nat} {vis vis' : IntegrityCheckerBitmap}

theorem le_of_blockErrors {max : Nat} (h : blockErrors ind k b max = []) : b ≤ max := by
  unfold blockErrors at h
  split at h
  · cases h
  · split at h
    · cases h
    · exact Nat.not_lt.mp ‹_›

/-- One more block was visited for the first time. -/
theorem nodup_snoc (hm : m.Nodup) (hb : b ∉ m) : (m ++ [b]).Nodup := by
  refine List.nodup_append.mpr ⟨hm, List.nodup_singleton b, ?_⟩
  rintro x hx y hy rfl
  rw [List.mem_singleton] at hy
  exact hb (hy ▸ hx)

theorem inodeBlocks_clean (hd : g.Holds d v) (hvis : vis.Marks m) (hm : m.Nodup)
    (hrun : checkInodeBlocks (g.format t) n ind is vis d = .ok ([], vis') d') :
    d' = d ∧ vis'.Marks (m ++ is.map (n.blockAt v.data)) ∧
      (m ++ is.map (n.blockAt v.data)).Nodup ∧
      ∀ k ∈ is, (n.blockAt v.data k ≤ g.cap ∧ v.dbit (n.blockAt v.data k) = true) ∧
        n.Reaches g v.data k := by
  induction is generalizing vis m with
  | nil =>
      cases hrun
      refine ⟨rfl, ?_, ?_, fun k hk => absurd hk List.not_mem_nil⟩
      · rw [List.map_nil, List.append_nil]
        exact hvis
      · rw [List.map_nil, List.append_nil]
        exact hm
  | cons k is ih =>
      obtain ⟨b, d₁, hget, h₁⟩ := Prog.of_ok_bind hrun
      obtain ⟨allocated, d₂, halloc, h₂⟩ := Prog.of_ok_bind h₁
      obtain ⟨⟨seen, vis₁⟩, d₃, hvisit, h₃⟩ := Prog.of_ok_bind h₂
      obtain ⟨⟨errors, vis₂⟩, d₄, hrest, hlast⟩ := Prog.of_ok_bind h₃
      clear hrun h₁ h₂ h₃
      obtain ⟨hreply, rfl⟩ := Outcome.ok.inj hlast
      obtain ⟨herrors, rfl⟩ := Prod.mk.inj hreply
      simp only [List.append_eq_nil_iff] at herrors
      obtain ⟨⟨⟨hbound, hmarked⟩, hfirst⟩, rfl⟩ := herrors
      obtain ⟨rfl, rfl, hreach⟩ := of_getBlock hd hget
      have hle := le_of_blockErrors hbound
      obtain ⟨rfl, rfl⟩ := of_isAllocated_data hd hle halloc
      obtain ⟨rfl, rfl, hvis₁⟩ := hvis.visit hvisit
      have hnew : n.blockAt v.data k ∉ m := fun h => by simp [h] at hfirst
      have hset : v.dbit (n.blockAt v.data k) = true := by
        by_contra h
        simp [h] at hmarked
      obtain ⟨hsame, hvis', hnd, hall⟩ := ih hvis₁ (nodup_snoc hm hnew) hrest
      rw [List.append_assoc] at hvis' hnd
      refine ⟨hsame, hvis', hnd, fun j hj => ?_⟩
      rcases List.mem_cons.mp hj with rfl | hj
      · exact ⟨⟨hle, hset⟩, hreach⟩
      · exact hall j hj

theorem inodeAllocation_clean (hd : g.Holds d v) (hi : i ≤ g.inodes)
    (hbits : i < 2048 * g.inodeBitmapBlocks) (hvis : vis.Marks m)
    (hrun : checkIntegrityInodeAllocation (g.format t) i vis d = .ok ([], vis') d') :
    d' = d ∧ v.ibit i = true ∧ vis'.Marks (m ++ [i]) := by
  obtain ⟨allocated, d₁, halloc, hrest⟩ := Prog.of_ok_bind hrun
  obtain ⟨rfl, rfl⟩ := of_isAllocated_inode hd hi hbits halloc
  split at hrest
  · cases hrest
  · rename_i hset
    obtain ⟨⟨seen, vis₁⟩, d₂, hvisit, hlast⟩ := Prog.of_ok_bind hrest
    obtain ⟨rfl, -, hvis₁⟩ := hvis.visit hvisit
    cases hlast
    exact ⟨rfl, not_not.mp hset, hvis₁⟩

/-- The content of an inode that was just visited. -/
theorem saw_snoc {w : Visited} {xs : List Nat} (hi : w.inodes.Marks (xs ++ [i]))
    (hb : w.blocks.Marks (xs.flatMap v.content ++ v.content i))
    (hnd : (xs.flatMap v.content ++ v.content i).Nodup) : w.Saw v (xs ++ [i]) := by
  have heq : (xs ++ [i]).flatMap v.content = xs.flatMap v.content ++ v.content i := by
    simp
  exact ⟨hi, by rw [heq]; exact hb, by rw [heq]; exact hnd⟩

variable {w w' : Visited} {xs ds : List Nat}

/-- A leaf at which nothing is found. -/
theorem other_clean (hd : g.Holds d v) (hl : v.ibit i = true → g.cap ∈ v.content i →
      v.dbit g.cap = false) (hbits : i < g.inodes → i < 2048 * g.inodeBitmapBlocks)
    (hw : w.Saw v xs) (hrun : checkOther (g.format t) i w d = .ok ([], w') d') :
    d' = d ∧ w'.Saw v (xs ++ [i]) ∧ v.Checked g i ∧ (v.ino i).fileType = .file := by
  obtain ⟨⟨errors, inodes⟩, d₁, halloc, h₁⟩ := Prog.of_ok_bind hrun
  obtain ⟨⟨errors', blocks⟩, d₂, hinode, hlast⟩ := Prog.of_ok_bind h₁
  clear hrun h₁
  obtain ⟨hreply, rfl⟩ := Outcome.ok.inj hlast
  obtain ⟨herrors, rfl⟩ := Prod.mk.inj hreply
  obtain ⟨rfl, rfl⟩ := List.append_eq_nil_iff.mp herrors
  obtain rfl := readOnly_inodeAllocation.of_ok halloc
  obtain ⟨n, d₃, hread, h₂⟩ := Prog.of_ok_bind hinode
  clear hinode
  obtain ⟨rfl, hlt, rfl⟩ := of_readInode hd hread
  obtain ⟨⟨errors, blocks'⟩, d₄, hblocks, hlast⟩ := Prog.of_ok_bind h₂
  clear h₂
  obtain ⟨hreply, rfl⟩ := Outcome.ok.inj hlast
  obtain ⟨herrors, rfl⟩ := Prod.mk.inj hreply
  simp only [List.append_eq_nil_iff] at herrors
  obtain ⟨⟨-, htype⟩, rfl⟩ := herrors
  obtain ⟨-, hlive, hmarks⟩ :=
    inodeAllocation_clean hd (Nat.le_of_lt hlt) (hbits hlt) hw.inodes halloc
  obtain ⟨hsame, hvis, hnd, hall⟩ := inodeBlocks_clean hd hw.blocks hw.nodup hblocks
  have hfile : (v.ino i).fileType = .file := by
    by_contra h
    simp [h] at htype
  have hblocks : ∀ b ∈ v.content i, b < g.cap ∧ v.dbit b = true := by
    intro b hb
    obtain ⟨k, hk, rfl⟩ := INode.mem_content.mp hb
    obtain ⟨⟨hle, hset⟩, -⟩ := hall k (List.mem_range.mpr hk)
    refine ⟨Nat.lt_of_le_of_ne hle fun heq => ?_, hset⟩
    rw [heq, hl hlive (heq ▸ hb)] at hset
    cases hset
  refine ⟨hsame, saw_snoc hmarks hvis hnd, ⟨hlive, hlt, ?_, fun b hb => (hblocks b hb).2⟩, hfile⟩
  exact INode.mapped_of_reaches (fun k hk => (hall k (List.mem_range.mpr hk)).2)
    fun b hb => (hblocks b hb).1

theorem others_clean (hd : g.Holds d v)
    (hl : ∀ i ∈ is, v.ibit i = true → g.cap ∈ v.content i → v.dbit g.cap = false)
    (hbits : ∀ i ∈ is, i < g.inodes → i < 2048 * g.inodeBitmapBlocks) (hw : w.Saw v xs)
    (hrun : checkChildren (checkOther (g.format t)) is w d = .ok ([], w') d') :
    d' = d ∧ w'.Saw v (xs ++ is) ∧ ∀ i ∈ is, v.Checked g i ∧ (v.ino i).fileType = .file := by
  induction is generalizing w xs with
  | nil =>
      cases hrun
      rw [List.append_nil]
      exact ⟨rfl, hw, fun i hi => absurd hi List.not_mem_nil⟩
  | cons i is ih =>
      obtain ⟨⟨errors, w₁⟩, d₁, hcheck, h₁⟩ := Prog.of_ok_bind hrun
      obtain ⟨⟨errors', w₂⟩, d₂, hrest, hlast⟩ := Prog.of_ok_bind h₁
      clear hrun h₁
      obtain ⟨hreply, rfl⟩ := Outcome.ok.inj hlast
      obtain ⟨herrors, rfl⟩ := Prod.mk.inj hreply
      obtain ⟨rfl, rfl⟩ := List.append_eq_nil_iff.mp herrors
      obtain ⟨rfl, hw₁, hchecked⟩ := other_clean hd (hl i List.mem_cons_self)
        (hbits i List.mem_cons_self) hw hcheck
      obtain ⟨hsame, hw', hall⟩ := ih (fun j hj => hl j (List.mem_cons_of_mem _ hj))
        (fun j hj => hbits j (List.mem_cons_of_mem _ hj)) hw₁ hrest
      rw [List.append_assoc] at hw'
      refine ⟨hsame, hw', fun j hj => ?_⟩
      rcases List.mem_cons.mp hj with rfl | hj
      · exact hchecked
      · exact hall j hj

/-! ## Directories -/

/-- What a scan of the blocks `is` of a directory adds, if nothing is found. -/
theorem directoryBlocks_clean {s s' : DirectoryScan} (hd : g.Holds d v) (hvis : s.blocks.Marks m)
    (hm : m.Nodup) (hrun : checkDirectoryBlocks (g.format t) n ind is s d = .ok s' d')
    (hclean : s'.errors = []) : d' = d ∧ s.errors = [] ∧
      s'.blocks.Marks (m ++ is.map (n.blockAt v.data)) ∧
      (m ++ is.map (n.blockAt v.data)).Nodup ∧
      s'.childDirs = s.childDirs ++
        is.flatMap (fun k => (v.data (n.blockAt v.data k)).dirs (decide (k = 0))) ∧
      s'.childOthers = s.childOthers ++
        is.flatMap (fun k => (v.data (n.blockAt v.data k)).leaves) ∧
      ∀ k ∈ is, (n.blockAt v.data k < g.cap ∧ v.dbit (n.blockAt v.data k) = true) ∧
        n.Reaches g v.data k ∧
        (v.data (n.blockAt v.data k)).InOrder g.inodes (decide (k = 0)) := by
  induction is generalizing s m with
  | nil =>
      cases hrun
      simp only [List.map_nil, List.flatMap_nil, List.append_nil]
      exact ⟨trivial, hclean, hvis, hm, trivial, trivial, fun k hk => absurd hk List.not_mem_nil⟩
  | cons k is ih =>
      obtain ⟨b, d₁, hget, h₁⟩ := Prog.of_ok_bind hrun
      obtain ⟨rfl, rfl, hreach⟩ := of_getBlock hd hget
      obtain ⟨allocated, d₂, halloc, h₂⟩ := Prog.of_ok_bind h₁
      obtain rfl := (readOnly_isAllocated _ _).of_ok halloc
      clear hrun h₁
      split at h₂
      · -- an unallocated block is reported
        have herrors := errors_directoryBlocks h₂ hclean
        simp at herrors
      · rename_i hset
        obtain ⟨⟨seen, blocks⟩, d₃, hvisit, h₃⟩ := Prog.of_ok_bind h₂
        obtain ⟨⟨entryErrors, dirs, others⟩, d₄, hentries, h₄⟩ := Prog.of_ok_bind h₃
        clear h₂ h₃
        obtain ⟨rfl, rfl, hvis₁⟩ := hvis.visit hvisit
        have herrors := errors_directoryBlocks h₄ hclean
        simp only [List.append_eq_nil_iff] at herrors
        obtain ⟨⟨⟨herrors, hbound⟩, hfirst⟩, rfl⟩ := herrors
        have hle := le_of_blockErrors hbound
        obtain ⟨-, rfl⟩ := of_isAllocated_data hd hle halloc
        obtain ⟨rfl, hb, horder, rfl, rfl⟩ := entries_clean hd hentries
        have hnew : n.blockAt v.data k ∉ m := fun h => by simp [h] at hfirst
        obtain ⟨hsame, -, hvis', hnd, hdirs, hothers, hall⟩ :=
          ih (s := ⟨_, blocks, _, _⟩) hvis₁ (nodup_snoc hm hnew) h₄
        rw [List.append_assoc] at hvis' hnd
        refine ⟨hsame, herrors, hvis', hnd, ?_, ?_, fun j hj => ?_⟩
        · rw [hdirs, List.flatMap_cons, List.append_assoc]
        · rw [hothers, List.flatMap_cons, List.append_assoc]
        · rcases List.mem_cons.mp hj with rfl | hj
          · exact ⟨⟨hb, not_not.mp hset⟩, hreach, horder⟩
          · exact hall j hj

/-- What a check of the directories `ds` that finds nothing has come to, after `xs`. -/
def Passed (g : Geom) (v : View) (ds xs : List Nat) (w : Visited) : Prop :=
  ∃ ns ys, v.Walk ds ns ys ∧ w.Saw v (xs ++ ys) ∧ (∀ i ∈ ys, v.Checked g i) ∧
    ∀ i ∈ ns, v.CheckedDir g i

/-- Directories that are checked one after the other. -/
theorem dirs_clean {depth : Nat} (hd : g.Holds d v) (hw : w.Saw v xs)
    (hrec : ∀ i ∈ ds, ∀ w w' xs d', w.Saw v xs →
      checkIntegrityRecursive (g.format t) depth i w d = .ok ([], w') d' →
      d' = d ∧ g.Passed v [i] xs w')
    (hrun : checkChildren (checkIntegrityRecursive (g.format t) depth) ds w d =
      .ok ([], w') d') : d' = d ∧ g.Passed v ds xs w' := by
  induction ds generalizing w xs with
  | nil =>
      cases hrun
      refine ⟨rfl, [], [], .nil, ?_, fun i hi => absurd hi List.not_mem_nil,
        fun i hi => absurd hi List.not_mem_nil⟩
      rw [List.append_nil]
      exact hw
  | cons i ds ih =>
      obtain ⟨⟨errors, w₁⟩, d₁, hcheck, h₁⟩ := Prog.of_ok_bind hrun
      obtain ⟨⟨errors', w₂⟩, d₂, hrest, hlast⟩ := Prog.of_ok_bind h₁
      clear hrun h₁
      obtain ⟨hreply, rfl⟩ := Outcome.ok.inj hlast
      obtain ⟨herrors, rfl⟩ := Prod.mk.inj hreply
      obtain ⟨rfl, rfl⟩ := List.append_eq_nil_iff.mp herrors
      obtain ⟨rfl, ns, ys, hwalk, hw₁, hall, hdirs⟩ :=
        hrec i List.mem_cons_self _ _ _ _ hw hcheck
      obtain ⟨hsame, ns', ys', hwalk', hw', hall', hdirs'⟩ :=
        ih hw₁ (fun j hj => hrec j (List.mem_cons_of_mem _ hj)) hrest
      rw [List.append_assoc] at hw'
      refine ⟨hsame, ns ++ ns', ys ++ ys', hwalk.append hwalk', hw', ?_, ?_⟩
      · intro j hj
        rcases List.mem_append.mp hj with hj | hj
        · exact hall j hj
        · exact hall' j hj
      · intro j hj
        rcases List.mem_append.mp hj with hj | hj
        · exact hdirs j hj
        · exact hdirs' j hj

/-- A directory at which nothing is found, with all that is below it. -/
theorem recursive_clean {depth : Nat} (hd : g.Holds d v) (hl : g.Legible v)
    (hwalked : v.Walked i) (hw : w.Saw v xs)
    (hrun : checkIntegrityRecursive (g.format t) depth i w d = .ok ([], w') d') :
    d' = d ∧ g.Passed v [i] xs w' := by
  induction depth generalizing i w w' xs d' with
  | zero => cases hrun
  | succ depth ih =>
      obtain ⟨⟨errors, inodes⟩, d₁, halloc, h₁⟩ := Prog.of_ok_bind hrun
      obtain ⟨n, d₂, hread, h₂⟩ := Prog.of_ok_bind h₁
      obtain ⟨scan, d₃, hscan, h₃⟩ := Prog.of_ok_bind h₂
      obtain ⟨⟨otherErrors, w₁⟩, d₄, hothers, h₄⟩ := Prog.of_ok_bind h₃
      obtain ⟨⟨dirErrors, w₂⟩, d₅, hdirs, hlast⟩ := Prog.of_ok_bind h₄
      clear hrun h₁ h₂ h₃ h₄
      obtain ⟨hreply, rfl⟩ := Outcome.ok.inj hlast
      obtain ⟨herrors, rfl⟩ := Prod.mk.inj hreply
      simp only [List.append_eq_nil_iff] at herrors
      obtain ⟨⟨hclean, rfl⟩, rfl⟩ := herrors
      obtain rfl := readOnly_inodeAllocation.of_ok halloc
      obtain ⟨rfl, hlt, rfl⟩ := of_readInode hd hread
      obtain ⟨rfl, herrors, hvis, hnd, hchildDirs, hchildOthers, hall⟩ :=
        directoryBlocks_clean hd hw.blocks hw.nodup hscan hclean
      obtain ⟨rfl, htype⟩ := List.append_eq_nil_iff.mp herrors
      obtain ⟨-, hlive, hmarks⟩ :=
        inodeAllocation_clean hd (Nat.le_of_lt hlt) (hl.inode i hwalked hlt) hw.inodes halloc
      have hdir : (v.ino i).fileType = .directory := by
        unfold directoryErrors at htype
        split at htype
        · cases htype
        · by_contra h
          rw [if_pos h] at htype
          cases htype
      have hblocks : ∀ k < (v.ino i).blocks,
          ((v.ino i).blockAt v.data k < g.cap ∧ v.dbit ((v.ino i).blockAt v.data k) = true) ∧
            (v.ino i).Reaches g v.data k ∧
            (v.data ((v.ino i).blockAt v.data k)).InOrder g.inodes (decide (k = 0)) :=
        fun k hk => hall k (List.mem_range.mpr hk)
      have hleaves : scan.childOthers = v.leaves i := hchildOthers
      have hsubdirs : scan.childDirs = v.subdirs i := hchildDirs
      rw [hleaves] at hothers
      rw [hsubdirs] at hdirs
      obtain ⟨rfl, hw₁, hfiles⟩ := others_clean hd (fun j _ => hl.block j)
        (fun j hj => hl.inode j (.step hwalked hlive hdir (.inl hj))) (saw_snoc hmarks hvis hnd)
        hothers
      obtain ⟨hsame, ns, ys, hwalk, hw', hchecked, hchecks⟩ := dirs_clean hd hw₁
        (fun j hj w w' xs d' => ih (.step hwalked hlive hdir (.inr hj))) hdirs
      refine ⟨hsame, i :: ns ++ [], i :: (v.leaves i ++ ys) ++ [], hwalk.cons .nil, ?_, ?_, ?_⟩
      · simpa using hw'
      · intro j hj
        simp only [List.append_nil, List.mem_cons, List.mem_append] at hj
        rcases hj with rfl | hj | hj
        · refine ⟨hlive, hlt, INode.mapped_of_reaches (fun k hk => (hblocks k hk).2.1) ?_, ?_⟩
          · intro b hb
            obtain ⟨k, hk, rfl⟩ := INode.mem_content.mp hb
            exact (hblocks k hk).1.1
          · intro b hb
            obtain ⟨k, hk, rfl⟩ := INode.mem_content.mp hb
            exact (hblocks k hk).1.2
        · exact (hfiles j hj).1
        · exact hchecked j hj
      · intro j hj
        simp only [List.append_nil, List.mem_cons] at hj
        rcases hj with rfl | hj
        · exact ⟨hdir, fun k hk => (hblocks k hk).2.2, fun l hl => (hfiles l hl).2⟩
        · exact hchecks j hj

/-! ## The whole device -/

/-- A search for lost bits that finds none. -/
theorem unreachable_clean {a : BitmapAllocator} {error : Nat → V1IntegrityError}
    (hrun : unreachable a vis error is d = .ok [] d') (hi : i ∈ is)
    (halloc : a.isAllocated i d = .ok true d) : vis.bitmap[i]? = some true := by
  induction is generalizing d' with
  | nil => cases hi
  | cons j is ih =>
      obtain ⟨allocated, d₁, hj, h₁⟩ := Prog.of_ok_bind hrun
      obtain rfl := (readOnly_isAllocated a j).of_ok hj
      clear hrun
      -- what is left when it is known whether the bit was lost
      have hend : ∀ {lost : Bool}, (do
          let errors ← unreachable a vis error is
          pure (if lost then error j :: errors else errors)) d₁ = .ok [] d' →
            lost = false ∧ unreachable a vis error is d₁ = .ok [] d' := by
        intro lost h
        obtain ⟨errors, d₂, hrest, hlast⟩ := Prog.of_ok_bind h
        obtain ⟨hreply, rfl⟩ := Outcome.ok.inj hlast
        cases lost with
        | true => cases hreply
        | false =>
            rw [if_neg Bool.false_ne_true] at hreply
            subst hreply
            exact ⟨rfl, hrest⟩
      dsimp only at h₁
      split at h₁
      · obtain ⟨seen, d₂, hseen, h₂⟩ := Prog.of_ok_bind h₁
        unfold IntegrityCheckerBitmap.visited at hseen
        cases hb : vis.bitmap[j]? with
        | none =>
            rw [hb] at hseen
            cases hseen
        | some x =>
            rw [hb] at hseen
            cases hseen
            obtain ⟨hfound, hrest⟩ := hend h₂
            rcases List.mem_cons.mp hi with rfl | hi
            · rw [Bool.not_eq_false'] at hfound
              rw [hb, hfound]
            · exact ih hrest hi
      · rename_i hclear
        obtain ⟨-, hrest⟩ := hend h₁
        rcases List.mem_cons.mp hi with rfl | hi
        · rw [halloc] at hj
          cases hj
          exact absurd rfl hclear
        · exact ih hrest hi

/-- The bits of a device end with its bitmap. -/
theorem Holds.ibit_lt (hd : g.Holds d v) (hi : v.ibit i = true) :
    i < 2048 * g.inodeBitmapBlocks := by
  rw [← hd.2] at hi
  simp only [view, Bool.and_eq_true, decide_eq_true_eq] at hi
  exact hi.1

theorem mem_allocated_inode (hd : g.Holds d v) :
    i ∈ (g.inodeAllocator last).allocated d ↔ i < g.inodes ∧ v.ibit i = true := by
  rw [← hd.2]
  simp only [BitmapAllocator.allocated, inodeAllocator, view, List.mem_filter, List.mem_range,
    Bool.and_eq_true, decide_eq_true_eq]
  constructor
  · intro h
    exact ⟨of_decide_eq_true h.2.1, h.1, h.2.2⟩
  · intro h
    exact ⟨h.2.1, decide_eq_true h.1, h.2.2⟩

theorem mem_allocated_data (hd : g.Holds d v) :
    b ∈ (g.blockAllocator last).allocated d ↔ b < g.cap ∧ v.dbit b = true := by
  rw [← hd.2]
  simp only [BitmapAllocator.allocated, blockAllocator, view, List.mem_filter, List.mem_range,
    Bool.and_eq_true, decide_eq_true_eq]
  constructor
  · intro h
    exact ⟨of_decide_eq_true h.2.1, h.1, h.2.2⟩
  · intro h
    exact ⟨h.2.1, decide_eq_true h.1, h.2.2⟩

/-- Where no lost bit is found, all set bits were visited: either the counts agree, or every
bit was looked up. -/
theorem all_visited {a : BitmapAllocator} {error : Nat → V1IntegrityError} {differ : Bool}
    {count : Nat} {l all : List Nat} (hvis : vis.Marks l) (hsub : ∀ i ∈ l, i ∈ all)
    (hnd : all.Nodup) (hcount : differ = false → all.length ≤ vis.count)
    (hall : ∀ i ∈ all, i < count ∧ a.isAllocated i d = .ok true d)
    (hrun : findUnreachable differ a vis error count d = .ok [] d') : ∀ i ∈ all, i ∈ l := by
  intro i hi
  cases differ with
  | false =>
      have hle : all.toFinset.card ≤ l.toFinset.card := by
        rw [List.toFinset_card_of_nodup hnd, ← hvis.count]
        exact hcount rfl
      have hsubset : l.toFinset ⊆ all.toFinset := by
        intro j hj
        exact List.mem_toFinset.mpr (hsub j (List.mem_toFinset.mp hj))
      have heq := Finset.eq_of_subset_of_card_le hsubset hle
      rw [← List.mem_toFinset, heq]
      exact List.mem_toFinset.mpr hi
  | true =>
      obtain ⟨hlt, halloc⟩ := hall i hi
      exact (hvis.bits i).mp (unreachable_clean hrun (List.mem_range.mpr hlt) halloc)

theorem nodup_allocated (a : BitmapAllocator) (d : MemoryDevice) : (a.allocated d).Nodup :=
  List.nodup_range.filter _

theorem isAllocated_of_mem {a : BitmapAllocator} (hw : a.Within d) (hi : i ∈ a.allocated d) :
    a.isAllocated i d = .ok true d := by
  simp only [BitmapAllocator.allocated, List.mem_filter, List.mem_range, Bool.and_eq_true,
    decide_eq_true_eq] at hi
  obtain ⟨hbits, hmax, hset⟩ := hi
  rw [BitmapAllocator.isAllocated_eq hw (Nat.le_of_lt hmax) hbits, hset]

theorem inodes_visited {error : Nat → V1IntegrityError} (hd : g.Holds d v) (hvis : vis.Marks xs)
    (hlive : ∀ i ∈ xs, i < g.inodes ∧ v.ibit i = true)
    (hrun : findUnreachable (decide (((g.inodeAllocator last).allocated d).length > vis.count))
      (g.inodeAllocator last) vis error g.inodes d = .ok [] d') :
    ∀ i < g.inodes, v.ibit i = true → i ∈ xs := by
  have hall := all_visited hvis (fun i hi => (mem_allocated_inode hd).mpr (hlive i hi))
    (nodup_allocated (g.inodeAllocator last) d) (fun hle => ?_) (fun i hi => ?_) hrun
  · exact fun i hlt hi => hall i ((mem_allocated_inode hd).mpr ⟨hlt, hi⟩)
  · exact Nat.not_lt.mp (of_decide_eq_false hle)
  · exact ⟨((mem_allocated_inode hd).mp hi).1, isAllocated_of_mem hd.inodeBitmap hi⟩

theorem blocks_visited {error : Nat → V1IntegrityError} (hd : g.Holds d v) (hvis : vis.Marks m)
    (hlive : ∀ b ∈ m, b < g.cap ∧ v.dbit b = true)
    (hrun : findUnreachable (decide (((g.blockAllocator last).allocated d).length ≠ vis.count))
      (g.blockAllocator last) vis error g.cap d = .ok [] d') :
    ∀ b < g.cap, v.dbit b = true → b ∈ m := by
  have hall := all_visited hvis (fun b hb => (mem_allocated_data hd).mpr (hlive b hb))
    (nodup_allocated (g.blockAllocator last) d) (fun heq => ?_) (fun b hb => ?_) hrun
  · exact fun b hlt hb => hall b ((mem_allocated_data hd).mpr ⟨hlt, hb⟩)
  · exact Nat.le_of_eq (not_not.mp (of_decide_eq_false heq))
  · exact ⟨((mem_allocated_data hd).mp hb).1, isAllocated_of_mem hd.blockBitmap hb⟩

/-- The numbers of set and of clear bits. -/
theorem count_clear {bit : Nat → Bool} {n : Nat} :
    (List.range n).countP bit + (List.range n).countP (fun i => !bit i) = n := by
  have hsum := List.length_eq_countP_add_countP bit (l := List.range n)
  rw [List.length_range] at hsum
  simpa using hsum.symm

/-- A list of the set bits. -/
theorem length_set {bit : Nat → Bool} {l : List Nat} {n : Nat} (hnd : l.Nodup)
    (hmem : ∀ i, i ∈ l ↔ i < n ∧ bit i = true) : l.length = (List.range n).countP bit := by
  have hperm : l.Perm ((List.range n).filter bit) := by
    refine (List.perm_ext_iff_of_nodup hnd (List.nodup_range.filter _)).mpr fun i => ?_
    rw [hmem, List.mem_filter, List.mem_range]
  rw [hperm.length_eq, List.countP_eq_length_filter]

/-- Everything that the checker looks for: a walk over the directories comes to all allocated
inodes, in whose contents all allocated blocks occur once, and the counts are right. -/
structure Verified (g : Geom) (t : St) (ns xs : List Nat) : Prop where
  walk : t.Walk [0] ns xs
  checked : ∀ i ∈ xs, t.Checked g i
  dirs : ∀ d ∈ ns, t.CheckedDir g d
  nodup : (xs.flatMap t.content).Nodup
  inodes : ∀ i < g.inodes, t.ibit i = true → i ∈ xs
  blocks : ∀ b < g.cap, t.dbit b = true → b ∈ xs.flatMap t.content
  freeInodes : t.freeInodes = (List.range g.inodes).countP fun i => !t.ibit i
  freeData : t.freeData = (List.range g.cap).countP fun b => !t.dbit b

theorem of_metadataErrors {sb : Superblock} {freeInodes freeBlocks : Nat}
    (h : metadataErrors sb freeInodes freeBlocks = []) :
    sb.freeInodes = freeInodes ∧ sb.freeData = freeBlocks := by
  obtain ⟨hinodes, hdata⟩ := List.append_eq_nil_iff.mp h
  constructor
  · by_contra hne
    rw [if_pos hne] at hinodes
    cases hinodes
  · by_contra hne
    rw [if_pos hne] at hdata
    cases hdata

theorem mul32_table : (mul32 g.inodeTableBlocks INode.inodesPerBlock : DevM Nat) d =
    .ok g.inodes d := mul32_inodes d

/-- A clean report of the checker can be trusted. -/
theorem checkDevice_clean (hd : g.Holds d t.toView) (hl : g.Legible t.toView)
    (hrun : checkDevice (g.format t) d = .ok [] d') : ∃ ns xs, g.Verified t ns xs := by
  have hinode := BitmapAllocator.countAllocated_eq
    (hd.inodeBitmap : (g.inodeAllocator t.lastInode).Within d) inodes_indexed
  have hdata := BitmapAllocator.countAllocated_eq
    (hd.blockBitmap : (g.blockAllocator t.lastData).Within d) blocks_indexed
  obtain ⟨ni, d₁, hni, h₁⟩ := Prog.of_ok_bind hrun
  clear hrun
  cases hinode.symm.trans hni
  obtain ⟨nb, d₂, hnb, h₂⟩ := Prog.of_ok_bind h₁
  clear h₁
  cases hdata.symm.trans hnb
  obtain ⟨inodeCount, d₃, hmul, h₃⟩ := Prog.of_ok_bind h₂
  clear h₂
  cases (mul32_table (g := g)).symm.trans hmul
  obtain ⟨freeInodes, d₄, hfi, h₄⟩ := Prog.of_ok_bind h₃
  clear h₃
  obtain ⟨blockCount, d₅, hbc, h₅⟩ := Prog.of_ok_bind h₄
  clear h₄
  obtain ⟨freeBlocks, d₆, hfb, h₆⟩ := Prog.of_ok_bind h₅
  clear h₅
  obtain ⟨rfl, rfl⟩ := of_checkedSub hfi
  obtain ⟨rfl, rfl⟩ := of_checkedSub hbc
  obtain ⟨rfl, rfl⟩ := of_checkedSub hfb
  obtain ⟨⟨errors, w⟩, d₇, hwalk, h₇⟩ := Prog.of_ok_bind h₆
  clear h₆
  obtain ⟨lostInodes, d₈, hli, h₈⟩ := Prog.of_ok_bind h₇
  clear h₇
  obtain ⟨lostBlocks, d₉, hlb, hlast⟩ := Prog.of_ok_bind h₈
  clear h₈
  have herrors := (Outcome.ok.inj hlast).1
  simp only [List.append_eq_nil_iff] at herrors
  obtain ⟨⟨⟨hmeta, rfl⟩, rfl⟩, rfl⟩ := herrors
  have hstart : (⟨.new g.inodes, .new g.cap⟩ : Visited).Saw t.toView [] :=
    ⟨IntegrityCheckerBitmap.marks_new, IntegrityCheckerBitmap.marks_new, List.nodup_nil⟩
  have hroot : checkIntegrityRecursive (g.format t) (g.inodes + 1) 0
      ⟨.new g.inodes, .new g.cap⟩ d₆ = .ok ([], w) d₇ := hwalk
  obtain ⟨rfl, ns, xs, hpre, hsaw, hchecked, hdirs⟩ :=
    recursive_clean hd hl .root hstart hroot
  rw [List.nil_append] at hsaw
  obtain rfl := readOnly_findUnreachable.of_ok hli
  have hsetInodes : ((g.inodeAllocator t.lastInode).allocated d₈).length =
      (List.range g.inodes).countP t.ibit :=
    length_set (nodup_allocated _ d₈) fun _ => mem_allocated_inode hd
  have hsetData : ((g.blockAllocator t.lastData).allocated d₈).length =
      (List.range g.cap).countP t.dbit :=
    length_set (nodup_allocated _ d₈) fun _ => mem_allocated_data hd
  have hclearInodes := @count_clear t.ibit g.inodes
  have hclearData := @count_clear t.dbit g.cap
  obtain ⟨hfreeInodes, hfreeData⟩ := of_metadataErrors hmeta
  have hfreeInodes : t.freeInodes =
      g.inodes - ((g.inodeAllocator t.lastInode).allocated d₈).length := hfreeInodes
  have hfreeData : t.freeData =
      g.cap - ((g.blockAllocator t.lastData).allocated d₈).length := hfreeData
  refine ⟨ns, xs, hpre, hchecked, hdirs, hsaw.nodup, ?_, ?_, by omega, by omega⟩
  · refine inodes_visited hd hsaw.inodes (fun i hi => ?_) hli
    exact ⟨(hchecked i hi).lt, (hchecked i hi).live⟩
  · refine blocks_visited hd hsaw.blocks (fun b hb => ?_) hlb
    obtain ⟨i, hi, hb⟩ := List.mem_flatMap.mp hb
    exact ⟨(hchecked i hi).mapped.content b hb, (hchecked i hi).marked b hb⟩

end Geom

end FerrisFS
