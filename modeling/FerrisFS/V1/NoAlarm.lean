import FerrisFS.V1.Audit

/-!
# No false alarms

Where a walk over the directories comes to nothing that is out of order, the integrity checker
comes to its end and finds nothing. The directories on a path are different ones, so that the
depth of the walk is at most the number of inodes.
-/

namespace FerrisFS

open Lib DirectoryHandler INodeTableHandler FormatV1

theorem IntegrityCheckerBitmap.marked_length (v : IntegrityCheckerBitmap) (i : Nat)
    (seen : Bool) : (v.marked i seen).bitmap.length = v.bitmap.length := by
  unfold marked
  split
  · rfl
  · exact List.length_set

theorem IntegrityCheckerBitmap.new_length (n : Nat) : n ≤ (new n).bitmap.length := by
  simp only [new, List.length_replicate, divCeil]
  omega

/-- The walk has come to `xs`, and the bitmaps have room for all inodes and blocks. -/
structure FormatV1.Visited.Tracks (g : Geom) (t : View) (w : Visited) (xs : List Nat) : Prop
    extends w.Saw t xs where
  inodeRoom : g.inodes ≤ w.inodes.bitmap.length
  blockRoom : g.cap ≤ w.blocks.bitmap.length

namespace Geom

variable {g : Geom} {v : View} {t : St} {i b : Nat} {n : INode} {m is xs ds ns ys : List Nat}
  {vis : IntegrityCheckerBitmap} {w : Visited}

theorem runs_visit (hv : vis.Marks m) (hi : i < vis.bitmap.length) :
    Prog.Runs g.Holds (vis.visit i) v (decide (i ∈ m), vis.marked i (decide (i ∈ m))) v :=
  fun d hd => ⟨d, IntegrityCheckerBitmap.visit_of_lt hv hi d, hd⟩

theorem blockErrors_of_lt {ind k : Nat} (hb : b < g.cap) : blockErrors ind k b g.cap = [] := by
  have hcap := g.cap_lt
  have hvalid : b ≠ INVALID_ADDRESS := by
    simp only [INVALID_ADDRESS]
    omega
  rw [blockErrors, if_neg hvalid, if_neg (Nat.not_lt.mpr (Nat.le_of_lt hb))]

/-- Blocks that are marked and were not visited yet. -/
theorem runs_inodeBlocks {ind : Nat} (hm : n.Mapped g v.data) (his : ∀ k ∈ is, k < n.blocks)
    (hmarked : ∀ k ∈ is, v.dbit (n.blockAt v.data k) = true) (hvis : vis.Marks m)
    (hroom : g.cap ≤ vis.bitmap.length) (hnd : (m ++ is.map (n.blockAt v.data)).Nodup) :
    ∃ vis', Prog.Runs g.Holds (checkInodeBlocks (g.format t) n ind is vis) v ([], vis') v ∧
      vis'.Marks (m ++ is.map (n.blockAt v.data)) ∧ g.cap ≤ vis'.bitmap.length := by
  induction is generalizing vis m with
  | nil =>
      refine ⟨vis, Prog.Runs.pure _ _, ?_, hroom⟩
      rw [List.map_nil, List.append_nil]
      exact hvis
  | cons k is ih =>
      have hk := his k List.mem_cons_self
      have hb := hm.content _ (INode.blockAt_mem_content hk)
      have hset := hmarked k List.mem_cons_self
      have hlt : n.blockAt v.data k < vis.bitmap.length := Nat.lt_of_lt_of_le hb hroom
      rw [List.map_cons, List.append_cons] at hnd
      have hnew : n.blockAt v.data k ∉ m := by
        intro hmem
        have hpart := (List.nodup_append.mp hnd).1
        exact (List.nodup_append.mp hpart).2.2 _ hmem _ (List.mem_singleton.mpr rfl) rfl
      obtain ⟨vis', hrest, hvis', hroom'⟩ := ih (fun j hj => his j (List.mem_cons_of_mem _ hj))
        (fun j hj => hmarked j (List.mem_cons_of_mem _ hj)) (hvis.marked hlt)
        (by rw [IntegrityCheckerBitmap.marked_length]; exact hroom) hnd
      refine ⟨vis', ?_, ?_, hroom'⟩
      · refine (runs_getBlock hk hm.blocks_le hm.pointers).bind ?_
        refine (runs_isAllocated_data hb).bind ?_
        refine (runs_visit hvis hlt).bind ?_
        refine hrest.bind ?_
        have hbound : blockErrors ind k (n.blockAt v.data k)
            (g.format t).blockAllocator.maxIndex = [] := blockErrors_of_lt hb
        rw [hbound, hset, decide_eq_false hnew]
        exact Prog.Runs.pure _ _
      · rw [List.map_cons, List.append_cons]
        exact hvis'

theorem runs_inodeAllocation (hi : i < g.inodes) (hbits : i < 2048 * g.inodeBitmapBlocks)
    (hlive : v.ibit i = true) (hvis : vis.Marks xs) (hroom : g.inodes ≤ vis.bitmap.length) :
    Prog.Runs g.Holds (checkIntegrityInodeAllocation (g.format t) i vis) v
      ([], vis.marked i (decide (i ∈ xs))) v := by
  refine (runs_isAllocated_inode hi hbits).bind ?_
  rw [hlive]
  refine Prog.Runs.guard (by decide) ?_
  exact (runs_visit hvis (Nat.lt_of_lt_of_le hi hroom)).bind (Prog.Runs.pure _ _)

theorem tracks_snoc {inodes blocks : IntegrityCheckerBitmap}
    (hnd : ((xs ++ [i]).flatMap v.content).Nodup) (hi : inodes.Marks (xs ++ [i]))
    (hb : blocks.Marks (xs.flatMap v.content ++ v.content i))
    (hri : g.inodes ≤ inodes.bitmap.length) (hrb : g.cap ≤ blocks.bitmap.length) :
    Visited.Tracks g v ⟨inodes, blocks⟩ (xs ++ [i]) := by
  have heq : (xs ++ [i]).flatMap v.content = xs.flatMap v.content ++ v.content i := by
    simp
  rw [heq] at hnd
  exact ⟨saw_snoc hi hb hnd, hri, hrb⟩

/-- A file in order. -/
theorem runs_other (hbits : ∀ i, v.ibit i = true → i < 2048 * g.inodeBitmapBlocks)
    (hc : v.Checked g i) (hfile : (v.ino i).fileType = .file) (hw : w.Tracks g v xs)
    (hnd : ((xs ++ [i]).flatMap v.content).Nodup) :
    ∃ w', Prog.Runs g.Holds (checkOther (g.format t) i w) v ([], w') v ∧
      w'.Tracks g v (xs ++ [i]) := by
  have hnd' : (xs.flatMap v.content ++ v.content i).Nodup := by
    simpa using hnd
  obtain ⟨blocks, hblocks, hvis, hroom⟩ := @runs_inodeBlocks g v t (v.ino i) _
    (List.range (v.ino i).blocks) w.blocks i hc.mapped (fun k hk => List.mem_range.mp hk)
    (fun k hk => hc.marked _ (INode.blockAt_mem_content (List.mem_range.mp hk))) hw.blocks
    hw.blockRoom hnd'
  have hlt := Nat.lt_of_lt_of_le hc.lt hw.inodeRoom
  refine ⟨⟨w.inodes.marked i (decide (i ∈ xs)), blocks⟩, ?_, ?_⟩
  · refine (runs_inodeAllocation hc.lt (hbits i hc.live) hc.live hw.inodes hw.inodeRoom).bind ?_
    have hinode : Prog.Runs g.Holds (checkIntegrityInode (g.format t) i w.blocks .file) v
        ([], blocks) v := by
      refine (runs_readInode hc.lt).bind ?_
      refine hblocks.bind ?_
      rw [hfile]
      exact Prog.Runs.pure _ _
    exact hinode.bind (Prog.Runs.pure _ _)
  · exact tracks_snoc hnd (hw.inodes.marked hlt) hvis
      (by rw [IntegrityCheckerBitmap.marked_length]; exact hw.inodeRoom) hroom

theorem runs_others (hbits : ∀ i, v.ibit i = true → i < 2048 * g.inodeBitmapBlocks)
    (hc : ∀ i ∈ is, v.Checked g i) (hfiles : ∀ i ∈ is, (v.ino i).fileType = .file)
    (hw : w.Tracks g v xs) (hnd : ((xs ++ is).flatMap v.content).Nodup) :
    ∃ w', Prog.Runs g.Holds (checkChildren (checkOther (g.format t)) is w) v ([], w') v ∧
      w'.Tracks g v (xs ++ is) := by
  induction is generalizing w xs with
  | nil =>
      refine ⟨w, Prog.Runs.pure _ _, ?_⟩
      rw [List.append_nil]
      exact hw
  | cons i is ih =>
      rw [List.append_cons] at hnd ⊢
      have hone : ((xs ++ [i]).flatMap v.content).Nodup := by
        rw [List.flatMap_append] at hnd
        exact (List.nodup_append.mp hnd).1
      obtain ⟨w₁, hcheck, hw₁⟩ := @runs_other g v t i xs w hbits (hc i List.mem_cons_self)
        (hfiles i List.mem_cons_self) hw hone
      obtain ⟨w', hrest, hw'⟩ := ih (fun j hj => hc j (List.mem_cons_of_mem _ hj))
        (fun j hj => hfiles j (List.mem_cons_of_mem _ hj)) hw₁ hnd
      exact ⟨w', hcheck.bind (hrest.bind (Prog.Runs.pure _ _)), hw'⟩

/-! ## Directories -/

/-- The blocks of a directory in order. -/
theorem runs_directoryBlocks {ind : Nat} {s : DirectoryScan} (hm : n.Mapped g v.data)
    (his : ∀ k ∈ is, k < n.blocks) (hmarked : ∀ k ∈ is, v.dbit (n.blockAt v.data k) = true)
    (horder : ∀ k ∈ is, (v.data (n.blockAt v.data k)).InOrder g.inodes (decide (k = 0)))
    (herrors : s.errors = []) (hvis : s.blocks.Marks m) (hroom : g.cap ≤ s.blocks.bitmap.length)
    (hnd : (m ++ is.map (n.blockAt v.data)).Nodup) :
    ∃ blocks, Prog.Runs g.Holds (checkDirectoryBlocks (g.format t) n ind is s) v
        ⟨[], blocks,
          s.childDirs ++
            is.flatMap (fun k => (v.data (n.blockAt v.data k)).dirs (decide (k = 0))),
          s.childOthers ++ is.flatMap (fun k => (v.data (n.blockAt v.data k)).leaves)⟩ v ∧
      blocks.Marks (m ++ is.map (n.blockAt v.data)) ∧ g.cap ≤ blocks.bitmap.length := by
  induction is generalizing s m with
  | nil =>
      refine ⟨s.blocks, ?_, ?_, hroom⟩
      · rw [List.flatMap_nil, List.flatMap_nil, List.append_nil, List.append_nil, ← herrors]
        exact Prog.Runs.pure _ _
      · rw [List.map_nil, List.append_nil]
        exact hvis
  | cons k is ih =>
      have hk := his k List.mem_cons_self
      have hb := hm.content _ (INode.blockAt_mem_content hk)
      have hset := hmarked k List.mem_cons_self
      have hlt : n.blockAt v.data k < s.blocks.bitmap.length := Nat.lt_of_lt_of_le hb hroom
      rw [List.map_cons, List.append_cons] at hnd
      have hnew : n.blockAt v.data k ∉ m := by
        intro hmem
        have hpart := (List.nodup_append.mp hnd).1
        exact (List.nodup_append.mp hpart).2.2 _ hmem _ (List.mem_singleton.mpr rfl) rfl
      have hbound : blockErrors ind k (n.blockAt v.data k)
          (g.format t).blockAllocator.maxIndex = [] := blockErrors_of_lt hb
      obtain ⟨blocks, hrest, hvis', hroom'⟩ := @ih _
        ⟨[], s.blocks.marked (n.blockAt v.data k) (decide (n.blockAt v.data k ∈ m)),
          s.childDirs ++ (v.data (n.blockAt v.data k)).dirs (decide (k = 0)),
          s.childOthers ++ (v.data (n.blockAt v.data k)).leaves⟩
        (fun j hj => his j (List.mem_cons_of_mem _ hj))
        (fun j hj => hmarked j (List.mem_cons_of_mem _ hj))
        (fun j hj => horder j (List.mem_cons_of_mem _ hj)) rfl (hvis.marked hlt)
        (by rw [IntegrityCheckerBitmap.marked_length]; exact hroom) hnd
      refine ⟨blocks, ?_, ?_, hroom'⟩
      · refine (runs_getBlock hk hm.blocks_le hm.pointers).bind ?_
        refine (runs_isAllocated_data hb).bind ?_
        rw [hset]
        refine Prog.Runs.guard (by decide) ?_
        refine (runs_visit hvis hlt).bind ?_
        refine (runs_entries_inOrder hb (horder k List.mem_cons_self)).bind ?_
        rw [decide_eq_false hnew] at hrest ⊢
        rw [herrors, hbound]
        simpa only [List.flatMap_cons, List.append_assoc, Bool.false_eq_true, if_false,
          List.append_nil] using hrest
      · rw [List.map_cons, List.append_cons]
        exact hvis'

/-- Directories in order, with all that is below them. -/
theorem runs_dirs (hbits : ∀ i, v.ibit i = true → i < 2048 * g.inodeBitmapBlocks)
    (h : v.Walk ds ns ys) {depth : Nat} (hdepth : ns.toFinset.card ≤ depth)
    (hc : ∀ i ∈ ys, v.Checked g i) (hcd : ∀ i ∈ ns, v.CheckedDir g i) (hw : w.Tracks g v xs)
    (hnd : ((xs ++ ys).flatMap v.content).Nodup) :
    ∃ w', Prog.Runs g.Holds
        (checkChildren (checkIntegrityRecursive (g.format t) depth) ds w) v ([], w') v ∧
      w'.Tracks g v (xs ++ ys) := by
  induction h generalizing xs w depth with
  | nil =>
      refine ⟨w, Prog.Runs.pure _ _, ?_⟩
      rw [List.append_nil]
      exact hw
  | @cons e ds ns₁ ns₂ ys₁ ys₂ hdown hrest ihdown ihrest =>
      have hce := hc e (by simp)
      have hcde := hcd e (by simp)
      -- below `e` the walk does not meet `e`, so it has one directory less
      have hnot : e ∉ ns₁ := hdown.not_mem
      have hsplit : xs ++ (e :: (v.leaves e ++ ys₁) ++ ys₂) =
          xs ++ [e] ++ v.leaves e ++ ys₁ ++ ys₂ := by
        simp
      rw [hsplit] at hnd ⊢
      have hfront : ∀ {l l' : List Nat}, ((l ++ l').flatMap v.content).Nodup →
          (l.flatMap v.content).Nodup := by
        intro l l' hl
        rw [List.flatMap_append] at hl
        exact (List.nodup_append.mp hl).1
      cases depth with
      | zero =>
          have hpos : 0 < (e :: ns₁ ++ ns₂).toFinset.card :=
            Finset.card_pos.mpr ⟨e, by simp⟩
          omega
      | succ depth =>
          have hdepth₁ : ns₁.toFinset.card ≤ depth := by
            have hsub : insert e ns₁.toFinset ⊆ (e :: ns₁ ++ ns₂).toFinset := by
              intro j hj
              rcases Finset.mem_insert.mp hj with rfl | hj
              · simp
              · have := List.mem_toFinset.mp hj
                simp [this]
            have hle := Finset.card_le_card hsub
            rw [Finset.card_insert_of_notMem fun hj => hnot (List.mem_toFinset.mp hj)] at hle
            omega
          have hdepth₂ : ns₂.toFinset.card ≤ depth + 1 := by
            refine Nat.le_trans (Finset.card_le_card fun j hj => ?_) hdepth
            have := List.mem_toFinset.mp hj
            simp [this]
          have hone : ((xs ++ [e]).flatMap v.content).Nodup := hfront (hfront (hfront hnd))
          have hone' : (xs.flatMap v.content ++ v.content e).Nodup := by
            simpa using hone
          have hblocks : w.blocks.Marks (xs.flatMap v.content) := hw.blocks
          obtain ⟨blocks, hscan, hvis, hroom⟩ := @runs_directoryBlocks g v t (v.ino e) _
            (List.range (v.ino e).blocks) e ⟨[], w.blocks, [], []⟩ hce.mapped
            (fun k hk => List.mem_range.mp hk)
            (fun k hk => hce.marked _ (INode.blockAt_mem_content (List.mem_range.mp hk)))
            (fun k hk => hcde.ordered k (List.mem_range.mp hk)) rfl hblocks hw.blockRoom
            hone'
          have hlt := Nat.lt_of_lt_of_le hce.lt hw.inodeRoom
          have hw₁ : Visited.Tracks g v ⟨w.inodes.marked e (decide (e ∈ xs)), blocks⟩
              (xs ++ [e]) :=
            tracks_snoc hone (hw.inodes.marked hlt) hvis
              (by rw [IntegrityCheckerBitmap.marked_length]; exact hw.inodeRoom) hroom
          obtain ⟨w₂, hothers, hw₂⟩ := @runs_others g v t (v.leaves e) _ _ hbits
            (fun j hj => hc j (by simp [hj])) hcde.files hw₁ (hfront (hfront hnd))
          obtain ⟨w₃, hdirs, hw₃⟩ := ihdown hdepth₁ (fun j hj => hc j (by simp [hj]))
            (fun j hj => hcd j (by simp [hj])) hw₂ (hfront hnd)
          obtain ⟨w', hrun, hw'⟩ := ihrest hdepth₂ (fun j hj => hc j (by simp [hj]))
            (fun j hj => hcd j (by simp [hj])) hw₃ hnd
          refine ⟨w', ?_, hw'⟩
          have hcheck : Prog.Runs g.Holds (checkIntegrityRecursive (g.format t) (depth + 1) e w) v
              ([], w₃) v := by
            refine (runs_inodeAllocation hce.lt (hbits e hce.live) hce.live hw.inodes
              hw.inodeRoom).bind ?_
            refine (runs_readInode hce.lt).bind ?_
            have herrors : ([] : List V1IntegrityError) ++ directoryErrors (v.ino e).fileType e =
                [] := by
              rw [hcde.dir]
              rfl
            rw [herrors]
            refine hscan.bind (hothers.bind (hdirs.bind ?_))
            exact Prog.Runs.pure _ _
          exact hcheck.bind (hrun.bind (Prog.Runs.pure _ _))

/-- The root with all that is below it. -/
theorem runs_tree (hbits : ∀ i, v.ibit i = true → i < 2048 * g.inodeBitmapBlocks)
    (h : v.Walk [i] ns xs) {depth : Nat} (hdepth : ns.toFinset.card ≤ depth)
    (hc : ∀ j ∈ xs, v.Checked g j) (hcd : ∀ j ∈ ns, v.CheckedDir g j) (hw : w.Tracks g v [])
    (hnd : (xs.flatMap v.content).Nodup) :
    ∃ w', Prog.Runs g.Holds (checkIntegrityRecursive (g.format t) depth i w) v ([], w') v ∧
      w'.Tracks g v xs := by
  obtain ⟨w', hrun, hw'⟩ := @runs_dirs g v t [] [i] ns xs w hbits h depth hdepth hc hcd hw hnd
  refine ⟨w', ?_, hw'⟩
  intro d hd
  obtain ⟨d', hok, hd'⟩ := hrun d hd
  obtain ⟨⟨errors, w₁⟩, d₁, hcheck, hlast⟩ := Prog.of_ok_bind hok
  obtain ⟨hreply, rfl⟩ := Outcome.ok.inj hlast
  obtain ⟨herrors, rfl⟩ := Prod.mk.inj hreply
  obtain ⟨rfl, -⟩ := List.append_eq_nil_iff.mp herrors
  exact ⟨d₁, hcheck, hd'⟩

/-! ## The whole device -/

theorem runs_countInodes {last : Nat} : Prog.Runs g.Holds (g.inodeAllocator last).countAllocated v
    ((List.range g.inodes).countP v.ibit) v := by
  intro d hd
  refine ⟨d, ?_, hd⟩
  rw [BitmapAllocator.countAllocated_eq hd.inodeBitmap inodes_indexed,
    length_set (nodup_allocated _ d) fun _ => mem_allocated_inode hd]

theorem runs_countData {last : Nat} : Prog.Runs g.Holds (g.blockAllocator last).countAllocated v
    ((List.range g.cap).countP v.dbit) v := by
  intro d hd
  refine ⟨d, ?_, hd⟩
  rw [BitmapAllocator.countAllocated_eq hd.blockBitmap blocks_indexed,
    length_set (nodup_allocated _ d) fun _ => mem_allocated_data hd]

/-- No search is made where the counts agree. -/
theorem runs_findUnreachable {differ : Bool} {a : BitmapAllocator}
    {error : Nat → V1IntegrityError} {n : Nat} (h : differ = false) :
    Prog.Runs g.Holds (findUnreachable differ a vis error n) v [] v := by
  subst h
  exact Prog.Runs.pure _ _

/-- As many bits are set as were visited. -/
theorem count_visited {bit : Nat → Bool} {n : Nat} (hvis : vis.Marks xs)
    (hset : ∀ i < n, bit i = true → i ∈ xs) : (List.range n).countP bit ≤ vis.count := by
  rw [hvis.count, List.countP_eq_length_filter,
    ← List.toFinset_card_of_nodup (List.nodup_range.filter bit)]
  refine Finset.card_le_card fun i hi => ?_
  obtain ⟨hi, hbit⟩ := List.mem_filter.mp (List.mem_toFinset.mp hi)
  exact List.mem_toFinset.mpr (hset i (List.mem_range.mp hi) hbit)

theorem visited_count {bit : Nat → Bool} {n : Nat} (hvis : vis.Marks xs)
    (hset : ∀ i ∈ xs, i < n ∧ bit i = true) : vis.count ≤ (List.range n).countP bit := by
  rw [hvis.count, List.countP_eq_length_filter,
    ← List.toFinset_card_of_nodup (List.nodup_range.filter bit)]
  refine Finset.card_le_card fun i hi => ?_
  obtain ⟨hlt, hbit⟩ := hset i (List.mem_toFinset.mp hi)
  exact List.mem_toFinset.mpr (List.mem_filter.mpr ⟨List.mem_range.mpr hlt, hbit⟩)

/-- Where everything is in order, the checker reports nothing. -/
theorem Verified.runs_checkDevice (h : g.Verified t ns xs) :
    Prog.Runs g.Holds (checkDevice (g.format t)) t.toView [] t.toView := by
  intro d hd
  have hbits : ∀ i, t.ibit i = true → i < 2048 * g.inodeBitmapBlocks := fun _ => hd.ibit_lt
  have hdepth : ns.toFinset.card ≤ g.inodes + 1 := by
    have hsub : ns.toFinset ⊆ Finset.range g.inodes := by
      intro i hi
      have hi := h.walk.subset (List.mem_toFinset.mp hi)
      exact Finset.mem_range.mpr (h.checked i hi).lt
    have hle := Finset.card_le_card hsub
    rw [Finset.card_range] at hle
    omega
  have hstart : Visited.Tracks g t.toView ⟨.new g.inodes, .new g.cap⟩ [] :=
    ⟨⟨IntegrityCheckerBitmap.marks_new, IntegrityCheckerBitmap.marks_new, List.nodup_nil⟩,
      IntegrityCheckerBitmap.new_length _, IntegrityCheckerBitmap.new_length _⟩
  obtain ⟨w, hroot, hw⟩ :=
    @runs_tree g t.toView t 0 xs ns _ hbits h.walk _ hdepth h.checked h.dirs hstart h.nodup
  have hinodes := @count_clear t.ibit g.inodes
  have hdata := @count_clear t.dbit g.cap
  have hstart := g.dataStart_add_cap
  have hmul : Prog.Runs g.Holds (mul32 g.inodeTableBlocks INode.inodesPerBlock) t.toView
      g.inodes t.toView := fun d hd => ⟨d, mul32_inodes d, hd⟩
  refine Prog.Runs.bind (runs_countInodes) ?_ d hd
  refine runs_countData.bind ?_
  refine hmul.bind ?_
  refine (Prog.Runs.checkedSub (by omega)).bind ?_
  refine (Prog.Runs.checkedSub (Nat.le.intro hstart)).bind ?_
  have hcap : g.totalBlocks - g.dataStart = g.cap := rfl
  refine (Prog.Runs.checkedSub (by omega)).bind ?_
  refine hroot.bind ?_
  have hseen : ¬ (List.range g.inodes).countP t.ibit > w.inodes.count :=
    Nat.not_lt.mpr (count_visited hw.inodes h.inodes)
  have hsame : (List.range g.cap).countP t.dbit = w.blocks.count := by
    refine Nat.le_antisymm (count_visited hw.blocks h.blocks) (visited_count hw.blocks ?_)
    intro b hb
    obtain ⟨i, hi, hb⟩ := List.mem_flatMap.mp hb
    exact ⟨(h.checked i hi).mapped.content b hb, (h.checked i hi).marked b hb⟩
  refine (runs_findUnreachable (decide_eq_false hseen)).bind ?_
  refine (runs_findUnreachable (decide_eq_false (not_not.mpr hsame))).bind ?_
  have hmeta : metadataErrors (g.format t).superblock
      (g.inodes - (List.range g.inodes).countP t.ibit)
      (g.totalBlocks - g.dataStart - (List.range g.cap).countP t.dbit) = [] := by
    have hi : (g.format t).superblock.freeInodes =
        g.inodes - (List.range g.inodes).countP t.ibit := by
      show t.freeInodes = _
      rw [h.freeInodes]
      omega
    have hd : (g.format t).superblock.freeData =
        g.totalBlocks - g.dataStart - (List.range g.cap).countP t.dbit := by
      show t.freeData = _
      rw [h.freeData, hcap]
      omega
    simp [metadataErrors, hi, hd]
  rw [hmeta]
  exact Prog.Runs.pure _ _

end Geom

end FerrisFS
