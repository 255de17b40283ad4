import FerrisFS.V1.Clean
import FerrisFS.V1.LinkCounts
import FerrisFS.V1.Sessions

/-!
# What every call keeps

Beside the invariant and the open files, calls keep the directories in a tree without cycles
and promise no more free inodes than there are. Requests also set attributes of inodes, which
changes nothing of this.
-/

namespace FerrisFS

open Lib DirectoryHandler INodeTableHandler FormatV1

/-! ## Clear bits -/

/-- The number of clear bits below `n`. -/
def clearBelow (n : Nat) (bit : Nat → Bool) : Nat := (List.range n).countP fun i => !bit i

section

variable {n : Nat} {bit : Nat → Bool} {l : List Nat}

/-- Clear bits that are set are clear no more. -/
theorem clearBelow_set (hnd : l.Nodup) (hlt : ∀ i ∈ l, i < n) (hclear : ∀ i ∈ l, bit i = false) :
    clearBelow n (setBits bit l true) + l.length = clearBelow n bit := by
  have hperm : ((List.range n).filter fun i => !bit i).Perm
      (((List.range n).filter fun i => !setBits bit l true i) ++ l) := by
    have hmem : ∀ i, i ∈ (List.range n).filter (fun i => !setBits bit l true i) ↔
        i < n ∧ bit i = false ∧ i ∉ l := by
      intro i
      by_cases hi : i ∈ l <;> simp [setBits, hi]
    refine (List.perm_ext_iff_of_nodup (List.nodup_range.filter _) ?_).mpr ?_
    · refine List.nodup_append.mpr ⟨List.nodup_range.filter _, hnd, ?_⟩
      intro i hi j hj heq
      exact ((hmem i).mp hi).2.2 (heq ▸ hj)
    · intro i
      rw [List.mem_append, hmem]
      simp only [List.mem_filter, List.mem_range, Bool.not_eq_true']
      constructor
      · intro h
        by_cases hi : i ∈ l
        · exact .inr hi
        · exact .inl ⟨h.1, h.2, hi⟩
      · intro h
        rcases h with h | h
        · exact ⟨h.1, h.2.1⟩
        · exact ⟨hlt i h, hclear i h⟩
  have hlen := hperm.length_eq
  rw [List.length_append] at hlen
  rw [clearBelow, clearBelow, List.countP_eq_length_filter, List.countP_eq_length_filter]
  exact hlen.symm

/-- Set bits that are cleared are clear again. -/
theorem clearBelow_clear (hnd : l.Nodup) (hlt : ∀ i ∈ l, i < n) (hset : ∀ i ∈ l, bit i = true) :
    clearBelow n (setBits bit l false) = clearBelow n bit + l.length := by
  have hback : setBits (setBits bit l false) l true = bit := by
    funext i
    by_cases hi : i ∈ l
    · simp [setBits, hi, hset i hi]
    · simp [setBits, hi]
  have hclear : ∀ i ∈ l, setBits bit l false i = false := by
    intro i hi
    simp [setBits, hi]
  have := clearBelow_set hnd hlt hclear
  rw [hback] at this
  exact this.symm

/-- Distinct clear bits are not more than there are. -/
theorem length_le_clearBelow (hnd : l.Nodup) (hlt : ∀ i ∈ l, i < n)
    (hclear : ∀ i ∈ l, bit i = false) : l.length ≤ clearBelow n bit := by
  have := clearBelow_set hnd hlt hclear
  omega

theorem clearBelow_root (hbit : ∀ i, bit i = true ↔ i = 0) : clearBelow n bit = n - 1 := by
  have hset : setBits (fun _ => false) [0] true = bit := by
    funext i
    by_cases hi : i = 0
    · simp [setBits, hi, (hbit 0).mpr rfl]
    · have : bit i = false := by simpa [hi] using hbit i
      simp [setBits, hi, this]
  by_cases hn : 0 < n
  · have := @clearBelow_set n (fun _ => false) [0] (by simp) (by simpa using hn) (by simp)
    have hall : clearBelow n (fun _ => false) = n := by simp [clearBelow]
    rw [hset, hall, List.length_singleton] at this
    omega
  · have : n = 0 := by omega
    subst this
    rfl

end

/-! ## Attributes -/

/-- The attributes that `setattr` sets may differ. -/
structure INode.Like (n n' : INode) : Prop where
  fileType : n'.fileType = n.fileType
  links : n'.links = n.links
  blocks : n'.blocks = n.blocks
  direct : n'.direct = n.direct
  indirect : n'.indirect = n.indirect
  double : n'.double = n.double

/-- Attributes are set. -/
def St.withNode (t : St) (i : Nat) (n : INode) : St :=
  { t with ino := Function.update t.ino i n }

namespace Geom

variable {g : Geom} {gaps : Bool} {s s' : FFS} {t t' : St} {i p : Nat} {now : UInt64} {op : Op}

/-! ## Directories stay in a tree -/

/-- Who names nothing but `.` and `..` has no directory below it. -/
theorem not_dirStep_of_dots {v : View} {d : Nat}
    (h : ∀ {k e}, v.Rec d k e → e.label = [dot] ∨ e.label = [dot, dot]) (j : Nat) :
    ¬ v.graph.DirStep d j := by
  intro hstep
  obtain ⟨-, k, e, hr, h1, h2, -⟩ := hstep
  exact (h hr).elim h1 h2

/-- No directory is named anew. -/
theorem acyclic_of_recs (h : t.graph.Acyclic)
    (htype : ∀ j, (t'.ino j).fileType = (t.ino j).fileType)
    (hrec : ∀ {d k e}, t'.Rec d k e → t.Rec d k e ∨ (t.ino e.inode).fileType ≠ .directory) :
    t'.graph.Acyclic := by
  refine h.mono ?_
  intro d j hstep
  obtain ⟨hdir, k, e, hr, h1, h2, rfl⟩ := hstep
  have hdir : (t.ino e.inode).fileType = .directory := htype e.inode ▸ hdir
  rcases hrec hr with hr | hleaf
  · exact ⟨hdir, k, e, hr, h1, h2, rfl⟩
  · exact absurd hdir hleaf

theorem acyclic_created {ft : FileType} {name : Str} {fit : Option (Nat × Nat)} {ds : List Nat}
    {n' : INode} {data' : Region} (h : g.Inv gaps t) (hac : t.graph.Acyclic)
    (hp : t.ibit p = true) (hc : g.Created t p ft name now fit i ds n' data' t')
    (hroom : Entered.Roomy gaps t.data (newEntry ft name) fit) : t'.graph.Acyclic := by
  have hrec := fun {d k e} (hr : t'.Rec d k e) => hc.rec_cases h.toIntact hp hroom hr
  have hip : i ≠ p := hc.ne_of_live h.toIntact hp |>.symm
  refine hac.addNode (n := i) (not_dirStep_of_dots ?_) ?_
  · intro k e hr
    rcases hrec hr with ⟨hr, -⟩ | ⟨heq, -⟩ | ⟨-, -, ⟨-, rfl⟩ | ⟨-, rfl⟩⟩
    · have hlive := hr.live
      rw [hc.dead h.toIntact] at hlive
      cases hlive
    · exact absurd heq hip
    · exact .inl rfl
    · exact .inr rfl
  · intro d j hji hstep
    obtain ⟨hdir, k, e, hr, h1, h2, rfl⟩ := hstep
    rcases hrec hr with ⟨hr, -⟩ | ⟨-, -, rfl⟩ | ⟨-, -, ⟨-, rfl⟩ | ⟨-, rfl⟩⟩
    · refine ⟨?_, k, e, hr, h1, h2, rfl⟩
      show (t.ino e.inode).fileType = .directory
      by_cases hjp : e.inode = p
      · rw [hjp, ← hc.parent_fileType, ← hjp]
        exact hdir
      · rw [← hc.ino_other hjp hji]
        exact hdir
    · exact absurd rfl hji
    · exact absurd rfl h1
    · exact absurd rfl h2

/-- No call puts a directory below itself. -/
theorem acyclic_of_effect (hs : g.Rep s t) (h : g.Inv gaps t) (hh : t.Handled)
    (hac : t.graph.Acyclic) (hroom : op.Roomy gaps s) (he : Effect g gaps s t op t') :
    t'.graph.Acyclic := by
  cases he with
  | same => exact hac
  | created hc hp hd hdd hfit hcr =>
      exact acyclic_created h hac hp hcr (hs.roomy hroom (.create hc) hfit)
  | symlinked hc hp hd hdd hfit hcr hlen =>
      have hroom' := hs.roomy hroom (.create hc) hfit
      have hlive := hcr.ibit_iff.mpr (.inr rfl)
      rw [(leaf_withTarget (hcr.inv h hp hd hdd hroom') hlive
        (by rw [hcr.ino_new h.toIntact hp, firstNode_fileType]; decide) (hcr.direct_mem h hp)
        hlen).graph_eq (hcr.inv h hp hd hdd hroom').toIntact]
      exact acyclic_created h hac hp hcr hroom'
  | full hr hf => cases hf <;> exact hac
  | @orphaned p ft name now i ds t' hc hp hfit hmax ha ho =>
      refine hac.addNode (n := i) (not_dirStep_of_dots ?_) ?_
      · intro k e hr
        rcases ho.rec_cases h.toIntact hp hr with hr | ⟨-, rfl | rfl⟩
        · exact absurd rfl (ho.ne_of_live hr.live)
        · exact .inl rfl
        · exact .inr rfl
      · intro d j hji hstep
        obtain ⟨hdir, k, e, hr, h1, h2, rfl⟩ := hstep
        rcases ho.rec_cases h.toIntact hp hr with hr | ⟨-, rfl | rfl⟩
        · refine ⟨?_, k, e, hr, h1, h2, rfl⟩
          have hlive := h.graph.target_live ⟨e, hr, h1, h2, rfl⟩
          show (t.ino e.inode).fileType = .directory
          rw [← (ho.same h.toIntact hlive).ino]
          exact hdir
        · exact absurd rfl h1
        · exact absurd rfl h2
  | linked hl hi hp hfile hd hdd hfit hk =>
      refine acyclic_of_recs hac hk.fileType ?_
      intro d k e hr
      rcases hk.rec_cases h.toIntact hi hp (hs.roomy hroom (.link hl) hfit) hr with
        ⟨hr, -⟩ | ⟨-, -, -, rfl⟩
      · exact .inl hr
      · exact .inr hfile
  | wasted hl hfit hmax ha =>
      refine acyclic_of_recs hac (fun _ => rfl) ?_
      intro d k e hr
      refine .inl ⟨?_, hr.dir, hr.block, hr.slot⟩
      have hlive := hr.live
      rwa [St.taken, setBits_nil] at hlive
  | unlinked hdel hu =>
      refine acyclic_of_recs hac hu.cut.fileType ?_
      intro d k e hr
      exact .inl ((hu.cut.rec_iff h.toIntact hr.live).mp hr).1
  | removed hdel hu =>
      refine acyclic_of_recs hac hu.cut.fileType ?_
      intro d k e hr
      exact .inl ((hu.cut.rec_iff h.toIntact hr.live).mp hr).1
  | opened ho hr hi hfile => exact hac
  | closed ho => exact hac
  | moved ho hopen => exact hac
  | wrote ho hw =>
      obtain ⟨hlive, hfile⟩ := hh _ _ hw.opened
      rw [(hw.leaf h.toIntact hlive hfile).graph_eq h.toIntact]
      exact hac
  | writeFailed ho hf =>
      cases hf with
      | closed => exact hac
      | grow hopen _ _ _ hf =>
          obtain ⟨hlive, hfile⟩ := hh _ _ hopen
          cases hf with
          | short => exact hac
          | empty => exact hac
          | tooLarge hg =>
              rw [(GrowFailed.leaf h hlive (by simp [hfile]) hg).graph_eq h.toIntact]
              exact hac
  | truncated ho hopen hlt =>
      obtain ⟨hlive, hfile⟩ := hh _ _ hopen
      rw [(leaf_truncated h hlive (by simp [hfile]) hlt).graph_eq h.toIntact]
      exact hac

/-! ## Free inodes -/

/-- No more free inodes are promised than bits are clear. -/
def Spares (g : Geom) (t : St) : Prop := t.freeInodes ≤ clearBelow g.inodes t.ibit

theorem Spares.taken {is : List Nat} (h : g.Spares t) (hf : g.FreshInodes t is)
    (hbit : t'.ibit = setBits t.ibit is true) (hfree : t'.freeInodes = t.freeInodes - is.length) :
    g.Spares t' := by
  have hset := clearBelow_set hf.nodup hf.lt hf.clear
  have hold : t.freeInodes ≤ clearBelow g.inodes t.ibit := h
  rw [Spares, hbit, hfree]
  omega

theorem spares_of_effect (h : g.Inv gaps t) (hsp : g.Spares t) (he : Effect g gaps s t op t') :
    g.Spares t' := by
  have hpick : ∀ n, g.FreshInodes t (g.pickInodes t n) := fun _ => fresh_pickInodes h.cursors
  cases he with
  | same => exact hsp
  | created hc hp hd hdd hfit hcr =>
      have hstate := hcr.state
      exact hsp.taken (hcr.alloc.inodes_eq ▸ hpick 1) (by rw [hstate]; rfl) (by rw [hstate]; rfl)
  | symlinked hc hp hd hdd hfit hcr hlen =>
      have hstate := hcr.state
      exact hsp.taken (hcr.alloc.inodes_eq ▸ hpick 1) (by rw [hstate]; rfl) (by rw [hstate]; rfl)
  | @full n k t' hr hf =>
      cases hf with
      | refused => exact hsp
      | inodes => exact length_le_clearBelow (hpick n).nodup (hpick n).lt (hpick n).clear
      | data => exact hsp
  | orphaned hc hp hfit hmax ha ho =>
      have hstate := ho.state
      exact hsp.taken ho.inode (by rw [hstate]; rfl) (by rw [hstate]; rfl)
  | linked hl hi hp hfile hd hdd hfit hk =>
      have hstate := hk.state
      exact hsp.taken (hk.alloc.inodes_eq ▸ hpick 0) (by rw [hstate]; rfl) (by rw [hstate]; rfl)
  | wasted hl hfit hmax ha => exact hsp.taken (ha.inodes_eq ▸ hpick 0) rfl rfl
  | unlinked hdel hu =>
      rw [hu.state]
      exact hsp
  | @removed i p k e now b' t' hdel hu =>
      have hlive : t.ibit i = true :=
        h.graph.target_live (hu.target ▸ h.edge hu.record hu.named)
      have hclear := @clearBelow_clear g.inodes t.ibit [i] (List.nodup_singleton _)
        (by simpa using h.lt hlive) (by simpa using hlive)
      have hold : t.freeInodes ≤ clearBelow g.inodes t.ibit := hsp
      rw [hu.state]
      show t.freeInodes + 1 ≤ clearBelow g.inodes (setBits t.ibit [i] false)
      rw [hclear]
      exact Nat.succ_le_succ hold
  | opened ho hr hi hfile => exact hsp
  | closed ho => exact hsp
  | moved ho hopen => exact hsp
  | wrote ho hw =>
      rw [hw.state]
      exact hsp
  | writeFailed ho hf =>
      cases hf with
      | closed => exact hsp
      | grow _ _ _ _ hf => cases hf <;> exact hsp
  | truncated ho hopen hlt => exact hsp

/-! ## All of it -/

/-- What sessions and requests keep. -/
structure Upright (g : Geom) (gaps : Bool) (t : St) : Prop extends Inv g gaps t where
  handled : t.Handled
  targeted : t.Targeted
  acyclic : t.graph.Acyclic
  spares : g.Spares t

theorem Upright.of_initial (h : g.Initial now t) : g.Upright gaps t where
  toInv := h.inv
  handled := h.handled
  targeted := (Steady.of_initial h).targeted
  acyclic := h.tree.acyclic fun hr => (h.wellFormed.typed hr).1
  spares := by
    rw [Spares, clearBelow_root h.ibit]
    exact Nat.le_of_eq h.freeInodes

theorem upright_of_effect (hs : g.Rep s t) (h : g.Upright gaps t) (hok : op.Careful s)
    (hroom : op.Roomy gaps s) (he : Effect g gaps s t op t') : g.Upright gaps t' where
  toInv := inv_of_effect hs h.toInv (fun _ => h.handled) hroom he
  handled := handled_of_effect hs h.toInv h.handled hok.2 he
  targeted := targeted_of_effect h.toInv h.handled h.targeted he
  acyclic := acyclic_of_effect hs h.toInv h.handled h.acyclic hroom he
  spares := spares_of_effect h.toInv h.spares he

theorem upright_of_step (hs : g.Rep s t) (h : g.Upright gaps t) (hok : op.Careful s)
    (hroom : op.Roomy gaps s) (hstep : Step s op s') : ∃ t', g.Rep s' t' ∧ g.Upright gaps t' := by
  obtain ⟨t', hs', he⟩ := effect_of_step hs h.toInv (fun _ => h.handled) hok.1 hroom hstep
  exact ⟨t', hs', upright_of_effect hs h hok hroom he⟩

theorem Upright.withTarget {target : Str} (h : g.Upright gaps t) (hi : t.ibit i = true)
    (hsym : (t.ino i).fileType = .symlink) (hlen : target.length ≤ BLOCK_SIZE) :
    g.Upright gaps (t.withTarget i target now) := by
  have hmem := @INode.direct_mem _ t.data (h.targeted i hi hsym)
  have hleaf := @leaf_withTarget g gaps t i target now h.toInv hi (by rw [hsym]; decide) hmem hlen
  refine
    { toInv := hleaf.inv h.toInv ⟨h.cursors.lastInode, h.cursors.lastData⟩
      handled := ?_
      targeted := Targeted.withTarget h.targeted i
      acyclic := by
        rw [hleaf.graph_eq h.toIntact]
        exact h.acyclic
      spares := h.spares }
  intro id m hm
  obtain ⟨hlive, hfile⟩ := h.handled id m hm
  have hne : m.inode ≠ i := by
    intro heq
    rw [heq, hsym] at hfile
    cases hfile
  refine ⟨hlive, ?_⟩
  simp only [St.withTarget, Function.update_of_ne hne]
  exact hfile

theorem Upright.opened (h : g.Upright gaps t) (hi : t.ibit i = true)
    (hfile : (t.ino i).fileType = .file) : g.Upright gaps (t.opened i) where
  toInv := h.toInv.congr rfl ⟨h.cursors.lastInode, h.cursors.lastData⟩
  handled := handled_opened h.handled hi hfile
  targeted := h.targeted
  acyclic := h.acyclic
  spares := h.spares

/-- Like inodes have the same blocks. -/
theorem like_blocks {n n' : INode} (h : n.Like n') (data : Region) :
    n'.content data = n.content data ∧ n'.owned data = n.owned data := by
  have heq : n' = { n with
      size := n'.size, permissions := n'.permissions, created := n'.created,
      modified := n'.modified } :=
    INode.ext rfl h.fileType rfl h.direct h.indirect h.double rfl rfl h.links h.blocks
  rw [heq]
  exact ⟨rfl, rfl⟩

section Node

variable {n : INode} (hlike : (t.ino i).Like n)

include hlike

theorem withNode_like (j : Nat) : (t.ino j).Like ((t.withNode i n).ino j) := by
  by_cases hji : j = i
  · subst hji
    simp only [St.withNode, Function.update_self]
    exact hlike
  · simp only [St.withNode, Function.update_of_ne hji]
    exact ⟨rfl, rfl, rfl, rfl, rfl, rfl⟩

theorem withNode_content (j : Nat) : (t.withNode i n).content j = t.content j :=
  (like_blocks (withNode_like hlike j) t.data).1

theorem withNode_owned (j : Nat) : (t.withNode i n).owned j = t.owned j :=
  (like_blocks (withNode_like hlike j) t.data).2

theorem withNode_rec {d : Nat} {k : Nat × Nat} {e : DirEntry} :
    (t.withNode i n).Rec d k e ↔ t.Rec d k e := by
  have hcontent := withNode_content hlike d
  have htype := (withNode_like hlike d).fileType
  constructor
  · intro hr
    refine ⟨hr.live, htype ▸ hr.dir, ?_, hr.slot⟩
    show k.1 ∈ t.content d
    rw [← hcontent]
    exact hr.block
  · intro hr
    refine ⟨hr.live, htype.trans hr.dir, ?_, hr.slot⟩
    show k.1 ∈ (t.withNode i n).content d
    rw [hcontent]
    exact hr.block

theorem withNode_graph : (t.withNode i n).graph = t.graph := by
  have htype : ∀ j, ((t.withNode i n).ino j).fileType = (t.ino j).fileType := fun j =>
    (withNode_like hlike j).fileType
  have hlinks : ∀ j, ((t.withNode i n).ino j).links = (t.ino j).links := fun j =>
    (withNode_like hlike j).links
  have hibit : (t.withNode i n).ibit = t.ibit := rfl
  simp only [View.graph, hibit, htype, hlinks, withNode_rec hlike]

theorem Upright.withNode (h : g.Upright gaps t) (hn : n.InRange) :
    g.Upright gaps (t.withNode i n) where
  cursors := ⟨h.cursors.lastInode, h.cursors.lastData⟩
  inRange j := by
    by_cases hji : j = i
    · subst hji
      simp only [St.withNode, Function.update_self]
      exact hn
    · simp only [St.withNode, Function.update_of_ne hji]
      exact h.inRange j
  owning :=
    { ibit_lt := h.owning.ibit_lt
      mapped := by
        intro j hj
        have hm := h.mapped hj
        refine ⟨(withNode_like hlike j).blocks ▸ hm.blocks_le, fun b hb => hm.lt b ?_⟩
        show b ∈ t.owned j
        rw [← withNode_owned hlike j]
        exact hb
      owns := h.owning.owns.mono (fun j hj => ⟨hj, withNode_owned hlike j⟩) fun _ _ _ _ hb => hb }
  tidy d hd hdir b hb :=
    h.tidy d hd ((withNode_like hlike d).fileType ▸ hdir) b (withNode_content hlike d ▸ hb)
  graph := by
    rw [withNode_graph hlike]
    exact h.graph
  self hr := h.self ((withNode_rec hlike).mp hr)
  handled id m hm := by
    obtain ⟨hlive, hfile⟩ := h.handled id m hm
    exact ⟨hlive, (withNode_like hlike m.inode).fileType.trans hfile⟩
  acyclic := by
    rw [withNode_graph hlike]
    exact h.acyclic
  spares := h.spares
  targeted := by
    apply Targeted.of_kept h.targeted
    intro j hj hsym
    have hl := withNode_like hlike j
    exact ⟨hj, hl.fileType ▸ hsym, Nat.le_of_eq hl.blocks.symm⟩

end Node

/-- A session keeps what it starts with. -/
theorem upright_of_session (h : Session s s') (hs : g.Rep s t) (ht : g.Upright true t) :
    ∃ t', g.Rep s' t' ∧ g.Upright true t' := by
  induction h with
  | nil => exact ⟨t, hs, ht⟩
  | call _ hok hstep ih =>
      obtain ⟨t₁, hs₁, h₁⟩ := ih
      exact upright_of_step hs₁ h₁ hok (.inl rfl) hstep
  | @edit s₁ s₂ path target now _ hstep ih =>
      obtain ⟨t₁, hs₁, h₁⟩ := ih
      have hedit : Prog.wp (editSymlink path target now)
          (fun _ s' => ∃ t', g.Rep s' t' ∧ g.Upright true t')
          (fun _ s' => ∃ t', g.Rep s' t' ∧ g.Upright true t') s₁ := by
        refine Prog.wp_mono (wp_editSymlink hs₁ h₁.toInv h₁.targeted) ?_ ?_
        · intro _ s₃ hstored
          obtain ⟨r, -, hlive, hsym, hlen, hs₃⟩ := hstored
          exact ⟨_, hs₃, h₁.withTarget hlive hsym hlen⟩
        · intro _ s₃ heq
          rw [heq]
          exact ⟨t₁, hs₁, h₁⟩
      exact hedit.of_state hstep

end Geom

end FerrisFS
