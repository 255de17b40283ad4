import FerrisFS.Fuse.Readlink
import FerrisFS.Fuse.Rename
import FerrisFS.V1.Sessions
import FerrisFS.V1.Truncation

/-!
# Resizing a file through FUSE

`setattr` notes a new size in the inode and leaves the blocks alone. `read` refuses a size
that the blocks do not reach, and what they hold behind the old size is read when the size
has grown.
-/

namespace FerrisFS

open Lib FormatV1

/-! ## What a file should hold -/

/-- Contents cut to `size` bytes, or filled up with zeros. -/
def resized (c : List UInt8) (size : Nat) : List UInt8 :=
  c.take size ++ List.replicate (size - c.length) 0

/-- Contents after a write at `offset`. What it skips is zero. -/
def overwritten (c : List UInt8) (offset : Nat) (data : List UInt8) : List UInt8 :=
  if data = [] then c else resized c offset ++ data ++ c.drop (offset + data.length)

theorem resized_length (c : List UInt8) (size : Nat) : (resized c size).length = size := by
  simp [resized]
  omega

theorem resized_getD (l : List UInt8) {size p : Nat} (hp : p < size) :
    (resized l size).getD p 0 = l.getD p 0 := by
  rw [List.getD_eq_getElem?_getD, List.getD_eq_getElem?_getD, resized, List.getElem?_append]
  split
  · rw [List.getElem?_take_of_lt hp]
  · rename_i hlen
    have hnone : l[p]? = none := by
      rw [List.getElem?_eq_none_iff]
      rw [List.length_take] at hlen
      omega
    rw [List.getElem?_replicate, hnone]
    split <;> rfl

/-- Lists of one length are equal when they agree below it. -/
theorem eq_of_getD {l l' : List UInt8} (hlen : l.length = l'.length)
    (h : ∀ p < l.length, l.getD p 0 = l'.getD p 0) : l = l' := by
  apply List.ext_getElem hlen
  intro p hp hp'
  have hbyte := h p hp
  rwa [List.getD_eq_getElem _ _ hp, List.getD_eq_getElem _ _ hp'] at hbyte

theorem getD_take (l : List UInt8) {n p : Nat} (hp : p < n) :
    (l.take n).getD p 0 = l.getD p 0 := by
  rw [List.getD_eq_getElem?_getD, List.getD_eq_getElem?_getD, List.getElem?_take_of_lt hp]

theorem getD_take_of_le (l : List UInt8) {n p : Nat} (hp : n ≤ p) :
    (l.take n).getD p 0 = 0 := by
  rw [List.getD_eq_default]
  rw [List.length_take]
  omega

/-- The first `old` bytes of a store, resized, are its first `size` exactly when the store
has zeros in between. -/
theorem resized_take_iff {bytes : List UInt8} {old size : Nat} (h : size ≤ bytes.length) :
    resized (bytes.take old) size = bytes.take size ↔
      ∀ p, old ≤ p → p < size → bytes.getD p 0 = 0 := by
  constructor
  · intro heq p hold hp
    rw [← getD_take bytes hp, ← heq, resized_getD _ hp, getD_take_of_le _ hold]
  · intro hzero
    apply eq_of_getD
    · rw [resized_length, List.length_take_of_le h]
    · intro p hp
      rw [resized_length] at hp
      rw [resized_getD _ hp, getD_take _ hp]
      by_cases hold : p < old
      · exact getD_take _ hold
      · rw [getD_take_of_le _ (Nat.not_lt.mp hold), hzero p (Nat.not_lt.mp hold) hp]

/-- A write that skips zeros only. -/
theorem overwritten_take {bytes bytes' data : List UInt8} {old offset : Nat} (hne : data ≠ [])
    (hover : Overwrites bytes bytes' offset data) (hold : old ≤ bytes.length)
    (hend : max old (offset + data.length) ≤ bytes'.length)
    (hgap : ∀ p, old ≤ p → p < offset → bytes.getD p 0 = 0) :
    overwritten (bytes.take old) offset data =
      bytes'.take (max old (offset + data.length)) := by
  rw [overwritten, if_neg hne]
  apply eq_of_getD
  · rw [List.length_append, List.length_append, resized_length, List.length_drop,
      List.length_take_of_le hold, List.length_take_of_le hend]
    omega
  · intro p hp
    have hp : p < max old (offset + data.length) := by
      rw [List.length_append, List.length_append, resized_length, List.length_drop,
        List.length_take_of_le hold] at hp
      omega
    rw [getD_take _ hp, List.append_assoc]
    by_cases hbefore : p < offset
    · rw [List.getD_append _ _ _ _ (by rwa [resized_length]), resized_getD _ hbefore,
        hover.outside p (.inl hbefore)]
      by_cases hlt : p < old
      · exact getD_take _ hlt
      · rw [getD_take_of_le _ (Nat.not_lt.mp hlt), hgap p (Nat.not_lt.mp hlt) hbefore]
    · rw [List.getD_append_right _ _ _ _ (by rw [resized_length]; omega), resized_length]
      by_cases hin : p - offset < data.length
      · have hbyte := hover.inside (p - offset) hin
        rw [Nat.add_sub_cancel' (Nat.not_lt.mp hbefore)] at hbyte
        rw [List.getD_append _ _ _ _ hin, List.getD_eq_getElem?_getD, List.getD_eq_getElem?_getD,
          hbyte]
      · have hp' : p < old := by omega
        rw [List.getD_append_right _ _ _ _ (Nat.not_lt.mp hin), List.getD_eq_getElem?_getD,
          List.getElem?_drop, ← List.getD_eq_getElem?_getD,
          show offset + data.length + (p - offset - data.length) = p by omega, getD_take _ hp',
          hover.outside p (.inr (by omega))]

/-! ## The calls -/

namespace Geom

variable {g : Geom} {s s' : FFS} {t t' : St} {i fh ino : Nat} {m : FileMetadata}

/-- Handles and the rest of the table come and go; inode `i` and its bytes stay. -/
structure Stays (g : Geom) (t : St) (i : Nat) (t' : St) : Prop where
  usable : g.Usable t' i
  ino : t'.ino i = t.ino i
  bytes : (t'.ino i).fileBytes t'.data = (t.ino i).fileBytes t.data

theorem Stays.refl (hu : g.Usable t i) : g.Stays t i t := ⟨hu, rfl, rfl⟩

theorem Stays.trans {t'' : St} (h : g.Stays t i t') (h' : g.Stays t' i t'') :
    g.Stays t i t'' where
  usable := h'.usable
  ino := h'.ino.trans h.ino
  bytes := h'.bytes.trans h.bytes

theorem stays_withOffset {id : Nat} (hu : g.Usable t m.inode) (x : Nat) :
    g.Stays t m.inode (t.withOffset id m x) := ⟨hu.withOffset x, rfl, rfl⟩

theorem stays_opened (hu : g.Usable t i) (j : Nat) : g.Stays t i (t.opened j) where
  usable :=
    { cursors := ⟨hu.cursors.lastInode, hu.cursors.lastData⟩
      lt := hu.lt
      inRange := hu.inRange
      mapped := hu.mapped
      nodup := hu.nodup
      marked := hu.marked }
  ino := rfl
  bytes := rfl

/-- `seek` to a position of its own. -/
theorem runs_seekStart {id : Nat} (hopen : t.openFiles id = some m) (offset : UInt64) :
    Prog.Runs g.Rep (seek id (.start offset)) t offset.toNat
      (t.withOffset id m offset.toNat) :=
  (runs_handle hopen).bind (runs_getFormat.bind ((Prog.Runs.pure _ _).bind
    ((runs_setOffset _).bind (Prog.Runs.pure _ _))))

/-- `read` refuses a size that the blocks do not reach. -/
theorem wpr_read_refused {id len : Nat} (hopen : t.openFiles id = some m)
    (hu : g.Usable t m.inode) (hlen : len ≠ 0)
    (hsize : ¬ (t.ino m.inode).size ≤ (t.ino m.inode).blocks * BLOCK_SIZE) :
    Prog.wpr g.Rep (FormatV1.read id len) (fun _ _ => False) (fun _ _ => True) t := by
  refine (runs_handle hopen).seq ?_
  refine Prog.wpr_ite (fun h0 => absurd h0 hlen) fun _ => runs_getFormat.seq ?_
  refine (runs_onDevice (runs_readInode hu.lt)).seq ?_
  exact Prog.wpr_guard (fun _ => trivial) fun hn => absurd (Nat.not_lt.mp hn) hsize

/-- Through a handle on a file whose blocks reach its size, `read` returns its bytes. -/
theorem read_iff {c : List UInt8} {size : Nat} (hs : g.Rep s t)
    (hopen : t.openFiles (fh % U32) = some m) (hu : g.Usable t m.inode)
    (hsize : (t.ino m.inode).size = size) :
    (∃ s', Fuse.read fh 0 size s = .ok (.ok c) s') ↔
      (size = 0 ∨ size ≤ (t.ino m.inode).blocks * BLOCK_SIZE) ∧
        c = ((t.ino m.inode).fileBytes t.data).take size := by
  obtain ⟨s₁, hseek, hs₁⟩ := runs_seekStart (g := g) hopen 0 s hs
  have hu₁ : g.Usable (t.withOffset (fh % U32) m (0 : UInt64).toNat) m.inode := hu.withOffset _
  have hopen₁ : (t.withOffset (fh % U32) m (0 : UInt64).toNat).openFiles (fh % U32) =
      some { m with offset := (0 : UInt64).toNat } := St.withOffset_openFiles _
  -- what `read` ends with is what the reply is made of
  have hreply : (∃ s', Fuse.read fh 0 size s = .ok (.ok c) s') ↔
      ∃ s', FormatV1.read (fh % U32) size s₁ = .ok c s' := by
    have heq : Fuse.read fh 0 size s = _ := Prog.bind_of_ok (Prog.attempt_of_ok hseek) _
    rw [heq]
    constructor
    · rintro ⟨s', hrun⟩
      obtain ⟨r, s₂, hattempt, hreply⟩ := Prog.of_ok_bind hrun
      cases r with
      | error e => cases hreply
      | ok bs =>
          cases hreply
          exact ⟨_, Prog.of_ok_attempt hattempt⟩
    · rintro ⟨s', hread⟩
      exact ⟨s', Prog.bind_of_ok (Prog.attempt_of_ok hread) _⟩
  rw [hreply]
  by_cases hzero : size = 0
  · subst hzero
    have hrun : Prog.Runs g.Rep (FormatV1.read (fh % U32) 0) _ [] _ :=
      (runs_handle hopen₁).bind (Prog.Runs.branch rfl (Prog.Runs.pure _ _))
    obtain ⟨s₂, hs₂, -⟩ := hrun s₁ hs₁
    rw [hs₂]
    simp [eq_comm]
  · by_cases hfits : size ≤ (t.ino m.inode).blocks * BLOCK_SIZE
    · have hread := @runs_read g _ (fh % U32) { m with offset := (0 : UInt64).toNat } hu₁ hopen₁
        size hzero (hsize ▸ hfits)
      obtain ⟨s₂, hs₂, -⟩ := hread s₁ hs₁
      rw [hs₂]
      have hbytes : readBytes (t.withOffset (fh % U32) m (0 : UInt64).toNat)
          { m with offset := (0 : UInt64).toNat } size =
          ((t.ino m.inode).fileBytes t.data).take size := by
        show slice ((t.ino m.inode).fileBytes t.data) 0 (min size ((t.ino m.inode).size - 0)) = _
        rw [hsize, Nat.sub_zero, Nat.min_self]
        rfl
      rw [hbytes]
      simp [hfits, eq_comm]
    · refine iff_of_false (fun h => ?_) fun h => h.1.elim hzero hfits
      obtain ⟨s₂, hs₂⟩ := h
      have hrefused := @wpr_read_refused g _ { m with offset := (0 : UInt64).toNat } (fh % U32) size
        hopen₁ hu₁ hzero (hsize ▸ hfits)
      obtain ⟨_, -, hfalse⟩ := hrefused.of_ok hs₁ hs₂
      exact hfalse

/-- A `read` that replies, with data or with an error, moves its handle alone. -/
theorem stays_of_read {offset : UInt64} {size : Nat} {r : Except Errno (List UInt8)}
    (hs : g.Rep s t) (hopen : t.openFiles (fh % U32) = some m) (hu : g.Usable t m.inode)
    (hrun : Fuse.read fh offset size s = .ok r s') :
    ∃ t', g.Rep s' t' ∧ g.Stays t m.inode t' := by
  obtain ⟨s₁, hseek, hs₁⟩ := runs_seekStart (g := g) hopen offset s hs
  have hstay₁ := @stays_withOffset g t m (fh % U32) hu offset.toNat
  have hopen₁ : (t.withOffset (fh % U32) m offset.toNat).openFiles (fh % U32) =
      some { m with offset := offset.toNat } := St.withOffset_openFiles _
  have hhandle := @Usable.handle g _ (fh % U32) { m with offset := offset.toNat } hstay₁.usable
    hopen₁
  have heq : Fuse.read fh offset size s = _ := Prog.bind_of_ok (Prog.attempt_of_ok hseek) _
  rw [heq] at hrun
  obtain ⟨r, s₂, hattempt, hreply⟩ := Prog.of_ok_bind hrun
  have hend := Prog.of_ok_attempt hattempt
  have hspec := @wpr_readFile g _ (fh % U32) hhandle size
  cases r with
  | error e =>
      cases hreply
      obtain ⟨t₂, hs₂, rfl⟩ := hspec.of_err hs₁ hend
      exact ⟨_, hs₂, hstay₁⟩
  | ok bs =>
      cases hreply
      obtain ⟨t₂, hs₂, ⟨rfl, -⟩ | ⟨m', hm', -, -, rfl⟩⟩ := hspec.of_ok hs₁ hend
      · exact ⟨_, hs₂, hstay₁⟩
      · cases hopen₁.symm.trans hm'
        exact ⟨_, hs₂, hstay₁.trans (stays_withOffset hstay₁.usable _)⟩

theorem wp_openFileFromInode (hs : g.Rep s t) :
    Prog.wp (openFileFromInode i) (fun _ s' => g.Rep s' (t.opened i)) (fun _ s' => s' = s) s := by
  refine wp_getFormat ?_
  refine Prog.wp_seq (wp_readOnly (readOnly_isAllocated _ _)) ?_ fun _ _ he => he
  intro allocated s' hallocated
  obtain ⟨rfl, -⟩ := hallocated
  refine Prog.wp_guard (fun _ => rfl) fun _ => ?_
  refine Prog.wp_seq (wp_inode hs) ?_ fun _ _ he => he
  intro n s₁ hn
  obtain ⟨rfl, -⟩ := hn
  refine Prog.wp_guard (fun _ => rfl) fun _ => ?_
  refine Prog.wp_bind.mpr (Prog.wp_checkedAdd fun _ => ?_)
  rw [hs.2]
  have hspec : Prog.wpr g.Rep (modifyFormat (fun f => { f with
        nextFileId := t.nextFileId + 1
        openFiles := Function.update f.openFiles f.nextFileId (some ⟨i, 0⟩) }) >>=
        fun _ => pure t.nextFileId) (fun _ t' => t' = t.opened i) (fun _ _ => False) t :=
    wpr_modifyFormat (t.opened i) rfl rfl (Prog.wpr_pure rfl)
  refine Prog.wp_mono (hspec s₁ hs) ?_ ?_
  · intro _ s' h
    obtain ⟨_, hs', rfl⟩ := h
    exact hs'
  · intro _ _ h
    exact h.choose_spec.2.elim

theorem stays_of_open {r : Except Errno Nat} (hs : g.Rep s t) (hu : g.Usable t i)
    (hino : Fuse.v1InodeNumber ino = i) (hrun : Fuse.openIno ino s = .ok r s') :
    ∃ t', g.Rep s' t' ∧ g.Stays t i t' := by
  obtain ⟨q, s₁, hq, hrest⟩ := Prog.of_ok_bind hrun
  obtain ⟨rfl, rfl⟩ := toV1InodeNumber_ok hq
  rw [hino] at hrest
  obtain ⟨r, s₂, hattempt, hreply⟩ := Prog.of_ok_bind hrest
  have hend := Prog.of_ok_attempt hattempt
  cases r with
  | error e =>
      cases hreply
      cases (wp_openFileFromInode hs).of_err hend
      exact ⟨t, hs, .refl hu⟩
  | ok id =>
      cases hreply
      exact ⟨_, (wp_openFileFromInode hs).of_ok hend, stays_opened hu i⟩

/-! ## `setattr` and `write` -/

theorem secsSinceEpoch_ok {time : Int64} {secs : Nat}
    (h : Fuse.secsSinceEpoch time s = .ok secs s') : secs < 2 ^ 64 ∧ s' = s := by
  unfold Fuse.secsSinceEpoch at h
  split at h
  · cases h
  · cases h
    have hlt := time.toInt_lt
    exact ⟨by omega, rfl⟩

theorem newModified_ok {mtime : Option Fuse.TimeOrNow} {now : UInt64} {n : INode} {secs : Nat}
    (hn : n.InRange) (h : Fuse.newModified mtime now n s = .ok secs s') :
    secs < 2 ^ 64 ∧ s' = s := by
  unfold Fuse.newModified at h
  split at h
  · cases h
    exact ⟨now.toNat_lt, rfl⟩
  · exact secsSinceEpoch_ok h
  · cases h
    exact ⟨hn.modified, rfl⟩

theorem newCreated_ok {ctime : Option Int64} {n : INode} {secs : Nat} (hn : n.InRange)
    (h : Fuse.newCreated ctime n s = .ok secs s') : secs < 2 ^ 64 ∧ s' = s := by
  unfold Fuse.newCreated at h
  split at h
  · exact secsSinceEpoch_ok h
  · cases h
    exact ⟨hn.created, rfl⟩

theorem writeInode_ok {n : INode} (hs : g.Rep s t) (hi : i < g.inodes) (hn : n.InRange)
    (h : writeInode i n s = .ok () s') :
    g.Rep s' { t with ino := Function.update t.ino i n } := by
  obtain ⟨f, s₁, hf, h⟩ := Prog.of_ok_bind h
  cases hf
  obtain ⟨allocated, s₁, halloc, h⟩ := Prog.of_ok_bind h
  obtain ⟨rfl, -⟩ := (wp_readOnly (readOnly_isAllocated _ _)).of_ok halloc
  obtain ⟨-, h⟩ := Prog.of_ok_guard h
  rw [hs.2] at h
  obtain ⟨s₂, hrun, hs₂⟩ := runs_onDevice (runs_writeInode hi hn) _ hs
  cases hrun.symm.trans h
  exact hs₂

/-- The size has changed, and no block. -/
structure Sized (g : Geom) (t : St) (i size : Nat) (t' : St) : Prop where
  usable : g.Usable t' i
  size : (t'.ino i).size = size
  blocks : (t'.ino i).blocks = (t.ino i).blocks
  bytes : (t'.ino i).fileBytes t'.data = (t.ino i).fileBytes t.data

/-- The inode has got other attributes. -/
theorem sized_update {permissions size created modified : Nat} {n : INode}
    (hu : g.Usable t i) (hn : n.InRange) (heq : n = { t.ino i with
      permissions := permissions, size := size, modified := modified, created := created }) :
    g.Sized t i size { t with ino := Function.update t.ino i n } := by
  have hino : Function.update t.ino i n i = { t.ino i with
      permissions := permissions, size := size, modified := modified, created := created } := by
    rw [Function.update_self, heq]
  exact
    { usable :=
        { cursors := ⟨hu.cursors.lastInode, hu.cursors.lastData⟩
          lt := hu.lt
          inRange := by
            show (Function.update t.ino i n i).InRange
            rwa [Function.update_self]
          mapped := by
            show (Function.update t.ino i n i).Mapped g t.data
            rw [hino]
            exact ⟨hu.mapped.blocks_le, hu.mapped.lt⟩
          nodup := by
            show ((Function.update t.ino i n i).owned t.data).Nodup
            rw [hino]
            exact hu.nodup
          marked := by
            show ∀ b ∈ (Function.update t.ino i n i).owned t.data, t.dbit b = true
            rw [hino]
            exact hu.marked }
      size := congrArg INode.size hino
      blocks := by
        show (Function.update t.ino i n i).blocks = _
        rw [hino]
      bytes := by
        show (Function.update t.ino i n i).fileBytes t.data = _
        rw [hino]
        rfl }

theorem sized_of_setattr {mode : Option UInt32} {size : UInt64} {mtime : Option Fuse.TimeOrNow}
    {ctime : Option Int64} {now : UInt64} {attr : Fuse.FileAttr} (hs : g.Rep s t)
    (hu : g.Usable t i) (hino : Fuse.v1InodeNumber ino = i)
    (hrun : Fuse.setattr ino mode (some size) mtime ctime now s = .ok (.ok attr) s') :
    ∃ t', g.Rep s' t' ∧ g.Sized t i size.toNat t' := by
  obtain ⟨q, s₁, hq, hrun₁⟩ := Prog.of_ok_bind hrun
  obtain ⟨rfl, rfl⟩ := toV1InodeNumber_ok hq
  rw [hino] at hrun₁
  obtain ⟨r, s₂, hattempt, hrun₂⟩ := Prog.of_ok_bind hrun₁
  have hget := Prog.of_ok_attempt hattempt
  cases r with
  | error e => cases hrun₂
  | ok n =>
    obtain ⟨rfl, -, rfl⟩ := (wp_getInode_value hs).of_ok hget
    dsimp only at hrun₂
    split at hrun₂
    · cases hrun₂
    obtain ⟨modified, s₃, hmodified, hrun₃⟩ := Prog.of_ok_bind hrun₂
    obtain ⟨hmod, rfl⟩ := newModified_ok hu.inRange hmodified
    obtain ⟨created, s₄, hcreated, hrun₄⟩ := Prog.of_ok_bind hrun₃
    obtain ⟨hcre, rfl⟩ := newCreated_ok hu.inRange hcreated
    obtain ⟨r', s₅, hattempt', hrun₅⟩ := Prog.of_ok_bind hrun₄
    have hwrite := Prog.of_ok_attempt hattempt'
    cases r' with
    | error e => cases hrun₅
    | ok a =>
      obtain ⟨attr', s₆, hattr, hrun₆⟩ := Prog.of_ok_bind hrun₅
      obtain rfl := (readOnly_fileAttr _ _).of_ok hattr
      cases hrun₆
      have hn : ({ t.ino i with
          permissions := (mode.map fun mode => mode.toNat % U16).getD (t.ino i).permissions
          size := size.toNat, modified := modified, created := created } : INode).InRange :=
        { hu.inRange with
          size := size.toNat_lt
          permissions := by
            cases mode with
            | none => exact hu.inRange.permissions
            | some mode => exact Nat.mod_lt _ (by decide)
          modified := hmod
          created := hcre }
      exact ⟨_, writeInode_ok hs hu.lt hn hwrite, sized_update hu hn rfl⟩

/-- A write that reports all of its data, at a position whose block number is not cut. -/
theorem wrote_of_write {offset : UInt64} {data : List UInt8} {now : UInt64} (hs : g.Rep s t)
    (hopen : t.openFiles (fh % U32) = some m) (hu : g.Usable t m.inode)
    (hrun : Fuse.write fh offset data now s = .ok (.ok data.length) s') :
    ∃ t', g.Rep s' t' ∧ (data = [] ∧ g.Stays t m.inode t' ∨ g.Usable t' m.inode ∧ data ≠ [] ∧
      (t'.ino m.inode).size = max (t.ino m.inode).size (offset.toNat + data.length) ∧
      (offset.toNat < 2 ^ 40 →
        offset.toNat + data.length ≤ BLOCK_SIZE * (t'.ino m.inode).blocks ∧
        (t.ino m.inode).blocks ≤ (t'.ino m.inode).blocks ∧
        Overwrites (s.bytes m.inode) (s'.bytes m.inode) offset.toNat data)) := by
  obtain ⟨s₁, hseek, hs₁⟩ := runs_seekStart (g := g) hopen offset s hs
  have hstay := @stays_withOffset g t m (fh % U32) hu offset.toNat
  have hopen₁ : (t.withOffset (fh % U32) m offset.toNat).openFiles (fh % U32) =
      some { m with offset := offset.toNat } := St.withOffset_openFiles _
  have hhandle := @Usable.handle g _ (fh % U32) { m with offset := offset.toNat } hstay.usable
    hopen₁
  have heq : Fuse.write fh offset data now s = _ := Prog.bind_of_ok (Prog.attempt_of_ok hseek) _
  rw [heq] at hrun
  obtain ⟨r, s₂, hattempt, hreply⟩ := Prog.of_ok_bind hrun
  have hend := Prog.of_ok_attempt hattempt
  cases r with
  | error e => cases hreply
  | ok k =>
    have hreply : (Outcome.ok (.ok (k % U32)) s₂ : Outcome FSError FFS (Except Errno Nat)) =
      .ok (.ok data.length) s' := hreply
    injection hreply with hk hstate
    injection hk with hk
    subst hstate
    obtain ⟨t', hs', hwrite⟩ := (wpr_write hhandle).of_ok hs₁ hend
    refine ⟨t', hs', ?_⟩
    rcases hwrite with ⟨hnil, -, rfl⟩ | ⟨m', metas, datas, data₁, n₁, data', hw⟩
    · exact .inl ⟨hnil, hstay⟩
    · cases hopen₁.symm.trans hw.opened
      have hall : k = data.length := by
        have hcount := hw.count
        have hmod := Nat.mod_le k U32
        omega
      subst hall
      have hne : data.length ≠ 0 := fun h0 => hw.nonempty (List.length_eq_zero_iff.mp h0)
      have hcont := Wrote.continued (m := { m with offset := offset.toNat }) hs₁ hs' hstay.usable hw
      refine .inr ⟨hw.usable hstay.usable, hw.nonempty, ?_, fun hlow => ?_⟩
      · rw [hcont.size, sizeAfter, if_neg hne]
        rfl
      · have hlows : AllLow [(offset.toNat, data.length)] := by
          intro w hw _
          cases List.mem_singleton.mp hw
          exact hlow
        refine ⟨hcont.within hlows _ List.mem_cons_self hne, hcont.blocks_le, ?_⟩
        have hover := (Wrote.overwrites_iff (m := { m with offset := offset.toNat }) hs₁ hs'
          hstay.usable hw).mpr (.inl hlow)
        rw [List.take_length] at hover
        have hbytes : s₁.bytes m.inode = s.bytes m.inode := by
          rw [FFS.bytes, FFS.bytes, hs₁.view_eq, hs.view_eq]
          rfl
        rw [← hbytes]
        exact hover

end Geom

/-! ## Runs -/

/-- A call that changes the contents of a file. -/
inductive FileCall where
  | resize (size : Nat)
  | write (offset : Nat) (data : List UInt8)

namespace FFS

/-- What the file `i` holds. -/
def contents (s : FFS) (i : Nat) : List UInt8 := (s.bytes i).take (s.view.ino i).size

/-- Up to `position` the blocks hold zeros behind the end of the file. -/
def ZeroUpTo (s : FFS) (i position : Nat) : Prop :=
  ∀ p, (s.view.ino i).size ≤ p → p < position → (s.bytes i).getD p 0 = 0

/-- The blocks reach the new size, or the old one, and what lies between the end of the file
and the new size, or the position that is written to, holds zeros. -/
def Exact (s : FFS) (i : Nat) : FileCall → Prop
  | .resize size => size ≤ (s.view.ino i).blocks * BLOCK_SIZE ∧ s.ZeroUpTo i size
  | .write offset data => data = [] ∨
      (s.view.ino i).size ≤ (s.view.ino i).blocks * BLOCK_SIZE ∧ offset < 2 ^ 40 ∧
        s.ZeroUpTo i offset

end FFS

/-- Calls that open the file `i` or read it. -/
inductive Looks (i : Nat) (s : FFS) : FFS → Prop where
  | nil : Looks i s s
  | openIno {s' s'' : FFS} {ino : Nat} {r : Except Errno Nat} (h : Looks i s s')
      (hino : Fuse.v1InodeNumber ino = i) (hrun : Fuse.openIno ino s' = .ok r s'') : Looks i s s''
  | read {s' s'' : FFS} {fh size : Nat} {offset : UInt64} {m : FileMetadata}
      {r : Except Errno (List UInt8)} (h : Looks i s s')
      (hopen : s'.format.openFiles (fh % U32) = some m) (hm : m.inode = i)
      (hrun : Fuse.read fh offset size s' = .ok r s'') : Looks i s s''

/-- From `s₀` on the file `i` was resized and written to, with replies that all went well,
where `ok` allows for it, and opened and read. With the state goes what the file should
hold. -/
inductive Resizing (ok : FFS → FileCall → Prop) (i : Nat) (s₀ : FFS) :
    FFS → List UInt8 → Prop where
  | start : Resizing ok i s₀ s₀ (s₀.contents i)
  | setattr {s s' : FFS} {c : List UInt8} {ino : Nat} {mode : Option UInt32} {size : UInt64}
      {mtime : Option Fuse.TimeOrNow} {ctime : Option Int64} {now : UInt64}
      {attr : Fuse.FileAttr} (h : Resizing ok i s₀ s c) (hino : Fuse.v1InodeNumber ino = i)
      (hok : ok s (.resize size.toNat))
      (hrun : Fuse.setattr ino mode (some size) mtime ctime now s = .ok (.ok attr) s') :
      Resizing ok i s₀ s' (resized c size.toNat)
  | write {s s' : FFS} {c data : List UInt8} {fh : Nat} {offset now : UInt64}
      {m : FileMetadata} (h : Resizing ok i s₀ s c)
      (hopen : s.format.openFiles (fh % U32) = some m) (hm : m.inode = i)
      (hok : ok s (.write offset.toNat data))
      (hrun : Fuse.write fh offset data now s = .ok (.ok data.length) s') :
      Resizing ok i s₀ s' (overwritten c offset.toNat data)
  | looks {s s' : FFS} {c : List UInt8} (h : Resizing ok i s₀ s c) (hlook : Looks i s s') :
      Resizing ok i s₀ s' c

namespace Geom

variable {g : Geom} {s₀ s s' : FFS} {t₀ t t' : St} {i : Nat} {c : List UInt8}

theorem stays_of_looks (hs : g.Rep s t) (hu : g.Usable t i) (h : Looks i s s') :
    ∃ t', g.Rep s' t' ∧ g.Stays t i t' := by
  induction h with
  | nil => exact ⟨t, hs, .refl hu⟩
  | openIno _ hino hrun ih =>
      obtain ⟨t₁, hs₁, hstay⟩ := ih
      obtain ⟨t₂, hs₂, hstay'⟩ := stays_of_open hs₁ hstay.usable hino hrun
      exact ⟨t₂, hs₂, hstay.trans hstay'⟩
  | read _ hopen hm hrun ih =>
      subst hm
      obtain ⟨t₁, hs₁, hstay⟩ := ih
      obtain ⟨t₂, hs₂, hstay'⟩ :=
        stays_of_read hs₁ (hs₁.openFiles_eq ▸ hopen) hstay.usable hrun
      exact ⟨t₂, hs₂, hstay.trans hstay'⟩

theorem Rep.bytes_eq (hs : g.Rep s t) (i : Nat) :
    s.bytes i = (t.ino i).fileBytes t.data := by
  rw [FFS.bytes, hs.view_eq]

theorem Rep.contents_eq (hs : g.Rep s t) (i : Nat) :
    s.contents i = ((t.ino i).fileBytes t.data).take (t.ino i).size := by
  rw [FFS.contents, hs.bytes_eq, hs.view_eq]

theorem Stays.contents_eq (hs : g.Rep s t) (hs' : g.Rep s' t') (h : g.Stays t i t') :
    s'.contents i = s.contents i := by
  rw [hs'.contents_eq, hs.contents_eq, h.bytes, h.ino]

/-- A size that the blocks reach gives the right contents exactly when it meets zeros. -/
theorem Sized.contents_iff {size : Nat} (hs : g.Rep s t) (h : g.Sized t i size t')
    (hfits : size ≤ (t.ino i).blocks * BLOCK_SIZE) :
    resized (s.contents i) size = ((t'.ino i).fileBytes t'.data).take size ↔
      s.ZeroUpTo i size := by
  have hlen : size ≤ ((t.ino i).fileBytes t.data).length := by
    rw [INode.fileBytes_length, Nat.mul_comm]
    exact hfits
  rw [h.bytes, hs.contents_eq, FFS.ZeroUpTo, hs.view_eq, hs.bytes_eq]
  exact resized_take_iff hlen

/-- The file holds what it should. -/
theorem contents_of_resizing (hs : g.Rep s₀ t₀) (hu : g.Usable t₀ i)
    (h : Resizing (fun s call => s.Exact i call) i s₀ s c) :
    ∃ t, g.Rep s t ∧ g.Usable t i ∧ s.contents i = c := by
  induction h with
  | start => exact ⟨t₀, hs, hu, rfl⟩
  | @setattr s₁ s₂ c₁ ino mode size mtime ctime now attr _ hino hok hrun ih =>
      obtain ⟨t₁, hs₁, hu₁, rfl⟩ := ih
      obtain ⟨t₂, hs₂, hsized⟩ := sized_of_setattr hs₁ hu₁ hino hrun
      refine ⟨t₂, hs₂, hsized.usable, ?_⟩
      have hfits := hok.1
      rw [hs₁.view_eq] at hfits
      rw [hs₂.contents_eq, hsized.size]
      exact ((hsized.contents_iff hs₁ hfits).mpr hok.2).symm
  | @write s₁ s₂ c₁ data fh offset now m _ hopen hm hok hrun ih =>
      subst hm
      obtain ⟨t₁, hs₁, hu₁, rfl⟩ := ih
      obtain ⟨t₂, hs₂, ⟨rfl, hstay⟩ | ⟨hu₂, hne, hsize, hdone⟩⟩ :=
        wrote_of_write hs₁ (hs₁.openFiles_eq ▸ hopen) hu₁ hrun
      · refine ⟨t₂, hs₂, hstay.usable, ?_⟩
        rw [overwritten, if_pos rfl]
        exact hstay.contents_eq hs₁ hs₂
      · refine ⟨t₂, hs₂, hu₂, ?_⟩
        obtain ⟨hfits, hlow, hzero⟩ := hok.resolve_left hne
        obtain ⟨hend, hblocks, hover⟩ := hdone hlow
        rw [FFS.ZeroUpTo, hs₁.view_eq] at hzero
        rw [hs₁.view_eq] at hfits
        have hlen₁ : (s₁.bytes m.inode).length = BLOCK_SIZE * (t₁.ino m.inode).blocks := by
          rw [hs₁.bytes_eq, INode.fileBytes_length]
        have hlen₂ : (s₂.bytes m.inode).length = BLOCK_SIZE * (t₂.ino m.inode).blocks := by
          rw [hs₂.bytes_eq, INode.fileBytes_length]
        have hle := Nat.mul_le_mul_left BLOCK_SIZE hblocks
        rw [FFS.contents, FFS.contents, hs₁.view_eq, hs₂.view_eq, hsize]
        refine (overwritten_take hne hover ?_ ?_ hzero).symm
        · rw [hlen₁, Nat.mul_comm]
          exact hfits
        · rw [hlen₂]
          rw [Nat.mul_comm] at hfits
          omega
  | looks _ hlook ih =>
      obtain ⟨t₁, hs₁, hu₁, rfl⟩ := ih
      obtain ⟨t₂, hs₂, hstay⟩ := stays_of_looks hs₁ hu₁ hlook
      exact ⟨t₂, hs₂, hstay.usable, hstay.contents_eq hs₁ hs₂⟩

end Geom

/-- A call that has a state to go on from and replied without an error. -/
theorem replied {ε σ ε' α : Type} {o : Outcome ε σ (Except ε' α)} {s : σ}
    (h : (o.value?.bind Except.toOption).isSome = true) (hs : o.state? = some s) :
    ∃ a, o = .ok (.ok a) s := by
  cases o with
  | ok r s' =>
      cases hs
      cases r with
      | ok a => exact ⟨a, rfl⟩
      | error e => cases h
  | err e s' => cases h
  | panic => cases h

end FerrisFS
