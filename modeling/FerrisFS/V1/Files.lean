import FerrisFS.V1.Observe

/-!
# Open files

Opening, closing, seeking, reading and truncating: what each does to the state,
and that it keeps the invariant.
-/

namespace FerrisFS

open Lib DirectoryHandler INodeTableHandler FormatV1

namespace St

/-- A new handle on inode `i`. -/
def opened (t : St) (i : Nat) : St :=
  { t with
    nextFileId := t.nextFileId + 1
    openFiles := Function.update t.openFiles t.nextFileId (some ⟨i, 0⟩) }

def closed (t : St) (id : Nat) : St :=
  { t with openFiles := Function.update t.openFiles id none }

/-- The size of the file `i` is reduced. -/
def truncated (t : St) (i size : Nat) (now : UInt64) : St :=
  { t with ino := Function.update t.ino i { t.ino i with modified := now.toNat, size := size } }

theorem truncated_ino (t : St) {i size : Nat} {now : UInt64} :
    (t.truncated i size now).ino i = { t.ino i with modified := now.toNat, size := size } :=
  Function.update_self ..

end St

namespace Geom

variable {g : Geom} {gaps : Bool} {t t' : St} {id : Nat} {m : FileMetadata}

theorem runs_closeFile : Prog.Runs g.Rep (closeFile id) t () (t.closed id) :=
  runs_modifyFormat rfl rfl

/-- The sum that `seek` computes, if it does not overflow. -/
def seekValue (base : Nat) (offset : Int64) : Option Nat :=
  if -2 ^ 63 ≤ toI64 base + offset.toInt ∧ toI64 base + offset.toInt < 2 ^ 63 then
    some (max (toI64 base + offset.toInt) 0).toNat
  else none

/-- Where `seek` goes from `offset` in a file of the given size. -/
def seekPlace (offset size : Nat) : SeekFrom → Option Nat
  | .start position => some position.toNat
  | .current d => seekValue offset d
  | .fromEnd d => seekValue size d

/-- The position that `seek` sets. -/
def seekPosition (t : St) (m : FileMetadata) (pos : SeekFrom) : Option Nat :=
  seekPlace m.offset (t.ino m.inode).size pos

theorem wpa_seek (h : ∀ m, t.openFiles id = some m → g.Usable t m.inode) {pos : SeekFrom} :
    Prog.wpa g.Rep (seek id pos)
      (fun r t' => ∃ m, t.openFiles id = some m ∧ seekPosition t m pos = some r ∧
        t' = t.withOffset id m r)
      (fun _ t' => t' = t ∧ t.openFiles id = none)
      (∃ m, t.openFiles id = some m ∧ seekPosition t m pos = none) t := by
  refine wpa_handle (fun hnone => ⟨rfl, hnone⟩) fun m hopen => ?_
  refine runs_getFormat.andThen ?_
  have hset : ∀ r, seekPosition t m pos = some r →
      Prog.wpa g.Rep (setOffset id m r >>= fun _ => pure r)
        (fun r t' => ∃ m, t.openFiles id = some m ∧ seekPosition t m pos = some r ∧
          t' = t.withOffset id m r)
        (fun _ t' => t' = t ∧ t.openFiles id = none)
        (∃ m, t.openFiles id = some m ∧ seekPosition t m pos = none) t := by
    intro r hr
    exact (runs_setOffset r).andThen (Prog.wpa_pure ⟨m, hopen, hr, rfl⟩)
  have hsum : ∀ base offset, seekPosition t m pos = seekValue base offset →
      Prog.wpa g.Rep (seekSum base offset >>= fun o => setOffset id m o >>= fun _ => pure o)
        (fun r t' => ∃ m, t.openFiles id = some m ∧ seekPosition t m pos = some r ∧
          t' = t.withOffset id m r)
        (fun _ t' => t' = t ∧ t.openFiles id = none)
        (∃ m, t.openFiles id = some m ∧ seekPosition t m pos = none) t := by
    intro base offset hpos
    refine Prog.wpa_bind (Prog.wpa_ite (fun hin => Prog.wpa_pure (hset _ ?_))
      fun hout => Prog.wpa_abort ⟨m, hopen, ?_⟩)
    · rw [hpos, seekValue, if_pos hin]
    · rw [hpos, seekValue, if_neg hout]
  match pos with
  | .start offset => exact (Prog.Runs.pure _ _).andThen (hset _ rfl)
  | .current offset => exact hsum m.offset offset rfl
  | .fromEnd offset =>
      exact (runs_onDevice (runs_readInode (h m hopen).lt)).andThen (hsum _ offset rfl)

theorem wpr_seek (h : ∀ m, t.openFiles id = some m → g.Usable t m.inode) {pos : SeekFrom} :
    Prog.wpr g.Rep (seek id pos)
      (fun r t' => ∃ m, t.openFiles id = some m ∧ seekPosition t m pos = some r ∧
        t' = t.withOffset id m r)
      (fun _ t' => t' = t) t :=
  Prog.wpr_mono (wpa_seek h).wpr (fun _ _ hr => hr) fun _ _ he => he.1

/-- What `read` returns: the bytes from the handle's offset on, up to `len` of them and
to the end of the file. -/
def readBytes (t : St) (m : FileMetadata) (len : Nat) : List UInt8 :=
  slice ((t.ino m.inode).fileBytes t.data) m.offset
    (min len ((t.ino m.inode).size - m.offset))

theorem runs_read (h : g.Usable t m.inode) (hopen : t.openFiles id = some m) {len : Nat}
    (hlen : len ≠ 0) (hsize : (t.ino m.inode).size ≤ (t.ino m.inode).blocks * BLOCK_SIZE) :
    Prog.Runs g.Rep (read id len) t (readBytes t m len)
      (t.withOffset id m (m.offset + min len ((t.ino m.inode).size - m.offset))) := by
  have hm := h.mapped
  refine (runs_handle hopen).bind ?_
  refine Prog.Runs.guard hlen (runs_getFormat.bind ?_)
  refine (runs_onDevice (runs_readInode h.lt)).bind ?_
  refine Prog.Runs.guard (Nat.not_lt.mpr hsize) ?_
  have hloop := runs_readLoop (g := g) len hsize (len + 1)
    (m.offset / BLOCK_SIZE % U32) (m.offset % BLOCK_SIZE) [] m t hm hopen (by simp) ?_
  · simpa [readBytes] using hloop
  · intro _ hlt
    have hbs : BLOCK_SIZE = 256 := rfl
    have hmax : INode.MAX_BLOCKS = 4172 := rfl
    have hle := hm.blocks_le
    have hu : U32 = 4294967296 := rfl
    rw [hbs] at hsize ⊢
    rw [hu]
    omega

theorem wpr_readFile (h : ∀ m, t.openFiles id = some m → g.Usable t m.inode) {len : Nat} :
    Prog.wpr g.Rep (read id len)
      (fun r t' => t' = t ∧ r = [] ∨ ∃ m, t.openFiles id = some m ∧
        (t.ino m.inode).size ≤ (t.ino m.inode).blocks * BLOCK_SIZE ∧ r = readBytes t m len ∧
        t' = t.withOffset id m (m.offset + min len ((t.ino m.inode).size - m.offset)))
      (fun _ t' => t' = t) t := by
  by_cases hlen : len = 0
  · refine wpr_handle (fun _ => rfl) fun m hopen => ?_
    refine Prog.wpr_ite (fun _ => Prog.wpr_pure (.inl ⟨rfl, rfl⟩)) fun hne => absurd hlen hne
  · cases hopen : t.openFiles id with
    | none =>
        refine wpr_handle (fun _ => rfl) fun m hm => ?_
        rw [hopen] at hm
        cases hm
    | some m =>
        by_cases hsize : (t.ino m.inode).size ≤ (t.ino m.inode).blocks * BLOCK_SIZE
        · exact (runs_read (h m hopen) hopen hlen hsize).wpr (.inr ⟨m, rfl, hsize, rfl, rfl⟩)
        · refine (runs_handle hopen).seq ?_
          refine Prog.wpr_ite (fun h0 => absurd h0 hlen) fun _ => runs_getFormat.seq ?_
          refine (runs_onDevice (runs_readInode (h m hopen).lt)).seq ?_
          exact Prog.wpr_guard (fun _ => rfl) fun hn => absurd (Nat.not_lt.mp hn) hsize

theorem runs_truncate (h : g.Usable t m.inode) (hopen : t.openFiles id = some m)
    {size now : UInt64} (hlt : size.toNat < (t.ino m.inode).size) :
    Prog.Runs g.Rep (truncate id size now) t () (t.truncated m.inode size.toNat now) := by
  refine (runs_handle hopen).bind (runs_getFormat.bind ?_)
  refine (runs_onDevice (runs_readInode h.lt)).bind (Prog.Runs.branch hlt ?_)
  have hr : ({ t.ino m.inode with modified := now.toNat, size := size.toNat } : INode).InRange :=
    { h.inRange with
      modified := now.toNat_lt
      size := size.toNat_lt }
  exact runs_onDevice (runs_writeInode h.lt hr)

theorem Usable.truncated {i : Nat} (h : g.Usable t i) (size now : UInt64) :
    g.Usable (t.truncated i size.toNat now) i where
  cursors := ⟨h.cursors.lastInode, h.cursors.lastData⟩
  lt := h.lt
  inRange := by
    rw [St.truncated_ino]
    exact { h.inRange with
      modified := now.toNat_lt
      size := size.toNat_lt }
  mapped := by
    rw [St.truncated_ino]
    exact ⟨h.mapped.blocks_le, h.mapped.lt⟩
  nodup := by
    rw [View.owned, St.truncated_ino]
    exact h.nodup
  marked := by
    intro b hb
    rw [View.owned, St.truncated_ino] at hb
    exact h.marked b hb

theorem wpr_truncate (h : ∀ m, t.openFiles id = some m → g.Usable t m.inode)
    {size now : UInt64} :
    Prog.wpr g.Rep (truncate id size now)
      (fun _ t' => t' = t ∨ ∃ m, t.openFiles id = some m ∧
        size.toNat < (t.ino m.inode).size ∧ t' = t.truncated m.inode size.toNat now)
      (fun _ t' => t' = t) t := by
  cases hopen : t.openFiles id with
  | none =>
      refine wpr_handle (fun _ => rfl) fun m hm => ?_
      rw [hopen] at hm
      cases hm
  | some m =>
      by_cases hlt : size.toNat < (t.ino m.inode).size
      · exact (runs_truncate (h m hopen) hopen hlt).wpr (.inr ⟨m, rfl, hlt, rfl⟩)
      · refine (runs_handle hopen).seq (runs_getFormat.seq ?_)
        refine (runs_onDevice (runs_readInode (h m hopen).lt)).seq ?_
        exact Prog.wpr_ite (fun hc => absurd hc hlt) fun _ => Prog.wpr_pure (.inl rfl)

/-! ## The invariant -/

theorem handled_opened {i : Nat} (hh : t.Handled) (hi : t.ibit i = true)
    (hfile : (t.ino i).fileType = .file) : (t.opened i).Handled := by
  intro id m hm
  simp only [St.opened, Function.update_apply] at hm
  split at hm
  · cases hm
    exact ⟨hi, hfile⟩
  · exact hh id m hm

theorem handled_closed (hh : t.Handled) : (t.closed id).Handled := by
  intro id' m hm
  simp only [St.closed, Function.update_apply] at hm
  split at hm
  · cases hm
  · exact hh id' m hm

theorem handled_withOffset (hh : t.Handled) (hopen : t.openFiles id = some m) (x : Nat) :
    (t.withOffset id m x).Handled := by
  intro id' m' hm'
  simp only [St.withOffset, Function.update_apply] at hm'
  split at hm'
  · cases hm'
    exact hh id m hopen
  · exact hh id' m' hm'

theorem leaf_truncated {i size : Nat} {now : UInt64} (h : g.Inv gaps t) (hi : t.ibit i = true)
    (hfile : (t.ino i).fileType ≠ .directory) (hsize : size < (t.ino i).size) :
    Inv.Leaf g t (t.truncated i size now) i [] [] := by
  have hino : (t.truncated i size now).ino i =
      { t.ino i with modified := now.toNat, size := size } := Function.update_self ..
  exact
    { live := hi
      leaf := hfile
      ibit := rfl
      dbit := (setBits_nil _ _).symm
      fresh := ⟨List.nodup_nil, by simp, by simp⟩
      sub := List.Sublist.refl _
      other := fun j hj => Function.update_of_ne hj _ _
      fileType := by rw [hino]
      links := by rw [hino]
      inRange := by
        rw [hino]
        exact { h.inRange i with
          modified := now.toNat_lt
          size := Nat.lt_trans hsize (h.inRange i).size }
      blocks_le := by
        rw [hino]
        exact (h.mapped hi).blocks_le
      owned := by
        rw [View.owned, hino, List.append_nil]
        exact List.Perm.refl _
      frame := fun _ _ _ => rfl }

theorem inv_truncated {i size : Nat} {now : UInt64} (h : g.Inv gaps t) (hi : t.ibit i = true)
    (hfile : (t.ino i).fileType ≠ .directory) (hsize : size < (t.ino i).size) :
    g.Inv gaps (t.truncated i size now) :=
  (leaf_truncated h hi hfile hsize).inv h ⟨h.cursors.lastInode, h.cursors.lastData⟩

end Geom

end FerrisFS
