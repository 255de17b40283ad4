import FerrisFS.V1.Enter

/-!
# Creating files, directories and symlinks

What `create` does to the state from the name collision check on: everything it
allocates is fresh, the new inode and its first block are written, and the record
is entered in the parent.
-/

namespace FerrisFS

open Lib DirectoryHandler INodeTableHandler FormatV1

/-- The new inode; a directory or a symlink has its first block. -/
def firstNode (fileType : FileType) (block : Nat) (now : UInt64) : INode :=
  let inode := INode.empty fileType (U16 - 1) now.toNat
  if fileType = .directory ∨ fileType = .symlink then
    { inode with
      direct := Function.update inode.direct 0 block
      blocks := 1
      size := if fileType = .directory then BLOCK_SIZE * 1 else 0 }
  else inode

/-- The data region with the first block of a new directory. -/
def newData (data : Region) (fileType : FileType) (ds : List Nat) (i p : Nat) : Region :=
  if fileType = .directory then Function.update data (ds.headD 0) (Block.newDir i p) else data

section FirstNode

variable {ft : FileType} {b : Nat} {now : UInt64} {data : Region}

@[simp] theorem firstNode_fileType : (firstNode ft b now).fileType = ft := by
  unfold firstNode
  dsimp only
  split <;> rfl

@[simp] theorem firstNode_links : (firstNode ft b now).links = 1 := by
  unfold firstNode
  dsimp only
  split <;> rfl

theorem firstNode_blocks : (firstNode ft b now).blocks = fileBlocks ft := by
  cases ft <;> rfl

theorem firstNode_content :
    (firstNode ft b now).content data = List.replicate (fileBlocks ft) b := by
  cases ft <;> rfl

theorem firstNode_pointers : (firstNode ft b now).pointers data = [] := by
  cases ft <;> rfl

theorem firstNode_owned {ds : List Nat} (h : fileBlocks ft ≤ ds.length) :
    (firstNode ft (ds.headD 0) now).owned data = ds.take (fileBlocks ft) := by
  rw [INode.owned, firstNode_pointers, firstNode_content, List.append_nil]
  cases ft with
  | file => rfl
  | unknown => rfl
  | directory =>
    cases ds with
    | nil => simp [fileBlocks] at h
    | cons b ds => rfl
  | symlink =>
    cases ds with
    | nil => simp [fileBlocks] at h
    | cons b ds => rfl

theorem firstNode_inRange (hb : b < 2 ^ 32) : (firstNode ft b now).InRange := by
  have hnow := now.toNat_lt
  have hempty : (INode.empty ft (U16 - 1) now.toNat).InRange := by
    constructor <;> simp [INode.empty, INVALID_ADDRESS, U16] <;> omega
  unfold firstNode
  dsimp only
  split
  · refine { hempty with size := ?_, blocks := ?_, direct := ?_ }
    · dsimp only
      split <;> decide
    · show 1 < 2 ^ 32
      decide
    · intro i
      dsimp only
      rw [Function.update_apply]
      split
      · exact hb
      · exact hempty.direct i
  · exact hempty

end FirstNode

namespace Geom

variable {g : Geom} {gaps : Bool} {t : St} {ft : FileType} {ds : List Nat} {now : UInt64}

theorem runs_newInode (hds : fileBlocks ft ≤ ds.length) :
    Prog.Runs g.Rep (newInode ft ds now) t (firstNode ft (ds.headD 0) now) t := by
  refine runs_getFormat.bind ?_
  by_cases hft : ft = .directory ∨ ft = .symlink
  · refine Prog.Runs.branch hft ?_
    match ds with
    | [] => rcases hft with rfl | rfl <;> simp [fileBlocks] at hds
    | b :: ds =>
        refine (Prog.Runs.unwrap rfl).bind ?_
        refine (runs_onDevice runs_addBlock_empty).bind ?_
        have hnode : firstNode ft ((b :: ds).headD 0) now =
            { { INode.empty ft (U16 - 1) now.toNat with
                direct := Function.update (INode.empty ft (U16 - 1) now.toNat).direct 0 b
                blocks := 1 } with
              size := if ft = .directory then BLOCK_SIZE * 1 else 0 } := by
          rw [firstNode, if_pos hft]
          rfl
        rw [hnode]
        exact Prog.Runs.pure _ _
  · refine Prog.Runs.guard hft ?_
    have hnode : firstNode ft (ds.headD 0) now = INode.empty ft (U16 - 1) now.toNat := by
      rw [firstNode, if_neg hft]
    rw [hnode]
    exact Prog.Runs.pure _ _

end Geom

/-- No record of `p` has the name that the collision check looks for: the name of an
entry with its padding. -/
def Geom.Checked (t : St) (p : Nat) (name : Str) : Prop :=
  ∀ k x, t.Rec p k x → x.label ≠ DirEntry.padName name

/-- A record of a directory, as its block has it. -/
theorem Geom.Intact.chunk_of_rec {g : Geom} {t : St} (h : g.Intact gaps t) {d : Nat} {k : Nat × Nat}
    {e : DirEntry} (hr : t.Rec d k e) : ∃ c : Chunk, c.IsLive ∧ c.entry = e := by
  obtain ⟨cs, hlay⟩ := h.tidy d hr.live hr.dir k.1 hr.block
  obtain ⟨pre, c, post, rfl, -, hslot, -, hg⟩ := hlay.chunk_of_slot hr.slot
  obtain ⟨hc, he⟩ := (hlay.tidy c (by simp)).of_live (hg c (by simp)) hslot
  exact ⟨c, hc, he⟩

/-- A live slot is a record that is not free. -/
theorem DirEntry.of_slot {e e' : DirEntry} (h : e'.slot = .live e) :
    e' = e ∧ e.isFree = false := by
  simp only [DirEntry.slot] at h
  split at h
  · cases h
  · rename_i hfree
    cases h
    exact ⟨rfl, by simpa using hfree⟩

/-- A look-up tells whether a directory has the name. -/
theorem Geom.wpr_absent {g : Geom} {t : St} (h : g.Intact gaps t) {p : Nat}
    (hp : t.ibit p = true) (name : List UInt8) :
    Prog.wpr g.Holds (g.directoryHandler.findEntry (t.ino p) g.inodeHandler name)
      (fun r v' => v' = t.toView ∧ (r = none → ∀ k x, t.Rec p k x → x.label ≠ name) ∧
        (r ≠ none → (t.ino p).fileType = .directory → ∃ k x, t.Rec p k x ∧ x.label = name))
      (fun _ v' => v' = t.toView) t.toView := by
  refine Prog.wpr_mono (wpr_findEntry (h.mapped hp)) ?_ fun _ _ he => he
  rintro r v' ⟨rfl, ⟨b, hb, off, e, hmem, hn, rfl⟩ | ⟨hnone, rfl⟩⟩
  · refine ⟨rfl, nofun, fun _ hdir => ⟨(b, off), e, ?_, hn.2.2⟩⟩
    exact rec_of_mem hp hdir hb hmem hn.1
  · refine ⟨rfl, fun _ k x hr hl => ?_, fun hne => absurd rfl hne⟩
    obtain ⟨⟨off, e⟩, hmem, heq⟩ := List.mem_map.mp hr.slot
    obtain ⟨rfl, hfree⟩ := DirEntry.of_slot (congrArg Prod.snd heq)
    obtain ⟨c, hc, rfl⟩ := h.chunk_of_rec hr
    exact (hnone k.1 hr.block).2 _ hmem ⟨hfree, hc.name_le, hl⟩

/-- The collision check. -/
theorem Geom.wpr_collision {g : Geom} {t : St} (h : g.Intact gaps t) {p : Nat}
    (hp : t.ibit p = true) {name : Str} :
    Prog.wpr g.Holds
      (g.directoryHandler.findEntry (t.ino p) g.inodeHandler (DirEntry.padName name))
      (fun r v' => v' = t.toView ∧ (r = none → Checked t p name) ∧
        (r ≠ none → (t.ino p).fileType = .directory → ¬ Checked t p name))
      (fun _ v' => v' = t.toView) t.toView := by
  refine Prog.wpr_mono (wpr_absent h hp _) ?_ fun _ _ he => he
  intro r v' hr
  refine ⟨hr.1, hr.2.1, fun hne hdir hchecked => ?_⟩
  obtain ⟨k, x, hrec, hl⟩ := hr.2.2 hne hdir
  exact hchecked k x hrec hl

/-- The entry `create` looks for room for. -/
def newEntry (fileType : FileType) (name : Str) : DirEntry :=
  DirEntry.new INVALID_ADDRESS fileType name

/-- The state with the new inode `i` of `p` and its first block, before the record is
entered. -/
def St.begun (t : St) (p : Nat) (ft : FileType) (now : UInt64) (i : Nat) (ds : List Nat) : St :=
  { t.taken [i] ds with
    ino := Function.update t.ino i (firstNode ft (ds.headD 0) now)
    data := newData t.data ft ds i p }

/-- What `create` does once it has what it asked the allocator for. -/
def createRest (f : FormatV1) (p : Nat) (node : INode) (ft : FileType) (name : Str)
    (now : UInt64) (fit : Option (Nat × Nat)) (taken : List Nat × List Nat) :
    FsM (INode × Nat) := do
  let index ← Prog.unwrap taken.1[0]?
  let inode ← newInode ft taken.2 now
  onDevice (f.inodeHandler.writeInode index inode)
  if ft = .directory then
    onDevice (f.directoryHandler.writeDirectoryWithInode (newDirectory index p) inode
      f.inodeHandler)
  let parent ← writeEntry node { newEntry ft name with inode := index } fit
    (taken.2.drop (fileBlocks ft))
  onDevice (f.inodeHandler.writeInode p { parent with modified := now.toNat })
  pure (inode, index)

namespace Geom

/-- The name is free, there is room for the record, and the allocator can give `n` inodes
and `k` data blocks besides those the parent needs. -/
structure Admits (g : Geom) (t : St) (p : Nat) (name : Str) (entry : DirEntry) (n k : Nat)
    (fit : Option (Nat × Nat)) : Prop where
  checked : Checked t p name
  fitOf : FitOf t.data (t.content p) entry fit
  inodes_le : n ≤ t.freeInodes
  data_le : k + Needs (t.ino p) fit ≤ t.freeData
  inodes_length : (g.pickInodes t n).length = n
  data_length : (g.pickData t (k + Needs (t.ino p) fit)).length = k + Needs (t.ino p) fit
  growable : fit = none → (t.ino p).blocks < INode.MAX_BLOCKS

/-- The parent is refused at once: it is no directory that can be walked, or the collision
check finds something. -/
def Refused (t : St) (p : Nat) (name : Str) : Prop :=
  (t.ino p).fileType = .directory → (t.ino p).Walks t.data → ¬ Checked t p name

/-- `create` succeeds. -/
structure Created (g : Geom) (t : St) (p : Nat) (ft : FileType) (name : Str) (now : UInt64)
    (fit : Option (Nat × Nat)) (i : Nat) (ds : List Nat) (n' : INode) (data' : Region)
    (t' : St) : Prop where
  known : ft ≠ .unknown
  checked : Checked t p name
  fitOf : FitOf t.data (t.content p) (newEntry ft name) fit
  alloc : g.Allocated t 1 (fileBlocks ft + Needs (t.ino p) fit) [i] ds (t.taken [i] ds)
  entered : Entered (newData t.data ft ds i p) (t.ino p) (DirEntry.new i ft name) fit
    (ds.drop (fileBlocks ft)) data' n'
  inRange : n'.InRange
  state : t' =
    { t.taken [i] ds with
      ino := Function.update (Function.update t.ino i (firstNode ft (ds.headD 0) now)) p
        { n' with modified := now.toNat }
      data := data' }

/-- `create` fails: at once, in `allocate`, or because the parent cannot grow any
more, after everything else has been written. -/
inductive CreateFailed (g : Geom) (t : St) (p : Nat) (ft : FileType) (name : Str)
    (now : UInt64) : St → Prop where
  | unchanged (h : Refused t p name) : CreateFailed g t p ft name now t
  | full {fit : Option (Nat × Nat)} {t' : St}
      (hfit : FitOf t.data (t.content p) (newEntry ft name) fit)
      (h : g.AllocFailed t 1 (fileBlocks ft + Needs (t.ino p) fit) t') :
      CreateFailed g t p ft name now t'
  | stuck {i : Nat} {ds : List Nat} (hmax : (t.ino p).blocks ≥ INode.MAX_BLOCKS)
      (hfit : FitOf t.data (t.content p) (newEntry ft name) none)
      (h : g.Allocated t 1 (fileBlocks ft + Needs (t.ino p) none) [i] ds (t.taken [i] ds)) :
      CreateFailed g t p ft name now
        { t.taken [i] ds with
          ino := Function.update t.ino i (firstNode ft (ds.headD 0) now)
          data := newData t.data ft ds i p }

/-- When `create` may panic: the parent cannot be walked, the type is none that can be
created, or the size of the parent overflows. -/
inductive CreatePanics (g : Geom) (t : St) (p : Nat) (ft : FileType) (name : Str) : Prop where
  | walk (h : ¬ (t.ino p).Walks t.data)
  | unknown (h : ft = .unknown)
  | size (h : g.Admits t p name (newEntry ft name) 1 (fileBlocks ft) none)
      (hsize : ¬ (t.ino p).size + BLOCK_SIZE < U64)

variable {g : Geom} {gaps : Bool} {t : St} {p : Nat} {ft : FileType} {name : Str} {now : UInt64}

theorem Allocated.admits {t' : St} {entry : DirEntry} {n k : Nat} {is ds : List Nat}
    {fit : Option (Nat × Nat)} (h : g.Allocated t n (k + Needs (t.ino p) fit) is ds t')
    (hchecked : Checked t p name) (hfit : FitOf t.data (t.content p) entry fit)
    (hgrow : fit = none → (t.ino p).blocks < INode.MAX_BLOCKS) :
    g.Admits t p name entry n k fit where
  checked := hchecked
  fitOf := hfit
  inodes_le := h.inodes_le
  data_le := h.data_le
  inodes_length := h.inodes_eq ▸ h.inodes_length
  data_length := h.data_eq ▸ h.data_length
  growable := hgrow

theorem foldBlocks_congr {α : Type} {callback : Callback α} {data data' : Region} :
    ∀ {bs : List Nat} {acc : α}, (∀ b ∈ bs, data' b = data b) →
      foldBlocks callback data' bs acc = foldBlocks callback data bs acc := by
  intro bs
  induction bs with
  | nil => intro acc _; rfl
  | cons b bs ih =>
      intro acc h
      simp only [foldBlocks, h b List.mem_cons_self,
        ih fun b hb => h b (List.mem_cons_of_mem _ hb)]

theorem FitOf.congr {data data' : Region} {bs : List Nat} {entry entry' : DirEntry}
    {fit : Option (Nat × Nat)} (h : FitOf data bs entry fit)
    (hdata : ∀ b ∈ bs, data' b = data b) (hlen : entry'.recordLen = entry.recordLen) :
    FitOf data' bs entry' fit := by
  obtain ⟨stop, hfold⟩ := h
  have hcb : fitCallback entry' = fitCallback entry := by
    funext e block off res
    simp only [fitCallback, hlen]
  exact ⟨stop, by rw [hcb, foldBlocks_congr hdata, hfold]⟩

/-- A new directory's block is freshly allocated. -/
theorem newData_frame {data : Region} {i b : Nat} {ds : List Nat}
    (hds : fileBlocks ft ≤ ds.length) (hb : b ∉ ds) : newData data ft ds i p b = data b := by
  unfold newData
  split
  · rename_i hft
    refine Function.update_of_ne ?_ _ _
    rintro rfl
    subst hft
    cases ds with
    | nil => simp [fileBlocks] at hds
    | cons d ds => simp at hb
  · rfl

theorem valid_newEntry {i : Nat} (hi : i < g.inodes) : (DirEntry.new i ft name).Valid := by
  refine DirEntry.valid_new ft name ?_
  have hs := g.small
  have hd := g.hasData
  simp only [inodes] at hi
  simp only [INVALID_ADDRESS]
  omega

theorem inode_small {i : Nat} (hi : i < g.inodes) : i < INVALID_ADDRESS := by
  have hv : (DirEntry.new i .file []).Valid := valid_newEntry hi
  exact hv.inode_lt

theorem FreshData.head_lt {ds : List Nat} (h : g.FreshData t ds) : ds.headD 0 < 2 ^ 32 := by
  have hcap := g.cap_lt
  have hlt := h.lt
  cases ds with
  | nil => decide
  | cons d ds =>
      have := hlt d (by simp)
      simp only [List.headD_cons]
      omega

/-- What is left of `create` once it has what it asked the allocator for: only a parent
that cannot grow any more is in the way, and only the size of the parent can overflow. -/
theorem wpa_createRest (h : g.Intact gaps t) (hp : t.ibit p = true) {fit : Option (Nat × Nat)}
    {i : Nat} {ds : List Nat} (hfit : FitOf t.data (t.content p) (newEntry ft name) fit)
    (halloc : g.Allocated t 1 (fileBlocks ft + Needs (t.ino p) fit) [i] ds (t.taken [i] ds)) :
    Prog.wpa g.Rep (createRest (g.format t) p (t.ino p) ft name now fit ([i], ds))
      (fun r t' => r = (firstNode ft (ds.headD 0) now, i) ∧ ∃ n' data',
        Entered (newData t.data ft ds i p) (t.ino p) (DirEntry.new i ft name) fit
          (ds.drop (fileBlocks ft)) data' n' ∧ n'.InRange ∧
        t' = { t.taken [i] ds with
          ino := Function.update (Function.update t.ino i (firstNode ft (ds.headD 0) now)) p
            { n' with modified := now.toNat }
          data := data' })
      (fun _ t' => fit = none ∧ (t.ino p).blocks ≥ INode.MAX_BLOCKS ∧
        t' = t.begun p ft now i ds)
      (fit = none ∧ (t.ino p).blocks < INode.MAX_BLOCKS ∧ ¬ (t.ino p).size + BLOCK_SIZE < U64)
      (t.taken [i] ds) := by
  have hm := h.mapped hp
  have hfi : g.FreshInodes t [i] := halloc.inodes_eq ▸ fresh_pickInodes h.cursors
  have hfd : g.FreshData t ds := halloc.data_eq ▸ fresh_pickData
  have hlen : fileBlocks ft ≤ ds.length := by
    rw [halloc.data_length]
    omega
  have hi : i < g.inodes := hfi.lt i (by simp)
  have hnot : ∀ b ∈ ds, b ∉ t.owned p := fun b hb => h.fresh_not_owned hp (hfd.clear b hb)
  refine Prog.Runs.andThen (Prog.Runs.unwrap rfl) ?_
  refine (runs_newInode hlen).andThen ?_
  refine (runs_onDevice (runs_writeInode hi (firstNode_inRange hfd.head_lt))).andThen ?_
  -- what is left, once the block of a new directory is written
  have hrest : ∀ t₁ : St, t₁ = t.begun p ft now i ds → Prog.wpa g.Rep
      (writeEntry (t.ino p) { newEntry ft name with inode := i } fit (ds.drop (fileBlocks ft)) >>=
        fun parentInode => onDevice (g.inodeHandler.writeInode p
          { parentInode with modified := now.toNat }) >>= fun _ =>
        pure (firstNode ft (ds.headD 0) now, i))
      (fun r t' => r = (firstNode ft (ds.headD 0) now, i) ∧ ∃ n' data',
        Entered (newData t.data ft ds i p) (t.ino p) (DirEntry.new i ft name) fit
          (ds.drop (fileBlocks ft)) data' n' ∧ n'.InRange ∧
        t' = { t.taken [i] ds with
          ino := Function.update (Function.update t.ino i (firstNode ft (ds.headD 0) now)) p
            { n' with modified := now.toNat }
          data := data' })
      (fun _ t' => fit = none ∧ (t.ino p).blocks ≥ INode.MAX_BLOCKS ∧
        t' = t.begun p ft now i ds)
      (fit = none ∧ (t.ino p).blocks < INode.MAX_BLOCKS ∧ ¬ (t.ino p).size + BLOCK_SIZE < U64)
      t₁ := by
    rintro _ rfl
    have hframe : ∀ b ∈ (t.ino p).owned t.data, newData t.data ft ds i p b = t.data b :=
      fun b hb => newData_frame hlen fun hmem => hnot b hmem hb
    have hptr : (t.ino p).pointers (newData t.data ft ds i p) = (t.ino p).pointers t.data :=
      INode.pointers_congr fun b hb => hframe b (List.mem_append_right _ hb)
    have hcon : (t.ino p).content (newData t.data ft ds i p) = (t.ino p).content t.data :=
      INode.content_congr fun b hb => hframe b (List.mem_append_right _ hb)
    have hown : (t.ino p).owned (newData t.data ft ds i p) = (t.ino p).owned t.data :=
      INode.owned_congr hframe
    have hm' : (t.ino p).Mapped g (newData t.data ft ds i p) :=
      ⟨hm.blocks_le, by rw [hown]; exact hm.lt⟩
    have hfit' : FitOf (newData t.data ft ds i p)
        ((t.ino p).content (newData t.data ft ds i p)) (DirEntry.new i ft name) fit := by
      rw [hcon]
      exact hfit.congr (fun b hb => hframe b (List.mem_append_left _ hb)) rfl
    have hnd : ((t.ino p).pointers (newData t.data ft ds i p) ++
        ds.drop (fileBlocks ft)).Nodup := by
      rw [hptr]
      refine List.nodup_append.mpr ⟨?_, hfd.nodup.sublist (List.drop_sublist _ _), ?_⟩
      · exact (List.nodup_append.mp (h.owning.owns.nodup p hp)).2.1
      · rintro b hb b' hb' rfl
        exact hnot b (List.mem_of_mem_drop hb') (List.mem_append_right _ hb)
    have hlength : (ds.drop (fileBlocks ft)).length = Needs (t.ino p) fit := by
      rw [List.length_drop, halloc.data_length]
      omega
    have hentry := wpa_writeEntry (t := t.begun p ft now i ds) hm' (h.inRange p)
      (valid_newEntry hi) hfit' hlength hnd fun b hb => hfd.lt b (List.mem_of_mem_drop hb)
    refine Prog.wpa_seq hentry ?_ ?_
    · rintro n' _ ⟨data', rfl, hent, hr⟩
      have hr' : ({ n' with modified := now.toNat } : INode).InRange :=
        { hr with modified := now.toNat_lt }
      refine (runs_onDevice (runs_writeInode (h.lt hp) hr')).andThen ?_
      exact Prog.wpa_pure ⟨rfl, n', data', hent, hr, rfl⟩
    · rintro e _ ⟨rfl, hfit, hmax⟩
      exact ⟨hfit, hmax, rfl⟩
  refine Prog.wpa_ite (fun hft => ?_) fun hft => ?_
  · have hd : ds.headD 0 < g.cap := by
      subst hft
      cases ds with
      | nil => simp [fileBlocks] at hlen
      | cons d ds => exact hfd.lt d (by simp)
    have hblocks : 0 < (firstNode ft (ds.headD 0) now).blocks := by
      subst hft
      exact Nat.one_pos
    have hmnew : (firstNode ft (ds.headD 0) now).Mapped g t.data := by
      refine ⟨?_, ?_⟩
      · rw [firstNode_blocks]
        subst hft
        decide
      · rw [firstNode_owned hlen]
        exact fun b hb => hfd.lt b (List.mem_of_mem_take hb)
    have hwrite := runs_writeNewDirectory (v := { (t.taken [i] ds).toView with
        ino := Function.update t.ino i (firstNode ft (ds.headD 0) now) })
      (inode_small hi) (inode_small (h.lt hp)) hblocks hmnew
    have hat : (firstNode ft (ds.headD 0) now).blockAt t.data 0 = ds.headD 0 := by
      subst hft
      rfl
    have hdata : newData t.data ft ds i p =
        Function.update t.data (ds.headD 0) (Block.newDir i p) := by
      rw [newData, if_pos hft]
    dsimp only [St.taken] at hwrite
    rw [hat, ← hdata] at hwrite
    exact (runs_onDevice (t := { t.taken [i] ds with
      ino := Function.update t.ino i (firstNode ft (ds.headD 0) now) }) hwrite).andThen
        (hrest _ rfl)
  · have hdata : newData t.data ft ds i p = t.data := by
      rw [newData, if_neg hft]
    refine hrest _ ?_
    rw [St.begun, hdata]
    rfl

theorem wpa_createIn (h : g.Intact gaps t) (hp : t.ibit p = true) {onExists : DirEntry → FSError} :
    Prog.wpa g.Rep (createIn p (t.ino p) ft name onExists now)
      (fun r t' => ∃ fit ds n' data', r.1 = firstNode ft (ds.headD 0) now ∧
        g.Created t p ft name now fit r.2 ds n' data' t')
      (fun _ t' => g.CreateFailed t p ft name now t') (CreatePanics g t p ft name) t := by
  have hm := h.mapped hp
  refine runs_getFormat.andThen ?_
  refine wpa_read (Prog.wpa_mono (wpa_findEntry hm (wpr_collision h hp)) (fun _ _ hq => hq)
    (fun _ _ he => he) .walk) ?_ fun hw _ => .unchanged fun _ hw' => absurd hw' hw
  intro existing hexisting
  match existing with
  | some (e, b, off) =>
    exact Prog.wpa_fail (.unchanged fun hdir _ => hexisting.2 (Option.some_ne_none _) hdir)
  | none =>
    have hchecked := hexisting.1 rfl
    refine Prog.wpa_assert .unknown fun hknown => ?_
    refine wpa_read (Prog.wpa_mono
      (wpa_canFit (DirEntry.new_comparable _ _ _) hm (wpr_canFit hm)) (fun _ _ hq => hq)
      (fun _ _ he => he) .walk) ?_ fun hw _ => .unchanged fun _ hw' => absurd hw' hw
    intro fit hfit
    have hneed : (if fit.isSome then fileBlocks ft
        else fileBlocks ft + 1 + blocksNecessaryToGrow (t.ino p)) =
        fileBlocks ft + Needs (t.ino p) fit := by
      unfold Needs
      split <;> omega
    dsimp only
    rw [hneed]
    refine Prog.wpa_seq (Prog.wpa_mono (wpa_allocate h.cursors) (fun _ _ hq => hq)
      (fun _ _ he => he) False.elim) ?_ fun e t' he => .full hfit he
    rintro ⟨is, ds⟩ t₁ halloc
    dsimp only at halloc ⊢
    obtain ⟨i, rfl⟩ : ∃ i, is = [i] := List.length_eq_one_iff.mp halloc.inodes_length
    obtain rfl := halloc.state
    have hrest := @wpa_createRest g gaps t p ft name now h hp fit i ds hfit halloc
    refine Prog.wpa_mono hrest ?_ ?_ ?_
    · rintro r t' ⟨rfl, n', data', hent, hr, rfl⟩
      exact ⟨fit, ds, n', data', rfl, hknown, hchecked, hfit, halloc, hent, hr, rfl⟩
    · rintro e t' ⟨rfl, hmax, rfl⟩
      exact .stuck hmax hfit halloc
    · rintro ⟨rfl, hmax, hsize⟩
      exact .size (halloc.admits hchecked hfit fun _ => hmax) hsize

theorem wpr_createIn (h : g.Intact gaps t) (hp : t.ibit p = true) {onExists : DirEntry → FSError} :
    Prog.wpr g.Rep (createIn p (t.ino p) ft name onExists now)
      (fun r t' => ∃ fit ds n' data', r.1 = firstNode ft (ds.headD 0) now ∧
        g.Created t p ft name now fit r.2 ds n' data' t')
      (fun _ t' => g.CreateFailed t p ft name now t') t :=
  (wpa_createIn h hp).wpr

end Geom

@[simp] theorem setBits_true {bit : Nat → Bool} {l : List Nat} {j : Nat} :
    setBits bit l true j = true ↔ j ∈ l ∨ bit j = true := by
  unfold setBits
  split <;> simp [*]

/-- The name of an entry, cut to what fits. -/
theorem DirEntry.label_new {i : Nat} {ft : FileType} {name : Str} :
    (DirEntry.new i ft name).label = name.take DirEntry.MAX_NAME :=
  DirEntry.padName_take name

/-- Cutting a name does not make it one of the short ones. -/
theorem DirEntry.label_new_ne {i : Nat} {ft : FileType} {name short : Str}
    (hshort : short.length < DirEntry.MAX_NAME) (hne : name ≠ short) :
    (DirEntry.new i ft name).label ≠ short := by
  rw [label_new]
  intro heq
  have hlen : min DirEntry.MAX_NAME name.length = short.length := by
    rw [← heq, List.length_take]
  rw [List.take_of_length_le (by omega)] at heq
  exact hne heq

namespace Geom.Created

variable {g : Geom} {gaps : Bool} {t t' : St} {p : Nat} {ft : FileType} {name : Str} {now : UInt64}
  {fit : Option (Nat × Nat)} {i : Nat} {ds : List Nat} {n' : INode} {data' : Region}

theorem freshInodes (h : g.Intact gaps t) (hc : g.Created t p ft name now fit i ds n' data' t') :
    g.FreshInodes t [i] :=
  hc.alloc.inodes_eq ▸ fresh_pickInodes h.cursors

theorem freshData (hc : g.Created t p ft name now fit i ds n' data' t') : g.FreshData t ds :=
  hc.alloc.data_eq ▸ fresh_pickData

theorem dead (h : g.Intact gaps t) (hc : g.Created t p ft name now fit i ds n' data' t') :
    t.ibit i = false :=
  (hc.freshInodes h).clear i (by simp)

theorem lt (h : g.Intact gaps t) (hc : g.Created t p ft name now fit i ds n' data' t') :
    i < g.inodes :=
  (hc.freshInodes h).lt i (by simp)

theorem ne_of_live (h : g.Intact gaps t) (hc : g.Created t p ft name now fit i ds n' data' t')
    {j : Nat} (hj : t.ibit j = true) : j ≠ i := by
  rintro rfl
  rw [hc.dead h] at hj
  cases hj

theorem ibit_iff (hc : g.Created t p ft name now fit i ds n' data' t') {j : Nat} :
    t'.ibit j = true ↔ t.ibit j = true ∨ j = i := by
  rw [hc.state]
  simp [St.taken, or_comm]

theorem data_eq (hc : g.Created t p ft name now fit i ds n' data' t') : t'.data = data' := by
  rw [hc.state]

theorem ino_new (h : g.Intact gaps t) (hp : t.ibit p = true)
    (hc : g.Created t p ft name now fit i ds n' data' t') :
    t'.ino i = firstNode ft (ds.headD 0) now := by
  rw [hc.state]
  simp [(hc.ne_of_live h hp).symm]

theorem ino_parent (hc : g.Created t p ft name now fit i ds n' data' t') :
    t'.ino p = { n' with modified := now.toNat } := by
  rw [hc.state]
  simp

theorem ino_other (hc : g.Created t p ft name now fit i ds n' data' t') {j : Nat}
    (hjp : j ≠ p) (hji : j ≠ i) : t'.ino j = t.ino j := by
  rw [hc.state]
  simp [hjp, hji]

theorem length_ge (hc : g.Created t p ft name now fit i ds n' data' t') :
    fileBlocks ft ≤ ds.length := by
  rw [hc.alloc.data_length]
  omega

theorem newData_owned (h : g.Intact gaps t) (hp : t.ibit p = true)
    (hc : g.Created t p ft name now fit i ds n' data' t') :
    ∀ b ∈ t.owned p, newData t.data ft ds i p b = t.data b :=
  fun b hb => newData_frame hc.length_ge fun hmem =>
    h.fresh_not_owned hp (hc.freshData.clear b hmem) hb

theorem owned_newData (h : g.Intact gaps t) (hp : t.ibit p = true)
    (hc : g.Created t p ft name now fit i ds n' data' t') :
    (t.ino p).owned (newData t.data ft ds i p) = t.owned p :=
  INode.owned_congr (hc.newData_owned h hp)

theorem content_newData (h : g.Intact gaps t) (hp : t.ibit p = true)
    (hc : g.Created t p ft name now fit i ds n' data' t') :
    (t.ino p).content (newData t.data ft ds i p) = t.content p :=
  INode.content_congr fun b hb => hc.newData_owned h hp b (List.mem_append_right _ hb)

theorem clear (h : g.Intact gaps t) (hp : t.ibit p = true)
    (hc : g.Created t p ft name now fit i ds n' data' t') :
    Entered.Clear (newData t.data ft ds i p) (t.ino p) (ds.drop (fileBlocks ft)) where
  own := by
    rw [hc.owned_newData h hp]
    exact h.owning.owns.nodup p hp
  nodup := hc.freshData.nodup.sublist (List.drop_sublist _ _)
  disjoint b hb := by
    rw [hc.owned_newData h hp]
    exact h.fresh_not_owned hp (hc.freshData.clear b (List.mem_of_mem_drop hb))

/-- Only blocks of the parent and fresh ones are written. -/
theorem frame (h : g.Intact gaps t) (hp : t.ibit p = true)
    (hc : g.Created t p ft name now fit i ds n' data' t') {b : Nat} (hb : b ∉ t.owned p)
    (hds : b ∉ ds) : t'.data b = t.data b := by
  rw [hc.data_eq, hc.entered.frame (by rw [hc.owned_newData h hp]; exact hb)
    fun hmem => hds (List.mem_of_mem_drop hmem)]
  exact newData_frame hc.length_ge hds

theorem same (h : g.Intact gaps t) (hp : t.ibit p = true)
    (hc : g.Created t p ft name now fit i ds n' data' t') {j : Nat} (hj : t.ibit j = true)
    (hne : j ≠ p) : t.Same t'.toView j :=
  h.same hp hj hne (hc.ino_other hne (hc.ne_of_live h hj)) hc.freshData.clear
    fun _ hb hds => hc.frame h hp hb hds

/-- The first block of a new directory. -/
theorem firstBlock (h : g.Intact gaps t) (hp : t.ibit p = true)
    (hc : g.Created t p ft name now fit i ds n' data' t') (hft : ft = .directory) :
    t'.data (ds.headD 0) = Block.newDir i p ∧ ds.headD 0 ∈ ds ∧
      ds.headD 0 ∉ ds.drop (fileBlocks ft) := by
  have hlen := hc.length_ge
  have hnd := hc.freshData.nodup
  have hclear := hc.freshData.clear
  have hent := hc.entered
  have hdata := hc.data_eq
  have hown := hc.owned_newData h hp
  subst hft
  match ds with
  | [] => simp [fileBlocks] at hlen
  | d :: ds =>
      have hd : d ∉ ds := (List.nodup_cons.mp hnd).1
      refine ⟨?_, by simp, by simpa [fileBlocks] using hd⟩
      rw [hdata, hent.frame]
      · simp [newData]
      · rw [hown]
        exact h.fresh_not_owned hp (hclear d (by simp))
      · simpa [fileBlocks] using hd

theorem parent_owned (h : g.Intact gaps t) (hp : t.ibit p = true)
    (hc : g.Created t p ft name now fit i ds n' data' t') :
    (t'.owned p).Perm (t.owned p ++ ds.drop (fileBlocks ft)) := by
  have hperm := hc.entered.owned_perm (hc.clear h hp)
  rw [hc.owned_newData h hp] at hperm
  rw [View.owned, hc.ino_parent, hc.data_eq]
  exact hperm

theorem owning (h : g.Intact gaps t) (hp : t.ibit p = true)
    (hc : g.Created t p ft name now fit i ds n' data' t') : g.Owning t' := by
  have hpi := hc.ne_of_live h hp
  refine @Owning.extend _ _ _ _ h i p (ds.take (fileBlocks ft)) (ds.drop (fileBlocks ft)) _
    hpi.symm ?_ hc.freshData ?_ ?_ ?_ ?_ ?_
  · intro j hj hji _
    rcases hc.ibit_iff.mp hj with hj | rfl
    · exact hj
    · exact absurd rfl hji
  · rw [hc.state]
    rfl
  · rw [List.take_append_drop]
  · intro j hj _ hjp
    exact hc.same h hp hj hjp
  · refine ⟨hc.lt h, ?_, .inr ⟨hc.dead h, ?_⟩⟩
    · rw [hc.ino_new h hp, firstNode_blocks]
      cases ft <;> decide
    · rw [View.owned, hc.ino_new h hp, firstNode_owned hc.length_ge]
  · refine ⟨h.lt hp, ?_, .inl ⟨hp, hc.parent_owned h hp⟩⟩
    rw [hc.ino_parent]
    exact hc.entered.blocks_le (h.mapped hp).blocks_le

/-- The parent's blocks before the record is entered, if it is a directory. -/
theorem rows (h : g.Intact gaps t) (hp : t.ibit p = true)
    (hc : g.Created t p ft name now fit i ds n' data' t')
    (hdir : (t.ino p).fileType = .directory) :
    Entered.Rows gaps (newData t.data ft ds i p) (t.ino p) := by
  intro b hb
  rw [hc.content_newData h hp] at hb
  rw [hc.newData_owned h hp b (List.mem_append_left _ hb)]
  exact h.tidy p hp hdir b hb

/-- The block that `can_fit` chose is not the one of the new directory. -/
theorem snug (h : g.Intact gaps t) (hp : t.ibit p = true)
    (hc : g.Created t p ft name now fit i ds n' data' t')
    (hsnug : Entered.Snug t.data (newEntry ft name) fit) :
    Entered.Snug (newData t.data ft ds i p) (DirEntry.new i ft name) fit := by
  intro b off hfit
  rcases hc.fitOf.cases with ⟨b', hb, off', e, -, -, heq⟩ | ⟨-, heq⟩
  · rw [hfit] at heq
    cases heq
    rw [hc.newData_owned h hp b (List.mem_append_left _ hb)]
    exact hsnug b off hfit
  · rw [hfit] at heq
    cases heq

theorem roomy (h : g.Intact gaps t) (hp : t.ibit p = true)
    (hc : g.Created t p ft name now fit i ds n' data' t')
    (hroom : Entered.Roomy gaps t.data (newEntry ft name) fit) :
    Entered.Roomy gaps (newData t.data ft ds i p) (DirEntry.new i ft name) fit :=
  hroom.imp_right (hc.snug h hp)

theorem parent_fileType (hc : g.Created t p ft name now fit i ds n' data' t') :
    (t'.ino p).fileType = (t.ino p).fileType := by
  rw [hc.ino_parent]
  exact hc.entered.fileType

theorem content_parent (hc : g.Created t p ft name now fit i ds n' data' t') :
    t'.content p = n'.content data' := by
  rw [View.content, hc.ino_parent, hc.data_eq]
  rfl

theorem content_new (h : g.Intact gaps t) (hp : t.ibit p = true)
    (hc : g.Created t p ft name now fit i ds n' data' t') :
    t'.content i = List.replicate (fileBlocks ft) (ds.headD 0) := by
  rw [View.content, hc.ino_new h hp, firstNode_content]

/-- The records of the new state: those of before, the new one, and `.` and `..` of
a new directory. -/
theorem rec_cases (h : g.Intact gaps t) (hp : t.ibit p = true)
    (hc : g.Created t p ft name now fit i ds n' data' t')
    (hroom : Entered.Roomy gaps t.data (newEntry ft name) fit) {d : Nat} {k : Nat × Nat}
    {e : DirEntry} (hr : t'.Rec d k e) :
    (t.Rec d k e ∧ ¬ (d = p ∧ k = Entered.place fit (ds.drop (fileBlocks ft)))) ∨
      (d = p ∧ k = Entered.place fit (ds.drop (fileBlocks ft)) ∧ e = DirEntry.new i ft name) ∨
      (d = i ∧ ft = .directory ∧ (k = (ds.headD 0, 0) ∧ e = DirEntry.new i .directory [dot] ∨
        k = (ds.headD 0, 12) ∧ e = DirEntry.new p .directory [dot, dot])) := by
  rcases hc.ibit_iff.mp hr.live with hlive | rfl
  · by_cases hdp : d = p
    · subst hdp
      have hdir : (t.ino d).fileType = .directory := hc.parent_fileType ▸ hr.dir
      have hb : k.1 ∈ n'.content data' := hc.content_parent ▸ hr.block
      have hs : (k.2, Slot.live e) ∈ (data' k.1).slots := hc.data_eq ▸ hr.slot
      rcases hc.entered.live_cases (hc.clear h hlive) (valid_newEntry (hc.lt h))
          (hc.rows h hlive hdir) (hc.roomy h hlive hroom) hb hs with ⟨hb, hs, hne⟩ | ⟨hk, he⟩
      · rw [hc.content_newData h hlive] at hb
        rw [hc.newData_owned h hlive _ (List.mem_append_left _ hb)] at hs
        exact .inl ⟨⟨hlive, hdir, hb, hs⟩, fun hk => hne hk.2⟩
      · exact .inr (.inl ⟨rfl, hk, he⟩)
    · have hsame := hc.same h hp hlive hdp
      refine .inl ⟨(hsame.rec_iff ?_).mp hr, fun hk => hdp hk.1⟩
      rw [hr.live, hlive]
  · right; right
    have hft : ft = .directory := by
      have := hr.dir
      rwa [hc.ino_new h hp, firstNode_fileType] at this
    have hb : k.1 ∈ t'.content d := hr.block
    rw [hc.content_new h hp, hft] at hb
    have hk1 : k.1 = ds.headD 0 := by simpa [fileBlocks] using hb
    have hs := hr.slot
    rw [hk1, (hc.firstBlock h hp hft).1,
      Block.newDir_slots (inode_small (hc.lt h)) (inode_small (h.lt hp))] at hs
    refine ⟨rfl, hft, ?_⟩
    simp only [List.mem_cons, Prod.mk.injEq, Slot.live.injEq, reduceCtorEq, and_false,
      List.not_mem_nil, or_false] at hs
    rcases hs with ⟨hk2, he⟩ | ⟨hk2, he⟩
    · exact .inl ⟨Prod.ext hk1 hk2, he⟩
    · exact .inr ⟨Prod.ext hk1 hk2, he⟩

/-- Unless eight bytes are left over, the records of before are still there. -/
theorem rec_old (h : g.Intact gaps t) (hp : t.ibit p = true)
    (hc : g.Created t p ft name now fit i ds n' data' t')
    (hsnug : Entered.Snug t.data (newEntry ft name) fit) {d : Nat} {k : Nat × Nat}
    {e : DirEntry} (hr : t.Rec d k e) : t'.Rec d k e := by
  by_cases hdp : d = p
  · subst hdp
    have hold := hc.newData_owned h hp k.1 (List.mem_append_left _ hr.block)
    obtain ⟨hb, hs⟩ := hc.entered.live_old (hc.clear h hp) (valid_newEntry (hc.lt h))
      (hc.rows h hp hr.dir) (hc.snug h hp hsnug) (b := k.1) (o := k.2) (e := e)
      (by rw [hc.content_newData h hp]; exact hr.block) (by rw [hold]; exact hr.slot)
    refine ⟨hc.ibit_iff.mpr (.inl hp), hc.parent_fileType ▸ hr.dir, ?_, hc.data_eq ▸ hs⟩
    show k.1 ∈ t'.content d
    rw [hc.content_parent]
    exact hb
  · refine ((hc.same h hp hr.live hdp).rec_iff ?_).mpr hr
    rw [hr.live, hc.ibit_iff.mpr (.inl hr.live)]

/-- The new record is in the parent, if that is a directory. -/
theorem rec_new (h : g.Intact gaps t) (hp : t.ibit p = true)
    (hc : g.Created t p ft name now fit i ds n' data' t')
    (hroom : Entered.Roomy gaps t.data (newEntry ft name) fit)
    (hdir : (t.ino p).fileType = .directory) :
    t'.Rec p (Entered.place fit (ds.drop (fileBlocks ft))) (DirEntry.new i ft name) := by
  obtain ⟨hb, hs⟩ := hc.entered.live_new (hc.clear h hp) (valid_newEntry (hc.lt h))
    (hc.rows h hp hdir) (hc.roomy h hp hroom)
  refine ⟨hc.ibit_iff.mpr (.inl hp), hc.parent_fileType.trans hdir, ?_, hc.data_eq ▸ hs⟩
  show _ ∈ t'.content p
  rw [hc.content_parent]
  exact hb

theorem tidy (h : g.Intact gaps t) (hp : t.ibit p = true)
    (hc : g.Created t p ft name now fit i ds n' data' t')
    (hroom : Entered.Roomy gaps t.data (newEntry ft name) fit) :
    ∀ d, t'.ibit d = true → (t'.ino d).fileType = .directory →
      ∀ b ∈ t'.content d, ∃ cs, TidyLayout gaps (t'.data b) cs := by
  intro d hd hdir b hb
  rcases hc.ibit_iff.mp hd with hlive | rfl
  · by_cases hdp : d = p
    · subst hdp
      rw [hc.parent_fileType] at hdir
      rw [hc.content_parent] at hb
      rw [hc.data_eq]
      exact hc.entered.rows (hc.clear h hlive) (valid_newEntry (hc.lt h))
        (hc.rows h hlive hdir) (hc.roomy h hlive hroom) b hb
    · have hsame := hc.same h hp hlive hdp
      rw [hsame.content_eq] at hb
      rw [hsame.content_data hb]
      rw [hsame.ino] at hdir
      exact h.tidy d hlive hdir b hb
  · have hft : ft = .directory := by
      rwa [hc.ino_new h hp, firstNode_fileType] at hdir
    rw [hc.content_new h hp, hft] at hb
    have hb1 : b = ds.headD 0 := by simpa [fileBlocks] using hb
    rw [hb1, (hc.firstBlock h hp hft).1]
    exact (TidyLayout.newDir (inode_small (hc.lt h)) (inode_small (h.lt hp))).1

theorem graph (h : g.Inv gaps t) (hp : t.ibit p = true) (hdd : name ≠ [dot, dot])
    (hc : g.Created t p ft name now fit i ds n' data' t')
    (hroom : Entered.Roomy gaps t.data (newEntry ft name) fit) : t'.graph.Sound 0 := by
  have hlabel : (DirEntry.new i ft name).label ≠ [dot, dot] :=
    DirEntry.label_new_ne (by decide) hdd
  refine h.graph.addNode (n := i) (p := p) (k := Entered.place fit (ds.drop (fileBlocks ft)))
    ?_ hp (fun j => hc.ibit_iff) ?_ ?_ ?_ ?_ ?_
  · show ¬ t.ibit i = true
    simp [hc.dead h.toIntact]
  · intro j hj
    show (t'.ino j).fileType = .directory ↔ (t.ino j).fileType = .directory
    by_cases hjp : j = p
    · rw [hjp, hc.parent_fileType]
    · rw [hc.ino_other hjp (hc.ne_of_live h.toIntact hj)]
  · rintro d k j ⟨e, hr, h1, h2, rfl⟩
    rcases hc.rec_cases h.toIntact hp hroom hr with
      ⟨hr, -⟩ | ⟨rfl, rfl, rfl⟩ | ⟨rfl, -, ⟨-, rfl⟩ | ⟨-, rfl⟩⟩
    · exact .inl ⟨e, hr, h1, h2, rfl⟩
    · exact .inr ⟨rfl, rfl, rfl⟩
    · exact absurd rfl h1
    · exact absurd rfl h2
  · rintro d q ⟨k, e, hr, hl, rfl⟩
    rcases hc.rec_cases h.toIntact hp hroom hr with
      ⟨hr, -⟩ | ⟨rfl, rfl, rfl⟩ | ⟨rfl, -, ⟨-, rfl⟩ | ⟨-, rfl⟩⟩
    · exact .inl ⟨⟨k, e, hr, hl, rfl⟩, hr.live⟩
    · exact absurd hl hlabel
    · exact absurd hl (DirEntry.label_new_ne (by decide) (by decide))
    · exact .inr ⟨rfl, rfl⟩
  · intro j hj
    show (t'.ino j).links = (t.ino j).links
    by_cases hjp : j = p
    · rw [hjp, hc.ino_parent]
      exact hc.entered.links
    · rw [hc.ino_other hjp (hc.ne_of_live h.toIntact hj)]
  · show (t'.ino i).links = 1
    rw [hc.ino_new h.toIntact hp, firstNode_links]

/-- Creating leaves the blocks as they should be. -/
theorem intact (h : g.Intact gaps t) (hp : t.ibit p = true)
    (hc : g.Created t p ft name now fit i ds n' data' t')
    (hroom : Entered.Roomy gaps t.data (newEntry ft name) fit) : g.Intact gaps t' where
  cursors := by
    have hcur := cursorsIn_taken h.cursors (hc.freshInodes h) hc.freshData
    rw [hc.state]
    exact ⟨hcur.lastInode, hcur.lastData⟩
  inRange j := by
    by_cases hjp : j = p
    · rw [hjp, hc.ino_parent]
      exact { hc.inRange with modified := now.toNat_lt }
    by_cases hji : j = i
    · rw [hji, hc.ino_new h hp]
      exact firstNode_inRange hc.freshData.head_lt
    · rw [hc.ino_other hjp hji]
      exact h.inRange j
  owning := hc.owning h hp
  tidy := hc.tidy h hp hroom

/-- Creating keeps the invariant. -/
theorem inv (h : g.Inv gaps t) (hp : t.ibit p = true) (hd : name ≠ [dot]) (hdd : name ≠ [dot, dot])
    (hc : g.Created t p ft name now fit i ds n' data' t')
    (hroom : Entered.Roomy gaps t.data (newEntry ft name) fit) : g.Inv gaps t' where
  toIntact := hc.intact h.toIntact hp hroom
  graph := hc.graph h hp hdd hroom
  self := by
    intro d k e hr hl
    rcases hc.rec_cases h.toIntact hp hroom hr with
      ⟨hr, -⟩ | ⟨rfl, rfl, rfl⟩ | ⟨rfl, -, ⟨-, rfl⟩ | ⟨-, rfl⟩⟩
    · exact h.self hr hl
    · exact absurd hl (DirEntry.label_new_ne (by decide) hd)
    · rfl
    · exact absurd hl (DirEntry.label_new_ne (by decide) (by decide))

/-- Open files stay allocated. -/
theorem handled (h : g.Inv gaps t) (hh : t.Handled)
    (hc : g.Created t p ft name now fit i ds n' data' t') : t'.Handled := by
  intro id m hm
  have hm' : t.openFiles id = some m := by
    rw [hc.state] at hm
    exact hm
  obtain ⟨hlive, hfile⟩ := hh id m hm'
  refine ⟨hc.ibit_iff.mpr (.inl hlive), ?_⟩
  by_cases hmp : m.inode = p
  · rw [hmp, hc.parent_fileType, ← hmp]
    exact hfile
  · rw [hc.ino_other hmp (hc.ne_of_live h.toIntact hlive)]
    exact hfile

end Geom.Created

namespace Geom

variable {g : Geom} {gaps : Bool} {t t' : St} {p : Nat} {ft : FileType} {name : Str} {now : UInt64}

theorem AllocFailed.inv {n k : Nat} (h : g.Inv gaps t) (hf : g.AllocFailed t n k t') :
    g.Inv gaps t' := by
  cases hf with
  | refused => exact h
  | inodes => exact h.congr rfl ⟨h.cursors.lastInode, h.cursors.lastData⟩
  | data => exact h.congr rfl ⟨h.cursors.lastInode, h.cursors.lastData⟩

/-- The new inode is written and no record is entered. -/
structure Orphaned (g : Geom) (t : St) (p : Nat) (ft : FileType) (now : UInt64) (i : Nat)
    (ds : List Nat) (t' : St) : Prop where
  inode : g.FreshInodes t [i]
  data : g.FreshData t ds
  length_ge : fileBlocks ft ≤ ds.length
  state : t' =
    { t.taken [i] ds with
      ino := Function.update t.ino i (firstNode ft (ds.headD 0) now)
      data := newData t.data ft ds i p }

namespace Orphaned

variable {i : Nat} {ds : List Nat}

theorem ibit_iff (ho : g.Orphaned t p ft now i ds t') {j : Nat} :
    t'.ibit j = true ↔ t.ibit j = true ∨ j = i := by
  rw [ho.state]
  simp [St.taken, or_comm]

theorem dead (ho : g.Orphaned t p ft now i ds t') : t.ibit i = false :=
  ho.inode.clear i (by simp)

theorem ne_of_live (ho : g.Orphaned t p ft now i ds t') {j : Nat} (hj : t.ibit j = true) :
    j ≠ i := by
  rintro rfl
  rw [ho.dead] at hj
  cases hj

theorem ino_new (ho : g.Orphaned t p ft now i ds t') :
    t'.ino i = firstNode ft (ds.headD 0) now := by
  rw [ho.state]
  simp

theorem same (h : g.Intact gaps t) (ho : g.Orphaned t p ft now i ds t') {j : Nat}
    (hj : t.ibit j = true) : t.Same t'.toView j := by
  refine ⟨?_, fun b hb => ?_⟩
  · rw [ho.state]
    simp [ho.ne_of_live hj]
  · rw [ho.state]
    exact newData_frame ho.length_ge fun hmem => h.fresh_not_owned hj (ho.data.clear b hmem) hb

theorem owning (h : g.Intact gaps t) (hp : t.ibit p = true) (ho : g.Orphaned t p ft now i ds t') :
    g.Owning t' := by
  refine @Owning.extend _ _ _ _ h i p (ds.take (fileBlocks ft)) [] _
    (ho.ne_of_live hp).symm ?_ ho.data ?_ ?_ (fun j hj _ _ => ho.same h hj) ?_ ?_
  · intro j hj hji _
    rcases ho.ibit_iff.mp hj with hj | rfl
    · exact hj
    · exact absurd rfl hji
  · rw [ho.state]
    rfl
  · rw [List.append_nil]
    exact List.take_sublist _ _
  · refine ⟨ho.inode.lt i (by simp), ?_, .inr ⟨ho.dead, ?_⟩⟩
    · rw [ho.ino_new, firstNode_blocks]
      cases ft <;> decide
    · rw [View.owned, ho.ino_new, firstNode_owned ho.length_ge]
  · have hsame := ho.same h hp
    refine ⟨h.lt hp, ?_, .inl ⟨hp, ?_⟩⟩
    · rw [hsame.ino]
      exact (h.mapped hp).blocks_le
    · rw [hsame.owned_eq, List.append_nil]

/-- A new directory, entered nowhere. -/
theorem content_new (ho : g.Orphaned t p ft now i ds t') {b : Nat} (hft : ft = .directory)
    (hb : b ∈ t'.content i) : t'.data b = Block.newDir i p := by
  rw [View.content, ho.ino_new, firstNode_content, hft] at hb
  have hb1 : b = ds.headD 0 := by simpa [fileBlocks] using hb
  rw [hb1, ho.state]
  simp [newData, hft]

theorem rec_cases (h : g.Intact gaps t) (hp : t.ibit p = true) (ho : g.Orphaned t p ft now i ds t')
    {d : Nat} {k : Nat × Nat} {e : DirEntry} (hr : t'.Rec d k e) :
    t.Rec d k e ∨ (d = i ∧ (e = DirEntry.new i .directory [dot] ∨
      e = DirEntry.new p .directory [dot, dot])) := by
  rcases ho.ibit_iff.mp hr.live with hlive | rfl
  · refine .inl (((ho.same h hlive).rec_iff ?_).mp hr)
    rw [hr.live, hlive]
  · have hft : ft = .directory := by
      have := hr.dir
      rwa [ho.ino_new, firstNode_fileType] at this
    have hs := hr.slot
    rw [ho.content_new hft hr.block,
      Block.newDir_slots (inode_small (ho.inode.lt d (by simp))) (inode_small (h.lt hp))] at hs
    simp only [List.mem_cons, Prod.mk.injEq, Slot.live.injEq, reduceCtorEq, and_false,
      List.not_mem_nil, or_false] at hs
    rcases hs with ⟨-, he⟩ | ⟨-, he⟩
    · exact .inr ⟨rfl, .inl he⟩
    · exact .inr ⟨rfl, .inr he⟩

theorem graph (h : g.Inv gaps t) (hp : t.ibit p = true) (ho : g.Orphaned t p ft now i ds t') :
    t'.graph.Sound 0 := by
  refine h.graph.addNode (n := i) (p := p) (k := (0, 0)) ?_ hp (fun j => ho.ibit_iff) ?_ ?_ ?_ ?_ ?_
  · show ¬ t.ibit i = true
    simp [ho.dead]
  · intro j hj
    show (t'.ino j).fileType = .directory ↔ (t.ino j).fileType = .directory
    rw [(ho.same h.toIntact hj).ino]
  · rintro d k j ⟨e, hr, h1, h2, rfl⟩
    rcases ho.rec_cases h.toIntact hp hr with hr | ⟨rfl, rfl | rfl⟩
    · exact .inl ⟨e, hr, h1, h2, rfl⟩
    · exact absurd rfl h1
    · exact absurd rfl h2
  · rintro d q ⟨k, e, hr, hl, rfl⟩
    rcases ho.rec_cases h.toIntact hp hr with hr | ⟨rfl, rfl | rfl⟩
    · exact .inl ⟨⟨k, e, hr, hl, rfl⟩, hr.live⟩
    · exact absurd hl (DirEntry.label_new_ne (by decide) (by decide))
    · exact .inr ⟨rfl, rfl⟩
  · intro j hj
    show (t'.ino j).links = (t.ino j).links
    rw [(ho.same h.toIntact hj).ino]
  · show (t'.ino i).links = 1
    rw [ho.ino_new, firstNode_links]

theorem inv (h : g.Inv gaps t) (hp : t.ibit p = true) (ho : g.Orphaned t p ft now i ds t') :
    g.Inv gaps t' where
  cursors := by
    have hcur := cursorsIn_taken h.cursors ho.inode ho.data
    rw [ho.state]
    exact ⟨hcur.lastInode, hcur.lastData⟩
  inRange j := by
    by_cases hji : j = i
    · rw [hji, ho.ino_new]
      exact firstNode_inRange ho.data.head_lt
    · rw [ho.state]
      simpa [hji] using h.inRange j
  owning := ho.owning h.toIntact hp
  tidy := by
    intro d hd hdir b hb
    rcases ho.ibit_iff.mp hd with hlive | rfl
    · have hsame := ho.same h.toIntact hlive
      rw [hsame.content_eq] at hb
      rw [hsame.content_data hb]
      rw [hsame.ino] at hdir
      exact h.tidy d hlive hdir b hb
    · rw [ho.ino_new, firstNode_fileType] at hdir
      rw [ho.content_new hdir hb]
      exact (TidyLayout.newDir (inode_small (ho.inode.lt d (by simp)))
        (inode_small (h.lt hp))).1
  graph := ho.graph h hp
  self := by
    intro d k e hr hl
    rcases ho.rec_cases h.toIntact hp hr with hr | ⟨rfl, rfl | rfl⟩
    · exact h.self hr hl
    · rfl
    · exact absurd hl (DirEntry.label_new_ne (by decide) (by decide))

end Orphaned

end Geom

end FerrisFS
