import FerrisFS.Fuse.Serving
import FerrisFS.System.Handles

/-!
# Requests refine the store of files

What an answer says about the files is a sequence of events of the store: a read is a move of
the handle to its offset and a read there, a file that is created is born and opened. A run of
requests takes the store through what its answers say.
-/

namespace FerrisFS

open Lib Lib.Prog DirectoryHandler INodeTableHandler FormatV1 Fuse

/-! ## What answers say -/

/-- Events without contents: none is read, written or cut, and no handle comes or goes. -/
def Quiet : FileStore.Event Nat Nat UInt8 → Prop
  | .idle | .born _ | .gone _ | .moved _ _ => True
  | _ => False

/-- Requests that change nothing. -/
def Fuse.Request.looks : Request → Bool
  | .getattr _ | .opendir _ | .readdir _ _ _ | .lookup _ _ | .readlink _ | .access | .flush
  | .fsync | .fsyncdir | .releasedir => true
  | _ => false

/-- Requests that change names or attributes. -/
def Fuse.Request.turns : Request → Bool
  | .setattr .. | .mkdir .. | .rmdir .. | .symlink .. | .unlink .. | .link .. | .rename .. => true
  | _ => false

/-- The events that an answer stands for. -/
inductive Fuse.Means : Request → Response → List (FileStore.Event Nat Nat UInt8) → Prop where
  | looks {req a} (h : req.looks = true) : Means req a []
  | read {fh offset size bs} : Means (.read fh offset size) (.data bs)
      [.moved (fh % U32) offset.toNat, .read (fh % U32) size bs]
  | write {fh offset data now n} : Means (.write fh offset data now) (.written (n % U32))
      [.moved (fh % U32) offset.toNat, .wrote (fh % U32) (data.take n)]
  | openIno {ino id} : Means (.openIno ino) (.opened id) [.opened id (v1InodeNumber ino)]
  | create {parent name mode now entry id i} (hino : entry.attr.ino = i + 1) :
      Means (.create parent name mode now) (.created entry id) [.born i, .opened id i]
  | mknod {parent name mode now entry i} (hino : entry.attr.ino = i + 1) :
      Means (.mknod parent name mode now) (.entry entry) [.born i]
  | release {fh} : Means (.release fh) .ok [.closed (fh % U32)]
  | refused {req e log} (h : ∀ ev ∈ log, Quiet ev) : Means req (.error e) log
  | turns {req a log} (h : req.turns = true) (hlog : ∀ ev ∈ log, Quiet ev) : Means req a log

/-- A fair request that sets no size, and writes as the store can follow. -/
structure Fuse.Request.Tracked (s : FFS) (req : Request) : Prop where
  fair : req.Fair true s
  sizeless : ∀ ino mode size mtime ctime now,
    req = .setattr ino mode size mtime ctime now → size = none
  exact : ∀ fh offset data now, req = .write fh offset data now →
    ∀ p s', seek (fh % U32) (.start offset) s = .ok p s' →
      (Op.write (fh % U32) data now).Exact s'

/-- The number of a file is reported with its attributes. -/
theorem ino_of_fileAttr {n : INode} {ino : Nat} {attr : FileAttr} {s s' : FFS}
    (h : fileAttrFromInode n ino s = .ok attr s') : attr.ino = ino := by
  obtain ⟨m, s₁, -, hrest⟩ := of_ok_bind h
  obtain ⟨c, s₂, -, hlast⟩ := of_ok_bind hrest
  cases hlast
  rfl

namespace Geom

variable {g : Geom} {s s' : FFS} {t t' : St} {i : Nat} {now : UInt64}

/-! ## What a tracked run of requests keeps -/

structure Attending (g : Geom) (t : St) : Prop extends Upright g true t where
  fitting : t.Fitting
  numbered : t.Numbered

theorem Attending.following (h : g.Attending t) : g.Following t :=
  ⟨⟨h.toInv, h.handled, h.targeted⟩, h.fitting, h.numbered⟩

/-- What both runs of calls and runs of requests are known to keep. -/
theorem Following.attending (h : g.Following t') (hs' : g.Rep s' t')
    (hu : ∃ t'', g.Rep s' t'' ∧ g.Upright true t'') : g.Attending t' := by
  obtain ⟨t'', hs'', h''⟩ := hu
  obtain rfl := hs''.unique hs'
  exact ⟨h'', h.fitting, h.numbered⟩

/-- The store goes through the log, and can be followed afterwards. -/
def Follows (g : Geom) (t : St) (s' : FFS) (log : List (FileStore.Event Nat Nat UInt8)) : Prop :=
  ∃ t', g.Rep s' t' ∧ g.Attending t' ∧
    FileStore.Run 0 (fun _ _ => True) t.store log t'.store

theorem Follows.nil (hs : g.Rep s t) (h : g.Attending t) : g.Follows t s [] := ⟨t, hs, h, .nil⟩

/-- Attributes other than the size do not touch the files. -/
theorem kept_withNode {n : INode} (hlike : (t.ino i).Like n) (hsize : n.size = (t.ino i).size)
    (j : Nat) : t.Kept (t.withNode i n) j := by
  have hl := withNode_like hlike j
  have hbytes : ((t.withNode i n).ino j).fileBytes t.data = (t.ino j).fileBytes t.data := by
    rw [INode.fileBytes, (like_blocks hl t.data).1]
    rfl
  refine ⟨?_, fun _ => ?_, fun _ => hbytes⟩
  · rw [View.IsFile, hl.fileType]
    rfl
  · by_cases hji : j = i
    · subst hji
      simp only [St.withNode, Function.update_self]
      exact hsize
    · simp only [St.withNode, Function.update_of_ne hji]

/-- One change is one quiet event. -/
theorem follows_of_moves (hs : g.Rep s t) (h : g.Attending t) (hm : Moves true false s s') :
    ∃ log, g.Follows t s' log ∧ ∀ ev ∈ log, Quiet ev := by
  have hupright := upright_of_moves hs h.toUpright hm
  have hidle : ∀ {t'}, g.Rep s' t' → (∀ j, t.Kept t' j) → t'.openFiles = t.openFiles →
      t'.nextFileId = t.nextFileId → ∃ log, g.Follows t s' log ∧ ∀ ev ∈ log, Quiet ev := by
    intro t' hs' hkept hopen hnext
    have hturns : t.Turns t' .idle := .idle hkept
    obtain ⟨t'', hs'', h''⟩ := hupright
    obtain rfl := hs''.unique hs'
    have hnum : t''.Numbered := by
      intro id m hm
      rw [hopen] at hm
      rw [hnext]
      exact h.numbered id m hm
    have hstep : FileStore.Step 0 t.store .idle t''.store :=
      hturns.step hopen fun i hi => by cases hi
    refine ⟨[.idle], ⟨_, hs', ⟨h'', hturns.fitting h.fitting, hnum⟩, .single trivial hstep⟩, ?_⟩
    intro ev hev
    rw [List.mem_singleton.mp hev]
    trivial
  cases hm with
  | @names op _ hop hok hroom hdirs hstep =>
      have hexact : op.Exact s := by
        intro id buf now m hwrite
        subst hwrite
        exact hop.elim
      obtain ⟨ev, t', hs', ht', hev, hkind⟩ :=
        step_names hs h.following ⟨hok, hdirs, hexact⟩ hop hstep
      refine ⟨[ev], ⟨t', hs', ht'.attending hs' hupright, .single trivial hev⟩, ?_⟩
      intro x hx
      rw [List.mem_singleton.mp hx]
      rcases hkind with rfl | ⟨j, rfl⟩ | ⟨j, rfl, -⟩
      · trivial
      · trivial
      · trivial
  | @stored i target now _ hlive hsym hrun =>
      rw [hs.view_eq] at hlive hsym hrun
      have hmem := @INode.direct_mem _ t.data (h.targeted i hlive hsym)
      obtain ⟨t', hs', rfl, hlen⟩ := (wpr_writeSymlink h.toInv hlive hmem).of_ok hs hrun
      exact hidle hs' (turns_withTarget h.toInv hlive hsym hmem hlen) rfl rfl
  | @attributes i n _ hlive hn hlike hsize hrun =>
      rw [hs.view_eq] at hlive hlike hsize
      have hsame : n.size = (t.ino i).size := by
        rcases hsize with ⟨hno, -⟩ | hsame
        · cases hno
        · exact hsame
      exact hidle (writeInode_ok hs (h.lt hlive) hn hrun) (kept_withNode hlike hsame) rfl rfl

theorem follows_of_moved (hs : g.Rep s t) (h : g.Attending t) (hm : Moved true false s s') :
    ∃ log, g.Follows t s' log ∧ ∀ ev ∈ log, Quiet ev := by
  induction hm with
  | refl =>
      refine ⟨[], .nil hs h, ?_⟩
      intro ev hev
      cases hev
  | tail _ hmove ih =>
      obtain ⟨log, ⟨t₁, hs₁, h₁, hlog⟩, hquiet⟩ := ih
      obtain ⟨log', ⟨t₂, hs₂, h₂, hlog'⟩, hquiet'⟩ := follows_of_moves hs₁ h₁ hmove
      refine ⟨log ++ log', ⟨t₂, hs₂, h₂, hlog.append hlog'⟩, ?_⟩
      intro ev hev
      rcases List.mem_append.mp hev with hev | hev
      · exact hquiet ev hev
      · exact hquiet' ev hev

/-! ## Requests on handles -/

/-- A good reply says its part of the log, an error leaves it quiet. -/
def Replies (g : Geom) {ε α : Type} (t : St) (s' : FFS) (r : Except ε α)
    (means : α → List (FileStore.Event Nat Nat UInt8) → Prop) : Prop :=
  ∃ log, g.Follows t s' log ∧ match r with
    | .error _ => ∀ ev ∈ log, Quiet ev
    | .ok a => means a log

theorem replies_error {ε α : Type} {e : ε}
    {means : α → List (FileStore.Event Nat Nat UInt8) → Prop} (hs : g.Rep s t)
    (h : g.Attending t) : g.Replies t s (.error e) means := by
  refine ⟨[], .nil hs h, ?_⟩
  intro ev hev
  cases hev

/-- The handle is moved to the offset of the request first. -/
theorem seek_start {id p : Nat} {offset : UInt64} (hs : g.Rep s t) (h : g.Attending t)
    (hrun : seek id (.start offset) s = .ok p s') : ∃ t', g.Rep s' t' ∧ g.Attending t' ∧
      FileStore.Step 0 t.store (.moved id offset.toNat) t'.store := by
  obtain ⟨m, hopen⟩ := open_of_ok hs hrun
  obtain ⟨s₁, hok⟩ := seek_answers hs hopen offset
  have hp : p = offset.toNat := by
    rw [hok] at hrun
    cases hrun
    rfl
  subst hp
  obtain ⟨t', hs', ht', -, hev⟩ := step_seek hs h.following hrun
  have hstep : Step s (.seek id (.start offset)) s' := by
    show (ignoreResult _ s).state? = _
    rw [state?_ignoreResult, hrun]
    rfl
  have hop : (Op.seek id (.start offset)).OnHandle := trivial
  exact ⟨t', hs', ht'.attending hs' (upright_of_handle hs h.toUpright (.inl hop) hstep), hev⟩

theorem replies_read {fh size : Nat} {offset : UInt64} {r : Except Errno (List UInt8)}
    (hs : g.Rep s t) (h : g.Attending t) (hrun : Fuse.read fh offset size s = .ok r s') :
    g.Replies t s' r fun bs log =>
      log = [.moved (fh % U32) offset.toNat, .read (fh % U32) size bs] := by
  have hupright := upright_of_read hs h.toUpright hrun
  obtain ⟨r₁, s₁, hattempt, hrest⟩ := of_ok_bind hrun
  clear hrun
  have hseek := Prog.of_ok_attempt hattempt
  cases r₁ with
  | error e =>
      cases hrest
      obtain ⟨t', hs', rfl⟩ := (wpr_seek fun m hm => h.usable (h.handled _ m hm).1).of_err hs hseek
      exact replies_error hs' h
  | ok p =>
      obtain ⟨t₁, hs₁, h₁, hmoved⟩ := seek_start hs h hseek
      obtain ⟨r₂, s₂, hattempt', hreply⟩ := of_ok_bind hrest
      have hread := Prog.of_ok_attempt hattempt'
      cases r₂ with
      | error e =>
          cases hreply
          obtain ⟨t', hs', rfl⟩ :=
            (wpr_readFile fun m hm => h₁.usable (h₁.handled _ m hm).1).of_err hs₁ hread
          refine ⟨[.moved (fh % U32) offset.toNat], ⟨_, hs', h₁, .single trivial hmoved⟩, ?_⟩
          intro ev hev
          rw [List.mem_singleton.mp hev]
          trivial
      | ok bs =>
          cases hreply
          obtain ⟨t', hs', ht', hev⟩ := step_read hs₁ h₁.following hread
          exact ⟨_, ⟨t', hs', ht'.attending hs' hupright,
            (FileStore.Run.single trivial hmoved).snoc trivial hev⟩, rfl⟩

/-- The reply is the number of bytes that were written, as a `u32`. -/
theorem replies_write {fh : Nat} {offset : UInt64} {data : List UInt8} {r : Except Errno Nat}
    (hs : g.Rep s t) (h : g.Attending t)
    (hexact : ∀ p s₁, seek (fh % U32) (.start offset) s = .ok p s₁ →
      (Op.write (fh % U32) data now).Exact s₁)
    (hrun : Fuse.write fh offset data now s = .ok r s') :
    g.Replies t s' r fun k log => ∃ n, k = n % U32 ∧
      log = [.moved (fh % U32) offset.toNat, .wrote (fh % U32) (data.take n)] := by
  have hupright := upright_of_write hs h.toUpright hrun
  obtain ⟨r₁, s₁, hattempt, hrest⟩ := of_ok_bind hrun
  clear hrun
  have hseek := Prog.of_ok_attempt hattempt
  cases r₁ with
  | error e =>
      cases hrest
      obtain ⟨t', hs', rfl⟩ := (wpr_seek fun m hm => h.usable (h.handled _ m hm).1).of_err hs hseek
      exact replies_error hs' h
  | ok p =>
      obtain ⟨t₁, hs₁, h₁, hmoved⟩ := seek_start hs h hseek
      obtain ⟨r₂, s₂, hattempt', hreply⟩ := of_ok_bind hrest
      have hwrite := Prog.of_ok_attempt hattempt'
      have husable : ∀ m, t₁.openFiles (fh % U32) = some m → g.Usable t₁ m.inode :=
        fun m hm => h₁.usable (h₁.handled _ m hm).1
      cases r₂ with
      | error e =>
          cases hreply
          obtain ⟨t', hs', hf⟩ := (wpr_write husable).of_err hs₁ hwrite
          obtain ⟨ht', heq⟩ := hf.store h₁.following
          refine ⟨[.moved (fh % U32) offset.toNat], ⟨t', hs', ht'.attending hs' hupright, ?_⟩, ?_⟩
          · rw [heq]
            exact .single trivial hmoved
          · intro ev hev
            rw [List.mem_singleton.mp hev]
            trivial
      | ok n =>
          cases hreply
          obtain ⟨t', hs', ht', hev⟩ := step_write hs₁ h₁.following (hexact p s₁ hseek) hwrite
          exact ⟨_, ⟨t', hs', ht'.attending hs' hupright,
            (FileStore.Run.single trivial hmoved).snoc trivial hev⟩, n, rfl, rfl⟩

theorem replies_release {fh : Nat} {r : Reply} (hs : g.Rep s t) (h : g.Attending t)
    (hrun : release fh s = .ok r s') :
    g.Replies t s' r fun _ log => log = [.closed (fh % U32)] := by
  have hupright := upright_of_release hs h.toUpright hrun
  obtain ⟨r₁, s₁, hattempt, hreply⟩ := of_ok_bind hrun
  clear hrun
  have hclose := Prog.of_ok_attempt hattempt
  cases r₁ with
  | error e =>
      have hruns : Prog.Runs g.Rep (closeFile (fh % U32)) t () _ := runs_closeFile
      obtain ⟨s₂, hok, -⟩ := hruns s hs
      have herr : closeFile (fh % U32) s = .err e s₁ := hclose
      rw [hok] at herr
      cases herr
  | ok u =>
      cases hreply
      obtain ⟨t', hs', ht', hev⟩ := step_closeFile hs h.following hclose
      exact ⟨_, ⟨t', hs', ht'.attending hs' hupright, .single trivial hev⟩, rfl⟩

/-- An inode is opened if it is a file. -/
theorem replies_openFile {r : Except FSError Nat} (hs : g.Rep s t) (h : g.Attending t)
    (hbit : i < 2048 * g.inodeBitmapBlocks)
    (hrun : Prog.attempt (openFileFromInode i) s = .ok r s') :
    g.Replies t s' r fun id log => log = [.opened id i] := by
  have hupright := upright_of_openFile hs h.toUpright hbit hrun
  have hend := Prog.of_ok_attempt hrun
  cases r with
  | error e =>
      cases (wp_openFileFromInode_live hs hbit).of_err hend
      exact replies_error hs h
  | ok id =>
      obtain ⟨hfile, rfl, hs'⟩ := (wp_openFileFromInode_live hs hbit).of_ok hend
      obtain ⟨ht', hev⟩ := step_opened h.following hfile
      exact ⟨_, ⟨_, hs', ht'.attending hs' hupright, .single trivial hev⟩, rfl⟩

theorem replies_openIno {ino : Nat} {r : Except Errno Nat} (hs : g.Rep s t)
    (h : g.Attending t) (hbit : s.HasBit (v1InodeNumber ino))
    (hrun : openIno ino s = .ok r s') :
    g.Replies t s' r fun id log => log = [.opened id (v1InodeNumber ino)] := by
  obtain ⟨q, s₁, hq, hrest⟩ := of_ok_bind hrun
  clear hrun
  obtain ⟨rfl, rfl⟩ := toV1InodeNumber_ok hq
  obtain ⟨r₁, s₂, hopen, hreply⟩ := of_ok_bind hrest
  obtain ⟨log, hlog, hmeans⟩ := replies_openFile hs h (hs.hasBit hbit) hopen
  cases r₁ with
  | error e =>
      cases hreply
      exact ⟨log, hlog, hmeans⟩
  | ok id =>
      cases hreply
      exact ⟨log, hlog, hmeans⟩

/-! ## Requests that make files -/

/-- A file is made, or there are only quiet events. -/
theorem replies_createChild {name : Str} {parent : Nat} {r : Except FSError (INode × Nat)}
    (hs : g.Rep s t) (h : g.Attending t) (hc : s.Creatable true .file parent name now)
    (hrun : Prog.attempt (createChild .file name (v1InodeNumber parent) now) s = .ok r s') :
    g.Replies t s' r fun x log => log = [.born x.2] := by
  have hmoved : Moved true false s s' :=
    moved_createChild hs hc (Prog.state?_of_attempt hrun)
  have hend := Prog.of_ok_attempt hrun
  cases r with
  | error e =>
      obtain ⟨log, hlog, hquiet⟩ := follows_of_moved hs h hmoved
      exact ⟨log, hlog, hquiet⟩
  | ok x =>
      obtain ⟨n, i⟩ := x
      obtain ⟨t', fit, ds, n', data', hs', hdir, -, -, hcr⟩ :=
        created_of_createChild hs h.toInv (hs.hasBit hc.hasBit) hend
      have hturns : t.Turns t' (.born i) := hcr.turns h.toIntact hdir.1 hdir.2
      have hopen : t'.openFiles = t.openFiles := by
        rw [hcr.state]
        rfl
      have hnext : t'.nextFileId = t.nextFileId := by
        rw [hcr.state]
        rfl
      obtain ⟨t'', hs'', h''⟩ := upright_of_moved hs h.toUpright hmoved
      obtain rfl := hs''.unique hs'
      have hnum : t''.Numbered := by
        intro id m hm
        rw [hopen] at hm
        rw [hnext]
        exact h.numbered id m hm
      have hstep : FileStore.Step 0 t.store (.born i) t''.store :=
        hturns.step hopen fun j hj => by cases hj
      exact ⟨_, ⟨t'', hs', ⟨h'', hturns.fitting h.fitting, hnum⟩, .single trivial hstep⟩, rfl⟩

theorem replies_mknod {name : Str} {parent : Nat} {mode : UInt32}
    {r : Except ReplyErrno Entry} (hs : g.Rep s t) (h : g.Attending t)
    (hc : s.Creatable true .file parent name now) (hrun : mknod parent name mode now s = .ok r s') :
    g.Replies t s' r fun entry log => ∃ i, entry.attr.ino = i + 1 ∧ log = [.born i] := by
  obtain ⟨q, s₁, hq, hrest⟩ := of_ok_bind hrun
  clear hrun
  obtain ⟨rfl, rfl⟩ := toV1InodeNumber_ok hq
  split at hrest
  · cases hrest
    exact replies_error hs h
  split at hrest
  · cases hrest
    exact replies_error hs h
  obtain ⟨r', s₂, hattempt, hreply⟩ := of_ok_bind hrest
  clear hrest
  obtain ⟨log, hlog, hmeans⟩ := replies_createChild hs h hc hattempt
  cases r' with
  | error e =>
      cases hreply
      exact ⟨log, hlog, hmeans⟩
  | ok x =>
      obtain ⟨rfl, attr, hattr, rfl⟩ := reported hreply
      exact ⟨log, hlog, x.2, ino_of_fileAttr hattr, hmeans⟩

/-- `create` makes a file and opens it; where it cannot, the file stays. -/
theorem replies_create {name : Str} {parent : Nat} {mode : UInt32}
    {r : Except ReplyErrno (Entry × Nat)} (hs : g.Rep s t) (h : g.Attending t)
    (hc : s.Creatable true .file parent name now)
    (hrun : create parent name mode now s = .ok r s') :
    g.Replies t s' r fun x log => ∃ i, x.1.attr.ino = i + 1 ∧ log = [.born i, .opened x.2 i] := by
  obtain ⟨q, s₁, hq, hrest⟩ := of_ok_bind hrun
  clear hrun
  obtain ⟨rfl, rfl⟩ := toV1InodeNumber_ok hq
  split at hrest
  · cases hrest
    exact replies_error hs h
  split at hrest
  · cases hrest
    exact replies_error hs h
  obtain ⟨r', s₂, hattempt, hopen⟩ := of_ok_bind hrest
  clear hrest
  obtain ⟨log, ⟨t₂, hs₂, h₂, hlog⟩, hmeans⟩ := replies_createChild hs h hc hattempt
  cases r' with
  | error e =>
      cases hopen
      exact ⟨log, ⟨t₂, hs₂, h₂, hlog⟩, hmeans⟩
  | ok x =>
      obtain ⟨n, i⟩ := x
      have hborn : log = [.born i] := hmeans
      subst hborn
      obtain ⟨ino, s₃, hino, hattr⟩ := of_ok_bind hopen
      clear hopen
      obtain ⟨rfl, rfl⟩ := fromV1InodeNumber_ok hino
      obtain ⟨attr, s₄, hread, hattempt'⟩ := of_ok_bind hattr
      obtain rfl := (readOnly_fileAttr _ _).of_ok hread
      obtain ⟨r₂, s₅, hfile, hreply⟩ := of_ok_bind hattempt'
      obtain ⟨t₂', fit, ds, n', data', hs₂', -, -, -, hcr⟩ :=
        created_of_createChild hs h.toInv (hs.hasBit hc.hasBit) (Prog.of_ok_attempt hattempt)
      obtain rfl := hs₂'.unique hs₂
      have hbit := hs₂.ibit_lt (hcr.ibit_iff.mpr (.inr rfl))
      obtain ⟨log', ⟨t₅, hs₅, h₅, hlog'⟩, hmeans'⟩ := replies_openFile hs₂ h₂ hbit hfile
      cases r₂ with
      | error e =>
          cases hreply
          refine ⟨_, ⟨t₅, hs₅, h₅, hlog.append hlog'⟩, ?_⟩
          intro ev hev
          rcases List.mem_append.mp hev with hev | hev
          · rw [List.mem_singleton.mp hev]
            trivial
          · exact hmeans' ev hev
      | ok id =>
          cases hreply
          have hopened : log' = [.opened id i] := hmeans'
          subst hopened
          exact ⟨_, ⟨t₅, hs₅, h₅, hlog.append hlog'⟩, i, ino_of_fileAttr hread, rfl⟩

/-! ## One request -/

/-- A reply that is not what a request is about. -/
theorem means_of_error {req : Request} {a : Response} {e : ReplyErrno}
    {log : List (FileStore.Event Nat Nat UInt8)} (ha : a = .error e) (h : ∀ ev ∈ log, Quiet ev) :
    Means req a log := by
  rw [ha]
  exact .refused h

/-- An answered request takes the store through what the answer means. -/
theorem follows_of_serve {req : Request} {a : Response} (hs : g.Rep s t) (h : g.Attending t)
    (hok : req.Tracked s) (hserve : serve req s = .ok a s') :
    ∃ log, g.Follows t s' log ∧ Means req a log := by
  have hfair := hok.fair
  have hlooks : req.looks = true → s' = s → ∃ log, g.Follows t s' log ∧ Means req a log := by
    rintro hreq rfl
    exact ⟨[], .nil hs h, .looks hreq⟩
  have hmoved : req.turns = true → Moved true false s s' →
      ∃ log, g.Follows t s' log ∧ Means req a log := by
    intro hreq hm
    obtain ⟨log, hlog, hquiet⟩ := follows_of_moved hs h hm
    exact ⟨log, hlog, .turns hreq hquiet⟩
  cases req with
  | getattr ino =>
      obtain ⟨r, hrun, -⟩ := of_answer hserve
      exact hlooks rfl ((readOnly_getattr ino).of_ok hrun)
  | setattr ino mode size mtime ctime now =>
      obtain ⟨r, hrun, -⟩ := of_answer hserve
      exact hmoved rfl (moved_setattr hs h.toUpright hfair
        (.inr (hok.sizeless _ _ _ _ _ _ rfl)) hrun)
  | opendir ino =>
      obtain ⟨r, hrun, -⟩ := of_answer hserve
      exact hlooks rfl ((readOnly_opendir ino).of_ok hrun)
  | readdir ino offset full =>
      obtain ⟨r, hrun, -⟩ := of_answer hserve
      exact hlooks rfl ((readOnly_readdir ino offset full).of_ok hrun)
  | mkdir parent name now =>
      obtain ⟨r, hrun, -⟩ := of_answer hserve
      exact hmoved rfl (moved_mkdir hs hfair hrun)
  | lookup parent name =>
      obtain ⟨r, hrun, -⟩ := of_answer hserve
      exact hlooks rfl ((readOnly_lookup parent name).of_ok hrun)
  | rmdir parent name now =>
      obtain ⟨r, hrun, -⟩ := of_answer hserve
      exact hmoved rfl (moved_removeChild hs h.toUpright hfair (.inl rfl) hrun)
  | fsyncdir =>
      obtain ⟨r, hrun, -⟩ := of_answer hserve
      exact hlooks rfl (readOnly_sync.of_ok hrun)
  | releasedir =>
      obtain ⟨r, hrun, -⟩ := of_answer hserve
      exact hlooks rfl ((ReadOnly.pure _).of_ok hrun)
  | readlink ino =>
      obtain ⟨r, hrun, -⟩ := of_answer hserve
      exact hlooks rfl ((readOnly_readlink ino).of_ok hrun)
  | symlink parent linkName target now now' =>
      obtain ⟨r, hrun, -⟩ := of_answer hserve
      exact hmoved rfl (moved_symlink hs h.toUpright hfair hrun)
  | access =>
      obtain ⟨r, hrun, -⟩ := of_answer hserve
      exact hlooks rfl ((ReadOnly.pure _).of_ok hrun)
  | mknod parent name mode now =>
      obtain ⟨r, hrun, ha⟩ := of_answer hserve
      obtain ⟨log, hlog, hmeans⟩ := replies_mknod hs h hfair hrun
      cases r with
      | error e => exact ⟨log, hlog, means_of_error ha hmeans⟩
      | ok entry =>
          obtain ⟨i, hino, rfl⟩ := hmeans
          rw [ha]
          exact ⟨_, hlog, .mknod hino⟩
  | unlink parent name now =>
      obtain ⟨r, hrun, -⟩ := of_answer hserve
      exact hmoved rfl (moved_removeChild hs h.toUpright hfair.1 (.inr hfair.2) hrun)
  | link ino newparent newname now =>
      obtain ⟨r, hrun, -⟩ := of_answer hserve
      exact hmoved rfl (moved_link hs hfair.1 hfair.2.1 hfair.2.2 hrun)
  | rename parent name newparent newname flags now now' =>
      obtain ⟨r, hrun, -⟩ := of_answer hserve
      exact hmoved rfl (moved_rename hs h.toUpright hfair.1 hfair.2.1 hfair.2.2 hrun)
  | create parent name mode now =>
      obtain ⟨r, hrun, ha⟩ := of_answer hserve
      obtain ⟨log, hlog, hmeans⟩ := replies_create hs h hfair hrun
      cases r with
      | error e => exact ⟨log, hlog, means_of_error ha hmeans⟩
      | ok x =>
          obtain ⟨i, hino, rfl⟩ := hmeans
          rw [ha]
          exact ⟨_, hlog, .create hino⟩
  | openIno ino =>
      obtain ⟨r, hrun, ha⟩ := of_answer hserve
      obtain ⟨log, hlog, hmeans⟩ := replies_openIno hs h hfair hrun
      cases r with
      | error e => exact ⟨log, hlog, means_of_error ha hmeans⟩
      | ok id =>
          obtain rfl : log = _ := hmeans
          rw [ha]
          exact ⟨_, hlog, .openIno⟩
  | read fh offset size =>
      obtain ⟨r, hrun, ha⟩ := of_answer hserve
      obtain ⟨log, hlog, hmeans⟩ := replies_read hs h hrun
      cases r with
      | error e => exact ⟨log, hlog, means_of_error ha hmeans⟩
      | ok bs =>
          obtain rfl : log = _ := hmeans
          rw [ha]
          exact ⟨_, hlog, .read⟩
  | write fh offset data now =>
      obtain ⟨r, hrun, ha⟩ := of_answer hserve
      obtain ⟨log, hlog, hmeans⟩ := replies_write hs h (hok.exact _ _ _ _ rfl) hrun
      cases r with
      | error e => exact ⟨log, hlog, means_of_error ha hmeans⟩
      | ok k =>
          obtain ⟨n, rfl, rfl⟩ := hmeans
          rw [ha]
          exact ⟨_, hlog, .write⟩
  | flush =>
      obtain ⟨r, hrun, -⟩ := of_answer hserve
      exact hlooks rfl ((ReadOnly.pure _).of_ok hrun)
  | release fh =>
      obtain ⟨r, hrun, ha⟩ := of_answer hserve
      obtain ⟨log, hlog, hmeans⟩ := replies_release hs h hrun
      cases r with
      | error e => exact ⟨log, hlog, means_of_error ha hmeans⟩
      | ok u =>
          obtain rfl : log = _ := hmeans
          rw [ha]
          exact ⟨_, hlog, .release⟩
  | fsync =>
      obtain ⟨r, hrun, -⟩ := of_answer hserve
      exact hlooks rfl (readOnly_sync.of_ok hrun)

theorem attending_of_initial (h : g.Initial now t) : g.Attending t where
  toUpright := .of_initial h
  fitting := (following_of_initial h).1.fitting
  numbered := (following_of_initial h).1.numbered

theorem follows_of_served (h : Served (fun s req => req.Tracked s) s s') (hs : g.Rep s t)
    (ht : g.Attending t) : ∃ log, g.Follows t s' log := by
  induction h with
  | nil => exact ⟨[], .nil hs ht⟩
  | snoc _ hok hserve ih =>
      obtain ⟨log, t₁, hs₁, h₁, hlog⟩ := ih
      obtain ⟨log', ⟨t₂, hs₂, h₂, hlog'⟩, -⟩ := follows_of_serve hs₁ h₁ hok hserve
      exact ⟨log ++ log', t₂, hs₂, h₂, hlog.append hlog'⟩

end Geom

/-! ## Runs -/

/-- A mounted filesystem that answers requests refines the store of files: whatever was asked
before, every answer means events that the store goes through. -/
theorem served_refines {d : MemoryDevice} {now : UInt64} {s₀ s : FFS}
    (hstart : start now d = some s₀) (h : Served (fun s req => req.Tracked s) s₀ s) :
    (∃ log, FileStore.Run 0 (fun _ _ => True) .empty log s.store) ∧
      ∀ req a s', req.Tracked s → serve req s = .ok a s' →
        ∃ log, Means req a log ∧ FileStore.Run 0 (fun _ _ => True) s.store log s'.store := by
  obtain ⟨g, t₀, -, hs₀, hinit⟩ := Geom.start_initial hstart
  obtain ⟨-, hempty⟩ := Geom.following_of_initial hinit
  obtain ⟨log, t, hs, ht, hlog⟩ := Geom.follows_of_served h hs₀ (Geom.attending_of_initial hinit)
  refine ⟨⟨log, ?_⟩, fun req a s' hok hserve => ?_⟩
  · rw [hs.store_eq, ← hempty]
    exact hlog
  · obtain ⟨log', ⟨t', hs', -, hlog'⟩, hmeans⟩ := Geom.follows_of_serve hs ht hok hserve
    refine ⟨log', hmeans, ?_⟩
    rw [hs.store_eq, hs'.store_eq]
    exact hlog'

/-- Plain requests, and writes as the store can follow. -/
def Fuse.Request.traced (s : FFS) (req : Request) : Bool :=
  req.plain true s && match req with
    | .write fh offset data now => match seek (fh % U32) (.start offset) s with
        | .ok _ s' => decide ((Op.write (fh % U32) data now).Exact s')
        | _ => true
    | _ => true

theorem Fuse.Request.tracked_of_traced {s : FFS} {req : Request} (h : req.traced s = true) :
    req.Tracked s := by
  obtain ⟨hplain, hexact⟩ := Bool.and_eq_true_iff.mp h
  refine ⟨fair_of_plain hplain, ?_, ?_⟩
  · rintro ino mode size mtime ctime now rfl
    cases hplain
  · rintro fh offset data now rfl p s' hseek
    simp only [hseek] at hexact
    exact of_decide_eq_true hexact

/-- A file is made in a new directory, written behind its end, and read. -/
theorem served_refines_small : ∃ s₀ s a s', start 0 (MemoryDevice.empty 14) = some s₀ ∧
    Served (fun s req => req.Tracked s) s₀ s ∧ serve (.read 0 0 4) s = .ok a s' ∧
    a = .data [0, 104, 105] ∧
    (∃ log, FileStore.Run 0 (fun _ _ => True) .empty log s.store) ∧
    ∃ log, Means (.read 0 0 4) a log ∧
      FileStore.Run 0 (fun _ _ => True) s.store log s'.store := by
  have hcalls : ((start 0 (MemoryDevice.empty 14)).bind (answered (fun s req => req.traced s)
      [.mkdir 1 [100] 0, .create 2 [98] 0o100644 0, .write 0 1 [104, 105] 0])).any (fun s =>
        Request.traced s (.read 0 0 4) &&
          (serve (.read 0 0 4) s).value?.any fun a => match a with
            | .data bs => decide (bs = [0, 104, 105])
            | _ => false) = true := by
    decide +kernel
  obtain ⟨s, hs, hfinal⟩ := (Option.any_eq_true _ _).mp hcalls
  obtain ⟨s₀, hstart, hanswered⟩ := Option.bind_eq_some_iff.mp hs
  simp only [Bool.and_eq_true, Option.any_eq_true, Outcome.value?_eq_some] at hfinal
  obtain ⟨hread, a, ⟨s', hserve⟩, ha⟩ := hfinal
  have hserved := (served_of_answered hanswered).imp fun _ _ => Request.tracked_of_traced
  obtain ⟨hlog, hnext⟩ := served_refines hstart hserved
  have hbytes : a = .data [0, 104, 105] := by
    split at ha
    · rw [of_decide_eq_true ha]
    · cases ha
  exact ⟨s₀, s, a, s', hstart, hserved, hserve, hbytes, hlog,
    hnext _ a s' (Request.tracked_of_traced hread) hserve⟩

end FerrisFS
