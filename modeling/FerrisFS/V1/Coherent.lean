import FerrisFS.V1.Nesting

/-!
# What a resolution returns

The fields of a `ResolutionResult` describe one record and the inode it names. After the
last component has been followed as a symlink they do not: block, offset, parent and inode
are those of the target, the record is the one of the symlink.
-/

namespace FerrisFS

open Lib DirectoryHandler INodeTableHandler

namespace DirectoryHandler

variable {h : DirectoryHandler} {ih : INodeTableHandler} {d : MemoryDevice} {final : Bool}

/-! ## Records on the device -/

/-- `e` is a live record of the directory, at `off` of its content block `b`. -/
def Stored (h : DirectoryHandler) (ih : INodeTableHandler) (d : MemoryDevice) (dir : INode)
    (e : DirEntry) (b off : Nat) : Prop :=
  e.isFree = false ∧ (∃ i < dir.blocks, ih.getBlock dir i d = .ok b d) ∧
    ∃ buf, readBlock (b + h.dataStart) d = .ok buf d ∧ (off, e) ∈ buf.records

theorem stored_iterateBlocks {dir : INode} {name : List UInt8} : ∀ (is : List Nat),
    (∀ i ∈ is, i < dir.blocks) →
    Prog.wp (h.iterateBlocks dir ih (findCallback name) is none)
      (fun found _ => ∀ e b off, found = some (e, b, off) → h.Stored ih d dir e b off)
      (fun _ _ => True) d := by
  intro is
  induction is with
  | nil =>
      intro _ e b off heq
      cases heq
  | cons i is ih' =>
      intro his
      refine Prog.wp_seq ((readOnly_getBlock ih dir i).wp_self d) ?_ fun _ _ _ => trivial
      intro b d' hget
      obtain ⟨rfl, hget⟩ := hget
      refine Prog.wp_seq ((Prog.ReadOnly.checkedAdd _ _ _).wp_self d') ?_ fun _ _ _ => trivial
      intro addr d'' hadd
      obtain ⟨rfl, hadd⟩ := hadd
      refine Prog.wp_seq Prog.wp_self ?_ fun _ _ _ => trivial
      intro buf d' hread
      have hd : d' = d'' := by
        unfold readBlock at hread
        split at hread
        · cases hread
        · cases hread
          rfl
      subst hd
      have haddr : addr = b + h.dataStart := by
        unfold Prog.checkedAdd at hadd
        split at hadd
        · cases hadd
          rfl
        · cases hadd
      subst haddr
      refine Prog.wp_seq (wp_iterateBlock (Nat.le_add_left _ _) (Nat.zero_le _)) ?_
        fun _ _ _ => trivial
      intro r d'' hr
      obtain ⟨rfl, hfold, -⟩ := hr
      rcases @foldRecords_find _ _ _ b (fun e off => (e, b, off))
        (fun e off q hq => findCallback_cases hq) _ _ hfold with
        ⟨o, e', hmem, hhit, rfl⟩ | ⟨-, rfl⟩
      · refine Prog.wp_ite (fun _ => ?_) fun hgo => absurd rfl hgo
        intro e b' off heq
        cases heq
        exact ⟨hhit.1, ⟨i, his i List.mem_cons_self, hget⟩, buf, hread, hmem⟩
      · refine Prog.wp_ite (fun hstop => absurd hstop Bool.false_ne_true) fun _ => ?_
        exact ih' fun k hk => his k (List.mem_cons_of_mem _ hk)

/-- What `find_entry` returns is a record of the directory. -/
theorem stored_findEntry {dir : INode} {name : List UInt8} {e : DirEntry} {b off : Nat}
    (hfind : h.findEntry dir ih name d = .ok (some (e, b, off)) d) :
    h.Stored ih d dir e b off :=
  (stored_iterateBlocks (List.range dir.blocks) fun _ hi => List.mem_range.mp hi).of_ok hfind
    e b off rfl

/-! ## The last component -/

/-- A component that a call of `resolve` gets past is a step in the links on the device. -/
theorem step_of_component {comp : Component} (hcomp : ¬ (comp = .curDir ∨ comp = .rootDir))
    {last : Bool} {c c' : Cursor} {d' : MemoryDevice}
    (hrun : h.resolveComponent ih (fun t src => h.resolveFrom ih 40 1 true t src) final 0 comp
      last c d = .ok c' d') :
    ∃ k, (h.links ih d).step ((h.links ih d).follow 40) final last (c.inodeInd, c.inode) comp =
      .found (c'.inodeInd, c'.inode) k := by
  have hends : Ends d (fun c => Found c.result)
      (h.loggedComponent ih (fun t src => h.loggedFrom ih 40 1 true t src) final 0 comp last c)
      ((h.links ih d).step ((h.links ih d).follow 40) final last (c.inodeInd, c.inode) comp) := by
    refine ends_component (by simp [Links.follow]) ?_ hcomp last c
    intro g hg t src
    cases hg
    exact ends_from 39 40 1 rfl (by omega) true t src
  obtain ⟨l, hlogged⟩ := (erases_component (fun t src => erases_from 40 1 true t src) comp last
    c).exists_ok hrun []
  have hended := hends []
  rw [hlogged] at hended
  generalize (h.links ih d).step _ _ _ _ _ = res at hended
  cases hended with
  | found l' hfound =>
      rename_i n
      obtain rfl : n = (c'.inodeInd, c'.inode) := hfound
      exact ⟨_, rfl⟩

/-- The loop over a path, up to its last component. -/
theorem loop_last {comp : Component} (hcomp : ¬ (comp = .curDir ∨ comp = .rootDir))
    {c' : Cursor} {d' : MemoryDevice} : ∀ (init : List Component) (c : Cursor),
    c.inode.fileType = .directory → Reads ih d c.result →
    h.resolveLoop ih (fun t src => h.resolveFrom ih 40 1 true t src) final 0 (init ++ [comp]) c d =
      .ok c' d' →
    ∃ c₁ k, (h.links ih d).walk ((h.links ih d).follow 40) true init (c.inodeInd, c.inode) =
        .found (c₁.inodeInd, c₁.inode) k ∧
      c₁.inode.fileType = .directory ∧ Reads ih d c₁.result ∧
      h.resolveComponent ih (fun t src => h.resolveFrom ih 40 1 true t src) final 0 comp true c₁ d =
        .ok c' d' := by
  intro init
  induction init with
  | nil =>
      intro c hdir hreads hrun
      rw [List.nil_append] at hrun
      unfold resolveLoop at hrun
      rw [if_neg hcomp] at hrun
      obtain ⟨c₂, d₂, hlast, hrun⟩ := Prog.of_ok_bind hrun
      cases hrun
      exact ⟨c, 0, rfl, hdir, hreads, hlast⟩
  | cons a rest ih' =>
      intro c hdir hreads hrun
      rw [List.cons_append] at hrun
      unfold resolveLoop at hrun
      by_cases hskip : a = .curDir ∨ a = .rootDir
      · rw [if_pos hskip] at hrun
        obtain ⟨c₁, k, hwalk, hrest⟩ := ih' c hdir hreads hrun
        exact ⟨c₁, k, by rw [Links.walk_stay (look_skip hskip), hwalk], hrest⟩
      · rw [if_neg hskip, show (rest ++ [comp]).isEmpty = false by simp] at hrun
        obtain ⟨c₂, d₂, hmid, hloop⟩ := Prog.of_ok_bind hrun
        obtain ⟨rfl, hreads₂⟩ := (reads_resolveComponent
          (fun t src => reader_resolveFrom 40 1 true t src)).of_ok hmid
        obtain ⟨j, hstep⟩ := step_of_component hskip hmid
        obtain ⟨hin, hstep⟩ := Links.step_mid (look_ne_stay hskip) hstep rest.isEmpty
        obtain ⟨c₁, k, hwalk, hrest⟩ := ih' c₂ (of_decide_eq_true hin) hreads₂ hloop
        refine ⟨c₁, k + j, ?_, hrest⟩
        rw [Links.walk_cons, hstep, Res.next_found, hwalk, Res.add_found]

/-! ## Results -/

/-- The result describes one record: the live record at its place in its parent directory,
which names the inode returned. -/
structure Coherent (h : DirectoryHandler) (ih : INodeTableHandler) (d : MemoryDevice)
    (r : ResolutionResult) : Prop where
  record : ∃ parent, ih.readInode r.parentInodeIndex d = .ok parent d ∧
    parent.fileType = .directory ∧
    h.Stored ih d parent r.dirEntry r.dirEntryBlockIndex r.dirEntryOffset
  names : r.dirEntry.inode = r.targetInodeIndex
  inode : ih.readInode r.targetInodeIndex d = .ok r.targetInode d

/-- The last component of the path names a symlink in the directory before it. -/
def LinkLast (h : DirectoryHandler) (ih : INodeTableHandler) (d : MemoryDevice)
    (path : List Component) : Prop :=
  ∃ init comp dir k self target, path = init ++ [comp] ∧
    (h.links ih d).resolve 40 true init h.rootInodeInd = .found dir k ∧
    (h.links ih d).look dir comp = .link self target

/-- A target starts at the root or in the directory of its link. -/
theorem target_base {link : INode} {dir base : Nat} {t : List Component}
    (ht : h.target d link dir = .ok (t, base)) : base = h.rootInodeInd ∨ base = dir := by
  unfold target at ht
  split at ht
  · cases ht
  · have hwp : Prog.wp (h.symlinkTarget link dir)
        (fun r _ => r.2 = h.rootInodeInd ∨ r.2 = dir) (fun _ _ => True) d := by
      refine Prog.wp_seq Prog.wp_self ?_ fun _ _ _ => trivial
      intro addr _ _
      refine Prog.wp_seq Prog.wp_self ?_ fun _ _ _ => trivial
      intro buf _ _
      refine Prog.wp_assert fun _ => Prog.wp_assert fun _ => ?_
      refine Prog.wp_bind.mpr (Prog.wp_unwrap fun first _ => ?_)
      show (if first = slash then h.rootInodeInd else dir) = h.rootInodeInd ∨
        (if first = slash then h.rootInodeInd else dir) = dir
      split
      · exact .inl rfl
      · exact .inr rfl
    unfold answerOf at ht
    split at ht
    · rename_i a d' hrun
      cases ht
      exact hwp.of_ok hrun
    · cases ht
    · cases ht

/-- What is looked up is what the inode table holds. -/
theorem look_cases {dir : Node} {comp : Component} :
    (∀ m, (h.links ih d).look dir comp = .node m →
      m.2.fileType ≠ .symlink ∧ ih.node d m.1 = .ok m) ∧
    ∀ self target, (h.links ih d).look dir comp = .link self target →
      target = h.target d self.2 dir.1 := by
  show (∀ m, h.look ih d dir comp = .node m → _) ∧
    ∀ self target, h.look ih d dir comp = .link self target → _
  unfold look
  split
  · exact ⟨fun m hm => by (cases hm), fun self target hm => by (cases hm)⟩
  · split
    · exact ⟨fun m hm => by (cases hm), fun self target hm => by (cases hm)⟩
    · rename_i e _
      split
      · exact ⟨fun m hm => by (cases hm), fun self target hm => by (cases hm)⟩
      · rename_i n hn
        have hind : n.1 = e.inode := by
          unfold INodeTableHandler.node at hn
          split at hn
          · cases hn
            rfl
          · cases hn
        split
        · refine ⟨fun m hm => by (cases hm), fun self target hm => ?_⟩
          cases hm
          rfl
        · rename_i hsym
          refine ⟨fun m hm => ?_, fun self target hm => by (cases hm)⟩
          cases hm
          exact ⟨hsym, hind ▸ hn⟩

/-- What is found is what a record of the directory names. -/
theorem look_node {dir m : Node} {comp : Component}
    (hlook : (h.links ih d).look dir comp = .node m) :
    ∃ e b off, h.findEntry dir.2 ih (Path.componentBytes comp) d = .ok (some (e, b, off)) d ∧
      m.1 = e.inode := by
  have hlook : h.look ih d dir comp = .node m := hlook
  unfold look entry at hlook
  split at hlook
  · cases hlook
  · cases hfind : h.findEntry dir.2 ih (Path.componentBytes comp) d with
    | ok found d' =>
        obtain rfl := (readOnly_findEntry _ _ _ _).of_ok hfind
        rw [hfind] at hlook
        match found with
        | none => cases hlook
        | some (e, b, off) =>
          refine ⟨e, b, off, rfl, ?_⟩
          dsimp only [answerOf] at hlook
          unfold INodeTableHandler.node at hlook
          split at hlook
          · cases hlook
          · rename_i e' he
            split at he
            · cases he
            · cases he
              split at hlook
              · cases hlook
              · rename_i n hn
                split at hlook
                · cases hlook
                · cases hlook
                  split at hn
                  · cases hn
                    rfl
                  · cases hn
    | err e d' =>
        rw [hfind] at hlook
        cases hlook
    | panic =>
        rw [hfind] at hlook
        cases hlook

/-- Resolution that follows the last component ends at what is not a symlink. -/
theorem closed_plain {root : INode} (hroot : ih.readInode h.rootInodeInd d = .ok root d)
    (hrootdir : root.fileType = .directory) :
    (h.links ih d).Closed (fun n => n.2.fileType ≠ .symlink ∧ ih.node d n.1 = .ok n)
      (fun _ => True) where
  absent _ _ _ := trivial
  node _ _ hlook := look_cases.1 _ hlook
  unread _ _ _ := trivial
  unstarted _ _ _ _ := trivial
  outside := trivial
  started := by
    intro n c self t base m hn hin hlook hstart
    have hroot' : ih.node d h.rootInodeInd = .ok (h.rootInodeInd, root) :=
      node_of_read (by rw [hroot]; rfl)
    have hdir : n.2.fileType = .directory := of_decide_eq_true hin
    have hat : ∃ m', ih.node d base = .ok m' ∧ m'.2.fileType = .directory ∧
        ih.node d m'.1 = .ok m' := by
      rcases target_base (look_cases.2 _ _ hlook).symm with rfl | rfl
      · exact ⟨_, hroot', hrootdir, hroot'⟩
      · exact ⟨n, hn.2, hdir, hn.2⟩
    have hm : m.2.fileType = .directory ∧ ih.node d m.1 = .ok m := by
      obtain ⟨m', hm', hmdir, hnode⟩ := hat
      unfold links at hstart
      dsimp only at hstart
      rw [hm', hroot'] at hstart
      dsimp only at hstart
      split at hstart
      · cases hstart
        exact ⟨hrootdir, hroot'⟩
      · cases hstart
        exact ⟨hmdir, hnode⟩
    exact ⟨⟨by simp [hm.1], hm.2⟩, decide_eq_true hm.1⟩

/-- What the last component leaves in the cursor. -/
theorem last_component {follow : List Component → Nat → DevM ResolutionResult} {it : Nat}
    {comp : Component} {c c' : Cursor} {d' : MemoryDevice}
    (hrun : h.resolveComponent ih follow final it comp true c d = .ok c' d') :
    ∃ e b off inode, h.findEntry c.inode ih (Path.componentBytes comp) d =
        .ok (some (e, b, off)) d ∧ e.inode ≠ INVALID_ADDRESS ∧
      ih.readInode e.inode d = .ok inode d ∧ c'.entry = e ∧
      (inode.fileType = .symlink ∧ final = true ∨
        ¬ (inode.fileType = .symlink ∧ final = true) ∧
          c'.result = ⟨inode, e.inode, c.inodeInd, e, b, off⟩) := by
  unfold resolveComponent at hrun
  obtain ⟨found, d₁, hfind, hfound⟩ := Prog.of_ok_bind hrun
  clear hrun
  obtain rfl := (readOnly_findEntry _ _ _ _).of_ok hfind
  match found with
  | none => cases hfound
  | some (e, b, off) =>
    obtain ⟨hvalid, hguard⟩ := Prog.of_ok_guard hfound
    obtain ⟨inode, d₂, hread, hrun⟩ := Prog.of_ok_bind hguard
    clear hfound hguard
    obtain rfl := (readOnly_readInode _ _).of_ok hread
    refine ⟨e, b, off, inode, hfind, hvalid, hread, ?_⟩
    by_cases hfollow : inode.fileType = .symlink ∧ final = true
    · refine ⟨?_, .inl hfollow⟩
      rw [if_pos ⟨hfollow.1, .inr hfollow.2⟩] at hrun
      obtain ⟨-, hrun⟩ := Prog.of_ok_guard hrun
      obtain ⟨-, hrun⟩ := Prog.of_ok_guard hrun
      obtain ⟨target, d₃, -, hrun⟩ := Prog.of_ok_bind hrun
      obtain ⟨res, d₄, -, hrun⟩ := Prog.of_ok_bind hrun
      obtain ⟨-, hrun⟩ := Prog.of_ok_guard hrun
      cases hrun
      rfl
    · rw [if_neg (by simpa using hfollow), if_neg (by simp)] at hrun
      cases hrun
      exact ⟨rfl, .inr ⟨hfollow, rfl⟩⟩

/-- A path that names something ends in a component that is looked up. -/
theorem split_last {p : Str}
    (hcomp : ∃ c ∈ Path.components p, ¬ (c = .curDir ∨ c = .rootDir)) :
    ∃ init comp, Path.components p = init ++ [comp] ∧ ¬ (comp = .curDir ∨ comp = .rootDir) := by
  have htail := (Path.proper_components p).tail
  obtain ⟨c, hmem, hc⟩ := hcomp
  generalize Path.components p = comps at hmem htail
  have hne : comps ≠ [] := List.ne_nil_of_mem hmem
  refine ⟨comps.dropLast, comps.getLast hne, (List.dropLast_append_getLast hne).symm, ?_⟩
  match comps with
  | [x] =>
      rw [List.mem_singleton.mp hmem] at hc
      exact hc
  | x :: y :: rest =>
      rw [List.getLast_cons (by simp)]
      exact htail _ (List.getLast_mem _)

/-- A walk from the root starts there, however its path starts. -/
theorem start_root {root : INode} (hroot : ih.readInode h.rootInodeInd d = .ok root d)
    (path : List Component) :
    (h.links ih d).start path h.rootInodeInd = .ok (h.rootInodeInd, root) := by
  have hnode : ih.node d h.rootInodeInd = .ok (h.rootInodeInd, root) :=
    node_of_read (by rw [hroot]; rfl)
  simp only [links, hnode]
  split <;> rfl

/-- A resolution ends by looking its last component up in the directory that the path
before it leads to. -/
theorem resolve_last {root : INode} {r : ResolutionResult} {init : List Component}
    {comp : Component} (hroot : ih.readInode h.rootInodeInd d = .ok root d)
    (hrootdir : root.fileType = .directory) (hlast : ¬ (comp = .curDir ∨ comp = .rootDir))
    (hok : h.resolve (init ++ [comp]) h.rootInodeInd ih final d = .ok r d) :
    ∃ c₁ c' k, (h.links ih d).resolve 40 true init h.rootInodeInd =
        .found (c₁.inodeInd, c₁.inode) k ∧
      c₁.inode.fileType = .directory ∧ Reads ih d c₁.result ∧
      h.resolveComponent ih (fun t src => h.resolveFrom ih 40 1 true t src) final 0 comp true c₁ d =
        .ok c' d ∧ c'.result = r := by
  unfold resolve resolveFrom at hok
  rw [Prog.bind_of_ok hroot, if_neg, if_neg] at hok
  · obtain ⟨c', d', hloop, hok⟩ := Prog.of_ok_bind hok
    cases hok
    obtain ⟨c₁, k, hwalk, hdir, hreads, hrun⟩ := loop_last hlast init
      ⟨root, h.rootInodeInd, h.rootInodeInd, DirEntry.free 0, 0, 0, []⟩ hrootdir hroot hloop
    exact ⟨c₁, c', k, by rw [Links.resolve_of_start (start_root hroot _), hwalk], hdir, hreads,
      hrun, rfl⟩
  · intro heq
    have := congrArg List.getLast? heq
    simp at this
    exact hlast (.inr this)
  · intro heq
    rcases heq with heq | heq
    · simp at heq
    · have := congrArg List.getLast? heq
      simp at this
      exact hlast (.inl this)

/-- The result of a resolution is coherent unless the last component is followed as a
symlink. -/
theorem resolve_coherent_iff {root : INode} {p : Str} {r : ResolutionResult}
    (hroot : ih.readInode h.rootInodeInd d = .ok root d) (hrootdir : root.fileType = .directory)
    (hcomp : ∃ c ∈ Path.components p, ¬ (c = .curDir ∨ c = .rootDir))
    (hok : h.resolve (Path.components p) h.rootInodeInd ih final d = .ok r d) :
    h.Coherent ih d r ↔ final = false ∨ ¬ h.LinkLast ih d (Path.components p) := by
  have hplain := found_of_resolve hok
  obtain ⟨init, comp, hpath, hlast⟩ := split_last hcomp
  rw [hpath] at hok hplain ⊢
  obtain ⟨c₁, c', k, hwalk, hdir, hreads, hrun, rfl⟩ := resolve_last hroot hrootdir hlast hok
  obtain ⟨e, b, off, inode, hfind, hvalid, hread, hentry, hcase⟩ := last_component hrun
  -- the record it has found is the one that the links are read from
  have hlink : h.LinkLast ih d (init ++ [comp]) ↔ inode.fileType = .symlink := by
    have hent : h.entry ih d c₁.inode comp = .ok e := by
      unfold entry
      rw [hfind]
      exact if_neg hvalid
    have hnode : ih.node d e.inode = .ok (e.inode, inode) := node_of_read (by rw [hread]; rfl)
    have hlook : (h.links ih d).look (c₁.inodeInd, c₁.inode) comp =
        if inode.fileType = .symlink then
          .link (e.inode, inode) (h.target d inode c₁.inodeInd) else .node (e.inode, inode) := by
      show h.look ih d _ comp = _
      unfold look
      rw [if_neg hlast, hent]
      dsimp only
      rw [hnode]
    constructor
    · intro hl
      obtain ⟨init', comp', dir, k', self, target, heq, hres, hlook'⟩ := hl
      obtain ⟨rfl, hc⟩ := List.append_inj' heq rfl
      cases hc
      rw [hwalk] at hres
      cases hres
      by_contra hsym
      rw [hlook, if_neg hsym] at hlook'
      cases hlook'
    · intro hsym
      rw [if_pos hsym] at hlook
      exact ⟨init, comp, _, k, _, _, rfl, hwalk, hlook⟩
  rw [hlink]
  rcases hcase with ⟨hsym, hfinal⟩ | ⟨hnot, hres⟩
  · -- the record names the symlink, the result does not
    have hplain' : c'.result.targetInode.fileType ≠ .symlink := by
      obtain ⟨n, j, hfound, hn, -⟩ := hplain
      have hroot' : ih.node d h.rootInodeInd = .ok (h.rootInodeInd, root) :=
        node_of_read (by rw [hroot]; rfl)
      have hwithin := (closed_plain hroot hrootdir).walk 40 final (init ++ [comp])
        (h.rootInodeInd, root) ⟨by simp [hrootdir], hroot'⟩ (decide_eq_true hrootdir)
      rw [← Links.resolve_of_start (start_root hroot _), hfound] at hwithin
      cases hn
      rcases hwithin with hwithin | hwithin
      · exact hwithin.1
      · rw [hfinal] at hwithin
        cases hwithin
    constructor
    · intro hc
      have hnames : e.inode = c'.result.targetInodeIndex := by
        rw [← hentry]
        exact hc.names
      have hinode := hc.inode
      rw [← hnames, hread] at hinode
      obtain ⟨rfl, -⟩ := Outcome.ok.inj hinode
      exact absurd hsym hplain'
    · intro hcond
      rcases hcond with hcond | hcond
      · rw [hfinal] at hcond
        cases hcond
      · exact absurd hsym hcond
  · -- all fields come from the record that was looked up last
    constructor
    · intro _
      by_cases hf : final = true
      · exact .inr fun hsym => hnot ⟨hsym, hf⟩
      · exact .inl (by simpa using hf)
    · intro _
      rw [hres]
      exact ⟨⟨c₁.inode, hreads, hdir, stored_findEntry hfind⟩, rfl, hread⟩

end DirectoryHandler

/-- `/s` is a symlink to `/a`; without following it `/s` gives a coherent result. -/
theorem resolve_coherent_link : ∃ s₀ s r, start 0 (MemoryDevice.empty 14) = some s₀ ∧
    Run (fun _ _ => True) s₀ s ∧
    s.format.directoryHandler.resolve (Path.components [47, 115])
      s.format.directoryHandler.rootInodeInd s.format.inodeHandler false s.device =
        .ok r s.device ∧
    s.format.directoryHandler.Coherent s.format.inodeHandler s.device r := by
  have hcalls : ((start 0 (MemoryDevice.empty 14)).bind
      (checked (fun _ _ => True) [.createFile [47, 97] 0,
        .createSymlink [47, 115] [47, 97] 0 0])).any (fun s =>
        (s.format.inodeHandler.readInode s.format.directoryHandler.rootInodeInd
          s.device).value?.any (fun root => root.fileType == .directory) &&
        (s.format.directoryHandler.resolve (Path.components [47, 115])
          s.format.directoryHandler.rootInodeInd s.format.inodeHandler false
          s.device).value?.isSome) = true := by
    decide +kernel
  obtain ⟨s, hs, hfinal⟩ := (Option.any_eq_true _ _).mp hcalls
  obtain ⟨s₀, hstart, hchecked⟩ := Option.bind_eq_some_iff.mp hs
  simp only [Bool.and_eq_true, beq_iff_eq, Option.any_eq_true, Outcome.value?_eq_some,
    Option.isSome_iff_exists] at hfinal
  obtain ⟨⟨root, ⟨d, hroot⟩, hrootdir⟩, r, ⟨d', hr⟩⟩ := hfinal
  obtain rfl := (readOnly_readInode _ _).of_ok hroot
  obtain rfl := (readOnly_resolve _ _ _ _ _).of_ok hr
  refine ⟨s₀, s, r, hstart, run_of_checked hchecked, hr, ?_⟩
  exact (resolve_coherent_iff hroot hrootdir ⟨.normal [115], by decide, by simp⟩ hr).mpr (.inl rfl)

/-- `/s` is a symlink to `/a`; followed to the file, it still comes with the record of the
symlink. -/
theorem resolve_incoherent : ∃ s₀ s r, start 0 (MemoryDevice.empty 14) = some s₀ ∧
    Run (fun _ _ => True) s₀ s ∧
    s.format.directoryHandler.resolve (Path.components [47, 115])
      s.format.directoryHandler.rootInodeInd s.format.inodeHandler true s.device =
        .ok r s.device ∧
    r.targetInode.fileType = .file ∧
    ¬ s.format.directoryHandler.Coherent s.format.inodeHandler s.device r := by
  have hcalls : ((start 0 (MemoryDevice.empty 14)).bind
      (checked (fun _ _ => True) [.createFile [47, 97] 0,
        .createSymlink [47, 115] [47, 97] 0 0])).any (fun s =>
        (s.format.directoryHandler.resolve (Path.components [47, 115])
          s.format.directoryHandler.rootInodeInd s.format.inodeHandler true
          s.device).value?.any (fun r => r.targetInode.fileType == .file &&
            r.dirEntry.inode != r.targetInodeIndex)) = true := by
    decide +kernel
  obtain ⟨s, hs, hfinal⟩ := (Option.any_eq_true _ _).mp hcalls
  obtain ⟨s₀, hstart, hchecked⟩ := Option.bind_eq_some_iff.mp hs
  simp only [Bool.and_eq_true, beq_iff_eq, bne_iff_ne, Option.any_eq_true,
    Outcome.value?_eq_some] at hfinal
  obtain ⟨r, ⟨d, hr⟩, hfile, hne⟩ := hfinal
  obtain rfl := (readOnly_resolve _ _ _ _ _).of_ok hr
  exact ⟨s₀, s, r, hstart, run_of_checked hchecked, hr, hfile, fun hc => hne hc.names⟩

end FerrisFS
