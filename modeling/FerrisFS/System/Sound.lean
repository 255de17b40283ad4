import FerrisFS.Fuse.Serving

/-!
# Sound filesystems

What a maintainer wants of a mounted filesystem at any time, read off the device and the
format: inodes and blocks lie in their regions, no block has two owners, directories are made
of records and hang together as a tree, links are counted and open files exist. It holds in
every session and after every run of requests.
-/

namespace FerrisFS

open Lib FormatV1 Fuse

/-- With `gaps` set a directory block may end in a remainder too short for a record. -/
structure FFS.Sound (gaps : Bool) (s : FFS) : Prop where
  inode_lt : ∀ i, s.view.ibit i = true → i < s.format.inodeAllocator.maxIndex
  blocks_le : ∀ i, s.view.ibit i = true → (s.view.ino i).blocks ≤ INode.MAX_BLOCKS
  block_lt : ∀ i, s.view.ibit i = true → ∀ b ∈ s.view.owned i,
    b < s.format.blockAllocator.maxIndex
  owns : Owns (fun i => s.view.ibit i = true) s.view.owned (fun b => s.view.dbit b = true)
  tidy : ∀ d, s.view.IsDir d → ∀ b ∈ s.view.content d, ∃ cs, TidyLayout gaps (s.view.data b) cs
  graph : s.view.graph.Sound 0
  acyclic : s.view.graph.Acyclic
  self : ∀ {d k e}, s.view.Rec d k e → e.label = [dot] → e.inode = d
  opened : ∀ id m, s.format.openFiles id = some m →
    s.view.ibit m.inode = true ∧ (s.view.ino m.inode).fileType = .file
  targets : ∀ i, s.view.ibit i = true → (s.view.ino i).fileType = .symlink →
    0 < (s.view.ino i).blocks
  spares : s.format.superblock.freeInodes ≤
    clearBelow s.format.inodeAllocator.maxIndex s.view.ibit

theorem Geom.Upright.sound {g : Geom} {gaps : Bool} {s : FFS} {t : St} (h : g.Upright gaps t)
    (hs : g.Rep s t) : s.Sound gaps := by
  have hview := hs.view_eq
  have hinodes : s.format.inodeAllocator.maxIndex = g.inodes := by
    rw [hs.2]
    rfl
  have hblocks : s.format.blockAllocator.maxIndex = g.cap := by
    rw [hs.2]
    rfl
  have hfree : s.format.superblock.freeInodes = t.freeInodes := by
    rw [hs.2]
    rfl
  constructor
  · rw [hview, hinodes]
    exact fun i hi => h.lt hi
  · rw [hview]
    exact fun i hi => (h.mapped hi).blocks_le
  · rw [hview, hblocks]
    exact fun i hi => (h.mapped hi).lt
  · rw [hview]
    exact h.owning.owns
  · rw [hview]
    exact fun d hd => h.tidy d hd.1 hd.2
  · rw [hview]
    exact h.graph
  · rw [hview]
    exact h.acyclic
  · rw [hview]
    exact h.self
  · rw [hview, hs.openFiles_eq]
    exact h.handled
  · rw [hview]
    exact h.targeted
  · rw [hview, hinodes, hfree]
    exact h.spares

/-- Every session keeps the filesystem sound. -/
theorem session_sound {d : MemoryDevice} {now : UInt64} {s₀ s : FFS}
    (hstart : start now d = some s₀) (h : Session s₀ s) : s.Sound true := by
  obtain ⟨g, t₀, -, hs₀, hinit⟩ := Geom.start_initial hstart
  obtain ⟨t, hs, ht⟩ := Geom.upright_of_session h hs₀ (.of_initial hinit)
  exact ht.sound hs

/-- A file, a directory with a file in it and a symlink are made, and the first file is opened
and written. -/
theorem session_sound_small : ∃ s₀ s, start 0 (MemoryDevice.empty 14) = some s₀ ∧
    Session s₀ s ∧ s.Sound true := by
  have hcalls : ((start 0 (MemoryDevice.empty 14)).bind (checked (fun s op => op.Tame s)
      [.createFile [47, 97] 0, .createDirectory [47, 100] 0, .createFile [47, 100, 47, 98] 0,
        .createSymlink [47, 108] [97] 0 0, .openFile [47, 97], .write 0 [104, 105] 0])).isSome =
          true := by
    decide +kernel
  obtain ⟨s, hs⟩ := Option.isSome_iff_exists.mp hcalls
  obtain ⟨s₀, hstart, hchecked⟩ := Option.bind_eq_some_iff.mp hs
  have hsession : Session s₀ s := .of_run (run_of_checked hchecked) fun _ _ hop => hop.careful
  exact ⟨s₀, s, hstart, hsession, session_sound hstart hsession⟩

/-- Every run of fair requests keeps the filesystem sound, whatever is asked in between. -/
theorem served_sound {d : MemoryDevice} {now : UInt64} {gaps : Bool} {s₀ s : FFS}
    (hstart : start now d = some s₀) (h : Served (fun s req => req.Fair gaps s) s₀ s) :
    s.Sound gaps := by
  obtain ⟨g, t₀, -, hs₀, hinit⟩ := Geom.start_initial hstart
  obtain ⟨t, hs, ht⟩ := Geom.upright_of_served h hs₀ (.of_initial hinit)
  exact ht.sound hs

/-- A directory and a file in it are made, the file is written and read, and the directory is
listed. -/
theorem served_sound_small : ∃ s₀ s, start 0 (MemoryDevice.empty 14) = some s₀ ∧
    Served (fun s req => req.Fair false s) s₀ s ∧ s.Sound false := by
  have hcalls : ((start 0 (MemoryDevice.empty 14)).bind (answered (Request.plain false)
      [.mkdir 1 [100] 0, .create 2 [98] 0o100644 0, .write 0 0 [104, 105] 0, .read 0 0 2,
        .lookup 2 [98], .getattr 3])).isSome = true := by
    decide +kernel
  obtain ⟨s, hs⟩ := Option.isSome_iff_exists.mp hcalls
  obtain ⟨s₀, hstart, hanswered⟩ := Option.bind_eq_some_iff.mp hs
  have hserved := (served_of_answered hanswered).imp fun _ _ => Request.fair_of_plain
  exact ⟨s₀, s, hstart, hserved, served_sound hstart hserved⟩

end FerrisFS
