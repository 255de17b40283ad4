import FerrisFS.Fuse.Readdir
import FerrisFS.V1.Checks
import FerrisFS.V1.Inspect

/-!
# Deleting between the pages of a listing

The offset at which a listing goes on counts the records in front of it. Each removal of a
returned record moves the records behind it one place to the front, so that the next page
begins one record too late.
-/

namespace FerrisFS

open Lib FormatV1

/-- Each record that was in the directory at the start and still is has been returned at
most once, and exactly once when there is nothing more to return. -/
def ReturnedOnce (ino : Nat) (s₀ s : FFS) (off : Nat)
    (returned : List ((Nat × Nat) × DirEntry)) : Prop :=
  ∀ x ∈ s₀.listed (Fuse.v1InodeNumber ino), x ∈ s.listed (Fuse.v1InodeNumber ino) →
    returned.count x ≤ 1 ∧ (Exhausted ino s off → returned.count x = 1)

section

variable {g : Geom} {gaps : Bool} {s₀ s : FFS} {t₀ t : St} {i ino off : Nat}
  {items : List Fuse.DirItem} {returned : List ((Nat × Nat) × DirEntry)}

theorem Geom.Rep.nodup_listed (hs : g.Rep s t) (ho : g.Owning t) (hlive : t.ibit i = true) :
    (s.listed i).Nodup := by
  rw [FFS.listed, hs.view_eq]
  exact View.nodup_liveRecords (List.nodup_append.mp (ho.owns.nodup i hlive)).1

/-- A listing in which entries are removed only after all of them have been returned
returns each entry that stays exactly once. -/
theorem returnedOnce_of_paging (hs : g.Rep s₀ t₀) (h : g.Inv gaps t₀)
    (hlive : t₀.ibit (Fuse.v1InodeNumber ino) = true)
    (hp : Paging (fun s off => s.Through (Fuse.v1InodeNumber ino) off) ino s₀ s off items
      returned) : ReturnedOnce ino s₀ s off returned := by
  have hnodup := hs.nodup_listed h.owning hlive
  intro x hx _
  obtain ⟨t, hs', h', hcase⟩ := Geom.listing_of_paging hs h hlive rfl hp
  rcases hcase with ⟨rfl, -, rfl, -⟩ | ⟨rfl, -⟩
  · constructor
    · exact List.nodup_iff_count_le_one.mp (hnodup.sublist (List.take_sublist _ _)) x
    · intro hend
      obtain ⟨full, s', hroom, hrun⟩ := hend
      obtain ⟨-, -, k, -, -, -, -, hthrough⟩ :=
        Geom.handed_of_readdir hs' h'.owning (hs.counted h.owning hlive) rfl hrun
      rw [List.take_of_length_le (hthrough hroom rfl)]
      exact List.count_eq_one_of_mem hnodup hx
  · have hone := List.count_eq_one_of_mem hnodup hx
    exact ⟨hone.le, fun _ => hone⟩

/-- A listing of one reply, and a deletion after it. -/
theorem paging_unlinked {ok : FFS → Nat → Prop} {page : List Fuse.DirItem}
    {full : Fuse.ReplyDirectory} {name : Str} {now : UInt64} (hs : g.Rep s₀ t₀)
    (h : g.Inv gaps t₀) (hlive : t₀.ibit (Fuse.v1InodeNumber ino) = true)
    {s₁ : FFS} (hread : Fuse.readdir ino 0 full s₀ = .ok (.ok page) s₁)
    (hok : ok s₀ (Fuse.resume 0 page))
    (hname : s₀.Returned (Fuse.v1InodeNumber ino) name
      (s₀.handed (Fuse.v1InodeNumber ino) page))
    (hdel : Fuse.unlink ino name now s₀ = .ok (.ok ()) s) :
    Paging ok ino s₀ s (Fuse.resume 0 page) page (s₀.handed (Fuse.v1InodeNumber ino) page) := by
  obtain ⟨rfl, -⟩ :=
    Geom.handed_of_readdir hs h.owning (hs.counted h.owning hlive) rfl hread
  have hpage : Paging ok ino s₁ s₁ _ ([] ++ page) ([] ++ s₁.handed _ page) :=
    .page .start hread
  rw [List.nil_append, List.nil_append] at hpage
  exact .remove hpage hok hname (.inl hdel)

end

/-- All four entries of the root are returned, then `/a` is deleted, then nothing is left. -/
theorem returnedOnce_of_paging_deleted : ∃ s₀ s₁ s off items returned,
    start 0 (MemoryDevice.empty 14) = some s₀ ∧ Run (fun s op => op.Tame s) s₀ s₁ ∧
    Paging (fun s off => s.Through (Fuse.v1InodeNumber 1) off) 1 s₁ s off items returned ∧
    (s.listed 0).length = 3 ∧ ReturnedOnce 1 s₁ s off returned := by
  have hcalls : ((start 0 (MemoryDevice.empty 14)).bind (checked (fun s op => op.Tame s)
      [.createFile [47, 97] 0, .createFile [47, 98] 0])).any (fun s₁ =>
        ((Fuse.readdir 1 0 (fun _ _ => false) s₁).value?.bind Except.toOption).any fun page =>
          decide ((Fuse.readdir 1 0 (fun _ _ => false) s₁).value? = some (.ok page)) &&
          decide ((s₁.listed 0).length ≤ Fuse.resume 0 page) &&
          ((s₁.findEntry 0 [97]).bind id).any (fun x =>
            decide (((x.2.1, x.2.2), x.1) ∈ s₁.handed 0 page)) &&
          decide ((Fuse.unlink 1 [97] 0 s₁).value? = some (.ok ())) &&
          (Fuse.unlink 1 [97] 0 s₁).state?.any fun s => (s.listed 0).length == 3) = true := by
    decide +kernel
  obtain ⟨s₁, hs, hfinal⟩ := (Option.any_eq_true _ _).mp hcalls
  obtain ⟨s₀, hstart, hchecked⟩ := Option.bind_eq_some_iff.mp hs
  have hrun := run_of_checked hchecked
  obtain ⟨g, t, -, hrep, h, -⟩ := Geom.tame_run hstart hrun
  obtain ⟨page, -, hpage⟩ := (Option.any_eq_true _ _).mp hfinal
  simp only [Bool.and_eq_true, decide_eq_true_eq, beq_iff_eq, Option.any_eq_true,
    Option.bind_eq_some_iff, id, Outcome.value?_eq_some] at hpage
  obtain ⟨⟨⟨⟨⟨_, hread⟩, hthrough⟩, ⟨e, b, o⟩, ⟨_, hfind, rfl⟩, hmem⟩, s, hdel⟩, s', hs',
    hlen⟩ := hpage
  rw [hdel] at hs'
  cases hs'
  have hpaging : Paging (fun s off => s.Through (Fuse.v1InodeNumber 1) off) 1 s₁ s _ _ _ :=
    paging_unlinked hrep h h.root_live hread hthrough ⟨e, b, o, hfind, hmem⟩ hdel
  exact ⟨s₀, s₁, s, _, _, _, hstart, hrun, hpaging, hlen,
    returnedOnce_of_paging hrep h h.root_live hpaging⟩

/-- The root lists `.`, `..`, `a` and `b`. After a reply with room for three, `/a` is deleted;
the listing goes on behind `b`, and there is nothing more to return. -/
theorem listing_skips : ∃ s₀ s₁ s off items returned,
    start 0 (MemoryDevice.empty 14) = some s₀ ∧ Run (fun s op => op.Tame s) s₀ s₁ ∧
    Paging (fun _ _ => True) 1 s₁ s off items returned ∧
    Exhausted 1 s off ∧ ¬ ReturnedOnce 1 s₁ s off returned := by
  have hcalls : ((start 0 (MemoryDevice.empty 14)).bind (checked (fun s op => op.Tame s)
      [.createFile [47, 97] 0, .createFile [47, 98] 0])).any (fun s₁ =>
        ((Fuse.readdir 1 0 (fun items _ => items.length == 3) s₁).value?.bind
            Except.toOption).any fun page =>
          decide ((Fuse.readdir 1 0 (fun items _ => items.length == 3) s₁).value? =
            some (.ok page)) &&
          ((s₁.findEntry 0 [97]).bind id).any (fun x =>
            decide (((x.2.1, x.2.2), x.1) ∈ s₁.handed 0 page)) &&
          decide ((Fuse.unlink 1 [97] 0 s₁).value? = some (.ok ())) &&
          (Fuse.unlink 1 [97] 0 s₁).state?.any fun s =>
            decide ((Fuse.readdir 1 (Fuse.resume 0 page) (fun _ _ => false) s).value? =
              some (.ok [])) &&
            (s₁.listed 0)[3]?.any fun x =>
              decide (x ∈ s.listed 0) && (s₁.handed 0 page).count x == 0) = true := by
    decide +kernel
  obtain ⟨s₁, hs, hfinal⟩ := (Option.any_eq_true _ _).mp hcalls
  obtain ⟨s₀, hstart, hchecked⟩ := Option.bind_eq_some_iff.mp hs
  have hrun := run_of_checked hchecked
  obtain ⟨g, t, -, hrep, h, -⟩ := Geom.tame_run hstart hrun
  obtain ⟨page, -, hpage⟩ := (Option.any_eq_true _ _).mp hfinal
  simp only [Bool.and_eq_true, decide_eq_true_eq, beq_iff_eq, Option.any_eq_true,
    Option.bind_eq_some_iff, id, Outcome.value?_eq_some] at hpage
  obtain ⟨⟨⟨⟨_, hread⟩, ⟨e, b, o⟩, ⟨_, hfind, rfl⟩, hmem⟩, s, hdel⟩, s', hs', ⟨s₃, hrest⟩, x,
    hx, hstays, hcount⟩ := hpage
  rw [hdel] at hs'
  cases hs'
  have hpaging : Paging (fun _ _ => True) 1 s₁ s _ _ _ :=
    paging_unlinked hrep h h.root_live hread trivial ⟨e, b, o, hfind, hmem⟩ hdel
  have hend : Exhausted 1 s (Fuse.resume 0 page) := ⟨_, s₃, fun _ => rfl, hrest⟩
  refine ⟨s₀, s₁, s, _, _, _, hstart, hrun, hpaging, hend, fun honce => ?_⟩
  have hone := (honce x (List.mem_of_getElem? hx) hstays).2 hend
  exact absurd (hcount.symm.trans hone) (by decide)

end FerrisFS
