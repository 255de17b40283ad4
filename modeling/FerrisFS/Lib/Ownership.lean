import Mathlib.Data.List.Perm.Basic
import Mathlib.Tactic.Common

/-!
# Exclusive ownership

Every live owner holds a list of resources; no resource is held twice, by one
owner or by two, and every held resource is marked as taken.
-/

namespace Lib

variable {ι β : Type}

/-- The live owners hold pairwise distinct resources, all of them marked. -/
structure Owns (live : ι → Prop) (own : ι → List β) (marked : β → Prop) : Prop where
  nodup : ∀ i, live i → (own i).Nodup
  disjoint : ∀ i j, live i → live j → i ≠ j → (own i).Disjoint (own j)
  marked : ∀ i, live i → ∀ b ∈ own i, marked b

namespace Owns

variable {live live' : ι → Prop} {own own' : ι → List β} {marked marked' : β → Prop}

/-- An unmarked resource is held by nobody. -/
theorem not_mem (h : Owns live own marked) {i : ι} (hi : live i) {b : β}
    (hb : ¬ marked b) : b ∉ own i :=
  fun hmem => hb (h.marked i hi b hmem)

/-- Owners may come and go and marks may be added, as long as what is held stays
the same. -/
theorem mono (h : Owns live own marked) (hown : ∀ i, live' i → live i ∧ own' i = own i)
    (hmark : ∀ i, live' i → ∀ b ∈ own i, marked b → marked' b) : Owns live' own' marked' where
  nodup i hi := by
    rw [(hown i hi).2]
    exact h.nodup i (hown i hi).1
  disjoint i j hi hj hij := by
    rw [(hown i hi).2, (hown j hj).2]
    exact h.disjoint i j (hown i hi).1 (hown j hj).1 hij
  marked i hi b hb := by
    rw [(hown i hi).2] at hb
    exact hmark i hi b hb (h.marked i (hown i hi).1 b hb)

/-- Every owner, old or new, takes some resources that were not marked before. -/
theorem extend (h : Owns live own marked) (ext : ι → List β)
    (hown : ∀ i, live' i →
      live i ∧ (own' i).Perm (own i ++ ext i) ∨ ¬ live i ∧ (own' i).Perm (ext i))
    (hnodup : ∀ i, live' i → (ext i).Nodup)
    (hdisj : ∀ i j, live' i → live' j → i ≠ j → (ext i).Disjoint (ext j))
    (hfresh : ∀ i, live' i → ∀ b ∈ ext i, ¬ marked b ∧ marked' b)
    (hmark : ∀ b, marked b → marked' b) : Owns live' own' marked' := by
  have hmem : ∀ i, live' i → ∀ b ∈ own' i, live i ∧ b ∈ own i ∨ b ∈ ext i := by
    intro i hi b hb
    rcases hown i hi with ⟨hl, hp⟩ | ⟨-, hp⟩
    · rcases List.mem_append.mp (hp.mem_iff.mp hb) with ho | he
      · exact .inl ⟨hl, ho⟩
      · exact .inr he
    · exact .inr (hp.mem_iff.mp hb)
  refine ⟨?_, ?_, ?_⟩
  · intro i hi
    rcases hown i hi with ⟨hl, hp⟩ | ⟨-, hp⟩
    · rw [hp.nodup_iff, List.nodup_append]
      refine ⟨h.nodup i hl, hnodup i hi, ?_⟩
      rintro b hb _ he rfl
      exact (hfresh i hi b he).1 (h.marked i hl b hb)
    · exact hp.nodup_iff.mpr (hnodup i hi)
  · intro i j hi hj hij b hbi hbj
    rcases hmem i hi b hbi with ⟨hli, hoi⟩ | hei <;> rcases hmem j hj b hbj with ⟨hlj, hoj⟩ | hej
    · exact h.disjoint i j hli hlj hij hoi hoj
    · exact (hfresh j hj b hej).1 (h.marked i hli b hoi)
    · exact (hfresh i hi b hei).1 (h.marked j hlj b hoj)
    · exact hdisj i j hi hj hij hei hej
  · intro i hi b hb
    rcases hmem i hi b hb with ⟨hl, ho⟩ | he
    · exact hmark b (h.marked i hl b ho)
    · exact (hfresh i hi b he).2

/-- Two owners share what is taken; the others keep what they hold. -/
theorem extend_pair [DecidableEq ι] (h : Owns live own marked) {p q : ι} {lp lq : List β}
    (hp : live' p → live p ∧ (own' p).Perm (own p ++ lp) ∨ ¬ live p ∧ (own' p).Perm lp)
    (hq : live' q → live q ∧ (own' q).Perm (own q ++ lq) ∨ ¬ live q ∧ (own' q).Perm lq)
    (hother : ∀ i, live' i → i ≠ p → i ≠ q → live i ∧ own' i = own i) (hpq : p ≠ q)
    (hnodup : (lp ++ lq).Nodup) (hfresh : ∀ b ∈ lp ++ lq, ¬ marked b ∧ marked' b)
    (hmark : ∀ b, marked b → marked' b) : Owns live' own' marked' := by
  obtain ⟨hndp, hndq, hdisj⟩ := List.nodup_append.mp hnodup
  have hpart : ∀ i, (if i = p then lp else if i = q then lq else []) ⊆ lp ++ lq := by
    intro i b hb
    split at hb
    · exact List.mem_append_left _ hb
    · split at hb
      · exact List.mem_append_right _ hb
      · exact absurd hb List.not_mem_nil
  refine h.extend (fun i => if i = p then lp else if i = q then lq else []) ?_ ?_ ?_ ?_ hmark
  · intro i hi
    by_cases hip : i = p
    · subst hip
      simpa using hp hi
    · by_cases hiq : i = q
      · subst hiq
        simpa [hip] using hq hi
      · obtain ⟨hl, ho⟩ := hother i hi hip hiq
        left
        simp [hip, hiq, hl, ho]
  · intro i _
    split
    · exact hndp
    · split
      · exact hndq
      · exact List.nodup_nil
  · intro i j _ _ hij b hbi hbj
    split at hbi
    · split at hbj
      · exact hij (by simp_all)
      · split at hbj
        · exact hdisj b hbi b hbj rfl
        · exact absurd hbj List.not_mem_nil
    · split at hbi
      · split at hbj
        · exact hdisj b hbj b hbi rfl
        · split at hbj
          · exact hij (by simp_all)
          · exact absurd hbj List.not_mem_nil
      · exact absurd hbi List.not_mem_nil
  · intro i _ b hb
    exact hfresh b (hpart i hb)

end Owns

end Lib
