import Mathlib.Data.List.Nodup
import Mathlib.Data.List.Perm.Basic
import Mathlib.Data.Fintype.Card
import Mathlib.Data.Fintype.EquivFin
import Mathlib.Logic.Relation

/-!
# Preorder walks

A walk over a forest visits a node, then the leaves it lists, then the forests below the inner
nodes it lists, one after the other. Whatever the lists say, a finite walk is determined by
them, visits what is listed as often as it is listed, and exists where there is no way down
without end.
-/

namespace Lib

variable {ι : Type}

/-- The walk over the inner nodes `ds` visits the inner nodes `ns`, and with the leaves the
nodes `xs`, both in the order of the walk. -/
inductive Preorder (leaves inner : ι → List ι) : List ι → List ι → List ι → Prop where
  | nil : Preorder leaves inner [] [] []
  | cons {d : ι} {ds ns ns' xs xs' : List ι} (hdown : Preorder leaves inner (inner d) ns xs)
      (hrest : Preorder leaves inner ds ns' xs') :
      Preorder leaves inner (d :: ds) (d :: ns ++ ns') (d :: (leaves d ++ xs) ++ xs')

namespace Preorder

variable {leaves inner : ι → List ι} {ds ds' ns ns' xs xs' : List ι} {d i : ι}

theorem unique (h : Preorder leaves inner ds ns xs) (h' : Preorder leaves inner ds ns' xs') :
    ns = ns' ∧ xs = xs' := by
  induction h generalizing ns' xs' with
  | nil =>
      cases h'
      exact ⟨rfl, rfl⟩
  | cons hdown hrest ihdown ihrest =>
      cases h' with
      | cons hdown' hrest' =>
          obtain ⟨rfl, rfl⟩ := ihdown hdown'
          obtain ⟨rfl, rfl⟩ := ihrest hrest'
          exact ⟨rfl, rfl⟩

theorem append (h : Preorder leaves inner ds ns xs) (h' : Preorder leaves inner ds' ns' xs') :
    Preorder leaves inner (ds ++ ds') (ns ++ ns') (xs ++ xs') := by
  induction h with
  | nil => exact h'
  | cons hdown _ _ ih =>
      simpa only [List.cons_append, List.append_assoc] using hdown.cons ih

/-- An inner node of the walk has its own walk, which is a part of it. -/
theorem walk_below (h : Preorder leaves inner ds ns xs) (hd : d ∈ ns) : ∃ ns' xs',
    Preorder leaves inner (inner d) ns' xs' ∧ ns'.length < ns.length ∧ ∀ i ∈ ns', i ∈ ns := by
  induction h with
  | nil => cases hd
  | @cons e ds ns₁ ns₂ xs₁ xs₂ hdown hrest ihdown ihrest =>
      simp only [List.cons_append, List.mem_cons, List.mem_append] at hd
      rcases hd with rfl | hd | hd
      · refine ⟨_, _, hdown, ?_, ?_⟩
        · simp only [List.cons_append, List.length_cons, List.length_append]
          omega
        · intro i hi
          simp [hi]
      · obtain ⟨ns', xs', h', hlt, hsub⟩ := ihdown hd
        refine ⟨ns', xs', h', ?_, fun i hi => by simp [hsub i hi]⟩
        simp only [List.cons_append, List.length_cons, List.length_append]
        omega
      · obtain ⟨ns', xs', h', hlt, hsub⟩ := ihrest hd
        refine ⟨ns', xs', h', ?_, fun i hi => by simp [hsub i hi]⟩
        simp only [List.cons_append, List.length_cons, List.length_append]
        omega

theorem mem_of_mem (h : Preorder leaves inner ds ns xs) (hd : d ∈ ds) : d ∈ ns := by
  induction h with
  | nil => cases hd
  | cons _ _ _ ih =>
      rcases List.mem_cons.mp hd with rfl | hd
      · exact List.mem_append_left _ List.mem_cons_self
      · exact List.mem_append_right _ (ih hd)

/-- What holds of the start and is passed on by the inner nodes holds of all nodes. -/
theorem induct {P : ι → Prop} (h : Preorder leaves inner ds ns xs) (hds : ∀ d ∈ ds, P d)
    (hstep : ∀ d ∈ ns, P d → ∀ i, i ∈ leaves d ∨ i ∈ inner d → P i) : ∀ i ∈ xs, P i := by
  induction h with
  | nil => exact fun i hi => absurd hi List.not_mem_nil
  | @cons d ds ns₁ ns₂ xs₁ xs₂ _ _ ihdown ihrest =>
      have hd := hds d List.mem_cons_self
      have hbelow := hstep d (by simp) hd
      intro i hi
      simp only [List.cons_append, List.mem_cons, List.mem_append] at hi
      rcases hi with rfl | (hi | hi) | hi
      · exact hd
      · exact hbelow i (.inl hi)
      · exact ihdown (fun j hj => hbelow j (.inr hj)) (fun e he => hstep e (by simp [he])) i hi
      · exact ihrest (fun e he => hds e (List.mem_cons_of_mem _ he))
          (fun e he => hstep e (by simp [he])) i hi

theorem congr {inner' : ι → List ι} (h : Preorder leaves inner ds ns xs)
    (hinner : ∀ d ∈ ns, inner d = inner' d) : Preorder leaves inner' ds ns xs := by
  induction h with
  | nil => exact .nil
  | @cons d ds ns₁ ns₂ xs₁ xs₂ _ _ ihdown ihrest =>
      have hdown := ihdown fun e he => hinner e (by simp [he])
      have hrest := ihrest fun e he => hinner e (by simp [he])
      rw [hinner d (by simp)] at hdown
      exact hdown.cons hrest

/-- A node is not met below itself. -/
theorem not_mem (h : Preorder leaves inner (inner d) ns xs) : d ∉ ns := by
  intro hd
  obtain ⟨ns', xs', h', hlt, -⟩ := h.walk_below hd
  obtain ⟨rfl, -⟩ := h.unique h'
  exact Nat.lt_irrefl _ hlt

/-! ## What is visited how often -/

/-- The inner nodes of the walk are those it starts with and those that they list. -/
theorem inner_perm (h : Preorder leaves inner ds ns xs) : ns.Perm (ds ++ ns.flatMap inner) := by
  induction h with
  | nil => exact .refl _
  | @cons d ds ns₁ ns₂ xs₁ xs₂ _ _ ihdown ihrest =>
      have hrest : (ns₁ ++ ns₂).Perm
          ((inner d ++ ns₁.flatMap inner) ++ (ds ++ ns₂.flatMap inner)) := ihdown.append ihrest
      simp only [List.cons_append, List.flatMap_cons, List.flatMap_append]
      refine .cons d (hrest.trans ?_)
      simpa only [List.append_assoc] using
        List.perm_append_comm_assoc (inner d ++ ns₁.flatMap inner) ds (ns₂.flatMap inner)

/-- The nodes of the walk are those it starts with and those that its inner nodes list. -/
theorem perm (h : Preorder leaves inner ds ns xs) :
    xs.Perm (ds ++ ns.flatMap fun d => leaves d ++ inner d) := by
  induction h with
  | nil => exact .refl _
  | @cons d ds ns₁ ns₂ xs₁ xs₂ _ _ ihdown ihrest =>
      have hrest := (ihdown.append_left (leaves d)).append ihrest
      simp only [List.cons_append, List.flatMap_cons, List.flatMap_append]
      refine .cons d (hrest.trans ?_)
      simpa only [List.append_assoc] using
        List.perm_append_comm_assoc
          (leaves d ++ (inner d ++ ns₁.flatMap fun d => leaves d ++ inner d)) ds
          (ns₂.flatMap fun d => leaves d ++ inner d)

theorem mem_iff (h : Preorder leaves inner ds ns xs) :
    i ∈ xs ↔ i ∈ ds ∨ ∃ d ∈ ns, i ∈ leaves d ∨ i ∈ inner d := by
  simp only [h.perm.mem_iff, List.mem_append, List.mem_flatMap]

theorem mem_inner_iff (h : Preorder leaves inner ds ns xs) :
    i ∈ ns ↔ i ∈ ds ∨ ∃ d ∈ ns, i ∈ inner d := by
  conv_lhs => rw [h.inner_perm.mem_iff]
  simp only [List.mem_append, List.mem_flatMap]

/-- An inner node is a node. -/
theorem subset (h : Preorder leaves inner ds ns xs) (hi : i ∈ ns) : i ∈ xs := by
  rcases h.mem_inner_iff.mp hi with hi | ⟨d, hd, hi⟩
  · exact h.mem_iff.mpr (.inl hi)
  · exact h.mem_iff.mpr (.inr ⟨d, hd, .inr hi⟩)

/-- No inner node is below itself. -/
theorem not_self (h : Preorder leaves inner ds ns xs) (hd : d ∈ ns)
    (hpath : Relation.TransGen (fun p i => i ∈ inner p) d d) : False := by
  induction hn : ns.length using Nat.strong_induction_on generalizing ds ns xs with
  | _ n ih =>
      subst hn
      obtain ⟨ns', xs', hbelow, hlt, -⟩ := h.walk_below hd
      have hmem : ∀ {i}, Relation.TransGen (fun p i => i ∈ inner p) d i → i ∈ ns' := by
        intro i hi
        induction hi with
        | single hstep => exact hbelow.mem_of_mem hstep
        | tail _ hstep ihp => exact hbelow.mem_inner_iff.mpr (.inr ⟨_, ihp, hstep⟩)
      exact ih _ hlt hbelow (hmem hpath) rfl

section Count

variable [DecidableEq ι]

/-- What one node of the list contributes, the list contributes as often as it has the node. -/
theorem count_flatMap_le {f : ι → List ι} {p : ι} (hother : ∀ d ∈ ns, i ∈ f d → d = p)
    (hone : (f p).count i ≤ 1) : (ns.flatMap f).count i ≤ ns.count p := by
  induction ns with
  | nil => exact Nat.le_refl _
  | cons d ns ih =>
      have ih := ih fun e he => hother e (List.mem_cons_of_mem _ he)
      rw [List.flatMap_cons, List.count_append]
      by_cases hd : d = p
      · subst hd
        rw [List.count_cons_self]
        omega
      · have hzero : (f d).count i = 0 :=
          List.count_eq_zero.mpr fun hi => hd (hother d List.mem_cons_self hi)
        rw [hzero, List.count_cons_of_ne hd]
        omega

/-- What one node contributes, the list contributes at least as often as it has the node. -/
theorem count_le_flatMap {κ : Type} [DecidableEq κ] {f : ι → List κ} {b : κ} (hb : b ∈ f i) :
    xs.count i ≤ (xs.flatMap f).count b := by
  induction xs with
  | nil => exact Nat.zero_le _
  | cons j xs ih =>
      rw [List.flatMap_cons, List.count_append]
      by_cases hj : j = i
      · subst hj
        have hpos := List.count_pos_iff.mpr hb
        rw [List.count_cons_self]
        omega
      · rw [List.count_cons_of_ne hj]
        omega

/-- What is listed at two places is listed twice. -/
theorem two_le_count {κ : Type} {l : List (κ × ι)} {a b : κ} (ha : (a, i) ∈ l)
    (hb : (b, i) ∈ l) (hab : a ≠ b) : 2 ≤ (l.map Prod.snd).count i := by
  have hnd : [(a, i), (b, i)].Nodup := by
    simp [hab]
  obtain ⟨l', hperm, hsub⟩ : [(a, i), (b, i)].Subperm l := by
    refine List.subperm_of_subset hnd fun x hx => ?_
    simp only [List.mem_cons, List.not_mem_nil, or_false] at hx
    rcases hx with rfl | rfl
    · exact ha
    · exact hb
  have hle := (hsub.map Prod.snd).count_le i
  rw [(hperm.map Prod.snd).count_eq] at hle
  simpa using hle

/-- What is listed at one place only is listed once. -/
theorem count_le_one {κ : Type} {l : List κ} {f : κ → ι} (hnd : l.Nodup)
    (hone : ∀ a ∈ l, ∀ b ∈ l, f a = i → f b = i → a = b) : (l.map f).count i ≤ 1 := by
  induction l with
  | nil => exact Nat.zero_le _
  | cons a l ih =>
      obtain ⟨ha, hnd⟩ := List.nodup_cons.mp hnd
      have ih := ih hnd fun b hb c hc =>
        hone b (List.mem_cons_of_mem _ hb) c (List.mem_cons_of_mem _ hc)
      rw [List.map_cons]
      by_cases hi : f a = i
      · have hzero : (l.map f).count i = 0 := by
          refine List.count_eq_zero.mpr fun hmem => ?_
          obtain ⟨b, hb, hbi⟩ := List.mem_map.mp hmem
          have hab := hone a List.mem_cons_self b (List.mem_cons_of_mem _ hb) hi hbi
          exact ha (hab ▸ hb)
        rw [hi, List.count_cons_self, hzero]
      · rw [List.count_cons_of_ne hi]
        exact ih

/-- Where the start is listed nowhere and every other inner node in one place, the walk visits
no inner node twice. -/
theorem nodup {r : ι} (h : Preorder leaves inner [r] ns xs) (hroot : ∀ d ∈ ns, r ∉ inner d)
    (honce : ∀ d ∈ ns, ∀ e ∈ ns, ∀ i, i ∈ inner d → i ∈ inner e → d = e)
    (hone : ∀ d ∈ ns, (inner d).Nodup) : ns.Nodup := by
  have hcount : ∀ i, ns.count i = [r].count i + (ns.flatMap inner).count i := by
    intro i
    rw [h.inner_perm.count_eq, List.count_append]
  -- induction over the way down to the node
  have hpath : ∀ i, Relation.ReflTransGen (fun p i => p ∈ ns ∧ i ∈ inner p) r i →
      ns.count i ≤ 1 := by
    intro i hi
    induction hi with
    | refl =>
        have hzero : (ns.flatMap inner).count r = 0 := by
          refine List.count_eq_zero.mpr fun hr => ?_
          obtain ⟨d, hd, hr⟩ := List.mem_flatMap.mp hr
          exact hroot d hd hr
        rw [hcount, hzero]
        exact List.count_le_length
    | @tail p i _ hstep ih =>
        obtain ⟨hp, hi⟩ := hstep
        have hne : i ≠ r := fun hir => hroot p hp (hir ▸ hi)
        have hle := count_flatMap_le (fun d hd hid => honce d hd p hp i hid hi)
          (List.nodup_iff_count_le_one.mp (hone p hp) i)
        rw [hcount, List.count_cons_of_ne hne.symm, List.count_nil]
        omega
  -- every node of the walk is on such a way
  have hreach : ∀ {ds ns' xs'}, Preorder leaves inner ds ns' xs' → (∀ i ∈ ns', i ∈ ns) →
      (∀ d ∈ ds, Relation.ReflTransGen (fun p i => p ∈ ns ∧ i ∈ inner p) r d) →
      ∀ i ∈ ns', Relation.ReflTransGen (fun p i => p ∈ ns ∧ i ∈ inner p) r i := by
    intro ds ns' xs' h'
    induction h' with
    | nil => exact fun _ _ i hi => absurd hi List.not_mem_nil
    | @cons d ds ns₁ ns₂ xs₁ xs₂ _ _ ihdown ihrest =>
        intro hsub hds i hi
        have hd := hds d List.mem_cons_self
        have hdn : d ∈ ns := hsub d (by simp)
        simp only [List.cons_append, List.mem_cons, List.mem_append] at hi
        rcases hi with rfl | hi | hi
        · exact hd
        · exact ihdown (fun j hj => hsub j (by simp [hj])) (fun e he => hd.tail ⟨hdn, he⟩) i hi
        · exact ihrest (fun j hj => hsub j (by simp [hj]))
            (fun e he => hds e (List.mem_cons_of_mem _ he)) i hi
  refine List.nodup_iff_count_le_one.mpr fun i => ?_
  by_cases hi : i ∈ ns
  · refine hpath i (hreach h (fun _ hj => hj) ?_ i hi)
    intro d hd
    rw [List.mem_singleton.mp hd]
  · rw [List.count_eq_zero.mpr hi]
    exact Nat.zero_le _

end Count

/-! ## Existence -/

theorem exists_of_forall (h : ∀ d ∈ ds, ∃ ns xs, Preorder leaves inner (inner d) ns xs) :
    ∃ ns xs, Preorder leaves inner ds ns xs := by
  induction ds with
  | nil => exact ⟨_, _, .nil⟩
  | cons d ds ih =>
      obtain ⟨ns, xs, hdown⟩ := h d List.mem_cons_self
      obtain ⟨ns', xs', hrest⟩ := ih fun e he => h e (List.mem_cons_of_mem _ he)
      exact ⟨_, _, hdown.cons hrest⟩

/-- Below finitely many nodes, none of which is below itself, every walk is finite. -/
theorem exists_of_acyclic {inner : Nat → List Nat} {leaves : Nat → List Nat} {n : Nat}
    (hlt : ∀ d, ∀ i ∈ inner d, i < n)
    (hacyclic : ∀ d, ¬ Relation.TransGen (fun p i => i ∈ inner p) d d) (ds : List Nat) :
    ∃ ns xs, Preorder leaves inner ds ns xs := by
  let below : Fin n → Fin n → Prop := fun i d =>
    Relation.TransGen (fun p i => i ∈ inner p) (d : Nat) (i : Nat)
  have : IsTrans (Fin n) below := ⟨fun _ _ _ h h' => h'.trans h⟩
  have : Std.Irrefl below := ⟨fun d => hacyclic d⟩
  have hwf : WellFounded below := Finite.wellFounded_of_trans_of_irrefl below
  have hfin : ∀ d : Fin n, ∃ ns xs, Preorder leaves inner (inner d) ns xs := by
    intro d
    induction d using hwf.induction with
    | _ d ih =>
        refine exists_of_forall fun i hi => ?_
        exact ih ⟨i, hlt d i hi⟩ (.single hi)
  refine exists_of_forall fun d _ => exists_of_forall fun i hi => ?_
  exact hfin ⟨i, hlt d i hi⟩

end Preorder

end Lib
