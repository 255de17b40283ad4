import Mathlib.Tactic.Common

/-!
# Resolving paths through links

A node knows names. A name leads to a node or to a link, which stands for a path of its
own. `resolve` follows a link by resolving its path first, one level deeper, and goes on
from where that ends; the depth of this nesting is bounded. `flat` puts the path of the
link in place of the link and bounds how often this is done.
-/

namespace Lib

variable {κ ι ε ν : Type}

/-- What a name leads to. -/
inductive Look (κ ι ε ν : Type) where
  /-- the node itself -/
  | stay
  | absent (e : ε)
  | node (n : ν)
  /-- a link: its path and where that starts, if they can be read -/
  | link (self : ν) (target : Except ε (List κ × ι))

/-- How a resolution ends; a node found comes with the number of links followed. -/
inductive Res (ε ν : Type) where
  | found (n : ν) (links : Nat)
  | lost (e : ε)
  | deep

structure Links (κ ι ε ν : Type) where
  /-- the node a path is walked from -/
  start : List κ → ι → Except ε ν
  look : ν → κ → Look κ ι ε ν
  /-- the node has names to look up -/
  inner : ν → Bool
  /-- the failure of going on from a node that has none -/
  outside : ε

/-! ## Ends of resolutions -/

namespace Res

def add (k : Nat) : Res ε ν → Res ε ν
  | found n j => found n (j + k)
  | lost e => lost e
  | deep => deep

/-- Go on from the node found. -/
def next (r : Res ε ν) (f : ν → Res ε ν) : Res ε ν :=
  match r with
  | found n k => (f n).add k
  | lost e => lost e
  | deep => deep

@[simp] theorem add_found (n : ν) (j k : Nat) :
    (found n j : Res ε ν).add k = found n (j + k) := rfl
@[simp] theorem add_lost (e : ε) (k : Nat) : (lost e : Res ε ν).add k = lost e := rfl
@[simp] theorem add_deep (k : Nat) : (deep : Res ε ν).add k = deep := rfl
@[simp] theorem next_found (n : ν) (k : Nat) (f : ν → Res ε ν) :
    (found n k).next f = (f n).add k := rfl
@[simp] theorem next_lost (e : ε) (f : ν → Res ε ν) : (lost e).next f = lost e := rfl
@[simp] theorem next_deep (f : ν → Res ε ν) : (deep : Res ε ν).next f = deep := rfl

@[simp] theorem add_zero (r : Res ε ν) : r.add 0 = r := by
  cases r <;> simp

@[simp] theorem add_add (r : Res ε ν) (j k : Nat) : (r.add j).add k = r.add (j + k) := by
  cases r <;> simp [Nat.add_assoc]

theorem next_found_self (r : Res ε ν) : (r.next fun n => found n 0) = r := by
  cases r <;> simp

theorem next_add (r : Res ε ν) (k : Nat) (f : ν → Res ε ν) :
    (r.add k).next f = (r.next f).add k := by
  cases r <;> simp

theorem next_next (r : Res ε ν) (f g : ν → Res ε ν) :
    (r.next f).next g = r.next fun n => (f n).next g := by
  cases r with
  | found n k => simp [next_add]
  | lost e => rfl
  | deep => rfl

@[simp] theorem add_eq_deep {r : Res ε ν} {k : Nat} : r.add k = deep ↔ r = deep := by
  cases r <;> simp

theorem add_eq_found {r : Res ε ν} {n : ν} {j k : Nat} :
    r.add k = found n j ↔ ∃ i, r = found n i ∧ j = i + k := by
  cases r with
  | found m i => simp [eq_comm]
  | lost e => simp
  | deep => simp

theorem next_eq_found {r : Res ε ν} {f : ν → Res ε ν} {b : ν} {k : Nat} :
    r.next f = found b k ↔
      ∃ n i j, r = found n i ∧ f n = found b j ∧ k = j + i := by
  cases r with
  | found n i =>
      simp only [next_found, add_eq_found]
      constructor
      · intro h
        obtain ⟨j, hf, hk⟩ := h
        exact ⟨n, i, j, rfl, hf, hk⟩
      · intro h
        obtain ⟨n', i', j, heq, hf, hk⟩ := h
        cases heq
        exact ⟨j, hf, hk⟩
  | lost e => simp
  | deep => simp

/-- The node found satisfies `P`, the failure `G`. -/
def Within (P : ν → Prop) (G : ε → Prop) : Res ε ν → Prop
  | found n _ => P n
  | lost e => G e
  | deep => True

@[simp] theorem within_add {P : ν → Prop} {G : ε → Prop} {r : Res ε ν} {k : Nat} :
    (r.add k).Within P G ↔ r.Within P G := by
  cases r <;> rfl

theorem Within.next {P Q : ν → Prop} {G : ε → Prop} {r : Res ε ν} {f : ν → Res ε ν}
    (h : r.Within Q G) (hf : ∀ n, Q n → (f n).Within P G) : (r.next f).Within P G := by
  cases r with
  | found n k => exact within_add.mpr (hf n h)
  | lost e => exact h
  | deep => trivial

/-- `r'` ends as `r` does, unless `r` was cut off. -/
def Le (r r' : Res ε ν) : Prop := r = deep ∨ r = r'

theorem Le.refl (r : Res ε ν) : r.Le r := .inr rfl

theorem Le.eq {r r' : Res ε ν} (h : r.Le r') (hr : r ≠ deep) : r' = r := by
  cases h with
  | inl hd => exact absurd hd hr
  | inr heq => exact heq.symm

theorem Le.trans {r r' r'' : Res ε ν} (h : r.Le r') (h' : r'.Le r'') : r.Le r'' := by
  cases h with
  | inl hd => exact .inl hd
  | inr heq => exact heq ▸ h'

theorem Le.add {r r' : Res ε ν} (h : r.Le r') (k : Nat) : (r.add k).Le (r'.add k) := by
  cases h with
  | inl hd => exact .inl (by simp [hd])
  | inr heq => exact .inr (by rw [heq])

theorem Le.next {r r' : Res ε ν} {f f' : ν → Res ε ν} (h : r.Le r')
    (hf : ∀ n, (f n).Le (f' n)) : (r.next f).Le (r'.next f') := by
  cases h with
  | inl hd => exact .inl (by simp [hd])
  | inr heq =>
      subst heq
      cases r with
      | found n k => exact (hf n).add k
      | lost e => exact .refl _
      | deep => exact .refl _

end Res

/-! ## Resolution with bounded nesting -/

namespace Links

variable {S : Links κ ι ε ν} {final : Bool} {path rest : List κ} {c : κ} {n : ν}

/-- Names left to look up need a node that has names. -/
def pass (S : Links κ ι ε ν) (rest : List κ) (k : ν → Res ε ν) (n : ν) : Res ε ν :=
  if rest = [] ∨ S.inner n = true then k n else .lost S.outside

/-- The walk from a node. A link that is not the last name is followed in any case. -/
def walk (S : Links κ ι ε ν) (follow : Option (List κ → ι → Res ε ν)) (final : Bool) :
    List κ → ν → Res ε ν
  | [], n => .found n 0
  | c :: rest, n =>
    match S.look n c with
    | .stay => walk S follow final rest n
    | .absent e => .lost e
    | .node b => S.pass rest (walk S follow final rest) b
    | .link self target =>
      if rest = [] ∧ final = false then .found self 0
      else match follow, target with
        | none, _ => .deep
        | some _, .error e => .lost e
        | some f, .ok (t, base) =>
          ((f t base).next (S.pass rest (walk S follow final rest))).add 1

def enter (S : Links κ ι ε ν) (follow : Option (List κ → ι → Res ε ν)) (final : Bool)
    (path : List κ) (src : ι) : Res ε ν :=
  match S.start path src with
  | .error e => .lost e
  | .ok n => S.walk follow final path n

/-- Resolution with links nested at most `depth` deep. -/
def resolve (S : Links κ ι ε ν) : (depth : Nat) → Bool → List κ → ι → Res ε ν
  | 0, final, path, src => S.enter none final path src
  | depth + 1, final, path, src => S.enter (some (S.resolve depth true)) final path src

/-- How links are followed in a resolution of that depth. -/
def follow (S : Links κ ι ε ν) : Nat → Option (List κ → ι → Res ε ν)
  | 0 => none
  | depth + 1 => some (S.resolve depth true)

theorem resolve_eq (S : Links κ ι ε ν) (depth : Nat) (final : Bool) (path : List κ) (src : ι) :
    S.resolve depth final path src = S.enter (S.follow depth) final path src := by
  cases depth <;> rfl

theorem resolve_of_start {depth : Nat} {src : ι} (h : S.start path src = .ok n) :
    S.resolve depth final path src = S.walk (S.follow depth) final path n := by
  rw [resolve_eq, enter, h]

@[simp] theorem walk_nil (f : Option (List κ → ι → Res ε ν)) :
    S.walk f final [] n = .found n 0 := rfl

theorem walk_stay {f : Option (List κ → ι → Res ε ν)} (h : S.look n c = .stay) :
    S.walk f final (c :: rest) n = S.walk f final rest n := by
  rw [walk, h]

theorem walk_absent {f : Option (List κ → ι → Res ε ν)} {e : ε} (h : S.look n c = .absent e) :
    S.walk f final (c :: rest) n = .lost e := by
  rw [walk, h]

theorem walk_node {f : Option (List κ → ι → Res ε ν)} {b : ν} (h : S.look n c = .node b) :
    S.walk f final (c :: rest) n = S.pass rest (S.walk f final rest) b := by
  rw [walk, h]

theorem walk_self {f : Option (List κ → ι → Res ε ν)} {self : ν}
    {target : Except ε (List κ × ι)} (h : S.look n c = .link self target) :
    S.walk f false [c] n = .found self 0 := by
  rw [walk, h]
  simp

section Link

variable {self : ν} {target : Except ε (List κ × ι)} (h : S.look n c = .link self target)
  (hlast : rest = [] → final = true)

include h hlast

theorem walk_deep : S.walk none final (c :: rest) n = .deep := by
  rw [walk, h]
  dsimp only
  rw [if_neg fun hf => by simp [hlast hf.1] at hf]

theorem walk_unread {f : List κ → ι → Res ε ν} {e : ε} (ht : target = .error e) :
    S.walk (some f) final (c :: rest) n = .lost e := by
  rw [walk, h, ht]
  dsimp only
  rw [if_neg fun hf => by simp [hlast hf.1] at hf]

theorem walk_link {f : List κ → ι → Res ε ν} {t : List κ} {base : ι}
    (ht : target = .ok (t, base)) :
    S.walk (some f) final (c :: rest) n =
      ((f t base).next (S.pass rest (S.walk (some f) final rest))).add 1 := by
  rw [walk, h, ht]
  dsimp only
  rw [if_neg fun hf => by simp [hlast hf.1] at hf]

end Link

@[simp] theorem pass_nil (k : ν → Res ε ν) : S.pass ([] : List κ) k n = k n := by
  simp [pass]

theorem pass_of (k : ν → Res ε ν) (h : rest = [] ∨ S.inner n = true) :
    S.pass rest k n = k n := if_pos h

theorem pass_eq_found {k : ν → Res ε ν} {b : ν} {j : Nat} (h : S.pass rest k n = .found b j) :
    (rest = [] ∨ S.inner n = true) ∧ k n = .found b j := by
  unfold pass at h
  split at h
  · exact ⟨‹_›, h⟩
  · cases h

theorem pass_le {k k' : ν → Res ε ν} (h : ∀ n, (k n).Le (k' n)) :
    (S.pass rest k n).Le (S.pass rest k' n) := by
  unfold pass
  split
  · exact h n
  · exact .refl _

/-- A node to go on from, or to end at. -/
def land (S : Links κ ι ε ν) (last : Bool) (n : ν) : Res ε ν :=
  if last = true ∨ S.inner n = true then .found n 0 else .lost S.outside

/-- What the walk does with one name. -/
def step (S : Links κ ι ε ν) (follow : Option (List κ → ι → Res ε ν)) (final last : Bool)
    (n : ν) (c : κ) : Res ε ν :=
  match S.look n c with
  | .stay => .found n 0
  | .absent e => .lost e
  | .node b => S.land last b
  | .link self target =>
    if last = true ∧ final = false then .found self 0
    else match follow, target with
      | none, _ => .deep
      | some _, .error e => .lost e
      | some f, .ok (t, base) => ((f t base).next (S.land last)).add 1

theorem pass_eq_land (k : ν → Res ε ν) (n : ν) :
    S.pass rest k n = (S.land rest.isEmpty n).next k := by
  unfold pass land
  by_cases h : rest = [] ∨ S.inner n = true <;> simp [h]

/-- The walk takes one step after the other. -/
theorem walk_cons (f : Option (List κ → ι → Res ε ν)) :
    S.walk f final (c :: rest) n =
      (S.step f final rest.isEmpty n c).next (S.walk f final rest) := by
  unfold step
  cases hlook : S.look n c with
  | stay => simp [walk_stay hlook]
  | absent e => simp [walk_absent hlook]
  | node b => rw [walk_node hlook, pass_eq_land]
  | link self target =>
      by_cases hself : rest = [] ∧ final = false
      · obtain ⟨rfl, rfl⟩ := hself
        simp [walk_self hlook]
      · have hlast : rest = [] → final = true := fun hr => by simpa [hr] using hself
        have hstep : ¬ (rest.isEmpty = true ∧ final = false) := by simpa using hself
        dsimp only
        rw [if_neg hstep]
        cases f with
        | none => rw [walk_deep hlook hlast, Res.next_deep]
        | some f =>
            cases target with
            | error e => rw [walk_unread hlook hlast rfl, Res.next_lost]
            | ok target =>
                rw [walk_link hlook hlast rfl, Res.next_add, Res.next_next]
                congr 2
                funext b
                exact pass_eq_land _ b

/-- A step that is not the last one ends at a node that has names, and a last step that
follows links would end there too. -/
theorem step_mid {f : Option (List κ → ι → Res ε ν)} {b : ν} {k : Nat}
    (hlook : S.look n c ≠ .stay) (h : S.step f final false n c = .found b k) (last : Bool) :
    S.inner b = true ∧ S.step f true last n c = .found b k := by
  have hland : ∀ {m j}, S.land false m = .found b j →
      S.inner b = true ∧ S.land last m = .found b j := by
    intro m j hm
    unfold land at hm ⊢
    split at hm
    · rename_i hin
      cases hm
      have hin : S.inner b = true := by simpa using hin
      exact ⟨hin, if_pos (.inr hin)⟩
    · cases hm
  unfold step at h ⊢
  cases hl : S.look n c with
  | stay => exact absurd hl hlook
  | absent e => rw [hl] at h; cases h
  | node m =>
      rw [hl] at h
      exact hland h
  | link self target =>
      rw [hl] at h
      dsimp only at h ⊢
      rw [if_neg (by simp)] at h ⊢
      cases f with
      | none => cases h
      | some g =>
          cases target with
          | error e => cases h
          | ok target =>
              dsimp only at h ⊢
              obtain ⟨j, hnext, rfl⟩ := Res.add_eq_found.mp h
              obtain ⟨m, i, j', hg, hm, rfl⟩ := Res.next_eq_found.mp hnext
              obtain ⟨hin, hm'⟩ := hland hm
              rw [hg, Res.next_found, hm']
              exact ⟨hin, rfl⟩

/-! ## A greater depth -/

theorem walk_mono {f f' : Option (List κ → ι → Res ε ν)}
    (hf : ∀ g, f = some g → ∃ g', f' = some g' ∧ ∀ t b, (g t b).Le (g' t b)) :
    ∀ path n, (S.walk f final path n).Le (S.walk f' final path n) := by
  intro path
  induction path with
  | nil => intro n; exact .refl _
  | cons c rest ih =>
      intro n
      rw [walk, walk]
      cases S.look n c with
      | stay => exact ih n
      | absent e => exact .refl _
      | node b => exact pass_le ih
      | link self target =>
          dsimp only
          split
          · exact .refl _
          · cases f with
            | none => exact .inl rfl
            | some g =>
                obtain ⟨g', rfl, hg⟩ := hf g rfl
                cases target with
                | error e => exact .refl _
                | ok target => exact ((hg _ _).next fun b => pass_le ih).add 1

theorem enter_mono {f f' : Option (List κ → ι → Res ε ν)}
    (hf : ∀ g, f = some g → ∃ g', f' = some g' ∧ ∀ t b, (g t b).Le (g' t b)) (src : ι) :
    (S.enter f final path src).Le (S.enter f' final path src) := by
  unfold enter
  cases S.start path src with
  | error e => exact .refl _
  | ok n => exact walk_mono hf path n

/-- A resolution that is not cut off does not depend on the depth allowed. -/
theorem resolve_succ (depth : Nat) : ∀ (final : Bool) (path : List κ) (src : ι),
    (S.resolve depth final path src).Le (S.resolve (depth + 1) final path src) := by
  induction depth with
  | zero => intro final path src; exact enter_mono (by simp) src
  | succ depth ih =>
      intro final path src
      refine enter_mono ?_ src
      intro g hg
      cases hg
      exact ⟨_, rfl, ih true⟩

theorem resolve_mono {depth depth' : Nat} (hle : depth ≤ depth') (final : Bool)
    (path : List κ) (src : ι) :
    (S.resolve depth final path src).Le (S.resolve depth' final path src) := by
  induction hle with
  | refl => exact .refl _
  | step _ ih => exact ih.trans (resolve_succ _ final path src)

/-! ## Paths one after the other -/

/-- The walk along `path`, then the walk along `rest` from where it ends. -/
theorem walk_append {f : Option (List κ → ι → Res ε ν)} (hlast : rest = [] → final = true) :
    ∀ path n, S.inner n = true → S.walk f final (path ++ rest) n =
      (S.walk f true path n).next (S.pass rest (S.walk f final rest)) := by
  intro path
  induction path with
  | nil =>
      intro n hn
      simp [pass_of _ (.inr hn)]
  | cons c tail ih =>
      -- a node that has names is gone on from alike; one that has none ends both walks
      have hpass : ∀ b, S.pass (tail ++ rest) (S.walk f final (tail ++ rest)) b =
          (S.pass tail (S.walk f true tail) b).next (S.pass rest (S.walk f final rest)) := by
        intro b
        by_cases hb : S.inner b = true
        · rw [pass_of _ (.inr hb), pass_of _ (.inr hb), ih b hb]
        · cases tail with
          | nil => simp
          | cons _ _ => simp [pass, hb]
      intro n hn
      rw [List.cons_append]
      cases hlook : S.look n c with
      | stay => rw [walk_stay hlook, walk_stay hlook, ih n hn]
      | absent e => rw [walk_absent hlook, walk_absent hlook, Res.next_lost]
      | node b => rw [walk_node hlook, walk_node hlook, hpass]
      | link self target =>
          have hlast' : tail ++ rest = [] → final = true := by
            intro hnil
            exact hlast (List.append_eq_nil_iff.mp hnil).2
          cases f with
          | none => rw [walk_deep hlook hlast', walk_deep hlook fun _ => rfl, Res.next_deep]
          | some f =>
              cases target with
              | error e =>
                  rw [walk_unread hlook hlast' rfl, walk_unread hlook (fun _ => rfl) rfl,
                    Res.next_lost]
              | ok target =>
                  rw [walk_link hlook hlast' rfl, walk_link hlook (fun _ => rfl) rfl,
                    Res.next_add, Res.next_next]
                  congr 2
                  funext b
                  exact hpass b

/-- A link may be replaced by its path, unless its path does not fit below it. -/
theorem walk_subst {depth : Nat} {self m : ν} {t : List κ} {base : ι}
    (hlook : S.look n c = .link self (.ok (t, base))) (hstart : S.start t base = .ok m)
    (hm : S.inner m = true)
    (hdeep : S.walk (S.follow depth) true (c :: rest) n ≠ .deep) :
    S.walk (S.follow depth) true (c :: rest) n =
      (S.walk (S.follow depth) true (t ++ rest) m).add 1 := by
  cases depth with
  | zero => exact absurd (walk_deep hlook fun _ => rfl) hdeep
  | succ k =>
      have hlink : S.walk (some (S.resolve k true)) true (c :: rest) n = _ :=
        walk_link hlook (fun _ => rfl) rfl
      rw [follow] at hdeep ⊢
      rw [hlink] at hdeep ⊢
      have hle : (S.resolve k true t base).Le (S.resolve (k + 1) true t base) :=
        resolve_succ k true t base
      have hfit : S.resolve k true t base ≠ .deep := by
        intro hd
        simp [hd] at hdeep
      rw [← hle.eq hfit, resolve_of_start hstart, follow, walk_append (fun _ => rfl) t m hm]

/-! ## What a walk has met -/

theorem walk_cons_deep {f : Option (List κ → ι → Res ε ν)}
    (h : S.walk f final (c :: rest) n = .deep) :
    (S.look n c = .stay ∧ S.walk f final rest n = .deep) ∨
    (∃ b, S.look n c = .node b ∧ (rest = [] ∨ S.inner b = true) ∧
      S.walk f final rest b = .deep) ∨
    ∃ self target, S.look n c = .link self target ∧ (rest = [] → final = true) ∧
      ∀ g, f = some g → ∃ t base, target = .ok (t, base) ∧ (g t base = .deep ∨
        ∃ b links, g t base = .found b links ∧ (rest = [] ∨ S.inner b = true) ∧
          S.walk f final rest b = .deep) := by
  have hpassed : ∀ b, S.pass rest (S.walk f final rest) b = .deep →
      (rest = [] ∨ S.inner b = true) ∧ S.walk f final rest b = .deep := by
    intro b hb
    unfold pass at hb
    split at hb
    · exact ⟨‹_›, hb⟩
    · cases hb
  cases hlook : S.look n c with
  | stay => exact .inl ⟨rfl, by rwa [walk_stay hlook] at h⟩
  | absent e => rw [walk_absent hlook] at h; cases h
  | node b => exact .inr (.inl ⟨b, rfl, hpassed b (by rwa [walk_node hlook] at h)⟩)
  | link self target =>
      have hlast : rest = [] → final = true := by
        intro hr
        subst hr
        cases final with
        | true => rfl
        | false => rw [walk_self hlook] at h; cases h
      refine .inr (.inr ⟨self, target, rfl, hlast, ?_⟩)
      intro g hg
      subst hg
      cases target with
      | error e => rw [walk_unread hlook hlast rfl] at h; cases h
      | ok target =>
          obtain ⟨t, base⟩ := target
          rw [walk_link hlook hlast rfl, Res.add_eq_deep] at h
          refine ⟨t, base, rfl, ?_⟩
          cases hg : g t base with
          | deep => exact .inl rfl
          | lost e => rw [hg] at h; cases h
          | found b links =>
              rw [hg, Res.next_found, Res.add_eq_deep] at h
              exact .inr ⟨b, links, rfl, hpassed b h⟩

theorem walk_cons_found {f : Option (List κ → ι → Res ε ν)} {b : ν} {k : Nat}
    (h : S.walk f final (c :: rest) n = .found b k) :
    (S.look n c = .stay ∧ S.walk f final rest n = .found b k) ∨
    (∃ m, S.look n c = .node m ∧ (rest = [] ∨ S.inner m = true) ∧
      S.walk f final rest m = .found b k) ∨
    (∃ target, S.look n c = .link b target ∧ rest = [] ∧ final = false ∧ k = 0) ∨
    ∃ self t base g m i j, S.look n c = .link self (.ok (t, base)) ∧
      (rest = [] → final = true) ∧ f = some g ∧ g t base = .found m i ∧
      (rest = [] ∨ S.inner m = true) ∧ S.walk f final rest m = .found b j ∧
      k = i + j + 1 := by
  cases hlook : S.look n c with
  | stay => exact .inl ⟨rfl, by rwa [walk_stay hlook] at h⟩
  | absent e => rw [walk_absent hlook] at h; cases h
  | node m => exact .inr (.inl ⟨m, rfl, pass_eq_found (by rwa [walk_node hlook] at h)⟩)
  | link self target =>
      by_cases hself : rest = [] ∧ final = false
      · obtain ⟨rfl, rfl⟩ := hself
        rw [walk_self hlook] at h
        cases h
        exact .inr (.inr (.inl ⟨target, rfl, rfl, rfl, rfl⟩))
      · have hlast : rest = [] → final = true := by
          intro hr
          simpa [hr] using hself
        cases f with
        | none => rw [walk_deep hlook hlast] at h; cases h
        | some g =>
            cases target with
            | error e => rw [walk_unread hlook hlast rfl] at h; cases h
            | ok target =>
                obtain ⟨t, base⟩ := target
                rw [walk_link hlook hlast rfl, Res.add_eq_found] at h
                obtain ⟨k', h, rfl⟩ := h
                obtain ⟨m, i, j, hg, hpass, rfl⟩ := Res.next_eq_found.mp h
                obtain ⟨hin, hrest⟩ := pass_eq_found hpass
                exact .inr (.inr (.inr ⟨self, t, base, g, m, i, j, rfl, hlast, rfl, hg, hin,
                  hrest, by omega⟩))

/-! ## What every walk keeps -/

/-- Looking names up leads from nodes with `P` to nodes with `P`, and fails with `G`. -/
structure Closed (S : Links κ ι ε ν) (P : ν → Prop) (G : ε → Prop) : Prop where
  absent : ∀ {n c e}, P n → S.inner n = true → S.look n c = .absent e → G e
  node : ∀ {n c b}, P n → S.inner n = true → S.look n c = .node b → P b
  unread : ∀ {n c self e}, P n → S.inner n = true → S.look n c = .link self (.error e) → G e
  unstarted : ∀ {n c self t base e}, P n → S.inner n = true →
    S.look n c = .link self (.ok (t, base)) → S.start t base = .error e → G e
  started : ∀ {n c self t base m}, P n → S.inner n = true →
    S.look n c = .link self (.ok (t, base)) → S.start t base = .ok m → P m ∧ S.inner m = true
  outside : G S.outside

/-- Only a link that is not followed may be found without `P`. -/
theorem Closed.walk {P : ν → Prop} {G : ε → Prop} (h : S.Closed P G) (depth : Nat) :
    ∀ (final : Bool) (path : List κ) (n : ν), P n → S.inner n = true →
      (S.walk (S.follow depth) final path n).Within (fun b => P b ∨ final = false) G := by
  induction depth using Nat.strongRecOn with
  | ind depth ihd =>
    intro final path
    induction path with
    | nil =>
        intro n hn _
        exact .inl hn
    | cons c rest ih =>
        -- the rest is walked from a node that has names, or there is none
        have hpass : ∀ m, P m → (S.pass rest (S.walk (S.follow depth) final rest) m).Within
            (fun b => P b ∨ final = false) G := by
          intro m hm
          by_cases hin : S.inner m = true
          · rw [pass_of _ (.inr hin)]
            exact ih m hm hin
          · unfold pass
            split
            · cases rest with
              | nil => exact .inl hm
              | cons _ _ => simp_all
            · exact h.outside
        intro n hn hin
        cases hlook : S.look n c with
        | stay =>
            rw [walk_stay hlook]
            exact ih n hn hin
        | absent e =>
            rw [walk_absent hlook]
            exact h.absent hn hin hlook
        | node b =>
            rw [walk_node hlook]
            exact hpass b (h.node hn hin hlook)
        | link self target =>
            by_cases hself : rest = [] ∧ final = false
            · obtain ⟨rfl, rfl⟩ := hself
              rw [walk_self hlook]
              exact .inr rfl
            · have hlast : rest = [] → final = true := fun hr => by simpa [hr] using hself
              cases depth with
              | zero =>
                  rw [follow, walk_deep hlook hlast]
                  trivial
              | succ d =>
                  cases target with
                  | error e =>
                      rw [follow, walk_unread hlook hlast rfl]
                      exact h.unread hn hin hlook
                  | ok target =>
                      obtain ⟨t, base⟩ := target
                      rw [follow] at hpass ⊢
                      rw [walk_link hlook hlast rfl, Res.within_add]
                      cases hstart : S.start t base with
                      | error e =>
                          rw [resolve_eq, enter, hstart]
                          exact h.unstarted hn hin hlook hstart
                      | ok m =>
                          obtain ⟨hm, hmin⟩ := h.started hn hin hlook hstart
                          rw [resolve_of_start hstart]
                          refine (ihd d (by omega) true t m hm hmin).next ?_
                          intro b hb
                          exact hpass b (by simpa using hb)

/-! ## How deep links are nested -/

/-- The walk comes to a link that is met at the nesting depth `k`: `1` for a link of the
path itself. What lies behind a link is resolved without regard to depth. -/
inductive Nests (S : Links κ ι ε ν) : (k : Nat) → (final : Bool) → List κ → ν → Prop where
  | here {c rest n self target final} : S.look n c = .link self target →
      (rest = [] → final = true) → Nests S 1 final (c :: rest) n
  | inside {k c rest n m self t base final} : S.look n c = .link self (.ok (t, base)) →
      (rest = [] → final = true) → S.start t base = .ok m → Nests S k true t m →
      Nests S (k + 1) final (c :: rest) n
  | stay {k c rest n final} : S.look n c = .stay → Nests S k final rest n →
      Nests S k final (c :: rest) n
  | node {k c rest n b final} : S.look n c = .node b → rest = [] ∨ S.inner b = true →
      Nests S k final rest b → Nests S k final (c :: rest) n
  | after {k c rest n m b self t base depth links final} :
      S.look n c = .link self (.ok (t, base)) → (rest = [] → final = true) →
      S.start t base = .ok m → S.walk (S.follow depth) true t m = .found b links →
      rest = [] ∨ S.inner b = true → Nests S k final rest b → Nests S k final (c :: rest) n

/-- At a depth that is too small, and at every smaller one, the resolution is cut off. -/
theorem walk_of_nests {k : Nat} (h : S.Nests k final path n) :
    ∀ depth < k, S.walk (S.follow depth) final path n = .deep := by
  induction h with
  | here hlook hlast =>
      intro depth hlt
      obtain rfl : depth = 0 := by omega
      exact walk_deep hlook hlast
  | inside hlook hlast hstart _ ih =>
      intro depth hlt
      cases depth with
      | zero => exact walk_deep hlook hlast
      | succ d =>
          rw [follow, walk_link hlook hlast rfl, resolve_of_start hstart, ih d (by omega)]
          simp
  | stay hlook _ ih =>
      intro depth hlt
      rw [walk_stay hlook, ih depth hlt]
  | node hlook hpass _ ih =>
      intro depth hlt
      rw [walk_node hlook, pass_of _ hpass, ih depth hlt]
  | @after _ _ _ _ m b _ t base d links _ hlook hlast hstart hfound hpass _ ih =>
      intro depth hlt
      cases depth with
      | zero => exact walk_deep hlook hlast
      | succ k =>
          rw [follow, walk_link hlook hlast rfl]
          have hd : S.resolve d true t base = .found b links := by
            rw [resolve_of_start hstart, hfound]
          -- a resolution of the link's path that is not cut off ends where `d` levels end
          by_cases hdeep : S.resolve k true t base = .deep
          · rw [hdeep]
            simp
          · have hfit : S.resolve k true t base = .found b links := by
              rcases Nat.le_total k d with hle | hle
              · rw [← (resolve_mono hle true t base).eq hdeep, hd]
              · rw [(resolve_mono hle true t base).eq (by simp [hd]), hd]
            rw [hfit, Res.next_found, pass_of _ hpass]
            have := ih (k + 1) hlt
            rw [follow] at this
            simp [this]

theorem nests_of_walk (depth : Nat) : ∀ (final : Bool) (path : List κ) (n : ν),
    S.walk (S.follow depth) final path n = .deep → S.Nests (depth + 1) final path n := by
  induction depth with
  | zero =>
      intro final path
      induction path with
      | nil => intro n h; cases h
      | cons c rest ih =>
          intro n h
          obtain ⟨hlook, h⟩ | ⟨b, hlook, hpass, h⟩ | ⟨self, target, hlook, hlast, -⟩ :=
            walk_cons_deep h
          · exact .stay hlook (ih n h)
          · exact .node hlook hpass (ih b h)
          · exact .here hlook hlast
  | succ depth ihd =>
      intro final path
      induction path with
      | nil => intro n h; cases h
      | cons c rest ih =>
          intro n h
          obtain ⟨hlook, h⟩ | ⟨b, hlook, hpass, h⟩ | ⟨self, target, hlook, hlast, h⟩ :=
            walk_cons_deep h
          · exact .stay hlook (ih n h)
          · exact .node hlook hpass (ih b h)
          · obtain ⟨t, base, rfl, hres⟩ := h _ rfl
            cases hstart : S.start t base with
            | error e =>
                rw [resolve_eq, enter, hstart] at hres
                simp at hres
            | ok m =>
                rw [resolve_of_start hstart] at hres
                obtain h | ⟨b, links, hb, hpass, h⟩ := hres
                · exact .inside hlook hlast hstart (ihd true t m h)
                · exact .after hlook hlast hstart hb hpass (ih b h)

/-- A resolution is cut off exactly when it comes to a link nested too deep. -/
theorem resolve_deep_iff {depth : Nat} {src : ι} :
    S.resolve depth final path src = .deep ↔
      ∃ n, S.start path src = .ok n ∧ S.Nests (depth + 1) final path n := by
  constructor
  · intro h
    cases hstart : S.start path src with
    | error e => rw [resolve_eq, enter, hstart] at h; cases h
    | ok n =>
        rw [resolve_of_start hstart] at h
        exact ⟨n, rfl, nests_of_walk depth final path n h⟩
  · intro h
    obtain ⟨n, hstart, hn⟩ := h
    rw [resolve_of_start hstart, walk_of_nests hn depth (by omega)]

/-! ## Links replaced one after the other -/

/-- The walk along a path in which every link is replaced by its path as it is met;
`jump` walks on after a replacement. -/
def flatWalk (S : Links κ ι ε ν) (jump : List κ → ν → Res ε ν) (final : Bool) :
    List κ → ν → Res ε ν
  | [], n => .found n 0
  | c :: rest, n =>
    match S.look n c with
    | .stay => flatWalk S jump final rest n
    | .absent e => .lost e
    | .node b => S.pass rest (flatWalk S jump final rest) b
    | .link self target =>
      if rest = [] ∧ final = false then .found self 0
      else match target with
        | .error e => .lost e
        | .ok (t, base) =>
          match S.start t base with
          | .error e => .lost e
          | .ok m => (jump (t ++ rest) m).add 1

/-- At most `budget` links are replaced. -/
def flat (S : Links κ ι ε ν) : (budget : Nat) → Bool → List κ → ν → Res ε ν
  | 0, final => S.flatWalk (fun _ _ => .deep) final
  | budget + 1, final => S.flatWalk (S.flat budget final) final

/-- The rounds of `flat`. -/
def jump (S : Links κ ι ε ν) (final : Bool) : Nat → List κ → ν → Res ε ν
  | 0 => fun _ _ => .deep
  | budget + 1 => S.flat budget final

theorem flat_eq (budget : Nat) : S.flat budget final = S.flatWalk (S.jump final budget) final := by
  cases budget <;> rfl

theorem flat_nil (budget : Nat) : S.flat budget final [] n = .found n 0 := by
  rw [flat_eq, flatWalk]

theorem flat_stay (budget : Nat) (h : S.look n c = .stay) :
    S.flat budget final (c :: rest) n = S.flat budget final rest n := by
  rw [flat_eq, flatWalk, h]

theorem flat_node (budget : Nat) {b : ν} (h : S.look n c = .node b) :
    S.flat budget final (c :: rest) n = S.pass rest (S.flat budget final rest) b := by
  rw [flat_eq, flatWalk, h]

theorem flat_self (budget : Nat) {self : ν} {target : Except ε (List κ × ι)}
    (h : S.look n c = .link self target) : S.flat budget false [c] n = .found self 0 := by
  rw [flat_eq, flatWalk, h]
  simp

theorem flat_link (budget : Nat) {self m : ν} {t : List κ} {base : ι}
    (h : S.look n c = .link self (.ok (t, base))) (hlast : rest = [] → final = true)
    (hstart : S.start t base = .ok m) :
    S.flat budget final (c :: rest) n = (S.jump final budget (t ++ rest) m).add 1 := by
  rw [flat_eq, flatWalk, h]
  dsimp only
  rw [if_neg fun hf => by simp [hlast hf.1] at hf, hstart]

/-- What `flat` does with a path whose first part resolves to `b` through `k` links: it
replaces these, one by one, and goes on from `b`. -/
theorem flat_append (depth : Nat) : ∀ (fin final : Bool) (path rest : List κ) (n b : ν)
    (k : Nat), S.walk (S.follow depth) fin path n = .found b k →
    (rest = [] → fin = final) → (rest ≠ [] → fin = true ∧ S.inner b = true) →
    (∀ budget, S.flat (budget + k) final (path ++ rest) n =
      (S.flat budget final rest b).add k) ∧
    ∀ budget < k, S.flat budget final (path ++ rest) n = .deep := by
  induction depth using Nat.strongRecOn with
  | ind depth ihd =>
    intro fin final path rest
    induction path with
    | nil =>
        intro n b k h hfin hin
        cases h
        simp
    | cons c tail ih =>
        intro n b k h hfin hin
        rw [List.cons_append]
        obtain ⟨hlook, h⟩ | ⟨m, hlook, hpass, h⟩ | ⟨target, hlook, rfl, rfl, rfl⟩ |
          ⟨self, t, base, g, m, i, j, hlook, hlast, hg, hres, hpass, htail, rfl⟩ :=
          walk_cons_found h
        · simp only [flat_stay _ hlook]
          exact ih n b k h hfin hin
        · have hpass' : tail ++ rest = [] ∨ S.inner m = true := by
            cases tail with
            | cons _ _ => exact .inr (by simpa using hpass)
            | nil =>
                cases h
                by_cases hr : rest = []
                · exact .inl hr
                · exact .inr (hin hr).2
          simp only [flat_node _ hlook, pass_of _ hpass']
          exact ih m b k h hfin hin
        · have hr : rest = [] := by
            by_contra hr
            simpa using (hin hr).1
          subst hr
          rw [← hfin rfl]
          simp [flat_self _ hlook, flat_nil]
        · cases depth with
          | zero => cases hg
          | succ d =>
              cases hg
              have hlast' : tail ++ rest = [] → final = true := by
                intro hnil
                obtain ⟨ht, hr⟩ := List.append_eq_nil_iff.mp hnil
                rw [← hfin hr, hlast ht]
              have hin' : tail ++ rest ≠ [] → true = true ∧ S.inner m = true := by
                intro hne
                refine ⟨rfl, ?_⟩
                cases hpass with
                | inr hm => exact hm
                | inl hnil =>
                    subst hnil
                    cases htail
                    exact (hin hne).2
              cases hstart : S.start t base with
              | error e =>
                  rw [resolve_eq, enter, hstart] at hres
                  cases hres
              | ok m₀ =>
                  rw [resolve_of_start hstart] at hres
                  obtain ⟨ht, ht'⟩ := ihd d (by omega) true final t (tail ++ rest) m₀ m i hres
                    (fun hnil => (hlast' hnil).symm) hin'
                  obtain ⟨hs, hs'⟩ := ih m b j htail hfin hin
                  simp only [flat_link _ hlook hlast' hstart, Res.add_eq_deep]
                  constructor
                  · intro budget
                    rw [show budget + (i + j + 1) = (budget + j + i) + 1 by omega, jump, ht, hs]
                    simp [Nat.add_comm]
                  · intro budget hlt
                    cases budget with
                    | zero => rfl
                    | succ budget =>
                        rw [jump]
                        by_cases hi : budget < i
                        · exact ht' budget hi
                        · obtain ⟨left, rfl⟩ : ∃ left, budget = left + i :=
                            ⟨budget - i, by omega⟩
                          rw [ht, hs' left (by omega)]
                          rfl

/-- A resolution that ends at `b` through `k` links replaces `k` links. -/
theorem flat_of_walk {depth : Nat} {b : ν} {k : Nat}
    (h : S.walk (S.follow depth) final path n = .found b k) (budget : Nat) :
    S.flat budget final path n = if k ≤ budget then .found b k else .deep := by
  obtain ⟨hfit, hshort⟩ := flat_append depth final final path [] n b k h (fun _ => rfl)
    (fun hne => absurd rfl hne)
  rw [List.append_nil] at hfit hshort
  split
  · obtain ⟨left, rfl⟩ : ∃ left, budget = left + k := ⟨budget - k, by omega⟩
    rw [hfit, flat_nil]
    simp
  · exact hshort budget (by omega)

end Links

end Lib
