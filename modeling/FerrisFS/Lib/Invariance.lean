import FerrisFS.Lib.Prog

/-!
# Invariants and simulations of programs

`Maintains I m`: a run of `m` that starts in `I` and returns ends in `I`; nothing
is said of runs that fail. `Mirrors R V m m'`: from related states `m` and `m'`
end the same way, with related results, in related states; `Respects R m` is the case
of one program that cannot tell related states apart. `Composed A m`: the programs in
`A` are all that `m` runs, so what holds of them holds of `m`.
-/

namespace Lib

namespace Prog

variable {ε σ τ α β γ δ : Type}

/-! ## Invariants -/

def Maintains (I : σ → Prop) (m : Prog ε σ α) : Prop :=
  ∀ s, I s → wp m (fun _ s' => I s') (fun _ _ => True) s

namespace Maintains

variable {I J : σ → Prop} {m : Prog ε σ α}

theorem pure (a : α) : Maintains I (pure a : Prog ε σ α) := fun _ hs => hs

theorem fail (e : ε) : Maintains I (fail e : Prog ε σ α) := fun _ _ => trivial

theorem abort : Maintains I (abort : Prog ε σ α) := fun _ _ => trivial

theorem bind {f : α → Prog ε σ β} (h : Maintains I m) (hf : ∀ a, Maintains I (f a)) :
    Maintains I (m >>= f) := by
  intro s hs
  apply wp_seq (h s hs)
  · intro a s' hs'
    exact hf a s' hs'
  · intro e s' he
    exact he

theorem ite {c : Prop} [Decidable c] {m m' : Prog ε σ α} (h : c → Maintains I m)
    (h' : ¬ c → Maintains I m') : Maintains I (if c then m else m') := by
  split
  · exact h ‹_›
  · exact h' ‹_›

/-- A guard, whether it fails or panics: the rest runs only past it. -/
theorem guard {c : Prop} [Decidable c] {m' : Prog ε σ α} {f : α → Prog ε σ β}
    {m : Prog ε σ β} (hm' : ∀ s, wp m' (fun _ _ => False) (fun _ _ => True) s)
    (h : Maintains I m) : Maintains I (if c then m' >>= f else m) := by
  apply ite
  · intro _ s _
    exact wp_seq (hm' s) (fun _ _ hf => hf.elim) fun _ _ he => he
  · intro _
    exact h

theorem failIf {c : Prop} [Decidable c] {e : ε} {f : α → Prog ε σ β} {m : Prog ε σ β}
    (h : Maintains I m) : Maintains I (if c then Prog.fail e >>= f else m) :=
  guard (fun _ => trivial) h

theorem abortIf {c : Prop} [Decidable c] {f : α → Prog ε σ β} {m : Prog ε σ β}
    (h : Maintains I m) : Maintains I (if c then Prog.abort >>= f else m) :=
  guard (fun _ => trivial) h

theorem unwrap {o : Option α} {f : α → Prog ε σ β} (h : ∀ a, o = some a → Maintains I (f a)) :
    Maintains I (Prog.unwrap o >>= f) := by
  cases o with
  | none => exact fun s hs => trivial
  | some a => exact h a rfl

theorem checkedAdd {bound x y : Nat} {f : Nat → Prog ε σ β}
    (h : x + y < bound → Maintains I (f (x + y))) :
    Maintains I (Prog.checkedAdd bound x y >>= f) := by
  intro s hs
  exact wp_bind.mpr (wp_checkedAdd fun hlt => h hlt s hs)

theorem checkedSub {x y : Nat} {f : Nat → Prog ε σ β}
    (h : y ≤ x → Maintains I (f (x - y))) : Maintains I (Prog.checkedSub x y >>= f) := by
  intro s hs
  exact wp_bind.mpr (wp_checkedSub fun hle => h hle s hs)

theorem of_readOnly (h : ReadOnly m) : Maintains I m := by
  intro s hs
  apply wp_mono (h s)
  · intro a s' heq
    rw [heq]
    exact hs
  · intro e s' _
    trivial

theorem of_ok {s s' : σ} {a : α} (h : Maintains I m) (hs : I s) (hm : m s = .ok a s') : I s' :=
  (h s hs).of_ok hm

end Maintains

/-! ## Simulations -/

/-- How two runs end alike. -/
inductive Matched (R : σ → τ → Prop) (V : α → β → Prop) :
    Outcome ε σ α → Outcome ε τ β → Prop where
  | ok {a b s t} (hv : V a b) (hr : R s t) : Matched R V (.ok a s) (.ok b t)
  | err {e s t} (hr : R s t) : Matched R V (.err e s) (.err e t)
  | panic : Matched R V .panic .panic

theorem Matched.answer? {R : σ → τ → Prop} {o : Outcome ε σ α} {o' : Outcome ε τ α}
    (h : Matched R Eq o o') : o.answer? = o'.answer? := by
  cases h with
  | ok hv _ =>
      rw [hv]
      rfl
  | err _ => rfl
  | panic => rfl

theorem Matched.mono {R R' : σ → τ → Prop} {V : α → β → Prop} {o : Outcome ε σ α}
    {o' : Outcome ε τ β} (h : Matched R V o o') (hR : ∀ s t, R s t → R' s t) :
    Matched R' V o o' := by
  cases h with
  | ok hv hr => exact .ok hv (hR _ _ hr)
  | err hr => exact .err (hR _ _ hr)
  | panic => exact .panic

def Mirrors (R : σ → τ → Prop) (V : α → β → Prop) (m : Prog ε σ α) (m' : Prog ε τ β) : Prop :=
  ∀ s t, R s t → Matched R V (m s) (m' t)

namespace Mirrors

variable {R : σ → τ → Prop} {V : α → β → Prop} {W : γ → δ → Prop} {m : Prog ε σ α}
  {m' : Prog ε τ β} {p : Prog ε τ α}

theorem pure {a : α} {b : β} (h : V a b) :
    Mirrors R V (pure a : Prog ε σ α) (pure b : Prog ε τ β) :=
  fun _ _ hr => .ok h hr

theorem fail (e : ε) : Mirrors R V (fail e : Prog ε σ α) (fail e : Prog ε τ β) :=
  fun _ _ hr => .err hr

theorem abort : Mirrors R V (abort : Prog ε σ α) (abort : Prog ε τ β) :=
  fun _ _ _ => .panic

theorem bind {f : α → Prog ε σ γ} {f' : β → Prog ε τ δ} (h : Mirrors R V m m')
    (hf : ∀ a b, V a b → Mirrors R W (f a) (f' b)) : Mirrors R W (m >>= f) (m' >>= f') := by
  intro s t hr
  have hm := h s t hr
  rw [bind_apply, bind_apply]
  revert hm
  generalize m s = o
  generalize m' t = o'
  intro hm
  cases hm with
  | ok hv hr => exact hf _ _ hv _ _ hr
  | err hr => exact .err hr
  | panic => exact .panic

theorem weaken {V' : α → β → Prop} (h : Mirrors R V m m') (hV : ∀ a b, V a b → V' a b) :
    Mirrors R V' m m' := by
  intro s t hr
  have hm := h s t hr
  revert hm
  generalize m s = o
  generalize m' t = o'
  intro hm
  cases hm with
  | ok hv hr => exact .ok (hV _ _ hv) hr
  | err hr => exact .err hr
  | panic => exact .panic

theorem ite {c : Prop} [Decidable c] {p : Prog ε σ α} {p' : Prog ε τ β}
    (h : c → Mirrors R V m m') (h' : ¬ c → Mirrors R V p p') :
    Mirrors R V (if c then m else p) (if c then m' else p') := by
  by_cases hc : c
  · rw [if_pos hc, if_pos hc]
    exact h hc
  · rw [if_neg hc, if_neg hc]
    exact h' hc

theorem checkedAdd (bound x y : Nat) :
    Mirrors R Eq (checkedAdd bound x y : Prog ε σ Nat) (checkedAdd bound x y : Prog ε τ Nat) :=
  ite (fun _ => pure rfl) fun _ => abort

theorem checkedAdd_bind {bound x y : Nat} {f : Nat → Prog ε σ γ} {f' : Nat → Prog ε τ δ}
    (h : x + y < bound → Mirrors R W (f (x + y)) (f' (x + y))) :
    Mirrors R W (Prog.checkedAdd bound x y >>= f) (Prog.checkedAdd bound x y >>= f') := by
  unfold Prog.checkedAdd
  by_cases hlt : x + y < bound
  · rw [if_pos hlt, if_pos hlt]
    exact h hlt
  · rw [if_neg hlt, if_neg hlt]
    exact abort

/-- A guard, whether it fails or panics: the two rests are reached together. -/
theorem guard {c : Prop} [Decidable c] {p : Prog ε σ α} {p' : Prog ε τ α}
    {f : α → Prog ε σ γ} {f' : α → Prog ε τ δ} {q : Prog ε σ γ} {q' : Prog ε τ δ}
    (hp : ∀ s t, R s t → Matched R (fun _ _ => False) (p s) (p' t)) (h : Mirrors R W q q') :
    Mirrors R W (if c then p >>= f else q) (if c then p' >>= f' else q') :=
  ite (fun _ => bind hp fun _ _ hf => hf.elim) fun _ => h

theorem failIf {c : Prop} [Decidable c] {e : ε} {f : α → Prog ε σ γ} {f' : α → Prog ε τ δ}
    {q : Prog ε σ γ} {q' : Prog ε τ δ} (h : Mirrors R W q q') :
    Mirrors R W (if c then Prog.fail e >>= f else q) (if c then Prog.fail e >>= f' else q') :=
  guard (fun _ _ hr => .err hr) h

theorem abortIf {c : Prop} [Decidable c] {f : α → Prog ε σ γ} {f' : α → Prog ε τ δ}
    {q : Prog ε σ γ} {q' : Prog ε τ δ} (h : Mirrors R W q q') :
    Mirrors R W (if c then Prog.abort >>= f else q) (if c then Prog.abort >>= f' else q') :=
  guard (fun _ _ _ => .panic) h

theorem attempt (h : Mirrors R Eq m p) :
    Mirrors R Eq (attempt m) (attempt p) := by
  intro s t hr
  have hm := h s t hr
  unfold Prog.attempt
  revert hm
  generalize m s = o
  generalize p t = o'
  intro hm
  cases hm with
  | ok hv hr =>
      rw [hv]
      exact .ok rfl hr
  | err hr => exact .ok rfl hr
  | panic => exact .panic

end Mirrors

/-! ## Programs that cannot tell related states apart -/

/-- From related states the program ends with the same result, the same error or a
panic, in related states. -/
def Respects (R : σ → σ → Prop) (m : Prog ε σ α) : Prop := Mirrors R Eq m m

namespace Respects

variable {R : σ → σ → Prop} {m : Prog ε σ α}

theorem pure (a : α) : Respects R (pure a : Prog ε σ α) := Mirrors.pure rfl

theorem fail (e : ε) : Respects R (fail e : Prog ε σ α) := Mirrors.fail e

theorem abort : Respects R (abort : Prog ε σ α) := Mirrors.abort

theorem bind {f : α → Prog ε σ β} (h : Respects R m) (hf : ∀ a, Respects R (f a)) :
    Respects R (m >>= f) := by
  apply Mirrors.bind h
  intro a b heq
  rw [heq]
  exact hf b

theorem ite {c : Prop} [Decidable c] {m m' : Prog ε σ α} (h : c → Respects R m)
    (h' : ¬ c → Respects R m') : Respects R (if c then m else m') :=
  Mirrors.ite h h'

theorem failIf {c : Prop} [Decidable c] {e : ε} {f : α → Prog ε σ β} {m : Prog ε σ β}
    (h : Respects R m) : Respects R (if c then Prog.fail e >>= f else m) :=
  Mirrors.failIf h

theorem abortIf {c : Prop} [Decidable c] {f : α → Prog ε σ β} {m : Prog ε σ β}
    (h : Respects R m) : Respects R (if c then Prog.abort >>= f else m) :=
  Mirrors.abortIf h

theorem unwrap {o : Option α} {f : α → Prog ε σ β} (h : ∀ a, Respects R (f a)) :
    Respects R (Prog.unwrap o >>= f) := by
  apply bind _ h
  cases o with
  | none => exact abort
  | some a => exact pure a

theorem checkedAdd {bound x y : Nat} {f : Nat → Prog ε σ β} (h : Respects R (f (x + y))) :
    Respects R (Prog.checkedAdd bound x y >>= f) := by
  by_cases hlt : x + y < bound
  · unfold Prog.checkedAdd
    rw [if_pos hlt]
    exact h
  · unfold Prog.checkedAdd
    rw [if_neg hlt]
    exact abort

theorem checkedSub {x y : Nat} {f : Nat → Prog ε σ β} (h : Respects R (f (x - y))) :
    Respects R (Prog.checkedSub x y >>= f) := by
  by_cases hle : y ≤ x
  · unfold Prog.checkedSub
    rw [if_pos hle]
    exact h
  · unfold Prog.checkedSub
    rw [if_neg hle]
    exact abort

end Respects

/-! ## Programs put together from given ones -/

/-- The programs in `A` are all that `m` runs. -/
inductive Composed (A : ∀ α : Type, Prog ε σ α → Prop) : ∀ {α : Type}, Prog ε σ α → Prop where
  | atom {α : Type} {m : Prog ε σ α} (h : A α m) : Composed A m
  | pure {α : Type} (a : α) : Composed A (pure a : Prog ε σ α)
  | fail {α : Type} (e : ε) : Composed A (fail e : Prog ε σ α)
  | abort {α : Type} : Composed A (abort : Prog ε σ α)
  | bind {α β : Type} {m : Prog ε σ α} {f : α → Prog ε σ β} (h : Composed A m)
      (hf : ∀ a, Composed A (f a)) : Composed A (m >>= f)

namespace Composed

variable {A B : ∀ α : Type, Prog ε σ α → Prop} {m : Prog ε σ α}

theorem ite {c : Prop} [Decidable c] {m m' : Prog ε σ α} (h : c → Composed A m)
    (h' : ¬ c → Composed A m') : Composed A (if c then m else m') := by
  split
  · exact h ‹_›
  · exact h' ‹_›

theorem dite {c : Prop} [Decidable c] {m : c → Prog ε σ α} {m' : ¬ c → Prog ε σ α}
    (h : ∀ hc, Composed A (m hc)) (h' : ∀ hc, Composed A (m' hc)) :
    Composed A (dite c m m') := by
  split
  · exact h _
  · exact h' _

/-- The program behind a failure is never run. -/
theorem failIf {c : Prop} [Decidable c] {e : ε} {f : α → Prog ε σ β} {m : Prog ε σ β}
    (h : Composed A m) : Composed A (if c then Prog.fail e >>= f else m) :=
  ite (fun _ => (fail e : Composed A (Prog.fail e : Prog ε σ β))) fun _ => h

theorem abortIf {c : Prop} [Decidable c] {f : α → Prog ε σ β} {m : Prog ε σ β}
    (h : Composed A m) : Composed A (if c then Prog.abort >>= f else m) :=
  ite (fun _ => (abort : Composed A (Prog.abort : Prog ε σ β))) fun _ => h

theorem unwrap (o : Option α) : Composed A (Prog.unwrap o : Prog ε σ α) := by
  cases o with
  | none => exact abort
  | some a => exact pure a

theorem checkedAdd {bound x y : Nat} {f : Nat → Prog ε σ β}
    (h : Composed A (f (x + y))) : Composed A (Prog.checkedAdd bound x y >>= f) := by
  by_cases hlt : x + y < bound
  · unfold Prog.checkedAdd
    rw [if_pos hlt]
    exact h
  · unfold Prog.checkedAdd
    rw [if_neg hlt]
    exact abort

theorem checkedSub {x y : Nat} {f : Nat → Prog ε σ β}
    (h : Composed A (f (x - y))) : Composed A (Prog.checkedSub x y >>= f) := by
  by_cases hle : y ≤ x
  · unfold Prog.checkedSub
    rw [if_pos hle]
    exact h
  · unfold Prog.checkedSub
    rw [if_neg hle]
    exact abort

theorem mono (h : Composed A m) (hAB : ∀ α m, A α m → B α m) : Composed B m := by
  induction h with
  | atom h => exact atom (hAB _ _ h)
  | pure a => exact pure a
  | fail e => exact fail e
  | abort => exact abort
  | bind _ _ ih ihf => exact bind ih ihf

theorem readOnly (h : Composed A m) (hA : ∀ α m, A α m → ReadOnly m) : ReadOnly m := by
  induction h with
  | atom h => exact hA _ _ h
  | pure a => exact ReadOnly.pure a
  | fail e => exact ReadOnly.fail e
  | abort => exact ReadOnly.abort
  | bind _ _ ih ihf => exact ReadOnly.bind ih ihf

theorem maintains {I : σ → Prop} (h : Composed A m) (hA : ∀ α m, A α m → Maintains I m) :
    Maintains I m := by
  induction h with
  | atom h => exact hA _ _ h
  | pure a => exact Maintains.pure a
  | fail e => exact Maintains.fail e
  | abort => exact Maintains.abort
  | bind _ _ ih ihf => exact Maintains.bind ih ihf

theorem respects {R : σ → σ → Prop} (h : Composed A m) (hA : ∀ α m, A α m → Respects R m) :
    Respects R m := by
  induction h with
  | atom h => exact hA _ _ h
  | pure a => exact Respects.pure a
  | fail e => exact Respects.fail e
  | abort => exact Respects.abort
  | bind _ _ ih ihf => exact Respects.bind ih ihf

end Composed

end Prog

end Lib
