import FerrisFS.Lib.Prog

/-!
# Reasoning about programs through a representation relation

A program works on concrete states `σ`; what it does is easier to say about an
abstract state `τ` that `R : σ → τ → Prop` ties to them. `Runs R m t a t'` says
that from every representative of `t` the program returns `a` in a representative
of `t'`. `wpr` is the program logic with pre- and postconditions on `τ`.
-/

namespace Lib

namespace Prog

variable {ε σ σ' τ τ' α β : Type}

/-- From every representative of `t` the program returns `a` in a representative
of `t'`. -/
def Runs (R : σ → τ → Prop) (m : Prog ε σ α) (t : τ) (a : α) (t' : τ) : Prop :=
  ∀ s, R s t → ∃ s', m s = .ok a s' ∧ R s' t'

/-- Short of a panic, a run from a representative of `t` ends in a representative
of a state that satisfies the postcondition. -/
def wpr (R : σ → τ → Prop) (m : Prog ε σ α) (Q : α → τ → Prop) (E : ε → τ → Prop)
    (t : τ) : Prop :=
  ∀ s, R s t → wp m (fun a s' => ∃ t', R s' t' ∧ Q a t') (fun e s' => ∃ t', R s' t' ∧ E e t') s

variable {R : σ → τ → Prop} {m : Prog ε σ α} {t t' t'' : τ} {a : α} {b : β}
  {Q Q' : α → τ → Prop} {E E' : ε → τ → Prop}

/-! ## Runs -/

theorem Runs.pure (a : α) (t : τ) : Runs R (pure a : Prog ε σ α) t a t :=
  fun s hs => ⟨s, rfl, hs⟩

theorem Runs.bind {f : α → Prog ε σ β} (h : Runs R m t a t') (h' : Runs R (f a) t' b t'') :
    Runs R (m >>= f) t b t'' := by
  intro s hs
  obtain ⟨s', hm, hs'⟩ := h s hs
  obtain ⟨s'', hf, hs''⟩ := h' s' hs'
  exact ⟨s'', by rw [bind_of_ok hm, hf], hs''⟩

/-- A guard that does not fire. -/
theorem Runs.guard {c : Prop} [Decidable c] {m m' : Prog ε σ α} (hc : ¬ c)
    (h : Runs R m t a t') : Runs R (if c then m' else m) t a t' := by
  rwa [if_neg hc]

theorem Runs.branch {c : Prop} [Decidable c] {m m' : Prog ε σ α} (hc : c)
    (h : Runs R m t a t') : Runs R (if c then m else m') t a t' := by
  rwa [if_pos hc]

theorem Runs.dguard {c : Prop} [Decidable c] {m : c → Prog ε σ α} {m' : ¬ c → Prog ε σ α}
    (hc : ¬ c) (h : Runs R (m' hc) t a t') : Runs R (dite c m m') t a t' := by
  rwa [dif_neg hc]

theorem Runs.dbranch {c : Prop} [Decidable c] {m : c → Prog ε σ α} {m' : ¬ c → Prog ε σ α}
    (hc : c) (h : Runs R (m hc) t a t') : Runs R (dite c m m') t a t' := by
  rwa [dif_pos hc]

theorem Runs.checkedAdd {bound x y : Nat} (h : x + y < bound) :
    Runs R (Prog.checkedAdd bound x y : Prog ε σ Nat) t (x + y) t :=
  fun s hs => ⟨s, checkedAdd_of_lt h, hs⟩

theorem Runs.checkedSub {x y : Nat} (h : y ≤ x) :
    Runs R (Prog.checkedSub x y : Prog ε σ Nat) t (x - y) t :=
  fun s hs => ⟨s, by simp [Prog.checkedSub, h], hs⟩

theorem Runs.unwrap {o : Option α} (h : o = some a) :
    Runs R (Prog.unwrap o : Prog ε σ α) t a t := by
  subst h
  exact Runs.pure a t

/-- Concrete runs: every state represents itself. -/
theorem Runs.of_ok {m : Prog ε σ α} {s s' : σ} (h : m s = .ok a s') : Runs Eq m s a s' := by
  rintro _ rfl
  exact ⟨s', h, rfl⟩

theorem Runs.to_ok {m : Prog ε σ α} {s s' : σ} (h : Runs Eq m s a s') : m s = .ok a s' := by
  obtain ⟨_, hm, rfl⟩ := h s rfl
  exact hm

/-! ## When a program may panic -/

/-- A run from a representative of `t` ends in a representative of a state that satisfies
the postcondition, or panics, and then `A` holds. -/
def wpa (R : σ → τ → Prop) (m : Prog ε σ α) (Q : α → τ → Prop) (E : ε → τ → Prop) (A : Prop)
    (t : τ) : Prop :=
  ∀ s, R s t → match m s with
    | .ok a s' => ∃ t', R s' t' ∧ Q a t'
    | .err e s' => ∃ t', R s' t' ∧ E e t'
    | .panic => A

section

variable {A : Prop}

theorem wpa_pure (h : Q a t) : wpa R (pure a : Prog ε σ α) Q E A t :=
  fun _ hs => ⟨t, hs, h⟩

theorem wpa_fail {e : ε} (h : E e t) : wpa R (fail e : Prog ε σ α) Q E A t :=
  fun _ hs => ⟨t, hs, h⟩

theorem wpa_abort (h : A) : wpa R (abort : Prog ε σ α) Q E A t :=
  fun _ _ => h

theorem Runs.wpa (h : Runs R m t a t') (hQ : Q a t') : wpa R m Q E A t := by
  intro s hs
  obtain ⟨s', hm, hs'⟩ := h s hs
  rw [hm]
  exact ⟨t', hs', hQ⟩

theorem wpa_mono {A' : Prop} (h : wpa R m Q E A t) (hQ : ∀ a t', Q a t' → Q' a t')
    (hE : ∀ e t', E e t' → E' e t') (hA : A → A') : wpa R m Q' E' A' t := by
  intro s hs
  have hrun := h s hs
  cases hm : m s with
  | ok a s' =>
      rw [hm] at hrun
      obtain ⟨t', hs', hq⟩ := hrun
      exact ⟨t', hs', hQ a t' hq⟩
  | err e s' =>
      rw [hm] at hrun
      obtain ⟨t', hs', he⟩ := hrun
      exact ⟨t', hs', hE e t' he⟩
  | panic =>
      rw [hm] at hrun
      exact hA hrun

theorem wpa_bind {f : α → Prog ε σ β} {Q : β → τ → Prop}
    (h : wpa R m (fun a t' => wpa R (f a) Q E A t') E A t) : wpa R (m >>= f) Q E A t := by
  intro s hs
  have hrun := h s hs
  rw [bind_apply]
  cases hm : m s with
  | ok a s' =>
      rw [hm] at hrun
      obtain ⟨t', hs', hq⟩ := hrun
      exact hq s' hs'
  | err e s' =>
      rw [hm] at hrun
      exact hrun
  | panic =>
      rw [hm] at hrun
      exact hrun

/-- Sequencing after a part that is known to return. -/
theorem Runs.andThen {f : α → Prog ε σ β} {Q : β → τ → Prop} (h : Runs R m t a t')
    (h' : Prog.wpa R (f a) Q E A t') : Prog.wpa R (m >>= f) Q E A t :=
  wpa_bind (h.wpa h')

/-- Sequencing after a part with a specification of its own. -/
theorem wpa_seq {f : α → Prog ε σ β} {Q : β → τ → Prop} {P : α → τ → Prop}
    {F : ε → τ → Prop} (h : wpa R m P F A t) (hok : ∀ a t', P a t' → wpa R (f a) Q E A t')
    (herr : ∀ e t', F e t' → E e t') : wpa R (m >>= f) Q E A t :=
  wpa_bind (wpa_mono h hok herr id)

theorem wpa_ite {c : Prop} [Decidable c] {m m' : Prog ε σ α} (h : c → wpa R m Q E A t)
    (h' : ¬ c → wpa R m' Q E A t) : wpa R (if c then m else m') Q E A t := by
  split
  · exact h ‹_›
  · exact h' ‹_›

/-- A guard that fails with an error. -/
theorem wpa_guard {c : Prop} [Decidable c] {e : ε} {f : α → Prog ε σ β} {m' : Prog ε σ β}
    {Q : β → τ → Prop} (herr : c → E e t) (hok : ¬ c → wpa R m' Q E A t) :
    wpa R (if c then fail e >>= f else m') Q E A t :=
  wpa_ite (fun hc => wpa_bind (wpa_fail (herr hc))) hok

theorem wpa_checkedAdd {bound x y : Nat} {f : Nat → Prog ε σ β} {Q : β → τ → Prop}
    (h : x + y < bound → wpa R (f (x + y)) Q E A t) (hA : ¬ x + y < bound → A) :
    wpa R (checkedAdd bound x y >>= f) Q E A t :=
  wpa_bind (wpa_ite (fun hb => wpa_pure (h hb)) fun hb => wpa_abort (hA hb))

theorem wpa_checkedSub {x y : Nat} {f : Nat → Prog ε σ β} {Q : β → τ → Prop}
    (h : y ≤ x → wpa R (f (x - y)) Q E A t) (hA : ¬ y ≤ x → A) :
    wpa R (checkedSub x y >>= f) Q E A t :=
  wpa_bind (wpa_ite (fun hb => wpa_pure (h hb)) fun hb => wpa_abort (hA hb))

/-- A guard that panics. -/
theorem wpa_assert {c : Prop} [Decidable c] {f : α → Prog ε σ β} {m' : Prog ε σ β}
    {Q : β → τ → Prop} (hA : c → A) (hok : ¬ c → wpa R m' Q E A t) :
    wpa R (if c then abort >>= f else m') Q E A t :=
  wpa_ite (fun hc => wpa_bind (wpa_abort (hA hc))) hok

/-- Nothing is said about panics. -/
theorem wpa_of_wpr (h : wpr R m Q E t) (hA : A) : wpa R m Q E A t :=
  wpa_mono h (fun _ _ hq => hq) (fun _ _ he => he) fun _ => hA

/-- A program that returns satisfies its specification without a panic. -/
theorem Runs.wpa_of_wpr (h : Runs R m t a t') (hm : Prog.wpr R m Q E t) :
    Prog.wpa R m Q E' A t := by
  intro s hs
  obtain ⟨s', hrun, -⟩ := h s hs
  have hpost := hm s hs
  unfold wp at hpost
  rw [hrun] at hpost ⊢
  exact hpost

/-- A specification through another representation. -/
theorem wpa_retract {R' : σ → τ' → Prop} {u : τ'} {Q' : α → τ' → Prop} {E' : ε → τ' → Prop}
    (h : wpa R m Q E A t) (hR : ∀ s, R' s u → R s t)
    (hQ : ∀ a t' s', R s' t' → Q a t' → ∃ u', R' s' u' ∧ Q' a u')
    (hE : ∀ e t' s', R s' t' → E e t' → ∃ u', R' s' u' ∧ E' e u') : wpa R' m Q' E' A u := by
  intro s hs
  have hrun := h s (hR s hs)
  cases hm : m s with
  | ok a s' =>
      rw [hm] at hrun
      obtain ⟨t', hs', hq⟩ := hrun
      exact hQ a t' s' hs' hq
  | err e s' =>
      rw [hm] at hrun
      obtain ⟨t', hs', he⟩ := hrun
      exact hE e t' s' hs' he
  | panic =>
      rw [hm] at hrun
      exact hrun

/-- A panic tells that its condition holds. -/
theorem wpa.of_panic {s : σ} (h : wpa R m Q E A t) (hs : R s t) (hm : m s = .panic) : A := by
  have hrun := h s hs
  rw [hm] at hrun
  exact hrun

theorem wpa.wpr (h : wpa R m Q E A t) : wpr R m Q E t :=
  wpa_mono h (fun _ _ hq => hq) (fun _ _ he => he) fun _ => trivial

end

/-! ## The program logic

Where nothing is said about panics, the rules are those of `wpa`. -/

theorem wpr_iff : wpr R m Q E t ↔ wpa R m Q E True t := Iff.rfl

theorem wpr_pure (h : Q a t) : wpr R (pure a : Prog ε σ α) Q E t := wpr_iff.mpr (wpa_pure h)

theorem wpr_fail {e : ε} (h : E e t) : wpr R (fail e : Prog ε σ α) Q E t :=
  wpr_iff.mpr (wpa_fail h)

theorem wpr_abort : wpr R (abort : Prog ε σ α) Q E t := wpr_iff.mpr (wpa_abort trivial)

theorem Runs.wpr (h : Runs R m t a t') (hQ : Q a t') : wpr R m Q E t := h.wpa hQ

theorem wpr_mono (h : wpr R m Q E t) (hQ : ∀ a t', Q a t' → Q' a t')
    (hE : ∀ e t', E e t' → E' e t') : wpr R m Q' E' t :=
  wpa_mono h hQ hE id

theorem wpr_bind {f : α → Prog ε σ β} {Q : β → τ → Prop}
    (h : wpr R m (fun a t' => wpr R (f a) Q E t') E t) : wpr R (m >>= f) Q E t :=
  wpa_bind h

theorem Runs.seq {f : α → Prog ε σ β} {Q : β → τ → Prop} (h : Runs R m t a t')
    (h' : Prog.wpr R (f a) Q E t') : Prog.wpr R (m >>= f) Q E t :=
  h.andThen h'

theorem wpr_seq {f : α → Prog ε σ β} {Q : β → τ → Prop} {P : α → τ → Prop}
    {F : ε → τ → Prop} (h : wpr R m P F t) (hok : ∀ a t', P a t' → wpr R (f a) Q E t')
    (herr : ∀ e t', F e t' → E e t') : wpr R (m >>= f) Q E t :=
  wpa_seq h hok herr

theorem wpr_ite {c : Prop} [Decidable c] {m m' : Prog ε σ α} (h : c → wpr R m Q E t)
    (h' : ¬ c → wpr R m' Q E t) : wpr R (if c then m else m') Q E t :=
  wpa_ite h h'

theorem wpr_guard {c : Prop} [Decidable c] {e : ε} {f : α → Prog ε σ β} {m' : Prog ε σ β}
    {Q : β → τ → Prop} (herr : c → E e t) (hok : ¬ c → wpr R m' Q E t) :
    wpr R (if c then fail e >>= f else m') Q E t :=
  wpa_guard herr hok

theorem wpr_assert {c : Prop} [Decidable c] {f : α → Prog ε σ β} {m' : Prog ε σ β}
    {Q : β → τ → Prop} (hok : ¬ c → wpr R m' Q E t) :
    wpr R (if c then abort >>= f else m') Q E t :=
  wpa_assert (fun _ => trivial) hok

theorem wpr_unwrap {o : Option α} {f : α → Prog ε σ β} {Q : β → τ → Prop}
    (h : ∀ a, o = some a → wpr R (f a) Q E t) : wpr R (unwrap o >>= f) Q E t := by
  cases o with
  | none => exact wpr_bind wpr_abort
  | some a => exact wpr_bind (wpr_pure (h a rfl))

theorem wpr_checkedAdd {bound x y : Nat} {f : Nat → Prog ε σ β} {Q : β → τ → Prop}
    (h : x + y < bound → wpr R (f (x + y)) Q E t) :
    wpr R (checkedAdd bound x y >>= f) Q E t :=
  wpa_checkedAdd h fun _ => trivial

theorem wpr.of_ok {s s' : σ} (h : wpr R m Q E t) (hs : R s t) (hm : m s = .ok a s') :
    ∃ t', R s' t' ∧ Q a t' :=
  (h s hs).of_ok hm

theorem wpr.of_err {s s' : σ} {e : ε} (h : wpr R m Q E t) (hs : R s t)
    (hm : m s = .err e s') : ∃ t', R s' t' ∧ E e t' :=
  (h s hs).of_err hm

end Prog

end Lib
