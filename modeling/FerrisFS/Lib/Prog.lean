import Mathlib.Tactic.Common

/-!
# Programs whose errors keep the state

`Prog ε σ α` is the shape of a method that mutates `σ` in place and ends in one
of three ways: a result, an error value (the mutations made so far stay), or a
panic, after which there is no state to speak of. `wp` is its program logic: the
postconditions `Q` and `E` cover the first two endings, a panic satisfies
anything.
-/

namespace Lib

/-- How a run ends. -/
inductive Outcome (ε σ α : Type) where
  | ok (a : α) (s : σ)
  | err (e : ε) (s : σ)
  | panic

/-- A program over the state `σ` with errors in `ε`. -/
def Prog (ε σ α : Type) : Type := σ → Outcome ε σ α

variable {ε σ τ α β γ : Type}

/-- The state a run leaves behind, if it does not panic. -/
def Outcome.state? : Outcome ε σ α → Option σ
  | .ok _ s => some s
  | .err _ s => some s
  | .panic => none

/-- The result of a run, if it returns one. -/
def Outcome.value? : Outcome ε σ α → Option α
  | .ok a _ => some a
  | _ => none

/-- The run returns, and its result and its state pass the check. -/
def Outcome.passes (p : α → σ → Bool) : Outcome ε σ α → Bool
  | .ok a s => p a s
  | _ => false

theorem Outcome.passes_iff {p : α → σ → Bool} {o : Outcome ε σ α} :
    o.passes p = true ↔ ∃ a s, o = .ok a s ∧ p a s = true := by
  cases o <;> simp [Outcome.passes]

/-- The result or the error of a run, if it does not panic. -/
def Outcome.answer? : Outcome ε σ α → Option (Except ε α)
  | .ok a _ => some (.ok a)
  | .err e _ => some (.error e)
  | .panic => none

theorem Outcome.value?_eq_some {o : Outcome ε σ α} {a : α} :
    o.value? = some a ↔ ∃ s, o = .ok a s := by
  cases o <;> simp [Outcome.value?]

theorem Outcome.err_of_state {o : Outcome ε σ α} {s : σ} (hstate : o.state? = some s)
    (hvalue : o.value? = none) : ∃ e, o = .err e s := by
  cases o with
  | ok a s' => cases hvalue
  | err e s' =>
      cases hstate
      exact ⟨e, rfl⟩
  | panic => cases hstate

/-- Two runs end alike: with the same result or with some error, in the same state, or
both in a panic. -/
inductive Outcome.Same : Outcome ε σ α → Outcome ε σ α → Prop where
  | ok (a : α) (s : σ) : Same (.ok a s) (.ok a s)
  | err (e e' : ε) (s : σ) : Same (.err e s) (.err e' s)
  | panic : Same .panic .panic

theorem Outcome.Same.refl (o : Outcome ε σ α) : o.Same o := by
  cases o with
  | ok a s => exact .ok a s
  | err e s => exact .err e e s
  | panic => exact .panic

namespace Prog

instance : Monad (Prog ε σ) where
  pure a := fun s => .ok a s
  bind m f := fun s =>
    match m s with
    | .ok a s' => f a s'
    | .err e s' => .err e s'
    | .panic => .panic

/-- Return an error; the state stays as it is. -/
def fail (e : ε) : Prog ε σ α := fun s => .err e s

/-- A panic. -/
def abort : Prog ε σ α := fun _ => .panic

/-- Read the state. -/
def get : Prog ε σ σ := fun s => .ok s s

/-- Update the state. -/
def modify (f : σ → σ) : Prog ε σ Unit := fun s => .ok () (f s)

/-- Run a program on a component of a larger state. -/
def zoom (view : τ → σ) (put : σ → τ → τ) (m : Prog ε σ α) : Prog ε τ α := fun t =>
  match m (view t) with
  | .ok a s => .ok a (put s t)
  | .err e s => .err e (put s t)
  | .panic => .panic

/-- Run a program and hand on its result or its error. -/
def attempt (m : Prog ε σ α) : Prog ε σ (Except ε α) := fun s =>
  match m s with
  | .ok a s' => .ok (.ok a) s'
  | .err e s' => .ok (.error e) s'
  | .panic => .panic

/-- The value of an option; its absence is a panic. -/
def unwrap : Option α → Prog ε σ α
  | some a => pure a
  | none => abort

/-- Machine addition below `bound`; an overflow panics. -/
def checkedAdd (bound a b : Nat) : Prog ε σ Nat :=
  if a + b < bound then pure (a + b) else abort

/-- Unsigned machine subtraction; a negative result panics. -/
def checkedSub (a b : Nat) : Prog ε σ Nat :=
  if b ≤ a then pure (a - b) else abort

@[simp] theorem pure_apply (a : α) (s : σ) : (pure a : Prog ε σ α) s = .ok a s := rfl

theorem bind_apply (m : Prog ε σ α) (f : α → Prog ε σ β) (s : σ) :
    (m >>= f) s = match m s with
      | .ok a s' => f a s'
      | .err e s' => .err e s'
      | .panic => .panic := rfl

theorem bind_of_ok {m : Prog ε σ α} {s s' : σ} {a : α} (h : m s = .ok a s')
    (f : α → Prog ε σ β) : (m >>= f) s = f a s' := by
  rw [bind_apply, h]

theorem bind_of_panic {m : Prog ε σ α} {s : σ} (h : m s = .panic) (f : α → Prog ε σ β) :
    (m >>= f) s = .panic := by
  rw [bind_apply, h]

theorem bind_of_err {m : Prog ε σ α} {s s' : σ} {e : ε} (h : m s = .err e s')
    (f : α → Prog ε σ β) : (m >>= f) s = .err e s' := by
  rw [bind_apply, h]

@[simp] theorem pure_bind_apply (a : α) (f : α → Prog ε σ β) (s : σ) :
    ((pure a : Prog ε σ α) >>= f) s = f a s := rfl

theorem pure_bind (a : α) (f : α → Prog ε σ β) : (pure a : Prog ε σ α) >>= f = f a := rfl

theorem bind_assoc (m : Prog ε σ α) (f : α → Prog ε σ β) (k : β → Prog ε σ γ) :
    (m >>= f) >>= k = m >>= fun a => f a >>= k := by
  funext s
  rw [bind_apply, bind_apply, bind_apply]
  cases m s <;> rfl

/-- A run that returns has returned from its first part. -/
theorem of_ok_bind {m : Prog ε σ α} {f : α → Prog ε σ β} {s s' : σ} {b : β}
    (hrun : (m >>= f) s = .ok b s') : ∃ a s₁, m s = .ok a s₁ ∧ f a s₁ = .ok b s' := by
  rw [bind_apply] at hrun
  cases hm : m s with
  | ok a s₁ =>
      rw [hm] at hrun
      exact ⟨a, s₁, rfl, hrun⟩
  | err e s₁ =>
      rw [hm] at hrun
      cases hrun
  | panic =>
      rw [hm] at hrun
      cases hrun

/-- Continuations that agree on what the first part returns. -/
theorem bind_congr {m : Prog ε σ α} {f g : α → Prog ε σ β} {s : σ}
    (h : ∀ a s', m s = .ok a s' → f a s' = g a s') : (m >>= f) s = (m >>= g) s := by
  rw [bind_apply, bind_apply]
  cases hm : m s with
  | ok a s' => exact h a s' hm
  | err e s' => rfl
  | panic => rfl

/-- A run that returns has passed its guards. -/
theorem of_ok_guard {c : Prop} [Decidable c] {e : ε} {f : α → Prog ε σ β} {m : Prog ε σ β}
    {s s' : σ} {b : β} (hrun : (if c then fail e >>= f else m) s = .ok b s') :
    ¬ c ∧ m s = .ok b s' := by
  split at hrun
  · cases hrun
  · exact ⟨‹_›, hrun⟩

theorem attempt_of_ok {m : Prog ε σ α} {s s' : σ} {a : α} (h : m s = .ok a s') :
    attempt m s = .ok (.ok a) s' := by
  rw [attempt, h]

/-- What an attempt hands on is what its program ended with. -/
theorem of_ok_attempt {m : Prog ε σ α} {s s' : σ} {r : Except ε α}
    (h : attempt m s = .ok r s') :
    match r with
    | .ok a => m s = .ok a s'
    | .error e => m s = .err e s' := by
  unfold attempt at h
  split at h
  · cases h
    assumption
  · cases h
    assumption
  · cases h

/-- The state after an attempt. -/
theorem state?_of_attempt {m : Prog ε σ α} {s s' : σ} {r : Except ε α}
    (h : attempt m s = .ok r s') : (m s).state? = some s' := by
  have hend := of_ok_attempt h
  cases r with
  | ok a => rw [show m s = .ok a s' from hend, Outcome.state?]
  | error e => rw [show m s = .err e s' from hend, Outcome.state?]

/-- Programs that begin alike and end alike. -/
theorem same_bind (m : Prog ε σ α) {f f' : α → Prog ε σ β} {s : σ}
    (h : ∀ a s', m s = .ok a s' → (f a s').Same (f' a s')) :
    ((m >>= f) s).Same ((m >>= f') s) := by
  rw [bind_apply, bind_apply]
  cases hm : m s with
  | ok a s' => exact h a s' hm
  | err e s' => exact .err e e s'
  | panic => exact .panic

theorem same_ite {c : Prop} [Decidable c] {m m' n n' : Prog ε σ α} {s : σ}
    (h : c → (m s).Same (n s)) (h' : ¬ c → (m' s).Same (n' s)) :
    ((if c then m else m') s).Same ((if c then n else n') s) := by
  split
  · exact h ‹_›
  · exact h' ‹_›

/-- Errors may differ. -/
theorem same_guard {c : Prop} [Decidable c] {e e' : ε} {f f' : α → Prog ε σ β}
    {m m' : Prog ε σ β} {s : σ} (h : ¬ c → (m s).Same (m' s)) :
    ((if c then fail e >>= f else m) s).Same ((if c then fail e' >>= f' else m') s) :=
  same_ite (fun _ => .err e e' s) h

/-! ## The program logic -/

/-- Whatever way the run from `s` ends, short of a panic, its postcondition
holds. -/
def wp (m : Prog ε σ α) (Q : α → σ → Prop) (E : ε → σ → Prop) (s : σ) : Prop :=
  match m s with
  | .ok a s' => Q a s'
  | .err e s' => E e s'
  | .panic => True

variable {m : Prog ε σ α} {Q Q' : α → σ → Prop} {E E' : ε → σ → Prop} {s s' : σ}

@[simp] theorem wp_pure (a : α) : wp (pure a) Q E s ↔ Q a s := Iff.rfl

@[simp] theorem wp_fail (e : ε) : wp (fail e : Prog ε σ α) Q E s ↔ E e s := Iff.rfl

@[simp] theorem wp_abort : wp (abort : Prog ε σ α) Q E s ↔ True := Iff.rfl

@[simp] theorem wp_get {Q : σ → σ → Prop} : wp get Q E s ↔ Q s s := Iff.rfl

@[simp] theorem wp_modify {Q : Unit → σ → Prop} (f : σ → σ) :
    wp (modify f) Q E s ↔ Q () (f s) := Iff.rfl

theorem wp_bind {f : α → Prog ε σ β} {Q : β → σ → Prop} :
    wp (m >>= f) Q E s ↔ wp m (fun a s' => wp (f a) Q E s') E s := by
  unfold wp
  rw [bind_apply]
  cases m s <;> rfl

theorem wp_mono (h : wp m Q E s) (hQ : ∀ a s', Q a s' → Q' a s')
    (hE : ∀ e s', E e s' → E' e s') : wp m Q' E' s := by
  unfold wp at *
  cases hm : m s with
  | ok a s' => rw [hm] at h; exact hQ a s' h
  | err e s' => rw [hm] at h; exact hE e s' h
  | panic => trivial

/-- Sequencing: a specification of the first part, then the rest from wherever
it may end. -/
theorem wp_seq {f : α → Prog ε σ β} {Q : β → σ → Prop} {R : α → σ → Prop}
    {F : ε → σ → Prop} (h : wp m R F s) (hok : ∀ a s', R a s' → wp (f a) Q E s')
    (herr : ∀ e s', F e s' → E e s') : wp (m >>= f) Q E s :=
  wp_bind.mpr (wp_mono h hok herr)

theorem wp_congr {m' : Prog ε σ α} (h : m s = m' s) (h' : wp m' Q E s) : wp m Q E s := by
  unfold wp at *
  rw [h]
  exact h'

theorem wp_of_ok {a : α} (h : m s = .ok a s') : wp m Q E s ↔ Q a s' := by
  simp only [wp, h]

theorem wp_and (h : wp m Q E s) (h' : wp m Q' E' s) :
    wp m (fun a s' => Q a s' ∧ Q' a s') (fun e s' => E e s' ∧ E' e s') s := by
  unfold wp at *
  cases hm : m s <;> simp_all

theorem wp_of_forall (hQ : ∀ a s', Q a s') (hE : ∀ e s', E e s') : wp m Q E s := by
  unfold wp
  cases m s with
  | ok a s' => exact hQ a s'
  | err e s' => exact hE e s'
  | panic => trivial

/-- A run that can end in no other way. -/
theorem panic_of_wp (h : wp m (fun _ _ => False) (fun _ _ => False) s) : m s = .panic := by
  unfold wp at h
  cases hm : m s with
  | ok a s' =>
      rw [hm] at h
      exact h.elim
  | err e s' =>
      rw [hm] at h
      exact h.elim
  | panic => rfl

/-- The outcome itself. -/
theorem wp_self : wp m (fun a s' => m s = .ok a s') (fun e s' => m s = .err e s') s := by
  unfold wp
  cases m s <;> trivial

theorem wp_ite {c : Prop} [Decidable c] {m m' : Prog ε σ α} (h : c → wp m Q E s)
    (h' : ¬ c → wp m' Q E s) : wp (if c then m else m') Q E s := by
  split
  · exact h ‹_›
  · exact h' ‹_›

/-- A guard that fails with an error. -/
theorem wp_guard {c : Prop} [Decidable c] {e : ε} {f : α → Prog ε σ β} {m' : Prog ε σ β}
    {Q : β → σ → Prop} (herr : c → E e s) (hok : ¬ c → wp m' Q E s) :
    wp (if c then fail e >>= f else m') Q E s :=
  wp_ite (fun hc => wp_bind.mpr (herr hc)) hok

/-- A guard that panics. -/
theorem wp_assert {c : Prop} [Decidable c] {f : α → Prog ε σ β} {m' : Prog ε σ β}
    {Q : β → σ → Prop} (hok : ¬ c → wp m' Q E s) :
    wp (if c then abort >>= f else m') Q E s :=
  wp_ite (fun _ => trivial) hok

/-- An error that is handed on as a result. -/
theorem wp_attempt {Q : Except ε α → σ → Prop}
    (h : wp m (fun a s' => Q (.ok a) s') (fun e s' => Q (.error e) s') s) :
    wp (attempt m) Q E s := by
  unfold wp attempt at *
  cases hm : m s with
  | ok a s' =>
      rw [hm] at h
      exact h
  | err e s' =>
      rw [hm] at h
      exact h
  | panic => trivial

theorem wp_unwrap {o : Option α} (h : ∀ a, o = some a → Q a s) :
    wp (unwrap o) Q E s := by
  cases o with
  | none => trivial
  | some a => exact h a rfl

theorem wp_checkedAdd {bound a b : Nat} {Q : Nat → σ → Prop}
    (h : a + b < bound → Q (a + b) s) : wp (checkedAdd bound a b) Q E s :=
  wp_ite h fun _ => trivial

theorem wp_checkedSub {a b : Nat} {Q : Nat → σ → Prop} (h : b ≤ a → Q (a - b) s) :
    wp (checkedSub a b) Q E s :=
  wp_ite h fun _ => trivial

theorem checkedAdd_of_lt {bound a b : Nat} (h : a + b < bound) :
    (checkedAdd bound a b : Prog ε σ Nat) s = .ok (a + b) s := by
  simp [checkedAdd, h]

theorem of_checkedAdd_ok {bound a b c : Nat} {s s' : σ}
    (h : (checkedAdd bound a b : Prog ε σ Nat) s = .ok c s') : c = a + b ∧ s' = s := by
  unfold checkedAdd at h
  split at h
  · cases h
    exact ⟨rfl, rfl⟩
  · cases h

theorem checkedAdd_of_ge {bound a b : Nat} (h : ¬ a + b < bound) :
    (checkedAdd bound a b : Prog ε σ Nat) s = .panic := by
  rw [checkedAdd, if_neg h]
  rfl

theorem checkedSub_of_le {a b : Nat} (h : b ≤ a) :
    (checkedSub a b : Prog ε σ Nat) s = .ok (a - b) s := by
  simp [checkedSub, h]

theorem wp_zoom {view : τ → σ} {put : σ → τ → τ} {Q : α → τ → Prop} {E : ε → τ → Prop}
    {t : τ} : wp (zoom view put m) Q E t ↔
      wp m (fun a s => Q a (put s t)) (fun e s => E e (put s t)) (view t) := by
  unfold wp zoom
  cases m (view t) <;> rfl

theorem zoom_of_ok {view : τ → σ} {put : σ → τ → τ} {t : τ} {a : α}
    (h : m (view t) = .ok a s') : zoom view put m t = .ok a (put s' t) := by
  simp only [zoom, h]

theorem zoom_of_err {view : τ → σ} {put : σ → τ → τ} {t : τ} {e : ε}
    (h : m (view t) = .err e s') : (zoom view put m t : Outcome ε τ α) = .err e (put s' t) := by
  simp only [zoom, h]

theorem zoom_of_panic {view : τ → σ} {put : σ → τ → τ} {t : τ} (h : m (view t) = .panic) :
    (zoom view put m t : Outcome ε τ α) = .panic := by
  simp only [zoom, h]

/-- What `wp` says about a run that is known to return. -/
theorem wp.of_ok {a : α} (h : wp m Q E s) (hm : m s = .ok a s') : Q a s' := by
  rwa [wp_of_ok hm] at h

theorem wp.of_err {e : ε} (h : wp m Q E s) (hm : m s = .err e s') : E e s' := by
  unfold wp at h
  rwa [hm] at h

theorem wp.of_state {Q : σ → Prop} (h : wp m (fun _ => Q) (fun _ => Q) s)
    (hm : (m s).state? = some s') : Q s' := by
  unfold wp at h
  cases hr : m s with
  | ok a t =>
      rw [hr] at h hm
      cases hm
      exact h
  | err e t =>
      rw [hr] at h hm
      cases hm
      exact h
  | panic =>
      rw [hr] at hm
      cases hm

/-! ## Programs that only read -/

/-- The state stays as it is. -/
def ReadOnly (m : Prog ε σ α) : Prop := ∀ s, wp m (fun _ s' => s' = s) (fun _ s' => s' = s) s

namespace ReadOnly

theorem pure (a : α) : ReadOnly (pure a : Prog ε σ α) := fun _ => rfl

theorem fail (e : ε) : ReadOnly (fail e : Prog ε σ α) := fun _ => rfl

theorem abort : ReadOnly (abort : Prog ε σ α) := fun _ => trivial

theorem bind {f : α → Prog ε σ β} (h : ReadOnly m) (hf : ∀ a, ReadOnly (f a)) :
    ReadOnly (m >>= f) := by
  intro s
  refine wp_seq (h s) ?_ fun _ _ he => he
  rintro a s' rfl
  exact hf a s'

theorem ite {c : Prop} [Decidable c] {m m' : Prog ε σ α} (h : ReadOnly m) (h' : ReadOnly m') :
    ReadOnly (if c then m else m') := by
  split
  · exact h
  · exact h'

theorem guard {c : Prop} [Decidable c] {e : ε} {f : Unit → Prog ε σ β}
    (hf : ∀ u, ReadOnly (f u)) : ReadOnly (if c then Prog.fail e >>= f else f ()) :=
  ite (bind (fail e) hf) (hf ())

theorem assert {c : Prop} [Decidable c] {f : Unit → Prog ε σ β} (hf : ∀ u, ReadOnly (f u)) :
    ReadOnly (if c then Prog.abort >>= f else f ()) :=
  ite (bind abort hf) (hf ())

theorem unwrap (o : Option α) : ReadOnly (unwrap o : Prog ε σ α) := by
  cases o with
  | none => exact abort
  | some a => exact pure a

theorem checkedAdd (bound a b : Nat) : ReadOnly (checkedAdd bound a b : Prog ε σ Nat) :=
  ite (pure _) abort

theorem checkedSub (a b : Nat) : ReadOnly (checkedSub a b : Prog ε σ Nat) :=
  ite (pure _) abort

theorem attempt (h : ReadOnly m) : ReadOnly (attempt m) := fun s => wp_attempt (h s)

/-- What reads a component reads the whole state. -/
theorem zoom {view : τ → σ} {put : σ → τ → τ} (hput : ∀ t, put (view t) t = t)
    (h : ReadOnly m) : ReadOnly (zoom view put m) := by
  intro t
  refine wp_zoom.mpr (wp_mono (h (view t)) ?_ ?_)
  · intro a s hs
    rw [hs]
    exact hput t
  · intro e s hs
    rw [hs]
    exact hput t

theorem of_ok {a : α} (h : ReadOnly m) (hm : m s = .ok a s') : s' = s := (h s).of_ok hm

theorem of_err {e : ε} (h : ReadOnly m) (hm : m s = .err e s') : s' = s := (h s).of_err hm

/-- The outcome itself. -/
theorem wp_self (h : ReadOnly m) (s : σ) :
    wp m (fun a s' => s' = s ∧ m s = .ok a s) (fun e s' => s' = s ∧ m s = .err e s) s := by
  refine wp_mono (wp_and (h s) Prog.wp_self) ?_ ?_
  · intro a s' ha
    obtain ⟨hs, hm⟩ := ha
    subst hs
    exact ⟨rfl, hm⟩
  · intro e s' he
    obtain ⟨hs, hm⟩ := he
    subst hs
    exact ⟨rfl, hm⟩

end ReadOnly

end Prog

end Lib
