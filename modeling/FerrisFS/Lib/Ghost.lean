import FerrisFS.Lib.Prog

/-!
# Programs with a log

A program may be run beside a log that it appends to and never reads. Erasing the log
gives back the program, so what the log counts is what the program does.
-/

namespace Lib

variable {ε σ ω α β : Type}

/-- Programs over `σ` that keep a log. -/
abbrev Logged (ω ε σ α : Type) : Type := Prog ε (σ × List ω) α

namespace Logged

/-- A program that logs nothing. -/
def quiet (m : Prog ε σ α) : Logged ω ε σ α := Prog.zoom Prod.fst (fun s t => (s, t.2)) m

def note (w : ω) : Logged ω ε σ Unit := Prog.modify fun t => (t.1, t.2 ++ [w])

/-- Without its log, `m` is `m'`. -/
def Erases (m : Logged ω ε σ α) (m' : Prog ε σ α) : Prop :=
  ∀ s l, match m (s, l) with
    | .ok a t => m' s = .ok a t.1
    | .err e t => m' s = .err e t.1
    | .panic => m' s = .panic

namespace Erases

theorem quiet (m : Prog ε σ α) : Erases (quiet m : Logged ω ε σ α) m := by
  intro s l
  unfold Logged.quiet Prog.zoom
  cases m s <;> simp

theorem pure (a : α) : Erases (pure a : Logged ω ε σ α) (pure a) := fun _ _ => rfl

theorem fail (e : ε) : Erases (Prog.fail e : Logged ω ε σ α) (Prog.fail e) := fun _ _ => rfl

theorem abort : Erases (Prog.abort : Logged ω ε σ α) Prog.abort := fun _ _ => rfl

theorem bind {m : Logged ω ε σ α} {m' : Prog ε σ α} {f : α → Logged ω ε σ β}
    {f' : α → Prog ε σ β} (h : Erases m m') (hf : ∀ a, Erases (f a) (f' a)) :
    Erases (m >>= f) (m' >>= f') := by
  intro s l
  have hm := h s l
  rw [Prog.bind_apply]
  cases hr : m (s, l) with
  | ok a t =>
      rw [hr] at hm
      dsimp only at hm ⊢
      rw [Prog.bind_of_ok hm]
      exact hf a t.1 t.2
  | err e t =>
      rw [hr] at hm
      exact Prog.bind_of_err hm f'
  | panic =>
      rw [hr] at hm
      exact Prog.bind_of_panic hm f'

/-- An entry in the log is all that a note is. -/
theorem note {w : ω} {f : Unit → Logged ω ε σ α} {m' : Prog ε σ α} (h : Erases (f ()) m') :
    Erases (note w >>= f) m' := fun s l => h s (l ++ [w])

theorem ite {c : Prop} [Decidable c] {m n : Logged ω ε σ α} {m' n' : Prog ε σ α}
    (h : Erases m m') (h' : Erases n n') :
    Erases (if c then m else n) (if c then m' else n') := by
  split
  · exact h
  · exact h'

theorem guard {c : Prop} [Decidable c] {e : ε} {f : α → Logged ω ε σ β}
    {f' : α → Prog ε σ β} {m : Logged ω ε σ β} {m' : Prog ε σ β} (h : Erases m m') :
    Erases (if c then Prog.fail e >>= f else m) (if c then Prog.fail e >>= f' else m') :=
  ite (fun _ _ => rfl) h

theorem of_ok {m : Logged ω ε σ α} {m' : Prog ε σ α} (h : Erases m m') {s : σ} {l : List ω}
    {a : α} {t : σ × List ω} (hm : m (s, l) = .ok a t) : m' s = .ok a t.1 := by
  have := h s l
  rwa [hm] at this

theorem of_err {m : Logged ω ε σ α} {m' : Prog ε σ α} (h : Erases m m') {s : σ} {l : List ω}
    {e : ε} {t : σ × List ω} (hm : m (s, l) = .err e t) : m' s = .err e t.1 := by
  have := h s l
  rwa [hm] at this

theorem of_panic {m : Logged ω ε σ α} {m' : Prog ε σ α} (h : Erases m m') {s : σ} {l : List ω}
    (hm : m (s, l) = .panic) : m' s = .panic := by
  have := h s l
  rwa [hm] at this

/-- The logged program returns when the program does. -/
theorem exists_ok {m : Logged ω ε σ α} {m' : Prog ε σ α} (h : Erases m m') {s s' : σ}
    {a : α} (hm : m' s = .ok a s') (l : List ω) : ∃ l', m (s, l) = .ok a (s', l') := by
  have := h s l
  cases hr : m (s, l) with
  | ok b t =>
      rw [hr, hm] at this
      cases this
      exact ⟨t.2, rfl⟩
  | err e t =>
      rw [hr, hm] at this
      cases this
  | panic =>
      rw [hr, hm] at this
      cases this

end Erases

end Logged

end Lib
