import Mathlib.Data.List.Basic
import Mathlib.Logic.Function.Basic
import Mathlib.Tactic.Common

/-!
# Files and handles

What a store of files is for: a file is a list, a handle stands at a position in one file,
and what happens to the store is a sequence of events. Nothing is said about how the lists
are kept.
-/

namespace Lib

/-- Files as lists, and for each open handle its file and its position. -/
@[ext] structure FileStore (F H B : Type) where
  files : F → Option (List B)
  handles : H → Option (F × Nat)

namespace FileStore

variable {F H B : Type}

/-- No file, and nothing is open. -/
def empty : FileStore F H B := ⟨fun _ => none, fun _ => none⟩

/-- `bs` in place of what is at `p` and behind; the list is filled up to `p` with `z`. -/
def put (z : B) (c : List B) (p : Nat) : List B → List B
  | [] => c
  | b :: bs => c.take p ++ List.replicate (p - c.length) z ++ (b :: bs) ++
      c.drop (p + (b :: bs).length)

/-- What is put at a place is read there. -/
theorem take_drop_put (z : B) (c : List B) (p : Nat) (bs : List B) (hbs : bs ≠ []) :
    ((put z c p bs).drop p).take bs.length = bs := by
  cases bs with
  | nil => exact absurd rfl hbs
  | cons b bs =>
      have hlen : (c.take p ++ List.replicate (p - c.length) z).length = p := by
        simp only [List.length_append, List.length_take, List.length_replicate]
        omega
      rw [put, List.append_assoc, List.drop_left' hlen, List.take_left' rfl]

/-- What can happen. -/
inductive Event (F H B : Type) where
  | idle
  | born (f : F)
  | gone (f : F)
  | opened (h : H) (f : F)
  | closed (h : H)
  | moved (h : H) (p : Nat)
  | read (h : H) (len : Nat) (bs : List B)
  | wrote (h : H) (bs : List B)
  | cut (f : F) (size : Nat)

variable [DecidableEq F] [DecidableEq H] {z : B}

/-- An event takes one store to the next. A gap that a write leaves is filled with `z`. -/
inductive Step (z : B) (s : FileStore F H B) : Event F H B → FileStore F H B → Prop where
  | idle : Step z s .idle s
  | born {f} (hf : s.files f = none) :
      Step z s (.born f) { s with files := Function.update s.files f (some []) }
  | gone {f c} (hf : s.files f = some c) (hclosed : ∀ h p, s.handles h ≠ some (f, p)) :
      Step z s (.gone f) { s with files := Function.update s.files f none }
  | opened {h f c} (hh : s.handles h = none) (hf : s.files f = some c) :
      Step z s (.opened h f) { s with handles := Function.update s.handles h (some (f, 0)) }
  | closed {h} : Step z s (.closed h) { s with handles := Function.update s.handles h none }
  | moved {h f q p} (hh : s.handles h = some (f, q)) :
      Step z s (.moved h p) { s with handles := Function.update s.handles h (some (f, p)) }
  | read {h f p c len bs} (hh : s.handles h = some (f, p)) (hf : s.files f = some c)
      (hbs : bs = (c.drop p).take len) :
      Step z s (.read h len bs)
        { s with handles := Function.update s.handles h (some (f, p + bs.length)) }
  | wrote {h f p c bs} (hh : s.handles h = some (f, p)) (hf : s.files f = some c) :
      Step z s (.wrote h bs)
        { files := Function.update s.files f (some (put z c p bs))
          handles := Function.update s.handles h (some (f, p + bs.length)) }
  | cut {f c size} (hf : s.files f = some c) :
      Step z s (.cut f size) { s with files := Function.update s.files f (some (c.take size)) }

/-- A file that comes into being was not there. -/
theorem Step.files_of_born {s s' : FileStore F H B} {f : F} (h : Step z s (.born f) s') :
    s.files f = none := by
  cases h with
  | born hf => exact hf

/-- The event may change the file `f`. -/
def Event.Alters (s : FileStore F H B) (f : F) : Event F H B → Prop
  | .born f' | .gone f' | .cut f' _ => f' = f
  | .wrote h _ => ∃ p, s.handles h = some (f, p)
  | _ => False

/-- The other events leave it as it is. -/
theorem Step.file_eq {s s' : FileStore F H B} {ev : Event F H B} {f : F} (h : Step z s ev s')
    (hev : ¬ ev.Alters s f) : s'.files f = s.files f := by
  cases h with
  | idle => rfl
  | born => exact Function.update_of_ne (Ne.symm hev) _ _
  | gone => exact Function.update_of_ne (Ne.symm hev) _ _
  | opened => rfl
  | closed => rfl
  | moved => rfl
  | read => rfl
  | @wrote h f' p c bs hh hf =>
      refine Function.update_of_ne ?_ _ _
      rintro rfl
      exact hev ⟨p, hh⟩
  | cut => exact Function.update_of_ne (Ne.symm hev) _ _

/-- The store goes through the events of the log, all of which satisfy `ok` where they
happen. -/
inductive Run (z : B) (ok : FileStore F H B → Event F H B → Prop) (s : FileStore F H B) :
    List (Event F H B) → FileStore F H B → Prop where
  | nil : Run z ok s [] s
  | snoc {log : List (Event F H B)} {ev : Event F H B} {s' s'' : FileStore F H B}
      (h : Run z ok s log s') (hok : ok s' ev) (hstep : Step z s' ev s'') :
      Run z ok s (log ++ [ev]) s''

/-- One event. -/
theorem Run.single {ok : FileStore F H B → Event F H B → Prop} {s s' : FileStore F H B}
    {ev : Event F H B} (hok : ok s ev) (hstep : Step z s ev s') : Run z ok s [ev] s' :=
  .snoc .nil hok hstep

theorem Run.append {ok : FileStore F H B → Event F H B → Prop} {s s' s'' : FileStore F H B}
    {log log' : List (Event F H B)} (h : Run z ok s log s') (h' : Run z ok s' log' s'') :
    Run z ok s (log ++ log') s'' := by
  induction h' with
  | nil =>
      rw [List.append_nil]
      exact h
  | snoc _ hok hstep ih =>
      rw [← List.append_assoc]
      exact ih.snoc hok hstep

/-- A file that no event alters is the same in the end. -/
theorem Run.file_eq {s s' : FileStore F H B} {log : List (Event F H B)} {f : F}
    (h : Run z (fun s ev => ¬ ev.Alters s f) s log s') : s'.files f = s.files f := by
  induction h with
  | nil => rfl
  | snoc _ hev hstep ih => exact (hstep.file_eq hev).trans ih

/-- What was written is read back through any handle at the same place, as long as no event
in between alters the file. -/
theorem Run.reads_back {s s₁ s₂ s₃ : FileStore F H B} {h h' : H} {f : F} {p : Nat}
    {bs out : List B} {log : List (Event F H B)} (hh : s.handles h = some (f, p))
    (hbs : bs ≠ []) (hwrote : Step z s (.wrote h bs) s₁)
    (hrun : Run z (fun s ev => ¬ ev.Alters s f) s₁ log s₂) (hh' : s₂.handles h' = some (f, p))
    (hread : Step z s₂ (.read h' bs.length out) s₃) : out = bs := by
  have hsame := hrun.file_eq
  cases hwrote with
  | wrote hopen hf =>
      cases hopen.symm.trans hh
      cases hread with
      | read hopen' hf' hout =>
          cases hopen'.symm.trans hh'
          have hself : s₂.files f = some (put z _ p bs) :=
            hsame.trans (Function.update_self f _ s.files)
          cases hf'.symm.trans hself
          rw [hout]
          exact take_drop_put z _ p bs hbs

end FileStore

end Lib
