import Mathlib.Data.List.Basic
import Mathlib.Data.Nat.Bitwise
import Mathlib.Tactic.Common

/-!
# Byte lists: little-endian integers, slices and overwrites

`leBytes`/`leNat` are the two directions of the little-endian encoding. `slice`
and `splice` are reading and overwriting a range of a buffer; the lemmas say how
they compose, and `splice_append` is the form the layout proofs use: overwriting
the middle of a three-part buffer.
-/

namespace Lib

/-! ## Little-endian integers -/

/-- The `w` low bytes of `v`, least significant first. -/
def leBytes : Nat → Nat → List UInt8
  | 0, _ => []
  | w + 1, v => UInt8.ofNat (v % 256) :: leBytes w (v / 256)

/-- The value of a little-endian byte string. -/
def leNat : List UInt8 → Nat
  | [] => 0
  | b :: bs => b.toNat + 256 * leNat bs

@[simp] theorem leBytes_length (w v : Nat) : (leBytes w v).length = w := by
  induction w generalizing v with
  | zero => rfl
  | succ w ih => simp [leBytes, ih]

theorem leNat_leBytes : ∀ {w v : Nat}, v < 256 ^ w → leNat (leBytes w v) = v := by
  intro w
  induction w with
  | zero =>
      intro v h
      have : v = 0 := by simpa using h
      subst this
      rfl
  | succ w ih =>
      intro v h
      have hdiv : v / 256 < 256 ^ w := by
        apply Nat.div_lt_of_lt_mul
        rw [Nat.pow_succ] at h
        omega
      have hbyte : (UInt8.ofNat (v % 256)).toNat = v % 256 := by simp
      simp only [leBytes, leNat, ih hdiv, hbyte]
      omega

theorem leNat_lt (bs : List UInt8) : leNat bs < 256 ^ bs.length := by
  induction bs with
  | nil => simp [leNat]
  | cons b bs ih =>
      have hb := b.toNat_lt
      simp only [leNat, List.length_cons, Nat.pow_succ]
      omega

theorem leNat_replicate_zero (n : Nat) : leNat (List.replicate n 0) = 0 := by
  induction n with
  | zero => rfl
  | succ n ih => simp [List.replicate_succ, leNat, ih]

/-! ## Slices -/

variable {α : Type}

/-- The `n` elements from `off` on. -/
def slice (l : List α) (off n : Nat) : List α := (l.drop off).take n

/-- Overwrite the range that starts at `off` with `bs`. -/
def splice (l : List α) (off : Nat) (bs : List α) : List α :=
  l.take off ++ bs ++ l.drop (off + bs.length)

theorem slice_length {l : List α} {off n : Nat} (h : off + n ≤ l.length) :
    (slice l off n).length = n := by
  simp only [slice, List.length_take, List.length_drop]
  omega

theorem splice_length {l : List α} {off : Nat} {bs : List α}
    (h : off + bs.length ≤ l.length) : (splice l off bs).length = l.length := by
  simp only [splice, List.length_append, List.length_take, List.length_drop]
  omega

theorem slice_getElem? (l : List α) (off n i : Nat) :
    (slice l off n)[i]? = if i < n then l[off + i]? else none := by
  simp only [slice, List.getElem?_take, List.getElem?_drop]

theorem splice_getElem? {l : List α} {off : Nat} {bs : List α}
    (h : off + bs.length ≤ l.length) (i : Nat) :
    (splice l off bs)[i]? =
      if off ≤ i ∧ i < off + bs.length then bs[i - off]? else l[i]? := by
  have htake : (l.take off).length = off := by
    simp only [List.length_take]
    omega
  simp only [splice, List.append_assoc]
  rcases Nat.lt_or_ge i off with hlt | hge
  · rw [List.getElem?_append_left (by omega), List.getElem?_take_of_lt hlt,
      if_neg (by omega)]
  · rw [List.getElem?_append_right (by omega), htake]
    rcases Nat.lt_or_ge i (off + bs.length) with hmid | hpost
    · rw [List.getElem?_append_left (by omega), if_pos ⟨hge, hmid⟩]
    · rw [List.getElem?_append_right (by omega), List.getElem?_drop,
        if_neg (by omega)]
      congr 1
      omega

/-- Reading inside what was just written. -/
theorem slice_splice {l : List α} {off : Nat} {bs : List α} {k n : Nat}
    (h : off + bs.length ≤ l.length) (hk : k + n ≤ bs.length) :
    slice (splice l off bs) (off + k) n = slice bs k n := by
  apply List.ext_getElem?
  intro i
  rw [slice_getElem?, slice_getElem?]
  split
  · rw [splice_getElem? h, if_pos (by omega)]
    congr 1
    omega
  · rfl

/-- Reading what was just written, whole. -/
theorem slice_splice_self {l : List α} {off : Nat} {bs : List α}
    (h : off + bs.length ≤ l.length) : slice (splice l off bs) off bs.length = bs := by
  have h0 := slice_splice (k := 0) (n := bs.length) h (by omega)
  simpa [slice] using h0

/-- Reading a range that was not written. -/
theorem slice_splice_of_disjoint {l : List α} {off : Nat} {bs : List α} {o n : Nat}
    (h : off + bs.length ≤ l.length) (hd : o + n ≤ off ∨ off + bs.length ≤ o) :
    slice (splice l off bs) o n = slice l o n := by
  apply List.ext_getElem?
  intro i
  rw [slice_getElem?, slice_getElem?]
  split
  · rw [splice_getElem? h, if_neg (by omega)]
  · rfl

theorem slice_append_left {a b : List α} {o n : Nat} (h : o + n ≤ a.length) :
    slice (a ++ b) o n = slice a o n := by
  simp only [slice]
  rw [List.drop_append_of_le_length (by omega), List.take_append_of_le_length]
  simp only [List.length_drop]
  omega

theorem slice_append_right {a b : List α} {o n : Nat} (h : a.length ≤ o) :
    slice (a ++ b) o n = slice b (o - a.length) n := by
  have hdrop : (a ++ b).drop o = b.drop (o - a.length) := by
    rw [List.drop_append, List.drop_eq_nil_of_le h, List.nil_append]
  simp only [slice, hdrop]

/-- A slice that is exactly one part of a concatenation. -/
theorem slice_append_mid {a b c : List α} {o n : Nat} (ho : o = a.length)
    (hn : n = b.length) : slice (a ++ (b ++ c)) o n = b := by
  subst ho hn
  simp [slice]

/-- A slice inside one part of a concatenation. -/
theorem slice_append_inner {a b c : List α} {k n : Nat} (h : k + n ≤ b.length) :
    slice (a ++ (b ++ c)) (a.length + k) n = slice b k n := by
  rw [slice_append_right (by omega), Nat.add_sub_cancel_left, slice_append_left h]

/-- Overwriting the middle part of a buffer. -/
theorem splice_append {pre mid post bs : List α} (h : bs.length = mid.length) :
    splice (pre ++ (mid ++ post)) pre.length bs = pre ++ (bs ++ post) := by
  have hdrop : (pre ++ (mid ++ post)).drop (pre.length + mid.length) = post := by
    rw [← List.drop_drop]
    simp
  simp only [splice, h, hdrop, List.take_left, List.append_assoc]

/-- One number of a row of numbers. -/
theorem slice_flatMap_leBytes {w : Nat} : ∀ (l : List Nat) (i : Nat) (h : i < l.length)
    (rest : List UInt8),
    slice (l.flatMap (leBytes w) ++ rest) (w * i) w = leBytes w l[i] := by
  intro l
  induction l with
  | nil => intro i h; simp at h
  | cons x l ih =>
      intro i h rest
      cases i with
      | zero =>
          simp only [List.flatMap_cons, List.append_assoc, Nat.mul_zero, List.getElem_cons_zero]
          exact slice_append_mid (a := []) rfl (leBytes_length w x).symm
      | succ i =>
          simp only [List.flatMap_cons, List.append_assoc, List.getElem_cons_succ]
          have hoff : w * (i + 1) - (leBytes w x).length = w * i := by
            rw [leBytes_length, Nat.mul_succ]
            omega
          rw [slice_append_right (by rw [leBytes_length, Nat.mul_succ]; omega), hoff]
          exact ih i (by simpa using h) rest

end Lib
