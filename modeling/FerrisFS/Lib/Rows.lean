import FerrisFS.Lib.Bytes

/-!
# Buffers made of rows of one width

Reading and overwriting a range inside one row of a flattened list of rows, and
ranges that are read or overwritten piece by piece.
-/

namespace Lib

variable {α : Type} {w : Nat}

theorem slice_add (l : List α) (off m n : Nat) :
    slice l off (m + n) = slice l off m ++ slice l (off + m) n := by
  simp only [slice, List.take_add, List.drop_drop]

theorem slice_zero (l : List α) (off : Nat) : slice l off 0 = [] := by
  simp [slice]

theorem splice_nil (l : List α) (off : Nat) : splice l off [] = l := by
  simp [splice]

/-- A range that is overwritten in two pieces. -/
theorem splice_splice {l a b : List α} {off : Nat}
    (h : off + a.length + b.length ≤ l.length) :
    splice (splice l off a) (off + a.length) b = splice l off (a ++ b) := by
  have hin : off + a.length + b.length ≤ (splice l off a).length := by
    rw [splice_length (by omega)]
    exact h
  apply List.ext_getElem?
  intro i
  have hab : off + (a ++ b).length ≤ l.length := by
    rw [List.length_append]
    omega
  rw [splice_getElem? hin, splice_getElem? (by omega), splice_getElem? hab,
    List.length_append]
  by_cases h1 : off + a.length ≤ i ∧ i < off + a.length + b.length
  · rw [if_pos h1, if_pos (by omega), List.getElem?_append_right (by omega)]
    congr 1
    omega
  · rw [if_neg h1]
    by_cases h2 : off ≤ i ∧ i < off + a.length
    · rw [if_pos h2, if_pos (by omega), List.getElem?_append_left (by omega)]
    · rw [if_neg h2, if_neg (by omega)]

/-- Every row has the width `w`. -/
def Uniform (w : Nat) (ls : List (List α)) : Prop := ∀ l ∈ ls, l.length = w

theorem Uniform.flatten_length {ls : List (List α)} (h : Uniform w ls) :
    ls.flatten.length = w * ls.length := by
  induction ls with
  | nil => simp
  | cons l ls ih =>
      rw [List.flatten_cons, List.length_append, h l List.mem_cons_self,
        ih fun x hx => h x (List.mem_cons_of_mem _ hx), List.length_cons, Nat.mul_succ]
      omega

/-- Rows before and after the `i`-th one. -/
theorem Uniform.split {ls : List (List α)} (h : Uniform w ls) {i : Nat} (hi : i < ls.length) :
    ls.flatten = (ls.take i).flatten ++ (ls[i] ++ (ls.drop (i + 1)).flatten) ∧
      (ls.take i).flatten.length = w * i := by
  constructor
  · rw [← List.flatten_cons, ← List.flatten_append, ← List.drop_eq_getElem_cons hi,
      List.take_append_drop]
  · have htake : Uniform w (ls.take i) := fun x hx => h x (List.mem_of_mem_take hx)
    rw [htake.flatten_length, List.length_take, Nat.min_eq_left (Nat.le_of_lt hi)]

theorem Uniform.slice_eq {ls : List (List α)} (h : Uniform w ls) {i o n : Nat} (hi : i < ls.length)
    (hn : o + n ≤ w) : slice ls.flatten (w * i + o) n = slice ls[i] o n := by
  obtain ⟨hsplit, hlen⟩ := h.split hi
  rw [hsplit, ← hlen]
  exact slice_append_inner (by rw [h _ (List.getElem_mem hi)]; exact hn)

theorem Uniform.splice_eq {ls : List (List α)} (h : Uniform w ls) {i o : Nat} {bs : List α}
    (hi : i < ls.length) (hn : o + bs.length ≤ w) :
    (ls.set i (splice ls[i] o bs)).flatten = splice ls.flatten (w * i + o) bs := by
  obtain ⟨hsplit, hlen⟩ := h.split hi
  have hrow : ls[i].length = w := h _ (List.getElem_mem hi)
  have hset : (ls.set i (splice ls[i] o bs)).flatten =
      (ls.take i).flatten ++ (splice ls[i] o bs ++ (ls.drop (i + 1)).flatten) := by
    rw [List.set_eq_take_append_cons_drop, if_pos hi, List.flatten_append, List.flatten_cons]
  rw [hset, hsplit, ← hlen]
  have hpre : (ls.take i).flatten ++ (ls[i] ++ (ls.drop (i + 1)).flatten) =
      ((ls.take i).flatten ++ ls[i].take o) ++
        (slice ls[i] o bs.length ++ (ls[i].drop (o + bs.length) ++
          (ls.drop (i + 1)).flatten)) := by
    have hmid : ls[i] = ls[i].take o ++ (slice ls[i] o bs.length ++
        ls[i].drop (o + bs.length)) := by
      rw [slice, ← List.drop_drop, List.take_append_drop, List.take_append_drop]
    conv_lhs => rw [hmid]
    simp only [List.append_assoc]
  have hoff : ((ls.take i).flatten ++ ls[i].take o).length = (ls.take i).flatten.length + o := by
    rw [List.length_append, List.length_take, hrow, Nat.min_eq_left (by omega)]
  rw [hpre, ← hoff, splice_append (by rw [slice_length (by omega)])]
  simp only [splice, List.append_assoc]

end Lib
