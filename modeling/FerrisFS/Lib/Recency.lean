import Mathlib.Data.List.Dedup
import Mathlib.Data.List.DropRight
import Mathlib.Logic.Function.Basic

/-!
# Doubly linked lists threaded through a map, and orders of last access

`Seg links p l n` says that the keys of `l` are chained through `links`: each one
points to the next and back, the first back to `p` and the last on to `n`. The
lemmas are the ones a list that is spliced by hand needs: what lies outside of `l`
does not matter, and the two ends can be redirected.

`recent n h` is the list such a chain is for in a cache of `n` places: the last
`n` different keys of the history `h`, the one accessed last at the end.
-/

namespace Lib

variable {κ : Type} [DecidableEq κ]

/-- The neighbours of a key. -/
@[ext] structure Link (κ : Type) where
  prev : κ
  next : κ

/-- The chain `l`, entered from `p` and left for `n`. -/
def Seg (links : κ → Option (Link κ)) : κ → List κ → κ → Prop
  | _, [], _ => True
  | p, x :: l, n => links x = some ⟨p, l.headD n⟩ ∧ Seg links x l n

/-- The keys met by following `next` from `x`, up to `stop`. -/
def follow (links : κ → Option (Link κ)) (stop : κ) : Nat → κ → List κ
  | 0, _ => []
  | fuel + 1, x =>
      if x = stop then []
      else
        match links x with
        | some e => x :: follow links stop fuel e.next
        | none => [x]

variable {links links' : κ → Option (Link κ)} {p q n m x b : κ} {l l' : List κ}

section Chains

omit [DecidableEq κ]

theorem headD_append (l l' : List κ) (n : κ) : (l ++ l').headD n = l.headD (l'.headD n) := by
  cases l <;> rfl

theorem Seg.append : Seg links p (l ++ l') n ↔
    Seg links p l (l'.headD n) ∧ Seg links (l.getLastD p) l' n := by
  induction l generalizing p with
  | nil => simp [Seg]
  | cons x l ih =>
      rw [List.cons_append, Seg, Seg, ih, headD_append, List.getLastD_cons, and_assoc]

/-- Only the links of the keys in the chain count. -/
theorem Seg.congr (h : ∀ k ∈ l, links' k = links k) : Seg links p l n ↔ Seg links' p l n := by
  induction l generalizing p with
  | nil => exact Iff.rfl
  | cons x l ih =>
      rw [Seg, Seg, h x (List.mem_cons_self ..), ih fun k hk => h k (List.mem_cons_of_mem _ hk)]

/-- A key in the middle of a chain. -/
theorem Seg.middle (h : Seg links p (l ++ x :: l') n) :
    links x = some ⟨l.getLastD p, l'.headD n⟩ := (Seg.append.mp h).2.1

/-- The way out of a chain is redirected at its last key. -/
theorem Seg.setNext (h : Seg links p (l ++ [x]) n) (hnd : (l ++ [x]).Nodup)
    (hlast : ∀ e, links x = some e → links' x = some { e with next := m })
    (hrest : ∀ k, k ≠ x → links' k = links k) : Seg links' p (l ++ [x]) m := by
  obtain ⟨hl, hx⟩ := Seg.append.mp h
  refine Seg.append.mpr ⟨(Seg.congr fun k hk => hrest k ?_).mp hl, hlast _ hx.1, trivial⟩
  rintro rfl
  exact (List.nodup_append.mp hnd).2.2 k hk k (List.mem_singleton_self k) rfl

/-- The way into a chain is redirected at its first key. -/
theorem Seg.setPrev (h : Seg links p (x :: l) n) (hnd : (x :: l).Nodup)
    (hfirst : ∀ e, links x = some e → links' x = some { e with prev := q })
    (hrest : ∀ k, k ≠ x → links' k = links k) : Seg links' q (x :: l) n := by
  refine ⟨hfirst _ h.1, (Seg.congr fun k hk => hrest k ?_).mp h.2⟩
  rintro rfl
  exact (List.nodup_cons.mp hnd).1 hk

end Chains

/-- Following a chain that ends in `stop` meets its keys in order. -/
theorem Seg.follow {stop : κ} (h : Seg links p l stop) (hstop : stop ∉ l) {fuel : Nat}
    (hfuel : l.length < fuel) : follow links stop fuel (l.headD stop) = l := by
  induction l generalizing p fuel with
  | nil =>
      obtain ⟨fuel, rfl⟩ := Nat.exists_eq_add_of_lt hfuel
      simp [Lib.follow]
  | cons x l ih =>
      obtain ⟨fuel, rfl⟩ := Nat.exists_eq_add_of_lt hfuel
      have hx : x ≠ stop := fun heq => hstop (heq ▸ List.mem_cons_self ..)
      have hlt : l.length < (x :: l).length + fuel := by
        simp only [List.length_cons]
        omega
      have hl := ih h.2 (fun hm => hstop (List.mem_cons_of_mem _ hm)) hlt
      rw [List.headD_cons, Lib.follow, if_neg hx, h.1]
      exact congrArg _ hl

/-! ## The order of last access -/

/-- The last `n` different keys of a history, in the order of their last access. -/
def recent (n : Nat) (h : List κ) : List κ := h.dedup.rtake n

/-- One access in a cache of `k` places: the key goes to the end, and a new key
takes the place of the first one when there is no other. -/
def touch (k : Nat) (l : List κ) (b : κ) : List κ :=
  (if b ∈ l then l.erase b else if l.length < k then l else l.tail) ++ [b]

theorem mem_of_mem_touch {k : Nat} (h : x ∈ touch k l b) : x ∈ l ∨ x = b := by
  rw [touch, List.mem_append, List.mem_singleton] at h
  refine h.imp_left fun hx => ?_
  split at hx
  · exact List.mem_of_mem_erase hx
  · split at hx
    · exact hx
    · exact List.mem_of_mem_tail hx

@[simp] theorem recent_nil (k : Nat) : recent k ([] : List κ) = [] := by simp [recent]

theorem dedup_snoc (h : List κ) (b : κ) : (h ++ [b]).dedup = h.dedup.erase b ++ [b] := by
  induction h with
  | nil => simp
  | cons a h ih =>
      rw [List.cons_append, List.dedup_cons, List.dedup_cons, ih]
      by_cases hab : a = b
      · subst hab
        by_cases hm : a ∈ h
        · simp [hm]
        · simp [hm, List.erase_of_not_mem]
      · by_cases hm : a ∈ h
        · simp [hm]
        · simp [hm, hab, List.erase_cons_tail]

/-- What is left of the order when `b` is taken out and a place is needed. -/
theorem rtake_erase {l : List κ} (hnd : l.Nodup) (k : Nat) (b : κ) :
    (l.erase b).rtake k = if b ∈ l.rtake (k + 1) then (l.rtake (k + 1)).erase b
      else if (l.rtake (k + 1)).length < k + 1 then l.rtake (k + 1)
      else (l.rtake (k + 1)).tail := by
  obtain ⟨older, newer, rfl, hnew, hlen⟩ : ∃ older newer, l = older ++ newer ∧
      l.rtake (k + 1) = newer ∧ older.length = l.length - (k + 1) :=
    ⟨l.take (l.length - (k + 1)), l.rtake (k + 1), (List.take_append_drop _ _).symm, rfl, by simp⟩
  rw [hnew]
  rw [List.length_append] at hlen
  obtain ⟨-, -, hdisj⟩ := List.nodup_append.mp hnd
  by_cases hb : b ∈ newer
  · have hold : b ∉ older := fun ho => hdisj b ho b hb rfl
    have hpos := List.length_pos_of_mem hb
    rw [if_pos hb, List.erase_append_right _ hold, List.rtake, List.length_append,
      List.length_erase_of_mem hb, List.drop_append_of_le_length (by omega)]
    rw [List.drop_eq_nil_of_le (by omega), List.nil_append]
  · rw [if_neg hb]
    by_cases ho : b ∈ older
    · have hpos := List.length_pos_of_mem ho
      rw [if_neg (by omega), List.erase_append_left _ ho, List.rtake, List.length_append,
        List.length_erase_of_mem ho, List.drop_append, List.drop_eq_nil_of_le
        (by rw [List.length_erase_of_mem ho]; omega), List.nil_append,
        List.length_erase_of_mem ho, ← List.drop_one]
      congr 1
      omega
    · have hn : b ∉ older ++ newer := by simp [ho, hb]
      rw [List.erase_of_not_mem hn, List.rtake, List.length_append]
      split
      · have hnil : older = [] := List.eq_nil_of_length_eq_zero (by omega)
        subst hnil
        simp only [List.length_nil, List.nil_append] at hlen ⊢
        rw [show 0 + newer.length - k = 0 by omega, List.drop_zero]
      · rw [List.drop_append, List.drop_eq_nil_of_le (by omega), List.nil_append, ← List.drop_one]
        congr 1
        omega

theorem recent_snoc {k : Nat} (hk : 0 < k) (h : List κ) (b : κ) :
    recent k (h ++ [b]) = touch k (recent k h) b := by
  obtain ⟨j, rfl⟩ : ∃ j, k = j + 1 := ⟨k - 1, by omega⟩
  rw [recent, dedup_snoc, List.rtake_concat_succ, rtake_erase (List.nodup_dedup h)]
  rfl

theorem recent_getLastD {k : Nat} (hk : 0 < k) (h : List κ) (d : κ) :
    (recent k h).getLastD d = h.getLastD d := by
  rcases List.eq_nil_or_concat h with rfl | ⟨h, b, rfl⟩
  · simp
  · rw [List.concat_eq_append, recent_snoc hk, touch, List.getLastD_concat, List.getLastD_concat]

end Lib
