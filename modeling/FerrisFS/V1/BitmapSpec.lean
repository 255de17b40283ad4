import FerrisFS.V1.View
import Mathlib.Data.List.Range

/-!
# What the bitmap allocator does

`find_free` collects the clear bits it can see, in the order it sees them: from
the byte of `last_alloc` to the end, then the blocks before that byte's block.
`modify` changes the listed bits and nothing else.
-/

namespace FerrisFS

open Lib

/-! ## Scanning -/

/-- What one level of `find_free` returns when it looks at the positions `ps`
with `res` already collected: `ok` is a clear bit below `max`. -/
def Scan.Spec (max num : Nat) (ok : Nat → Bool) (res ps : List Nat) : Scan → Prop
  | .done out => out = (res ++ ps.filter ok).take num ∧ out.length = num
  | .next out => out = res ++ ps.filter ok ∧ out.length < num
  | .stop out => out = res ++ ps.filter ok ∧ out.length < num ∧ ∃ p ∈ ps, max ≤ p

namespace Scan.Spec

variable {max num : Nat} {ok : Nat → Bool} {res ps ps' out : List Nat} {r : Scan}

theorem nil (h : res.length < num) : Scan.Spec max num ok res [] (.next res) := by
  simp [Scan.Spec, h]

theorem next_append (h : Scan.Spec max num ok res ps (.next out))
    (h' : Scan.Spec max num ok out ps' r) : Scan.Spec max num ok res (ps ++ ps') r := by
  obtain ⟨rfl, hlen⟩ := h
  cases r with
  | next o => simpa [Scan.Spec] using h'
  | done o => simpa [Scan.Spec] using h'
  | stop o =>
      obtain ⟨ho, hl, p, hp, hmax⟩ := h'
      refine ⟨by simpa using ho, hl, p, ?_, hmax⟩
      exact List.mem_append_right _ hp

theorem done_append (h : Scan.Spec max num ok res ps (.done out)) (ps' : List Nat) :
    Scan.Spec max num ok res (ps ++ ps') (.done out) := by
  obtain ⟨hout, hlen⟩ := h
  refine ⟨?_, hlen⟩
  rw [List.filter_append, ← List.append_assoc, List.take_append_of_le_length]
  · exact hout
  · rw [hout, List.length_take] at hlen
    omega

/-- Past an index at or over the limit there is nothing to collect. -/
theorem stop_append (h : Scan.Spec max num ok res ps (.stop out))
    (hok : ∀ p, ok p = true → p < max) (hps : ∀ p ∈ ps, ∀ q ∈ ps', p ≤ q) :
    Scan.Spec max num ok res (ps ++ ps') (.stop out) := by
  obtain ⟨hout, hlen, p, hp, hmax⟩ := h
  have hnil : ps'.filter ok = [] := by
    rw [List.filter_eq_nil_iff]
    intro q hq hokq
    have := hok q hokq
    have := hps p hp q hq
    omega
  refine ⟨?_, hlen, p, List.mem_append_left _ hp, hmax⟩
  rw [List.filter_append, hnil, List.append_nil]
  exact hout

theorem congr {ok' : Nat → Bool} (h : Scan.Spec max num ok res ps r)
    (hok : ∀ p ∈ ps, ok p = ok' p) : Scan.Spec max num ok' res ps r := by
  have hf : ps.filter ok = ps.filter ok' := List.filter_congr hok
  cases r <;> simpa only [Scan.Spec, hf] using h

theorem res_eq (h : Scan.Spec max num ok res ps r) :
    r.res = (res ++ ps.filter ok).take num := by
  cases r with
  | done out => exact h.1
  | next out =>
      obtain ⟨rfl, hl⟩ := h
      exact (List.take_of_length_le (Nat.le_of_lt hl)).symm
  | stop out =>
      obtain ⟨rfl, hl, -⟩ := h
      exact (List.take_of_length_le (Nat.le_of_lt hl)).symm

end Scan.Spec

namespace BitmapAllocator

/-- The bits of a byte, from bit `pos` on. -/
theorem scanBits_spec {max num offset byte : Nat} : ∀ (n pos : Nat) (res : List Nat),
    res.length < num →
    Scan.Spec max num (fun p => decide (p < max) && !byte.testBit (p - offset)) res
      (List.range' (offset + pos) n)
      (scanBits max num offset (List.range' pos n) (byte >>> pos) res) := by
  intro n
  induction n with
  | zero =>
      intro pos res h
      exact Scan.Spec.nil h
  | succ n ih =>
      intro pos res h
      have hbit : (byte >>> pos &&& 1 = 0) ↔ byte.testBit pos = false := by
        simp [Nat.testBit, Nat.and_comm]
      have hshift : byte >>> pos >>> 1 = byte >>> (pos + 1) := by
        rw [Nat.shiftRight_add]
      have hsub : offset + pos - offset = pos := by omega
      simp only [List.range'_succ, scanBits, hshift, Nat.add_assoc]
      by_cases hmax : offset + pos ≥ max
      · rw [if_pos hmax]
        refine ⟨?_, h, offset + pos, List.mem_cons_self, hmax⟩
        rw [List.filter_eq_nil_iff.mpr, List.append_nil]
        intro p hp
        have hge : offset + pos ≤ p := by
          simp only [List.mem_cons, List.mem_range'_1] at hp
          omega
        simp only [Bool.and_eq_true, decide_eq_true_eq, not_and]
        omega
      rw [if_neg hmax]
      by_cases hb : byte.testBit pos = false
      · rw [if_pos (hbit.mpr hb)]
        have hone : Scan.Spec max num
            (fun p => decide (p < max) && !byte.testBit (p - offset)) res [offset + pos]
            (if (res ++ [offset + pos]).length = num then .done (res ++ [offset + pos])
              else .next (res ++ [offset + pos])) := by
          have hf : [offset + pos].filter
              (fun p => decide (p < max) && !byte.testBit (p - offset)) = [offset + pos] := by
            simp [hsub, hb, Nat.not_le.mp hmax]
          split
          · rename_i hl
            refine ⟨?_, hl⟩
            rw [hf, List.take_of_length_le (Nat.le_of_eq hl)]
          · rename_i hl
            refine ⟨by rw [hf], ?_⟩
            simp only [List.length_append, List.length_singleton] at hl ⊢
            omega
        by_cases hl : (res ++ [offset + pos]).length = num
        · rw [if_pos hl]
          rw [if_pos hl] at hone
          exact Scan.Spec.done_append hone _
        · rw [if_neg hl]
          rw [if_neg hl] at hone
          exact Scan.Spec.next_append hone (ih (pos + 1) _ hone.2)
      · rw [if_neg (fun hc => hb (hbit.mp hc))]
        have hskip : Scan.Spec max num
            (fun p => decide (p < max) && !byte.testBit (p - offset)) res [offset + pos]
            (.next res) := by
          refine ⟨?_, h⟩
          simp [hsub, hb]
        exact Scan.Spec.next_append hskip (ih (pos + 1) _ h)

/-- Position `p` of the bitmap, in the block that covers it. -/
def bitOf (buf : Block) (p : Nat) : Bool :=
  (buf.byte (p / 8 % BLOCK_SIZE)).toNat.testBit (p % 8)

private theorem testBit_255 {i : Nat} (h : i < 8) : Nat.testBit 255 i = true := by
  have := Nat.testBit_two_pow_sub_one 8 i
  simp [h] at this
  exact this

/-- The index of the first bit of byte `j` of bitmap block `i`. -/
def firstBit (i j : Nat) : Nat := (j + i * BLOCK_SIZE) * 8

/-- The positions of byte `j`, and those of the bytes after it. -/
theorem range'_bytes (i j n : Nat) : List.range' (firstBit i j) (8 * (n + 1)) =
    List.range' (firstBit i j) 8 ++ List.range' (firstBit i (j + 1)) (8 * n) := by
  have hnext : firstBit i (j + 1) = firstBit i j + 8 := by
    simp only [firstBit]
    omega
  rw [hnext, show 8 * (n + 1) = 8 + 8 * n by omega, List.range'_append_1]

theorem position_in_byte {i j p : Nat} (hj : j < BLOCK_SIZE)
    (hp : p ∈ List.range' (firstBit i j) 8) :
    p / 8 % BLOCK_SIZE = j ∧ p % 8 = p - firstBit i j ∧ p % 8 < 8 := by
  simp only [List.mem_range'_1, firstBit, BLOCK_SIZE] at hp hj ⊢
  omega

/-- What a scan of bytes that ends well has collected. -/
theorem scanBytes_spec {max num i : Nat} {buf : Block} {d d' : MemoryDevice} {r : Scan} :
    ∀ (n j : Nat) (res : List Nat), j + n ≤ BLOCK_SIZE → res.length < num →
      scanBytes max num i buf (List.range' j n) res d = .ok r d' →
        d' = d ∧ Scan.Spec max num (fun p => decide (p < max) && !bitOf buf p) res
          (List.range' (firstBit i j) (8 * n)) r := by
  intro n
  induction n with
  | zero =>
      intro j res _ h hrun
      cases hrun
      exact ⟨rfl, Scan.Spec.nil h⟩
  | succ n ih =>
      intro j res hj h hrun
      simp only [BLOCK_SIZE] at hj
      have hpos : ∀ p ∈ List.range' (firstBit i j) 8,
          p / 8 % BLOCK_SIZE = j ∧ p % 8 = p - firstBit i j ∧ p % 8 < 8 :=
        fun p hp => position_in_byte (by simp only [BLOCK_SIZE]; omega) hp
      have hlater : ∀ p ∈ List.range' (firstBit i j) 8,
          ∀ q ∈ List.range' (firstBit i (j + 1)) (8 * n), p ≤ q := by
        intro p hp q hq
        simp only [List.mem_range'_1, firstBit] at hp hq
        omega
      simp only [List.range'_succ, scanBytes] at hrun
      rw [range'_bytes]
      -- a byte of ones is passed over before an index is made for it
      by_cases hfull : buf.byte j = 255
      · rw [if_pos hfull] at hrun
        obtain ⟨hd, hrest⟩ := ih (j + 1) res (by simp only [BLOCK_SIZE]; omega) h hrun
        refine ⟨hd, Scan.Spec.next_append ⟨?_, h⟩ hrest⟩
        rw [List.filter_eq_nil_iff.mpr, List.append_nil]
        intro p hp
        obtain ⟨hbyte, -, hlt⟩ := hpos p hp
        simp only [bitOf, hbyte, hfull]
        simp [testBit_255 hlt]
      rw [if_neg hfull] at hrun
      obtain ⟨offset, d₁, hoffset, hbits⟩ := Prog.of_ok_bind hrun
      obtain ⟨hfirst, hd⟩ : offset = firstBit i j ∧ d₁ = d := Prog.of_checkedAdd_ok hoffset
      rw [hfirst, hd] at hbits
      have hbyte : Scan.Spec max num (fun p => decide (p < max) && !bitOf buf p) res
          (List.range' (firstBit i j) 8)
          (scanBits max num (firstBit i j) (List.range 8) (buf.byte j).toNat res) := by
        have hspec := @scanBits_spec max _ (firstBit i j) (buf.byte j).toNat 8 0 res h
        rw [List.range_eq_range']
        refine Scan.Spec.congr hspec fun p hp => ?_
        obtain ⟨hb, hsub, -⟩ := hpos p (by simpa using hp)
        simp only [bitOf, hb, hsub]
      have hbelow : ∀ p, (decide (p < max) && !bitOf buf p) = true → p < max := by
        intro p hp
        simp only [Bool.and_eq_true, decide_eq_true_eq] at hp
        exact hp.1
      cases hscan : scanBits max num (firstBit i j) (List.range 8) (buf.byte j).toNat res with
      | next res' =>
          rw [hscan] at hbyte hbits
          obtain ⟨hd', hrest⟩ := ih (j + 1) res' (by simp only [BLOCK_SIZE]; omega) hbyte.2 hbits
          exact ⟨hd', hbyte.next_append hrest⟩
      | done res' =>
          rw [hscan] at hbyte hbits
          cases hbits
          exact ⟨rfl, hbyte.done_append _⟩
      | stop res' =>
          rw [hscan] at hbyte hbits
          cases hbits
          exact ⟨rfl, hbyte.stop_append hbelow hlater⟩

/-- The indices of a block that lies below the first 2^32 bits are `u32`. -/
theorem getIndex_of_lt {i j : Nat} {d : MemoryDevice} (hi : i < 2 ^ 21) (hj : j < BLOCK_SIZE) :
    getIndex i j 0 d = .ok (firstBit i j) d := by
  apply Prog.checkedAdd_of_lt
  simp only [BLOCK_SIZE, U32] at hj ⊢
  omega

/-- The bytes of such a block can be scanned. -/
theorem scanBytes_total {max num i : Nat} {buf : Block} {d : MemoryDevice} (hi : i < 2 ^ 21) :
    ∀ (n j : Nat) (res : List Nat), j + n ≤ BLOCK_SIZE →
      ∃ r, scanBytes max num i buf (List.range' j n) res d = .ok r d := by
  intro n
  induction n with
  | zero =>
      intro j res _
      exact ⟨.next res, rfl⟩
  | succ n ih =>
      intro j res hj
      simp only [List.range'_succ, scanBytes]
      split
      · exact ih (j + 1) res (by omega)
      · rw [Prog.bind_of_ok (getIndex_of_lt hi (by omega))]
        cases scanBits max num (firstBit i j) (List.range 8) (buf.byte j).toNat res with
        | next res' => exact ih (j + 1) res' (by omega)
        | done res' => exact ⟨.done res', rfl⟩
        | stop res' => exact ⟨.stop res', rfl⟩

/-- The bitmap lies on the device. -/
structure Within (a : BitmapAllocator) (d : MemoryDevice) : Prop where
  fits : a.start + a.size ≤ d.blockCount
  small : d.blockCount < U32

/-- Every bit of the bitmap has a `u32` index. -/
def Indexed (a : BitmapAllocator) : Prop := 2048 * a.size ≤ U32

instance {a : BitmapAllocator} : Decidable a.Indexed := inferInstanceAs (Decidable (_ ≤ _))

variable {a : BitmapAllocator} {d : MemoryDevice} {num : Nat}

theorem Indexed.lt (h : a.Indexed) {i : Nat} (hi : i < a.size) : i < 2 ^ 21 := by
  rw [Indexed, U32] at h
  omega

theorem Within.read (h : a.Within d) {i : Nat} (hi : i < a.size) {β : Type}
    (f : Block → DevM β) :
    (add32 i a.start >>= fun addr => readBlock addr >>= f) d = f (d.block (a.start + i)) d := by
  have hfits := h.fits
  have hsmall := h.small
  rw [Prog.bind_of_ok (Prog.checkedAdd_of_lt (by omega)), Nat.add_comm,
    Prog.bind_of_ok (readBlock_of_lt (by omega))]

/-- A block that was read, wherever it lies. -/
theorem of_read_ok {i : Nat} {β : Type} {f : Block → DevM β} {b : β} {d' : MemoryDevice}
    (h : (add32 i a.start >>= fun addr => readBlock addr >>= f) d = .ok b d') :
    f (d.block (a.start + i)) d = .ok b d' := by
  obtain ⟨addr, d₁, hadd, h⟩ := Prog.of_ok_bind h
  obtain ⟨buf, d₂, hread, h⟩ := Prog.of_ok_bind h
  obtain ⟨rfl, rfl⟩ := Prog.of_checkedAdd_ok hadd
  unfold readBlock at hread
  split at hread
  · cases hread
  · cases hread
    rw [Nat.add_comm]
    exact h

theorem isAllocated_of_le {i : Nat} (hmax : i ≤ a.maxIndex) : a.isAllocated i = (do
    let addr ← add32 a.start (i / 8 / BLOCK_SIZE)
    let buf ← readBlock addr
    pure (bitOf buf i)) := by
  have hbit : ∀ x k : Nat, (x &&& (1 <<< k) != 0) = x.testBit k := by
    intro x k
    rw [Nat.one_shiftLeft, Nat.and_two_pow]
    cases x.testBit k with
    | false => simp
    | true => simp
  rw [isAllocated, if_neg (by omega)]
  simp only [unpackIndex, hbit]
  rfl

theorem isAllocated_eq {i : Nat} (hw : a.Within d) (hmax : i ≤ a.maxIndex)
    (hbits : i < 2048 * a.size) : a.isAllocated i d = .ok (d.bitAt a.start i) d := by
  have hblk : i / 8 / BLOCK_SIZE < a.size := by
    simp only [BLOCK_SIZE]
    omega
  have hfits := hw.fits
  have hsmall := hw.small
  rw [isAllocated_of_le hmax, Prog.bind_of_ok (Prog.checkedAdd_of_lt (by omega)),
    Prog.bind_of_ok (readBlock_of_lt (by omega))]
  rfl

/-- The positions a scan looks at in the given blocks. -/
def positions (lo hi : Nat → Nat) (bs : List Nat) : List Nat :=
  bs.flatMap fun i => List.range' (firstBit i (lo i)) (8 * (hi i - lo i))

/-- A clear bit that may be handed out. -/
def free (a : BitmapAllocator) (d : MemoryDevice) (p : Nat) : Bool :=
  decide (p < a.maxIndex) && !d.bitAt a.start p

/-- What a scan that ends well has collected. -/
theorem scanBlocks_sound (lo hi : Nat → Nat) (hhi : ∀ i, hi i ≤ BLOCK_SIZE)
    (hlo : ∀ i, lo i ≤ hi i) {d' : MemoryDevice} {r : Scan} :
    ∀ (bs res : List Nat), bs.Pairwise (· < ·) → res.length < num →
      scanBlocks a num lo hi bs res d = .ok r d' →
        d' = d ∧ Scan.Spec a.maxIndex num (a.free d) res (positions lo hi bs) r := by
  intro bs
  induction bs with
  | nil =>
      intro res _ h hrun
      cases hrun
      exact ⟨rfl, Scan.Spec.nil h⟩
  | cons i bs ih =>
      intro res hsorted h hrun
      obtain ⟨hlt, hsorted⟩ := List.pairwise_cons.mp hsorted
      simp only [scanBlocks] at hrun
      obtain ⟨r₁, d₁, hscan, hrun⟩ := Prog.of_ok_bind (of_read_ok hrun)
      have h1 := hlo i
      have h2 := hhi i
      obtain ⟨rfl, hbytes⟩ := scanBytes_spec _ _ res (by omega) h hscan
      have hhere : Scan.Spec a.maxIndex num (a.free d₁) res
          (List.range' (firstBit i (lo i)) (8 * (hi i - lo i))) r₁ := by
        refine hbytes.congr fun p hp => ?_
        have hblk : p / 8 / BLOCK_SIZE = i := by
          simp only [List.mem_range'_1, firstBit, BLOCK_SIZE] at hp h2 ⊢
          omega
        simp only [free, MemoryDevice.bitAt, bitOf, hblk]
      have hlater : ∀ p ∈ List.range' (firstBit i (lo i)) (8 * (hi i - lo i)),
          ∀ q ∈ positions lo hi bs, p ≤ q := by
        intro p hp q hq
        simp only [positions, List.mem_flatMap] at hq
        obtain ⟨k, hk, hq⟩ := hq
        have hik := hlt k hk
        simp only [List.mem_range'_1, firstBit, BLOCK_SIZE] at hp hq h2
        omega
      have hok : ∀ p, a.free d₁ p = true → p < a.maxIndex := by
        intro p hp
        simp only [free, Bool.and_eq_true, decide_eq_true_eq] at hp
        exact hp.1
      have hcons : positions lo hi (i :: bs) =
          List.range' (firstBit i (lo i)) (8 * (hi i - lo i)) ++ positions lo hi bs := by
        simp only [positions, List.flatMap_cons]
      rw [hcons]
      cases r₁ with
      | next res' =>
          obtain ⟨hd, hspec⟩ := ih res' hsorted hhere.2 hrun
          exact ⟨hd, hhere.next_append hspec⟩
      | done res' =>
          cases hrun
          exact ⟨rfl, hhere.done_append _⟩
      | stop res' =>
          cases hrun
          exact ⟨rfl, hhere.stop_append hok hlater⟩

/-- The blocks of the bitmap can be scanned. -/
theorem scanBlocks_total (lo hi : Nat → Nat) (hhi : ∀ i, hi i ≤ BLOCK_SIZE)
    (hlo : ∀ i, lo i ≤ hi i) (hw : a.Within d) (hx : a.Indexed) : ∀ (bs res : List Nat),
    (∀ i ∈ bs, i < a.size) → ∃ r, scanBlocks a num lo hi bs res d = .ok r d := by
  intro bs
  induction bs with
  | nil =>
      intro res _
      exact ⟨.next res, rfl⟩
  | cons i bs ih =>
      intro res hsize
      have hi' := hsize i List.mem_cons_self
      have h1 := hlo i
      have h2 := hhi i
      obtain ⟨r, hr⟩ := @scanBytes_total a.maxIndex num i (d.block (a.start + i)) d
        (hx.lt hi') (hi i - lo i) (lo i) res (by omega)
      simp only [scanBlocks]
      rw [hw.read hi', Prog.bind_of_ok hr]
      cases r with
      | next res' => exact ih res' fun k hk => hsize k (List.mem_cons_of_mem _ hk)
      | done res' => exact ⟨.done res', rfl⟩
      | stop res' => exact ⟨.stop res', rfl⟩

theorem positions_full : ∀ (n i : Nat),
    positions (fun _ => 0) (fun _ => BLOCK_SIZE) (List.range' i n) =
      List.range' (2048 * i) (2048 * n) := by
  intro n
  induction n with
  | zero => intro i; rfl
  | succ n ih =>
      intro i
      have hstart : firstBit i 0 = 2048 * i := by
        simp only [firstBit, BLOCK_SIZE]
        omega
      have hlen : 8 * (BLOCK_SIZE - 0) = 2048 := rfl
      have htail := ih (i + 1)
      simp only [positions] at htail ⊢
      rw [List.range'_succ, List.flatMap_cons, htail, hstart, hlen,
        show 2048 * (i + 1) = 2048 * i + 2048 by omega, List.range'_append_1,
        show 2048 + 2048 * n = 2048 * (n + 1) by omega]

/-- The positions `find_free` looks at, in order. The bytes of the starting block
before the starting byte are not among them. -/
def visible (a : BitmapAllocator) : List Nat :=
  List.range' (8 * (a.lastAlloc / 8)) (2048 * a.size - 8 * (a.lastAlloc / 8)) ++
    List.range (2048 * (a.lastAlloc / 2048))

private theorem positions_first {k j : Nat} (hj : j < BLOCK_SIZE) :
    positions (fun i => if i = k then j else 0) (fun _ => BLOCK_SIZE)
      (List.range' k (a.size - k)) =
    List.range' (2048 * k + 8 * j) (2048 * a.size - (2048 * k + 8 * j)) := by
  by_cases hk : k < a.size
  · obtain ⟨n, hn⟩ : ∃ n, a.size - k = n + 1 := ⟨a.size - k - 1, by omega⟩
    have hrest : positions (fun i => if i = k then j else 0) (fun _ => BLOCK_SIZE)
        (List.range' (k + 1) n) = List.range' (2048 * (k + 1)) (2048 * n) := by
      rw [← positions_full]
      refine List.flatMap_congr fun i hi => ?_
      rw [List.mem_range'_1] at hi
      simp only [show i ≠ k by omega, if_false]
    have hcons : positions (fun i => if i = k then j else 0) (fun _ => BLOCK_SIZE)
        (k :: List.range' (k + 1) n) =
        List.range' (firstBit k j) (8 * (BLOCK_SIZE - j)) ++
          positions (fun i => if i = k then j else 0) (fun _ => BLOCK_SIZE)
            (List.range' (k + 1) n) := by
      simp only [positions, List.flatMap_cons, if_true]
    have hstart : firstBit k j = 2048 * k + 8 * j := by
      simp only [firstBit, BLOCK_SIZE]
      omega
    simp only [BLOCK_SIZE] at hj
    rw [hn, List.range'_succ, hcons, hrest, hstart,
      show 2048 * (k + 1) = 2048 * k + 8 * j + 8 * (BLOCK_SIZE - j) by
        simp only [BLOCK_SIZE]; omega,
      List.range'_append_1]
    congr 1
    simp only [BLOCK_SIZE]
    omega
  · -- a cursor behind the bitmap: the first pass reads nothing
    rw [show a.size - k = 0 by omega, show 2048 * a.size - (2048 * k + 8 * j) = 0 by omega]
    rfl

/-- The restart looks at the blocks before the starting one. -/
private theorem positions_restart : positions (fun _ => 0)
    (fun i => if i = a.lastAlloc / 8 / BLOCK_SIZE then a.lastAlloc / 8 % BLOCK_SIZE
      else BLOCK_SIZE) (List.range (a.lastAlloc / 8 / BLOCK_SIZE)) =
    List.range (2048 * (a.lastAlloc / 2048)) := by
  have hdiv : a.lastAlloc / 8 / BLOCK_SIZE = a.lastAlloc / 2048 := by
    rw [Nat.div_div_eq_div_mul]
    rfl
  have hfull := positions_full (a.lastAlloc / 2048) 0
  rw [Nat.mul_zero, ← List.range_eq_range', ← List.range_eq_range'] at hfull
  rw [← hfull, hdiv]
  refine List.flatMap_congr fun i hi => ?_
  rw [List.mem_range] at hi
  simp only [show i ≠ a.lastAlloc / 2048 by omega, if_false]

/-- What `find_free` returns, wherever its cursor stands: the first `num` free positions
it can see. -/
theorem findFree_sound {num : Nat} {l : List Nat} {d' : MemoryDevice}
    (hrun : a.findFree num d = .ok l d') :
    d' = d ∧ l = (a.visible.filter (a.free d)).take num := by
  rw [findFree] at hrun
  split at hrun
  · rename_i hnum
    cases hrun
    subst hnum
    exact ⟨rfl, rfl⟩
  rename_i hnum
  have hj : a.lastAlloc / 8 % BLOCK_SIZE < BLOCK_SIZE := Nat.mod_lt _ (by decide)
  have hbyte : 2048 * (a.lastAlloc / 8 / BLOCK_SIZE) + 8 * (a.lastAlloc / 8 % BLOCK_SIZE) =
      8 * (a.lastAlloc / 8) := by
    simp only [BLOCK_SIZE]
    omega
  obtain ⟨r, d₁, hfirst, hrun⟩ := Prog.of_ok_bind hrun
  obtain ⟨rfl, hspec⟩ := scanBlocks_sound _ _ (fun _ => Nat.le_refl _)
    (fun i => by split <;> omega) _ _ List.pairwise_lt_range'
    (by simp; omega) hfirst
  rw [positions_first hj, hbyte] at hspec
  have rest : ∀ out, out = (List.range' (8 * (a.lastAlloc / 8))
        (2048 * a.size - 8 * (a.lastAlloc / 8))).filter (a.free d₁) → out.length < num →
      (scanBlocks a num (fun _ => 0)
        (fun i => if i = a.lastAlloc / 8 / BLOCK_SIZE then a.lastAlloc / 8 % BLOCK_SIZE
          else BLOCK_SIZE)
        (List.range (a.lastAlloc / 8 / BLOCK_SIZE)) out >>= fun r => pure r.res) d₁ =
      .ok l d' → d' = d₁ ∧ l = (a.visible.filter (a.free d₁)).take num := by
    intro out hout hlen hrun
    obtain ⟨r', d₂, hsecond, hret⟩ := Prog.of_ok_bind hrun
    obtain ⟨rfl, hspec'⟩ := scanBlocks_sound _ _ (fun i => by split <;> omega)
      (fun _ => Nat.zero_le _) _ _ List.pairwise_lt_range hlen hsecond
    rw [positions_restart] at hspec'
    cases hret
    exact ⟨rfl, by rw [hspec'.res_eq, visible, List.filter_append, hout]⟩
  cases r with
  | done out =>
      have hall := (hspec.done_append (List.range (2048 * (a.lastAlloc / 2048)))).1
      cases hrun
      exact ⟨rfl, hall⟩
  | next out => exact rest out hspec.1 hspec.2 hrun
  | stop out => exact rest out hspec.1 hspec.2.1 hrun

/-- With its cursor in the bitmap, `find_free` reads only blocks of the bitmap. -/
theorem findFree_total (hw : a.Within d) (hx : a.Indexed)
    (hlast : a.lastAlloc < 2048 * a.size) (num : Nat) :
    ∃ l, a.findFree num d = .ok l d := by
  have hk : a.lastAlloc / 8 / BLOCK_SIZE < a.size := by
    simp only [BLOCK_SIZE]
    omega
  have hj : a.lastAlloc / 8 % BLOCK_SIZE < BLOCK_SIZE := Nat.mod_lt _ (by decide)
  rw [findFree]
  split
  · exact ⟨[], rfl⟩
  obtain ⟨r, hr⟩ := @scanBlocks_total a d num
    (fun i => if i = a.lastAlloc / 8 / BLOCK_SIZE then a.lastAlloc / 8 % BLOCK_SIZE else 0)
    (fun _ => BLOCK_SIZE) (fun _ => Nat.le_refl _) (fun i => by split <;> omega) hw hx
    (List.range' (a.lastAlloc / 8 / BLOCK_SIZE) (a.size - a.lastAlloc / 8 / BLOCK_SIZE)) []
    (fun i hi => by rw [List.mem_range'_1] at hi; omega)
  have second : ∀ res, ∃ l, (scanBlocks a num (fun _ => 0)
        (fun i => if i = a.lastAlloc / 8 / BLOCK_SIZE then a.lastAlloc / 8 % BLOCK_SIZE
          else BLOCK_SIZE)
        (List.range (a.lastAlloc / 8 / BLOCK_SIZE)) res >>= fun r => pure r.res) d = .ok l d := by
    intro res
    obtain ⟨r', hr'⟩ := @scanBlocks_total a d num (fun _ => 0)
      (fun i => if i = a.lastAlloc / 8 / BLOCK_SIZE then a.lastAlloc / 8 % BLOCK_SIZE
        else BLOCK_SIZE) (fun i => by split <;> omega) (fun _ => Nat.zero_le _) hw hx
      (List.range (a.lastAlloc / 8 / BLOCK_SIZE)) res
      (fun i hi => by rw [List.mem_range] at hi; omega)
    exact ⟨r'.res, Prog.bind_of_ok hr' _⟩
  cases r with
  | done out => exact ⟨out, Prog.bind_of_ok hr _⟩
  | next out =>
      obtain ⟨l, hl⟩ := second out
      exact ⟨l, (Prog.bind_of_ok hr _).trans hl⟩
  | stop out =>
      obtain ⟨l, hl⟩ := second out
      exact ⟨l, (Prog.bind_of_ok hr _).trans hl⟩

/-- `find_free` returns the first `num` free positions it can see. -/
theorem findFree_eq (hw : a.Within d) (hx : a.Indexed) (hlast : a.lastAlloc < 2048 * a.size)
    (num : Nat) :
    a.findFree num d = .ok ((a.visible.filter (a.free d)).take num) d := by
  obtain ⟨l, hl⟩ := findFree_total hw hx hlast num
  rw [hl, (findFree_sound hl).2]

/-! ## Counting -/

/-- What one level of `count_allocated` returns when it looks at the positions `ps`
with `count` already counted: `ok` is a set bit below `max`. -/
def CountSpec (max : Nat) (ok : Nat → Bool) (count : Nat) (ps : List Nat) (r : Nat × Bool) :
    Prop :=
  r.1 = count + (ps.filter ok).length ∧ (r.2 = true → ∃ p ∈ ps, max ≤ p)

namespace CountSpec

variable {max count : Nat} {ok : Nat → Bool} {ps ps' : List Nat} {r r' : Nat × Bool}

theorem nil : CountSpec max ok count [] (count, false) := ⟨rfl, nofun⟩

theorem append (h : CountSpec max ok count ps r) (h' : CountSpec max ok r.1 ps' r') :
    CountSpec max ok count (ps ++ ps') r' := by
  constructor
  · rw [List.filter_append, List.length_append, h'.1, h.1, Nat.add_assoc]
  · intro hstop
    obtain ⟨p, hp, hmax⟩ := h'.2 hstop
    exact ⟨p, List.mem_append_right _ hp, hmax⟩

/-- Past an index at or over the limit there is nothing to count. -/
theorem stop_append (h : CountSpec max ok count ps r) (hstop : r.2 = true)
    (hok : ∀ p, ok p = true → p < max) (hps : ∀ p ∈ ps, ∀ q ∈ ps', p ≤ q) :
    CountSpec max ok count (ps ++ ps') r := by
  obtain ⟨p, hp, hmax⟩ := h.2 hstop
  have hnil : ps'.filter ok = [] := by
    rw [List.filter_eq_nil_iff]
    intro q hq hokq
    have := hok q hokq
    have := hps p hp q hq
    omega
  constructor
  · rw [List.filter_append, hnil, List.append_nil]
    exact h.1
  · intro _
    exact ⟨p, List.mem_append_left _ hp, hmax⟩

theorem congr {ok' : Nat → Bool} (h : CountSpec max ok count ps r)
    (hok : ∀ p ∈ ps, ok p = ok' p) : CountSpec max ok' count ps r := by
  rw [CountSpec, ← List.filter_congr hok]
  exact h

end CountSpec

theorem countBits_spec {max offset byte : Nat} : ∀ (n pos count : Nat),
    CountSpec max (fun p => decide (p < max) && byte.testBit (p - offset)) count
      (List.range' (offset + pos) n)
      (countBits max offset (List.range' pos n) (byte >>> pos) count) := by
  intro n
  induction n with
  | zero =>
      intro pos count
      exact CountSpec.nil
  | succ n ih =>
      intro pos count
      have hbit : (byte >>> pos &&& 1 ≠ 0) ↔ byte.testBit pos = true := by
        simp [Nat.testBit, Nat.and_comm]
      have hshift : byte >>> pos >>> 1 = byte >>> (pos + 1) := by
        rw [Nat.shiftRight_add]
      have hsub : offset + pos - offset = pos := by omega
      simp only [List.range'_succ, countBits, hshift, Nat.add_assoc]
      by_cases hmax : offset + pos ≥ max
      · rw [if_pos hmax]
        have hhead : CountSpec max (fun p => decide (p < max) && byte.testBit (p - offset)) count
            [offset + pos] (count, true) := by
          constructor
          · simp [Nat.not_lt.mpr hmax]
          · intro _
            exact ⟨offset + pos, List.mem_singleton_self _, hmax⟩
        apply hhead.stop_append rfl
        · intro p hp
          simp only [Bool.and_eq_true, decide_eq_true_eq] at hp
          exact hp.1
        · intro p hp q hq
          rw [List.mem_singleton] at hp
          rw [List.mem_range'_1] at hq
          omega
      · rw [if_neg hmax]
        have hhead : CountSpec max (fun p => decide (p < max) && byte.testBit (p - offset)) count
            [offset + pos] (if byte >>> pos &&& 1 ≠ 0 then count + 1 else count, false) := by
          refine ⟨?_, nofun⟩
          simp only [hbit, List.filter_cons, List.filter_nil, hsub, Nat.not_le.mp hmax, decide_true,
            Bool.true_and]
          split <;> rfl
        exact hhead.append (ih (pos + 1) _)

/-- What a count of bytes that ends well has counted. -/
theorem countBytes_spec {max i : Nat} {buf : Block} {d' : MemoryDevice} {r : Nat × Bool} :
    ∀ (n j count : Nat), j + n ≤ BLOCK_SIZE →
      countBytes max i buf (List.range' j n) count d = .ok r d' →
        d' = d ∧ CountSpec max (fun p => decide (p < max) && bitOf buf p) count
          (List.range' (firstBit i j) (8 * n)) r := by
  intro n
  induction n with
  | zero =>
      intro j count _ hrun
      cases hrun
      exact ⟨rfl, CountSpec.nil⟩
  | succ n ih =>
      intro j count hj hrun
      simp only [List.range'_succ, countBytes] at hrun
      rw [range'_bytes]
      by_cases hzero : buf.byte j = 0
      · rw [if_pos hzero] at hrun
        obtain ⟨hd, hrest⟩ := ih (j + 1) count (by omega) hrun
        refine ⟨hd, CountSpec.append (r := (count, false)) ⟨?_, nofun⟩ hrest⟩
        rw [List.filter_eq_nil_iff.mpr]
        · rfl
        · intro p hp
          obtain ⟨hbyte, -, -⟩ := position_in_byte (by omega) hp
          simp [bitOf, hbyte, hzero]
      · rw [if_neg hzero] at hrun
        obtain ⟨offset, d₁, hoffset, hbits⟩ := Prog.of_ok_bind hrun
        obtain ⟨hfirst, hd⟩ : offset = firstBit i j ∧ d₁ = d := Prog.of_checkedAdd_ok hoffset
        rw [hfirst, hd] at hbits
        have hbyte : CountSpec max (fun p => decide (p < max) && bitOf buf p) count
            (List.range' (firstBit i j) 8)
            (countBits max (firstBit i j) (List.range 8) (buf.byte j).toNat count) := by
          have hspec := @countBits_spec max (firstBit i j) (buf.byte j).toNat 8 0 count
          rw [List.range_eq_range']
          apply hspec.congr
          intro p hp
          rw [Nat.add_zero] at hp
          obtain ⟨hb, hsub, -⟩ := position_in_byte (by omega) hp
          simp only [bitOf, hb, hsub]
        cases hcount : countBits max (firstBit i j) (List.range 8) (buf.byte j).toNat count with
        | mk count' stop =>
            rw [hcount] at hbyte hbits
            cases stop with
            | false =>
                obtain ⟨hd', hrest⟩ := ih (j + 1) count' (by omega) hbits
                exact ⟨hd', hbyte.append hrest⟩
            | true =>
                cases hbits
                refine ⟨rfl, hbyte.stop_append rfl ?_ ?_⟩
                · intro p hp
                  simp only [Bool.and_eq_true, decide_eq_true_eq] at hp
                  exact hp.1
                · intro p hp q hq
                  simp only [List.mem_range'_1, firstBit] at hp hq
                  omega

/-- The set bits of a block below the first 2^32 bits can be counted. -/
theorem countBytes_total {max i : Nat} {buf : Block} (hi : i < 2 ^ 21) :
    ∀ (n j count : Nat), j + n ≤ BLOCK_SIZE →
      ∃ r, countBytes max i buf (List.range' j n) count d = .ok r d := by
  intro n
  induction n with
  | zero =>
      intro j count _
      exact ⟨_, rfl⟩
  | succ n ih =>
      intro j count hj
      simp only [List.range'_succ, countBytes]
      split
      · exact ih (j + 1) count (by omega)
      · rw [Prog.bind_of_ok (getIndex_of_lt hi (by omega))]
        cases countBits max (firstBit i j) (List.range 8) (buf.byte j).toNat count with
        | mk count' stop =>
            cases stop with
            | false => exact ih (j + 1) count' (by omega)
            | true => exact ⟨_, rfl⟩

/-- The set bits that stand for an index. -/
def allocated (a : BitmapAllocator) (d : MemoryDevice) : List Nat :=
  (List.range (2048 * a.size)).filter fun p => decide (p < a.maxIndex) && d.bitAt a.start p

theorem countBlocks_spec {d' : MemoryDevice} {c : Nat} : ∀ (n i count : Nat),
    countBlocks a (List.range' i n) count d = .ok c d' →
      d' = d ∧ c = count + ((List.range' (2048 * i) (2048 * n)).filter fun p =>
        decide (p < a.maxIndex) && d.bitAt a.start p).length := by
  intro n
  induction n with
  | zero =>
      intro i count hrun
      cases hrun
      exact ⟨rfl, rfl⟩
  | succ n ih =>
      intro i count hrun
      rw [@List.range'_succ i n 1] at hrun
      obtain ⟨⟨count', stop⟩, d₁, hcount, hrest⟩ := Prog.of_ok_bind (of_read_ok hrun)
      rw [List.range_eq_range'] at hcount
      obtain ⟨hd, hspec⟩ := countBytes_spec BLOCK_SIZE 0 count (by omega) hcount
      rw [hd] at hrest
      rw [show firstBit i 0 = 2048 * i by simp only [firstBit, BLOCK_SIZE]; omega] at hspec
      have hhere : CountSpec a.maxIndex (fun p => decide (p < a.maxIndex) && d.bitAt a.start p)
          count (List.range' (2048 * i) 2048) (count', stop) := by
        apply hspec.congr
        intro p hp
        have hblk : p / 8 / BLOCK_SIZE = i := by
          simp only [List.mem_range'_1, BLOCK_SIZE] at hp ⊢
          omega
        simp only [MemoryDevice.bitAt, bitOf, hblk]
      have hsplit : List.range' (2048 * i) (2048 * (n + 1)) =
          List.range' (2048 * i) 2048 ++ List.range' (2048 * (i + 1)) (2048 * n) := by
        rw [show 2048 * (i + 1) = 2048 * i + 2048 by omega, List.range'_append_1,
          show 2048 + 2048 * n = 2048 * (n + 1) by omega]
      rw [hsplit]
      cases stop with
      | false =>
          obtain ⟨hd', hlen⟩ := ih (i + 1) count' hrest
          have hbelow : count' = count + _ := hhere.1
          refine ⟨hd', ?_⟩
          rw [List.filter_append, List.length_append, hlen, hbelow, Nat.add_assoc]
      | true =>
          cases hrest
          refine ⟨rfl, (hhere.stop_append rfl ?_ ?_).1⟩
          · intro p hp
            simp only [Bool.and_eq_true, decide_eq_true_eq] at hp
            exact hp.1
          · intro p hp q hq
            simp only [List.mem_range'_1] at hp hq
            omega

/-- The blocks of the bitmap can be counted. -/
theorem countBlocks_total (hw : a.Within d) (hx : a.Indexed) : ∀ (n i count : Nat),
    i + n ≤ a.size → ∃ c, countBlocks a (List.range' i n) count d = .ok c d := by
  intro n
  induction n with
  | zero =>
      intro i count _
      exact ⟨count, rfl⟩
  | succ n ih =>
      intro i count hi
      obtain ⟨⟨count', stop⟩, hcount⟩ := @countBytes_total d a.maxIndex i
        (d.block (a.start + i)) (hx.lt (by omega)) BLOCK_SIZE 0 count (by omega)
      rw [← List.range_eq_range'] at hcount
      rw [@List.range'_succ i n 1]
      simp only [countBlocks]
      rw [hw.read (by omega), Prog.bind_of_ok hcount]
      cases stop with
      | false => exact ih (i + 1) count' (by omega)
      | true => exact ⟨count', rfl⟩

/-- What `count_allocated` returns is the number of set bits that stand for an index. -/
theorem countAllocated_sound {c : Nat} {d' : MemoryDevice} (hrun : a.countAllocated d = .ok c d') :
    c = (a.allocated d).length ∧ d' = d := by
  rw [countAllocated, List.range_eq_range'] at hrun
  obtain ⟨hd, hlen⟩ := countBlocks_spec a.size 0 0 hrun
  rw [Nat.mul_zero, Nat.zero_add, ← List.range_eq_range'] at hlen
  exact ⟨hlen, hd⟩

theorem countAllocated_eq (hw : a.Within d) (hx : a.Indexed) :
    a.countAllocated d = .ok (a.allocated d).length d := by
  obtain ⟨c, hc⟩ := countBlocks_total hw hx a.size 0 0 (by omega)
  rw [← List.range_eq_range'] at hc
  obtain ⟨hlen, -⟩ := countAllocated_sound hc
  exact hlen ▸ hc

/-! ## Setting and clearing bits -/

/-- The device after `op` on bit `b`. -/
def touch (a : BitmapAllocator) (op : Nat → Nat → Nat) (d : MemoryDevice) (b : Nat) :
    MemoryDevice :=
  let addr := a.start + b / 8 / BLOCK_SIZE
  d.setBlock addr ((d.block addr).splice (b / 8 % BLOCK_SIZE)
    [UInt8.ofNat (op ((d.block addr).byte (b / 8 % BLOCK_SIZE)).toNat (b % 8))])

@[simp] theorem touch_blockCount {op : Nat → Nat → Nat} {b : Nat} :
    (a.touch op d b).blockCount = d.blockCount := by
  simp [touch]

/-- The device once the cached bitmap block is written back. -/
private def flushed (a : BitmapAllocator) (d : MemoryDevice) (cached : Nat) (buf : Block) :
    MemoryDevice :=
  if cached = INVALID_ADDRESS then d else d.setBlock (a.start + cached) buf

/-- The loop holds one bitmap block in `buf`; with that block written back, each
round is one `touch`. -/
private theorem modifyLoop_runs {op : Nat → Nat → Nat} : ∀ (bs : List Nat) (d : MemoryDevice)
    (cached : Nat) (buf : Block), a.Within d → (∀ b ∈ bs, b < 2048 * a.size) →
    (cached = INVALID_ADDRESS ∨ cached < a.size) →
    ∃ d' cached' buf', Prog.Runs Eq (modifyLoop a op bs cached buf) d (cached', buf') d' ∧
      flushed a d' cached' buf' = bs.foldl (a.touch op) (flushed a d cached buf) ∧
      a.Within d' ∧ (cached' = INVALID_ADDRESS ∨ cached' < a.size) := by
  intro bs
  induction bs with
  | nil =>
      intro d cached buf hw _ hc
      exact ⟨d, cached, buf, Prog.Runs.pure _ _, rfl, hw, hc⟩
  | cons b bs ih =>
      intro d cached buf hw hbs hc
      have hb := hbs b List.mem_cons_self
      have hblk : b / 8 / BLOCK_SIZE < a.size := by
        simp only [BLOCK_SIZE]
        omega
      have hfits := hw.fits
      have hsmall := hw.small
      have hinv : b / 8 / BLOCK_SIZE ≠ INVALID_ADDRESS := by
        simp only [INVALID_ADDRESS, U32] at hsmall ⊢
        omega
      -- a round on a device `d₁` that only lacks the block of `b`
      have round : ∀ d₁ : MemoryDevice, a.Within d₁ →
          (∀ buf', d₁.setBlock (a.start + b / 8 / BLOCK_SIZE) buf' =
            (flushed a d cached buf).setBlock (a.start + b / 8 / BLOCK_SIZE) buf') →
          ∃ d' cached' buf',
            Prog.Runs Eq (modifyLoop a op bs (b / 8 / BLOCK_SIZE)
              (((flushed a d cached buf).block (a.start + b / 8 / BLOCK_SIZE)).splice
                (b / 8 % BLOCK_SIZE) [UInt8.ofNat (op
                  (((flushed a d cached buf).block (a.start + b / 8 / BLOCK_SIZE)).byte
                    (b / 8 % BLOCK_SIZE)).toNat (b % 8))])) d₁ (cached', buf') d' ∧
            flushed a d' cached' buf' = (b :: bs).foldl (a.touch op) (flushed a d cached buf) ∧
            a.Within d' ∧ (cached' = INVALID_ADDRESS ∨ cached' < a.size) := by
        intro d₁ hw₁ hset
        obtain ⟨d', cached', buf', hrun, hfold, hw', hc'⟩ :=
          ih d₁ (b / 8 / BLOCK_SIZE) _ hw₁ (fun k hk => hbs k (List.mem_cons_of_mem _ hk))
            (.inr hblk)
        refine ⟨d', cached', buf', hrun, ?_, hw', hc'⟩
        rw [hfold, List.foldl_cons]
        congr 1
        rw [flushed, if_neg hinv, hset]
        rfl
      by_cases hsame : b / 8 / BLOCK_SIZE = cached
      · have hcached : cached ≠ INVALID_ADDRESS := hsame ▸ hinv
        obtain ⟨d', cached', buf', hrun, hrest⟩ := round d hw fun buf' => by
          rw [flushed, if_neg hcached, hsame, MemoryDevice.setBlock_setBlock]
        refine ⟨d', cached', buf', ?_, hrest⟩
        refine Prog.Runs.guard (by simpa [unpackIndex] using hsame) ?_
        have hbuf : (flushed a d cached buf).block (a.start + b / 8 / BLOCK_SIZE) = buf := by
          rw [flushed, if_neg hcached, hsame, MemoryDevice.block_setBlock (by omega), if_pos rfl]
        rw [hbuf] at hrun
        exact (Prog.Runs.pure buf d).bind hrun
      by_cases hcached : cached = INVALID_ADDRESS
      · subst hcached
        have hfl : flushed a d INVALID_ADDRESS buf = d := by rw [flushed, if_pos rfl]
        obtain ⟨d', cached', buf', hrun, hrest⟩ := round d hw fun buf' => by rw [hfl]
        refine ⟨d', cached', buf', ?_, hrest⟩
        rw [hfl] at hrun
        simp only [modifyLoop, unpackIndex, ne_eq, hsame, not_false_eq_true, if_true,
          not_true_eq_false, if_false]
        refine (Prog.Runs.checkedAdd (by omega)).bind ?_
        rw [Nat.add_comm]
        exact (Prog.Runs.of_ok (readBlock_of_lt (by omega))).bind hrun
      · have hlt := hc.resolve_left hcached
        have hfl : flushed a d cached buf = d.setBlock (a.start + cached) buf := by
          rw [flushed, if_neg hcached]
        have hw₁ : a.Within (d.setBlock (a.start + cached) buf) :=
          ⟨by simpa using hfits, by simpa using hsmall⟩
        obtain ⟨d', cached', buf', hrun, hrest⟩ := round _ hw₁ fun buf' => by rw [hfl]
        refine ⟨d', cached', buf', ?_, hrest⟩
        rw [hfl] at hrun
        simp only [modifyLoop, unpackIndex, ne_eq, hsame, not_false_eq_true, if_true, hcached]
        refine (Prog.Runs.checkedAdd (by omega)).bind ?_
        rw [Nat.add_comm]
        refine (Prog.Runs.of_ok (writeBlock_of_lt (by omega))).bind ?_
        refine (Prog.Runs.checkedAdd (by omega)).bind ?_
        rw [Nat.add_comm]
        exact (Prog.Runs.of_ok (readBlock_of_lt (by simp; omega))).bind hrun

theorem modify_eq {op : Nat → Nat → Nat} {bs : List Nat} (hw : a.Within d)
    (hbs : ∀ b ∈ bs, b < 2048 * a.size) :
    a.modify bs op d = .ok () (bs.foldl (a.touch op) d) := by
  rw [modify]
  by_cases hnil : bs = []
  · subst hnil
    rfl
  rw [if_neg hnil]
  obtain ⟨d', cached, buf, hrun, hfold, hw', hc⟩ :=
    modifyLoop_runs bs d INVALID_ADDRESS Block.zero hw hbs (.inl rfl)
  have hstart : flushed a d INVALID_ADDRESS Block.zero = d := by simp [flushed]
  rw [hstart] at hfold
  refine Prog.Runs.to_ok (hrun.bind ?_)
  rw [← hfold]
  by_cases hinv : cached = INVALID_ADDRESS
  · simp only [hinv, ne_eq, not_true_eq_false, if_false, flushed, if_true]
    exact Prog.Runs.pure _ _
  · have hlt := hc.resolve_left hinv
    have hfits := hw'.fits
    have hsmall := hw'.small
    simp only [hinv, ne_eq, not_false_eq_true, if_true, flushed, if_false]
    refine (Prog.Runs.checkedAdd (by omega)).bind ?_
    rw [Nat.add_comm]
    exact Prog.Runs.of_ok (writeBlock_of_lt (by omega))

/-- Outside the bitmap nothing changes. -/
theorem touch_block_of_outside {op : Nat → Nat → Nat} {b k : Nat} (hw : a.Within d)
    (hb : b < 2048 * a.size) (hk : k < a.start ∨ a.start + a.size ≤ k) :
    (a.touch op d b).block k = d.block k := by
  have hfits := hw.fits
  have hblk : b / 8 / BLOCK_SIZE < a.size := by
    simp only [BLOCK_SIZE]
    omega
  have hpos := Nat.zero_le (b / 8 / BLOCK_SIZE)
  rw [touch, MemoryDevice.block_setBlock (by omega), if_neg (by omega)]

theorem foldl_touch_of_outside {op : Nat → Nat → Nat} {k : Nat}
    (hk : k < a.start ∨ a.start + a.size ≤ k) : ∀ (bs : List Nat) (d : MemoryDevice),
    a.Within d → (∀ b ∈ bs, b < 2048 * a.size) →
    (bs.foldl (a.touch op) d).block k = d.block k ∧
      (bs.foldl (a.touch op) d).blockCount = d.blockCount := by
  intro bs
  induction bs with
  | nil =>
      intro d _ _
      exact ⟨rfl, rfl⟩
  | cons b bs ih =>
      intro d hw hbs
      have hw' : a.Within (a.touch op d b) :=
        ⟨by rw [touch_blockCount]; exact hw.fits, by rw [touch_blockCount]; exact hw.small⟩
      obtain ⟨hblock, hcount⟩ := ih _ hw' fun k hk => hbs k (List.mem_cons_of_mem _ hk)
      rw [List.foldl_cons, hblock, hcount, touch_blockCount]
      exact ⟨touch_block_of_outside hw (hbs b List.mem_cons_self) hk, rfl⟩

/-- `op` acts on one bit of a byte, as `act` says. -/
structure BitOp (op : Nat → Nat → Nat) (act : Bool → Bool) : Prop where
  lt : ∀ {byte bit}, byte < 256 → bit < 8 → op byte bit < 256
  testBit : ∀ {byte bit i}, byte < 256 → bit < 8 → i < 8 →
    (op byte bit).testBit i = if i = bit then act (byte.testBit i) else byte.testBit i

theorem setBit_bitOp : BitOp setBit (fun _ => true) where
  lt := by
    intro byte bit hbyte hbit
    have hpow : 1 <<< bit < 2 ^ 8 := by
      rw [Nat.one_shiftLeft]
      exact Nat.pow_lt_pow_right (by decide) hbit
    exact Nat.or_lt_two_pow (n := 8) hbyte hpow
  testBit := by
    intro byte bit i _ _ _
    rw [setBit, Nat.testBit_or, Nat.one_shiftLeft, Nat.testBit_two_pow]
    by_cases h : i = bit
    · simp [h]
    · simp [h, Ne.symm h]

theorem clearBit_bitOp : BitOp clearBit (fun _ => false) where
  lt := by
    intro byte bit hbyte _
    exact Nat.lt_of_le_of_lt Nat.and_le_left hbyte
  testBit := by
    intro byte bit i _ hbit hi
    rw [clearBit, Nat.testBit_and, Nat.testBit_xor, testBit_255 hi, Nat.one_shiftLeft,
      Nat.testBit_two_pow]
    by_cases h : i = bit
    · simp [h]
    · simp [h, Ne.symm h]

/-- The bits of a bitmap block after `op` on the bit of index `b`. -/
theorem bitOf_splice {op : Nat → Nat → Nat} {act : Bool → Bool} (hop : BitOp op act) (buf : Block)
    (b p : Nat) :
    bitOf (buf.splice (b / 8 % BLOCK_SIZE)
        [UInt8.ofNat (op (buf.byte (b / 8 % BLOCK_SIZE)).toNat (b % 8))]) p =
      if p % 2048 = b % 2048 then act (bitOf buf p) else bitOf buf p := by
  have hj : b / 8 % BLOCK_SIZE < BLOCK_SIZE := Nat.mod_lt _ (by decide)
  have hbit : b % 8 < 8 := Nat.mod_lt _ (by decide)
  have hp8 : p % 8 < 8 := Nat.mod_lt _ (by decide)
  have hbyte := (buf.byte (b / 8 % BLOCK_SIZE)).toNat_lt
  have hiff : p % 2048 = b % 2048 ↔ p / 8 % BLOCK_SIZE = b / 8 % BLOCK_SIZE ∧ p % 8 = b % 8 := by
    simp only [BLOCK_SIZE]
    omega
  simp only [bitOf, Block.byte_splice hj]
  by_cases hsame : p / 8 % BLOCK_SIZE = b / 8 % BLOCK_SIZE
  · have hlt := hop.lt hbyte hbit
    have hto : (UInt8.ofNat (op (buf.byte (b / 8 % BLOCK_SIZE)).toNat (b % 8))).toNat =
        op (buf.byte (b / 8 % BLOCK_SIZE)).toNat (b % 8) := by
      rw [UInt8.toNat_ofNat']
      exact Nat.mod_eq_of_lt hlt
    rw [if_pos hsame, hto, hop.testBit hbyte hbit hp8, hsame]
    simp only [hiff, hsame, true_and]
  · rw [if_neg hsame, if_neg (fun h => hsame (hiff.mp h).1)]

theorem bitAt_eq (d : MemoryDevice) (start i : Nat) :
    d.bitAt start i = bitOf (d.block (start + i / 8 / BLOCK_SIZE)) i := rfl

theorem bitAt_touch {op : Nat → Nat → Nat} {act : Bool → Bool} (hop : BitOp op act)
    (hw : a.Within d) {b : Nat} (hb : b < 2048 * a.size) (i : Nat) :
    (a.touch op d b).bitAt a.start i =
      if i = b then act (d.bitAt a.start i) else d.bitAt a.start i := by
  have hfits := hw.fits
  have hblk : b / 8 / BLOCK_SIZE < a.size := by
    simp only [BLOCK_SIZE]
    omega
  rw [bitAt_eq, bitAt_eq, touch, MemoryDevice.block_setBlock (by omega)]
  by_cases hsame : a.start + i / 8 / BLOCK_SIZE = a.start + b / 8 / BLOCK_SIZE
  · have hiff : i % 2048 = b % 2048 ↔ i = b := by
      simp only [BLOCK_SIZE] at hsame
      omega
    rw [if_pos hsame, bitOf_splice hop, hsame]
    simp only [hiff]
  · have hne : i ≠ b := fun h => hsame (by rw [h])
    rw [if_neg hsame, if_neg hne]

theorem bitAt_foldl_touch {op : Nat → Nat → Nat} {v : Bool} (hop : BitOp op (fun _ => v)) :
    ∀ (bs : List Nat) (d : MemoryDevice), a.Within d → (∀ b ∈ bs, b < 2048 * a.size) →
    ∀ i, (bs.foldl (a.touch op) d).bitAt a.start i =
      if i ∈ bs then v else d.bitAt a.start i := by
  intro bs
  induction bs with
  | nil =>
      intro d _ _ i
      simp
  | cons b bs ih =>
      intro d hw hbs i
      have hw' : a.Within (a.touch op d b) :=
        ⟨by rw [touch_blockCount]; exact hw.fits, by rw [touch_blockCount]; exact hw.small⟩
      rw [List.foldl_cons, ih _ hw' (fun k hk => hbs k (List.mem_cons_of_mem _ hk)) i,
        bitAt_touch hop hw (hbs b List.mem_cons_self)]
      by_cases hib : i = b
      · simp [hib]
      · simp [hib]

/-! ## What `find_free` returns -/

/-- The first `num` free positions that `find_free` can see, for the bits `bit`. -/
def pick (a : BitmapAllocator) (bit : Nat → Bool) (num : Nat) : List Nat :=
  (a.visible.filter fun p => decide (p < a.maxIndex) && !bit p).take num

theorem mem_visible {p : Nat} : p ∈ a.visible ↔
    8 * (a.lastAlloc / 8) ≤ p ∧ p < 2048 * a.size ∨ p < 2048 * (a.lastAlloc / 2048) := by
  simp only [visible, List.mem_append, List.mem_range'_1, List.mem_range]
  omega

theorem visible_lt (hlast : a.lastAlloc < 2048 * a.size) {p : Nat} (hp : p ∈ a.visible) :
    p < 2048 * a.size := by
  rw [mem_visible] at hp
  omega

theorem visible_nodup : a.visible.Nodup := by
  refine List.nodup_append.mpr ⟨List.nodup_range', List.nodup_range, ?_⟩
  intro p hp q hq
  rw [List.mem_range'_1] at hp
  rw [List.mem_range] at hq
  omega

theorem pick_nodup {bit : Nat → Bool} : (a.pick bit num).Nodup :=
  (visible_nodup.filter _).sublist (List.take_sublist _ _)

theorem pick_length_le {bit : Nat → Bool} : (a.pick bit num).length ≤ num := by
  rw [pick, List.length_take]
  exact Nat.min_le_left _ _

theorem mem_pick {bit : Nat → Bool} {p : Nat} (hp : p ∈ a.pick bit num) :
    p ∈ a.visible ∧ p < a.maxIndex ∧ bit p = false := by
  have hp := List.mem_of_mem_take hp
  simpa using hp

theorem pick_congr {bit bit' : Nat → Bool} (h : ∀ p ∈ a.visible, bit p = bit' p) :
    a.pick bit num = a.pick bit' num := by
  rw [pick, pick, List.filter_congr fun p hp => by rw [h p hp]]

end BitmapAllocator

/-- `bit` with the positions in `l` set to `b`. -/
def setBits (bit : Nat → Bool) (l : List Nat) (b : Bool) : Nat → Bool :=
  fun i => if i ∈ l then b else bit i

@[simp] theorem setBits_nil (bit : Nat → Bool) (b : Bool) : setBits bit [] b = bit := by
  funext i
  simp [setBits]

namespace Geom

variable (g : Geom)

def inodeAllocator (last : Nat) : BitmapAllocator :=
  ⟨1, g.inodeBitmapBlocks, g.inodes, last⟩

def blockAllocator (last : Nat) : BitmapAllocator :=
  ⟨g.blockBitmapStart, g.blockBitmapBlocks, g.cap, last⟩

variable {g} {d : MemoryDevice} {v : View} {last num : Nat} {l : List Nat}

theorem inodes_indexed : (g.inodeAllocator last).Indexed := by
  have := g.bitmaps_indexed
  rw [BitmapAllocator.Indexed]
  simp only [inodeAllocator, U32]
  omega

theorem blocks_indexed : (g.blockAllocator last).Indexed := by
  have := g.bitmaps_indexed
  rw [BitmapAllocator.Indexed]
  simp only [blockAllocator, U32]
  omega

theorem Holds.small (h : g.Holds d v) : d.blockCount < U32 := by
  have := g.small
  rw [h.1, U32]
  omega

theorem Holds.inodeBitmap (h : g.Holds d v) : (g.inodeAllocator last).Within d := by
  refine ⟨?_, h.small⟩
  have := g.hasData
  rw [h.1]
  simp only [inodeAllocator]
  omega

theorem Holds.blockBitmap (h : g.Holds d v) : (g.blockAllocator last).Within d := by
  refine ⟨?_, h.small⟩
  have := g.hasData
  rw [h.1]
  simp only [blockAllocator, blockBitmapStart]
  omega

theorem runs_findFree_inode (hlast : last < 2048 * g.inodeBitmapBlocks) :
    Prog.Runs g.Holds ((g.inodeAllocator last).findFree num) v
      ((g.inodeAllocator last).pick v.ibit num) v := by
  intro d hd
  refine ⟨d, ?_, hd⟩
  rw [BitmapAllocator.findFree_eq hd.inodeBitmap inodes_indexed hlast]
  congr 1
  refine BitmapAllocator.pick_congr fun p hp => ?_
  have hlt := BitmapAllocator.visible_lt hlast hp
  rw [← hd.2]
  simp only [view, inodeAllocator] at hlt ⊢
  simp [hlt]

theorem runs_findFree_data (hlast : last < 2048 * g.blockBitmapBlocks) :
    Prog.Runs g.Holds ((g.blockAllocator last).findFree num) v
      ((g.blockAllocator last).pick v.dbit num) v := by
  intro d hd
  refine ⟨d, ?_, hd⟩
  rw [BitmapAllocator.findFree_eq hd.blockBitmap blocks_indexed hlast]
  congr 1
  refine BitmapAllocator.pick_congr fun p hp => ?_
  have hlt := BitmapAllocator.visible_lt hlast hp
  rw [← hd.2]
  simp only [view, blockAllocator] at hlt ⊢
  simp [hlt]

theorem runs_modify_inode {op : Nat → Nat → Nat} {b : Bool}
    (hop : BitmapAllocator.BitOp op fun _ => b)
    (hl : ∀ i ∈ l, i < 2048 * g.inodeBitmapBlocks) :
    Prog.Runs g.Holds ((g.inodeAllocator last).modify l op) v ()
      { v with ibit := setBits v.ibit l b } := by
  intro d hd
  have hw : (g.inodeAllocator last).Within d := hd.inodeBitmap
  refine ⟨_, BitmapAllocator.modify_eq hw hl, ?_, ?_⟩
  · rw [(BitmapAllocator.foldl_touch_of_outside (k := 0) (.inl Nat.one_pos) l d hw hl).2]
    exact hd.1
  have hframe : ∀ k, g.blockBitmapStart ≤ k →
      (l.foldl ((g.inodeAllocator last).touch op) d).block k = d.block k := by
    intro k hk
    exact (BitmapAllocator.foldl_touch_of_outside (.inr hk) l d hw hl).1
  rw [← hd.2]
  ext1
  · funext i
    have hbit := BitmapAllocator.bitAt_foldl_touch hop l d hw hl i
    simp only [inodeAllocator] at hbit
    simp only [view, setBits, inodeAllocator, hbit]
    by_cases hi : i ∈ l
    · simp [hi, hl i hi]
    · simp [hi]
  · exact view_dbit_congr fun k hk _ => hframe k hk
  · exact view_ino_congr fun k hk _ => hframe k (by simp only [inodeTableStart] at hk; omega)
  · exact view_data_congr fun k hk _ => hframe k (by
      simp only [dataStart, inodeTableStart] at hk; omega)

theorem runs_modify_data {op : Nat → Nat → Nat} {b : Bool}
    (hop : BitmapAllocator.BitOp op fun _ => b)
    (hl : ∀ i ∈ l, i < 2048 * g.blockBitmapBlocks) :
    Prog.Runs g.Holds ((g.blockAllocator last).modify l op) v ()
      { v with dbit := setBits v.dbit l b } := by
  intro d hd
  have hw : (g.blockAllocator last).Within d := hd.blockBitmap
  have hframe : ∀ k, k < g.blockBitmapStart ∨ g.inodeTableStart ≤ k →
      (l.foldl ((g.blockAllocator last).touch op) d).block k = d.block k := by
    intro k hk
    exact (BitmapAllocator.foldl_touch_of_outside hk l d hw hl).1
  have hpos : 0 < g.blockBitmapStart := by
    simp only [blockBitmapStart]
    omega
  refine ⟨_, BitmapAllocator.modify_eq hw hl, ?_, ?_⟩
  · rw [(BitmapAllocator.foldl_touch_of_outside (k := 0) (.inl hpos) l d hw hl).2]
    exact hd.1
  rw [← hd.2]
  ext1
  · exact view_ibit_congr fun k _ hk => hframe k (.inl hk)
  · funext i
    have hbit := BitmapAllocator.bitAt_foldl_touch hop l d hw hl i
    simp only [blockAllocator] at hbit
    simp only [view, setBits, blockAllocator, hbit]
    by_cases hi : i ∈ l
    · simp [hi, hl i hi]
    · simp [hi]
  · exact view_ino_congr fun k hk _ => hframe k (.inr hk)
  · exact view_data_congr fun k hk _ => hframe k (.inr (by
      simp only [dataStart] at hk; omega))

theorem runs_allocate_inode (hl : ∀ i ∈ l, i < 2048 * g.inodeBitmapBlocks) :
    Prog.Runs g.Holds ((g.inodeAllocator last).allocate l) v
      (g.inodeAllocator (l.getLastD last)) { v with ibit := setBits v.ibit l true } := by
  cases hlast : l.getLast? with
  | none =>
      rw [List.getLast?_eq_none_iff] at hlast
      subst hlast
      rw [setBits_nil]
      exact Prog.Runs.pure (g.inodeAllocator last) v
  | some x =>
      simp only [BitmapAllocator.allocate, hlast, List.getLastD_eq_getLast?, Option.getD_some]
      exact (runs_modify_inode BitmapAllocator.setBit_bitOp hl).bind (Prog.Runs.pure _ _)

theorem runs_allocate_data (hl : ∀ i ∈ l, i < 2048 * g.blockBitmapBlocks) :
    Prog.Runs g.Holds ((g.blockAllocator last).allocate l) v
      (g.blockAllocator (l.getLastD last)) { v with dbit := setBits v.dbit l true } := by
  cases hlast : l.getLast? with
  | none =>
      rw [List.getLast?_eq_none_iff] at hlast
      subst hlast
      rw [setBits_nil]
      exact Prog.Runs.pure (g.blockAllocator last) v
  | some x =>
      simp only [BitmapAllocator.allocate, hlast, List.getLastD_eq_getLast?, Option.getD_some]
      exact (runs_modify_data BitmapAllocator.setBit_bitOp hl).bind (Prog.Runs.pure _ _)

theorem runs_deallocate_inode (hl : ∀ i ∈ l, i < 2048 * g.inodeBitmapBlocks) :
    Prog.Runs g.Holds ((g.inodeAllocator last).deallocate l) v ()
      { v with ibit := setBits v.ibit l false } :=
  runs_modify_inode BitmapAllocator.clearBit_bitOp hl

theorem runs_deallocate_data (hl : ∀ i ∈ l, i < 2048 * g.blockBitmapBlocks) :
    Prog.Runs g.Holds ((g.blockAllocator last).deallocate l) v ()
      { v with dbit := setBits v.dbit l false } :=
  runs_modify_data BitmapAllocator.clearBit_bitOp hl

end Geom

end FerrisFS
