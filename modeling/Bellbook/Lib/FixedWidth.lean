import Mathlib.Algebra.Order.Ring.Nat
import Mathlib.Data.List.Lex
import Mathlib.Tactic.Ring

/-!
# Numbers written with a fixed number of digits

Positional notation of a fixed width, most significant digit first, in any base.

* `digits` and `value` are inverse to each other on numbers below `b ^ n` and lists of `n` digits.
* Padding makes order visible: of two digit lists of one length the lexicographic order is the order
  of the numbers (`lt_iff_value_lt`), also after the digits are spelled by ascending characters
  (`map_lt_map_iff`), and field by field in a record of fixed widths (`append_lt_append_iff`).
* `before` counts through consecutive periods whose lengths differ, such as the months of a year.
-/

namespace Bellbook.FixedWidth

variable {b : Nat}

/-- The last `n` digits of a number. -/
def digits (b : Nat) : Nat → Nat → List Nat
  | 0, _ => []
  | n + 1, x => x / b ^ n % b :: digits b n x

/-- The number that digits spell. -/
def value (b : Nat) (ds : List Nat) : Nat := ds.foldl (fun n d => n * b + d) 0

@[simp] theorem length_digits (n x : Nat) : (digits b n x).length = n := by
  induction n with
  | zero => rfl
  | succ n ih => simp [digits, ih]

theorem digits_lt (hb : 0 < b) {n x d : Nat} (h : d ∈ digits b n x) : d < b := by
  induction n with
  | zero => simp [digits] at h
  | succ n ih =>
    rcases List.mem_cons.mp h with rfl | h
    · exact Nat.mod_lt _ hb
    · exact ih h

@[simp] theorem value_nil : value b [] = 0 := rfl

@[simp] theorem value_cons (d : Nat) (ds : List Nat) :
    value b (d :: ds) = d * b ^ ds.length + value b ds := by
  -- the accumulator of the fold is multiplied once for each digit to come
  have hacc : ∀ (ds : List Nat) (n : Nat),
      ds.foldl (fun n d => n * b + d) n = n * b ^ ds.length + value b ds := by
    intro ds
    induction ds with
    | nil => simp
    | cons e ds ih =>
      intro n
      have hstart : value b (e :: ds) = e * b ^ ds.length + value b ds := by
        show ds.foldl (fun n d => n * b + d) (0 * b + e) = _
        rw [ih]
        ring
      rw [List.foldl_cons, ih, hstart, List.length_cons]
      ring
  show ds.foldl (fun n d => n * b + d) (0 * b + d) = _
  rw [hacc]
  ring

theorem value_lt {ds : List Nat} (h : ∀ d ∈ ds, d < b) : value b ds < b ^ ds.length := by
  induction ds with
  | nil => simp
  | cons d ds ih =>
    have hd : d + 1 ≤ b := h d List.mem_cons_self
    have hds := ih fun e he => h e (List.mem_cons_of_mem d he)
    rw [value_cons, List.length_cons]
    calc d * b ^ ds.length + value b ds < (d + 1) * b ^ ds.length := by rw [add_mul]; omega
      _ ≤ b * b ^ ds.length := Nat.mul_le_mul_right _ hd
      _ = b ^ (ds.length + 1) := by ring

theorem value_digits (n x : Nat) : value b (digits b n x) = x % b ^ n := by
  induction n with
  | zero => simp [digits, Nat.mod_one]
  | succ n ih =>
    rw [digits, value_cons, length_digits, ih, Nat.mod_pow_succ]
    ring

theorem value_digits_of_lt {n x : Nat} (h : x < b ^ n) : value b (digits b n x) = x := by
  rw [value_digits, Nat.mod_eq_of_lt h]

/-! ## Order -/

/-- **Padded numbers are ordered like their digits.** -/
theorem lt_iff_value_lt {xs ys : List Nat} (hlen : xs.length = ys.length) (hx : ∀ d ∈ xs, d < b)
    (hy : ∀ d ∈ ys, d < b) : xs < ys ↔ value b xs < value b ys := by
  induction xs generalizing ys with
  | nil =>
    obtain rfl : ys = [] := List.eq_nil_of_length_eq_zero hlen.symm
    simp
  | cons x xs ih =>
    cases ys with
    | nil => simp at hlen
    | cons y ys =>
      rw [List.length_cons, List.length_cons, Nat.add_right_cancel_iff] at hlen
      have hxs : ∀ d ∈ xs, d < b := fun d hd => hx d (List.mem_cons_of_mem x hd)
      have hys : ∀ d ∈ ys, d < b := fun d hd => hy d (List.mem_cons_of_mem y hd)
      rw [List.cons_lt_cons_iff, ih hlen hxs hys, value_cons, value_cons, ← hlen]
      have hvx := value_lt hxs
      have hvy := hlen ▸ value_lt hys
      constructor
      · rintro (hlt | ⟨rfl, hlt⟩)
        · have hstep : (x + 1) * b ^ xs.length ≤ y * b ^ xs.length := Nat.mul_le_mul_right _ hlt
          rw [add_mul] at hstep
          omega
        · omega
      · intro hlt
        rcases Nat.lt_trichotomy x y with h | rfl | h
        · exact .inl h
        · exact .inr ⟨rfl, by omega⟩
        · have hstep : (y + 1) * b ^ xs.length ≤ x * b ^ xs.length := Nat.mul_le_mul_right _ h
          rw [add_mul] at hstep
          omega

theorem value_inj {xs ys : List Nat} (hlen : xs.length = ys.length) (hx : ∀ d ∈ xs, d < b)
    (hy : ∀ d ∈ ys, d < b) (heq : value b xs = value b ys) : xs = ys := by
  have hxy : ¬xs < ys := fun h => absurd ((lt_iff_value_lt hlen hx hy).mp h) (by omega)
  have hyx : ¬ys < xs := fun h => absurd ((lt_iff_value_lt hlen.symm hy hx).mp h) (by omega)
  exact le_antisymm (not_lt.mp hyx) (not_lt.mp hxy)

theorem digits_value {ds : List Nat} (h : ∀ d ∈ ds, d < b) : digits b ds.length (value b ds) = ds := by
  cases ds with
  | nil => rfl
  | cons d ds =>
    have hb : 0 < b := Nat.zero_lt_of_lt (h d List.mem_cons_self)
    exact value_inj (length_digits _ _) (fun e he => digits_lt hb he) h (value_digits_of_lt (value_lt h))

/-- Ascending spellings of the digits keep the order. -/
theorem map_lt_map_iff {α : Type} [LT α] {f : Nat → α} {xs ys : List Nat} (hx : ∀ d ∈ xs, d < b)
    (hy : ∀ d ∈ ys, d < b) (hf : ∀ i < b, ∀ j < b, f i < f j ↔ i < j)
    (hinj : ∀ i < b, ∀ j < b, f i = f j → i = j) : xs.map f < ys.map f ↔ xs < ys := by
  induction xs generalizing ys with
  | nil => cases ys <;> simp
  | cons x xs ih =>
    cases ys with
    | nil => simp
    | cons y ys =>
      have hxb := hx x List.mem_cons_self
      have hyb := hy y List.mem_cons_self
      have hxs : ∀ d ∈ xs, d < b := fun d hd => hx d (List.mem_cons_of_mem x hd)
      have hys : ∀ d ∈ ys, d < b := fun d hd => hy d (List.mem_cons_of_mem y hd)
      rw [List.map_cons, List.map_cons, List.cons_lt_cons_iff, List.cons_lt_cons_iff, hf x hxb y hyb,
        ih hxs hys]
      have heq : f x = f y ↔ x = y := ⟨hinj x hxb y hyb, congrArg f⟩
      rw [heq]

/-- Records of fixed widths are compared field by field. -/
theorem append_lt_append_iff {α : Type} [LT α] {xs ys xs' ys' : List α}
    (hlen : xs.length = ys.length) : xs ++ xs' < ys ++ ys' ↔ xs < ys ∨ (xs = ys ∧ xs' < ys') := by
  induction xs generalizing ys with
  | nil =>
    obtain rfl : ys = [] := List.eq_nil_of_length_eq_zero hlen.symm
    simp
  | cons x xs ih =>
    cases ys with
    | nil => simp at hlen
    | cons y ys =>
      rw [List.length_cons, List.length_cons, Nat.add_right_cancel_iff] at hlen
      rw [List.cons_append, List.cons_append, List.cons_lt_cons_iff, List.cons_lt_cons_iff, ih hlen,
        List.cons.injEq]
      tauto

/-! ## Periods of different lengths -/

/-- The sum of the lengths of the first `n` periods. -/
def before (length : Nat → Nat) (n : Nat) : Nat := ((List.range n).map length).sum

theorem before_succ (length : Nat → Nat) (n : Nat) :
    before length (n + 1) = before length n + length n := by
  simp [before, List.range_succ]

theorem before_mono (length : Nat → Nat) {m n : Nat} (h : m ≤ n) : before length m ≤ before length n := by
  induction h with
  | refl => rfl
  | step _ ih =>
    rw [Nat.succ_eq_add_one, before_succ]
    omega

/-- Positions within consecutive periods are ordered by period first. -/
theorem before_add_lt_iff {length : Nat → Nat} {m n i j : Nat} (hi : i < length m) (hj : j < length n) :
    before length m + i < before length n + j ↔ m < n ∨ (m = n ∧ i < j) := by
  rcases Nat.lt_trichotomy m n with h | rfl | h
  · have hnext := before_mono length h
    rw [Nat.succ_eq_add_one, before_succ] at hnext
    constructor
    · exact fun _ => .inl h
    · omega
  · simp
  · have hnext := before_mono length h
    rw [Nat.succ_eq_add_one, before_succ] at hnext
    constructor
    · omega
    · rintro (hlt | ⟨rfl, -⟩)
      · omega
      · omega

end Bellbook.FixedWidth
