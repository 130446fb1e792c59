import Mathlib.Algebra.Order.Floor.Semiring
import Mathlib.Data.List.Forall2
import Mathlib.Data.List.Sort
import Mathlib.Tactic.Linarith

/-!
# Order statistics and interpolation between them

The `k`-th smallest element of a list is characterised by counting, so it does not depend on
the order of the list and can only grow with the elements. A function on the naturals is
continued between them by straight segments; the continuation is monotone wherever the
function is.
-/

namespace OrderStatistics

section

/-- What holds of the elements of one list only where something holds of their partners. -/
theorem countP_le_countP_of_forall₂ {α : Type*} {R : α → α → Prop} {p q : α → Bool} {l l' : List α}
    (hpq : ∀ a b, R a b → q b = true → p a = true) (h : List.Forall₂ R l l') :
    l'.countP q ≤ l.countP p := by
  induction h with
  | nil => exact le_rfl
  | @cons a b l l' hab _ ih =>
    rw [List.countP_cons, List.countP_cons]
    refine Nat.add_le_add ih ?_
    by_cases hb : q b = true
    · rw [if_pos hb, if_pos (hpq a b hab hb)]
    · rw [if_neg hb]
      exact Nat.zero_le _

/-- A list with a larger element in place of one. -/
theorem forall₂_le_set {α : Type*} [Preorder α] {l : List α} {a : α} {i : Nat}
    (h : ∀ b ∈ l[i]?, b ≤ a) : List.Forall₂ (· ≤ ·) l (l.set i a) := by
  induction l generalizing i with
  | nil => exact .nil
  | cons b l ih =>
    cases i with
    | zero => exact .cons (h b rfl) (List.forall₂_refl l)
    | succ i => exact .cons le_rfl (ih h)

variable {α : Type*} [LinearOrder α]

/-- `a` is the `k`-th smallest element of `l`, counted from zero. -/
structure Kth (l : List α) (k : Nat) (a : α) : Prop where
  below : l.countP (· < a) ≤ k
  upTo : k < l.countP (· ≤ a)

namespace Kth

variable {l l' : List α} {j k : Nat} {a b : α}

/-- Larger elements and a larger rank give a larger element. -/
theorem le (ha : Kth l j a) (hb : Kth l' k b) (hl : List.Forall₂ (· ≤ ·) l l') (hjk : j ≤ k) :
    a ≤ b := by
  by_contra hlt
  rw [not_le] at hlt
  have hcount : l'.countP (· ≤ b) ≤ l.countP (· < a) := by
    apply countP_le_countP_of_forall₂ _ hl
    intro x y hxy hy
    exact decide_eq_true (hxy.trans_lt ((of_decide_eq_true hy).trans_lt hlt))
  have hbelow := ha.below
  have hupTo := hb.upTo
  omega

/-- A permutation has the same order statistics. -/
theorem perm (h : Kth l k a) (hl : l.Perm l') : Kth l' k a where
  below := hl.countP_eq (· < a) ▸ h.below
  upTo := hl.countP_eq (· ≤ a) ▸ h.upTo

/-- They are elements of the list. -/
theorem mem (h : Kth l k a) : a ∈ l := by
  by_contra hmem
  have hcount : l.countP (· ≤ a) = l.countP (· < a) := by
    apply List.countP_congr
    intro x hx
    have hne : x ≠ a := fun heq => hmem (heq ▸ hx)
    simp only [decide_eq_true_eq]
    exact ⟨fun hle => lt_of_le_of_ne hle hne, le_of_lt⟩
  have hbelow := h.below
  have hupTo := h.upTo
  omega

end Kth

/-! ## In ascending order -/

/-- A list in ascending order. -/
def ascending (l : List α) : List α := l.insertionSort (· ≤ ·)

/-- Sorting keeps the elements. -/
theorem perm_ascending (l : List α) : (ascending l).Perm l := List.perm_insertionSort _ l

@[simp] theorem length_ascending (l : List α) : (ascending l).length = l.length :=
  (perm_ascending l).length_eq

/-- The order a list came in is forgotten. -/
theorem ascending_eq_of_perm {l l' : List α} (h : l.Perm l') : ascending l = ascending l' :=
  List.Perm.eq_of_pairwise' (List.pairwise_insertionSort _ l) (List.pairwise_insertionSort _ l')
    ((perm_ascending l).trans (h.trans (perm_ascending l').symm))

/-- An element of a sorted list has the rank that its position is. -/
theorem kth_of_sorted {l : List α} (hl : l.Pairwise (· ≤ ·)) {k : Nat} (hk : k < l.length) :
    Kth l k l[k] := by
  have hsplit : l.take k ++ l[k] :: l.drop (k + 1) = l := by
    rw [← List.drop_eq_getElem_cons hk, List.take_append_drop]
  have hlen : (l.take k).length = k := List.length_take_of_le hk.le
  rw [← hsplit, List.pairwise_append, List.pairwise_cons] at hl
  obtain ⟨_, ⟨hafter, _⟩, hbefore⟩ := hl
  generalize l[k] = a at hsplit hafter hbefore
  rw [← hsplit]
  constructor
  · have hnone : (a :: l.drop (k + 1)).countP (· < a) = 0 := by
      rw [List.countP_eq_zero]
      intro b hb
      obtain rfl | hb := List.mem_cons.mp hb
      · simp
      · simpa using hafter b hb
    have hle := List.countP_le_length (p := (· < a)) (l := l.take k)
    rw [List.countP_append, hnone]
    omega
  · have hall : (l.take k).countP (· ≤ a) = k := by
      rw [List.countP_eq_length.mpr, hlen]
      exact fun b hb => decide_eq_true (hbefore b hb a List.mem_cons_self)
    have hself : 0 < (a :: l.drop (k + 1)).countP (· ≤ a) :=
      List.countP_pos_iff.mpr ⟨a, List.mem_cons_self, decide_eq_true le_rfl⟩
    rw [List.countP_append, hall]
    omega

/-- Sorting puts the `k`-th smallest element at position `k`. -/
theorem exists_kth (l : List α) {k : Nat} (hk : k < l.length) :
    ∃ a, (ascending l)[k]? = some a ∧ Kth l k a := by
  have hlen : k < (ascending l).length := by rwa [length_ascending]
  refine ⟨_, List.getElem?_eq_getElem hlen, ?_⟩
  exact (kth_of_sorted (List.pairwise_insertionSort _ l) hlen).perm (perm_ascending l)

end

/-! ## Between the naturals -/

section

variable {K : Type*} [Field K] [LinearOrder K] [IsStrictOrderedRing K] [FloorSemiring K]

/-- The straight segment between the values at the naturals around `x`. -/
def interpolate (s : ℕ → K) (x : K) : K := s ⌊x⌋₊ + (s ⌈x⌉₊ - s ⌊x⌋₊) * (x - ⌊x⌋₊)

variable {s t : ℕ → K} {x y : K}

/-- At the naturals, the function itself. -/
theorem interpolate_natCast (s : ℕ → K) (k : ℕ) : interpolate s k = s k := by
  rw [interpolate, Nat.floor_natCast, Nat.ceil_natCast, sub_self, zero_mul, add_zero]

theorem fract_nonneg (hx : 0 ≤ x) : 0 ≤ x - ⌊x⌋₊ := sub_nonneg.mpr (Nat.floor_le hx)

theorem fract_le_one (x : K) : x - ⌊x⌋₊ ≤ 1 := by
  linarith [Nat.lt_floor_add_one x]

/-- An interpolation lies between its ends, -/
theorem le_interpolate (hx : 0 ≤ x) (hs : s ⌊x⌋₊ ≤ s ⌈x⌉₊) : s ⌊x⌋₊ ≤ interpolate s x :=
  le_add_of_nonneg_right (mul_nonneg (sub_nonneg.mpr hs) (fract_nonneg hx))

/-- on both sides. -/
theorem interpolate_le (hs : s ⌊x⌋₊ ≤ s ⌈x⌉₊) : interpolate s x ≤ s ⌈x⌉₊ := by
  have hstep := mul_le_of_le_one_right (sub_nonneg.mpr hs) (fract_le_one x)
  rw [interpolate]
  linarith

/-- Larger values at the two ends give a larger value between them. -/
theorem interpolate_le_interpolate (hx : 0 ≤ x) (hfloor : s ⌊x⌋₊ ≤ t ⌊x⌋₊)
    (hceil : s ⌈x⌉₊ ≤ t ⌈x⌉₊) : interpolate s x ≤ interpolate t x := by
  have hlow := mul_le_mul_of_nonneg_right hfloor (sub_nonneg.mpr (fract_le_one x))
  have hhigh := mul_le_mul_of_nonneg_right hceil (fract_nonneg hx)
  rw [interpolate, interpolate]
  linarith

/-- Up to a bound below which the function is monotone, so is its continuation. Either there is
a natural between the two points, or they lie on one segment. -/
theorem interpolate_mono {m : ℕ} (hs : MonotoneOn s (Set.Iic m)) (hx : 0 ≤ x) (hxy : x ≤ y)
    (hy : ⌈y⌉₊ ≤ m) : interpolate s x ≤ interpolate s y := by
  have hfloor := Nat.floor_mono hxy
  have hceil := Nat.ceil_mono hxy
  have hends : ∀ z : K, ⌈z⌉₊ ≤ m → s ⌊z⌋₊ ≤ s ⌈z⌉₊ := fun z hz =>
    hs ((Nat.floor_le_ceil z).trans hz) hz (Nat.floor_le_ceil z)
  have hymem : ⌊y⌋₊ ≤ m := (Nat.floor_le_ceil y).trans hy
  obtain hbetween | hsegment := le_or_gt ⌈x⌉₊ ⌊y⌋₊
  · calc interpolate s x ≤ s ⌈x⌉₊ := interpolate_le (hends x (hceil.trans hy))
      _ ≤ s ⌊y⌋₊ := hs (hceil.trans hy) hymem hbetween
      _ ≤ interpolate s y := le_interpolate (hx.trans hxy) (hends y hy)
  · have hxtop := Nat.ceil_le_floor_add_one x
    have hytop := Nat.ceil_le_floor_add_one y
    have hfloorEq : ⌊x⌋₊ = ⌊y⌋₊ := by omega
    have hceilEq : ⌈x⌉₊ = ⌈y⌉₊ := by omega
    have hslope : 0 ≤ s ⌈y⌉₊ - s ⌊y⌋₊ := sub_nonneg.mpr (hends y hy)
    have hrise := mul_le_mul_of_nonneg_left (sub_le_sub_right hxy (⌊y⌋₊ : K)) hslope
    rw [interpolate, interpolate, hfloorEq, hceilEq]
    exact add_le_add_right hrise _

end

end OrderStatistics
