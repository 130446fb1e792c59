import CachelibArchive.Core.OrderStatistics
import Mathlib.Algebra.Group.Action.Defs
import Mathlib.Algebra.GroupWithZero.Nat
import Mathlib.Algebra.Order.BigOperators.Group.List
import Mathlib.Algebra.Order.Ring.Nat
import Mathlib.Data.Rat.Floor
import Mathlib.Data.UInt

/-!
# The average and the percentiles of the latencies

`average` adds the latencies up in their own type, 32 bits wide, and divides by how many there
are. What it loses is every multiple of `2 ^ 32` in the sum, and each of them is at least one
in the quotient, so it answers the mean exactly if there is none.

`percentile` sorts the latencies and interpolates between the two around its index. Its
`double`s are rationals here, and conversions to integers truncate.
-/

namespace CachelibArchive.Backend

open OrderStatistics

/-- `average` of `unsigned int`; the division is one of `size_t`. -/
def average (latencies : List UInt32) : UInt32 :=
  if latencies.isEmpty then 0
  else
    let averageLatency := latencies.foldl (fun averageLatency value => averageLatency + value) 0
    (averageLatency.toUInt64 / UInt64.ofNat latencies.length).toUInt32

/-- The exact sum. -/
def total (latencies : List UInt32) : Nat := (latencies.map UInt32.toNat).sum

/-- The mean, rounded down; it lies between the least and the largest latency. -/
structure IsMean (latencies : List UInt32) (a : UInt32) : Prop where
  floor : a.toNat = total latencies / latencies.length
  above : ∀ lo ∈ latencies, (∀ v ∈ latencies, lo ≤ v) → lo ≤ a
  below : ∀ hi ∈ latencies, (∀ v ∈ latencies, v ≤ hi) → a ≤ hi

variable {latencies : List UInt32}

theorem toNat_foldl_add (latencies : List UInt32) (a : UInt32) :
    (latencies.foldl (fun averageLatency value => averageLatency + value) a).toNat =
      (a.toNat + total latencies) % 2 ^ 32 := by
  induction latencies generalizing a with
  | nil => exact (Nat.mod_eq_of_lt a.toNat_lt).symm
  | cons v rest ih =>
    have htotal : total (v :: rest) = v.toNat + total rest := by
      rw [total, List.map_cons, List.sum_cons, total]
    rw [List.foldl_cons, ih, UInt32.toNat_add, htotal, Nat.mod_add_mod, Nat.add_assoc]

/-- What `average` computes. -/
theorem toNat_average (hne : latencies ≠ []) (hlen : latencies.length < 2 ^ 32) :
    (average latencies).toNat = total latencies % 2 ^ 32 / latencies.length := by
  have hsome : latencies.isEmpty = false := by simpa using hne
  have hsum := toNat_foldl_add latencies 0
  rw [UInt32.toNat_zero, Nat.zero_add] at hsum
  have hsize : (UInt64.ofNat latencies.length).toNat = latencies.length :=
    UInt64.toNat_ofNat_of_lt' (hlen.trans (by decide))
  have hquot : total latencies % 2 ^ 32 / latencies.length < 2 ^ 32 :=
    (Nat.div_le_self _ _).trans_lt (Nat.mod_lt _ (by decide))
  rw [average, hsome]
  simp only [Bool.false_eq_true, ite_false, UInt64.toNat_toUInt32, UInt64.toNat_div,
    UInt32.toNat_toUInt64, hsum, hsize, Nat.mod_eq_of_lt hquot]

/-- Nothing is lost by taking a sum modulo `m` in front of a division by at most `m`, exactly if
the sum is below `m`. -/
theorem mod_div_eq_iff {sum m n : Nat} (hn : 0 < n) (hm : n ≤ m) :
    sum % m / n = sum / n ↔ sum < m := by
  constructor
  · intro h
    by_contra hle
    have hstep : sum % m + n ≤ sum := by
      have hdiv := Nat.mod_add_div sum m
      have hone : m * 1 ≤ m * (sum / m) :=
        Nat.mul_le_mul_left m (Nat.div_pos (Nat.not_lt.mp hle) (by omega))
      omega
    have hquot := Nat.div_le_div_right (c := n) hstep
    rw [Nat.add_div_right _ hn, h] at hquot
    exact Nat.not_succ_le_self _ hquot
  · intro h
    rw [Nat.mod_eq_of_lt h]

theorem length_mul_le_total {lo : UInt32} (h : ∀ v ∈ latencies, lo ≤ v) :
    lo.toNat * latencies.length ≤ total latencies := by
  have hsum := List.card_nsmul_le_sum (latencies.map UInt32.toNat) lo.toNat (by
    intro n hn
    obtain ⟨v, hv, rfl⟩ := List.mem_map.mp hn
    exact UInt32.le_iff_toNat_le.mp (h v hv))
  rwa [List.length_map, smul_eq_mul, Nat.mul_comm] at hsum

theorem total_le_length_mul {hi : UInt32} (h : ∀ v ∈ latencies, v ≤ hi) :
    total latencies ≤ hi.toNat * latencies.length := by
  have hsum := List.sum_le_card_nsmul (latencies.map UInt32.toNat) hi.toNat (by
    intro n hn
    obtain ⟨v, hv, rfl⟩ := List.mem_map.mp hn
    exact UInt32.le_iff_toNat_le.mp (h v hv))
  rwa [List.length_map, smul_eq_mul, Nat.mul_comm] at hsum

/-- The floor of the mean lies between the least and the largest element. -/
theorem isMean_of_floor (hne : latencies ≠ []) {a : UInt32}
    (h : a.toNat = total latencies / latencies.length) : IsMean latencies a := by
  have hpos : 0 < latencies.length := List.length_pos_iff.mpr hne
  refine ⟨h, fun lo _ hlo => ?_, fun hi _ hhi => ?_⟩
  · have hle := length_mul_le_total hlo
    rw [UInt32.le_iff_toNat_le, h]
    exact (Nat.le_div_iff_mul_le hpos).mpr hle
  · have hle := total_le_length_mul hhi
    rw [UInt32.le_iff_toNat_le, h]
    exact Nat.div_le_of_le_mul (by rwa [Nat.mul_comm])

/-- `average` answers the mean exactly if the latencies add up to less than `2 ^ 32`. -/
theorem average_isMean_iff (latencies : List UInt32) (hne : latencies ≠ [])
    (hlen : latencies.length < 2 ^ 32) :
    IsMean latencies (average latencies) ↔ total latencies < 2 ^ 32 := by
  have hpos : 0 < latencies.length := List.length_pos_iff.mpr hne
  rw [← mod_div_eq_iff hpos hlen.le, ← toNat_average hne hlen]
  exact ⟨IsMean.floor, isMean_of_floor hne⟩

/-- Two latencies of one second have their mean. -/
theorem average_isMean_seconds :
    IsMean [1000000000, 1000000000] (average [1000000000, 1000000000]) :=
  (average_isMean_iff [1000000000, 1000000000] (by decide) (by decide)).mpr (by decide)

/-- A run of 5000 queries, each of which has taken one millisecond: the average is below all of
them. -/
theorem not_isMean_milliseconds :
    ¬IsMean (List.replicate 5000 1000000) (average (List.replicate 5000 1000000)) := by
  have hlen : (List.replicate 5000 (1000000 : UInt32)).length = 5000 := List.length_replicate
  have htotal : total (List.replicate 5000 1000000) = 5000 * 1000000 := by
    rw [total, List.map_replicate, List.sum_replicate, smul_eq_mul]
    rfl
  have hne : List.replicate 5000 (1000000 : UInt32) ≠ [] :=
    List.ne_nil_of_length_pos (by rw [hlen]; decide)
  intro h
  have hfloor := h.floor
  rw [toNat_average hne (by rw [hlen]; decide), htotal, hlen] at hfloor
  exact absurd hfloor (by decide)

/-! ## Percentiles -/

section

local instance linearOrderUInt32 : LinearOrder UInt32 where
  le_refl := UInt32.le_refl
  le_trans _ _ _ := UInt32.le_trans
  le_antisymm _ _ := UInt32.le_antisymm
  le_total := UInt32.le_total
  lt_iff_le_not_ge _ _ := by
    rw [UInt32.not_le]
    exact ⟨fun h => ⟨UInt32.le_of_lt h, h⟩, And.right⟩
  toDecidableLE := inferInstance

/-- A rounded `double` as a `size_t`; a negative one has no meaning. -/
def toSize (x : Int) : Option Nat := if 0 ≤ x then some x.toNat else none

/-- A `double` as an `unsigned int`: the fraction is dropped, and what does not fit has no
meaning. -/
def toUnsigned (x : Rat) : Option UInt32 :=
  let whole := x.num.tdiv x.den
  if 0 ≤ whole ∧ whole < 2 ^ 32 then some (UInt32.ofNat whole.toNat) else none

/-- `percentile` of `unsigned int`; `none` is an access out of range or a conversion without
meaning. -/
def percentile (latencies : List UInt32) (percentile : Rat) : Option UInt32 :=
  if latencies.isEmpty then some 0
  else do
    let sorted := ascending latencies
    let index : Rat := percentile * ((sorted.length - 1 : Nat) : Rat)
    let lower ← toSize ⌊index⌋
    let upper ← toSize ⌈index⌉
    if lower = upper then sorted[lower]?
    else
      let below ← sorted[lower]?
      let above ← sorted[upper]?
      toUnsigned ((below.toNat : Rat) + ((above - below).toNat : Rat) * (index - (lower : Rat)))

/-- The answers are order statistics, and straight between them. -/
structure OrderStatistic (latencies : List UInt32) : Prop where
  inRange : ∀ p, 0 ≤ p → p ≤ 1 → ∃ a, percentile latencies p = some a
  above : ∀ p a lo, 0 ≤ p → p ≤ 1 → percentile latencies p = some a →
    lo ∈ latencies → (∀ v ∈ latencies, lo ≤ v) → lo ≤ a
  below : ∀ p a hi, 0 ≤ p → p ≤ 1 → percentile latencies p = some a →
    hi ∈ latencies → (∀ v ∈ latencies, v ≤ hi) → a ≤ hi
  mono : ∀ p q a b, 0 ≤ p → p ≤ q → q ≤ 1 → percentile latencies p = some a →
    percentile latencies q = some b → a ≤ b
  perm : ∀ p latencies', latencies'.Perm latencies →
    percentile latencies' p = percentile latencies p
  exact : ∀ j, 2 ≤ latencies.length → j < latencies.length →
    ∃ a, percentile latencies (j / ((latencies.length - 1 : Nat) : Rat)) = some a ∧
      Kth latencies j a
  grow : ∀ p a b v i, 0 ≤ p → p ≤ 1 → (∀ u ∈ latencies[i]?, u ≤ v) →
    percentile latencies p = some a → percentile (latencies.set i v) p = some b → a ≤ b

variable {latencies latencies' : List UInt32} {p q : Rat}

/-- The latency at a position of the sorted list. -/
def nth (latencies : List UInt32) (k : Nat) : Rat :=
  (((ascending latencies)[k]?.map UInt32.toNat).getD 0 : Nat)

theorem nth_eq {k : Nat} (hk : k < latencies.length) :
    ∃ a, (ascending latencies)[k]? = some a ∧ nth latencies k = (a.toNat : Rat) ∧
      Kth latencies k a := by
  obtain ⟨a, hget, hkth⟩ := exists_kth latencies hk
  refine ⟨a, hget, ?_, hkth⟩
  rw [nth, hget, Option.map_some, Option.getD_some]

/-- Larger latencies and a larger position. -/
theorem nth_le_nth (h : List.Forall₂ (· ≤ ·) latencies latencies') {j k : Nat} (hjk : j ≤ k)
    (hk : k < latencies.length) : nth latencies j ≤ nth latencies' k := by
  obtain ⟨a, _, ha, hj⟩ := nth_eq (hjk.trans_lt hk)
  obtain ⟨b, _, hb, hk⟩ := nth_eq (h.length_eq ▸ hk)
  rw [ha, hb, Nat.cast_le]
  exact UInt32.le_iff_toNat_le.mp (hj.le hk h hjk)

theorem monotoneOn_nth (hne : latencies ≠ []) :
    MonotoneOn (nth latencies) (Set.Iic (latencies.length - 1)) := by
  have hpos : 0 < latencies.length := List.length_pos_iff.mpr hne
  intro j _ k hk hjk
  have hk : k ≤ latencies.length - 1 := hk
  exact nth_le_nth (List.forall₂_refl latencies) hjk (by omega)

/-- A conversion to `unsigned int` drops the fraction. -/
theorem toUnsigned_eq {x : Rat} (hx : 0 ≤ x) {a : UInt32} (ha : x ≤ (a.toNat : Rat)) :
    ∃ b, toUnsigned x = some b ∧ b.toNat = ⌊x⌋₊ := by
  have hwhole : x.num.tdiv x.den = (⌊x⌋₊ : Int) := by
    rw [Int.tdiv_eq_ediv_of_nonneg (Rat.num_nonneg.mpr hx), ← Rat.floor_def',
      Int.natCast_floor_eq_floor hx]
  have hlt : ⌊x⌋₊ < 2 ^ 32 := (Nat.floor_le_of_le ha).trans_lt a.toNat_lt
  have hfits : (0 : Int) ≤ (⌊x⌋₊ : Int) ∧ (⌊x⌋₊ : Int) < 2 ^ 32 := by omega
  refine ⟨UInt32.ofNat ⌊x⌋₊, ?_, UInt32.toNat_ofNat_of_lt' hlt⟩
  simp only [toUnsigned, hwhole, if_pos hfits, Int.toNat_natCast]

/-- Where `percentile` looks. -/
def index (latencies : List UInt32) (p : Rat) : Rat := p * ((latencies.length - 1 : Nat) : Rat)

theorem index_nonneg (latencies : List UInt32) (hp : 0 ≤ p) : 0 ≤ index latencies p :=
  mul_nonneg hp (Nat.cast_nonneg _)

theorem ceil_index_le (latencies : List UInt32) (hp : p ≤ 1) :
    ⌈index latencies p⌉₊ ≤ latencies.length - 1 :=
  Nat.ceil_le.mpr (mul_le_of_le_one_left (Nat.cast_nonneg _) hp)

theorem index_mono (hpq : p ≤ q) : index latencies p ≤ index latencies q :=
  mul_le_mul_of_nonneg_right hpq (Nat.cast_nonneg _)

/-- The accesses of `percentile`, where they are in range. -/
theorem percentile_of_getElem? (hne : latencies ≠ []) (hp : 0 ≤ p) {below above : UInt32}
    (hbelow : (ascending latencies)[⌊index latencies p⌋₊]? = some below)
    (habove : (ascending latencies)[⌈index latencies p⌉₊]? = some above) :
    percentile latencies p =
      if ⌊index latencies p⌋₊ = ⌈index latencies p⌉₊ then some below
      else toUnsigned ((below.toNat : Rat) +
        ((above - below).toNat : Rat) * (index latencies p - (⌊index latencies p⌋₊ : Rat))) := by
  have hsome : latencies.isEmpty = false := by simpa using hne
  have hindex := index_nonneg latencies hp
  have hlower : toSize ⌊index latencies p⌋ = some ⌊index latencies p⌋₊ := by
    rw [toSize, if_pos (Int.floor_nonneg.mpr hindex), Int.floor_toNat]
  have hupper : toSize ⌈index latencies p⌉ = some ⌈index latencies p⌉₊ := by
    rw [toSize, if_pos (Int.ceil_nonneg hindex), Int.ceil_toNat]
  simp only [percentile, hsome, Bool.false_eq_true, if_false, length_ascending]
  change ((toSize ⌊index latencies p⌋).bind fun lower => _) = _
  rw [hlower, Option.bind_some]
  change ((toSize ⌈index latencies p⌉).bind fun upper => _) = _
  rw [hupper, Option.bind_some, hbelow, habove]
  rfl

/-- What `percentile` computes. -/
theorem percentile_eq (hne : latencies ≠ []) (hp : 0 ≤ p) (hp' : p ≤ 1) :
    ∃ a, percentile latencies p = some a ∧
      a.toNat = ⌊interpolate (nth latencies) (index latencies p)⌋₊ := by
  have hpos : 0 < latencies.length := List.length_pos_iff.mpr hne
  have hceil := ceil_index_le latencies hp'
  have hends := Nat.floor_le_ceil (index latencies p)
  have hupper : ⌈index latencies p⌉₊ < latencies.length := by omega
  obtain ⟨below, hbelow, hlow, _⟩ := nth_eq (hends.trans_lt hupper)
  obtain ⟨above, habove, hhigh, _⟩ := nth_eq hupper
  have hstep : nth latencies ⌊index latencies p⌋₊ ≤ nth latencies ⌈index latencies p⌉₊ :=
    monotoneOn_nth hne (hends.trans hceil) hceil hends
  rw [percentile_of_getElem? hne hp hbelow habove]
  by_cases heq : ⌊index latencies p⌋₊ = ⌈index latencies p⌉₊
  · refine ⟨below, if_pos heq, ?_⟩
    rw [interpolate, ← heq, sub_self, zero_mul, add_zero, hlow, Nat.floor_natCast]
  · have hle : below.toNat ≤ above.toNat := by
      rwa [hlow, hhigh, Nat.cast_le] at hstep
    have hvalue : (below.toNat : Rat) +
        ((above - below).toNat : Rat) * (index latencies p - (⌊index latencies p⌋₊ : Rat)) =
          interpolate (nth latencies) (index latencies p) := by
      rw [interpolate, hlow, hhigh, UInt32.toNat_sub_of_le _ _ (UInt32.le_iff_toNat_le.mpr hle),
        Nat.cast_sub hle]
    have hnonneg : 0 ≤ interpolate (nth latencies) (index latencies p) :=
      (hlow ▸ Nat.cast_nonneg below.toNat).trans
        (le_interpolate (index_nonneg latencies hp) hstep)
    rw [if_neg heq, hvalue]
    exact toUnsigned_eq hnonneg ((interpolate_le hstep).trans_eq hhigh)

/-- Where an answer lies among the values that are interpolated. -/
theorem toNat_percentile (hne : latencies ≠ []) (hp : 0 ≤ p) (hp' : p ≤ 1) {a : UInt32}
    (h : percentile latencies p = some a) :
    a.toNat = ⌊interpolate (nth latencies) (index latencies p)⌋₊ := by
  obtain ⟨b, hb, hvalue⟩ := percentile_eq hne hp hp'
  rw [Option.some.inj (h.symm.trans hb), hvalue]

theorem percentile_mono (hne : latencies ≠ []) (hp : 0 ≤ p) (hpq : p ≤ q) (hq : q ≤ 1)
    {a b : UInt32} (ha : percentile latencies p = some a) (hb : percentile latencies q = some b) :
    a ≤ b := by
  rw [UInt32.le_iff_toNat_le, toNat_percentile hne hp (hpq.trans hq) ha,
    toNat_percentile hne (hp.trans hpq) hq hb]
  exact Nat.floor_mono (interpolate_mono (monotoneOn_nth hne) (index_nonneg latencies hp)
    (index_mono hpq) (ceil_index_le latencies hq))

/-- At an index without a fraction, the answer is the latency of that rank. -/
theorem percentile_of_index {k : Nat} (hk : k < latencies.length) (hp : 0 ≤ p) (hp' : p ≤ 1)
    (hindex : index latencies p = (k : Rat)) :
    ∃ a, percentile latencies p = some a ∧ Kth latencies k a := by
  have hne : latencies ≠ [] := List.ne_nil_of_length_pos (Nat.zero_lt_of_lt hk)
  obtain ⟨a, ha, hvalue⟩ := percentile_eq hne hp hp'
  obtain ⟨b, _, hb, hkth⟩ := nth_eq hk
  rw [hindex, interpolate_natCast, hb, Nat.floor_natCast, UInt32.toNat_inj] at hvalue
  exact ⟨a, ha, hvalue ▸ hkth⟩

theorem percentile_grow (hne : latencies ≠ []) (hl : List.Forall₂ (· ≤ ·) latencies latencies')
    (hp : 0 ≤ p) (hp' : p ≤ 1) {a b : UInt32} (ha : percentile latencies p = some a)
    (hb : percentile latencies' p = some b) : a ≤ b := by
  have hpos : 0 < latencies.length := List.length_pos_iff.mpr hne
  have hne' : latencies' ≠ [] := List.ne_nil_of_length_pos (hl.length_eq ▸ hpos)
  have hindex : index latencies' p = index latencies p := by rw [index, index, hl.length_eq]
  have hceil := ceil_index_le latencies hp'
  have hends := Nat.floor_le_ceil (index latencies p)
  rw [UInt32.le_iff_toNat_le, toNat_percentile hne hp hp' ha, toNat_percentile hne' hp hp' hb,
    hindex]
  exact Nat.floor_mono (interpolate_le_interpolate (index_nonneg latencies hp)
    (nth_le_nth hl le_rfl (by omega)) (nth_le_nth hl le_rfl (by omega)))

/-- Every answer is an order statistic or lies between two. -/
theorem percentile_orderStatistic (latencies : List UInt32) (hne : latencies ≠ []) :
    OrderStatistic latencies := by
  have hpos : 0 < latencies.length := List.length_pos_iff.mpr hne
  constructor
  case inRange =>
    intro p hp hp'
    obtain ⟨a, ha, _⟩ := percentile_eq hne hp hp'
    exact ⟨a, ha⟩
  case above =>
    intro p a lo hp hp' ha _ hlo
    obtain ⟨b, hb, hkth⟩ := percentile_of_index (p := 0) hpos le_rfl zero_le_one
      (by rw [index, zero_mul, Nat.cast_zero])
    exact (hlo b hkth.mem).trans (percentile_mono hne le_rfl hp hp' hb ha)
  case below =>
    intro p a hi hp hp' ha _ hhi
    have hlast : latencies.length - 1 < latencies.length := by omega
    obtain ⟨b, hb, hkth⟩ := percentile_of_index hlast zero_le_one le_rfl (by rw [index, one_mul])
    exact (percentile_mono hne hp hp' le_rfl ha hb).trans (hhi b hkth.mem)
  case mono =>
    intro p q a b hp hpq hq ha hb
    exact percentile_mono hne hp hpq hq ha hb
  case perm =>
    intro p latencies' hperm
    have hempty : latencies'.isEmpty = latencies.isEmpty := hperm.isEmpty_eq
    rw [percentile, percentile, hempty, ascending_eq_of_perm hperm]
  case exact =>
    intro j hlen hj
    have hcast : (0 : Rat) < ((latencies.length - 1 : Nat) : Rat) := Nat.cast_pos.mpr (by omega)
    apply percentile_of_index hj (div_nonneg (Nat.cast_nonneg j) hcast.le)
    · exact (div_le_one hcast).mpr (Nat.cast_le.mpr (by omega))
    · exact div_mul_cancel₀ _ hcast.ne'
  case grow =>
    intro p a b v i hp hp' hv ha hb
    exact percentile_grow hne (forall₂_le_set hv) hp hp' ha hb

/-- Three latencies. -/
theorem percentile_orderStatistic_three : OrderStatistic [30, 10, 20] :=
  percentile_orderStatistic [30, 10, 20] (by decide)

end

end CachelibArchive.Backend
