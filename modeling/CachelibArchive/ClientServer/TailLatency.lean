import CachelibArchive.Core.Run
import CachelibArchive.Core.Selection
import Mathlib.Algebra.Order.Group.Nat

/-!
# The tail latency of a client

`TailLatency` keeps the `k` largest samples in a priority queue with the least of them on top.
A sample goes in while there is room, and takes the place of the top if it is above it, so the
top is the `k`-th largest sample whatever order the samples came in.
-/

namespace CachelibArchive.ClientServer

open Selection Run

/-- `TailLatency`; the samples are only compared. -/
structure TailLatency where
  maxHeap : PriorityQueue Int
  size : Int32

namespace TailLatency

/-- The constructor. -/
def new (k : Int32) : TailLatency := ⟨.empty, k⟩

/-- `push`; undefined where the top of an empty queue is asked for. -/
def push (t : TailLatency) (num : Int) : Option TailLatency :=
  if Int32.ofNat t.maxHeap.size < t.size then some { t with maxHeap := t.maxHeap.push num }
  else do
    let top ← t.maxHeap.top
    if num > top then some { t with maxHeap := t.maxHeap.pop.push num } else some t

/-- `getResult`; undefined on an empty queue. -/
def getResult (t : TailLatency) : Option Int := t.maxHeap.top

/-- `clear` -/
def clear (t : TailLatency) : TailLatency := { t with maxHeap := .empty }

/-- A call that changes the samples. -/
inductive Call where
  | push (num : Int)
  | clear
  deriving DecidableEq

def step (t : TailLatency) : Call → Option TailLatency
  | .push num => t.push num
  | .clear => some t.clear

/-- The samples a call leaves. -/
def Call.record (nums : List Int) : Call → List Int
  | .push num => num :: nums
  | .clear => []

/-- The samples pushed since the last `clear`, latest first. -/
def pushed (calls : List Call) : List Int := calls.foldl Call.record []

/-- The queue of a `TailLatency(k)` after these samples. -/
structure Holds (k : Int32) (nums : List Int) (t : TailLatency) : Prop where
  size : t.size = k
  largest : Largest k.toNatClampNeg (nums : Multiset Int) t.maxHeap.contents

variable {k : Int32} {nums : List Int} {t : TailLatency}

theorem holds_new (k : Int32) : Holds k [] (new k) := ⟨rfl, .zero _⟩

/-- The cast of the size is exact: there are never more than `k` samples. -/
theorem Holds.lt_size_iff (h : Holds k nums t) (hk : 0 < k) :
    Int32.ofNat t.maxHeap.size < t.size ↔ t.maxHeap.size < k.toNatClampNeg := by
  have hle : t.maxHeap.size ≤ k.toNatClampNeg := by
    rw [← PriorityQueue.card_contents, h.largest.card]
    exact Nat.min_le_left _ _
  have hsize : t.maxHeap.size < 2 ^ 31 := hle.trans_lt k.toNatClampNeg_lt
  have hnonneg : (0 : Int32) ≤ k := Int32.le_of_lt hk
  rw [Int32.lt_iff_toInt_lt, Int32.toInt_ofNat_of_lt hsize, h.size,
    ← Int32.cast_toNatClampNeg k hnonneg, Int.ofNat_lt]

/-- A full queue has a top. -/
theorem Holds.top_of_not_lt (h : Holds k nums t) (hk : 0 < k)
    (hfull : ¬Int32.ofNat t.maxHeap.size < t.size) :
    t.maxHeap.contents.card = k.toNatClampNeg ∧ ∃ m, t.maxHeap.top = some m := by
  rw [h.lt_size_iff hk, Nat.not_lt] at hfull
  have hpos : 0 < k.toNatClampNeg := by
    have hlt := Int32.lt_iff_toInt_lt.mp hk
    have hcast := Int32.cast_toNatClampNeg k (Int32.le_of_lt hk)
    rw [Int32.toInt_zero] at hlt
    omega
  have hcard : t.maxHeap.contents.card = k.toNatClampNeg := by
    have hmin := h.largest.card
    rw [PriorityQueue.card_contents] at hmin ⊢
    omega
  refine ⟨hcard, Option.ne_none_iff_exists'.mp fun hnone => ?_⟩
  rw [PriorityQueue.top_eq_none.mp hnone, Multiset.card_zero] at hcard
  omega

/-- A push is defined, and keeps the largest samples. -/
theorem Holds.push (h : Holds k nums t) (hk : 0 < k) (num : Int) :
    ∃ t', t.push num = some t' ∧ Holds k (num :: nums) t' := by
  rw [TailLatency.push]
  by_cases hroom : Int32.ofNat t.maxHeap.size < t.size
  · rw [if_pos hroom]
    rw [h.lt_size_iff hk, ← PriorityQueue.card_contents] at hroom
    refine ⟨_, rfl, h.size, ?_⟩
    rw [PriorityQueue.contents_push]
    exact h.largest.cons_of_card_lt hroom num
  · obtain ⟨hcard, m, htop⟩ := h.top_of_not_lt hk hroom
    rw [if_neg hroom, htop, Option.bind_eq_bind, Option.bind_some]
    by_cases habove : num > m
    · rw [if_pos habove]
      refine ⟨_, rfl, h.size, ?_⟩
      rw [PriorityQueue.contents_push, PriorityQueue.contents_pop htop]
      exact h.largest.cons_of_lt hcard (PriorityQueue.mem_of_top htop)
        (PriorityQueue.top_le htop) habove
    · rw [if_neg habove]
      exact ⟨t, rfl, h.size, h.largest.cons_of_le hcard (PriorityQueue.top_le htop)
        (not_lt.mp habove)⟩

theorem Holds.step (h : Holds k nums t) (hk : 0 < k) (c : Call) :
    ∃ t', t.step c = some t' ∧ Holds k (c.record nums) t' := by
  cases c with
  | push num => exact h.push hk num
  | clear => exact ⟨t.clear, rfl, h.size, .zero _⟩

theorem Holds.run (h : Holds k nums t) (hk : 0 < k) (calls : List Call) :
    ∃ t', exec TailLatency.step t calls = some t' ∧
      Holds k (calls.foldl Call.record nums) t' := by
  induction calls generalizing nums t with
  | nil => exact ⟨t, rfl, h⟩
  | cons c calls ih =>
    obtain ⟨t₁, hstep, h₁⟩ := h.step hk c
    obtain ⟨t₂, hrun, h₂⟩ := ih h₁
    exact ⟨t₂, exec_cons_eq_some.mpr ⟨t₁, hstep, hrun⟩, h₂⟩

/-- The queue holds the first `k` samples in descending order. -/
theorem Holds.contents (h : Holds k nums t) :
    t.maxHeap.contents = ((descending nums).take k.toNatClampNeg : Multiset Int) :=
  h.largest.unique (largest_take_descending _ nums)

/-- The result is the last of the first `k` samples in descending order. -/
theorem Holds.getResult (h : Holds k nums t) :
    t.getResult = ((descending nums).take k.toNatClampNeg).getLast? :=
  PriorityQueue.top_of_contents ((pairwise_descending nums).take) h.contents

/-- With `k` samples the result is the `k`-th largest. -/
theorem Holds.getResult_of_le (h : Holds k nums t) (hpos : 0 < k.toNatClampNeg)
    (hle : k.toNatClampNeg ≤ nums.length) :
    t.getResult = (descending nums)[k.toNatClampNeg - 1]? := by
  have hlt : k.toNatClampNeg - 1 < (descending nums).length := by
    rw [length_descending]
    omega
  rw [h.getResult, List.getLast?_take, if_neg hpos.ne', List.getElem?_eq_getElem hlt,
    Option.some_or]

/-- With fewer the result is the least. -/
theorem Holds.getResult_of_lt (h : Holds k nums t) (hlt : nums.length < k.toNatClampNeg) :
    t.getResult = nums.min? := by
  have hle : (descending nums).length ≤ k.toNatClampNeg := by
    rw [length_descending]
    exact hlt.le
  rw [h.getResult, List.take_of_length_le hle]
  cases hlast : (descending nums).getLast? with
  | none =>
    have hnil : nums = [] := by
      rw [← List.length_eq_zero_iff, ← length_descending, List.getLast?_eq_none_iff.mp hlast]
      rfl
    rw [hnil]
    rfl
  | some m => exact (List.min?_eq_some_iff.mpr (least_of_getLast? hlast)).symm

/-- After any calls the queue holds the `min n k` largest of the `n` samples pushed since the
last `clear`. The result is the `k`-th largest of them, the smallest if there are fewer, and
depends on the samples only, not on their order. -/
theorem tailLatency_kth_largest (k : Int32) (hk : 1 ≤ k) (calls : List Call) :
    ∃ t, exec step (new k) calls = some t ∧
      t.maxHeap.contents.card = min (pushed calls).length k.toNatClampNeg ∧
      t.maxHeap.contents = ((descending (pushed calls)).take k.toNatClampNeg : Multiset Int) ∧
      (k.toNatClampNeg ≤ (pushed calls).length →
        t.getResult = (descending (pushed calls))[k.toNatClampNeg - 1]?) ∧
      ((pushed calls).length < k.toNatClampNeg → t.getResult = (pushed calls).min?) ∧
      ∀ calls' t', (pushed calls').Perm (pushed calls) →
        exec step (new k) calls' = some t' → t'.getResult = t.getResult := by
  have hk' : 0 < k := Int32.lt_of_lt_of_le (by decide) hk
  have hpos : 0 < k.toNatClampNeg := by
    have hle := Int32.le_iff_toInt_le.mp hk
    rw [← Int32.cast_toNatClampNeg k (Int32.le_of_lt hk'), Int32.toInt_one] at hle
    omega
  obtain ⟨t, hrun, h⟩ := (holds_new k).run hk' calls
  refine ⟨t, hrun, ?_, h.contents, h.getResult_of_le hpos, h.getResult_of_lt,
    fun calls' t' hperm hrun' => ?_⟩
  · rw [h.largest.card, Multiset.coe_card, Nat.min_comm]
    rfl
  · obtain ⟨u, hu, h'⟩ := (holds_new k).run hk' calls'
    obtain rfl : u = t' := Option.some.inj (hu.symm.trans hrun')
    rw [h.getResult, h'.getResult]
    exact congrArg (fun l => (l.take k.toNatClampNeg).getLast?) (descending_eq_of_perm hperm)

/-- The two largest of four samples. -/
theorem tailLatency_two : ∃ t,
    exec step (new 2) [.push 5, .clear, .push 3, .push 8, .push 1, .push 8] = some t ∧
      t.getResult = some 8 := by
  obtain ⟨t, hrun, -, -, hresult, -⟩ := tailLatency_kth_largest 2 (by decide)
    [.push 5, .clear, .push 3, .push 8, .push 1, .push 8]
  exact ⟨t, hrun, hresult (by decide)⟩

end TailLatency

end CachelibArchive.ClientServer
