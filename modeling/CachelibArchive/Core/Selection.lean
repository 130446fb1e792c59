import Mathlib.Algebra.Order.Group.Multiset
import Mathlib.Data.List.Sort

/-!
# The largest elements of a multiset, and a queue that keeps them

A part of a multiset is its `k` largest elements if it has `k` elements, or all there are, and
nothing that is left out is above any of them. Such a part is unique, a new element changes it
in one of three ways, and the first `k` elements in descending order are one. A priority queue
is an ascending list: its least element is on top.
-/

namespace CachelibArchive.Selection

variable {α : Type*} [LinearOrder α]

/-- `t` is the `k` largest elements of `s`, all of them if there are fewer. -/
structure Largest (k : Nat) (s t : Multiset α) : Prop where
  le : t ≤ s
  card : t.card = min k s.card
  above : ∀ a ∈ t, ∀ b ∈ s - t, b ≤ a

namespace Largest

variable {k : Nat} {s t t' : Multiset α}

theorem zero (k : Nat) : Largest k (0 : Multiset α) 0 where
  le := le_rfl
  card := by simp
  above _ h := absurd h (Multiset.notMem_zero _)

/-- An element that the one part holds more often than the other, of as many elements, is a
match for everything the other holds more often. -/
theorem le_of_count_lt (h : Largest k s t) (h' : Largest k s t') {a b : α}
    (ha : t'.count a < t.count a) (hb : t.count b < t'.count b) : b ≤ a := by
  apply h.above a (Multiset.count_pos.mp (by omega)) b
  have hle := Multiset.count_le_of_le b h'.le
  rw [← Multiset.count_pos, Multiset.count_sub]
  omega

/-- Of two parts with as many elements, each holds some element more often, unless they are
the same. -/
theorem exists_count_lt {u v : Multiset α} (hcard : u.card = v.card) (hne : u ≠ v) :
    ∃ a, v.count a < u.count a := by
  by_contra hall
  push Not at hall
  exact hne (Multiset.eq_of_le_of_card_le (Multiset.le_iff_count.mpr hall) hcard.ge)

/-- There is one part of the `k` largest elements only. -/
theorem unique (h : Largest k s t) (h' : Largest k s t') : t = t' := by
  by_contra hne
  have hcard : t.card = t'.card := h.card.trans h'.card.symm
  obtain ⟨a, ha⟩ := exists_count_lt hcard hne
  obtain ⟨b, hb⟩ := exists_count_lt hcard.symm (Ne.symm hne)
  have hab : a = b := le_antisymm (h'.le_of_count_lt h hb ha) (h.le_of_count_lt h' ha hb)
  subst hab
  exact lt_asymm ha hb

/-- With less than `k` elements, nothing is left out. -/
theorem eq_of_card_lt (h : Largest k s t) (hlt : t.card < k) : t = s := by
  apply Multiset.eq_of_le_of_card_le h.le
  have hcard := h.card
  omega

/-- While there is room, a new element goes in. -/
theorem cons_of_card_lt (h : Largest k s t) (hlt : t.card < k) (x : α) :
    Largest k (x ::ₘ s) (x ::ₘ t) := by
  obtain rfl := h.eq_of_card_lt hlt
  refine ⟨le_rfl, ?_, fun _ _ b hb => ?_⟩
  · rw [Multiset.card_cons]
    omega
  · have hself := Multiset.add_sub_cancel_right (s := 0) (t := x ::ₘ t)
    rw [Multiset.zero_add] at hself
    rw [hself] at hb
    exact absurd hb (Multiset.notMem_zero b)

/-- Without room, an element that is not above the least is left out. -/
theorem cons_of_le (h : Largest k s t) (hk : t.card = k) {m x : α} (hm : ∀ a ∈ t, m ≤ a)
    (hx : x ≤ m) : Largest k (x ::ₘ s) t := by
  refine ⟨h.le.trans (Multiset.le_cons_self s x), ?_, fun a ha b hb => ?_⟩
  · have hcard := h.card
    rw [Multiset.card_cons]
    omega
  · rw [Multiset.cons_sub_of_le x h.le, Multiset.mem_cons] at hb
    obtain rfl | hb := hb
    · exact hx.trans (hm a ha)
    · exact h.above a ha b hb

/-- Without room, an element above the least takes its place. -/
theorem cons_of_lt (h : Largest k s t) (hk : t.card = k) {m x : α} (hmem : m ∈ t)
    (hm : ∀ a ∈ t, m ≤ a) (hx : m < x) : Largest k (x ::ₘ s) (x ::ₘ t.erase m) := by
  have hcons : m ::ₘ t.erase m = t := Multiset.cons_erase hmem
  have hleft : x ::ₘ s - x ::ₘ t.erase m = m ::ₘ (s - t) := by
    have hsub := Multiset.cons_sub_of_le m h.le
    rw [← hsub, ← hcons, Multiset.erase_cons_head, Multiset.sub_cons, Multiset.erase_cons_head,
      Multiset.sub_cons, Multiset.erase_cons_head]
  refine ⟨Multiset.cons_le_cons x ((Multiset.erase_le m t).trans h.le), ?_, fun a ha b hb => ?_⟩
  · have hcard := h.card
    rw [Multiset.card_cons, Multiset.card_erase_add_one hmem, Multiset.card_cons]
    omega
  · have hma : m ≤ a := by
      obtain rfl | ha := Multiset.mem_cons.mp ha
      · exact hx.le
      · exact hm a (Multiset.mem_of_mem_erase ha)
    rw [hleft] at hb
    obtain rfl | hb := Multiset.mem_cons.mp hb
    · exact hma
    · obtain rfl | ha := Multiset.mem_cons.mp ha
      · exact (h.above m hmem b hb).trans hx.le
      · exact h.above a (Multiset.mem_of_mem_erase ha) b hb

end Largest

/-! ## In descending order -/

/-- A list in descending order. -/
def descending (l : List α) : List α := l.insertionSort (· ≥ ·)

/-- Sorting keeps the elements. -/
theorem perm_descending (l : List α) : (descending l).Perm l := List.perm_insertionSort _ l

@[simp] theorem length_descending (l : List α) : (descending l).length = l.length :=
  (perm_descending l).length_eq

/-- The sorted list falls. -/
theorem pairwise_descending (l : List α) : (descending l).Pairwise (· ≥ ·) :=
  List.pairwise_insertionSort _ l

/-- The order a list came in is forgotten. -/
theorem descending_eq_of_perm {l l' : List α} (h : l.Perm l') : descending l = descending l' :=
  List.Perm.eq_of_pairwise' (pairwise_descending l) (pairwise_descending l')
    ((perm_descending l).trans (h.trans (perm_descending l').symm))

/-- The first `k` elements in descending order are the `k` largest. -/
theorem largest_take_descending (k : Nat) (l : List α) :
    Largest k (l : Multiset α) ((descending l).take k : Multiset α) := by
  have hsplit : (l : Multiset α) =
      ((descending l).take k : Multiset α) + ((descending l).drop k : Multiset α) := by
    rw [Multiset.coe_add, List.take_append_drop, Multiset.coe_eq_coe]
    exact (perm_descending l).symm
  have hsorted := pairwise_descending l
  rw [← List.take_append_drop k (descending l), List.pairwise_append] at hsorted
  refine ⟨?_, ?_, fun a ha b hb => ?_⟩
  · rw [hsplit]
    exact Multiset.le_add_right _ _
  · simp
  · rw [hsplit, add_tsub_cancel_left] at hb
    exact hsorted.2.2 a ha b hb

/-- The last element in descending order is the least. -/
theorem least_of_getLast? {l : List α} {m : α} (h : (descending l).getLast? = some m) :
    m ∈ l ∧ ∀ a ∈ l, m ≤ a := by
  obtain ⟨front, hfront⟩ := List.getLast?_eq_some_iff.mp h
  have hsorted := pairwise_descending l
  rw [hfront, List.pairwise_append] at hsorted
  have hmem : ∀ a, a ∈ l ↔ a ∈ front ++ [m] := fun a => by
    rw [← hfront]
    exact (perm_descending l).mem_iff.symm
  refine ⟨(hmem m).mpr (by simp), fun a ha => ?_⟩
  obtain ha | ha := List.mem_append.mp ((hmem a).mp ha)
  · exact hsorted.2.2 a ha m (by simp)
  · exact (List.mem_singleton.mp ha).ge

/-! ## The queue -/

/-- A priority queue with its least element on top. -/
structure PriorityQueue (α : Type*) [LinearOrder α] where
  elems : List α
  sorted : elems.Pairwise (· ≤ ·)

namespace PriorityQueue

/-- The queue without elements. -/
def empty : PriorityQueue α := ⟨[], .nil⟩

/-- How many elements the queue holds. -/
def size (q : PriorityQueue α) : Nat := q.elems.length

/-- The least element; there is none in an empty queue. -/
def top (q : PriorityQueue α) : Option α := q.elems.head?

/-- Add an element. -/
def push (q : PriorityQueue α) (x : α) : PriorityQueue α where
  elems := q.elems.orderedInsert (· ≤ ·) x
  sorted := q.sorted.orderedInsert x _

/-- Removes the least element. -/
def pop (q : PriorityQueue α) : PriorityQueue α := ⟨q.elems.tail, q.sorted.tail⟩

/-- What is in the queue. -/
def contents (q : PriorityQueue α) : Multiset α := q.elems

@[simp] theorem contents_empty : (empty : PriorityQueue α).contents = 0 := rfl

@[simp] theorem card_contents (q : PriorityQueue α) : q.contents.card = q.size := rfl

/-- Pushing adds one element. -/
@[simp] theorem contents_push (q : PriorityQueue α) (x : α) :
    (q.push x).contents = x ::ₘ q.contents := by
  rw [contents, contents, Multiset.cons_coe, Multiset.coe_eq_coe]
  exact List.perm_orderedInsert _ x q.elems

/-- An empty queue has no top, any other a least element. -/
theorem top_eq_none {q : PriorityQueue α} : q.top = none ↔ q.contents = 0 := by
  rw [top, List.head?_eq_none_iff, contents, Multiset.coe_eq_zero]

/-- The top is in the queue. -/
theorem mem_of_top {q : PriorityQueue α} {m : α} (h : q.top = some m) : m ∈ q.contents :=
  List.mem_of_head? h

/-- It is the first of the sorted elements. -/
theorem elems_of_top {q : PriorityQueue α} {m : α} (h : q.top = some m) :
    q.elems = m :: q.elems.tail := List.eq_cons_of_mem_head? h

/-- The top is the least element. -/
theorem top_le {q : PriorityQueue α} {m : α} (h : q.top = some m) : ∀ a ∈ q.contents, m ≤ a := by
  have hsorted := q.sorted
  rw [elems_of_top h, List.pairwise_cons] at hsorted
  intro a ha
  rw [contents, elems_of_top h, Multiset.mem_coe] at ha
  obtain rfl | ha := List.mem_cons.mp ha
  · exact le_rfl
  · exact hsorted.1 a ha

/-- Popping removes it. -/
theorem contents_pop {q : PriorityQueue α} {m : α} (h : q.top = some m) :
    q.pop.contents = q.contents.erase m := by
  have hcontents : q.contents = m ::ₘ (q.elems.tail : Multiset α) := by
    rw [contents, elems_of_top h, List.tail_cons]
    rfl
  rw [hcontents]
  exact (Multiset.erase_cons_head m (q.elems.tail : Multiset α)).symm

/-- The top of a queue that holds the first `k` elements of a descending list is the last of
them. -/
theorem top_of_contents {q : PriorityQueue α} {l : List α} (hl : l.Pairwise (· ≥ ·))
    (h : q.contents = (l : Multiset α)) : q.top = l.getLast? := by
  have hrev : q.elems = l.reverse := by
    apply List.Perm.eq_of_pairwise' q.sorted (List.pairwise_reverse.mpr hl)
    exact (Multiset.coe_eq_coe.mp h).trans (List.reverse_perm l).symm
  rw [top, hrev, List.head?_reverse]

end PriorityQueue

end CachelibArchive.Selection
