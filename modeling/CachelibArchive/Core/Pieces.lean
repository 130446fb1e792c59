import Mathlib.Data.List.Basic

/-!
# Cutting a list into pieces

A list of pieces is cut at `s` if every piece but the last holds `s` elements and the last at
least one and at most `s`. The boundaries of such a list are not lost by concatenation: it is
the only one with its concatenation.
-/

namespace CachelibArchive.Pieces

variable {α : Type*}

/-- Every piece but the last is full, and the last is neither empty nor overfull. -/
structure Cut (s : Nat) (pieces : List (List α)) : Prop where
  full : ∀ v ∈ pieces.dropLast, v.length = s
  last : ∀ v ∈ pieces.getLast?, 1 ≤ v.length ∧ v.length ≤ s

instance (s : Nat) (pieces : List (List α)) : Decidable (Cut s pieces) :=
  decidable_of_iff ((∀ v ∈ pieces.dropLast, v.length = s) ∧
      ∀ v ∈ pieces.getLast?, 1 ≤ v.length ∧ v.length ≤ s)
    ⟨fun h => ⟨h.1, h.2⟩, fun h => ⟨h.full, h.last⟩⟩

/-- The empty list is cut into no pieces. -/
theorem cut_nil (s : Nat) : Cut s ([] : List (List α)) where
  full _ hv := nomatch hv
  last _ hv := nomatch hv

/-- The last piece may be shorter than the others, and is not empty. -/
theorem cut_singleton {s : Nat} {v : List α} : Cut s [v] ↔ 1 ≤ v.length ∧ v.length ≤ s := by
  constructor
  · intro h
    exact h.last v rfl
  · intro h
    refine ⟨fun _ hv => (nomatch hv), fun w hw => ?_⟩
    obtain rfl : v = w := by simpa using hw
    exact h

/-- A piece that is not the last is full. -/
theorem cut_cons_cons {s : Nat} {v w : List α} {rest : List (List α)} :
    Cut s (v :: w :: rest) ↔ v.length = s ∧ Cut s (w :: rest) := by
  have hdrop : (v :: w :: rest).dropLast = v :: (w :: rest).dropLast := rfl
  have hlast : (v :: w :: rest).getLast? = (w :: rest).getLast? := List.getLast?_cons_cons
  constructor
  · rintro ⟨hfull, hpiece⟩
    rw [hdrop, List.forall_mem_cons] at hfull
    rw [hlast] at hpiece
    exact ⟨hfull.1, hfull.2, hpiece⟩
  · rintro ⟨hv, hfull, hpiece⟩
    refine ⟨?_, ?_⟩
    · rw [hdrop, List.forall_mem_cons]
      exact ⟨hv, hfull⟩
    · rw [hlast]
      exact hpiece

/-- Pieces that are all full are cut. -/
theorem cut_of_full {s : Nat} (hpos : 1 ≤ s) {pieces : List (List α)}
    (h : ∀ v ∈ pieces, v.length = s) : Cut s pieces := by
  refine ⟨fun v hv => h v (List.dropLast_subset _ hv), fun v hv => ?_⟩
  have hlen := h v (List.mem_of_mem_getLast? hv)
  omega

/-- A list that is cut goes on being cut behind its first piece. -/
theorem Cut.tail {s : Nat} {v : List α} {rest : List (List α)} (h : Cut s (v :: rest)) :
    Cut s rest := by
  cases rest with
  | nil => exact cut_nil s
  | cons w rest => exact (cut_cons_cons.mp h).2

/-- The first piece takes what it can. -/
theorem Cut.head {s : Nat} {v : List α} {rest : List (List α)} (h : Cut s (v :: rest)) :
    v.length = min s (v :: rest).flatten.length := by
  cases rest with
  | nil =>
    have hv := cut_singleton.mp h
    simp only [List.flatten_cons, List.flatten_nil, List.append_nil]
    omega
  | cons w rest =>
    have hv := (cut_cons_cons.mp h).1
    rw [List.flatten_cons, List.length_append, hv]
    omega

/-- No piece is empty. -/
theorem Cut.ne_nil {s : Nat} (hpos : 1 ≤ s) {v : List α} {rest : List (List α)}
    (h : Cut s (v :: rest)) : v ≠ [] := by
  rintro rfl
  cases rest with
  | nil => exact absurd (cut_singleton.mp h).1 (by simp)
  | cons w rest =>
    have hv : ([] : List α).length = s := (cut_cons_cons.mp h).1
    rw [List.length_nil] at hv
    omega

/-- Two lists that are cut at the same size and concatenate to the same list are the same. -/
theorem Cut.eq_of_flatten {s : Nat} (hpos : 1 ≤ s) {ps qs : List (List α)} (hp : Cut s ps)
    (hq : Cut s qs) (h : ps.flatten = qs.flatten) : ps = qs := by
  induction ps generalizing qs with
  | nil =>
    cases qs with
    | nil => rfl
    | cons q qs =>
      have hempty : q = [] := (List.append_eq_nil_iff.mp h.symm).1
      exact absurd hempty (hq.ne_nil hpos)
  | cons p ps ih =>
    cases qs with
    | nil =>
      have hempty : p = [] := (List.append_eq_nil_iff.mp h).1
      exact absurd hempty (hp.ne_nil hpos)
    | cons q qs =>
      have hlen : p.length = q.length := by rw [hp.head, hq.head, h]
      obtain ⟨hhead, hrest⟩ := List.append_inj h hlen
      rw [hhead, ih hp.tail hq.tail hrest]

end CachelibArchive.Pieces
