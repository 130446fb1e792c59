import Mathlib.Data.List.Basic
import Mathlib.Data.List.Nodup
import Mathlib.Order.Lattice

/-!
# Singly linked lists in an address space

Nodes have an address and a link; a chain is the list of nodes met when links
are followed from a pointer until the null address. Chains are read off a link
function, so the rules below say how they survive a change of that function:
at nodes outside the chain, and by appending one node at its tail.
-/

namespace Linked

variable {N P : Type*} {addr next next' : N → P} {nil p : P} {e : N} {L : List N}

/-- Following links from a pointer visits exactly these nodes and ends at null. -/
def Chain (addr next : N → P) (nil : P) : P → List N → Prop
  | p, [] => p = nil
  | p, e :: L => p = addr e ∧ Chain addr next nil (next e) L

@[simp] theorem chain_nil : Chain addr next nil p [] ↔ p = nil := Iff.rfl

@[simp] theorem chain_cons :
    Chain addr next nil p (e :: L) ↔ p = addr e ∧ Chain addr next nil (next e) L := Iff.rfl

/-- Only links of visited nodes matter. -/
theorem Chain.congr (h : ∀ e ∈ L, next' e = next e) (hc : Chain addr next nil p L) :
    Chain addr next' nil p L := by
  induction L generalizing p with
  | nil => exact hc
  | cons e L ih =>
    obtain ⟨hp, hc⟩ := hc
    refine ⟨hp, ih (fun x hx => h x (List.mem_cons_of_mem e hx)) ?_⟩
    rwa [h e List.mem_cons_self]

/-- Redirecting the last link to a fresh node appends that node. -/
theorem Chain.concat {a : N} (hc : Chain addr next nil p (L ++ [a]))
    (hkeep : ∀ x ∈ L, next' x = next x) (hlink : next' a = addr e) (hend : next' e = nil) :
    Chain addr next' nil p (L ++ [a] ++ [e]) := by
  induction L generalizing p with
  | nil => exact ⟨hc.1, hlink, hend⟩
  | cons x L ih =>
    obtain ⟨hp, hc⟩ := hc
    refine ⟨hp, ?_⟩
    rw [hkeep x List.mem_cons_self]
    exact ih hc fun y hy => hkeep y (List.mem_cons_of_mem x hy)

/-- A chain splits at a node: links lead to it, and its link leads on. -/
theorem chain_append_cons {A : List N} : Chain addr next nil p (A ++ e :: L) ↔
    Chain addr next (addr e) p A ∧ Chain addr next nil (next e) L := by
  induction A generalizing p with
  | nil => rfl
  | cons a A ih => rw [List.cons_append, chain_cons, chain_cons, ih, and_assoc]

/-- The part of a chain behind a node is a chain from that node's link. -/
theorem Chain.suffix {A : List N} (hc : Chain addr next nil p (A ++ e :: L)) :
    Chain addr next nil (next e) L := (chain_append_cons.mp hc).2

/-- A pointer starts chains of one length only, if the link of a node depends on
its address and no node is at the null address. -/
theorem Chain.length_eq {L' : List N} (hdet : ∀ a b, addr a = addr b → next a = next b)
    (hL : ∀ a ∈ L, addr a ≠ nil) (hL' : ∀ a ∈ L', addr a ≠ nil)
    (h : Chain addr next nil p L) (h' : Chain addr next nil p L') : L.length = L'.length := by
  induction L generalizing p L' with
  | nil =>
    cases L' with
    | nil => rfl
    | cons b L' => exact absurd (h'.1.symm.trans h) (hL' b List.mem_cons_self)
  | cons a L ih =>
    cases L' with
    | nil => exact absurd (h.1.symm.trans h') (hL a List.mem_cons_self)
    | cons b L' =>
      have hab := hdet a b (h.1.symm.trans h'.1)
      rw [List.length_cons, List.length_cons, ih (fun x hx => hL x (List.mem_cons_of_mem a hx))
        (fun x hx => hL' x (List.mem_cons_of_mem b hx)) h.2 (hab ▸ h'.2)]

/-- A chain that ends meets no address twice. -/
theorem Chain.nodup (hdet : ∀ a b, addr a = addr b → next a = next b)
    (hL : ∀ a ∈ L, addr a ≠ nil) (h : Chain addr next nil p L) : (L.map addr).Nodup := by
  induction L generalizing p with
  | nil => exact .nil
  | cons a L ih =>
    have htail := ih (fun x hx => hL x (List.mem_cons_of_mem a hx)) h.2
    refine List.nodup_cons.mpr ⟨?_, htail⟩
    intro hmem
    obtain ⟨b, hb, hab⟩ := List.mem_map.mp hmem
    obtain ⟨A, C, rfl⟩ := List.append_of_mem hb
    -- the same address would start a longer and a shorter chain
    have hlong : Chain addr next nil (next a) (A ++ b :: C) := h.2
    have hshort : Chain addr next nil (next a) C := hdet b a hab ▸ hlong.suffix
    have hlen := hlong.length_eq hdet (fun x hx => hL x (List.mem_cons_of_mem a hx))
      (fun x hx => hL x (by simp [hx])) hshort
    rw [List.length_append, List.length_cons] at hlen
    omega

/-- Renaming the nodes renames the chain. -/
theorem chain_map {M : Type*} (g : M → N) {L : List M} :
    Chain addr next nil p (L.map g) ↔ Chain (addr ∘ g) (next ∘ g) nil p L := by
  induction L generalizing p with
  | nil => rfl
  | cons a L ih => rw [List.map_cons, chain_cons, chain_cons, ih]; rfl

/-- Links that only lead to nodes of larger bounded rank end every chain. The
rank bound is the termination argument; `S` is the set of nodes links stay in. -/
theorem exists_chain {S : N → Prop} (rank : N → Nat) (bound : Nat)
    (hrank : ∀ e, S e → rank e < bound)
    (hstep : ∀ e, S e → next e = nil ∨ ∃ e', S e' ∧ next e = addr e' ∧ rank e < rank e')
    (hs : S e) : ∃ L, Chain addr next nil (addr e) (e :: L) ∧ ∀ x ∈ e :: L, S x := by
  induction hm : bound - rank e using Nat.strong_induction_on generalizing e with
  | _ m ih =>
    subst hm
    rcases hstep e hs with h | ⟨e', hs', hlink, hlt⟩
    · exact ⟨[], ⟨rfl, h⟩, by simpa using hs⟩
    · have hb := hrank e' hs'
      obtain ⟨L, hc, hall⟩ := ih (bound - rank e') (by omega) hs' rfl
      refine ⟨e' :: L, ⟨rfl, by rwa [hlink]⟩, ?_⟩
      intro x hx
      rcases List.mem_cons.mp hx with rfl | hx
      · exact hs
      · exact hall x hx

end Linked
