import CachelibArchive.Backend.Record

/-!
# The domain of the record codec

`pack_values` forgets where its fields end, and `unpack_values` cuts by the field size alone.
So unpacking always answers a list that is cut at the field size, and gives a list of fields
back exactly if that list is.
-/

namespace CachelibArchive.Backend

/-- The loop of `unpack_values` with a bound on its passes; `none` if they do not suffice. -/
def unpackWithin (packed : List UInt8) (maxFieldSize : Nat) :
    Nat → Nat → Option (List (List UInt8))
  | 0, _ => none
  | fuel + 1, start =>
    if start < packed.length then
      (unpackWithin packed maxFieldSize fuel (start + maxFieldSize)).map
        ((packed.drop start).take maxFieldSize :: ·)
    else some []

variable {s : Nat}

/-- The loop ends: one pass more than there are bytes left is enough. -/
theorem unpackWithin_eq (hs : 0 < s) (packed : List UInt8) {fuel start : Nat}
    (hfuel : packed.length ≤ start + fuel) :
    unpackWithin packed s (fuel + 1) start = some (unpackLoop packed s fuel start) := by
  induction fuel generalizing start with
  | zero =>
    have hend : ¬start < packed.length := by omega
    rw [unpackWithin, if_neg hend, unpackLoop]
  | succ fuel ih =>
    rw [unpackWithin, unpackLoop]
    split
    · rw [ih (by omega), Option.map_some]
    · rfl

/-- Two fields of three and two bytes come back at a field size of three. -/
example : unpackValues (packValues [[1, 2, 3], [4, 5]]) 3 = [[1, 2, 3], [4, 5]] :=
  (unpack_pack_iff (by decide) _).mpr (by decide)

/-- The exact domain of the codec: unpacking ends and is undone by packing, its pieces are cut
at the field size, and packing is undone by unpacking on the lists that are cut so, and on
these only. -/
theorem codec_domain (s : Nat) (hs : 0 < s) :
    (∀ packed : List UInt8,
      (∃ passes, unpackWithin packed s passes 0 = some (unpackValues packed s)) ∧
      packValues (unpackValues packed s) = packed ∧
      (∀ v ∈ (unpackValues packed s).dropLast, v.length = s) ∧
      ∀ v ∈ (unpackValues packed s).getLast?, 1 ≤ v.length ∧ v.length ≤ s) ∧
    ∀ values : List (List UInt8), unpackValues (packValues values) s = values ↔
      (∀ v ∈ values.dropLast, v.length = s) ∧
      ∀ v ∈ values.getLast?, 1 ≤ v.length ∧ v.length ≤ s := by
  refine ⟨fun packed => ⟨?_, pack_unpack hs packed, ?_⟩, fun values => ?_⟩
  · exact ⟨packed.length + 1, unpackWithin_eq hs packed (by omega)⟩
  · have hcut := cut_unpackValues hs packed
    exact ⟨hcut.full, hcut.last⟩
  · rw [unpack_pack_iff hs]
    exact ⟨fun h => ⟨h.full, h.last⟩, fun h => ⟨h.1, h.2⟩⟩

/-- Fields of two bytes. -/
theorem codec_domain_two :
    unpackValues (packValues [[1, 2], [3]]) 2 = [[1, 2], [3]] ∧
      unpackValues (packValues [[1], [2, 3]]) 2 ≠ [[1], [2, 3]] := by
  have h := (codec_domain 2 (by decide)).2
  rw [h, ne_eq, h]
  decide

end CachelibArchive.Backend
