import CachelibArchive.Core.Pieces

/-!
# Records and queries

A record is a list of fields of one fixed size. The backends store the fields
one behind the other and cut them apart again by that size. A sequence of
queries inserts, under every key, a list of records.
-/

namespace CachelibArchive.Backend

open Pieces

/-- The constants of a configuration header that the backends read. -/
structure Config where
  maxRecords : Nat
  maxFields : Nat
  maxFieldSize : Nat
  size_pos : 0 < maxFieldSize

/-- The shipped configuration: 1000 records of one field of 128 characters. -/
def shipped : Config := ⟨1000, 1, 128, by decide⟩

/-- A field as the workload fills it: exactly `MAX_FIELD_SIZE` characters, none of them NUL. -/
structure Field (cfg : Config) where
  bytes : List UInt8
  full : bytes.length = cfg.maxFieldSize
  text : (0 : UInt8) ∉ bytes

theorem Field.bytes_injective {cfg : Config} :
    Function.Injective (Field.bytes : Field cfg → List UInt8) := by
  rintro ⟨b, _, _⟩ ⟨b', _, _⟩ rfl
  rfl

instance {cfg : Config} : DecidableEq (Field cfg) := Field.bytes_injective.decidableEq

/-- A field of one repeated letter. -/
def letters (c : UInt8) (hc : c ≠ 0) : Field shipped where
  bytes := List.replicate 128 c
  full := List.length_replicate
  text := fun h => hc (List.eq_of_mem_replicate h).symm

/-- The strings of a record. -/
abbrev strings {cfg : Config} (values : List (Field cfg)) : List (List UInt8) :=
  values.map Field.bytes

/-- `pack_values`: `std::accumulate` with concatenation. -/
def packValues (values : List (List UInt8)) : List UInt8 := values.foldl (fun a b => a ++ b) []

/-- The loop of `unpack_values`. -/
def unpackLoop (packed : List UInt8) (maxFieldSize : Nat) : Nat → Nat → List (List UInt8)
  | 0, _ => []
  | fuel + 1, start =>
    if start < packed.length then
      (packed.drop start).take maxFieldSize ::
        unpackLoop packed maxFieldSize fuel (start + maxFieldSize)
    else []

/-- `unpack_values`; every pass moves `start` on, so there are no more passes than bytes. -/
def unpackValues (packed : List UInt8) (maxFieldSize : Nat) : List (List UInt8) :=
  unpackLoop packed maxFieldSize packed.length 0

theorem packValues_eq_flatten (values : List (List UInt8)) :
    packValues values = values.flatten := by
  have hfold : ∀ a : List UInt8, values.foldl (fun a b => a ++ b) a = a ++ values.flatten := by
    induction values with
    | nil => simp
    | cons v values ih =>
      intro a
      rw [List.foldl_cons, ih, List.flatten_cons, List.append_assoc]
  rw [packValues, hfold, List.nil_append]

/-- What the loop cuts off is the text behind `start`. -/
theorem flatten_unpackLoop {size : Nat} (hpos : 0 < size) (packed : List UInt8) {fuel start : Nat}
    (hfuel : packed.length ≤ start + fuel) :
    (unpackLoop packed size fuel start).flatten = packed.drop start := by
  induction fuel generalizing start with
  | zero =>
    rw [Nat.add_zero] at hfuel
    rw [unpackLoop, List.flatten_nil, List.drop_eq_nil_of_le hfuel]
  | succ fuel ih =>
    rw [unpackLoop]
    split
    · rw [List.flatten_cons, ih (by omega), ← List.drop_drop, List.take_append_drop]
    · next hle => rw [List.flatten_nil, List.drop_eq_nil_of_le (Nat.not_lt.mp hle)]

/-- Packing restores whatever was unpacked. -/
theorem pack_unpack {s : Nat} (hs : 0 < s) (packed : List UInt8) :
    packValues (unpackValues packed s) = packed := by
  rw [packValues_eq_flatten, unpackValues, flatten_unpackLoop hs packed (by omega), List.drop_zero]

/-- A pass cuts `s` bytes off, or what is left of them. -/
theorem cut_unpackLoop {s : Nat} (hs : 0 < s) (packed : List UInt8) {fuel start : Nat}
    (hfuel : packed.length ≤ start + fuel) : Cut s (unpackLoop packed s fuel start) := by
  induction fuel generalizing start with
  | zero => exact cut_nil s
  | succ fuel ih =>
    rw [unpackLoop]
    split
    · next hlt =>
      have hlen : ((packed.drop start).take s).length = min s (packed.length - start) := by
        rw [List.length_take, List.length_drop]
      have hnext : Cut s (unpackLoop packed s fuel (start + s)) := ih (by omega)
      cases hrest : unpackLoop packed s fuel (start + s) with
      | nil =>
        rw [cut_singleton]
        omega
      | cons w rest =>
        -- another pass is made only behind a full piece
        have hmore : start + s < packed.length := by
          by_contra hend
          cases fuel with
          | zero => cases hrest
          | succ fuel =>
            rw [unpackLoop, if_neg hend] at hrest
            cases hrest
        rw [hrest] at hnext
        exact cut_cons_cons.mpr ⟨by omega, hnext⟩
    · exact cut_nil s

theorem cut_unpackValues {s : Nat} (hs : 0 < s) (packed : List UInt8) :
    Cut s (unpackValues packed s) :=
  cut_unpackLoop hs packed (by omega)

/-- Packing and unpacking keeps a list of fields exactly if it is cut at the field size. -/
theorem unpack_pack_iff {s : Nat} (hs : 0 < s) (values : List (List UInt8)) :
    unpackValues (packValues values) s = values ↔ Cut s values := by
  constructor
  · intro h
    rw [← h]
    exact cut_unpackValues hs _
  · intro h
    apply Cut.eq_of_flatten hs (cut_unpackValues hs _) h
    rw [← packValues_eq_flatten, pack_unpack hs, packValues_eq_flatten]

/-- Unpacking restores a packed record. -/
theorem unpackValues_pack {cfg : Config} (values : List (Field cfg)) :
    unpackValues (packValues (strings values)) cfg.maxFieldSize = strings values := by
  rw [unpack_pack_iff cfg.size_pos]
  apply cut_of_full cfg.size_pos
  intro v hv
  obtain ⟨f, _, rfl⟩ := List.mem_map.mp hv
  exact f.full

/-- No packed record holds a NUL. -/
theorem zero_not_mem_pack {cfg : Config} (values : List (Field cfg)) :
    (0 : UInt8) ∉ packValues (strings values) := by
  rw [packValues_eq_flatten]
  intro h
  obtain ⟨v, hv, hmem⟩ := List.mem_flatten.mp h
  obtain ⟨f, _, rfl⟩ := List.mem_map.mp hv
  exact f.text hmem

theorem strings_injective {cfg : Config} :
    Function.Injective (strings : List (Field cfg) → List (List UInt8)) := by
  exact List.map_injective_iff.mpr Field.bytes_injective

/-- Records of full fields are determined by their packed form. -/
theorem strings_eq_of_pack {cfg : Config} {values values' : List (Field cfg)}
    (h : packValues (strings values) = packValues (strings values')) : values = values' := by
  apply strings_injective
  rw [← unpackValues_pack values, h, unpackValues_pack]

/-! ## Queries -/

/-- A call of the interface `Backend`, on values of some type. -/
inductive Query (V : Type)
  | insert (key : Int) (values : V)
  | read (key : Int)

/-- Ways a call does not return: a string is made from the null pointer, or `values[0]` is
taken of no values. -/
inductive Thrown
  | nullString
  | noField
  deriving DecidableEq

/-- What a call returns, and the results it fills in. -/
abbrev Answer := Except Thrown (Bool × List (List UInt8))

namespace Query

variable {V : Type}

/-- What a query inserts under a key. -/
def inserts (key : Int) : Query V → Option V
  | .insert key' values => if key' = key then some values else none
  | .read _ => none

/-- Everything the queries insert under a key, oldest first. -/
def inserted (qs : List (Query V)) (key : Int) : List V := qs.filterMap (inserts key)

theorem inserted_snoc_same (qs : List (Query V)) (key : Int) (values : V) :
    inserted (qs ++ [.insert key values]) key = inserted qs key ++ [values] := by
  simp [inserted, inserts]

theorem inserted_snoc_of_ne (qs : List (Query V)) {key key' : Int} (hne : key' ≠ key)
    (values : V) : inserted (qs ++ [.insert key values]) key' = inserted qs key' := by
  simp [inserted, inserts, Ne.symm hne]

theorem inserted_snoc_read (qs : List (Query V)) (key key' : Int) :
    inserted (qs ++ [.read key]) key' = inserted qs key' := by
  simp [inserted, inserts]

end Query

end CachelibArchive.Backend
