import CachelibArchive.Backend.AutoIncCache
import CachelibArchive.ClientServer.Exchange

/-!
# What the cache of a backend accepts, and what it carries

`AutoIncCache` turns away values of more than 4 MiB. The arrays of the shared message hold one
MiB of value and 512 bytes of key, and the strings in them end at their first NUL. Between the
one limit and the other lie the values that are accepted and not carried.
-/

namespace CachelibArchive.Backend

open ClientServer

/-- An `AutoIncCache` with its client, where every name is any string of bytes. -/
structure CacheNames where
  counter : Int32
  subpoolName : List UInt8
  client : CachelibClient

namespace CacheNames

/-- `std::to_string(counter) + "_" + subpool_name + "_" + key`. -/
def fullKey (r : CacheNames) (key : List UInt8) : List UInt8 :=
  decimalInt r.counter.toInt ++ 95 :: (r.subpoolName ++ 95 :: key)

/-- The key in the cache of the server. -/
def slot (r : CacheNames) (key : List UInt8) : CString := r.client.prefixed (r.fullKey key)

/-- `AutoIncCache::set_`: its result, and the cache and the message after the exchange, if that
is defined. -/
def set_ (r : CacheNames) (server : Cache) (m : ShmStru) (key value : List UInt8)
    (allocated : Bool) : Bool × Option (Cache × ShmStru) :=
  if AutoIncCache.maxValueSize < value.length then (false, some (server, m))
  else (true, exchangeSet r.client server m (r.fullKey key) value allocated)

/-- `AutoIncCache::get_`: the string returned, and the message and the array `getValue` after the
exchange. -/
def get_ (r : CacheNames) (server : Cache) (m : ShmStru) (getValue : CharBuffer)
    (key : List UInt8) : Option (List UInt8 × ShmStru × CharBuffer) :=
  (exchangeGet r.client server m getValue (r.fullKey key)).map fun reply =>
    (reply.1.bytes, reply.2)

/-- The key and the value, up to their first NUL, leave room for a terminator. -/
def Fits (r : CacheNames) (key value : List UInt8) : Prop :=
  (r.slot key).length < shmKeySize ∧ (CString.ofBytes value).length < shmValueSize

instance (r : CacheNames) (key value : List UInt8) : Decidable (r.Fits key value) :=
  inferInstanceAs (Decidable (_ ∧ _))

variable {r : CacheNames} {server : Cache} {key value : List UInt8} {allocated : Bool}

/-- A set that fits reaches the server. -/
theorem set_of_fits (h : r.Fits key value) (hlen : value.length ≤ AutoIncCache.maxValueSize)
    (server : Cache) (m : ShmStru) (allocated : Bool) :
    ∃ m', r.set_ server m key value allocated = (true, some ((ClientServer.set_ server
      r.client.pid (r.slot key) (.ofBytes value) allocated).1, m')) := by
  have hfits : (Action.call (.setKV (r.fullKey key) value)).Fits r.client := h
  obtain ⟨m', hm⟩ := exchangeSet_of_fits hfits server m allocated
  rw [set_, if_neg (Nat.not_lt.mpr hlen), hm]
  exact ⟨m', rfl⟩

/-- A get of a key that fits returns what the server has, or the empty string. -/
theorem get_of_fits (hkey : (r.slot key).length < shmKeySize)
    (hroom : ∀ v ∈ server.find (r.slot key), v.length < shmValueSize) (m : ShmStru)
    (getValue : CharBuffer) : ∃ m' getValue', r.get_ server m getValue key =
      some (((server.find (r.slot key)).getD .empty).bytes, m', getValue') := by
  have hfits : (Action.call (.getKV (r.fullKey key))).Fits r.client := hkey
  obtain ⟨m', getValue', hget⟩ := exchangeGet_of_fits hfits hroom m getValue
  refine ⟨m', getValue', ?_⟩
  rw [get_, hget]
  rfl

/-- A get that is defined returns what the server has, of a key and a string that fit. -/
theorem of_get {m : ShmStru} {getValue : CharBuffer} {v : List UInt8}
    {rest : ShmStru × CharBuffer} (h : r.get_ server m getValue key = some (v, rest)) :
    (∀ u ∈ server.find (r.slot key), u.length < shmValueSize) ∧
      (r.slot key).length < shmKeySize ∧ v = ((server.find (r.slot key)).getD .empty).bytes := by
  obtain ⟨reply, hreply, heq⟩ := Option.map_eq_some_iff.mp h
  obtain ⟨hroom, hkey, hfound⟩ := of_exchangeGet hreply
  exact ⟨hroom, hkey, (Prod.mk.inj heq).1.symm.trans (congrArg CString.bytes hfound)⟩

/-- What has been set is what is got, up to its first NUL. -/
theorem get_set_of_fits (h : r.Fits key value) (server : Cache) (m : ShmStru)
    (getValue : CharBuffer) :
    ∃ m' getValue', r.get_ (ClientServer.set_ server r.client.pid (r.slot key) (.ofBytes value)
      true).1 m getValue key = some ((CString.ofBytes value).bytes, m', getValue') := by
  have hfind : (ClientServer.set_ server r.client.pid (r.slot key) (.ofBytes value) true).1.find
      (r.slot key) = some (.ofBytes value) := by
    rw [ClientServer.set_, if_pos rfl, find_update_same]
    rfl
  have hroom : ∀ v ∈ some (CString.ofBytes value), v.length < shmValueSize := by
    intro v hv
    obtain rfl := Option.mem_some.mp hv
    exact h.2
  rw [← hfind] at hroom
  obtain ⟨m', getValue', hget⟩ := get_of_fits h.1 hroom m getValue
  rw [hfind] at hget
  exact ⟨m', getValue', hget⟩

/-- An accepted value is carried: every copy of the set stays inside its array, and if the value
is not empty and the server has taken it, the next get returns it, from copies inside as well. -/
def Carries (r : CacheNames) (key value : List UInt8) (allocated : Bool) : Prop :=
  ∀ (server : Cache) (m : ShmStru) (getValue : CharBuffer),
    (r.set_ server m key value allocated).1 = true →
    ∃ server' m', (r.set_ server m key value allocated).2 = some (server', m') ∧
      (value ≠ [] → allocated = true →
        ∃ m'' getValue', r.get_ server' m' getValue key = some (value, m'', getValue'))

/-- A value is carried exactly if it is turned away, or key and value fit their arrays and no
value the server takes holds a NUL. -/
theorem carries_iff (r : CacheNames) (key value : List UInt8) (allocated : Bool) :
    r.Carries key value allocated ↔ AutoIncCache.maxValueSize < value.length ∨
      r.Fits key value ∧ (allocated = true → 0 ∉ value) := by
  by_cases hlen : AutoIncCache.maxValueSize < value.length
  · refine iff_of_true (fun server m getValue haccept => ?_) (.inl hlen)
    rw [set_, if_pos hlen] at haccept
    exact absurd haccept Bool.false_ne_true
  · rw [or_iff_right hlen]
    constructor
    · intro h
      -- any cache and message will do
      obtain ⟨server', m', hset, hget⟩ := h (fun _ => none) ⟨0, 0, .zero⟩ .zero
        (by rw [set_, if_neg hlen])
      have hfits : r.Fits key value := by
        rw [set_, if_neg hlen] at hset
        exact exchangeSet_isSome.mp (Option.isSome_of_eq_some hset)
      refine ⟨hfits, ?_⟩
      rintro rfl hnul
      obtain ⟨m₁, hset₁⟩ :=
        set_of_fits hfits (Nat.not_lt.mp hlen) (fun _ => none) ⟨0, 0, .zero⟩ true
      rw [hset₁] at hset
      obtain ⟨rfl, rfl⟩ := Prod.mk.inj (Option.some.inj hset)
      obtain ⟨m₂, getValue₂, hget₂⟩ := get_set_of_fits hfits (fun _ => none) m₁ .zero
      obtain ⟨m₃, getValue₃, hget₃⟩ := hget (List.ne_nil_of_mem hnul) rfl
      rw [hget₂] at hget₃
      have hbytes : (CString.ofBytes value).bytes = value :=
        (Prod.mk.inj (Option.some.inj hget₃)).1
      exact (CString.ofBytes value).nul_free (hbytes.symm ▸ hnul)
    · rintro ⟨hfits, hnul⟩ server m getValue -
      obtain ⟨m', hset⟩ := set_of_fits hfits (Nat.not_lt.mp hlen) server m allocated
      rw [hset]
      refine ⟨_, m', rfl, ?_⟩
      rintro - rfl
      obtain ⟨m₂, getValue₂, hget⟩ := get_set_of_fits hfits server m' getValue
      rw [CString.ofBytes_of_nul_free (hnul rfl)] at hget
      exact ⟨m₂, getValue₂, hget⟩

/-- Letters that fill the value array leave no room for a terminator. -/
theorem not_carries_letters {n : Nat} (hfull : shmValueSize ≤ n)
    (haccept : n ≤ AutoIncCache.maxValueSize) :
    ¬r.Carries key (List.replicate n 97) allocated := by
  have hlen : (List.replicate n (97 : UInt8)).length = n := List.length_replicate
  have hnul : (0 : UInt8) ∉ List.replicate n 97 := fun h =>
    absurd (List.eq_of_mem_replicate h) (by decide)
  have htaken : ¬AutoIncCache.maxValueSize < (List.replicate n (97 : UInt8)).length := by
    rw [hlen]
    exact Nat.not_lt.mpr haccept
  intro h
  obtain ⟨server', m', hset, -⟩ := h (fun _ => none) ⟨0, 0, .zero⟩ .zero
    (by rw [set_, if_neg htaken])
  rw [set_, if_neg htaken] at hset
  have hfits := (exchangeSet_isSome.mp (Option.isSome_of_eq_some hset)).2
  rw [CString.length, CString.ofBytes_of_nul_free hnul, hlen] at hfits
  exact Nat.not_lt.mpr hfull hfits

/-- A value of one MiB is accepted, and its terminator is written behind the value array. -/
theorem not_carries_mebibyte :
    ¬Carries ⟨0, [], ⟨0, []⟩⟩ [107] (List.replicate 1048576 97) true :=
  not_carries_letters (Nat.le_refl shmValueSize) (by decide)

end CacheNames

/-! ## The calls of the backends -/

namespace AutoIncCache

/-- An `AutoIncCache` as the backends make it. -/
def names (a : AutoIncCache) : CacheNames := ⟨a.counter, a.subpoolName.bytes, a.client⟩

/-- Where the strings fit, the exchanges are the calls `set_` and `get_` on the cache. -/
theorem set_eq_of_fits {a : AutoIncCache} {key value : List UInt8} (h : a.names.Fits key value)
    (hlen : value.length ≤ maxValueSize) (server : Cache) (m : ShmStru) (allocated : Bool) :
    ∃ m', a.names.set_ server m key value allocated =
      ((a.set_ server key value allocated).1,
        some ((a.set_ server key value allocated).2, m')) := by
  rw [set_, if_neg (Nat.not_lt.mpr hlen)]
  exact CacheNames.set_of_fits h hlen server m allocated

theorem get_eq_of_fits {a : AutoIncCache} {server : Cache} {key : List UInt8}
    (hkey : (a.slot key).length < shmKeySize)
    (hroom : ∀ v ∈ server.find (a.slot key), v.length < shmValueSize) (m : ShmStru)
    (getValue : CharBuffer) :
    ∃ m' getValue', a.names.get_ server m getValue key = some (a.get_ server key, m', getValue') :=
  CacheNames.get_of_fits (r := a.names) hkey hroom m getValue

end AutoIncCache

end CachelibArchive.Backend
