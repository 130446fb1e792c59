import CachelibArchive.ClientServer.Session
import CachelibArchive.Core.Decimal

/-!
# The cache of a backend

`AutoIncCache` prefixes every key with a generation counter and the name of its
subpool before it asks its client, which adds the name of the pool. The cache
behind it is the server's: it outlives the backend, and may drop any item at any
time. Calls are taken as the exchanges they are, one at a time.
-/

namespace CachelibArchive.Backend

open ClientServer

/-- An `AutoIncCache` with its client. -/
structure AutoIncCache where
  counter : Int32
  subpoolName : CString
  pid : Int
  pool : CString

/-- The bytes of `"thread_"`. -/
def threadPrefix : List UInt8 := [116, 104, 114, 101, 97, 100, 95]

/-- The cache of a fresh backend after `Backend::enable_cache`. -/
def enableCache (threadId pid : Int) (pool : CString) : AutoIncCache :=
  ⟨0, .ofBytes (threadPrefix ++ decimalInt threadId), pid, pool⟩

namespace AutoIncCache

/-- The client passed to `initialize`. -/
def client (a : AutoIncCache) : CachelibClient := ⟨a.pid, a.pool.bytes⟩

/-- `std::to_string(counter) + "_" + subpool_name + "_" + key`. -/
def fullKey (a : AutoIncCache) (key : List UInt8) : List UInt8 :=
  decimalInt a.counter.toInt ++ 95 :: (a.subpoolName.bytes ++ 95 :: key)

/-- The key in the cache of the server. -/
def slot (a : AutoIncCache) (key : List UInt8) : CString := a.client.prefixed (a.fullKey key)

/-- The largest value `set_` passes on. -/
def maxValueSize : Nat := 4 * 1024 * 1024

/-- `AutoIncCache::set_`: its result, and the cache once the server has run `set_`. -/
def set_ (a : AutoIncCache) (server : Cache) (key value : List UInt8) (allocated : Bool) :
    Bool × Cache :=
  if maxValueSize < value.length then (false, server)
  else (true, (ClientServer.set_ server a.pid (a.slot key) (.ofBytes value) allocated).1)

/-- `AutoIncCache::get_`; a miss is the empty string. -/
def get_ (a : AutoIncCache) (server : Cache) (key : List UInt8) : List UInt8 :=
  ((server.find (a.slot key)).getD .empty).bytes

/-- What `AutoIncCache::invalidate_all_` makes of the counter, an `int` that wraps around. -/
def invalidateAll_ (counter : Int32) : Int32 := counter + 1

/-- The string cached for a key of this generation. -/
def entry (a : AutoIncCache) (server : Cache) (key : List UInt8) : Option (List UInt8) :=
  (server.find (a.slot key)).map CString.bytes

theorem get_eq (a : AutoIncCache) (server : Cache) (key : List UInt8) :
    a.get_ server key = (a.entry server key).getD [] := by
  rw [get_, entry]
  cases server.find (a.slot key) <;> rfl

theorem get_of_entry {a : AutoIncCache} {server : Cache} {key v : List UInt8}
    (h : a.entry server key = some v) : a.get_ server key = v := by
  rw [get_eq, h, Option.getD_some]

/-- An absent entry and an empty one are misses. -/
theorem get_of_miss {a : AutoIncCache} {server : Cache} {key : List UInt8}
    (h : ∀ v ∈ a.entry server key, v = []) : a.get_ server key = [] := by
  rw [get_eq]
  cases he : a.entry server key with
  | none => rfl
  | some v => exact h v he

/-! ## Slots -/

theorem slot_bytes (a : AutoIncCache) {key : List UInt8} (hkey : 0 ∉ key) :
    (a.slot key).bytes = (a.pool.bytes ++ [95]) ++ a.fullKey key := by
  apply CString.ofBytes_of_nul_free
  simp [CachelibClient.keyPrefix, client, fullKey, hkey, a.pool.nul_free, a.subpoolName.nul_free,
    zero_not_mem_decimalInt]

/-- Slots tell generations and keys apart. -/
theorem slot_inj {a : AutoIncCache} {c c' : Int32} {key key' : List UInt8} (hkey : 0 ∉ key)
    (hkey' : 0 ∉ key')
    (h : slot { a with counter := c } key = slot { a with counter := c' } key') :
    c = c' ∧ key = key' := by
  have hbytes := congrArg CString.bytes h
  rw [slot_bytes _ hkey, slot_bytes _ hkey'] at hbytes
  have hfull := List.append_cancel_left hbytes
  obtain ⟨hcounter, hrest⟩ := (separator_append_inj (underscore_not_mem_decimalInt _)
    (underscore_not_mem_decimalInt _)).mp hfull
  exact ⟨Int32.toInt_inj.mp (decimalInt_injective hcounter),
    (List.cons.inj (List.append_cancel_left hrest)).2⟩

/-! ## What a set changes -/

/-- The value reaches the cache: it is not too long, and memory could be allocated. -/
def Takes (value : List UInt8) (allocated : Bool) : Prop :=
  value.length ≤ maxValueSize ∧ allocated = true

instance (value : List UInt8) (allocated : Bool) : Decidable (Takes value allocated) :=
  inferInstanceAs (Decidable (_ ∧ _))

theorem set_snd (a : AutoIncCache) (server : Cache) (key value : List UInt8) (allocated : Bool) :
    (a.set_ server key value allocated).2 =
      if Takes value allocated then
        Function.update server (a.slot key) (some ⟨a.pid, .ofBytes value⟩)
      else server := by
  rw [set_]
  by_cases hlen : maxValueSize < value.length
  · have hnot : ¬Takes value allocated := fun ht => Nat.not_le.mpr hlen ht.1
    rw [if_pos hlen, if_neg hnot]
  · rw [if_neg hlen, ClientServer.set_]
    cases allocated with
    | false =>
      have hnot : ¬Takes value false := fun ht => Bool.false_ne_true ht.2
      rw [if_neg hnot]
      rfl
    | true =>
      have htakes : Takes value true := ⟨Nat.not_lt.mp hlen, rfl⟩
      rw [if_pos htakes]
      rfl

/-- The entry of the key itself: a value that is not taken leaves the previous one in place. -/
theorem entry_set_same (a : AutoIncCache) (server : Cache) (key : List UInt8)
    {value : List UInt8} (hvalue : 0 ∉ value) (allocated : Bool) :
    a.entry (a.set_ server key value allocated).2 key =
      if Takes value allocated then some value else a.entry server key := by
  rw [set_snd]
  split
  · rw [entry, find_update_same, Option.map_some, Option.map_some,
      CString.ofBytes_of_nul_free hvalue]
  · rfl

/-- Entries of other keys and of other generations stay. -/
theorem entry_set_of_ne {a : AutoIncCache} (server : Cache) {c c' : Int32}
    {key key' : List UInt8} (hkey : 0 ∉ key) (hkey' : 0 ∉ key') (hne : c' = c → key' ≠ key)
    (value : List UInt8) (allocated : Bool) :
    entry { a with counter := c' }
        (set_ { a with counter := c } server key value allocated).2 key' =
      entry { a with counter := c' } server key' := by
  have hslot : slot { a with counter := c' } key' ≠ slot { a with counter := c } key := by
    intro h
    obtain ⟨hc, hk⟩ := slot_inj hkey' hkey h
    exact hne hc hk
  rw [set_snd]
  split
  · rw [entry, find_update_of_ne _ hslot, entry]
  · rfl

/-- Entries of other keys, where keys are the numerals of integers. -/
theorem entry_set_decimal_of_ne (a : AutoIncCache) (server : Cache) {key key' : Int}
    (hne : key' ≠ key) (value : List UInt8) (allocated : Bool) :
    a.entry (a.set_ server (decimalInt key) value allocated).2 (decimalInt key') =
      a.entry server (decimalInt key') :=
  have hkeys : a.counter = a.counter → decimalInt key' ≠ decimalInt key :=
    fun _ => decimalInt_injective.ne hne
  entry_set_of_ne (a := a) server (zero_not_mem_decimalInt key) (zero_not_mem_decimalInt key')
    hkeys value allocated

end AutoIncCache

/-- The server drops an item. -/
def evict (server : Cache) (key : CString) : Cache := Function.update server key none

/-- Evictions remove an entry or leave it. -/
theorem AutoIncCache.entry_evict (a : AutoIncCache) (server : Cache) (ks : List CString)
    (key : List UInt8) :
    a.entry (ks.foldl evict server) key = none ∨
      a.entry (ks.foldl evict server) key = a.entry server key := by
  induction ks generalizing server with
  | nil => exact .inr rfl
  | cons k ks ih =>
    rcases ih (evict server k) with hnone | hsame
    · exact .inl hnone
    · rw [List.foldl_cons, hsame]
      by_cases hk : a.slot key = k
      · subst hk
        left
        rw [entry, evict, find_update_same]
        rfl
      · right
        rw [entry, evict, find_update_of_ne _ hk, entry]

end CachelibArchive.Backend
