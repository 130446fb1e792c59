import CachelibArchive.Core.CString
import Mathlib.Logic.Function.Basic

/-!
# The shared message and the cache

A session exchanges requests and replies through one `shm_stru` in shared memory.
Its key and value arrays are adjacent, so they are one buffer here: an overlong key
runs into the value, and reading the key stops at the first terminator of the two.
CacheLib is a map from keys to items; allocation may fail.
-/

namespace CachelibArchive.ClientServer

/-- `SHM_KEY_SIZE`: capacity of the key array. -/
def shmKeySize : Nat := 512

/-- `SHM_VALUE_SIZE`: capacity of the value array. -/
def shmValueSize : Nat := 1048576

/-- `SIG_CLOSE`. -/
def sigClose : Int := -1

/-- `SIG_SET`. -/
def sigSet : Int := 0

/-- `SIG_GET`. -/
def sigGet : Int := 1

/-- `SIG_DEL`. -/
def sigDel : Int := 2

/-- `shm_stru`; `text` is the key array followed by the value array. -/
structure ShmStru where
  /-- Request code. -/
  ctrl : Int
  /-- Pool of a set request. -/
  pid : Int
  /-- The arrays `key` (from 0) and `value` (from `shmKeySize`). -/
  text : CharBuffer

namespace ShmStru

/-- The string `message->key`. -/
def key (m : ShmStru) : CString := m.text.cstr 0 (shmKeySize + shmValueSize)

/-- The string `message->value`. -/
def value (m : ShmStru) : CString := m.text.cstr shmKeySize shmValueSize

end ShmStru

/-- What a request code and the fields it uses ask for. -/
inductive Request where
  | set (pid : Int) (key value : CString)
  | get (key : CString)
  | del (key : CString)
  | close
  | other (ctrl : Int)
  deriving DecidableEq

/-- The request code. -/
def Request.ctrl : Request → Int
  | .set .. => sigSet
  | .get _ => sigGet
  | .del _ => sigDel
  | .close => sigClose
  | .other c => c

/-- The request a message carries. -/
def ShmStru.request (m : ShmStru) : Request :=
  if m.ctrl = sigSet then .set m.pid m.key m.value
  else if m.ctrl = sigGet then .get m.key
  else if m.ctrl = sigDel then .del m.key
  else if m.ctrl = sigClose then .close
  else .other m.ctrl

@[simp] theorem ShmStru.ctrl_request (m : ShmStru) : m.request.ctrl = m.ctrl := by
  unfold request
  split_ifs <;> simp_all [Request.ctrl]

/-! ## Writing the message -/

/-- One assignment to the message. -/
inductive Write where
  /-- `message->ctrl = c` -/
  | ctrl (c : Int)
  /-- `message->pid = p` -/
  | pid (p : Int)
  /-- `memset(message->key, 0, sizeof(message->key))` -/
  | clearKey
  /-- `memset(message->value, 0, sizeof(message->value))` -/
  | clearValue
  /-- `strcpy(message->key, k)` -/
  | putKey (k : CString)
  /-- `strcpy(message->value, v)` -/
  | putValue (v : CString)
  deriving DecidableEq

namespace ShmStru

/-- The message after an assignment. -/
def write (m : ShmStru) : Write → ShmStru
  | .ctrl c => { m with ctrl := c }
  | .pid p => { m with pid := p }
  | .clearKey => { m with text := m.text.clear 0 shmKeySize }
  | .clearValue => { m with text := m.text.clear shmKeySize shmValueSize }
  | .putKey k => { m with text := m.text.strcpy 0 k }
  | .putValue v => { m with text := m.text.strcpy shmKeySize v }

/-- The message after a list of assignments. -/
def writeAll (m : ShmStru) (ws : List Write) : ShmStru := ws.foldl write m

@[simp] theorem writeAll_nil (m : ShmStru) : m.writeAll [] = m := rfl

@[simp] theorem writeAll_cons (m : ShmStru) (w : Write) (ws : List Write) :
    m.writeAll (w :: ws) = (m.write w).writeAll ws := rfl

theorem writeAll_append (m : ShmStru) (ws vs : List Write) :
    m.writeAll (ws ++ vs) = (m.writeAll ws).writeAll vs := List.foldl_append ..

/-- A key within its array is read back, whatever follows in the value array. -/
theorem key_eq {m : ShmStru} {k : CString} (h : m.text.HoldsAt 0 k) (hk : k.length < shmKeySize) :
    m.key = k := by
  rw [key, h.cstr]
  exact CString.take_of_length_le (by omega)

/-- Key and value of a message whose value was written after its key. -/
theorem write_putKey_putValue (m : ShmStru) {k v : CString} (hk : k.length < shmKeySize)
    (hv : v.length < shmValueSize) :
    (((m.write (.putKey k)).write (.putValue v)).key = k) ∧
      ((m.write (.putKey k)).write (.putValue v)).value = v := by
  constructor
  · exact key_eq (((m.text.holdsAt_strcpy 0 k)).strcpy (by omega) v) hk
  · rw [value]
    exact (CharBuffer.cstr_strcpy _ _ _ _).trans (CString.take_of_length_le hv.le)

/-- A key written after the value was cleared: it is read back and the value stays clear. -/
theorem write_clearValue_putKey (m : ShmStru) {k : CString} (hk : k.length < shmKeySize) :
    (((m.write .clearValue).write (.putKey k)).key = k) ∧
      ((m.write .clearValue).write (.putKey k)).text.ZeroAt shmKeySize shmValueSize := by
  constructor
  · exact key_eq (CharBuffer.holdsAt_strcpy _ 0 k) hk
  · have hclear := m.text.zeroAt_clear shmKeySize shmValueSize
    exact hclear.strcpy (by omega : 0 + k.length < shmKeySize)

end ShmStru

/-! ## The cache -/

/-- A cached item: the pool it was allocated in and its bytes. -/
structure Item where
  /-- Pool charged for the memory. -/
  pool : Int
  /-- The stored string. -/
  value : CString

/-- CacheLib as a map; every pool shares its keys. -/
abbrev Cache := CString → Option Item

/-- `set_`: nothing happens when the pool has no memory for the item. -/
def set_ (cache : Cache) (pid : Int) (key value : CString) (allocated : Bool) : Cache × Bool :=
  if allocated then (Function.update cache key (some ⟨pid, value⟩), true) else (cache, false)

/-- `get_`: the bytes of the item, without a terminator, are copied into the value array. -/
def get_ (cache : Cache) (key : CString) (m : ShmStru) : ShmStru × Bool :=
  match cache key with
  | none => (m, false)
  | some item => ({ m with text := m.text.memcpy shmKeySize item.value.bytes }, true)

/-- `del_`. -/
def del_ (cache : Cache) (key : CString) : Cache × Bool :=
  (Function.update cache key none, (cache key).isSome)

/-- The string stored under a key. -/
def Cache.find (cache : Cache) (key : CString) : Option CString := (cache key).map Item.value

@[simp] theorem find_update_same (cache : Cache) (key : CString) (item : Option Item) :
    Cache.find (Function.update cache key item) key = item.map Item.value := by
  simp [Cache.find]

@[simp] theorem find_update_of_ne (cache : Cache) {key key' : CString} (h : key' ≠ key)
    (item : Option Item) :
    Cache.find (Function.update cache key item) key' = cache.find key' := by
  simp [Cache.find, h]

/-- What is found after a removal was there before it. -/
theorem find_of_find_remove {cache : Cache} {key key' value : CString}
    (h : Cache.find (Function.update cache key none) key' = some value) :
    cache.find key' = some value := by
  by_cases hk : key' = key
  · subst hk
    rw [find_update_same] at h
    cases h
  · rwa [find_update_of_ne _ hk] at h

/-- The reply of a get: the bytes found, or nothing. -/
def reply (found : Option CString) : CString := (found.getD .empty).take shmValueSize

/-- After `get_` on a message with a clear value, the value is the reply: no other byte
is left in the array. -/
theorem value_get_ (cache : Cache) (key : CString) {m : ShmStru}
    (h : m.text.ZeroAt shmKeySize shmValueSize) :
    (get_ cache key m).1.value = reply (cache.find key) := by
  unfold get_ reply Cache.find
  cases cache key with
  | none => exact h.cstr.trans (CString.empty_take _).symm
  | some item => exact h.cstr_memcpy item.value

end CachelibArchive.ClientServer
