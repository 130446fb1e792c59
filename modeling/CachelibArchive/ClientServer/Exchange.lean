import CachelibArchive.ClientServer.Action

/-!
# One exchange, byte by byte

A set is written into the message and executed by the server; a get is written, executed, and
its reply copied out of the message. Every copy goes into an array of fixed size: an exchange
is undefined where one of them, with its terminator, does not stay inside.
-/

namespace CachelibArchive.ClientServer

/-- The bytes an assignment writes are inside their array, the terminator included. -/
def Write.Inside : Write → Prop
  | .putKey k => k.length + 1 ≤ shmKeySize
  | .putValue v => v.length + 1 ≤ shmValueSize
  | .ctrl _ | .pid _ | .clearKey | .clearValue => True

instance : (w : Write) → Decidable w.Inside
  | .putKey _ | .putValue _ => inferInstanceAs (Decidable (_ ≤ _))
  | .ctrl _ | .pid _ | .clearKey | .clearValue => inferInstanceAs (Decidable True)

/-- What an action writes stays inside the arrays exactly if its strings fit. -/
theorem Action.inside_iff_fits (c : CachelibClient) (a : Action) :
    (∀ w ∈ a.writes c, w.Inside) ↔ a.Fits c := by
  cases a with
  | destroy => simp only [writes, Fits, Write.Inside, List.forall_mem_singleton]
  | call k =>
    cases k <;>
      simp only [writes, Fits, Write.Inside, List.forall_mem_cons, List.not_mem_nil,
        false_implies, implies_true, true_and, and_true] <;> exact Iff.rfl

/-- `setKV`, and the arm `SIG_SET` of the server: the cache and the message afterwards. -/
def exchangeSet (c : CachelibClient) (cache : Cache) (m : ShmStru) (key value : List UInt8)
    (allocated : Bool) : Option (Cache × ShmStru) :=
  let writes := (Action.call (.setKV key value)).writes c
  if ∀ w ∈ writes, w.Inside then
    let m := m.writeAll writes
    some ((set_ cache m.pid m.key m.value allocated).1, m)
  else none

/-- `getKV`, and the arm `SIG_GET` of the server: the string returned, the message and the array
`getValue` afterwards. The branch on `randomNum` is always taken. -/
def exchangeGet (c : CachelibClient) (cache : Cache) (m : ShmStru) (getValue : CharBuffer)
    (key : List UInt8) : Option (CString × ShmStru × CharBuffer) :=
  let writes := (Action.call (.getKV key)).writes c
  if ∀ w ∈ writes, w.Inside then
    let m := m.writeAll writes
    -- the `memcpy` of `get_` into the value array
    if ∀ v ∈ cache.find m.key, v.length ≤ shmValueSize then
      let m := (get_ cache m.key m).1
      -- the `strcpy` of `getKV`, from an array that may hold no terminator
      if m.value.length + 1 ≤ shmValueSize then
        let getValue := (getValue.clear 0 shmValueSize).strcpy 0 m.value
        some (getValue.cstr 0 shmValueSize, m, getValue)
      else none
    else none
  else none

variable {c : CachelibClient} {cache : Cache} {m : ShmStru} {key value : List UInt8}

/-- A set is defined exactly if its strings fit. -/
theorem exchangeSet_isSome {allocated : Bool} :
    (exchangeSet c cache m key value allocated).isSome ↔
      (Action.call (.setKV key value)).Fits c := by
  rw [← Action.inside_iff_fits, exchangeSet]
  split <;> simp_all

/-- A set whose strings fit reaches the cache as it is meant. -/
theorem exchangeSet_of_fits (h : (Action.call (.setKV key value)).Fits c) (cache : Cache)
    (m : ShmStru) (allocated : Bool) : ∃ m', exchangeSet c cache m key value allocated =
      some ((set_ cache c.pid (c.prefixed key) (.ofBytes value) allocated).1, m') := by
  have hreq := Action.request_writeAll h m
  have hctrl := Action.ctrl_writeAll c (.call (.setKV key value)) m
  rw [ShmStru.request, hctrl] at hreq
  obtain ⟨hpid, hkey, hvalue⟩ := Request.set.inj hreq
  refine ⟨m.writeAll ((Action.call (.setKV key value)).writes c), ?_⟩
  rw [exchangeSet, if_pos ((Action.inside_iff_fits c _).mpr h)]
  dsimp only
  rw [hpid, hkey, hvalue]

/-- A get of a key that fits returns what is stored, or the empty string, if there is room for
the terminator. -/
theorem exchangeGet_of_fits (h : (Action.call (.getKV key)).Fits c)
    (hroom : ∀ v ∈ cache.find (c.prefixed key), v.length < shmValueSize) (m : ShmStru)
    (getValue : CharBuffer) : ∃ m' getValue', exchangeGet c cache m getValue key =
      some ((cache.find (c.prefixed key)).getD .empty, m', getValue') := by
  have hreq := Action.request_writeAll h m
  have hctrl := Action.ctrl_writeAll c (.call (.getKV key)) m
  have hclear := Action.zeroAt_writeAll h m
  rw [ShmStru.request, hctrl] at hreq
  have hkey := Request.get.inj hreq
  have hlen : ((cache.find (c.prefixed key)).getD .empty).length < shmValueSize := by
    cases hfind : cache.find (c.prefixed key) with
    | none => decide
    | some v => exact hroom v hfind
  have hvalue := value_get_ cache (c.prefixed key) hclear
  rw [reply, CString.take_of_length_le hlen.le] at hvalue
  have hcopy : ∀ (b : CharBuffer) (v : CString), v.length < shmValueSize →
      (b.strcpy 0 v).cstr 0 shmValueSize = v := fun b v hv =>
    (CharBuffer.cstr_strcpy b 0 shmValueSize v).trans (CString.take_of_length_le hv.le)
  have hmemcpy : ∀ v ∈ cache.find (c.prefixed key), v.length ≤ shmValueSize :=
    fun v hv => (hroom v hv).le
  rw [exchangeGet, if_pos ((Action.inside_iff_fits c _).mpr h)]
  dsimp only
  rw [hkey, if_pos hmemcpy, hvalue, if_pos (Nat.succ_le_of_lt hlen), hcopy _ _ hlen]
  exact ⟨_, _, rfl⟩

/-- A get that is defined has a key that fits, found nothing that fills the value array, and
returns what it found. -/
theorem of_exchangeGet {getValue : CharBuffer} {r : CString × ShmStru × CharBuffer}
    (h : exchangeGet c cache m getValue key = some r) :
    (∀ v ∈ cache.find (c.prefixed key), v.length < shmValueSize) ∧
      (c.prefixed key).length < shmKeySize ∧
      r.1 = (cache.find (c.prefixed key)).getD .empty := by
  have hfits : (Action.call (.getKV key)).Fits c := by
    rw [← Action.inside_iff_fits]
    by_contra hnot
    rw [exchangeGet, if_neg hnot] at h
    exact nomatch h
  have hroom : ∀ v ∈ cache.find (c.prefixed key), v.length < shmValueSize := by
    intro v hv
    have hreq := Action.request_writeAll hfits m
    have hctrl := Action.ctrl_writeAll c (.call (.getKV key)) m
    rw [ShmStru.request, hctrl] at hreq
    have hkey := Request.get.inj hreq
    have hvalue := value_get_ cache (c.prefixed key) (Action.zeroAt_writeAll hfits m)
    rw [Option.mem_def.mp hv, reply, Option.getD_some] at hvalue
    rw [exchangeGet, if_pos ((Action.inside_iff_fits c _).mpr hfits)] at h
    dsimp only at h
    rw [hkey, Option.mem_def.mp hv] at h
    by_contra hfull
    split at h
    · next hle =>
      have heq : v.length = shmValueSize := Nat.le_antisymm (hle v rfl) (Nat.not_lt.mp hfull)
      rw [hvalue, CString.take_of_length_le heq.le, if_neg (by omega)] at h
      exact nomatch h
    · exact nomatch h
  refine ⟨hroom, hfits, ?_⟩
  obtain ⟨m', getValue', hget⟩ := exchangeGet_of_fits hfits hroom m getValue
  rw [hget] at h
  rw [← Option.some.inj h]

end CachelibArchive.ClientServer
