import CachelibArchive.ClientServer.Action

/-!
# Pools and keys

CacheLib looks keys up without a pool id; what keeps the pools apart is the prefix
`poolName + "_"` that the client puts before every key. The separator is not escaped,
so a name may contain it. Two pools are kept apart exactly if neither prefix begins the
other.
-/

namespace CachelibArchive.ClientServer

/-! ## Calls as operations on the shared map -/

/-- A call made by one of the clients; `allocated` says whether CacheLib finds room. -/
structure Operation (ι : Type*) where
  /-- The client. -/
  client : ι
  /-- Its call. -/
  call : Call
  /-- Outcome of an allocation. -/
  allocated : Bool

/-- The cache, and which clients still have a server thread in its loop. -/
structure Store (ι : Type*) where
  /-- CacheLib. -/
  cache : Cache
  /-- A deletion ends the thread that serves it. -/
  serving : ι → Bool

namespace Store

variable {ι : Type*} [DecidableEq ι]

/-- A call and the string it returns. Without a server thread nothing is executed and a
get does not return. -/
def perform (client : ι → CachelibClient) (st : Store ι) (op : Operation ι) :
    Store ι × Option CString :=
  let c := client op.client
  if st.serving op.client then
    match op.call with
    | .setKV key value =>
      ({ st with cache := (set_ st.cache c.pid (c.prefixed key) (.ofBytes value) op.allocated).1 },
        none)
    | .getKV key => (st, some (reply (st.cache.find (c.prefixed key))))
    | .delKV key =>
      ({ cache := (del_ st.cache (c.prefixed key)).1
         serving := Function.update st.serving op.client false }, none)
  else (st, none)

/-- The strings returned to the clients of a pool by a sequence of calls. -/
def returned (client : ι → CachelibClient) (pool : CString) : Store ι → List (Operation ι) →
    List CString
  | _, [] => []
  | st, op :: ops =>
    let (st', r) := st.perform client op
    (if (client op.client).poolName = pool.bytes then r.toList else []) ++
      returned client pool st' ops

/-- Nothing cached, every client served. -/
def initial : Store ι := ⟨fun _ => none, fun _ => true⟩

end Store

/-! ## Keeping two pools apart -/

/-- `prefix` of the clients of a pool. -/
def poolPrefix (pool : CString) : List UInt8 := pool.bytes ++ [95]

/-- The key in the cache of a key of the pool. -/
def pooledKey (pool : CString) (key : List UInt8) : CString := .ofBytes (poolPrefix pool ++ key)

/-- The key fits the array of the message. -/
def Accepts (pool : CString) (key : List UInt8) : Prop := (pooledKey pool key).length < shmKeySize

/-- No accepted key of one pool is one of the other. -/
def KeysDistinct (pool pool' : CString) : Prop :=
  ∀ key key', Accepts pool key → Accepts pool' key' → pooledKey pool key ≠ pooledKey pool' key'

/-- Taking the calls of the first pool away changes nothing returned to the second. -/
def NonInterfering (pool pool' : CString) : Prop :=
  ∀ (ι : Type) [DecidableEq ι] (client : ι → CachelibClient) (ops : List (Operation ι)),
    (∀ op ∈ ops, (client op.client).poolName = pool.bytes ∨
      (client op.client).poolName = pool'.bytes) →
    (∀ op ∈ ops, (Action.call op.call).Fits (client op.client)) →
    Store.initial.returned client pool'
        (ops.filter fun op => (client op.client).poolName ≠ pool.bytes) =
      Store.initial.returned client pool' ops

/-- Neither prefix begins the other, as far as that leaves room for a key. -/
def Separable (pool pool' : CString) : Prop :=
  ¬ (poolPrefix pool <+: poolPrefix pool' ∧ (poolPrefix pool').length < shmKeySize) ∧
    ¬ (poolPrefix pool' <+: poolPrefix pool ∧ (poolPrefix pool).length < shmKeySize)

theorem poolPrefix_nul_free (pool : CString) : (0 : UInt8) ∉ poolPrefix pool := by
  simp [poolPrefix, pool.nul_free]

/-- A pooled key is its prefix followed by the key up to a terminator. -/
theorem pooledKey_bytes (pool : CString) (key : List UInt8) :
    (pooledKey pool key).bytes = poolPrefix pool ++ (CString.ofBytes key).bytes :=
  CString.ofBytes_append (poolPrefix_nul_free pool) key

theorem CachelibClient.prefixed_eq {c : CachelibClient} (pool : CString)
    (h : c.poolName = pool.bytes) (key : List UInt8) : c.prefixed key = pooledKey pool key := by
  rw [prefixed, keyPrefix, h]
  rfl

/-- Where one prefix begins the other, the rest of the other is a key of the first pool that
meets the empty key of the other. -/
theorem not_keysDistinct_of_prefix {pool pool' : CString}
    (h : poolPrefix pool <+: poolPrefix pool') (hlen : (poolPrefix pool').length < shmKeySize) :
    ∃ key, Accepts pool key ∧ Accepts pool' [] ∧ pooledKey pool key = pooledKey pool' [] := by
  obtain ⟨key, hkey⟩ := h
  have hempty : (pooledKey pool' []).bytes = poolPrefix pool' := by
    rw [pooledKey, List.append_nil]
    exact CString.ofBytes_of_nul_free (poolPrefix_nul_free pool')
  have heq : pooledKey pool key = pooledKey pool' [] := by
    rw [pooledKey, pooledKey, hkey, List.append_nil]
  have haccept : Accepts pool' [] := by rwa [Accepts, CString.length, hempty]
  exact ⟨key, by rwa [Accepts, heq], haccept, heq⟩

theorem keysDistinct_iff_separable (pool pool' : CString) :
    KeysDistinct pool pool' ↔ Separable pool pool' := by
  constructor
  · intro h
    constructor
    · rintro ⟨hp, hlen⟩
      obtain ⟨key, hk, hk', heq⟩ := not_keysDistinct_of_prefix hp hlen
      exact h key [] hk hk' heq
    · rintro ⟨hp, hlen⟩
      obtain ⟨key, hk, hk', heq⟩ := not_keysDistinct_of_prefix hp hlen
      exact h [] key hk' hk heq.symm
  · rintro ⟨hnot, hnot'⟩ key key' hk hk' heq
    have hbytes := congrArg CString.bytes heq
    have hlen : (poolPrefix pool).length < shmKeySize := by
      rw [Accepts, CString.length, pooledKey_bytes, List.length_append] at hk
      omega
    have hlen' : (poolPrefix pool').length < shmKeySize := by
      rw [Accepts, CString.length, pooledKey_bytes, List.length_append] at hk'
      omega
    rw [pooledKey_bytes, pooledKey_bytes] at hbytes
    obtain hp | hp := List.prefix_or_prefix_of_prefix (List.prefix_append _ _)
      (hbytes ▸ List.prefix_append (poolPrefix pool') (CString.ofBytes key').bytes)
    · exact hnot ⟨hp, hlen'⟩
    · exact hnot' ⟨hp, hlen⟩

/-! ## Noninterference -/

/-- The key of a call. -/
def Call.key : Call → List UInt8
  | .setKV key _ => key
  | .getKV key => key
  | .delKV key => key

theorem Action.Fits.accepts {c : CachelibClient} {call : Call} {pool : CString}
    (h : (Action.call call).Fits c) (hpool : c.poolName = pool.bytes) : Accepts pool call.key := by
  rw [Accepts, ← c.prefixed_eq _ hpool]
  cases call with
  | setKV key value => exact h.1
  | getKV key => exact h
  | delKV key => exact h

namespace Store

variable {ι : Type*} [DecidableEq ι] {client : ι → CachelibClient}

/-- The clients of the pool cannot tell the two stores apart. -/
structure Agree (client : ι → CachelibClient) (pool : CString) (st st' : Store ι) : Prop where
  /-- They find the same under their keys. -/
  find : ∀ key, Accepts pool key →
    st.cache.find (pooledKey pool key) = st'.cache.find (pooledKey pool key)
  /-- They are served alike. -/
  serving : ∀ i, (client i).poolName = pool.bytes → st.serving i = st'.serving i

/-- A call changes the cache under its own key only, and the service of its own client only. -/
theorem perform_frame (st : Store ι) (op : Operation ι) :
    (∀ key, key ≠ (client op.client).prefixed op.call.key →
      (st.perform client op).1.cache.find key = st.cache.find key) ∧
      ∀ i, i ≠ op.client → (st.perform client op).1.serving i = st.serving i := by
  obtain ⟨i, call, allocated⟩ := op
  unfold perform
  dsimp only
  split_ifs
  · cases call with
    | setKV key value =>
      refine ⟨fun key' hne => ?_, fun _ _ => rfl⟩
      cases allocated with
      | false => rfl
      | true => exact find_update_of_ne _ hne _
    | getKV key => exact ⟨fun _ _ => rfl, fun _ _ => rfl⟩
    | delKV key =>
      exact ⟨fun key' hne => find_update_of_ne _ hne _, fun j hne => Function.update_of_ne hne _ _⟩
  · exact ⟨fun _ _ => rfl, fun _ _ => rfl⟩

/-- A call of another pool goes unnoticed. -/
theorem Agree.other {pool pool' : CString} {st st' : Store ι} {op : Operation ι}
    (h : Agree client pool' st st') (hdis : KeysDistinct pool pool')
    (hpool : (client op.client).poolName = pool.bytes)
    (hne : (client op.client).poolName ≠ pool'.bytes)
    (hfits : (Action.call op.call).Fits (client op.client)) :
    Agree client pool' st (st'.perform client op).1 := by
  obtain ⟨hfind, hserving⟩ := @perform_frame _ _ client st' op
  constructor
  · intro key hkey
    rw [h.find key hkey, hfind]
    rw [CachelibClient.prefixed_eq _ hpool]
    exact (hdis _ _ (hfits.accepts hpool) hkey).symm
  · intro i hi
    rw [h.serving i hi, hserving]
    rintro rfl
    exact hne hi

/-- A call of the pool itself returns the same in both stores and keeps them alike. -/
theorem Agree.same {pool : CString} {st st' : Store ι} {op : Operation ι}
    (h : Agree client pool st st') (hpool : (client op.client).poolName = pool.bytes)
    (hfits : (Action.call op.call).Fits (client op.client)) :
    Agree client pool (st.perform client op).1 (st'.perform client op).1 ∧
      (st.perform client op).2 = (st'.perform client op).2 := by
  have hkey := hfits.accepts hpool
  obtain ⟨i, call, allocated⟩ := op
  have hprefixed := fun key => CachelibClient.prefixed_eq _ hpool key
  dsimp only at hpool hprefixed hkey
  unfold perform
  simp only [hprefixed, ← h.serving i hpool]
  split_ifs
  · cases call with
    | setKV key value =>
      refine ⟨⟨fun key' hkey' => ?_, h.serving⟩, rfl⟩
      cases allocated with
      | false => exact h.find key' hkey'
      | true =>
        by_cases heq : pooledKey pool key' = pooledKey pool key
        · simp [set_, heq]
        · simpa [set_, heq] using h.find key' hkey'
    | getKV key => exact ⟨h, congrArg (fun found => some (reply found)) (h.find key hkey)⟩
    | delKV key =>
      refine ⟨⟨fun key' hkey' => ?_, fun j hj => ?_⟩, rfl⟩
      · by_cases heq : pooledKey pool key' = pooledKey pool key
        · simp [del_, heq]
        · simpa [del_, heq] using h.find key' hkey'
      · by_cases hji : j = i
        · simp [hji]
        · simpa [hji] using h.serving j hj
  · exact ⟨h, rfl⟩

/-- Stores alike for a pool return the same to it, with or without the calls of the other. -/
theorem Agree.returned {pool pool' : CString} (hdis : KeysDistinct pool pool')
    {ops : List (Operation ι)}
    (hpools : ∀ op ∈ ops, (client op.client).poolName = pool.bytes ∨
      (client op.client).poolName = pool'.bytes)
    (hfits : ∀ op ∈ ops, (Action.call op.call).Fits (client op.client)) {st st' : Store ι}
    (h : Agree client pool' st st') :
    st.returned client pool' (ops.filter fun op => (client op.client).poolName ≠ pool.bytes) =
      st'.returned client pool' ops := by
  induction ops generalizing st st' with
  | nil => rfl
  | cons op ops ih =>
    have ih' := @ih
      (fun o ho => hpools o (List.mem_cons_of_mem _ ho))
      (fun o ho => hfits o (List.mem_cons_of_mem _ ho))
    have hfit := hfits op List.mem_cons_self
    by_cases hpool : (client op.client).poolName = pool.bytes
    · have hne : (client op.client).poolName ≠ pool'.bytes := by
        intro hpool'
        have heq : pool = pool' := CString.ext (hpool.symm.trans hpool')
        subst heq
        exact hdis _ _ (hfit.accepts hpool) (hfit.accepts hpool) rfl
      rw [List.filter_cons_of_neg (by simpa using hpool), ih' (h.other hdis hpool hne hfit)]
      simp [Store.returned, hne]
    · have hpool' := (hpools op List.mem_cons_self).resolve_left hpool
      obtain ⟨hagree, hret⟩ := h.same hpool' hfit
      rw [List.filter_cons_of_pos (by simpa using hpool)]
      simp only [Store.returned, hret, ih' hagree]

end Store

theorem KeysDistinct.nonInterfering {pool pool' : CString} (h : KeysDistinct pool pool') :
    NonInterfering pool pool' := by
  intro ι _ client ops hpools hfits
  exact Store.Agree.returned h hpools hfits ⟨fun _ _ => rfl, fun _ _ => rfl⟩

/-- A client of each pool, and what one of them stores. -/
def twoClients (pool pool' : CString) : Bool → CachelibClient
  | false => ⟨0, pool.bytes⟩
  | true => ⟨1, pool'.bytes⟩

/-- Where two keys meet, a get of one pool returns what the other has set. -/
theorem NonInterfering.keysDistinct {pool pool' : CString} (h : NonInterfering pool pool') :
    KeysDistinct pool pool' := by
  intro key key' hkey hkey' heq
  have hset : (Action.call (.setKV key [120])).Fits (twoClients pool pool' false) := by
    refine ⟨?_, by decide⟩
    rwa [CachelibClient.prefixed_eq pool rfl]
  have hget : (Action.call (.getKV key')).Fits (twoClients pool pool' true) := by
    show (CachelibClient.prefixed _ key').length < _
    rwa [CachelibClient.prefixed_eq pool' rfl]
  have hret := h Bool (twoClients pool pool')
    [⟨false, .setKV key [120], true⟩, ⟨true, .getKV key', true⟩]
    (by simp [twoClients]) (by simp [hset, hget])
  have hfull : Store.initial.returned (twoClients pool pool') pool'
      [⟨false, .setKV key [120], true⟩, ⟨true, .getKV key', true⟩] =
        [reply (some (.ofBytes [120]))] := by
    have hsame : CachelibClient.prefixed ⟨1, pool'.bytes⟩ key' =
        CachelibClient.prefixed ⟨0, pool.bytes⟩ key := by
      rw [CachelibClient.prefixed_eq pool' rfl,
        CachelibClient.prefixed_eq pool rfl, heq]
    simp [Store.returned, Store.perform, Store.initial, set_, hsame, twoClients]
  have hother : Store.initial.returned (twoClients pool pool') pool'
      [⟨true, .getKV key', true⟩] = [reply none] := by
    simp [Store.returned, Store.perform, Store.initial, Cache.find, twoClients]
  have hne : reply (some (.ofBytes [120])) ≠ reply none := by decide
  rw [hfull, List.filter_cons_of_neg (by simp [twoClients])] at hret
  by_cases hpool : pool'.bytes = pool.bytes
  · rw [List.filter_cons_of_neg (by simp [twoClients, hpool])] at hret
    cases hret
  · rw [List.filter_cons_of_pos (by simp [twoClients, hpool]), List.filter_nil, hother,
      List.singleton_inj] at hret
    exact hne hret.symm

/-- Two pools are kept apart, in the keys and in what their clients see, exactly if neither
prefix begins the other. -/
theorem isolated_iff_separable (pool pool' : CString) :
    (KeysDistinct pool pool' ↔ Separable pool pool') ∧
      (NonInterfering pool pool' ↔ Separable pool pool') := by
  have hkeys := keysDistinct_iff_separable pool pool'
  exact ⟨hkeys, fun h => hkeys.mp h.keysDistinct, fun h => (hkeys.mpr h).nonInterfering⟩

/-- The key `b_k` of the pool `a` and the key `k` of the pool `a_b` meet. -/
theorem pools_interfere :
    ¬ ∀ pool pool' : CString, pool ≠ pool' →
      KeysDistinct pool pool' ∧ NonInterfering pool pool' := by
  intro h
  have hkeys := (h (.ofBytes [97]) (.ofBytes [97, 95, 98]) (by decide)).1
  exact hkeys [98, 95, 107] [107] (by unfold Accepts; decide) (by unfold Accepts; decide)
    (by decide)

end CachelibArchive.ClientServer
