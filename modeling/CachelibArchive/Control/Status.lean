import CachelibArchive.Control.Listener
import Mathlib.Data.List.Perm.Subperm

/-!
# The pool status

The reply to `G` is one text `name:size;` for each pool, without escapes or a length;
`get_pool_stats` receives 1024 bytes of it and splits them. It finds exactly the pools of
the server if and only if the whole text is received, is UTF-8 and no name holds one of
the two separators.

A Python string is its UTF-8 bytes here, and `int` is whatever reads back numerals.
-/

namespace CachelibArchive.Control

open Text

/-- `key,value = pair.split(':')` with `int(value)`; `none` is a raised exception. -/
def readPair (int : List UInt8 → Option Int) (pair : List UInt8) : Option (Name × Int) :=
  match split 58 pair with
  | [key, value] => (int value).map (key, ·)
  | _ => none

/-- The loop over the pairs. -/
def readEntries (int : List UInt8 → Option Int) : List (List UInt8) → Option (List (Name × Int))
  | [] => some []
  | pair :: pairs =>
    match readPair int pair with
    | none => none
    | some entry => (readEntries int pairs).map (entry :: ·)

/-- `get_pool_stats`: the map it returns, in which later entries replace earlier ones. -/
def getPoolStats (int : List UInt8 → Option Int) (sent : List UInt8) :
    Option (Name → Option Int) :=
  let response := recv 1024 sent
  if isUtf8 response then
    (readEntries int (split 59 response).dropLast).map fun entries key => entries.reverse.lookup key
  else none

/-- The map from the name of each pool to its size in units. -/
def PoolTable.units (t : PoolTable) (name : Name) : Option Int :=
  (t.size name).map fun s => ((s / SIZE_CONV : Nat) : Int)

/-- The scheduler gets exactly the pools of the server. -/
def StatusExact (int : List UInt8 → Option Int) (t : PoolTable) : Prop :=
  getPoolStats int (serialize (getCacheStats t)) = some t.units

/-- A name that can be told from the text around it. -/
def Plain (name : Name) : Prop := 58 ∉ name ∧ 59 ∉ name ∧ isUtf8 name = true

instance (name : Name) : Decidable (Plain name) := inferInstanceAs (Decidable (_ ∧ _))

/-! ## What is sent -/

/-- The entry of a pool without its semicolon. -/
def entryText (p : Name × Nat) : List UInt8 := p.1 ++ 58 :: decimal p.2

theorem serialize_cons (p : Name × Nat) (stats : List (Name × Nat)) :
    serialize (p :: stats) = entryText p ++ 59 :: serialize stats := by
  simp [serialize, entryText]

theorem not_mem_entryText {p : Name × Nat} (h : 59 ∉ p.1) : 59 ∉ entryText p := by
  have hdigits : 59 ∉ decimal p.2 := fun hm => absurd (digit_of_mem_decimal hm).2 (by decide)
  simp [entryText, h, hdigits]

/-- The text is UTF-8 exactly if the names are. -/
theorem isUtf8_serialize (stats : List (Name × Nat)) :
    isUtf8 (serialize stats) = true ↔ ∀ p ∈ stats, isUtf8 p.1 = true := by
  induction stats with
  | nil => simp [serialize, isUtf8]
  | cons p stats ih =>
    have hdigits : isUtf8 (decimal p.2) = true :=
      isUtf8_of_ascii fun b hb => Nat.lt_of_le_of_lt (digit_of_mem_decimal hb).2 (by decide)
    rw [serialize_cons, isUtf8_append_ascii (by decide), entryText,
      isUtf8_append_ascii (by decide), ih]
    simp [hdigits]

/-- Names without semicolons: there are as many semicolons as pools. -/
theorem count_serialize {stats : List (Name × Nat)} (h : ∀ p ∈ stats, 59 ∉ p.1) :
    (serialize stats).count 59 = stats.length := by
  induction stats with
  | nil => rfl
  | cons p stats ih =>
    have hp := not_mem_entryText (h p List.mem_cons_self)
    have hrest := ih fun q hq => h q (List.mem_cons_of_mem _ hq)
    rw [serialize_cons, List.count_append, List.count_cons_self, List.count_eq_zero.mpr hp, hrest,
      List.length_cons, Nat.zero_add]

/-- The text ends in a semicolon. -/
theorem serialize_eq_concat {stats : List (Name × Nat)} (h : stats ≠ []) :
    ∃ s, serialize stats = s ++ [59] := by
  induction stats with
  | nil => exact absurd rfl h
  | cons p stats ih =>
    rw [serialize_cons]
    cases stats with
    | nil => exact ⟨entryText p, rfl⟩
    | cons q stats =>
      obtain ⟨s, hs⟩ := ih (by simp)
      exact ⟨entryText p ++ 59 :: s, by rw [hs]; simp⟩

/-! ## What is received -/

variable {int : List UInt8 → Option Int}

/-- The keys of a pair hold no separators. -/
theorem key_of_readPair {pair : List UInt8} {e : Name × Int} (h : readPair int pair = some e) :
    58 ∉ e.1 ∧ ∀ b ∈ e.1, b ∈ pair := by
  unfold readPair at h
  split at h
  · next key value hsplit =>
    obtain ⟨i, -, rfl⟩ := Option.map_eq_some_iff.mp h
    exact of_mem_split (by rw [hsplit]; exact List.mem_cons_self)
  · cases h

theorem readEntries_spec {pairs : List (List UInt8)} {entries : List (Name × Int)}
    (h : readEntries int pairs = some entries) :
    entries.length = pairs.length ∧ ∀ e ∈ entries, ∃ pair ∈ pairs, readPair int pair = some e := by
  induction pairs generalizing entries with
  | nil =>
    cases h
    simp
  | cons pair pairs ih =>
    rw [readEntries] at h
    cases hp : readPair int pair with
    | none =>
      rw [hp] at h
      cases h
    | some e =>
      rw [hp] at h
      obtain ⟨es, hes, rfl⟩ := Option.map_eq_some_iff.mp h
      obtain ⟨hlen, hmem⟩ := ih hes
      refine ⟨by simp [hlen], fun e' he' => ?_⟩
      obtain rfl | he' := List.mem_cons.mp he'
      · exact ⟨pair, List.mem_cons_self, hp⟩
      · obtain ⟨pair', hpair', hread⟩ := hmem e' he'
        exact ⟨pair', List.mem_cons_of_mem _ hpair', hread⟩

/-- Plain names and their sizes are read back. -/
theorem readEntries_serialize (hint : ∀ n, int (decimal n) = some (n : Int))
    (stats : List (Name × Nat)) (h : ∀ p ∈ stats, 58 ∉ p.1 ∧ 59 ∉ p.1) :
    readEntries int (split 59 (serialize stats)).dropLast =
      some (stats.map fun p => (p.1, (p.2 : Int))) := by
  induction stats with
  | nil => rfl
  | cons p stats ih =>
    obtain ⟨hcolon, hsemi⟩ := h p List.mem_cons_self
    have hdigits : 58 ∉ decimal p.2 := fun hm => absurd (digit_of_mem_decimal hm).2 (by decide)
    have hpair : readPair int (entryText p) = some (p.1, (p.2 : Int)) := by
      simp [readPair, entryText, split_append hcolon, split_of_not_mem hdigits, hint]
    rw [serialize_cons, split_append (not_mem_entryText hsemi),
      List.dropLast_cons_of_ne_nil (split_ne_nil 59 _), readEntries, hpair,
      ih fun q hq => h q (List.mem_cons_of_mem _ hq)]
    rfl

/-! ## Both together -/

theorem perm_getCacheStats (t : PoolTable) :
    (getCacheStats t).Perm (t.pools.map fun p => (p.1, p.2 / SIZE_CONV)) :=
  List.perm_insertionSort ..

theorem forall_getCacheStats (t : PoolTable) (q : Name → Prop) :
    (∀ p ∈ getCacheStats t, q p.1) ↔ ∀ p ∈ t.pools, q p.1 := by
  constructor
  · intro h p hp
    exact h (p.1, p.2 / SIZE_CONV)
      ((perm_getCacheStats t).mem_iff.mpr (List.mem_map.mpr ⟨p, hp, rfl⟩))
  · intro h p hp
    obtain ⟨p', hp', rfl⟩ := List.mem_map.mp ((perm_getCacheStats t).mem_iff.mp hp)
    exact h p' hp'

theorem nodup_getCacheStats (t : PoolTable) : ((getCacheStats t).map Prod.fst).Nodup := by
  rw [((perm_getCacheStats t).map Prod.fst).nodup_iff, List.map_map]
  exact t.nodup

/-- Looking a name up in what is read back. -/
theorem lookup_entries (t : PoolTable) (name : Name) :
    ((getCacheStats t).map fun p => (p.1, (p.2 : Int))).reverse.lookup name = t.units name := by
  have hkeys : (((getCacheStats t).map fun p => (p.1, (p.2 : Int))).map Prod.fst).Nodup := by
    rw [List.map_map]
    exact nodup_getCacheStats t
  have hmap : ∀ l : List (Name × Nat), (l.map fun p => (p.1, (p.2 : Int))).lookup name =
      (l.lookup name).map fun n : Nat => (n : Int) := by
    intro l
    induction l with
    | nil => rfl
    | cons p l ih =>
      rw [List.map_cons, List.lookup_cons, List.lookup_cons, ih]
      cases name == p.1 <;> rfl
  have hunits := PoolTable.lookup_map t.pools (fun p => p.2 / SIZE_CONV) name
  have hnodup : ((t.pools.map fun p => (p.1, p.2 / SIZE_CONV)).map Prod.fst).Nodup := by
    rw [List.map_map]
    exact t.nodup
  rw [PoolTable.lookup_perm (List.reverse_perm _) hkeys, hmap,
    PoolTable.lookup_perm (perm_getCacheStats t) hnodup, hunits, Option.map_map]
  rfl

/-- When the scheduler gets the server's pools, the whole text was received, and the names
are plain. -/
theorem plain_of_statusExact {t : PoolTable} (h : StatusExact int t) :
    (serialize (getCacheStats t)).length ≤ 1024 ∧ ∀ p ∈ t.pools, Plain p.1 := by
  unfold StatusExact getPoolStats at h
  simp only at h
  split_ifs at h with hutf8
  obtain ⟨entries, hread, hmap⟩ := Option.map_eq_some_iff.mp h
  obtain ⟨hlen, hmem⟩ := readEntries_spec hread
  -- every name is a key, and a key holds no separators
  have hkey : ∀ p ∈ t.pools, p.1 ∈ entries.map Prod.fst := by
    intro p hp
    have hunits : entries.reverse.lookup p.1 = t.units p.1 := congrFun hmap p.1
    rw [PoolTable.units, PoolTable.size, PoolTable.lookup_of_mem t.nodup hp] at hunits
    have he := List.mem_reverse.mp (PoolTable.mem_of_lookup hunits)
    exact List.mem_map.mpr ⟨_, he, rfl⟩
  have hplain : ∀ p ∈ t.pools, 58 ∉ p.1 ∧ 59 ∉ p.1 := by
    intro p hp
    obtain ⟨e, he, heq⟩ := List.mem_map.mp (hkey p hp)
    obtain ⟨pair, hpair, hkeyread⟩ := hmem e he
    obtain ⟨hcolon, hsub⟩ := key_of_readPair hkeyread
    have hsemi := (of_mem_split (List.dropLast_subset _ hpair)).1
    rw [← heq]
    exact ⟨hcolon, fun hb => hsemi (hsub 59 hb)⟩
  -- a text that is cut off has lost a semicolon
  have hcount : t.pools.length ≤ (recv 1024 (serialize (getCacheStats t))).count 59 := by
    have hle : (t.pools.map Prod.fst).length ≤ (entries.map Prod.fst).length := by
      refine (t.nodup.subperm fun name hname => ?_).length_le
      obtain ⟨p, hp, rfl⟩ := List.mem_map.mp hname
      exact hkey p hp
    rw [List.length_map, List.length_map, hlen, List.length_dropLast, length_split] at hle
    exact hle
  have htotal : (serialize (getCacheStats t)).count 59 = t.pools.length := by
    rw [count_serialize ((forall_getCacheStats t (59 ∉ ·)).mpr fun p hp => (hplain p hp).2),
      (perm_getCacheStats t).length_eq, List.length_map]
  have hwhole : (serialize (getCacheStats t)).length ≤ 1024 := by
    by_contra hlong
    have hne : getCacheStats t ≠ [] := by
      intro hnil
      rw [hnil] at hlong
      exact hlong (by simp [serialize])
    obtain ⟨s, hs⟩ := serialize_eq_concat hne
    have hcut : recv 1024 (serialize (getCacheStats t)) = s.take 1024 := by
      rw [hs] at hlong ⊢
      rw [List.length_append, List.length_singleton] at hlong
      exact List.take_append_of_le_length (by omega)
    have hsub : (s.take 1024).count 59 ≤ s.count 59 := (List.take_sublist ..).count_le 59
    rw [hs, List.count_append, List.count_singleton_self] at htotal
    rw [hcut] at hcount
    omega
  refine ⟨hwhole, fun p hp => ⟨(hplain p hp).1, (hplain p hp).2, ?_⟩⟩
  rw [recv, List.take_of_length_le hwhole] at hutf8
  exact (forall_getCacheStats t (isUtf8 · = true)).mp ((isUtf8_serialize _).mp hutf8) p hp

/-- The scheduler gets exactly the server's pools if and only if their text has at most 1024
bytes, and their names are UTF-8 without colons and semicolons. -/
theorem statusExact_iff (hint : ∀ n, int (decimal n) = some (n : Int)) (t : PoolTable) :
    StatusExact int t ↔
      (serialize (getCacheStats t)).length ≤ 1024 ∧ ∀ p ∈ t.pools, Plain p.1 := by
  refine ⟨plain_of_statusExact, fun ⟨hlen, hplain⟩ => ?_⟩
  have hutf8 : isUtf8 (serialize (getCacheStats t)) = true :=
    (isUtf8_serialize _).mpr
      ((forall_getCacheStats t (isUtf8 · = true)).mpr fun p hp => (hplain p hp).2.2)
  have hread := readEntries_serialize hint (getCacheStats t)
    ((forall_getCacheStats t fun name => 58 ∉ name ∧ 59 ∉ name).mpr
      fun p hp => ⟨(hplain p hp).1, (hplain p hp).2.1⟩)
  rw [StatusExact, getPoolStats]
  simp only [recv, List.take_of_length_le hlen, hutf8, if_true, hread, Option.map_some]
  exact congrArg some (funext (lookup_entries t))

/-- `int` of a numeral. -/
def intOfNumeral (s : List UInt8) : Option Int :=
  (readNumeral s).map fun n => if n.1 then -(n.2.1 : Int) else n.2.1

theorem intOfNumeral_decimal (n : Nat) : intOfNumeral (decimal n) = some (n : Int) := by
  rw [intOfNumeral, readNumeral_decimal]
  rfl

/-- The two pools of 31 MB. -/
theorem statusExact_iff_twoPools :
    StatusExact intOfNumeral PoolTable.twoPools ↔
      (serialize (getCacheStats PoolTable.twoPools)).length ≤ 1024 ∧
        ∀ p ∈ PoolTable.twoPools.pools, Plain p.1 :=
  statusExact_iff intOfNumeral_decimal PoolTable.twoPools

/-- The registration of a pool `a:b` is accepted, and then the status cannot be read. -/
theorem not_statusExact_colon :
    ∃ s, iteration Server.start [65, 58, 97, 58, 98] = .ok s ∧
      s.server.pools.pools.map Prod.fst = [[97, 58, 98]] ∧
      ¬ StatusExact intOfNumeral s.server.pools := by
  have hpools : (iteration Server.start [65, 58, 97, 58, 98]).map
      (fun s => s.server.pools.pools.map Prod.fst) = .ok [[97, 58, 98]] := by
    decide +kernel
  cases hs : iteration Server.start [65, 58, 97, 58, 98] with
  | error e =>
    rw [hs] at hpools
    cases hpools
  | ok s =>
    rw [hs] at hpools
    have hnames : s.server.pools.pools.map Prod.fst = [[97, 58, 98]] := Except.ok.inj hpools
    refine ⟨s, rfl, hnames, fun hexact => ?_⟩
    have hmem : ([97, 58, 98] : Name) ∈ s.server.pools.pools.map Prod.fst := by
      rw [hnames]
      exact List.mem_singleton_self _
    obtain ⟨p, hp, hname⟩ := List.mem_map.mp hmem
    have hplain := (plain_of_statusExact hexact).2 p hp
    rw [hname] at hplain
    exact absurd hplain (by decide)

end CachelibArchive.Control
