import CachelibArchive.Tmdb.Ledger
import CachelibArchive.Tmdb.SelfTest
import CachelibArchive.Tmdb.TraceFile
import Mathlib.Algebra.BigOperators.Ring.List
import Mathlib.Algebra.Order.BigOperators.Group.List

/-!
# Loading and running a workload

The programs of `tmdb_test.cpp` that perform a workload file on a database. Updates are inserts,
so they change nothing, and a read of a key that is not there ends the program.
-/

namespace CachelibArchive.Tmdb

/-! ## The loop -/

section loop

variable {σ : Type}

/-- One operation: `tdb_store` with `TDB_INSERT`, of `value` of the value in the file, or
`tdb_fetch` into a string. -/
def perform (call : σ → HandleCall → Except Fault Reply × σ) (value : CString → CString)
    (pads : σ → UInt32) (w : σ) : Operation → Except Abort Unit × σ
  | .insert k v | .update k v =>
    match call w (.insert k (value v) (pads w)) with
    | (.error fault, w) => (.error (.fault fault), w)
    | (.ok _, w) => (.ok (), w)
  | .read k =>
    match call w (.fetch k) with
    | (.error fault, w) => (.error (.fault fault), w)
    | (.ok (.value none), w) => (.error .nullString, w)
    | (.ok _, w) => (.ok (), w)

/-- `while(getline(fileLoad,line))` with what is done for each operation. -/
def traceLoop (body : σ → Operation → Except Abort Unit × σ) (phase : Phase) (line : List UInt8)
    (s : InputStream) (w : σ) : Except Abort Unit × σ :=
  match _h : pass phase line s with
  | .done => (.ok (), w)
  | .skip line' s' => traceLoop body phase line' s' w
  | .thrown => (.error .outOfRange, w)
  | .operation o line' s' =>
    match body w o with
    | (.error abort, w) => (.error abort, w)
    | (.ok (), w) => traceLoop body phase line' s' w
termination_by s.size
decreasing_by
  · have hbelow := below_pass phase line s
    rwa [_h] at hbelow
  · have hbelow := below_pass phase line s
    rwa [_h] at hbelow

/-- The operations one after the other, then the end of the file or what is thrown there. -/
def performAll (body : σ → Operation → Except Abort Unit × σ) (ended : Bool) :
    σ → List Operation → Except Abort Unit × σ
  | w, [] => (if ended then .ok () else .error .outOfRange, w)
  | w, o :: os =>
    match body w o with
    | (.error abort, w) => (.error abort, w)
    | (.ok (), w) => performAll body ended w os

/-- Performing operations as they are read is reading them all and performing them. -/
theorem traceLoop_eq (body : σ → Operation → Except Abort Unit × σ) (phase : Phase)
    (line : List UInt8) (s : InputStream) (w : σ) :
    traceLoop body phase line s w =
      performAll body (operations phase line s).2 w (operations phase line s).1 := by
  induction hn : s.size using Nat.strongRecOn generalizing line s w with
  | ind n ih =>
    have hbelow := below_pass phase line s
    rw [operations_eq, traceLoop]
    split
    · next h =>
      rw [h]
      rfl
    · next line' s' h =>
      rw [h] at hbelow ⊢
      exact ih s'.size (hn ▸ hbelow) line' s' w rfl
    · next h =>
      rw [h]
      rfl
    · next o line' s' h =>
      rw [h] at hbelow ⊢
      dsimp only
      rw [performAll]
      split
      · rfl
      · next w' hbody => exact ih s'.size (hn ▸ hbelow) line' s' w' rfl

end loop

/-! ## The programs -/

/-- A program over a workload file: open, perform, close. -/
def traceProgram (mode : OpenMode) (phase : Phase) (value : CString → CString)
    (pads : TDB → UInt32) (file : List UInt8) (disk : Disk) : Except Abort Unit × Disk :=
  match dbOpen disk mode with
  | none => (.error (.fault .exit), disk)
  | some db =>
    let (r, db) := traceLoop (perform HandleCall.onHandle value pads) phase [] (.ofBytes file) db
    (r, dbFree db)

/-- `string prefix (1000, 'A')`. -/
def thousand : CString := ⟨List.replicate 1000 65, fun h =>
  absurd (List.eq_of_mem_replicate h) (by decide)⟩

/-- `just_load`: every value is the same. -/
def justLoad : (TDB → UInt32) → List UInt8 → Disk → Except Abort Unit × Disk :=
  traceProgram .create .load fun _ => thousand

/-- `just_load_TL`, and `data_prepare` on its file. -/
def justLoadTL : (TDB → UInt32) → List UInt8 → Disk → Except Abort Unit × Disk :=
  traceProgram .create .load id

/-- `just_run` and `just_run_TL`. -/
def justRun : (TDB → UInt32) → List UInt8 → Disk → Except Abort Unit × Disk :=
  traceProgram .write .run id

/-- `loadAndRun`. -/
def loadAndRun (pads : TDB → UInt32) (fileLoad fileRun : List UInt8) (disk : Disk) :
    Except Abort Unit × Disk :=
  match justLoadTL pads fileLoad disk with
  | (.error abort, disk) => (.error abort, disk)
  | (.ok (), disk) => justRun pads fileRun disk

/-- `parallel_test`: mode "w" to load, mode "c" otherwise. -/
def parallelTest (load : Bool) : (TDB → UInt32) → List UInt8 → Disk → Except Abort Unit × Disk :=
  traceProgram (if load then .write else .create) .run id

/-! ## What a file can add -/

/-- The value of an operation. -/
def Operation.value : Operation → List UInt8
  | .insert _ v | .update _ v => v.bytes
  | .read _ => []

theorem length_ofBytes_le (s : List UInt8) : (CString.ofBytes s).length ≤ s.length :=
  (List.takeWhile_sublist _).length_le

theorem value_readPair {command : CString → CString → Operation}
    (hvalue : ∀ k v, (command k v).value = v.bytes) {line line' : List UInt8} {s s' : InputStream}
    {o : Operation} (hline : line.length < 8) (h : readPair command line s = .operation o line' s') :
    o.value.length + s'.size ≤ s.size := by
  rw [readPair] at h
  cases hgood : s.good with
  | false =>
    rw [InputStream.getline_not_good hgood] at h
    dsimp only at h
    split at h
    · cases h
    · rw [InputStream.getline_not_good hgood] at h
      dsimp only at h
      rw [substr, if_pos hline] at h
      cases h
  | true =>
    have hkey := InputStream.length_getline hgood line
    generalize s.getline line = r at h hkey
    obtain ⟨_, line₁, s₁⟩ := r
    dsimp only at h hkey
    split at h
    · cases h
    · have hsecond : (s₁.getline line₁).2.1.length + (s₁.getline line₁).2.2.size ≤ s.size := by
        cases hgood₁ : s₁.good with
        | false =>
          rw [InputStream.getline_not_good hgood₁]
          dsimp only
          omega
        | true =>
          have hval := InputStream.length_getline hgood₁ line₁
          omega
      split at h
      · cases h
      · next value hsub =>
        obtain ⟨rfl, rfl, rfl⟩ := Pass.operation.inj h
        rw [substr] at hsub
        split at hsub
        · cases hsub
        · obtain rfl := Option.some.inj hsub
          have hle := length_ofBytes_le ((s₁.getline line₁).2.1.drop 8)
          rw [List.length_drop] at hle
          rw [hvalue]
          change (CString.ofBytes ((s₁.getline line₁).2.1.drop 8)).length +
            (s₁.getline line₁).2.2.size ≤ s.size
          omega

/-- An operation stands for a part of the file longer than its value. -/
theorem value_pass {phase : Phase} {line line' : List UInt8} {s s' : InputStream}
    {o : Operation} (h : pass phase line s = .operation o line' s') :
    o.value.length + s'.size < s.size := by
  have hlt := s.size_getline_lt line
  rw [pass] at h
  generalize s.getline line = r at h hlt
  obtain ⟨ok, line₁, s₁⟩ := r
  cases ok with
  | false => cases h
  | true =>
    specialize hlt rfl
    dsimp only at h hlt
    split_ifs at h with hcomment hinsert hupdate hread
    · have hlen : line₁.length < 8 := by rw [hinsert]; decide
      exact (value_readPair (fun _ _ => rfl) hlen h).trans_lt hlt
    · have hlen : line₁.length < 8 := by rw [hupdate.2]; decide
      exact (value_readPair (fun _ _ => rfl) hlen h).trans_lt hlt
    · have hbelow := below_readKey hlt line₁
      rw [h] at hbelow
      rw [readKey] at h
      dsimp only at h
      split at h
      · cases h
      · obtain ⟨rfl, -, -⟩ := Pass.operation.inj h
        rw [Operation.value, List.length_nil, Nat.zero_add]
        exact hbelow

/-- The values of a file, and one byte for each operation, fit into the file. -/
theorem sum_values_le (phase : Phase) (line : List UInt8) (s : InputStream) :
    ((operations phase line s).1.map fun o => o.value.length + 1).sum ≤ s.size := by
  induction hn : s.size using Nat.strongRecOn generalizing line s with
  | ind n ih =>
    have hbelow := below_pass phase line s
    rw [operations_eq]
    cases hp : pass phase line s with
    | done => exact Nat.zero_le _
    | thrown => exact Nat.zero_le _
    | skip line' s' =>
      rw [hp] at hbelow
      have hlt : s'.size < n := hn ▸ hbelow
      exact (ih s'.size hlt line' s' rfl).trans hlt.le
    | operation o line' s' =>
      have hvalue := value_pass hp
      have hrest := ih s'.size (by omega) line' s' rfl
      simp only [List.map_cons, List.sum_cons]
      omega

/-! ## On the files as on the ledger -/

/-- What an operation adds to a file at most. -/
def Operation.cost (value : CString → CString) : Operation → Nat
  | .insert _ v | .update _ v => (value v).length + keyRecordSize
  | .read _ => 0

section refinement

variable {value : CString → CString} (pads : TDB → UInt32) {db : TDB} {l : Ledger} {n : Nat}

/-- One operation. The padding shows nowhere. -/
theorem Keeps.perform (h : Keeps db l n) (o : Operation) (hroom : n + o.cost value < 2 ^ 63) :
    (perform HandleCall.onHandle value pads db o).1 =
        (perform HandleCall.onLedger value (fun _ => 0) l o).1 ∧
      Keeps (perform HandleCall.onHandle value pads db o).2
        (perform HandleCall.onLedger value (fun _ => 0) l o).2 (n + o.cost value) := by
  have hstore (k v : CString) (hcost : n + ((value v).length + keyRecordSize) < 2 ^ 63) :=
    h.call (.insert k (value v) (pads db)) hcost
  cases o with
  | insert k v | update k v =>
    obtain ⟨hreply, hkeeps⟩ := hstore k v hroom
    have hpad : (HandleCall.insert k (value v) 0).onLedger l =
        (HandleCall.insert k (value v) (pads db)).onLedger l := rfl
    simp only [Tmdb.perform, hpad]
    generalize (HandleCall.insert k (value v) (pads db)).onHandle db = r at hreply hkeeps ⊢
    generalize (HandleCall.insert k (value v) (pads db)).onLedger l = r' at hreply hkeeps ⊢
    obtain ⟨reply, db'⟩ := r
    obtain ⟨reply', l'⟩ := r'
    obtain rfl : reply = reply' := hreply
    cases reply <;> exact ⟨rfl, hkeeps⟩
  | read k =>
    obtain ⟨hreply, hkeeps⟩ := h.call (.fetch k) hroom
    simp only [Tmdb.perform]
    generalize (HandleCall.fetch k).onHandle db = r at hreply hkeeps ⊢
    generalize (HandleCall.fetch k).onLedger l = r' at hreply hkeeps ⊢
    obtain ⟨reply, db'⟩ := r
    obtain ⟨reply', l'⟩ := r'
    obtain rfl : reply = reply' := hreply
    rcases reply with _ | (_ | (_ | _) | _) <;> exact ⟨rfl, hkeeps⟩

/-- Operations one after the other. -/
theorem Keeps.performAll (h : Keeps db l n) (value : CString → CString) (ended : Bool)
    (os : List Operation)
    (hroom : n + (os.map (Operation.cost value)).sum < 2 ^ 63) :
    (performAll (Tmdb.perform HandleCall.onHandle value pads) ended db os).1 =
        (performAll (Tmdb.perform HandleCall.onLedger value fun _ => 0) ended l os).1 ∧
      Keeps (performAll (Tmdb.perform HandleCall.onHandle value pads) ended db os).2
        (performAll (Tmdb.perform HandleCall.onLedger value fun _ => 0) ended l os).2
        (n + (os.map (Operation.cost value)).sum) := by
  induction os generalizing db l n with
  | nil => exact ⟨rfl, h⟩
  | cons o os ih =>
    rw [List.map_cons, List.sum_cons, ← Nat.add_assoc] at hroom ⊢
    obtain ⟨hreply, hkeeps⟩ := h.perform pads o (Nat.lt_of_add_right_lt hroom)
    simp only [Tmdb.performAll]
    generalize Tmdb.perform HandleCall.onHandle value pads db o = r at hreply hkeeps ⊢
    generalize Tmdb.perform HandleCall.onLedger value (fun _ => 0) l o = r' at hreply hkeeps ⊢
    obtain ⟨reply, db'⟩ := r
    obtain ⟨reply', l'⟩ := r'
    obtain rfl : reply = reply' := hreply
    cases reply with
    | error abort => exact ⟨rfl, hkeeps.mono _⟩
    | ok u => exact ih hkeeps hroom

/-- What a file adds to the database is bounded by its length. -/
theorem cost_le (hvalue : ∀ v, (value v).length ≤ v.length + 1000) (phase : Phase)
    (file : List UInt8) :
    ((fileOperations phase file).1.map (Operation.cost value)).sum ≤
      1088 * (file.length + 1) := by
  have hsum := sum_values_le phase [] (.ofBytes file)
  have hone (o : Operation) : o.cost value ≤ 1088 * (o.value.length + 1) := by
    cases o with
    | insert k v | update k v =>
      have hv := hvalue v
      have hlen : v.bytes.length = v.length := rfl
      simp only [Operation.cost, Operation.value, keyRecordSize]
      omega
    | read k => exact Nat.zero_le _
  calc ((fileOperations phase file).1.map (Operation.cost value)).sum
      ≤ ((fileOperations phase file).1.map fun o => 1088 * (o.value.length + 1)).sum :=
        List.sum_le_sum fun o _ => hone o
    _ = 1088 * ((fileOperations phase file).1.map fun o => o.value.length + 1).sum :=
        List.sum_map_mul_left ..
    _ ≤ 1088 * (file.length + 1) := Nat.mul_le_mul_left 1088 hsum

end refinement

/-! ## Which reads succeed -/

/-- The key an operation stores under. -/
def Operation.stored : Operation → Option CString
  | .insert k _ | .update k _ => some k
  | .read _ => none

/-- What is stored has a key that ends in text and a value that can be fetched. -/
def Operation.Plain (value : CString → CString) : Operation → Prop
  | .insert k v | .update k v =>
    KeyLength k ∧ EndsInText k ∧ (value v).length < tdbMaxRecordLen
  | .read _ => True

instance (value : CString → CString) : DecidablePred (Operation.Plain value)
  | .insert .. | .update .. => inferInstanceAs (Decidable (_ ∧ _))
  | .read _ => inferInstanceAs (Decidable True)

/-- A ledger of such pairs, under these keys. -/
structure PlainLedger (l : Ledger) (known : List CString) : Prop where
  key : ∀ e ∈ l, KeyLength e.1 ∧ EndsInText e.1
  value : ∀ e ∈ l, e.2.length < tdbMaxRecordLen
  known : ∀ k, k ∈ known ↔ k ∈ l.map Prod.fst

theorem plainLedger_nil : PlainLedger [] [] := ⟨by simp, by simp, by simp⟩

section plain

variable {l : Ledger} {known : List CString} {value : CString → CString}

/-- Among keys that end in text a search is for equality. -/
theorem PlainLedger.search (h : PlainLedger l known) (k : CString) :
    l.search k = none ↔ k ∉ known := by
  rw [Ledger.search, Option.map_eq_none_iff, List.find?_eq_none, h.known]
  constructor
  · intro hnone hk
    obtain ⟨e, he, rfl⟩ := List.mem_map.mp hk
    have htrim := (trimmed_eq_iff e.1).mpr (h.key e he).2
    simpa [htrim] using hnone e he
  · intro hk e he hfound
    simp only [decide_eq_true_eq] at hfound
    have htrim := (trimmed_eq_iff e.1).mpr (h.key e he).2
    have heq : e.1 = k := CString.ext (htrim.symm.trans hfound.2)
    exact hk (heq ▸ List.mem_map_of_mem he)

/-- A store adds its key. -/
theorem PlainLedger.insert (h : PlainLedger l known) {k v : CString} (hk : KeyLength k)
    (htext : EndsInText k) (hv : v.length < tdbMaxRecordLen) :
    PlainLedger (l.insert k v) (known ++ [k]) := by
  rw [Ledger.insert]
  by_cases hnew : l.search k = none
  · rw [if_pos hnew]
    refine ⟨?_, ?_, fun k' => ?_⟩
    · intro e he
      rcases List.mem_append.mp he with he | he
      · exact h.key e he
      · obtain rfl := List.mem_singleton.mp he
        exact ⟨hk, htext⟩
    · intro e he
      rcases List.mem_append.mp he with he | he
      · exact h.value e he
      · obtain rfl := List.mem_singleton.mp he
        exact hv
    · simp [h.known k']
  · rw [if_neg hnew]
    have hmem : k ∈ known := not_not.mp ((h.search k).not.mp hnew)
    refine ⟨h.key, h.value, fun k' => ?_⟩
    rw [List.mem_append, List.mem_singleton, h.known k']
    refine or_iff_left_of_imp ?_
    rintro rfl
    exact (h.known _).mp hmem

/-- A read succeeds on a known key, and changes nothing. -/
theorem PlainLedger.read (h : PlainLedger l known) (k : CString) :
    perform HandleCall.onLedger value (fun _ => 0) l (.read k) =
      (if k ∈ known then .ok () else .error .nullString, l) := by
  rw [perform, HandleCall.onLedger]
  by_cases hk : k ∈ known
  · obtain ⟨e, he, rfl⟩ := List.mem_map.mp ((h.known k).mp hk)
    rw [if_pos (h.key e he).1, if_pos hk]
    cases hs : l.search e.1 with
    | none => exact absurd hk ((h.search e.1).mp hs)
    | some v =>
      rw [Ledger.search, Option.map_eq_some_iff] at hs
      obtain ⟨e', he', rfl⟩ := hs
      have hlen := h.value e' (List.mem_of_find?_eq_some he')
      dsimp only
      rw [if_neg hlen.ne]
  · rw [if_neg hk, (h.search k).mpr hk]
    dsimp only
    rw [ite_self]

/-- A store that is accepted. -/
theorem PlainLedger.perform_store (h : PlainLedger l known) {o : Operation}
    (ho : o.Plain value) {k : CString} (hk : o.stored = some k) :
    ∃ l', perform HandleCall.onLedger value (fun _ => 0) l o = (.ok (), l') ∧
      PlainLedger l' (known ++ [k]) := by
  cases o with
  | insert k' v | update k' v =>
    cases hk
    obtain ⟨hlen, htext, hv⟩ := ho
    refine ⟨l.insert k (value v), ?_, h.insert hlen htext hv⟩
    have haccepted : Accepted k (value v) := ⟨hlen, hv.le⟩
    rw [perform, HandleCall.onLedger, if_pos haccepted]
  | read k' => cases hk

/-- The keys stored by a list of operations. -/
def storedKeys (os : List Operation) : List CString := os.filterMap Operation.stored

/-- A list of operations runs to its end if the file ends, and every read is of a key that was
stored before. -/
theorem PlainLedger.performAll_iff (h : PlainLedger l known) (ended : Bool) {os : List Operation}
    (hos : ∀ o ∈ os, o.Plain value) :
    (performAll (perform HandleCall.onLedger value fun _ => 0) ended l os).1 = .ok () ↔
      ended = true ∧ Trace.AtEach (fun before o => ∀ k, o = .read k →
        k ∈ known ++ storedKeys before) os := by
  induction os generalizing l known with
  | nil =>
    rw [performAll, and_iff_left (Trace.atEach_nil _)]
    cases ended <;> simp
  | cons o os ih =>
    have hrest : ∀ o ∈ os, o.Plain value := fun o ho => hos o (List.mem_cons_of_mem _ ho)
    rw [Trace.atEach_cons, performAll]
    cases hk : o.stored with
    | some k =>
      obtain ⟨l', hperform, hl'⟩ := h.perform_store (hos o List.mem_cons_self) hk
      have hnot (k' : CString) : o ≠ .read k' := by
        rintro rfl
        cases hk
      have hshift (before : List Operation) : known ++ [k] ++ storedKeys before =
          known ++ storedKeys (o :: before) := by
        rw [storedKeys, storedKeys, List.filterMap_cons_some hk, List.append_assoc,
          List.singleton_append]
      rw [hperform]
      dsimp only
      rw [ih hl' hrest]
      simp only [hshift, hnot, false_implies, implies_true, true_and]
    | none =>
      cases o with
      | insert k v | update k v => cases hk
      | read k =>
        rw [h.read]
        by_cases hmem : k ∈ known
        · rw [if_pos hmem]
          dsimp only
          rw [ih h hrest]
          simp [storedKeys, hmem, Operation.stored]
        · rw [if_neg hmem]
          simp [storedKeys, hmem]

/-- Stores alone are all performed. -/
theorem PlainLedger.performAll_stores (h : PlainLedger l known) (ended : Bool)
    {os : List Operation} (hos : ∀ o ∈ os, o.Plain value ∧ o.stored ≠ none) :
    (performAll (perform HandleCall.onLedger value fun _ => 0) ended l os).1 =
        (if ended then .ok () else .error .outOfRange) ∧
      PlainLedger (performAll (perform HandleCall.onLedger value fun _ => 0) ended l os).2
        (known ++ storedKeys os) := by
  induction os generalizing l known with
  | nil =>
    rw [storedKeys, List.filterMap_nil, List.append_nil]
    exact ⟨rfl, h⟩
  | cons o os ih =>
    obtain ⟨hplain, hstored⟩ := hos o List.mem_cons_self
    obtain ⟨k, hk⟩ := Option.ne_none_iff_exists'.mp hstored
    obtain ⟨l', hperform, hl'⟩ := h.perform_store hplain hk
    rw [performAll, hperform, storedKeys, List.filterMap_cons_some hk, List.append_cons]
    exact ih hl' fun o ho => hos o (List.mem_cons_of_mem _ ho)

end plain

/-- A load comes by inserts only. -/
theorem stored_of_load {line : List UInt8} {s : InputStream} {o : Operation}
    (h : o ∈ (operations .load line s).1) : o.stored ≠ none := by
  induction hn : s.size using Nat.strongRecOn generalizing line s with
  | ind n ih =>
    have hbelow := below_pass .load line s
    rw [operations_eq] at h
    cases hp : pass .load line s with
    | done | thrown =>
      rw [hp] at h
      cases h
    | skip line' s' =>
      rw [hp] at h hbelow
      exact ih s'.size (hn ▸ hbelow) h rfl
    | operation o' line' s' =>
      rw [hp] at h hbelow
      rcases List.mem_cons.mp h with rfl | h
      · rw [pass] at hp
        split at hp
        · cases hp
        · simp only [reduceCtorEq, false_and, if_false] at hp
          split_ifs at hp
          rw [readPair] at hp
          dsimp only at hp
          split at hp
          · cases hp
          · split at hp
            · cases hp
            · cases hp
              simp [Operation.stored]
      · exact ih s'.size (hn ▸ hbelow) h rfl

/-! ## Whole programs -/

section programs

variable (value : CString → CString) (pads : TDB → UInt32) {file : List UInt8} {db : TDB}
  {l : Ledger} {n : Nat}

/-- A program over a workload file, from a handle that holds a ledger. -/
theorem Keeps.traceLoop (h : Keeps db l n) (phase : Phase)
    (hvalue : ∀ v, (value v).length ≤ v.length + 1000)
    (hroom : n + 1088 * (file.length + 1) < 2 ^ 63) :
    ∃ r db' l',
      Tmdb.traceLoop (Tmdb.perform HandleCall.onHandle value pads) phase [] (.ofBytes file) db =
        (r, db') ∧
      Tmdb.performAll (Tmdb.perform HandleCall.onLedger value fun _ => 0)
        (fileOperations phase file).2 l (fileOperations phase file).1 = (r, l') ∧
      Keeps db' l' (n + 1088 * (file.length + 1)) := by
  have hcost := cost_le hvalue phase file
  obtain ⟨hr, hkeeps⟩ := h.performAll pads value (fileOperations phase file).2
    (fileOperations phase file).1 (by omega)
  refine ⟨_, _, _, traceLoop_eq .., Prod.ext hr.symm rfl, ?_⟩
  have hmono := hkeeps.mono (1088 * (file.length + 1) -
    ((fileOperations phase file).1.map (Operation.cost value)).sum)
  rwa [Nat.add_assoc, Nat.add_sub_cancel' hcost] at hmono

end programs

/-- A file on disk holds a ledger. -/
def OnDisk (disk : Disk) (l : Ledger) (n : Nat) : Prop := ∃ db, disk = dbFree db ∧ Keeps db l n

/-- The outcome of a run of operations from a ledger with these keys. -/
def Finishes (known : List CString) (file : List UInt8) : Prop :=
  (fileOperations .run file).2 = true ∧ Trace.AtEach (fun before o => ∀ k, o = .read k →
    k ∈ known ++ storedKeys before) (fileOperations .run file).1

theorem openProgram_iff {mode : OpenMode} {disk : Disk} {db : TDB} {l : Ledger}
    {known : List CString} {n : Nat} (hopen : dbOpen disk mode = some db) (hkeeps : Keeps db l n)
    (hl : PlainLedger l known) {file : List UInt8} (hroom : n + 1088 * (file.length + 1) < 2 ^ 63)
    (hplain : ∀ o ∈ (fileOperations .run file).1, o.Plain id) (pads : TDB → UInt32) :
    (traceProgram mode .run id pads file disk).1 = .ok () ↔ Finishes known file := by
  obtain ⟨r, db', l', hloop, hall, _⟩ :=
    hkeeps.traceLoop id pads .run (fun v => Nat.le_add_right ..) hroom
  have hiff := hl.performAll_iff (fileOperations .run file).2 hplain
  rw [hall] at hiff
  simp only [traceProgram, hopen, hloop]
  exact hiff

/-- Loading leaves the keys of the file on disk, and ends where the file does. -/
theorem load_onDisk (value : CString → CString) (hvalue : ∀ v, (value v).length ≤ v.length + 1000)
    {file : List UInt8} (hroom : tableEnd + 1088 * (file.length + 1) < 2 ^ 63)
    (hplain : ∀ o ∈ (fileOperations .load file).1, o.Plain value) (pads : TDB → UInt32)
    (disk : Disk) :
    (traceProgram .create .load value pads file disk).1 =
        (if (fileOperations .load file).2 then .ok () else .error .outOfRange) ∧
      ∃ l, PlainLedger l (storedKeys (fileOperations .load file).1) ∧
        OnDisk (traceProgram .create .load value pads file disk).2 l
          (tableEnd + 1088 * (file.length + 1)) := by
  have hopen : dbOpen disk .create = some createdDb := rfl
  obtain ⟨r, db', l', hloop, hall, hkeeps⟩ := keeps_created.traceLoop value pads .load hvalue hroom
  obtain ⟨hr, hl⟩ := plainLedger_nil.performAll_stores (fileOperations .load file).2
    fun o ho => ⟨hplain o ho, stored_of_load ho⟩
  rw [hall] at hr hl
  simp only [traceProgram, hopen, hloop]
  exact ⟨hr, l', hl, db', rfl, hkeeps⟩

theorem Operation.Plain.thousand {o : Operation} (h : o.Plain id) :
    o.Plain fun _ => thousand := by
  have hlen : Tmdb.thousand.length < tdbMaxRecordLen := by
    rw [CString.length, Tmdb.thousand, List.length_replicate]
    decide
  cases o with
  | insert k v | update k v => exact ⟨h.1, h.2.1, hlen⟩
  | read k => trivial

/-- Files shorter than this have room for what two workload files add. -/
theorem room_of_size {a b : Nat} (h : a + b < 2 ^ 52) :
    tableEnd + 1088 * (a + 1) + 1088 * (b + 1) < 2 ^ 63 := by
  rw [tableEnd]
  omega

/-- A run of a loaded file finishes if it reads to its end and every key it reads was loaded, or
stored by the run itself before: the two programs apart, and in one. -/
theorem run_finishes_iff (pads pads' : TDB → UInt32) (fileLoad fileRun : List UInt8)
    (hsize : fileLoad.length + fileRun.length < 2 ^ 52)
    (hload : ∀ o ∈ (fileOperations .load fileLoad).1, o.Plain id)
    (hrun : ∀ o ∈ (fileOperations .run fileRun).1, o.Plain id) (disk : Disk) :
    ((justRun pads' fileRun (justLoad pads fileLoad disk).2).1 = .ok () ↔
        Finishes (storedKeys (fileOperations .load fileLoad).1) fileRun) ∧
      ((loadAndRun pads fileLoad fileRun disk).1 = .ok () ↔
        (fileOperations .load fileLoad).2 = true ∧
          Finishes (storedKeys (fileOperations .load fileLoad).1) fileRun) := by
  have hroom' := room_of_size hsize
  have hroom := Nat.lt_of_add_right_lt hroom'
  constructor
  · obtain ⟨-, l, hl, db, hdisk, hkeeps⟩ := load_onDisk (fun _ => thousand)
      (fun v => (List.length_replicate ..).le.trans (Nat.le_add_left ..)) hroom
      (fun o ho => (hload o ho).thousand) pads disk
    obtain ⟨db', hopen, hkeeps'⟩ := hkeeps.reopen
    rw [justLoad, hdisk]
    exact openProgram_iff hopen hkeeps' hl hroom' hrun pads'
  · obtain ⟨hend, l, hl, db, hdisk, hkeeps⟩ := load_onDisk id
      (fun v => Nat.le_add_right ..) hroom hload pads disk
    obtain ⟨db', hopen, hkeeps'⟩ := hkeeps.reopen
    have hiff := openProgram_iff hopen hkeeps' hl hroom' hrun pads
    rw [loadAndRun, justLoadTL]
    generalize traceProgram .create .load id pads fileLoad disk = r at hend hdisk ⊢
    obtain ⟨r, disk'⟩ := r
    obtain rfl : disk' = dbFree db := hdisk
    obtain rfl : r = _ := hend
    cases (fileOperations .load fileLoad).2 with
    | false => simp
    | true => simpa [justRun] using hiff

/-- The sample reads a key it has stored itself. -/
theorem sample_operations :
    fileOperations .run (render sampleItems) =
      ([.insert keyOne.str valueX.str, .read keyOne.str], true) :=
  fileOperations_items sampleItems_known

theorem sample_plain : ∀ o ∈ (fileOperations .run (render sampleItems)).1, o.Plain id := by
  rw [sample_operations]
  intro o ho
  simp only [List.mem_cons, List.not_mem_nil, or_false] at ho
  rcases ho with rfl | rfl
  · exact ⟨keyOne.keyLength, keyOne.trimmed, valueX.short⟩
  · trivial

theorem sample_finishes (known : List CString) : Finishes known (render sampleItems) := by
  rw [Finishes, sample_operations]
  simp [Trace.atEach_cons, Trace.atEach_nil, storedKeys, Operation.stored]

/-- Nothing loaded, and the sample run. -/
theorem run_finishes_sample :
    (justRun (fun _ => 0) (render sampleItems) (justLoad (fun _ => 0) [] ⟨none, none⟩).2).1 =
        .ok () ∧
      (loadAndRun (fun _ => 0) [] (render sampleItems) ⟨none, none⟩).1 = .ok () := by
  have hload : fileOperations .load [] = ([], true) := operations_of_nil rfl .load []
  have hplain : ∀ o ∈ (fileOperations .load []).1, o.Plain id := by
    rw [hload]
    nofun
  obtain ⟨hrun, hboth⟩ := run_finishes_iff (fun _ => 0) (fun _ => 0) []
    (render sampleItems) (by decide) hplain sample_plain ⟨none, none⟩
  rw [hload] at hrun hboth
  exact ⟨hrun.mpr (sample_finishes _), hboth.mpr ⟨rfl, sample_finishes _⟩⟩

/-- The run of `parallel_test` starts from an empty database, whatever was loaded. -/
theorem parallelTest_finishes_iff (pads : TDB → UInt32) {fileRun : List UInt8}
    (hsize : fileRun.length < 2 ^ 52)
    (hrun : ∀ o ∈ (fileOperations .run fileRun).1, o.Plain id) (disk : Disk) :
    (parallelTest false pads fileRun disk).1 = .ok () ↔ Finishes [] fileRun := by
  have hroom := Nat.lt_of_add_right_lt (room_of_size (a := fileRun.length) (b := 0) hsize)
  have hopen : dbOpen disk .create = some createdDb := rfl
  exact openProgram_iff hopen keeps_created plainLedger_nil hroom hrun pads

theorem parallelTest_finishes_sample :
    (parallelTest false (fun _ => 0) (render sampleItems) ⟨none, none⟩).1 = .ok () :=
  (parallelTest_finishes_iff (fun _ => 0) (by decide) sample_plain ⟨none, none⟩).mpr
    (sample_finishes [])

end CachelibArchive.Tmdb
