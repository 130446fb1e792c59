import CachelibArchive.Core.CString
import CachelibArchive.Core.InputStream
import CachelibArchive.Core.Text
import CachelibArchive.Tmdb.Index
import Mathlib.Data.List.Infix

/-!
# Workload files

The loops of `tmdb_test.cpp` over a workload file: a line with a command, then
one line for each of its arguments, whose first bytes are a label. A load knows the
command `insert`, a run also `update` and `read`; lines that are none of the known
commands are passed over, whatever they hold.
-/

namespace CachelibArchive.Tmdb

/-! ## Reading -/

/-- Which of the loops: `just_load` and its variants, or `just_run` and its variants. -/
inductive Phase
  | load
  | run
  deriving DecidableEq

/-- A command with its arguments, as the C strings the store is given. -/
inductive Operation
  | insert (key value : CString)
  | update (key value : CString)
  | read (key : CString)
  deriving DecidableEq

/-- The key of an operation. -/
def Operation.key : Operation → CString
  | .insert key _ | .update key _ | .read key => key

/-- The bytes of `"insert"`, `"update"` and `"read"`. -/
def insertWord : List UInt8 := [105, 110, 115, 101, 114, 116]
def updateWord : List UInt8 := [117, 112, 100, 97, 116, 101]
def readWord : List UInt8 := [114, 101, 97, 100]

/-- How a pass of the loop ends: the loop is over, it goes on, without or with something done, or
`substr` is asked for what lies behind the line. -/
inductive Pass
  | done
  | skip (line : List UInt8) (s : InputStream)
  | thrown
  | operation (o : Operation) (line : List UInt8) (s : InputStream)

/-- `line.substr(pos)`. -/
def substr (line : List UInt8) (pos : Nat) : Option (List UInt8) :=
  if line.length < pos then none else some (line.drop pos)

/-- A key line and a value line. -/
def readPair (command : CString → CString → Operation) (line : List UInt8) (s : InputStream) :
    Pass :=
  let (_, line, s) := s.getline line
  match substr line 5 with
  | none => .thrown
  | some key =>
    let (_, line, s) := s.getline line
    match substr line 8 with
    | none => .thrown
    | some value => .operation (command (.ofBytes key) (.ofBytes value)) line s

/-- A key line. -/
def readKey (line : List UInt8) (s : InputStream) : Pass :=
  let (_, line, s) := s.getline line
  match substr line 5 with
  | none => .thrown
  | some key => .operation (.read (.ofBytes key)) line s

/-- One pass of `while(getline(fileLoad,line))`. -/
def pass (phase : Phase) (line : List UInt8) (s : InputStream) : Pass :=
  match s.getline line with
  | (false, _, _) => .done
  | (true, line, s) =>
    if line.head? = some 45 then .skip line s
    else if line = insertWord then readPair .insert line s
    else if phase = .run ∧ line = updateWord then readPair .update line s
    else if phase = .run ∧ line = readWord then readKey line s
    else .skip line s

/-- Where the pass goes on, less than so much is left. -/
def Pass.Below (n : Nat) : Pass → Prop
  | .done | .thrown => True
  | .skip _ s | .operation _ _ s => s.size < n

theorem below_readPair {s : InputStream} {n : Nat} (h : s.size < n)
    (command : CString → CString → Operation) (line : List UInt8) :
    (readPair command line s).Below n := by
  have hkey := s.size_getline_le line
  rw [readPair]
  dsimp only
  split
  · trivial
  · have hvalue := (s.getline line).2.2.size_getline_le (s.getline line).2.1
    split
    · trivial
    · exact (hvalue.trans hkey).trans_lt h

theorem below_readKey {s : InputStream} {n : Nat} (h : s.size < n) (line : List UInt8) :
    (readKey line s).Below n := by
  have hkey := s.size_getline_le line
  rw [readKey]
  dsimp only
  split
  · trivial
  · exact hkey.trans_lt h

/-- A pass that goes on has used something up. -/
theorem below_pass (phase : Phase) (line : List UInt8) (s : InputStream) :
    (pass phase line s).Below s.size := by
  have hlt := s.size_getline_lt line
  rw [pass]
  generalize s.getline line = r at hlt ⊢
  obtain ⟨ok, line', s'⟩ := r
  cases ok with
  | false => trivial
  | true =>
    specialize hlt rfl
    dsimp only
    split_ifs
    · exact hlt
    · exact below_readPair hlt ..
    · exact below_readPair hlt ..
    · exact below_readKey hlt ..
    · exact hlt

/-- The operations a loop comes by, and whether it reaches the end of the file. -/
def operations (phase : Phase) (line : List UInt8) (s : InputStream) : List Operation × Bool :=
  match _h : pass phase line s with
  | .done => ([], true)
  | .skip line' s' => operations phase line' s'
  | .thrown => ([], false)
  | .operation o line' s' =>
    let (os, ended) := operations phase line' s'
    (o :: os, ended)
termination_by s.size
decreasing_by
  · have hbelow := below_pass phase line s
    rwa [_h] at hbelow
  · have hbelow := below_pass phase line s
    rwa [_h] at hbelow

/-- Unfolding the loop by one pass. -/
theorem operations_eq (phase : Phase) (line : List UInt8) (s : InputStream) :
    operations phase line s = match pass phase line s with
      | .done => ([], true)
      | .skip line s => operations phase line s
      | .thrown => ([], false)
      | .operation o line s => (o :: (operations phase line s).1, (operations phase line s).2) := by
  rw [operations]
  split <;> simp only [*]

/-- The string of the caller does not matter to a loop that reads on. -/
theorem operations_line (phase : Phase) (line line' : List UInt8) (text : List UInt8) :
    operations phase line (.ofBytes text) = operations phase line' (.ofBytes text) := by
  have hpass : pass phase line (.ofBytes text) = pass phase line' (.ofBytes text) := by
    rw [pass, pass, InputStream.getline_good rfl line line']
  rw [operations_eq, hpass, ← operations_eq]

/-- The operations of a file. -/
def fileOperations (phase : Phase) (text : List UInt8) : List Operation × Bool :=
  operations phase [] (.ofBytes text)

/-! ## Writing -/

/-- A line of an argument: a label of so many bytes, and the text behind it. -/
structure Labelled (n : Nat) where
  label : List UInt8
  text : CString
  length : label.length = n
  one : (10 : UInt8) ∉ label ++ text.bytes

/-- The line. -/
def Labelled.line {n : Nat} (l : Labelled n) : List UInt8 := l.label ++ l.text.bytes

/-- What a workload file is made of. -/
inductive Item
  | comment (text : List UInt8) (one : (10 : UInt8) ∉ text)
  | insert (key : Labelled 5) (value : Labelled 8)
  | update (key : Labelled 5) (value : Labelled 8)
  | read (key : Labelled 5)

namespace Item

/-- The lines of an item. -/
def lines : Item → List (List UInt8)
  | .comment text _ => [45 :: text]
  | .insert key value => [insertWord, key.line, value.line]
  | .update key value => [updateWord, key.line, value.line]
  | .read key => [readWord, key.line]

/-- The operation of an item. -/
def operation : Item → Option Operation
  | .comment .. => none
  | .insert key value => some (.insert key.text value.text)
  | .update key value => some (.update key.text value.text)
  | .read key => some (.read key.text)

/-- The key of an item. -/
def key : Item → Option CString
  | .comment .. => none
  | .insert key _ | .update key _ | .read key => some key.text

/-- The loop knows the command. -/
def KnownTo (phase : Phase) : Item → Prop
  | .comment .. | .insert .. => True
  | .update .. | .read _ => phase = .run

end Item

/-- Lines, each with its newline. -/
def renderLines (ls : List (List UInt8)) : List UInt8 := ls.flatMap (· ++ [10])

/-- A workload file. -/
def render (es : List Item) : List UInt8 := es.flatMap fun e => renderLines e.lines

theorem Labelled.substr_line {n : Nat} (l : Labelled n) : substr l.line n = some l.text.bytes := by
  have hn := l.length
  rw [substr, Labelled.line, List.length_append, if_neg (by omega), List.drop_append_of_le_length
    (by omega), List.drop_of_length_le (by omega), List.nil_append]

theorem renderLines_cons (l : List UInt8) (ls : List (List UInt8)) (rest : List UInt8) :
    renderLines (l :: ls) ++ rest = l ++ 10 :: (renderLines ls ++ rest) := by
  simp [renderLines]

theorem Labelled.newline_not_mem {n : Nat} (l : Labelled n) : (10 : UInt8) ∉ l.line := l.one

/-- Reading the two lines of a pair. -/
theorem readPair_lines (command : CString → CString → Operation) (key : Labelled 5)
    (value : Labelled 8) (line rest : List UInt8) :
    readPair command line (.ofBytes (renderLines [key.line, value.line] ++ rest)) =
      .operation (command key.text value.text) value.line (.ofBytes rest) := by
  rw [readPair, renderLines_cons, InputStream.getline_newline key.newline_not_mem]
  dsimp only
  rw [key.substr_line, renderLines_cons, InputStream.getline_newline value.newline_not_mem]
  dsimp only
  rw [value.substr_line, CString.ofBytes_bytes]
  simp [renderLines]

/-- Reading the line of a key. -/
theorem readKey_line (key : Labelled 5) (line rest : List UInt8) :
    readKey line (.ofBytes (renderLines [key.line] ++ rest)) =
      .operation (.read key.text) key.line (.ofBytes rest) := by
  rw [readKey, renderLines_cons, InputStream.getline_newline key.newline_not_mem]
  dsimp only
  rw [key.substr_line]
  simp [renderLines]

theorem readWord_ne {phase : Phase} : ¬(phase = .run ∧ readWord = updateWord) := by
  rw [readWord, updateWord]
  simp

/-- A pass over one item. -/
theorem pass_item {phase : Phase} {e : Item} (he : e.KnownTo phase) (line rest : List UInt8) :
    ∃ line', pass phase line (.ofBytes (renderLines e.lines ++ rest)) = match e.operation with
      | none => .skip line' (.ofBytes rest)
      | some o => .operation o line' (.ofBytes rest) := by
  cases e with
  | comment text one =>
    have hone : (10 : UInt8) ∉ 45 :: text := by simpa using one
    refine ⟨45 :: text, ?_⟩
    rw [pass, Item.lines, renderLines_cons, InputStream.getline_newline hone]
    rfl
  | insert key value =>
    refine ⟨value.line, ?_⟩
    rw [pass, Item.lines, renderLines_cons, InputStream.getline_newline (by decide)]
    dsimp only
    rw [if_neg (by decide), if_pos rfl, readPair_lines]
    rfl
  | update key value =>
    refine ⟨value.line, ?_⟩
    rw [pass, Item.lines, renderLines_cons, InputStream.getline_newline (by decide)]
    dsimp only
    rw [if_neg (by decide), if_neg (by decide), if_pos ⟨he, rfl⟩, readPair_lines]
    rfl
  | read key =>
    refine ⟨key.line, ?_⟩
    rw [pass, Item.lines, renderLines_cons, InputStream.getline_newline (by decide)]
    dsimp only
    rw [if_neg (by decide), if_neg (by decide), if_neg readWord_ne, if_pos ⟨he, rfl⟩, readKey_line]
    rfl

/-- Reading what was written, whatever stands behind it. -/
theorem operations_render {phase : Phase} {es : List Item} (hes : ∀ e ∈ es, e.KnownTo phase)
    (line rest : List UInt8) :
    operations phase line (.ofBytes (render es ++ rest)) =
      (es.filterMap Item.operation ++ (operations phase line (.ofBytes rest)).1,
        (operations phase line (.ofBytes rest)).2) := by
  induction es with
  | nil => rfl
  | cons e es ih =>
    have hrest := ih fun e he => hes e (List.mem_cons_of_mem _ he)
    have hsplit : render (e :: es) ++ rest = renderLines e.lines ++ (render es ++ rest) := by
      rw [render, List.flatMap_cons, List.append_assoc]
      rfl
    obtain ⟨line', hpass⟩ := pass_item (hes e List.mem_cons_self) line (render es ++ rest)
    rw [operations_eq, hsplit, hpass]
    cases ho : e.operation with
    | none =>
      dsimp only
      rw [operations_line phase line' line, hrest, List.filterMap_cons_none ho]
    | some o =>
      dsimp only
      rw [operations_line phase line' line, hrest, List.filterMap_cons_some ho, List.cons_append]

/-- A file of items the loop knows is read as their operations, to its end. -/
theorem fileOperations_items {phase : Phase} {es : List Item}
    (hes : ∀ e ∈ es, e.KnownTo phase) :
    fileOperations phase (render es) = (es.filterMap Item.operation, true) := by
  have hend : operations phase [] (.ofBytes []) = ([], true) := by
    rw [operations_eq]
    rfl
  rw [fileOperations, ← List.append_nil (render es), operations_render hes, hend, List.append_nil]

/-! ## A file that was cut -/

/-- Nothing more is read where nothing is left. -/
theorem operations_of_nil {s : InputStream} (h : s.rest = []) (phase : Phase)
    (line : List UInt8) : operations phase line s = ([], true) := by
  obtain ⟨rest, good⟩ := s
  subst h
  rw [operations_eq]
  cases good <;> rfl

/-- A cut inside a line, at its end, or behind it. -/
theorem prefix_line {l rest t : List UInt8} (h : t <+: l ++ 10 :: rest) :
    t <+: l ∨ ∃ t', t = l ++ 10 :: t' ∧ t' <+: rest := by
  rcases List.prefix_or_prefix_of_prefix h (List.prefix_append l _) with h | ⟨u, rfl⟩
  · exact .inl h
  · rw [List.prefix_append_right_inj] at h
    rcases List.prefix_cons_iff.mp h with rfl | ⟨t', rfl, ht⟩
    · exact .inl (by rw [List.append_nil])
    · exact .inr ⟨t', rfl, ht⟩

theorem Labelled.of_substr {n : Nat} (l : Labelled n) {t text : List UInt8} (ht : t <+: l.line)
    (h : substr t n = some text) : (CString.ofBytes text).bytes <+: l.text.bytes := by
  rw [substr] at h
  split at h
  · cases h
  · next hlen =>
    obtain rfl := Option.some.inj h
    obtain ⟨u, hu⟩ := ht
    have hdrop : t.drop n ++ u = l.text.bytes := by
      have hline := l.substr_line
      rw [substr, ← hu, if_neg (by simp; omega), List.drop_append_of_le_length (by omega)] at hline
      exact Option.some.inj hline
    have hfree : (0 : UInt8) ∉ t.drop n := fun hmem =>
      l.text.nul_free (hdrop ▸ List.mem_append_left u hmem)
    rw [CString.ofBytes_of_nul_free hfree]
    exact ⟨u, hdrop⟩

/-- What a pass makes of an item that was cut: nothing, or one last operation on a key that
begins the key of the item. -/
def Cut (key : CString) : Pass → Prop
  | .done | .thrown => True
  | .skip _ s => s.rest = []
  | .operation o _ s => o.key.bytes <+: key.bytes ∧ s.rest = []

theorem cut_readKey (key : Labelled 5) (line : List UInt8) {t : List UInt8}
    (h : t <+: renderLines [key.line]) : Cut key.text (readKey line (.ofBytes t)) := by
  have hline : t <+: key.line ++ 10 :: [] := by simpa [renderLines] using h
  rw [readKey]
  rcases prefix_line hline with ht | ⟨t', rfl, ht'⟩
  · rw [InputStream.getline_last fun hmem => key.newline_not_mem (ht.subset hmem)]
    dsimp only
    split
    · trivial
    · next text hsub => exact ⟨key.of_substr ht hsub, rfl⟩
  · obtain rfl := List.prefix_nil.mp ht'
    rw [InputStream.getline_newline key.newline_not_mem]
    dsimp only
    rw [key.substr_line]
    exact ⟨by simp [Operation.key], rfl⟩

theorem cut_readPair (command : CString → CString → Operation)
    (hkey : ∀ k v, (command k v).key = k) (key : Labelled 5) (value : Labelled 8)
    (line : List UInt8) {t : List UInt8} (h : t <+: renderLines [key.line, value.line]) :
    Cut key.text (readPair command line (.ofBytes t)) := by
  have hline : t <+: key.line ++ 10 :: (value.line ++ 10 :: []) := by simpa [renderLines] using h
  rw [readPair]
  rcases prefix_line hline with ht | ⟨t', rfl, ht'⟩
  · -- the second read finds the stream at its end and leaves the line of the key
    rw [InputStream.getline_last fun hmem => key.newline_not_mem (ht.subset hmem)]
    dsimp only
    split
    · trivial
    · next text hsub =>
      rw [InputStream.getline_not_good rfl]
      dsimp only
      split
      · trivial
      · rw [Cut, hkey]
        exact ⟨key.of_substr ht hsub, rfl⟩
  · rw [InputStream.getline_newline key.newline_not_mem]
    dsimp only
    rw [key.substr_line]
    rcases prefix_line ht' with ht' | ⟨t'', rfl, ht''⟩
    · dsimp only
      rw [InputStream.getline_last fun hmem => value.newline_not_mem (ht'.subset hmem)]
      dsimp only
      split
      · trivial
      · rw [Cut, hkey]
        exact ⟨by simp, rfl⟩
    · obtain rfl := List.prefix_nil.mp ht''
      dsimp only
      rw [InputStream.getline_newline value.newline_not_mem]
      dsimp only
      rw [value.substr_line, Cut, hkey]
      exact ⟨by simp, rfl⟩

/-- A command that was cut is none, and a command without its lines is one too many. -/
theorem pass_word {phase : Phase} {word t : List UInt8}
    (hword : word = insertWord ∨ word = updateWord ∨ word = readWord) (ht : t <+: word)
    (line : List UInt8) (key : CString) : Cut key (pass phase line (.ofBytes t)) := by
  have hmem := (List.mem_inits t word).mpr ht
  rcases hword with rfl | rfl | rfl <;>
    simp only [insertWord, updateWord, readWord, List.inits, List.map_cons, List.map_nil,
      List.mem_cons, List.not_mem_nil, or_false] at hmem <;>
    rcases hmem with rfl | rfl | rfl | rfl | rfl | rfl | rfl <;> cases phase <;> trivial

/-- A pass over a part of an item with a key. -/
theorem cut_pass {phase : Phase} {e : Item} (he : e.KnownTo phase) {key : CString}
    (hkey : e.key = some key) (line : List UInt8) {t : List UInt8}
    (ht : t <+: renderLines e.lines) : Cut key (pass phase line (.ofBytes t)) := by
  cases e with
  | comment text one => cases hkey
  | insert k v =>
    cases hkey
    have hline : t <+: insertWord ++ 10 :: renderLines [k.line, v.line] := by
      simpa [renderLines, Item.lines] using ht
    rcases prefix_line hline with ht | ⟨t', rfl, ht'⟩
    · exact pass_word (.inl rfl) ht line k.text
    · rw [pass, InputStream.getline_newline (by decide)]
      dsimp only
      rw [if_neg (by decide), if_pos rfl]
      exact cut_readPair .insert (fun _ _ => rfl) k v _ ht'
  | update k v =>
    cases hkey
    have hline : t <+: updateWord ++ 10 :: renderLines [k.line, v.line] := by
      simpa [renderLines, Item.lines] using ht
    rcases prefix_line hline with ht | ⟨t', rfl, ht'⟩
    · exact pass_word (.inr (.inl rfl)) ht line k.text
    · rw [pass, InputStream.getline_newline (by decide)]
      dsimp only
      rw [if_neg (by decide), if_neg (by decide), if_pos ⟨he, rfl⟩]
      exact cut_readPair .update (fun _ _ => rfl) k v _ ht'
  | read k =>
    cases hkey
    have hline : t <+: readWord ++ 10 :: renderLines [k.line] := by
      simpa [renderLines, Item.lines] using ht
    rcases prefix_line hline with ht | ⟨t', rfl, ht'⟩
    · exact pass_word (.inr (.inr rfl)) ht line k.text
    · rw [pass, InputStream.getline_newline (by decide)]
      dsimp only
      rw [if_neg (by decide), if_neg (by decide), if_neg readWord_ne, if_pos ⟨he, rfl⟩]
      exact cut_readKey k _ ht'

/-- Part of a comment is passed over. -/
theorem operations_comment (phase : Phase) {text : List UInt8} (one : (10 : UInt8) ∉ text)
    (line : List UInt8) {t : List UInt8} (ht : t <+: renderLines [45 :: text]) :
    (operations phase line (.ofBytes t)).1 = [] := by
  have hline : t <+: (45 :: text) ++ 10 :: [] := by simpa [renderLines] using ht
  have hone : (10 : UInt8) ∉ 45 :: text := by simpa using one
  have hskip (good : Bool) (rest : List UInt8) :
      (operations phase (45 :: rest) ⟨[], good⟩).1 = [] := by
    rw [operations_of_nil rfl]
  rcases prefix_line hline with ht | ⟨t', rfl, ht'⟩
  · have hpart : (10 : UInt8) ∉ t := fun hmem => hone (ht.subset hmem)
    rcases List.prefix_cons_iff.mp ht with rfl | ⟨t, rfl, -⟩
    · rw [operations_of_nil rfl]
    · rw [operations_eq, pass, InputStream.getline_last hpart]
      exact hskip false t
  · obtain rfl := List.prefix_nil.mp ht'
    rw [operations_eq, pass, InputStream.getline_newline hone]
    exact hskip true text

/-- What is left of the item a cut falls in: nothing, or one operation on a key that begins
the key of the entry. -/
def Remnant (e : Option Item) (d : List Operation) : Prop :=
  d = [] ∨ ∃ o key, d = [o] ∧ e.bind Item.key = some key ∧ o.key.bytes <+: key.bytes

theorem remnant_item {phase : Phase} {e : Item} (he : e.KnownTo phase) (line : List UInt8)
    {t : List UInt8} (ht : t <+: renderLines e.lines) :
    Remnant (some e) (operations phase line (.ofBytes t)).1 := by
  cases hk : e.key with
  | none =>
    cases e with
    | comment text one => exact .inl (operations_comment phase one line ht)
    | insert | update | read => cases hk
  | some key =>
    have hcut := cut_pass he hk line ht
    rw [operations_eq]
    cases hp : pass phase line (.ofBytes t) with
    | done => exact .inl rfl
    | thrown => exact .inl rfl
    | skip line' s' =>
      rw [hp] at hcut
      dsimp only
      rw [operations_of_nil hcut]
      exact .inl rfl
    | operation o line' s' =>
      rw [hp] at hcut
      dsimp only
      rw [operations_of_nil hcut.2]
      exact .inr ⟨o, key, rfl, hk, hcut.1⟩

/-- A cut behind `n` bytes has so many items in front of it: they lie before the cut, and the
next one, if there is any, ends behind it. -/
structure InFront (es : List Item) (n i : Nat) : Prop where
  le : i ≤ es.length
  before : (render (es.take i)).length ≤ n
  behind : i < es.length → n < (render (es.take (i + 1))).length

/-- A cut falls behind the items in front of it, in a part of the next. -/
theorem take_render (es : List Item) (n : Nat) :
    ∃ i t, InFront es n i ∧ (render es).take n = render (es.take i) ++ t ∧
      (t = [] ∨ ∃ e, es[i]? = some e ∧ t <+: renderLines e.lines) := by
  induction es generalizing n with
  | nil => exact ⟨0, [], ⟨Nat.le_refl 0, Nat.zero_le n, fun h => absurd h (Nat.lt_irrefl 0)⟩,
      by simp [render], .inl rfl⟩
  | cons e es ih =>
    have hcons (es : List Item) : render (e :: es) = renderLines e.lines ++ render es := rfl
    have hlength (es : List Item) : (render (e :: es)).length =
        (renderLines e.lines).length + (render es).length := by rw [hcons, List.length_append]
    by_cases hn : n < (renderLines e.lines).length
    · refine ⟨0, (renderLines e.lines).take n, ⟨Nat.zero_le _, Nat.zero_le _, fun _ => ?_⟩, ?_,
        .inr ⟨e, rfl, List.take_prefix ..⟩⟩
      · rw [List.take_succ_cons, hlength]
        omega
      · rw [hcons, List.take_append_of_le_length hn.le]
        rfl
    · obtain ⟨i, t, hfront, htake, ht⟩ := ih (n - (renderLines e.lines).length)
      refine ⟨i + 1, t, ⟨Nat.succ_le_succ hfront.le, ?_, fun hi => ?_⟩, ?_, ht⟩
      · have hbefore := hfront.before
        rw [List.take_succ_cons, hlength]
        omega
      · have hbehind := hfront.behind (Nat.lt_of_succ_lt_succ hi)
        rw [List.take_succ_cons, hlength]
        omega
      · rw [hcons, List.take_append, List.take_of_length_le (by omega), htake, List.take_succ_cons,
          hcons, List.append_assoc]

/-- A file that was cut anywhere is read as the items in front of the cut and at most one
operation more, whose key begins the key of the next item. -/
theorem fileOperations_take {phase : Phase} {es : List Item}
    (hes : ∀ e ∈ es, e.KnownTo phase) (n : Nat) :
    ∃ i d, InFront es n i ∧ (fileOperations phase ((render es).take n)).1 =
        (es.take i).filterMap Item.operation ++ d ∧ Remnant es[i]? d := by
  obtain ⟨i, t, hin, htake, ht⟩ := take_render es n
  have hfront : ∀ e ∈ es.take i, e.KnownTo phase := fun e he => hes e (List.mem_of_mem_take he)
  refine ⟨i, (operations phase [] (.ofBytes t)).1, hin, ?_, ?_⟩
  · rw [fileOperations, htake, operations_render hfront]
  · rcases ht with rfl | ⟨e, he, ht⟩
    · rw [operations_of_nil rfl]
      exact .inl rfl
    · rw [he]
      exact remnant_item (hes e (List.mem_of_getElem? he)) [] ht

/-! ## A file without its last newline -/

/-- A pair whose value line ends with the file. -/
theorem readPair_last (command : CString → CString → Operation) (key : Labelled 5)
    (value : Labelled 8) (line : List UInt8) :
    readPair command line (.ofBytes (key.line ++ 10 :: value.line)) =
      .operation (command key.text value.text) value.line ⟨[], false⟩ := by
  rw [readPair, InputStream.getline_newline key.newline_not_mem]
  dsimp only
  rw [key.substr_line, InputStream.getline_last value.newline_not_mem]
  dsimp only
  rw [value.substr_line, CString.ofBytes_bytes]
  dsimp only
  rw [CString.ofBytes_bytes]

/-- A key line that ends with the file. -/
theorem readKey_last (key : Labelled 5) (line : List UInt8) :
    readKey line (.ofBytes key.line) = .operation (.read key.text) key.line ⟨[], false⟩ := by
  rw [readKey, InputStream.getline_last key.newline_not_mem]
  dsimp only
  rw [key.substr_line]
  dsimp only
  rw [CString.ofBytes_bytes]

theorem join_pair (w l : List UInt8) : Text.join [10] [w, l] = w ++ 10 :: l := by
  simp [Text.join]

theorem join_triple (w k v : List UInt8) :
    Text.join [10] [w, k, v] = w ++ 10 :: (k ++ 10 :: v) := by
  simp [Text.join]

/-- A pass over the last item. -/
theorem pass_last {phase : Phase} {e : Item} (he : e.KnownTo phase) (line : List UInt8) :
    ∃ line', pass phase line (.ofBytes (Text.join [10] e.lines)) = match e.operation with
      | none => .skip line' ⟨[], false⟩
      | some o => .operation o line' ⟨[], false⟩ := by
  cases e with
  | comment text one =>
    have hone : (10 : UInt8) ∉ 45 :: text := by simpa using one
    refine ⟨45 :: text, ?_⟩
    rw [Item.lines, Text.join, pass, InputStream.getline_last hone]
    rfl
  | insert key value =>
    refine ⟨value.line, ?_⟩
    rw [Item.lines, join_triple, pass, InputStream.getline_newline (by decide)]
    dsimp only
    rw [if_neg (by decide), if_pos rfl, readPair_last]
    rfl
  | update key value =>
    refine ⟨value.line, ?_⟩
    rw [Item.lines, join_triple, pass, InputStream.getline_newline (by decide)]
    dsimp only
    rw [if_neg (by decide), if_neg (by decide), if_pos ⟨he, rfl⟩, readPair_last]
    rfl
  | read key =>
    refine ⟨key.line, ?_⟩
    rw [Item.lines, join_pair, pass, InputStream.getline_newline (by decide)]
    dsimp only
    rw [if_neg (by decide), if_neg (by decide), if_neg readWord_ne, if_pos ⟨he, rfl⟩, readKey_last]
    rfl

theorem operations_last {phase : Phase} {e : Item} (he : e.KnownTo phase) (line : List UInt8) :
    operations phase line (.ofBytes (Text.join [10] e.lines)) = (e.operation.toList, true) := by
  obtain ⟨line', hpass⟩ := pass_last he line
  rw [operations_eq, hpass]
  cases e.operation with
  | none =>
    dsimp only
    rw [operations_of_nil rfl]
    rfl
  | some o =>
    dsimp only
    rw [operations_of_nil rfl]
    rfl

theorem join_append (ls : List (List UInt8)) (l : List UInt8) (ls' : List (List UInt8)) :
    Text.join [10] (ls ++ l :: ls') = renderLines ls ++ Text.join [10] (l :: ls') := by
  induction ls with
  | nil => rfl
  | cons x xs ih =>
    have hbehind : Text.behind 10 (xs ++ l :: ls') = 10 :: Text.join [10] (xs ++ l :: ls') := by
      cases xs <;> exact Text.behind_cons ..
    rw [List.cons_append, Text.join_cons, hbehind, ih, renderLines_cons]

theorem lines_ne_nil (e : Item) : e.lines ≠ [] := by
  cases e <;> simp [Item.lines]

/-- Round trip: items the loop knows, written with or without the last newline, are read as their
operations, to the end of the file. -/
theorem fileOperations_render {phase : Phase} {es : List Item}
    (hes : ∀ e ∈ es, e.KnownTo phase) :
    fileOperations phase (render es) = (es.filterMap Item.operation, true) ∧
      fileOperations phase (Text.join [10] (es.flatMap Item.lines)) =
        (es.filterMap Item.operation, true) := by
  refine ⟨fileOperations_items hes, ?_⟩
  rcases List.eq_nil_or_concat es with rfl | ⟨front, e, rfl⟩
  · exact operations_of_nil rfl phase []
  · rw [List.concat_eq_append] at hes ⊢
    have hfront : ∀ e ∈ front, e.KnownTo phase := fun e he => hes e (List.mem_append_left _ he)
    have hlines : renderLines (front.flatMap Item.lines) = render front := by
      rw [renderLines, render, List.flatMap_assoc]
      rfl
    obtain ⟨l, ls', hcons⟩ := List.exists_cons_of_ne_nil (lines_ne_nil e)
    rw [List.flatMap_append, List.flatMap_singleton, hcons, join_append, ← hcons, hlines,
      fileOperations, operations_render hfront, operations_last (hes e (by simp)),
      List.filterMap_append]
    cases he : e.operation with
    | none => simp [he]
    | some o => simp [he]

/-- One insert, behind a comment, and a read of its key. -/
def sampleKey : Labelled 5 := ⟨[107, 101, 121, 58, 32], keyOne.str, rfl, by decide⟩
def sampleValue : Labelled 8 := ⟨[118, 97, 108, 117, 101, 58, 32, 32], valueX.str, rfl, by decide⟩
def sampleItems : List Item :=
  [.comment [45] (by decide), .insert sampleKey sampleValue, .read sampleKey]

theorem sampleItems_known : ∀ e ∈ sampleItems, e.KnownTo .run := by
  simp [sampleItems, Item.KnownTo]

theorem fileOperations_render_sample :
    fileOperations .run (render sampleItems) =
        ([.insert keyOne.str valueX.str, .read keyOne.str], true) ∧
      fileOperations .run (Text.join [10] (sampleItems.flatMap Item.lines)) =
        ([.insert keyOne.str valueX.str, .read keyOne.str], true) :=
  fileOperations_render sampleItems_known

/-- The sample, cut behind 40 bytes. -/
theorem fileOperations_take_sample :
    ∃ i d, InFront sampleItems 40 i ∧ (fileOperations .run ((render sampleItems).take 40)).1 =
        (sampleItems.take i).filterMap Item.operation ++ d ∧ Remnant sampleItems[i]? d :=
  fileOperations_take sampleItems_known 40

end CachelibArchive.Tmdb
