import CachelibArchive.Control.Listener
import Mathlib.Data.List.TakeWhile

/-!
# The resize request

`set_cache_size` sends names and sizes as two lines of joined words, and the listener
reads them back pair by pair. The request survives exactly if it leaves room for a NUL
in the listener's buffer.
-/

namespace CachelibArchive.Control

open Text

/-- `set_cache_size`: the bytes it sends. -/
def setCacheSize (workloads : List Name) (cacheSize : List Nat) : List UInt8 :=
  [83, 58] ++ join [10] [join [32] workloads, join [32] (cacheSize.map decimal)]

/-- A pool name that can be told from the text around it. -/
def IsWord (name : Name) : Prop := name ≠ [] ∧ ∀ b ∈ name, b ≠ 0 ∧ isSpace b = false

/-- The listener reads exactly the pairs that were sent. -/
def Survives (workloads : List Name) (cacheSize : List Nat) : Prop :=
  ∃ text, messageText (recv bufSize (setCacheSize workloads cacheSize)) = .ok text ∧
    parseConfig text = workloads.zip cacheSize

theorem readPairs_eq (line size : List UInt8) :
    readPairs line size = match readWord line with
      | none => []
      | some (token, line') =>
        match readSize size with
        | none => []
        | some (num, size') => (token, num) :: readPairs line' size' := by
  rw [readPairs]
  split
  · next hw => rw [hw]
  · next token line' hw =>
    cases readSize size <;> simp only [hw]

/-- Joined names and joined numerals are read back as pairs. -/
theorem readPairs_behind {names : List Name} {sizes : List Nat} (hlen : names.length = sizes.length)
    (hnames : ∀ w ∈ names, IsWord w) (hsizes : ∀ n ∈ sizes, n < 2 ^ 64) :
    readPairs (behind 32 names) (behind 32 (sizes.map decimal)) = names.zip sizes := by
  have hblank : isSpace 32 = true := by decide
  have hhead : ∀ (ws : List (List UInt8)), ∀ b ∈ (behind 32 ws).head?,
      isSpace b = true ∧ isDigit b = false := by
    intro ws b hb
    rw [head_behind hb]
    decide
  induction names generalizing sizes with
  | nil =>
    rw [readPairs_eq]
    rfl
  | cons w ws ih =>
    cases sizes with
    | nil => simp at hlen
    | cons n ns =>
      have hw := hnames w List.mem_cons_self
      have hword : readWord (behind 32 (w :: ws)) = some (w, behind 32 ws) := by
        rw [behind_cons, join_cons, readWord_skip hblank]
        exact readWord_append hw.1 (fun b hb => (hw.2 b hb).2) fun b hb => (hhead ws b hb).1
      have hsize : readSize (behind 32 ((n :: ns).map decimal)) =
          some (n, behind 32 (ns.map decimal)) := by
        rw [List.map_cons, behind_cons, join_cons, readSize_skip hblank]
        exact readSize_decimal_append (hsizes n List.mem_cons_self)
          fun b hb => (hhead _ b hb).2
      rw [readPairs_eq]
      simp only [hword, hsize, List.zip_cons_cons]
      rw [ih (Nat.succ.inj hlen) (fun v hv => hnames v (List.mem_cons_of_mem _ hv))
        fun m hm => hsizes m (List.mem_cons_of_mem _ hm)]

theorem readPairs_join {names : List Name} {sizes : List Nat} (hlen : names.length = sizes.length)
    (hnames : ∀ w ∈ names, IsWord w) (hsizes : ∀ n ∈ sizes, n < 2 ^ 64) :
    readPairs (join [32] names) (join [32] (sizes.map decimal)) = names.zip sizes := by
  have hblank : isSpace 32 = true := by decide
  rw [← readPairs_behind hlen hnames hsizes]
  cases names with
  | nil =>
    cases sizes with
    | nil => rfl
    | cons n ns => simp at hlen
  | cons w ws =>
    cases sizes with
    | nil => simp at hlen
    | cons n ns =>
      -- the first separators are skipped
      rw [readPairs_eq (join [32] (w :: ws)), readPairs_eq (behind 32 (w :: ws)), List.map_cons,
        behind_cons, behind_cons, readWord_skip hblank, readSize_skip hblank]

/-- Reading the two lines. -/
theorem parseConfig_join {names : List Name} {sizes : List Nat} (hlen : names.length = sizes.length)
    (hnames : ∀ w ∈ names, IsWord w) (hsizes : ∀ n ∈ sizes, n < 2 ^ 64) :
    parseConfig (join [10] [join [32] names, join [32] (sizes.map decimal)]) =
      names.zip sizes := by
  have hline : ∀ b ∈ join [32] names, (decide (b ≠ 10)) = true := by
    intro b hb
    obtain rfl | ⟨w, hw, hbw⟩ := mem_join hb
    · decide
    · have hspace := ((hnames w hw).2 b hbw).2
      refine decide_eq_true ?_
      rintro rfl
      cases hspace
  have hsize : ∀ b ∈ join [32] (sizes.map decimal), (decide (b ≠ 10)) = true := by
    intro b hb
    obtain rfl | ⟨w, hw, hbw⟩ := mem_join hb
    · decide
    · obtain ⟨n, -, rfl⟩ := List.mem_map.mp hw
      have hdigit := (digit_of_mem_decimal hbw).1
      refine decide_eq_true ?_
      rintro rfl
      exact absurd hdigit (by decide)
  have hjoin : join [10] [join [32] names, join [32] (sizes.map decimal)] =
      join [32] names ++ 10 :: join [32] (sizes.map decimal) := by
    simp [join]
  have hstop : ∀ b ∈ (10 :: join [32] (sizes.map decimal)).head?, (decide (b ≠ 10)) = false := by
    intro b hb
    cases hb
    rfl
  rw [hjoin, parseConfig]
  simp only [getline, takeWhile_append_of_stop hline hstop, dropWhile_append_of_stop hline hstop,
    List.drop_succ_cons, List.drop_zero, List.takeWhile_eq_self_iff.mpr hsize]
  exact readPairs_join hlen hnames hsizes

/-- Nothing that is sent is a NUL. -/
theorem not_mem_setCacheSize {names : List Name} (sizes : List Nat)
    (hnames : ∀ w ∈ names, IsWord w) :
    0 ∉ setCacheSize names sizes := by
  have hline : 0 ∉ join [32] names := by
    intro hmem
    obtain h | ⟨w, hw, hbw⟩ := mem_join hmem
    · exact absurd h (by decide)
    · exact ((hnames w hw).2 0 hbw).1 rfl
  have hsize : 0 ∉ join [32] (sizes.map decimal) := by
    intro hmem
    obtain h | ⟨w, hw, hbw⟩ := mem_join hmem
    · exact absurd h (by decide)
    · obtain ⟨n, -, rfl⟩ := List.mem_map.mp hw
      exact absurd (digit_of_mem_decimal hbw).1 (by decide)
  simp [setCacheSize, join, hline, hsize]

/-- A request without room for a NUL is read out of bounds. -/
theorem length_of_survives {names : List Name} {sizes : List Nat} (hnames : ∀ w ∈ names, IsWord w)
    (h : Survives names sizes) : (setCacheSize names sizes).length < bufSize := by
  obtain ⟨text, hok, -⟩ := h
  obtain hlen | hmem := (messageText_eq_ok.mp hok).1
  · exact hlen
  · exact absurd (List.mem_of_mem_take hmem) (not_mem_setCacheSize sizes hnames)

/-- A resize request survives exactly if it is shorter than the listener's buffer. -/
theorem survives_iff {names : List Name} {sizes : List Nat} (hlen : names.length = sizes.length)
    (hnames : ∀ w ∈ names, IsWord w) (hsizes : ∀ n ∈ sizes, n < 2 ^ 64) :
    Survives names sizes ↔ (setCacheSize names sizes).length < bufSize := by
  refine ⟨length_of_survives hnames, fun hfits => ?_⟩
  have hnul : ∀ b ∈ setCacheSize names sizes, (decide (b ≠ 0)) = true := by
    intro b hb
    refine decide_eq_true ?_
    rintro rfl
    exact not_mem_setCacheSize sizes hnames hb
  have htext : receivedText (setCacheSize names sizes) = setCacheSize names sizes := by
    rw [receivedText, recv, List.take_of_length_le (Nat.le_of_lt hfits),
      List.takeWhile_eq_self_iff.mpr hnul]
  refine ⟨_, messageText_eq_ok.mpr ⟨.inl hfits, ?_, rfl⟩, ?_⟩
  · rw [htext, setCacheSize, List.length_append]
    exact Nat.le_add_right ..
  · rw [htext]
    exact parseConfig_join hlen hnames hsizes

/-- 25 units for the pool `tmdb`, 1600 for `leveldb` and 70000 for `scan_1`. -/
theorem survives_iff_tmdb :
    Survives [[116, 109, 100, 98], [108, 101, 118, 101, 108, 100, 98], [115, 99, 97, 110, 95, 49]]
        [25, 1600, 70000] ↔
      (setCacheSize [[116, 109, 100, 98], [108, 101, 118, 101, 108, 100, 98],
        [115, 99, 97, 110, 95, 49]] [25, 1600, 70000]).length < bufSize :=
  survives_iff rfl (by simp [IsWord, isSpace]) (by decide)

/-- 25 units for each of 200 pools. -/
theorem not_survives_long :
    ¬ Survives (List.replicate 200 [116, 109, 100, 98]) (List.replicate 200 25) := by
  intro h
  have hnames : ∀ w ∈ List.replicate 200 ([116, 109, 100, 98] : Name), IsWord w := by
    intro w hw
    simp [List.eq_of_mem_replicate hw, IsWord, isSpace]
  have hlen : ¬ (setCacheSize (List.replicate 200 [116, 109, 100, 98])
      (List.replicate 200 25)).length < bufSize := by
    decide +kernel
  exact hlen (length_of_survives hnames h)

end CachelibArchive.Control
