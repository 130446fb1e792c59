import CachelibArchive.Core.BinaryFile

/-!
# The last line of a log

`get_last_line` starts in front of the last two bytes and goes back, a byte at a time, to the
newline in front of the last line. There is such a newline only behind an earlier line: in a
file of a single line the search leaves the file at its start, and `seek` raises, as it does
at once in an empty file.
-/

namespace CachelibArchive.Control

open Python

/-- The loop `while file.read(1) != b'\n': file.seek(-2, 1)`. -/
def seekLine (file : BinaryFile) : Except Raised BinaryFile :=
  if (file.read 1).1 = [10] then .ok (file.read 1).2
  else
    match _h : (file.read 1).2.seek (-2) .current with
    | .error e => .error e
    | .ok file' => seekLine file'
termination_by file.pos
decreasing_by
  have hread := file.pos_read_le 1
  have hseek := BinaryFile.pos_of_seek _h
  rw [BinaryFile.base] at hseek
  omega

/-- `get_last_line`; `none` is a file that does not exist. -/
def getLastLine : Option (List UInt8) → Except Raised (List Char)
  | none => .ok []
  | some content => do
    let file ← (BinaryFile.openFile content).seek (-2) .fileEnd
    let file ← seekLine file
    let text ← decode file.readline.1
    return strip text

/-- The text of a line. -/
structure Line where
  text : List Char
  newline : '\n' ∉ text

/-- The content of a log of these lines. -/
def Line.log (lines : List Line) : List UInt8 := encode (lines.flatMap fun l => l.text ++ ['\n'])

/-- The last line without white space around it; nothing for a log that is empty or missing. -/
def lastLine (log : Option (List Line)) : List Char :=
  match log.bind List.getLast? with
  | some line => strip line.text
  | none => []

/-- What the scheduler is promised of a log. -/
def FindsLastLine (log : Option (List Line)) : Prop :=
  getLastLine (log.map Line.log) = .ok (lastLine log)

variable {content : List UInt8}

/-- A newline ends the loop. -/
theorem seekLine_newline {pos : Nat} (h : content[pos]? = some 10) :
    seekLine ⟨content, pos⟩ = .ok ⟨content, pos + 1⟩ := by
  rw [seekLine, BinaryFile.read_one h]
  rfl

/-- Any other byte moves back by one. -/
theorem seekLine_back {pos : Nat} {b : UInt8} (h : content[pos + 1]? = some b) (hb : b ≠ 10) :
    seekLine ⟨content, pos + 1⟩ = seekLine ⟨content, pos⟩ := by
  have hseek : BinaryFile.seek ⟨content, pos + 1 + 1⟩ (-2) .current = .ok ⟨content, pos⟩ :=
    BinaryFile.seek_ok (by simp only [BinaryFile.base]; omega)
  rw [seekLine, BinaryFile.read_one h, if_neg (fun heq => hb (List.cons.inj heq).1)]
  split
  · next e he => rw [hseek] at he; cases he
  · next file he => rw [hseek] at he; cases he; rfl

/-- There is nothing in front of the first byte. -/
theorem seekLine_start {b : UInt8} (h : content[0]? = some b) (hb : b ≠ 10) :
    seekLine ⟨content, 0⟩ = .error .osError := by
  have hseek : BinaryFile.seek ⟨content, 0 + 1⟩ (-2) .current = .error .osError := rfl
  rw [seekLine, BinaryFile.read_one h, if_neg (fun heq => hb (List.cons.inj heq).1)]
  split
  · next e he => rw [hseek] at he; cases he; rfl
  · next file he => rw [hseek] at he; cases he

/-- From anywhere in a line, the loop gets to the first byte of the line. -/
theorem seekLine_line (before after : List UInt8) {body : List UInt8} (hbody : 10 ∉ body)
    {k : Nat} (hk : k < body.length) :
    seekLine ⟨before ++ (body ++ after), before.length + k⟩ =
      seekLine ⟨before ++ (body ++ after), before.length⟩ := by
  induction k with
  | zero => rfl
  | succ k ih =>
    have hget : (before ++ (body ++ after))[before.length + k + 1]? = some body[k + 1] := by
      rw [List.getElem?_append_right (by omega), List.getElem?_append_left (by omega)]
      rw [← List.getElem?_eq_getElem hk]
      congr 1
      omega
    have hne : body[k + 1] ≠ 10 := fun heq => hbody (heq ▸ List.getElem_mem hk)
    rw [← Nat.add_assoc, seekLine_back hget hne]
    exact ih (Nat.lt_of_succ_lt hk)

/-- From anywhere in a line, or its newline in front, the search ends behind that newline. -/
theorem seekLine_found {before body after : List UInt8} (hbody : 10 ∉ body) {k : Nat}
    (hk : k ≤ body.length) :
    seekLine ⟨before ++ 10 :: (body ++ after), before.length + k⟩ =
      .ok ⟨before ++ 10 :: (body ++ after), before.length + 1⟩ := by
  have hnewline : (before ++ 10 :: (body ++ after))[before.length]? = some 10 := by simp
  cases k with
  | zero => exact seekLine_newline hnewline
  | succ k =>
    have hpos : 0 < body.length := Nat.lt_of_lt_of_le (Nat.succ_pos k) hk
    have hfirst : (before ++ 10 :: (body ++ after))[before.length + 1]? = some body[0] := by
      rw [List.getElem?_append_right (by omega), Nat.add_sub_cancel_left, List.getElem?_cons_succ,
        List.getElem?_append_left hpos, List.getElem?_eq_getElem hpos]
    have hne : body[0] ≠ 10 := fun heq => hbody (heq ▸ List.getElem_mem hpos)
    have hback := seekLine_line (before ++ [10]) after hbody hk
    rw [List.length_append, List.append_assoc, List.singleton_append, List.length_singleton,
      Nat.add_assoc, Nat.add_comm 1 k] at hback
    rw [hback, seekLine_back hfirst hne, seekLine_newline hnewline]

/-- In the first line, the search ends at the start of the file. -/
theorem seekLine_lost {body after : List UInt8} (hbody : 10 ∉ body) {k : Nat}
    (hk : k < body.length) : seekLine ⟨body ++ after, k⟩ = .error .osError := by
  have hpos : 0 < body.length := Nat.zero_lt_of_lt hk
  have hfirst : (body ++ after)[0]? = some body[0] := by
    rw [List.getElem?_append_left hpos, List.getElem?_eq_getElem hpos]
  have hne : body[0] ≠ 10 := fun heq => hbody (heq ▸ List.getElem_mem hpos)
  have hback := seekLine_line [] after hbody hk
  rw [List.nil_append, List.length_nil, Nat.zero_add] at hback
  rw [hback, seekLine_start hfirst hne]

/-! ## Logs -/

theorem seek_fileEnd (h : 2 ≤ content.length) :
    (BinaryFile.openFile content).seek (-2) .fileEnd = .ok ⟨content, content.length - 2⟩ :=
  BinaryFile.seek_ok (by simp only [BinaryFile.openFile, BinaryFile.base]; omega)

theorem seek_fileEnd_short (h : content.length < 2) :
    (BinaryFile.openFile content).seek (-2) .fileEnd = .error .osError :=
  BinaryFile.seek_error (by simp only [BinaryFile.openFile, BinaryFile.base]; omega)

/-- Behind an earlier line, the last one is found. -/
theorem getLastLine_behind (before : List UInt8) {body : List UInt8} (hbody : 10 ∉ body) :
    getLastLine (some (before ++ 10 :: (body ++ [10]))) =
      (decode (body ++ [10])).bind fun text => .ok (strip text) := by
  have hlen : (before ++ 10 :: (body ++ [10])).length = before.length + body.length + 2 := by
    simp only [List.length_append, List.length_cons, List.length_nil]
    omega
  have hread : (BinaryFile.readline ⟨before ++ 10 :: (body ++ [10]), before.length + 1⟩).1 =
      body ++ [10] := by
    have hbody := BinaryFile.readline_append (before ++ [10]) [] hbody
    rwa [List.append_assoc, List.append_assoc, List.length_append] at hbody
  rw [getLastLine, seek_fileEnd (by omega), hlen, Nat.add_sub_cancel]
  change ((seekLine _).bind fun file => (decode file.readline.1).bind fun text => _) = _
  rw [seekLine_found hbody le_rfl]
  change ((decode (BinaryFile.readline _).1).bind fun text => _) = _
  rw [hread]
  rfl

/-- A single line is never found. -/
theorem getLastLine_alone {body : List UInt8} (hbody : 10 ∉ body) :
    getLastLine (some (body ++ [10])) = .error .osError := by
  have hlen : (body ++ [10]).length = body.length + 1 := List.length_append
  rw [getLastLine]
  obtain hnil | hpos := Nat.eq_zero_or_pos body.length
  · rw [seek_fileEnd_short (by omega)]
    rfl
  · rw [seek_fileEnd (by omega), hlen]
    change ((seekLine _).bind fun file => (decode file.readline.1).bind fun text => _) = _
    rw [seekLine_lost hbody (by omega)]
    rfl

namespace Line

/-- A line on the disk, its newline aside. -/
def bytes (l : Line) : List UInt8 := encode l.text

theorem newline_notMem_bytes (l : Line) : 10 ∉ l.bytes := fun h =>
  l.newline (newline_mem_encode.mp h)

theorem log_concat (lines : List Line) (l : Line) :
    log (lines ++ [l]) = log lines ++ (l.bytes ++ [10]) := by
  rw [log, log, List.flatMap_append, encode_append, List.flatMap_singleton, encode_append]
  rfl

end Line

theorem getLastLine_single (l : Line) :
    getLastLine (some (Line.log [l])) = .error .osError := by
  rw [← List.nil_append [l], Line.log_concat]
  exact getLastLine_alone l.newline_notMem_bytes

theorem getLastLine_several (lines : List Line) (previous l : Line) :
    getLastLine (some (Line.log (lines ++ [previous] ++ [l]))) = .ok (strip l.text) := by
  have hdecode : decode (l.bytes ++ [10]) = .ok (l.text ++ ['\n']) := by
    rw [← decode_encode, encode_append]
    rfl
  have hlog : Line.log (lines ++ [previous] ++ [l]) =
      (Line.log lines ++ previous.bytes) ++ 10 :: (l.bytes ++ [10]) := by
    rw [Line.log_concat, Line.log_concat]
    simp only [List.append_assoc, List.singleton_append]
  rw [hlog, getLastLine_behind _ l.newline_notMem_bytes, hdecode]
  exact congrArg Except.ok (strip_concat rfl l.text)

/-- The last line is returned if and only if the file is missing or has at least two lines. -/
theorem findsLastLine_iff (log : Option (List Line)) :
    FindsLastLine log ↔ ∀ lines ∈ log, 2 ≤ lines.length := by
  cases log with
  | none => exact iff_of_true rfl nofun
  | some lines =>
    rw [FindsLastLine, lastLine, Option.map_some, Option.bind_some]
    simp only [Option.mem_some, forall_eq']
    obtain rfl | ⟨front, l, rfl⟩ := List.eq_nil_or_concat' lines
    · refine iff_of_false ?_ (by decide)
      rw [getLastLine, Line.log, List.flatMap_nil, seek_fileEnd_short (by decide)]
      nofun
    · rw [List.getLast?_concat]
      obtain rfl | ⟨front, previous, rfl⟩ := List.eq_nil_or_concat' front
      · refine iff_of_false ?_ (by simp)
        rw [List.nil_append, getLastLine_single]
        nofun
      · refine iff_of_true (getLastLine_several front previous l) ?_
        simp only [List.length_append, List.length_singleton]
        omega

/-- A hit rate that was logged once. -/
def firstHitRate : Line := ⟨['0', '.', '8', '2', '5', '4'], by decide⟩

theorem not_findsLastLine_single : ¬FindsLastLine (some [firstHitRate]) := by
  rw [FindsLastLine, Option.map_some, getLastLine_single]
  nofun

end CachelibArchive.Control
