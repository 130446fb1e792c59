import CachelibArchive.Core.Trace
import CachelibArchive.Tmdb.Contents
import CachelibArchive.Tmdb.Process

/-!
# Inserts and fetches of one program

A program that inserts, fetches, and closes and opens again, from the creation of the database
on. Its calls return what the map of the first inserts says, unless an insert meets the lock
that a closed handle has left.
-/

namespace CachelibArchive.Tmdb

/-! ## The program -/

/-- One call of the program. -/
inductive MapCall
  | insert (k : Key) (v : Value) (pad : UInt32)
  | fetch (k : Key)
  /-- Close the handle and open the same files with mode "r" or "w". -/
  | reopen (readOnly : Bool)

namespace MapCall

/-- The call on the two files. -/
def onFiles (p : Process) : MapCall → Except Halt Reply × Process
  | .insert k v pad =>
    let (r, p) := p.store k.str v.str pad
    (r.map .status, p)
  | .fetch k =>
    let (r, p) := p.fetch k.str
    (r.map .value, p)
  | .reopen readOnly =>
    match p.reopen (if readOnly then .read else .write) with
    | none => (.error (.fault .exit), p)
    | some p => (.ok .opened, p)

/-- The program after a call that returns. -/
def next (p : Process) (c : MapCall) : Option Process :=
  match c.onFiles p with
  | (.ok _, p) => some p
  | (.error _, _) => none

/-- What the call inserts under a key. -/
def inserts (k : Key) : MapCall → Option Value
  | .insert k' v _ => if k' = k then some v else none
  | .fetch _ | .reopen _ => none

/-- The value of the first insert of a key. -/
def firstValue (cs : List MapCall) (k : Key) : Option Value := cs.findSome? (inserts k)

/-- What the call has to return, and to leave alone, where the map is `m`. -/
def Expected (m : Key → Option Value) (p : Process) (r : Reply) (p' : Process) : MapCall → Prop
  | .insert k _ _ => (m k = none → r = .status .success) ∧
    (m k ≠ none → r = .status .ok ∧ p'.db.idx.file = p.db.idx.file ∧
      p'.db.dat.file = p.db.dat.file)
  | .fetch k => r = .value ((m k).map Value.str)
  | .reopen _ => r = .opened

/-- Inserts go through handles open for writing; `writable` is whether the first one is. -/
def Permitted (writable : Bool) : List MapCall → Prop
  | [] => True
  | .insert .. :: cs => writable = true ∧ Permitted writable cs
  | .fetch _ :: cs => Permitted writable cs
  | .reopen readOnly :: cs => Permitted (!readOnly) cs

/-- Every call returns, as on the map of the first inserts. -/
def AnswersAsMap (done : List MapCall) (p : Process) : List MapCall → Prop
  | [] => True
  | c :: cs => ∃ r p', c.onFiles p = (.ok r, p') ∧ c.Expected (firstValue done) p r p' ∧
    AnswersAsMap (done ++ [c]) p' cs

/-! ## The condition -/

/-- The last call was a fetch of a key not inserted until then. -/
def FetchedNothing (done : List MapCall) : Prop :=
  ∃ front k, done = front ++ [.fetch k] ∧ firstValue front k = none

/-- A handle was closed right behind such a fetch. -/
def LeftLocked (done : List MapCall) : Prop :=
  Trace.Once (fun front c => (∃ readOnly, c = .reopen readOnly) ∧ FetchedNothing front) done

/-- The condition on a call: no closed handle has left its lock where the call inserts. -/
def NoLockLeft (done : List MapCall) : MapCall → Prop
  | .insert .. => ¬LeftLocked done
  | .fetch _ | .reopen _ => True

variable {done : List MapCall} {p : Process}

theorem firstValue_snoc (done : List MapCall) (c : MapCall) (k : Key) :
    firstValue (done ++ [c]) k = (firstValue done k).or (c.inserts k) := by
  rw [firstValue, firstValue, List.findSome?_append]
  cases hc : c.inserts k <;> simp [hc]

/-- The fetch of a call that is one. -/
theorem fetchedNothing_snoc {c : MapCall} : FetchedNothing (done ++ [c]) ↔
    ∃ k, c = .fetch k ∧ firstValue done k = none := by
  constructor
  · rintro ⟨front, k, h, hnone⟩
    obtain ⟨rfl, hc⟩ := List.append_inj' h rfl
    exact ⟨k, (List.cons.inj hc).1, hnone⟩
  · rintro ⟨k, rfl, hnone⟩
    exact ⟨done, k, rfl, hnone⟩

/-- Only a re-opening leaves a lock. -/
theorem leftLocked_snoc {c : MapCall} : LeftLocked (done ++ [c]) ↔
    LeftLocked done ∨ (∃ readOnly, c = .reopen readOnly) ∧ FetchedNothing done :=
  Trace.once_concat

/-- Without a re-opening nothing is left. -/
theorem not_leftLocked_of_forall (h : ∀ c ∈ done, ∀ readOnly, c ≠ .reopen readOnly) :
    ¬LeftLocked done := by
  rintro ⟨front, back, c, rfl, ⟨readOnly, rfl⟩, -⟩
  exact h _ (List.mem_append_right _ List.mem_cons_self) readOnly rfl

/-! ## What the files hold -/

/-- After these calls the files represent the map of the first inserts, and the locks are as the
calls have left them. -/
structure Mapped (done : List MapCall) (p : Process) (m : Marks) : Prop where
  rep : ∃ written, Rep ⟨p.db, written⟩ (firstValue done)
  marked : p.Marked m
  held : m.held = true ↔ FetchedNothing done
  left : m.left = true ↔ LeftLocked done

variable {m : Marks}

/-- A database just created. -/
theorem mapped_created : Mapped [] (.created createdDb) .none where
  rep := ⟨[], rep_created⟩
  marked := .created rfl
  held := iff_of_false Bool.false_ne_true fun ⟨front, _, h, _⟩ =>
    List.append_ne_nil_of_right_ne_nil front (List.cons_ne_nil _ _) h.symm
  left := iff_of_false Bool.false_ne_true (Trace.once_nil _)

/-- A fetch returns what the map says. -/
theorem Mapped.fetch (h : Mapped done p m) (k : Key) :
    ∃ p', (fetch k).onFiles p = (.ok (.value ((firstValue done k).map Value.str)), p') ∧
      (Writable p.db → Writable p'.db) ∧ ∃ m', Mapped (done ++ [.fetch k]) p' m' := by
  obtain ⟨written, hr⟩ := h.rep
  obtain ⟨db, hfetch, hs⟩ := hr.fetch k
  have hlock := dbFetch_datLock p.db k.keyLength
  rw [hfetch] at hlock
  have hvalues : firstValue (done ++ [.fetch k]) = firstValue done := by
    funext k'
    rw [firstValue_snoc, inserts, Option.or_none]
  refine ⟨{ p with db }, ?_, hs.writable, m.fetched (firstValue done k).isSome, ?_, ?_, ?_, ?_⟩
  · simp only [onFiles, h.marked.fetch_eq k.str, hfetch]
    rfl
  · rw [hvalues]
    exact ⟨written, hr.congr hs.idx hs.dat⟩
  · apply h.marked.fetched
    rw [hlock]
    cases firstValue done k <;> rfl
  · rw [fetchedNothing_snoc]
    simp [Marks.fetched]
  · rw [leftLocked_snoc]
    simp [Marks.fetched, h.left]

/-- Closing and opening again returns. -/
theorem Mapped.reopen (h : Mapped done p m) (readOnly : Bool) :
    ∃ p', (reopen readOnly).onFiles p = (.ok .opened, p') ∧
      (readOnly = false → Writable p'.db) ∧ ∃ m', Mapped (done ++ [.reopen readOnly]) p' m' := by
  obtain ⟨written, hr⟩ := h.rep
  have hvalues : firstValue (done ++ [.reopen readOnly]) = firstValue done := by
    funext k'
    rw [firstValue_snoc, inserts, Option.or_none]
  have hopen : ∃ db, dbOpen (dbFree p.db) (if readOnly then .read else .write) = some db ∧
      db.idx.file = p.db.idx.file ∧ db.dat.file = p.db.dat.file ∧ db.datLock = .unlocked ∧
      (readOnly = false → Writable db) := by
    cases readOnly
    · exact ⟨_, rfl, rfl, rfl, rfl, fun _ => ⟨rfl, rfl⟩⟩
    · exact ⟨_, rfl, rfl, rfl, rfl, nofun⟩
  obtain ⟨db, hdb, hidx, hdat, hlock, hw⟩ := hopen
  refine ⟨⟨db, p.left ++ [p.db.datLock]⟩, ?_, hw, m.reopened, ?_, h.marked.reopened hlock, ?_, ?_⟩
  · simp only [onFiles, Process.reopen, hdb, Option.map_some]
  · rw [hvalues]
    exact ⟨written, hr.congr hidx hdat⟩
  · rw [fetchedNothing_snoc]
    simp [Marks.reopened]
  · rw [leftLocked_snoc, ← h.left, ← h.held]
    simp [Marks.reopened]

/-- An insert that meets a lock waits for it. -/
theorem Mapped.waits (h : Mapped done p m) (hleft : LeftLocked done) (k : Key) (v : Value)
    (pad : UInt32) : (insert k v pad).onFiles p = (.error .waits, p) := by
  rw [onFiles, h.marked.store_waits (h.left.mpr hleft) ⟨k.keyLength, v.short.le⟩]
  rfl

/-- Other inserts return what the map says, and later ones of a key leave both files. -/
theorem Mapped.insert (h : Mapped done p m) (hw : Writable p.db) (hleft : ¬LeftLocked done)
    (k : Key) (v : Value) (pad : UInt32) :
    ∃ r p', (insert k v pad).onFiles p = (.ok r, p') ∧
      Expected (firstValue done) p r p' (.insert k v pad) ∧ Writable p'.db ∧
      (Fits p'.db → ∃ m', Mapped (done ++ [.insert k v pad]) p' m') := by
  obtain ⟨written, hr⟩ := h.rep
  have hfree : m.left = false := by
    rw [← Bool.not_eq_true, h.left]
    exact hleft
  have hmarks : ∀ db, db.datLock = .unlocked →
      (∃ written, Rep ⟨db, written⟩ (firstValue (done ++ [.insert k v pad]))) →
      Mapped (done ++ [.insert k v pad]) { p with db } m.stored := by
    intro db hlock hrep
    refine ⟨hrep, h.marked.stored hlock, ?_, ?_⟩
    · rw [fetchedNothing_snoc]
      simp [Marks.stored]
    · rw [leftLocked_snoc]
      simp [Marks.stored, h.left]
  cases hm : firstValue done k with
  | none =>
    have habsent := hr.eq_none_iff.mp hm
    obtain ⟨db, hst, hs⟩ := hr.store_absent hw habsent v (.inl rfl) pad
    have hvalues : firstValue (done ++ [.insert k v pad]) =
        Function.update (firstValue done) k (some v) := by
      funext k'
      rw [firstValue_snoc]
      by_cases hkk : k' = k
      · subst hkk
        simp [inserts, hm]
      · rw [Function.update_of_ne hkk, inserts, if_neg (Ne.symm hkk), Option.or_none]
    refine ⟨.status .success, { p with db }, ?_, ⟨fun _ => rfl, fun hne => absurd hm hne⟩,
      ⟨hs.idxWritable, hs.datWritable⟩,
      fun hfit => ⟨m.stored, hmarks db (dbStore_datLock hst (by decide)) ?_⟩⟩
    · rw [onFiles, h.marked.store_eq hfree hst]
      rfl
    · rw [hvalues]
      exact ⟨_, hr.append habsent hs hfit⟩
  | some w =>
    have hpresent : ¬∀ e ∈ written, e.key ≠ k := by
      rw [← hr.eq_none_iff, hm]
      nofun
    push Not at hpresent
    obtain ⟨e, he, rfl⟩ := hpresent
    obtain ⟨db, hst, hs⟩ := hr.insert_present he v pad
    have hvalues : firstValue (done ++ [.insert e.key v pad]) = firstValue done := by
      funext k'
      rw [firstValue_snoc]
      by_cases hkk : e.key = k'
      · subst hkk
        rw [hm, Option.some_or]
      · rw [inserts, if_neg hkk, Option.or_none]
    refine ⟨.status .ok, { p with db }, ?_, ⟨fun hnone => ?_, fun _ => ⟨rfl, hs.idx, hs.dat⟩⟩,
      hs.writable hw, fun _ => ⟨m.stored, hmarks db (dbStore_datLock hst (by decide)) ?_⟩⟩
    · rw [onFiles, h.marked.store_eq hfree hst]
      rfl
    · rw [hm] at hnone
      cases hnone
    · rw [hvalues]
      exact ⟨written, hr.congr hs.idx hs.dat⟩

/-- The calls behind some others are answered as by the map exactly if none of them meets a lock
left behind. -/
theorem Mapped.answers_iff {cs : List MapCall} (h : Mapped done p m) {writable : Bool}
    (hw : writable = true → Writable p.db) (hfits : Run.Always next (fun p => Fits p.db) p cs)
    (hcs : Permitted writable cs) :
    AnswersAsMap done p cs ↔ Trace.AtEach (fun before => NoLockLeft (done ++ before)) cs := by
  induction cs generalizing done p m writable with
  | nil => exact iff_of_true trivial (Trace.atEach_nil _)
  | cons c cs ih =>
    have hshift : Trace.AtEach (fun before => NoLockLeft (done ++ [c] ++ before)) cs ↔
        Trace.AtEach (fun before => NoLockLeft (done ++ c :: before)) cs :=
      Trace.AtEach.congr fun before b => by rw [List.append_assoc, List.singleton_append]
    -- a call that returns as expected leaves the calls behind it
    have hreturns : ∀ {r p' m' writable'}, c.onFiles p = (.ok r, p') →
        c.Expected (firstValue done) p r p' → Mapped (done ++ [c]) p' m' →
        (writable' = true → Writable p'.db) → Permitted writable' cs → NoLockLeft done c →
        (AnswersAsMap done p (c :: cs) ↔
          Trace.AtEach (fun before => NoLockLeft (done ++ before)) (c :: cs)) := by
      intro r p' m' writable' hcall hexpected hnext hw' hcs' hc
      have hstep : next p c = some p' := by rw [next, hcall]
      have hrest := ih hnext hw' (hfits.2 p' hstep) hcs'
      rw [Trace.atEach_cons, List.append_nil, and_iff_right hc, ← hshift, ← hrest]
      constructor
      · rintro ⟨r', p'', hcall', -, hanswers⟩
        cases hcall.symm.trans hcall'
        exact hanswers
      · exact fun hanswers => ⟨r, p', hcall, hexpected, hanswers⟩
    cases c with
    | fetch k =>
      obtain ⟨p', hcall, hkeep, m', hnext⟩ := h.fetch k
      exact hreturns hcall rfl hnext (fun hopen => hkeep (hw hopen)) hcs trivial
    | reopen readOnly =>
      obtain ⟨p', hcall, hopen, m', hnext⟩ := h.reopen readOnly
      exact hreturns hcall rfl hnext (fun hmode => hopen (by simpa using hmode)) hcs trivial
    | insert k v pad =>
      obtain ⟨hmode, hcs⟩ := hcs
      by_cases hleft : LeftLocked done
      · refine iff_of_false ?_ fun hall => ?_
        · rintro ⟨r, p', hcall, -⟩
          rw [h.waits hleft] at hcall
          cases hcall
        · have hfree := (Trace.atEach_cons.mp hall).1
          rw [List.append_nil] at hfree
          exact hfree hleft
      · obtain ⟨r, p', hcall, hexpected, hw', hnext⟩ := h.insert (hw hmode) hleft k v pad
        have hstep : next p (.insert k v pad) = some p' := by rw [next, hcall]
        obtain ⟨m', hmapped⟩ := hnext (hfits.2 p' hstep).head
        exact hreturns hcall hexpected hmapped (fun _ => hw') hcs hleft

end MapCall

open MapCall

/-- The calls of a program, from the creation of the database on, are answered as by the map of the
first inserts, exactly if no insert comes after the closing of a handle whose last call fetched a
key that had not been inserted. -/
theorem answersAsMap_iff {cs : List MapCall} (hcs : Permitted true cs)
    (hfits : Run.Always next (fun p => Fits p.db) (.created createdDb) cs) :
    AnswersAsMap [] (.created createdDb) cs ↔ Trace.AtEach NoLockLeft cs :=
  mapped_created.answers_iff (fun _ => ⟨rfl, rfl⟩) hfits hcs

/-- Inserts of two keys of one bucket, one of them again, and fetches through three handles. -/
def threeHandles : List MapCall :=
  [.insert keyZeroA valueX 0, .insert keyRza valueY 0, .insert keyZeroA valueY 0, .fetch keyRza,
    .reopen false, .insert keyOne valueX 0, .fetch keyZeroA, .reopen true, .fetch keyTwo]

/-- The first handle fetches a key it has inserted before it is closed. -/
theorem answersAsMap_threeHandles : AnswersAsMap [] (.created createdDb) threeHandles := by
  have hfirst : ¬LeftLocked [.insert keyZeroA valueX 0, .insert keyRza valueY 0,
      .insert keyZeroA valueY 0, .fetch keyRza, .reopen false] := by
    intro (h : LeftLocked ([.insert keyZeroA valueX 0, .insert keyRza valueY 0,
      .insert keyZeroA valueY 0, .fetch keyRza] ++ [.reopen false]))
    obtain h | ⟨-, h⟩ := leftLocked_snoc.mp h
    · exact not_leftLocked_of_forall (by simp) h
    · have hlast : FetchedNothing ([.insert keyZeroA valueX 0, .insert keyRza valueY 0,
        .insert keyZeroA valueY 0] ++ [.fetch keyRza]) := h
      obtain ⟨k, hk, hnone⟩ := fetchedNothing_snoc.mp hlast
      cases hk
      revert hnone
      decide
  apply (answersAsMap_iff ?_ ?_).mpr
  · simp only [threeHandles, Trace.atEach_cons, NoLockLeft, Trace.atEach_nil, and_true, true_and]
    exact ⟨not_leftLocked_of_forall (by simp), not_leftLocked_of_forall (by simp),
      not_leftLocked_of_forall (by simp), hfirst⟩
  · simp [threeHandles, Permitted]
  · decide +kernel

/-- A fetch of an absent key, closing, and an insert through the next handle. -/
def fetchReopenInsert : List MapCall :=
  [.fetch keyOne, .reopen false, .insert keyOne valueX 0]

/-- The insert waits for the lock of the first handle. -/
theorem not_answersAsMap_fetchReopenInsert :
    ¬AnswersAsMap [] (.created createdDb) fetchReopenInsert := by
  obtain ⟨p₁, hfetch, -, m₁, h₁⟩ := mapped_created.fetch keyOne
  obtain ⟨p₂, hreopen, -, m₂, h₂⟩ := h₁.reopen false
  have hleft : LeftLocked ([] ++ [.fetch keyOne] ++ [.reopen false]) :=
    leftLocked_snoc.mpr (.inr ⟨⟨false, rfl⟩, fetchedNothing_snoc.mpr ⟨keyOne, rfl, rfl⟩⟩)
  rintro ⟨r₁, q₁, hcall₁, -, r₂, q₂, hcall₂, -, r₃, q₃, hcall₃, -⟩
  cases hfetch.symm.trans hcall₁
  cases hreopen.symm.trans hcall₂
  rw [h₂.waits hleft] at hcall₃
  cases hcall₃

end CachelibArchive.Tmdb
