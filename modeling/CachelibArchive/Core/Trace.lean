import Mathlib.Data.List.Basic

/-!
# What two machines return on the same calls

A machine answers every call and moves on. Two machines are compared through a
relation between their states that may mention the calls made so far: if it is
kept, and decides whether the answers to the next call agree, then it decides
whether all answers agree.
-/

namespace Trace

variable {σ τ α β : Type*}

/-- The answers to a list of calls. -/
def outputs (f : σ → α → β × σ) : σ → List α → List β
  | _, [] => []
  | s, a :: as => (f s a).1 :: outputs f (f s a).2 as

/-- A machine that looks at a part of each call only. -/
theorem outputs_map {γ : Type*} (f : σ → α → β × σ) (g : γ → α) (s : σ) (cs : List γ) :
    outputs (fun s c => f s (g c)) s cs = outputs f s (cs.map g) := by
  induction cs generalizing s with
  | nil => rfl
  | cons c cs ih => rw [outputs, List.map_cons, outputs, ih]

/-- The condition holds of every call, given the calls in front of it. -/
def AtEach (C : List α → α → Prop) (as : List α) : Prop :=
  ∀ (before after : List α) (a : α), as = before ++ a :: after → C before a

theorem atEach_nil (C : List α → α → Prop) : AtEach C [] := by
  intro before after a h
  simp at h

/-- The first input, and the others behind it. -/
theorem atEach_cons {C : List α → α → Prop} {a : α} {as : List α} :
    AtEach C (a :: as) ↔ C [] a ∧ AtEach (fun before => C (a :: before)) as := by
  constructor
  · intro h
    refine ⟨h [] as a rfl, fun before after b hb => ?_⟩
    exact h (a :: before) after b (by rw [hb, List.cons_append])
  · rintro ⟨ha, has⟩ before after b hb
    cases before with
    | nil =>
      obtain ⟨rfl, rfl⟩ := List.cons.inj hb
      exact ha
    | cons x before =>
      rw [List.cons_append] at hb
      obtain ⟨rfl, hrest⟩ := List.cons.inj hb
      exact has before after b hrest

/-- The inputs before the last, and the last. -/
theorem atEach_concat {C : List α → α → Prop} {as : List α} {a : α} :
    AtEach C (as ++ [a]) ↔ AtEach C as ∧ C as a := by
  constructor
  · intro h
    refine ⟨fun before after b hb => ?_, h as [] a rfl⟩
    exact h before (after ++ [a]) b (by rw [hb, List.append_assoc, List.cons_append])
  · rintro ⟨has, ha⟩ before after b hb
    rcases List.eq_nil_or_concat after with rfl | ⟨after, c, rfl⟩
    · obtain ⟨rfl, heq⟩ := List.append_inj' hb rfl
      obtain rfl := (List.cons.inj heq).1
      exact ha
    · rw [List.concat_eq_append, ← List.cons_append, ← List.append_assoc] at hb
      exact has before after b (List.append_inj' hb rfl).1

/-- The condition on the images of the calls. -/
theorem atEach_map {γ : Type*} {C : List α → α → Prop} (g : γ → α) {cs : List γ} :
    AtEach C (cs.map g) ↔ AtEach (fun before c => C (before.map g) (g c)) cs := by
  constructor
  · rintro h before after c rfl
    exact h (before.map g) (after.map g) (g c) (by rw [List.map_append, List.map_cons])
  · intro h before after a hb
    obtain ⟨before, rest, rfl, rfl, hrest⟩ := List.map_eq_append_iff.mp hb
    obtain ⟨c, after, rfl, rfl, rfl⟩ := List.map_eq_cons_iff.mp hrest
    exact h before after c rfl

/-- Conditions that agree everywhere agree over a run. -/
theorem AtEach.congr {C D : List α → α → Prop} {as : List α}
    (h : ∀ before a, C before a ↔ D before a) : AtEach C as ↔ AtEach D as :=
  forall₄_congr fun before _ a _ => h before a

/-- Some call, with the calls in front of it, meets the condition. -/
def Once (P : List α → α → Prop) (as : List α) : Prop :=
  ∃ (before after : List α) (a : α), as = before ++ a :: after ∧ P before a

theorem once_nil (P : List α → α → Prop) : ¬Once P [] := by
  rintro ⟨before, after, a, h, _⟩
  simp at h

/-- The inputs before the last, or the last. -/
theorem once_concat {P : List α → α → Prop} {as : List α} {a : α} :
    Once P (as ++ [a]) ↔ Once P as ∨ P as a := by
  constructor
  · rintro ⟨before, after, b, h, hb⟩
    rcases List.eq_nil_or_concat after with rfl | ⟨after, c, rfl⟩
    · obtain ⟨rfl, heq⟩ := List.append_inj' h rfl
      obtain rfl := (List.cons.inj heq).1
      exact .inr hb
    · rw [List.concat_eq_append, ← List.cons_append, ← List.append_assoc] at h
      exact .inl ⟨before, after, b, (List.append_inj' h rfl).1, hb⟩
  · rintro (⟨before, after, b, rfl, hb⟩ | ha)
    · exact ⟨before, after ++ [a], b, by rw [List.append_assoc, List.cons_append], hb⟩
    · exact ⟨as, [], a, rfl, ha⟩

/-- Comparison rule, from related states, on calls that all meet a condition of their own. -/
theorem outputs_eq_iff_from {f : σ → α → β × σ} {g : τ → α → β × τ} {C D : List α → α → Prop}
    {R : List α → σ → τ → Prop}
    (hkeep : ∀ done s t a, R done s t → D done a → C done a →
      R (done ++ [a]) (f s a).2 (g t a).2)
    (hiff : ∀ done s t a, R done s t → D done a → ((f s a).1 = (g t a).1 ↔ C done a))
    {done : List α} {s : σ} {t : τ} (hR : R done s t) {as : List α}
    (hD : AtEach (fun before => D (done ++ before)) as) :
    outputs f s as = outputs g t as ↔ AtEach (fun before => C (done ++ before)) as := by
  induction as generalizing done s t with
  | nil => exact iff_of_true rfl (atEach_nil _)
  | cons a as ih =>
    have hshift (E : List α → α → Prop) : AtEach (fun before => E (done ++ [a] ++ before)) as ↔
        AtEach (fun before => E (done ++ a :: before)) as :=
      AtEach.congr fun before b => by rw [List.append_assoc, List.singleton_append]
    obtain ⟨hda, hdas⟩ := atEach_cons.mp hD
    rw [List.append_nil] at hda
    rw [outputs, outputs, List.cons.injEq, hiff done s t a hR hda, atEach_cons, List.append_nil,
      ← hshift]
    exact and_congr_right fun ha => ih (hkeep done s t a hR hda ha) ((hshift D).mpr hdas)

/-- Comparison rule: where the relation between the states decides every answer, the answers
agree exactly if the condition holds at every call. -/
theorem outputs_eq_iff_where {f : σ → α → β × σ} {g : τ → α → β × τ} {C D : List α → α → Prop}
    {R : List α → σ → τ → Prop}
    (hkeep : ∀ done s t a, R done s t → D done a → C done a →
      R (done ++ [a]) (f s a).2 (g t a).2)
    (hiff : ∀ done s t a, R done s t → D done a → ((f s a).1 = (g t a).1 ↔ C done a))
    {s : σ} {t : τ} (hR : R [] s t) {as : List α} (hD : AtEach D as) :
    outputs f s as = outputs g t as ↔ AtEach C as :=
  outputs_eq_iff_from hkeep hiff hR hD

/-- The rule on any calls. -/
theorem outputs_eq_iff {f : σ → α → β × σ} {g : τ → α → β × τ} {C : List α → α → Prop}
    {R : List α → σ → τ → Prop}
    (hkeep : ∀ done s t a, R done s t → C done a → R (done ++ [a]) (f s a).2 (g t a).2)
    (hiff : ∀ done s t a, R done s t → ((f s a).1 = (g t a).1 ↔ C done a))
    {s : σ} {t : τ} (hR : R [] s t) (as : List α) :
    outputs f s as = outputs g t as ↔ AtEach C as :=
  outputs_eq_iff_where (D := fun _ _ => True) (fun done s t a h _ => hkeep done s t a h)
    (fun done s t a h _ => hiff done s t a h) hR fun _ _ _ _ => trivial

/-- Two functions related after `done` answer the rest of the inputs alike. -/
theorem outputs_eq_of_atEach_from {f : σ → α → β × σ} {g : τ → α → β × τ} {C : List α → α → Prop}
    {R : List α → σ → τ → Prop}
    (hstep : ∀ done s t a, R done s t → C done a →
      (f s a).1 = (g t a).1 ∧ R (done ++ [a]) (f s a).2 (g t a).2)
    {done : List α} {s : σ} {t : τ} (hR : R done s t) {as : List α}
    (hC : AtEach (fun before => C (done ++ before)) as) :
    outputs f s as = outputs g t as := by
  induction as generalizing done s t with
  | nil => rfl
  | cons a as ih =>
    obtain ⟨ha, has⟩ := atEach_cons.mp hC
    rw [List.append_nil] at ha
    obtain ⟨hout, hR'⟩ := hstep done s t a hR ha
    have hshift : AtEach (fun before => C (done ++ [a] ++ before)) as :=
      (AtEach.congr fun before b => by rw [List.append_assoc, List.singleton_append]).mpr has
    rw [outputs, outputs, hout, ih hR' hshift]

/-- The sufficient half, for a relation that is kept only where the condition holds. -/
theorem outputs_eq_of_atEach {f : σ → α → β × σ} {g : τ → α → β × τ} {C : List α → α → Prop}
    {R : List α → σ → τ → Prop}
    (hstep : ∀ done s t a, R done s t → C done a →
      (f s a).1 = (g t a).1 ∧ R (done ++ [a]) (f s a).2 (g t a).2)
    {s : σ} {t : τ} (hR : R [] s t) {as : List α} (hC : AtEach C as) :
    outputs f s as = outputs g t as :=
  outputs_eq_of_atEach_from hstep hR hC

end Trace
