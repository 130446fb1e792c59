import Mathlib.Data.List.Basic

/-!
# Finite runs of a partial step function

A step takes a state and a label and is undefined where the label is not
enabled. A run folds the step over a list of labels. The two rules below are
the only inductions over runs: what one step preserves, a run preserves, and
what holds of the state before each step may be used for the next.
-/

namespace Run

variable {σ α : Type*} {step : σ → α → Option σ}

/-- The state after a list of labels, if every one of them was enabled. -/
def exec (step : σ → α → Option σ) : σ → List α → Option σ
  | s, [] => some s
  | s, a :: as => (step s a).bind fun t => exec step t as

@[simp] theorem exec_nil (s : σ) : exec step s [] = some s := rfl

theorem exec_cons (s : σ) (a : α) (as : List α) :
    exec step s (a :: as) = (step s a).bind fun t => exec step t as := rfl

/-- A run is a first step followed by a run. -/
theorem exec_cons_eq_some {s u : σ} {a : α} {as : List α} :
    exec step s (a :: as) = some u ↔ ∃ t, step s a = some t ∧ exec step t as = some u :=
  Option.bind_eq_some_iff

/-- Runs compose. -/
theorem exec_append (s : σ) (as bs : List α) :
    exec step s (as ++ bs) = (exec step s as).bind fun t => exec step t bs := by
  induction as generalizing s with
  | nil => rfl
  | cons a as ih =>
    rw [List.cons_append, exec_cons, exec_cons]
    cases step s a with
    | none => rfl
    | some t => exact ih t

/-- States reached from `s` by some run. -/
def Reachable (step : σ → α → Option σ) (s t : σ) : Prop := ∃ as, exec step s as = some t

theorem Reachable.refl (s : σ) : Reachable step s s := ⟨[], rfl⟩

theorem Reachable.trans {s t u : σ} (h : Reachable step s t) (h' : Reachable step t u) :
    Reachable step s u := by
  obtain ⟨as, ha⟩ := h
  obtain ⟨bs, hb⟩ := h'
  exact ⟨as ++ bs, by rw [exec_append, ha, Option.bind_some, hb]⟩

theorem Reachable.tail {s t u : σ} {a : α} (h : Reachable step s t) (ha : step t a = some u) :
    Reachable step s u :=
  h.trans ⟨[a], by simp [exec_cons, ha]⟩

/-- Invariant rule for runs over allowed labels: what every allowed step preserves,
every run of allowed steps preserves. -/
theorem exec_invariant_of {P : σ → Prop} {Q : α → Prop}
    (hstep : ∀ s a t, Q a → P s → step s a = some t → P t) {s t : σ} {as : List α}
    (hQ : ∀ a ∈ as, Q a) (hs : P s) (h : exec step s as = some t) : P t := by
  induction as generalizing s with
  | nil => cases h; exact hs
  | cons a as ih =>
    obtain ⟨u, hu, ht⟩ := exec_cons_eq_some.mp h
    exact ih (fun b hb => hQ b (List.mem_cons_of_mem a hb))
      (hstep s a u (hQ a List.mem_cons_self) hs hu) ht

/-- Invariant rule: preserved by every step, hence by every run. -/
theorem exec_invariant {P : σ → Prop} (hstep : ∀ s a t, P s → step s a = some t → P t)
    {s t : σ} {as : List α} (hs : P s) (h : exec step s as = some t) : P t :=
  exec_invariant_of (Q := fun _ => True) (fun s a t _ => hstep s a t) (fun _ _ => trivial) hs h

/-- The invariant rule over reachable states. -/
theorem Reachable.invariant {P : σ → Prop} (hstep : ∀ s a t, P s → step s a = some t → P t)
    {s t : σ} (hs : P s) (h : Reachable step s t) : P t :=
  h.elim fun _ ha => exec_invariant hstep hs ha

/-- Progress rule: if every state short of the goal has a step that keeps the invariant and
decreases the measure, the goal is reached. -/
theorem Reachable.of_measure {I G : σ → Prop} (μ : σ → Nat)
    (hstep : ∀ s, I s → ¬ G s → ∃ a t, step s a = some t ∧ I t ∧ μ t < μ s) {s : σ} (hs : I s) :
    ∃ t, Reachable step s t ∧ I t ∧ G t := by
  induction hn : μ s using Nat.strongRecOn generalizing s with
  | ind n ih =>
    by_cases hg : G s
    · exact ⟨s, .refl s, hs, hg⟩
    · obtain ⟨a, t, ha, ht, hlt⟩ := hstep s hs hg
      obtain ⟨u, htu, hu⟩ := ih (μ t) (hn ▸ hlt) ht rfl
      exact ⟨u, ((Reachable.refl s).tail ha).trans htu, hu⟩

/-! ## Properties of every state and of every step of a run -/

/-- The property holds of every state of the run, the first one included. -/
def Always (step : σ → α → Option σ) (P : σ → Prop) : σ → List α → Prop
  | s, [] => P s
  | s, a :: as => P s ∧ ∀ t, step s a = some t → Always step P t as

/-- The condition holds of every step the run makes, in the state before it. -/
def EachStep (step : σ → α → Option σ) (C : σ → α → Prop) : σ → List α → Prop
  | _, [] => True
  | s, a :: as => ∀ t, step s a = some t → C s a ∧ EachStep step C t as

/-- Where the first step leads to `t`, the rest of the run starts there. -/
theorem eachStep_cons_iff {C : σ → α → Prop} {s t : σ} {a : α} {as : List α}
    (h : step s a = some t) : EachStep step C s (a :: as) ↔ C s a ∧ EachStep step C t as := by
  rw [EachStep, h]
  simp

theorem eachStep_cons_of_none {C : σ → α → Prop} {s : σ} {a : α} {as : List α}
    (h : step s a = none) : EachStep step C s (a :: as) := by
  rw [EachStep, h]
  simp

instance decidableEachStep {C : σ → α → Prop} [∀ s a, Decidable (C s a)] :
    ∀ (s : σ) (as : List α), Decidable (EachStep step C s as)
  | _, [] => .isTrue trivial
  | s, a :: as =>
    match h : step s a with
    | none => .isTrue (eachStep_cons_of_none h)
    | some t =>
      have := decidableEachStep (C := C) t as
      decidable_of_iff (C s a ∧ EachStep step C t as) (eachStep_cons_iff h).symm

theorem Always.head {P : σ → Prop} {s : σ} {as : List α} (h : Always step P s as) : P s := by
  cases as with
  | nil => exact h
  | cons a as => exact h.1

/-- Where the first step leads to `t`, the rest of the run starts there. -/
theorem always_cons_iff {P : σ → Prop} {s t : σ} {a : α} {as : List α} (h : step s a = some t) :
    Always step P s (a :: as) ↔ P s ∧ Always step P t as := by
  rw [Always, h]
  simp

/-- A run that ends at once. -/
theorem always_cons_of_none {P : σ → Prop} {s : σ} {a : α} {as : List α} (h : step s a = none) :
    Always step P s (a :: as) ↔ P s := by
  rw [Always, h]
  simp

instance decidableAlways {P : σ → Prop} [DecidablePred P] : ∀ (s : σ) (as : List α),
    Decidable (Always step P s as)
  | s, [] => inferInstanceAs (Decidable (P s))
  | s, a :: as =>
    match h : step s a with
    | none => decidable_of_iff (P s) (always_cons_of_none h).symm
    | some t =>
      have := decidableAlways (P := P) t as
      decidable_of_iff (P s ∧ Always step P t as) (always_cons_iff h).symm

/-- A property of every state holds at the end. -/
theorem Always.last {P : σ → Prop} {s t : σ} {as : List α} (h : Always step P s as)
    (he : exec step s as = some t) : P t := by
  induction as generalizing s with
  | nil =>
    cases he
    exact h
  | cons a as ih =>
    obtain ⟨u, hu, ht⟩ := exec_cons_eq_some.mp he
    exact ih (h.2 u hu) ht

/-- A condition on labels alone. -/
theorem EachStep.of_forall {C : σ → α → Prop} {as : List α} (h : ∀ a ∈ as, ∀ s, C s a) (s : σ) :
    EachStep step C s as := by
  induction as generalizing s with
  | nil => trivial
  | cons a as ih =>
    exact fun t _ => ⟨h a List.mem_cons_self s, ih (fun b hb => h b (List.mem_cons_of_mem a hb)) t⟩

/-- A condition that implies another one under an invariant it keeps, implies it all along a run. -/
theorem EachStep.imp {I : σ → Prop} {C C' : σ → α → Prop} (hC : ∀ s a, I s → C s a → C' s a)
    (hstep : ∀ s a t, I s → C s a → step s a = some t → I t) {s : σ} (hs : I s) {as : List α}
    (h : EachStep step C s as) : EachStep step C' s as := by
  induction as generalizing s with
  | nil => trivial
  | cons a as ih =>
    intro t ht
    obtain ⟨ha, has⟩ := h t ht
    exact ⟨hC s a hs ha, ih (hstep s a t hs ha ht) has⟩

/-- When an invariant implies the property and steps that meet the condition keep the
invariant, the property holds all along every run whose steps all meet the condition. -/
theorem EachStep.always {I P : σ → Prop} {C : σ → α → Prop} (hP : ∀ s, I s → P s)
    (hstep : ∀ s a t, I s → C s a → step s a = some t → I t) {s : σ} (hs : I s) {as : List α}
    (h : EachStep step C s as) : Always step P s as := by
  induction as generalizing s with
  | nil => exact hP s hs
  | cons a as ih =>
    refine ⟨hP s hs, fun t ht => ?_⟩
    obtain ⟨ha, has⟩ := h t ht
    exact ih (hstep s a t hs ha ht) has

/-- When an invariant implies the property, steps that meet the condition keep the
invariant, and a step into a state with the property meets the condition, then the
property holds all along exactly the runs whose steps all meet the condition. -/
theorem always_iff_eachStep {I P : σ → Prop} {C : σ → α → Prop} (hP : ∀ s, I s → P s)
    (hstep : ∀ s a t, I s → C s a → step s a = some t → I t)
    (hforce : ∀ s a t, I s → step s a = some t → P t → C s a) {s : σ} (hs : I s)
    (as : List α) : Always step P s as ↔ EachStep step C s as := by
  induction as generalizing s with
  | nil => exact iff_of_true (hP s hs) trivial
  | cons a as ih =>
    constructor
    · rintro ⟨_, h⟩ t ht
      have ha := hforce s a t hs ht (h t ht).head
      exact ⟨ha, (ih (hstep s a t hs ha ht)).mp (h t ht)⟩
    · exact EachStep.always hP hstep hs

end Run
