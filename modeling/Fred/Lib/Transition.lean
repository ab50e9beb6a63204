/-
# Fred.Lib.Transition -- runs of a guarded step function

A general library for a state machine given by a step function that may fail:
`step : ι → σ → Except ε σ`. `Reach step P s t` says that `t` is reached from `s` by successful
steps, each of which was taken in a state and on an input that meet `P`. The induction principle
(`Reach.invariant`) is the rule every run property of a development is derived by, and `runList` is
the executable run on a fixed list of inputs.
-/
import Mathlib.Logic.Relation

namespace Fred.Transition

variable {σ ι ε : Type*} (step : ι → σ → Except ε σ)

/-- One successful step, taken on an input that meets `P` in the state before it. -/
def StepRel (P : σ → ι → Prop) (s t : σ) : Prop :=
  ∃ i, P s i ∧ step i s = .ok t

/-- `t` is reached from `s` by successful steps that all meet `P`. -/
def Reach (P : σ → ι → Prop) : σ → σ → Prop :=
  Relation.ReflTransGen (StepRel step P)

/-- Every input is allowed. -/
def anyInput (_ : σ) (_ : ι) : Prop := True

variable {step} {P Q : σ → ι → Prop} {s t u : σ}

theorem Reach.refl (s : σ) : Reach step P s s := Relation.ReflTransGen.refl

theorem Reach.tail (h : Reach step P s t) {i : ι} (hP : P t i) (hs : step i t = .ok u) :
    Reach step P s u :=
  Relation.ReflTransGen.tail h ⟨i, hP, hs⟩

theorem Reach.trans (h : Reach step P s t) (h' : Reach step P t u) : Reach step P s u :=
  Relation.ReflTransGen.trans h h'

/-- **The invariant rule.** What holds at the start and is kept by every allowed successful step
holds of every reached state. -/
theorem Reach.invariant {I : σ → Prop} (hinit : I s)
    (hstep : ∀ t u i, I t → P t i → step i t = .ok u → I u) (h : Reach step P s t) : I t := by
  induction h with
  | refl => exact hinit
  | tail _ hlast ih =>
      obtain ⟨i, hP, hs⟩ := hlast
      exact hstep _ _ i ih hP hs

/-- The invariant rule, where each step may use that the state before it is reached. -/
theorem Reach.invariant_of_reach {I : σ → Prop} (hinit : I s)
    (hstep : ∀ t u i, Reach step P s t → I t → P t i → step i t = .ok u → I u)
    (h : Reach step P s t) : I t := by
  induction h with
  | refl => exact hinit
  | tail hpre hlast ih =>
      obtain ⟨i, hP, hs⟩ := hlast
      exact hstep _ _ i hpre ih hP hs

/-- What holds of every reached state holds before every step. -/
theorem Reach.strengthen {I : σ → Prop} (hI : ∀ {t}, Reach step P s t → I t)
    (h : Reach step P s t) : Reach step (fun u i => I u ∧ P u i) s t := by
  induction h with
  | refl => exact Reach.refl _
  | tail hpre hlast ih =>
      obtain ⟨i, hP, hs⟩ := hlast
      exact ih.tail ⟨hI hpre, hP⟩ hs

/-- Fewer restrictions on the steps reach at least as much. -/
theorem Reach.mono (hPQ : ∀ s i, P s i → Q s i) (h : Reach step P s t) : Reach step Q s t := by
  induction h with
  | refl => exact Reach.refl _
  | tail _ hlast ih =>
      obtain ⟨i, hP, hs⟩ := hlast
      exact ih.tail (hPQ _ _ hP) hs

/-- The executable run on a list of inputs, first input first. -/
def runList (step : ι → σ → Except ε σ) : List ι → σ → Except ε σ
  | [], s => .ok s
  | i :: is, s =>
    match step i s with
    | .error e => .error e
    | .ok t => runList step is t

theorem Reach.of_runList (hP : ∀ s i, P s i) :
    ∀ {is : List ι} {s t : σ}, runList step is s = .ok t → Reach step P s t
  | [], s, t, h => by
      obtain rfl : s = t := Except.ok.inj h
      exact Reach.refl _
  | i :: is, s, t, h => by
      unfold runList at h
      split at h
      · cases h
      · rename_i u hu
        exact ((Reach.refl s).tail (hP s i) hu).trans (Reach.of_runList hP h)

theorem runList_append {is js : List ι} : ∀ {s t : σ}, runList step is s = .ok t →
    runList step (is ++ js) s = runList step js t := by
  induction is with
  | nil =>
      intro s t h
      rw [← Except.ok.inj h]
      rfl
  | cons i is ih =>
      intro s t h
      unfold runList at h
      rw [List.cons_append, runList]
      split at h
      · cases h
      · exact ih h

/-- **The rule for runs that go through.** If whatever is left of the inputs, the first of them can be
taken and the invariant of the rest holds then, all of them can be taken. -/
theorem exists_runList {I : List ι → σ → Prop}
    (hstep : ∀ i is s, I (i :: is) s → ∃ t, step i s = .ok t ∧ I is t) :
    ∀ {is : List ι} {s : σ}, I is s → ∃ t, runList step is s = .ok t ∧ I [] t := by
  intro is
  induction is with
  | nil => exact fun {s} h => ⟨s, rfl, h⟩
  | cons i is ih =>
      intro s h
      obtain ⟨t, ht, hI⟩ := hstep i is s h
      obtain ⟨u, hu, hI'⟩ := ih hI
      refine ⟨u, ?_, hI'⟩
      rw [runList, ht]
      exact hu

/-- A run on a list of inputs that checks a condition before each of them. -/
def runListIf (step : ι → σ → Except ε σ) (guard : σ → ι → Bool) : List ι → σ → Option σ
  | [], s => some s
  | i :: is, s =>
    if guard s i then
      match step i s with
      | .error _ => none
      | .ok t => runListIf step guard is t
    else none

theorem Reach.of_runListIf {guard : σ → ι → Bool} (hP : ∀ s i, guard s i = true → P s i) :
    ∀ {is : List ι} {s t : σ}, runListIf step guard is s = some t → Reach step P s t
  | [], s, t, h => by
      obtain rfl : s = t := Option.some.inj h
      exact Reach.refl _
  | i :: is, s, t, h => by
      unfold runListIf at h
      split at h
      · rename_i hguard
        split at h
        · cases h
        · rename_i u hu
          exact ((Reach.refl s).tail (hP s i hguard) hu).trans (Reach.of_runListIf hP h)
      · cases h

/-- What a mapped computation that returns has computed. -/
theorem exists_of_map_ok {α β : Type*} {x : Except ε α} {f : α → β} {b : β}
    (h : x.map f = .ok b) : ∃ a, x = .ok a ∧ f a = b := by
  cases x with
  | error e => cases h
  | ok a => exact ⟨a, rfl, Except.ok.inj h⟩

end Fred.Transition
