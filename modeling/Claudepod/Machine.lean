import Mathlib.Tactic.Common

/-! Machines that take events one at a time and refuse those they are not ready for, and what
holds along their runs. -/

set_option autoImplicit false

namespace Interaction

structure Machine (σ ε : Type) where
  step : σ → ε → Option σ

namespace Machine

variable {σ ε : Type} (m : Machine σ ε)

def run (s : σ) : List ε → Option σ
  | [] => some s
  | e :: es => (m.step s e).bind fun s' => run s' es

/-- `P` holds of every event at the state it comes in. -/
def Along (P : σ → ε → Prop) : σ → List ε → Prop
  | _, [] => True
  | s, e :: es => P s e ∧ ∀ s', m.step s e = some s' → Along P s' es

/-- `P` holds of every state of the run. -/
def Throughout (P : σ → Prop) : σ → List ε → Prop
  | s, [] => P s
  | s, e :: es => P s ∧ ∀ s', m.step s e = some s' → Throughout P s' es

variable {m} {P : σ → ε → Prop} {Q I : σ → Prop} {s s' : σ} {e : ε} {es fs : List ε}

@[simp] theorem run_nil : m.run s [] = some s := rfl

theorem run_cons : m.run s (e :: es) = (m.step s e).bind fun s' => m.run s' es := rfl

theorem run_cons_some :
    m.run s (e :: es) = some s' ↔ ∃ u, m.step s e = some u ∧ m.run u es = some s' := by
  rw [run_cons, Option.bind_eq_some_iff]

/-- What every step keeps, every run keeps. -/
theorem invariant (h : ∀ s e s', I s → m.step s e = some s' → I s') (hi : I s)
    (hr : m.run s es = some s') : I s' := by
  induction es generalizing s with
  | nil => exact Option.some.inj hr ▸ hi
  | cons e es ih =>
    obtain ⟨u, hs, hu⟩ := run_cons_some.mp hr
    exact ih (h s e u hi hs) hu

theorem Throughout.here (h : m.Throughout Q s es) : Q s := by
  cases es with
  | nil => exact h
  | cons e es => exact h.1

theorem Throughout.mono {Q' : σ → Prop} (hQ : ∀ s, Q s → Q' s) (h : m.Throughout Q s es) :
    m.Throughout Q' s es := by
  induction es generalizing s with
  | nil => exact hQ s h
  | cons e es ih => exact ⟨hQ s h.1, fun s' hs => ih (h.2 s' hs)⟩

/-- A run on which every step is as `P` asks keeps what such steps keep. -/
theorem throughout_of_along (h : ∀ s e s', I s → P s e → m.step s e = some s' → I s')
    (hQ : ∀ s, I s → Q s) (hi : I s) (ha : m.Along P s es) : m.Throughout Q s es := by
  induction es generalizing s with
  | nil => exact hQ s hi
  | cons e es ih => exact ⟨hQ s hi, fun s' hs => ih (h s e s' hi ha.1 hs) (ha.2 s' hs)⟩

theorem along_invariant (h : ∀ s e s', I s → P s e → m.step s e = some s' → I s') (hi : I s)
    (ha : m.Along P s es) (hr : m.run s es = some s') : I s' := by
  induction es generalizing s with
  | nil => exact Option.some.inj hr ▸ hi
  | cons e es ih =>
    obtain ⟨u, hs, hu⟩ := run_cons_some.mp hr
    exact ih (h s e u hi ha.1 hs) (ha.2 u hs) hu

theorem throughout_of_invariant (h : ∀ s e s', I s → m.step s e = some s' → I s') (hi : I s) :
    m.Throughout I s es := by
  induction es generalizing s with
  | nil => exact hi
  | cons e es ih => exact ⟨hi, fun s' hs => ih (h s e s' hi hs)⟩

/-- What holds of every step that leads from a good state to a good state holds along a run. -/
theorem along_of_throughout
    (h : ∀ s e s', I s → Q s → Q s' → m.step s e = some s' → P s e)
    (hI : ∀ s e s', I s → m.step s e = some s' → I s')
    (hP : ∀ s e, m.step s e = none → P s e) (hi : I s) (ht : m.Throughout Q s es) :
    m.Along P s es := by
  induction es generalizing s with
  | nil => trivial
  | cons e es ih =>
    refine ⟨?_, fun s' hs => ih (hI s e s' hi hs) (ht.2 s' hs)⟩
    cases hs : m.step s e with
    | none => exact hP s e hs
    | some s' => exact h s e s' hi ht.1 (ht.2 s' hs).here hs

theorem run_append : m.run s (es ++ fs) = (m.run s es).bind fun u => m.run u fs := by
  induction es generalizing s with
  | nil => rfl
  | cons e es ih =>
    rw [List.cons_append, run_cons, run_cons, Option.bind_assoc]
    congr 1
    funext u
    exact ih

/-! ### Refinement -/

section Refinement

variable {τ ζ : Type} {n : Machine τ ζ} {abs : σ → τ} {shown : σ → ε → List ζ}

/-- A run of `m` as it is shown, event by event. -/
def shownRun (m : Machine σ ε) (shown : σ → ε → List ζ) : σ → List ε → List ζ
  | _, [] => []
  | s, e :: es => shown s e ++ ((m.step s e).map fun s' => shownRun m shown s' es).getD []

/-- Where every step is a run of `n` as it is shown, so is every run. -/
theorem run_shown (h : ∀ s e s', m.step s e = some s' → n.run (abs s) (shown s e) = some (abs s'))
    (hr : m.run s es = some s') : n.run (abs s) (m.shownRun shown s es) = some (abs s') := by
  induction es generalizing s with
  | nil =>
    obtain rfl := Option.some.inj hr
    rfl
  | cons e es ih =>
    obtain ⟨u, hs, hu⟩ := run_cons_some.mp hr
    rw [shownRun, hs, run_append, h s e u hs]
    exact ih hu

end Refinement

end Machine

end Interaction
