import Claudepod.Program
import Claudepod.Machine

/-! Programs in progress. A task has gone some way along its program; whatever it has done is the
beginning of a run of the program, in whichever order the tasks around it take their turns. -/

set_option autoImplicit false

namespace Interaction

variable {Op : Type} [DecidableEq Op] {Resp : Op → Type} {α ε : Type}

namespace Prog

variable {p q : Prog Resp α} {e : Event Resp} {t u : List (Event Resp)} {a : α}

/-- What is left of the program behind an event, where that is the call it makes next. -/
def advance : Prog Resp α → Event Resp → Option (Prog Resp α)
  | .ret _, _ => none
  | .call o k, e => if h : e.1 = o then some (k (h ▸ e.2)) else none

/-- What is left of it behind a trace. -/
def left (p : Prog Resp α) (t : List (Event Resp)) : Option (Prog Resp α) := t.foldlM advance p

theorem advance_call (o : Op) (k : Resp o → Prog Resp α) (r : Resp o) :
    (call o k).advance ⟨o, r⟩ = some (k r) := by simp [advance]

theorem advance_eq_some (h : p.advance e = some q) : ∃ k, p = .call e.1 k ∧ q = k e.2 := by
  cases p with
  | ret a => cases h
  | call o k =>
    obtain ⟨o', r⟩ := e
    by_cases ho : o' = o
    · subst ho
      rw [advance_call] at h
      exact ⟨k, rfl, (Option.some.inj h).symm⟩
    · rw [advance, dif_neg ho] at h
      cases h

@[simp] theorem left_nil (p : Prog Resp α) : p.left [] = some p := rfl

theorem left_cons (p : Prog Resp α) (e : Event Resp) (t : List (Event Resp)) :
    p.left (e :: t) = (p.advance e).bind fun q => q.left t := by
  rw [left, List.foldlM_cons]
  rfl

theorem left_append (p : Prog Resp α) (t u : List (Event Resp)) :
    p.left (t ++ u) = (p.left t).bind fun q => q.left u := by
  rw [left, List.foldlM_append]
  rfl

/-- What a program does behind a trace is what is left of it does. -/
theorem runs_append (h : p.left t = some q) : p.Runs (t ++ u) a ↔ q.Runs u a := by
  induction t generalizing p with
  | nil =>
    obtain rfl := Option.some.inj h
    exact Iff.rfl
  | cons e t ih =>
    rw [left_cons, Option.bind_eq_some_iff] at h
    obtain ⟨m, hm, h⟩ := h
    obtain ⟨k, rfl, rfl⟩ := advance_eq_some hm
    rw [← ih h]
    obtain ⟨o, r⟩ := e
    constructor
    · rintro ⟨r', w, hw, hr⟩
      cases hw
      exact hr
    · exact fun hr => ⟨r, t ++ u, rfl, hr⟩

theorem runs_iff_left : p.Runs t a ↔ p.left t = some (.ret a) := by
  induction t generalizing p with
  | nil =>
    cases p with
    | ret b => simp [Runs, eq_comm]
    | call o k => simp [Runs]
  | cons e t ih =>
    rw [left_cons]
    cases p with
    | ret b => simp [Runs, advance]
    | call o k =>
      constructor
      · rintro ⟨r, w, hw, hr⟩
        cases hw
        rw [advance_call, Option.bind_some]
        exact ih.mp hr
      · intro h
        obtain ⟨m, hm, hl⟩ := Option.bind_eq_some_iff.mp h
        obtain ⟨k', hk, rfl⟩ := advance_eq_some hm
        obtain ⟨o', r⟩ := e
        cases hk
        exact ⟨r, t, rfl, ih.mpr hl⟩

omit [DecidableEq Op] in
/-- However its calls are answered, a program comes to an end. -/
theorem exists_run (answer : (o : Op) → Resp o) (p : Prog Resp α) :
    ∃ t a, p.Runs t a ∧ ∀ e ∈ t, e.2 = answer e.1 := by
  induction p with
  | ret a => exact ⟨[], a, ⟨rfl, rfl⟩, by simp⟩
  | call o k ih =>
    obtain ⟨t, a, h, ht⟩ := ih (answer o)
    exact ⟨⟨o, answer o⟩ :: t, a, ⟨answer o, t, rfl, h⟩, by simpa using ht⟩

/-- The calls that a program makes if they are answered so. -/
def calls (answer : (o : Op) → Resp o) : Prog Resp α → Nat
  | .ret _ => 0
  | .call o k => (k (answer o)).calls answer + 1

end Prog

/-- A program somewhere along one of its runs. -/
structure Task (p : Prog Resp α) where
  trace : List (Event Resp)
  possible : (p.left trace).isSome

namespace Task

variable {p : Prog Resp α} {x y : Task p} {e : Event Resp}

def start (p : Prog Resp α) : Task p := ⟨[], rfl⟩

/-- What it still has to do. -/
def rest (x : Task p) : Prog Resp α := (p.left x.trace).get x.possible

/-- What it has come to, if it is done. -/
def outcome (x : Task p) : Option α :=
  match x.rest with
  | .ret a => some a
  | .call _ _ => none

/-- It makes its next call, and this is the answer. -/
def advance (x : Task p) (e : Event Resp) : Option (Task p) :=
  if h : (p.left (x.trace ++ [e])).isSome then some ⟨x.trace ++ [e], h⟩ else none

theorem left_trace (x : Task p) : p.left x.trace = some x.rest := (Option.some_get _).symm

theorem advance_trace (h : x.advance e = some y) : y.trace = x.trace ++ [e] := by
  unfold advance at h
  split at h
  · rw [← Option.some.inj h]
  · cases h

theorem runs_iff {u : List (Event Resp)} {a : α} :
    p.Runs (x.trace ++ u) a ↔ x.rest.Runs u a := Prog.runs_append x.left_trace

theorem outcome_eq_some {a : α} : x.outcome = some a ↔ x.rest = .ret a := by
  unfold outcome
  cases x.rest with
  | ret b => simp
  | call o k => simp

/-- What a task has done is the beginning of a run, whatever answers it is given from here. -/
theorem extends_run (answer : (o : Op) → Resp o) (x : Task p) :
    ∃ u a, p.Runs (x.trace ++ u) a ∧ ∀ e ∈ u, e.2 = answer e.1 := by
  obtain ⟨u, a, h, hu⟩ := x.rest.exists_run answer
  exact ⟨u, a, runs_iff.mpr h, hu⟩

theorem advance_of_call {o : Op} {k : Resp o → Prog Resp α} (h : x.rest = .call o k) (r : Resp o) :
    ∃ y, x.advance ⟨o, r⟩ = some y ∧ y.trace = x.trace ++ [⟨o, r⟩] ∧ y.rest = k r := by
  have hl : p.left (x.trace ++ [⟨o, r⟩]) = some (k r) := by
    rw [Prog.left_append, x.left_trace, h, Option.bind_some, Prog.left_cons, Prog.advance_call]
    rfl
  have hs : (p.left (x.trace ++ [⟨o, r⟩])).isSome := by rw [hl]; rfl
  refine ⟨⟨x.trace ++ [⟨o, r⟩], hs⟩, by rw [advance, dif_pos hs], rfl, ?_⟩
  exact Option.get_of_eq_some _ hl

theorem advance_rest (h : x.advance e = some y) :
    ∃ k, x.rest = .call e.1 k ∧ y.rest = k e.2 := by
  have hl := y.left_trace
  rw [advance_trace h, Prog.left_append, x.left_trace, Option.bind_some, Prog.left_cons] at hl
  obtain ⟨q, hq, hl⟩ := Option.bind_eq_some_iff.mp hl
  obtain ⟨k, hk, rfl⟩ := Prog.advance_eq_some hq
  exact ⟨k, hk, (Option.some.inj hl).symm⟩

theorem calls_advance {answer : (o : Op) → Resp o} (h : x.advance e = some y)
    (he : e.2 = answer e.1) : y.rest.calls answer + 1 = x.rest.calls answer := by
  obtain ⟨k, hx, hy⟩ := advance_rest h
  rw [hx, hy, he]
  rfl

/-- Only a task that is not done goes on. -/
theorem outcome_of_advance (h : x.advance e = some y) : x.outcome = none := by
  unfold advance at h
  split at h
  · rename_i hs
    rw [Prog.left_append, x.left_trace, Option.bind_some, Prog.left_cons] at hs
    unfold outcome
    cases hr : x.rest with
    | ret a => rw [hr] at hs; cases hs
    | call o k => rfl
  · cases h

end Task

end Interaction
