import Mathlib.Data.List.Basic

/-! Programs that talk to their environment one call at a time. The calls and the
type of each call's answer are parameters. A program is a finite tree, so what it
does is a set of traces (calls with their answers) that mentions no environment;
an environment is a step function that answers calls. The theorems below let the
two be argued about separately: a property of every trace holds of every execution,
and an environment that answers along a trace executes exactly that trace. -/

set_option autoImplicit false

namespace Interaction

/-- A computation of two parts succeeds when both do. -/
theorem bind_eq_ok {ε α β : Type} {x : Except ε α} {f : α → Except ε β} {b : β}
    (h : x >>= f = .ok b) : ∃ a, x = .ok a ∧ f a = .ok b := by
  cases x with
  | error e => cases h
  | ok a => exact ⟨a, rfl, h⟩

theorem mapError_eq_ok {ε ζ α : Type} {x : Except ε α} {g : ε → ζ} {a : α}
    (h : x.mapError g = .ok a) : x = .ok a := by
  cases x with
  | error e => cases h
  | ok b => exact congrArg Except.ok (Except.ok.inj h)

/-- What a program does next may depend on every answer it has received. -/
inductive Prog {Op : Type} (Resp : Op → Type) (α : Type) where
  | ret : α → Prog Resp α
  | call : (o : Op) → (Resp o → Prog Resp α) → Prog Resp α

/-- A call together with the answer it got. -/
abbrev Event {Op : Type} (Resp : Op → Type) := (o : Op) × Resp o

variable {Op : Type} {Resp : Op → Type} {α β ε ζ σ : Type}

namespace Prog

def bind : Prog Resp α → (α → Prog Resp β) → Prog Resp β
  | .ret a, f => f a
  | .call o k, f => .call o (fun r => (k r).bind f)

instance : Monad (Prog Resp) where
  pure := .ret
  bind := bind

theorem bind_ret (p : Prog Resp α) : p.bind .ret = p := by
  induction p with
  | ret a => rfl
  | call o k ih => simp only [bind, ih]

theorem bind_bind {γ : Type} (p : Prog Resp α) (f : α → Prog Resp β) (g : β → Prog Resp γ) :
    (p.bind f).bind g = p.bind (fun a => (f a).bind g) := by
  induction p with
  | ret a => rfl
  | call o k ih => simp only [bind, ih]

instance : LawfulMonad (Prog Resp) :=
  LawfulMonad.mk' (Prog Resp) bind_ret (fun _ _ => rfl) bind_bind

/-- `p.Runs t a`: answered along `t`, the program makes exactly those calls and returns `a`. -/
def Runs : Prog Resp α → List (Event Resp) → α → Prop
  | .ret a, t, b => t = [] ∧ b = a
  | .call o k, t, b => ∃ r u, t = ⟨o, r⟩ :: u ∧ (k r).Runs u b

theorem runs_bind (p : Prog Resp α) (f : α → Prog Resp β) (t : List (Event Resp)) (b : β) :
    (p.bind f).Runs t b ↔ ∃ a t₁ t₂, t = t₁ ++ t₂ ∧ p.Runs t₁ a ∧ (f a).Runs t₂ b := by
  induction p generalizing t with
  | ret a => simp [bind, Runs]
  | call o k ih =>
    simp only [bind, Runs, ih]
    constructor
    · rintro ⟨r, u, rfl, a, t₁, t₂, rfl, h₁, h₂⟩
      exact ⟨a, ⟨o, r⟩ :: t₁, t₂, rfl, ⟨r, t₁, rfl, h₁⟩, h₂⟩
    · rintro ⟨a, t₁, t₂, rfl, ⟨r, u, rfl, h₁⟩, h₂⟩
      exact ⟨r, u ++ t₂, rfl, a, u, t₂, rfl, h₁, h₂⟩

/-- Two runs of one program can only part at an answer: up to there they make the same calls. -/
theorem Runs.diverge {p : Prog Resp α} {t u : List (Event Resp)} {a b : α}
    (ht : p.Runs t a) (hu : p.Runs u b) :
    (t = u ∧ a = b) ∨
      ∃ (c : List (Event Resp)) (o : Op) (r r' : Resp o) (t' u' : List (Event Resp)),
        t = c ++ ⟨o, r⟩ :: t' ∧ u = c ++ ⟨o, r'⟩ :: u' ∧ r ≠ r' := by
  induction p generalizing t u with
  | ret x =>
    obtain ⟨rfl, rfl⟩ := ht
    obtain ⟨rfl, rfl⟩ := hu
    exact .inl ⟨rfl, rfl⟩
  | call o k ih =>
    obtain ⟨r, t', rfl, ht⟩ := ht
    obtain ⟨r', u', rfl, hu⟩ := hu
    by_cases hr : r = r'
    · subst hr
      rcases ih r ht hu with ⟨rfl, rfl⟩ | ⟨c, o', s, s', t'', u'', rfl, rfl, hs⟩
      · exact .inl ⟨rfl, rfl⟩
      · exact .inr ⟨⟨o, r⟩ :: c, o', s, s', t'', u'', rfl, rfl, hs⟩
    · exact .inr ⟨[], o, r, r', t', u', rfl, rfl, hr⟩

end Prog

/-- An environment: a state and how it answers each call. -/
abbrev Env (Resp : Op → Type) (σ : Type) := (o : Op) → σ → Resp o × σ

structure Outcome {Op : Type} (Resp : Op → Type) (α σ : Type) where
  trace : List (Event Resp)
  value : α
  state : σ

/-- The same outcome behind an earlier trace. -/
def Outcome.behind (t : List (Event Resp)) (o : Outcome Resp α σ) : Outcome Resp α σ :=
  ⟨t ++ o.trace, o.value, o.state⟩

def Prog.exec (env : Env Resp σ) : Prog Resp α → σ → Outcome Resp α σ
  | .ret a, s => ⟨[], a, s⟩
  | .call o k, s =>
    let (r, s') := env o s
    let rest := (k r).exec env s'
    ⟨⟨o, r⟩ :: rest.trace, rest.value, rest.state⟩

/-- The environment gives every answer of the trace, from `s` to `s'`. -/
def Follows (env : Env Resp σ) : σ → List (Event Resp) → σ → Prop
  | s, [], s' => s' = s
  | s, e :: t, s' => (env e.1 s).1 = e.2 ∧ Follows env (env e.1 s).2 t s'

theorem follows_append (env : Env Resp σ) (s s' : σ) (t u : List (Event Resp)) :
    Follows env s (t ++ u) s' ↔ ∃ m, Follows env s t m ∧ Follows env m u s' := by
  induction t generalizing s with
  | nil => simp [Follows]
  | cons e t ih => simp [Follows, ih, and_assoc]

theorem Prog.exec_runs (env : Env Resp σ) (p : Prog Resp α) (s : σ) :
    p.Runs (p.exec env s).trace (p.exec env s).value := by
  induction p generalizing s with
  | ret a => exact ⟨rfl, rfl⟩
  | call o k ih => exact ⟨(env o s).1, _, rfl, ih _ _⟩

theorem Prog.exec_follows (env : Env Resp σ) (p : Prog Resp α) (s : σ) :
    Follows env s (p.exec env s).trace (p.exec env s).state := by
  induction p generalizing s with
  | ret a => rfl
  | call o k ih => exact ⟨rfl, ih _ _⟩

/-- Executions are exactly the runs the environment follows. -/
theorem Prog.exec_eq {env : Env Resp σ} {p : Prog Resp α} {s s' : σ} {t : List (Event Resp)}
    {a : α} (hr : p.Runs t a) (hf : Follows env s t s') : p.exec env s = ⟨t, a, s'⟩ := by
  induction p generalizing s t with
  | ret b =>
    obtain ⟨rfl, rfl⟩ := hr
    obtain rfl := hf
    rfl
  | call o k ih =>
    obtain ⟨r, u, rfl, hr⟩ := hr
    obtain ⟨hr', hf⟩ := hf
    change (env o s).1 = r at hr'
    subst hr'
    simp only [Prog.exec, ih _ hr hf]

/-! ### Programs that may stop early -/

/-- A program that returns a value or stops with an `ε`. -/
abbrev Comp (Resp : Op → Type) (ε α : Type) := ExceptT ε (Prog Resp) α

namespace Comp

/-- One call, answered. -/
def perform (o : Op) : Comp Resp ε (Resp o) := ExceptT.mk (.call o (fun r => .ret (.ok r)))

/-- Rewrite the reason for stopping, as a caller that adds context does. -/
def mapStop (f : ε → ζ) (p : Comp Resp ε α) : Comp Resp ζ α :=
  ExceptT.mk (p.run.bind (fun r => .ret (r.mapError f)))

/-- Hand a stop that `catches` recognises to the caller as a value. -/
def attempt (catches : ε → Option ζ) (p : Comp Resp ε α) : Comp Resp ε (Except ζ α) :=
  ExceptT.mk (p.run.bind (fun
    | .ok a => .ret (.ok (.ok a))
    | .error e =>
      match catches e with
      | some z => .ret (.ok (.error z))
      | none => .ret (.error e)))

def Runs (p : Comp Resp ε α) (t : List (Event Resp)) (r : Except ε α) : Prop := Prog.Runs p.run t r

variable {p : Comp Resp ε α} {f : α → Comp Resp ε β} {t : List (Event Resp)}

@[simp] theorem runs_pure (a : α) (r : Except ε α) :
    Runs (pure a : Comp Resp ε α) t r ↔ t = [] ∧ r = .ok a := Iff.rfl

@[simp] theorem runs_throw (e : ε) (r : Except ε α) :
    Runs (throw e : Comp Resp ε α) t r ↔ t = [] ∧ r = .error e := Iff.rfl

@[simp] theorem runs_perform (o : Op) (r : Except ε (Resp o)) :
    Runs (perform o : Comp Resp ε (Resp o)) t r ↔ ∃ x, t = [⟨o, x⟩] ∧ r = .ok x := by
  show Prog.Runs (.call o _) t r ↔ _
  simp only [Prog.Runs]
  constructor
  · rintro ⟨x, u, rfl, rfl, rfl⟩
    exact ⟨x, rfl, rfl⟩
  · rintro ⟨x, rfl, rfl⟩
    exact ⟨x, [], rfl, rfl, rfl⟩

theorem runs_bind (r : Except ε β) :
    Runs (p >>= f) t r ↔
      (∃ a t₁ t₂, t = t₁ ++ t₂ ∧ p.Runs t₁ (.ok a) ∧ (f a).Runs t₂ r) ∨
        ∃ e, r = .error e ∧ p.Runs t (.error e) := by
  show Prog.Runs (Prog.bind p.run _) t r ↔ _
  rw [Prog.runs_bind]
  constructor
  · rintro ⟨x, t₁, t₂, rfl, h₁, h₂⟩
    cases x with
    | ok a => exact .inl ⟨a, t₁, t₂, rfl, h₁, h₂⟩
    | error e =>
      obtain ⟨rfl, rfl⟩ := h₂
      exact .inr ⟨e, rfl, by rw [List.append_nil]; exact h₁⟩
  · rintro (⟨a, t₁, t₂, rfl, h₁, h₂⟩ | ⟨e, rfl, h⟩)
    · exact ⟨.ok a, t₁, t₂, rfl, h₁, h₂⟩
    · exact ⟨.error e, t, [], by simp, h, rfl, rfl⟩

theorem runs_perform_bind {o : Op} {k : Resp o → Comp Resp ε β} (r : Except ε β) :
    Runs (perform o >>= k) t r ↔ ∃ x u, t = ⟨o, x⟩ :: u ∧ (k x).Runs u r := by
  rw [runs_bind]
  constructor
  · rintro (⟨a, t₁, t₂, rfl, h₁, h₂⟩ | ⟨e, -, h⟩)
    · obtain ⟨x, rfl, hx⟩ := (runs_perform _ _).mp h₁
      obtain rfl := Except.ok.inj hx
      exact ⟨_, t₂, rfl, h₂⟩
    · obtain ⟨x, -, hx⟩ := (runs_perform _ _).mp h
      cases hx
  · rintro ⟨x, u, rfl, h⟩
    exact .inl ⟨x, [⟨o, x⟩], u, rfl, (runs_perform _ _).mpr ⟨x, rfl, rfl⟩, h⟩

theorem Runs.bind {u : List (Event Resp)} {a : α} {r : Except ε β} (h₁ : p.Runs t (.ok a))
    (h₂ : (f a).Runs u r) : Runs (p >>= f) (t ++ u) r :=
  (runs_bind r).mpr (.inl ⟨a, t, u, rfl, h₁, h₂⟩)

theorem runs_bind_ok (b : β) :
    Runs (p >>= f) t (.ok b) ↔
      ∃ a t₁ t₂, t = t₁ ++ t₂ ∧ p.Runs t₁ (.ok a) ∧ (f a).Runs t₂ (.ok b) := by
  simp [runs_bind]

theorem runs_mapStop (g : ε → ζ) (r : Except ζ α) :
    Runs (mapStop g p) t r ↔ ∃ r', p.Runs t r' ∧ r = r'.mapError g := by
  show Prog.Runs (Prog.bind p.run _) t r ↔ _
  rw [Prog.runs_bind]
  constructor
  · rintro ⟨x, t₁, t₂, rfl, h₁, rfl, rfl⟩
    exact ⟨x, by rw [List.append_nil]; exact h₁, rfl⟩
  · rintro ⟨x, h, rfl⟩
    exact ⟨x, t, [], by simp, h, rfl, rfl⟩

@[simp] theorem runs_mapStop_ok (g : ε → ζ) (a : α) :
    Runs (mapStop g p) t (.ok a) ↔ p.Runs t (.ok a) := by
  rw [runs_mapStop]
  constructor
  · rintro ⟨r' | r', h, hr⟩
    · cases hr
    · cases hr
      exact h
  · exact fun h => ⟨_, h, rfl⟩

theorem runs_mapStop_error (g : ε → ζ) (z : ζ) :
    Runs (mapStop g p) t (.error z) ↔ ∃ e, p.Runs t (.error e) ∧ z = g e := by
  rw [runs_mapStop]
  constructor
  · rintro ⟨r' | r', h, hr⟩
    · cases hr
      exact ⟨r', h, rfl⟩
    · cases hr
  · rintro ⟨e, h, rfl⟩
    exact ⟨_, h, rfl⟩

theorem runs_attempt (catches : ε → Option ζ) (r : Except ε (Except ζ α)) :
    Runs (attempt catches p) t r ↔
      (∃ a, p.Runs t (.ok a) ∧ r = .ok (.ok a)) ∨
      (∃ e z, p.Runs t (.error e) ∧ catches e = some z ∧ r = .ok (.error z)) ∨
      (∃ e, p.Runs t (.error e) ∧ catches e = none ∧ r = .error e) := by
  show Prog.Runs (Prog.bind p.run _) t r ↔ _
  rw [Prog.runs_bind]
  constructor
  · rintro ⟨x, t₁, t₂, rfl, h₁, h₂⟩
    cases x with
    | ok a =>
      obtain ⟨rfl, rfl⟩ := h₂
      exact .inl ⟨a, by rw [List.append_nil]; exact h₁, rfl⟩
    | error e =>
      cases hc : catches e with
      | some z =>
        simp only [hc] at h₂
        obtain ⟨rfl, rfl⟩ := h₂
        exact .inr (.inl ⟨e, z, by rw [List.append_nil]; exact h₁, hc, rfl⟩)
      | none =>
        simp only [hc] at h₂
        obtain ⟨rfl, rfl⟩ := h₂
        exact .inr (.inr ⟨e, by rw [List.append_nil]; exact h₁, hc, rfl⟩)
  · rintro (⟨a, h, rfl⟩ | ⟨e, z, h, hc, rfl⟩ | ⟨e, h, hc, rfl⟩)
    · exact ⟨.ok a, t, [], by simp, h, rfl, rfl⟩
    · exact ⟨.error e, t, [], by simp, h, by simp only [hc]; exact ⟨rfl, rfl⟩⟩
    · exact ⟨.error e, t, [], by simp, h, by simp only [hc]; exact ⟨rfl, rfl⟩⟩

/-- Every reason for which `p` stops is in `S`. -/
def StopsIn (S : ε → Prop) (p : Comp Resp ε α) : Prop := ∀ t e, p.Runs t (.error e) → S e

namespace StopsIn

variable {S : ε → Prop}

theorem pure (a : α) : StopsIn S (Pure.pure a : Comp Resp ε α) := by
  rintro t e ⟨-, h⟩
  cases h

theorem throw {e : ε} (h : S e) : StopsIn S (throw e : Comp Resp ε α) := by
  rintro t e' ⟨-, he⟩
  rwa [Except.error.inj he]

theorem perform (o : Op) : StopsIn S (perform o : Comp Resp ε (Resp o)) := by
  intro t e h
  obtain ⟨x, -, hx⟩ := (runs_perform _ _).mp h
  cases hx

theorem bind (hp : StopsIn S p) (hf : ∀ a, StopsIn S (f a)) : StopsIn S (p >>= f) := by
  intro t e h
  rcases (runs_bind _).mp h with ⟨a, t₁, t₂, rfl, -, h₂⟩ | ⟨e', he, h₁⟩
  · exact hf a t₂ e h₂
  · rw [Except.error.inj he]
    exact hp t e' h₁

theorem mapStop {S' : ζ → Prop} {g : ε → ζ} (hp : StopsIn S p) (hg : ∀ e, S e → S' (g e)) :
    StopsIn S' (mapStop g p) := by
  intro t z h
  obtain ⟨e, he, rfl⟩ := (runs_mapStop_error _ _).mp h
  exact hg e (hp t e he)

theorem attempt {catches : ε → Option ζ} (hp : StopsIn S p) :
    StopsIn S (attempt catches p) := by
  intro t e h
  rcases (runs_attempt _ _).mp h with ⟨a, -, h⟩ | ⟨e', z, -, -, h⟩ | ⟨e', he, -, h⟩
  · cases h
  · cases h
  · rw [Except.error.inj h]
    exact hp t e' he

theorem ite {P : Prop} [Decidable P] {q : Comp Resp ε α} (hp : StopsIn S p)
    (hq : StopsIn S q) : StopsIn S (if P then p else q) := by
  split
  · exact hp
  · exact hq

theorem mono {S' : ε → Prop} (hp : StopsIn S p) (h : ∀ e, S e → S' e) : StopsIn S' p :=
  fun t e he => h e (hp t e he)

end StopsIn

/-- Every event of every run of `p` is in `S`. -/
def ActsIn (S : Event Resp → Prop) (p : Comp Resp ε α) : Prop := ∀ t r, p.Runs t r → ∀ e ∈ t, S e

namespace ActsIn

variable {S : Event Resp → Prop}

theorem pure (a : α) : ActsIn S (Pure.pure a : Comp Resp ε α) := by
  rintro t r ⟨rfl, -⟩ e he
  cases he

theorem throw (e : ε) : ActsIn S (throw e : Comp Resp ε α) := by
  rintro t r ⟨rfl, -⟩ e he
  cases he

theorem perform {o : Op} (h : ∀ x, S ⟨o, x⟩) : ActsIn S (perform o : Comp Resp ε (Resp o)) := by
  intro t r hr e he
  obtain ⟨x, rfl, -⟩ := (runs_perform _ _).mp hr
  rw [List.mem_singleton] at he
  exact he ▸ h x

theorem bind (hp : ActsIn S p) (hf : ∀ a, ActsIn S (f a)) : ActsIn S (p >>= f) := by
  intro t r hr e he
  rcases (runs_bind _).mp hr with ⟨a, t₁, t₂, rfl, h₁, h₂⟩ | ⟨x, -, h₁⟩
  · rcases List.mem_append.mp he with he | he
    · exact hp t₁ _ h₁ e he
    · exact hf a t₂ r h₂ e he
  · exact hp t _ h₁ e he

theorem mapStop {g : ε → ζ} (hp : ActsIn S p) : ActsIn S (mapStop g p) := by
  intro t r hr
  obtain ⟨r', hr', -⟩ := (runs_mapStop _ _).mp hr
  exact hp t r' hr'

theorem attempt {catches : ε → Option ζ} (hp : ActsIn S p) : ActsIn S (attempt catches p) := by
  intro t r hr
  rcases (runs_attempt _ _).mp hr with ⟨a, h, -⟩ | ⟨e, z, h, -, -⟩ | ⟨e, h, -, -⟩
  · exact hp t _ h
  · exact hp t _ h
  · exact hp t _ h

theorem ite {P : Prop} [Decidable P] {q : Comp Resp ε α} (hp : ActsIn S p) (hq : ActsIn S q) :
    ActsIn S (if P then p else q) := by
  split
  · exact hp
  · exact hq

theorem mono {S' : Event Resp → Prop} (hp : ActsIn S p) (h : ∀ e, S e → S' e) : ActsIn S' p :=
  fun t r hr e he => h e (hp t r hr e he)

end ActsIn

/-- An event in `S` is the last of a run, and the run fails. -/
def HaltsAt (S : Event Resp → Prop) (p : Comp Resp ε α) : Prop :=
  ∀ t r, p.Runs t r → ∀ u e v, t = u ++ e :: v → S e → v = [] ∧ ∃ s, r = .error s

namespace HaltsAt

variable {S : Event Resp → Prop}

theorem pure (a : α) : HaltsAt S (Pure.pure a : Comp Resp ε α) := by
  intro t r ⟨ht, _⟩ u e v he
  simp [ht] at he

theorem throw (s : ε) : HaltsAt S (throw s : Comp Resp ε α) := by
  intro t r ⟨ht, _⟩ u e v he
  simp [ht] at he

/-- One call, and a stop if its answer is in `S`. -/
theorem perform_bind {o : Op} {k : Resp o → Comp Resp ε β}
    (h : ∀ x t r, (k x).Runs t r → t = [] ∧ (S ⟨o, x⟩ → ∃ s, r = .error s)) :
    HaltsAt S (perform o >>= k) := by
  intro t r hr u e v ht he
  obtain ⟨x, t', rfl, hk⟩ := (runs_perform_bind _).mp hr
  obtain ⟨rfl, hs⟩ := h x t' r hk
  cases u with
  | nil =>
    obtain ⟨rfl, rfl⟩ := List.cons.inj ht
    exact ⟨rfl, hs he⟩
  | cons e' u => simp at ht

theorem bind (hp : HaltsAt S p) (hf : ∀ a, HaltsAt S (f a)) : HaltsAt S (p >>= f) := by
  intro t r hr u e v ht he
  rcases (runs_bind _).mp hr with ⟨a, t₁, t₂, rfl, h₁, h₂⟩ | ⟨s, rfl, h₁⟩
  swap
  · exact ⟨(hp t _ h₁ u e v ht he).1, s, rfl⟩
  rcases List.append_eq_append_iff.mp ht with ⟨w, -, hw⟩ | ⟨w, hu, hw⟩
  · exact hf a t₂ r h₂ w e v hw he
  cases w with
  | nil => exact hf a t₂ r h₂ [] e v hw.symm he
  | cons e' w =>
    -- The first part returned, so none of its events was in `S`.
    obtain ⟨rfl, rfl⟩ := List.cons.inj hw
    obtain ⟨-, s, hs⟩ := hp t₁ _ h₁ u e w hu he
    cases hs

theorem mapStop {g : ε → ζ} (hp : HaltsAt S p) : HaltsAt S (mapStop g p) := by
  intro t r hr u e v ht he
  obtain ⟨r', h, rfl⟩ := (runs_mapStop _ _).mp hr
  obtain ⟨hv, s, rfl⟩ := hp t r' h u e v ht he
  exact ⟨hv, g s, rfl⟩

theorem ite {P : Prop} [Decidable P] {q : Comp Resp ε α} (hp : HaltsAt S p) (hq : HaltsAt S q) :
    HaltsAt S (if P then p else q) := by
  split
  · exact hp
  · exact hq

/-- A run that returns has no such event. -/
theorem returned (hp : HaltsAt S p) {a : α} (h : p.Runs t (.ok a)) : ∀ e ∈ t, ¬ S e := by
  intro e he hs
  obtain ⟨u, v, rfl⟩ := List.append_of_mem he
  obtain ⟨-, s, hr⟩ := hp _ _ h u e v rfl hs
  cases hr

end HaltsAt

def exec (env : Env Resp σ) (p : Comp Resp ε α) (s : σ) : Outcome Resp (Except ε α) σ :=
  Prog.exec env p.run s

theorem exec_runs (env : Env Resp σ) (p : Comp Resp ε α) (s : σ) :
    p.Runs (p.exec env s).trace (p.exec env s).value := Prog.exec_runs env p.run s

theorem exec_follows (env : Env Resp σ) (p : Comp Resp ε α) (s : σ) :
    Follows env s (p.exec env s).trace (p.exec env s).state := Prog.exec_follows env p.run s

theorem exec_eq {env : Env Resp σ} {s s' : σ} {r : Except ε α}
    (hr : p.Runs t r) (hf : Follows env s t s') : p.exec env s = ⟨t, r, s'⟩ :=
  Prog.exec_eq hr hf

/-- A first part that returns passes on what is left of the environment. -/
theorem exec_bind_ok {env : Env Resp σ} {s s' : σ} {a : α} (hr : p.Runs t (.ok a))
    (hf : Follows env s t s') : (p >>= f).exec env s = ((f a).exec env s').behind t :=
  exec_eq (hr.bind (exec_runs env (f a) s'))
    ((follows_append env _ _ _ _).mpr ⟨_, hf, exec_follows env (f a) s'⟩)

theorem exec_bind_error {env : Env Resp σ} {s : σ} {e : ε}
    (h : (p.exec env s).value = .error e) :
    (p >>= f).exec env s = ⟨(p.exec env s).trace, .error e, (p.exec env s).state⟩ := by
  have hr := exec_runs env p s
  rw [h] at hr
  exact exec_eq ((runs_bind _).mpr (.inr ⟨e, rfl, hr⟩)) (exec_follows env p s)

end Comp

end Interaction
