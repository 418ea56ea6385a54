import Claudepod.Program

/-! Triples for interactive programs. A monitor steps a ghost state along the trace, relies
on the environment for some of the answers and demands something of every event. A triple
says that a program started in `P` meets all demands as long as the environment keeps its
side, and that the ghost state ends in `Q` if the program returns and in `E` if it stops. -/

set_option autoImplicit false

namespace Interaction

structure Monitor {Op : Type} (Resp : Op → Type) (σ : Type) where
  step : σ → Event Resp → σ
  rely : Event Resp → Prop
  guar : σ → Event Resp → Prop

namespace Monitor

variable {Op : Type} {Resp : Op → Type} {α β ε ζ σ χ : Type}

section Traces

variable (m : Monitor Resp σ)

def after (s : σ) (t : List (Event Resp)) : σ := t.foldl m.step s

/-- Every event meets its demand. -/
def Meets : σ → List (Event Resp) → Prop
  | _, [] => True
  | s, e :: t => m.guar s e ∧ Meets (m.step s e) t

@[simp] theorem after_nil (s : σ) : m.after s [] = s := rfl

@[simp] theorem after_append (s : σ) (t u : List (Event Resp)) :
    m.after s (t ++ u) = m.after (m.after s t) u := List.foldl_append

@[simp] theorem meets_append (s : σ) (t u : List (Event Resp)) :
    m.Meets s (t ++ u) ↔ m.Meets s t ∧ m.Meets (m.after s t) u := by
  induction t generalizing s with
  | nil => simp [Meets]
  | cons e t ih => simp [Meets, ih, and_assoc, after]

end Traces

/-- The postcondition of either way to end. -/
def post (Q : α → σ → Prop) (E : σ → Prop) : Except ε α → σ → Prop
  | .ok a => Q a
  | .error _ => E

def Triple (m : Monitor Resp σ) (P : σ → Prop) (p : Comp Resp ε α) (Q : α → σ → Prop)
    (E : σ → Prop) : Prop :=
  ∀ s t r, P s → p.Runs t r → (∀ e ∈ t, m.rely e) → m.Meets s t ∧ post Q E r (m.after s t)

namespace Triple

variable {m : Monitor Resp σ} {P P' E E' : σ → Prop} {p : Comp Resp ε α} {Q Q' : α → σ → Prop}
  {f : α → Comp Resp ε β} {R : β → σ → Prop}

theorem pure {a : α} (h : ∀ s, P s → Q a s) :
    m.Triple P (Pure.pure a : Comp Resp ε α) Q E := by
  rintro s t r hs ⟨rfl, rfl⟩ -
  exact ⟨trivial, h s hs⟩

theorem throw {e : ε} (h : ∀ s, P s → E s) : m.Triple P (throw e : Comp Resp ε α) Q E := by
  rintro s t r hs ⟨rfl, rfl⟩ -
  exact ⟨trivial, h s hs⟩

theorem perform {o : Op} {Q : Resp o → σ → Prop}
    (h : ∀ s x, P s → m.rely ⟨o, x⟩ → m.guar s ⟨o, x⟩ ∧ Q x (m.step s ⟨o, x⟩)) :
    m.Triple P (Comp.perform o : Comp Resp ε (Resp o)) Q E := by
  intro s t r hs hr ht
  obtain ⟨x, rfl, rfl⟩ := (Comp.runs_perform _ _).mp hr
  obtain ⟨hg, hq⟩ := h s x hs (ht _ (.head _))
  exact ⟨⟨hg, trivial⟩, hq⟩

theorem bind (hp : m.Triple P p Q E) (hf : ∀ a, m.Triple (Q a) (f a) R E) :
    m.Triple P (p >>= f) R E := by
  intro s t r hs hr ht
  rcases (Comp.runs_bind _).mp hr with ⟨a, t₁, t₂, rfl, h₁, h₂⟩ | ⟨e, rfl, h₁⟩
  · obtain ⟨hm₁, hq⟩ := hp s t₁ _ hs h₁ fun e he => ht e (List.mem_append_left _ he)
    obtain ⟨hm₂, hr⟩ := hf a _ t₂ r hq h₂ fun e he => ht e (List.mem_append_right _ he)
    exact ⟨(m.meets_append ..).mpr ⟨hm₁, hm₂⟩, by rw [after_append]; exact hr⟩
  · exact hp s t _ hs h₁ ht

theorem mapStop {g : ε → ζ} (hp : m.Triple P p Q E) : m.Triple P (Comp.mapStop g p) Q E := by
  intro s t r hs hr ht
  obtain ⟨r', hr', rfl⟩ := (Comp.runs_mapStop _ _).mp hr
  obtain ⟨hm, hq⟩ := hp s t r' hs hr' ht
  cases r' with
  | ok a => exact ⟨hm, hq⟩
  | error e => exact ⟨hm, hq⟩

/-- A stop that is caught leaves what it was caught in. -/
theorem attempt {catches : ε → Option ζ} (hp : m.Triple P p Q E) :
    m.Triple P (Comp.attempt catches p) (post Q E) E := by
  intro s t r hs hr ht
  rcases (Comp.runs_attempt _ _).mp hr with ⟨a, h, rfl⟩ | ⟨e, z, h, -, rfl⟩ | ⟨e, h, -, rfl⟩
  · exact hp s t _ hs h ht
  · exact hp s t _ hs h ht
  · exact hp s t _ hs h ht

/-- Where every stop is caught, none is left to account for. -/
theorem attempt_all (hp : m.Triple P p Q E) : m.Triple P (Comp.attempt some p) (post Q E) E' := by
  intro s t r hs hr ht
  rcases (Comp.runs_attempt _ _).mp hr with ⟨a, h, rfl⟩ | ⟨e, z, h, hz, rfl⟩ | ⟨e, h, hz, rfl⟩
  · exact hp s t _ hs h ht
  · exact hp s t _ hs h ht
  · cases hz

theorem ite {C : Prop} [Decidable C] {q : Comp Resp ε α} (hp : C → m.Triple P p Q E)
    (hq : ¬ C → m.Triple P q Q E) : m.Triple P (if C then p else q) Q E := by
  split
  · exact hp ‹_›
  · exact hq ‹_›

theorem conseq (h : m.Triple P p Q E) (hP : ∀ s, P' s → P s) (hQ : ∀ a s, Q a s → Q' a s)
    (hE : ∀ s, E s → E' s) : m.Triple P' p Q' E' := by
  intro s t r hs hr ht
  obtain ⟨hm, hq⟩ := h s t r (hP s hs) hr ht
  cases r with
  | ok a => exact ⟨hm, hQ a _ hq⟩
  | error e => exact ⟨hm, hE _ hq⟩

theorem pre (h : m.Triple P p Q E) (hP : ∀ s, P' s → P s) : m.Triple P' p Q E :=
  h.conseq hP (fun _ _ => id) fun _ => id

/-- A program whose events all keep `I` keeps `I`. -/
theorem of_acts {S : Event Resp → Prop} {I : σ → Prop} (hp : Comp.ActsIn S p)
    (h : ∀ s e, I s → S e → m.rely e → m.guar s e ∧ I (m.step s e)) :
    m.Triple I p (fun _ => I) I := by
  have run : ∀ (t : List (Event Resp)) (s : σ), I s → (∀ e ∈ t, S e) → (∀ e ∈ t, m.rely e) →
      m.Meets s t ∧ I (m.after s t) := by
    intro t
    induction t with
    | nil => exact fun s hs _ _ => ⟨trivial, hs⟩
    | cons e t ih =>
      intro s hs hS hr
      obtain ⟨hg, hi⟩ := h s e hs (hS e (.head _)) (hr e (.head _))
      obtain ⟨hm, hi'⟩ := ih (m.step s e) hi (fun e he => hS e (.tail _ he))
        fun e he => hr e (.tail _ he)
      exact ⟨⟨hg, hm⟩, hi'⟩
  intro s t r hs hr ht
  obtain ⟨hm, hi⟩ := run t s hs (hp t r hr) ht
  cases r with
  | ok a => exact ⟨hm, hi⟩
  | error e => exact ⟨hm, hi⟩

end Triple

end Monitor

end Interaction
