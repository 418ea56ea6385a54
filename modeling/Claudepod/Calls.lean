import Claudepod.Program

/-! Programs that make calls of two kinds, and processes that run side by side. -/

set_option autoImplicit false

namespace Interaction

section Both

variable {Op Op' : Type} {Resp : Op → Type} {Resp' : Op' → Type} {α ε : Type}

/-- The answers to calls of either kind. -/
def Both (Resp : Op → Type) (Resp' : Op' → Type) : Op ⊕ Op' → Type
  | .inl o => Resp o
  | .inr o => Resp' o

def inlEvent (e : Event Resp) : Event (Both Resp Resp') := ⟨.inl e.1, e.2⟩

/-- The event, if it is of the first kind. -/
def inlOf : Event (Both Resp Resp') → Option (Event Resp)
  | ⟨.inl o, r⟩ => some ⟨o, r⟩
  | ⟨.inr _, _⟩ => none

@[simp] theorem inlOf_inlEvent (e : Event Resp) :
    inlOf (inlEvent e : Event (Both Resp Resp')) = some e := rfl

theorem inlOf_eq_some {x : Event (Both Resp Resp')} {e : Event Resp} (h : inlOf x = some e) :
    x = inlEvent e := by
  obtain ⟨o, r⟩ := x
  cases o with
  | inl o =>
    obtain rfl := Option.some.inj h
    rfl
  | inr o => cases h

def Prog.inl : Prog Resp α → Prog (Both Resp Resp') α
  | .ret a => .ret a
  | .call o k => .call (.inl o) fun r => (k r).inl

theorem Prog.runs_inl {p : Prog Resp α} {t : List (Event (Both Resp Resp'))} {a : α} :
    (p.inl : Prog (Both Resp Resp') α).Runs t a ↔
      ∃ u : List (Event Resp), t = u.map inlEvent ∧ p.Runs u a := by
  induction p generalizing t with
  | ret b =>
    constructor
    · intro ⟨ht, ha⟩
      exact ⟨[], ht, rfl, ha⟩
    · intro ⟨u, ht, hu, ha⟩
      exact ⟨by rw [ht, hu]; rfl, ha⟩
  | call o k ih =>
    constructor
    · intro ⟨r, t', ht, hr⟩
      obtain ⟨u, rfl, hu⟩ := (ih r).mp hr
      exact ⟨⟨o, r⟩ :: u, ht, r, u, rfl, hu⟩
    · intro ⟨u, ht, r, u', hu, hr⟩
      exact ⟨r, u'.map inlEvent, by rw [ht, hu]; rfl, (ih r).mpr ⟨u', rfl, hr⟩⟩

def Comp.inl (p : Comp Resp ε α) : Comp (Both Resp Resp') ε α := ExceptT.mk p.run.inl

/-- Between other calls a program does what it does alone. -/
theorem Comp.runs_inl {p : Comp Resp ε α} {t : List (Event (Both Resp Resp'))}
    {r : Except ε α} : (p.inl : Comp (Both Resp Resp') ε α).Runs t r ↔
      ∃ u : List (Event Resp), t = u.map inlEvent ∧ p.Runs u r := Prog.runs_inl

end Both

section Processes

variable {ι E : Type} [DecidableEq ι]

/-- The events of process `i`. -/
def own (i : ι) (es : List (ι × E)) : List E := (es.filter fun x => x.1 = i).map (·.2)

@[simp] theorem own_append (i : ι) (es fs : List (ι × E)) :
    own i (es ++ fs) = own i es ++ own i fs := by
  rw [own, List.filter_append, List.map_append]
  rfl

theorem own_self (i : ι) (e : E) (es : List (ι × E)) : own i ((i, e) :: es) = e :: own i es := by
  rw [own, List.filter_cons_of_pos (by simp)]
  rfl

theorem own_other {i j : ι} (h : j ≠ i) (e : E) (es : List (ι × E)) :
    own i ((j, e) :: es) = own i es := by
  rw [own, List.filter_cons_of_neg (by simpa using h)]
  rfl

theorem mem_own {i : ι} {e : E} {es : List (ι × E)} : e ∈ own i es ↔ (i, e) ∈ es := by
  simp [own]

theorem own_map_self {E' : Type} (i : ι) (f : E' → E) (es : List E') :
    own i (es.map fun e => (i, f e)) = es.map f := by
  simp [own, List.filter_map, Function.comp_def]

theorem own_map_other {E' : Type} {i j : ι} (h : j ≠ i) (f : E' → E) (es : List E') :
    own i (es.map fun e => (j, f e)) = [] := by
  simp [own, List.filter_map, Function.comp_def, h]

/-- Each process has come some way; it may have been stopped there. -/
def Alongside {Op ε α : Type} {Resp : Op → Type} (p : ι → Comp Resp ε α)
    (es : List (ι × Event Resp)) : Prop :=
  ∀ i, ∃ rest r, (p i).Runs (own i es ++ rest) r

theorem Alongside.of_append {Op ε α : Type} {Resp : Op → Type} {p : ι → Comp Resp ε α}
    {es fs : List (ι × Event Resp)} (h : Alongside p (es ++ fs)) : Alongside p es := by
  intro i
  obtain ⟨rest, r, hr⟩ := h i
  rw [own_append, List.append_assoc] at hr
  exact ⟨_, r, hr⟩

end Processes

end Interaction
