import Claudepod.Program

/-! Programs with loop bounds. Reaching a bound is one of the reasons for which a program stops,
`x` below. `Owes` says what a run must hold for a bound to be reached, `Approximates` that a
program with larger bounds does all that one with smaller bounds does short of them. -/

set_option autoImplicit false

namespace Interaction.Comp

variable {Op : Type} {Resp : Op → Type} {α β ε ζ : Type} {x : ε} {p q : Comp Resp ε α}
  {f g : α → Comp Resp ε β}

/-- A run of `p` that stops for `x` ends in events with `Q`. -/
def Owes (x : ε) (Q : List (Event Resp) → Prop) (p : Comp Resp ε α) : Prop :=
  ∀ t, p.Runs t (.error x) → ∃ u v, t = u ++ v ∧ Q v

namespace Owes

variable {Q : List (Event Resp) → Prop}

theorem of_stopsIn (h : StopsIn (· ≠ x) p) : Owes x Q p := fun t ht => absurd rfl (h t x ht)

theorem pure (a : α) : Owes x Q (Pure.pure a : Comp Resp ε α) := .of_stopsIn (.pure a)

theorem throw {e : ε} (h : e ≠ x) : Owes x Q (throw e : Comp Resp ε α) := .of_stopsIn (.throw h)

theorem bind (hp : Owes x Q p) (hf : ∀ a, Owes x Q (f a)) : Owes x Q (p >>= f) := by
  intro t h
  rcases (runs_bind _).mp h with ⟨a, t₁, t₂, rfl, -, h₂⟩ | ⟨e, he, h₁⟩
  · obtain ⟨u, v, rfl, hv⟩ := hf a t₂ h₂
    exact ⟨t₁ ++ u, v, (List.append_assoc ..).symm, hv⟩
  · obtain rfl := Except.error.inj he
    exact hp t h₁

theorem mapStop {z : ζ} {r : ε → ζ} (hp : Owes x Q p) (hr : ∀ e, r e = z → e = x) :
    Owes z Q (mapStop r p) := by
  intro t h
  obtain ⟨e, he, hz⟩ := (runs_mapStop_error _ _).mp h
  obtain rfl := hr e hz.symm
  exact hp t he

theorem attempt {catches : ε → Option ζ} (hp : Owes x Q p) : Owes x Q (attempt catches p) := by
  intro t h
  rcases (runs_attempt _ _).mp h with ⟨a, -, h⟩ | ⟨e, z, -, -, h⟩ | ⟨e, he, -, h⟩
  · cases h
  · cases h
  · obtain rfl := Except.error.inj h
    exact hp t he

theorem ite {P : Prop} [Decidable P] (hp : Owes x Q p) (hq : Owes x Q q) :
    Owes x Q (if P then p else q) := by
  split
  · exact hp
  · exact hq

end Owes

/-- Whatever `p` does without stopping for `x`, `q` does as well. -/
def Approximates (x : ε) (p q : Comp Resp ε α) : Prop :=
  ∀ t r, p.Runs t r → r ≠ .error x → q.Runs t r

namespace Approximates

theorem refl (p : Comp Resp ε α) : Approximates x p p := fun _ _ h _ => h

theorem throw (q : Comp Resp ε α) : Approximates x (throw x) q := by
  rintro t r ⟨-, rfl⟩ hr
  exact absurd rfl hr

theorem bind (hp : Approximates x p q) (hf : ∀ a, Approximates x (f a) (g a)) :
    Approximates x (p >>= f) (q >>= g) := by
  intro t r h hr
  rcases (runs_bind _).mp h with ⟨a, t₁, t₂, rfl, h₁, h₂⟩ | ⟨e, rfl, h₁⟩
  · exact (hp t₁ _ h₁ (by simp)).bind (hf a t₂ r h₂ hr)
  · exact (runs_bind _).mpr (.inr ⟨e, rfl, hp t _ h₁ (by simpa using hr)⟩)

theorem mapStop {z : ζ} {r : ε → ζ} (hp : Approximates x p q) (hr : r x = z) :
    Approximates z (mapStop r p) (mapStop r q) := by
  intro t s h hs
  obtain ⟨s', h', rfl⟩ := (runs_mapStop _ _).mp h
  refine (runs_mapStop _ _).mpr ⟨s', hp t s' h' ?_, rfl⟩
  rintro rfl
  exact hs (by rw [← hr]; rfl)

theorem attempt {catches : ε → Option ζ} (hp : Approximates x p q) (hx : catches x = none) :
    Approximates x (attempt catches p) (attempt catches q) := by
  intro t r h hr
  refine (runs_attempt _ _).mpr ?_
  rcases (runs_attempt _ _).mp h with ⟨a, ha, rfl⟩ | ⟨e, z, he, hz, rfl⟩ | ⟨e, he, hn, rfl⟩
  · exact .inl ⟨a, hp t _ ha (by simp), rfl⟩
  · refine .inr (.inl ⟨e, z, hp t _ he ?_, hz, rfl⟩)
    rintro hex
    rw [Except.error.inj hex, hx] at hz
    cases hz
  · refine .inr (.inr ⟨e, hp t _ he ?_, hn, rfl⟩)
    rintro hex
    exact hr (by rw [Except.error.inj hex])

theorem ite {P : Prop} [Decidable P] {p' q' : Comp Resp ε α} (hp : Approximates x p p')
    (hq : Approximates x q q') :
    Approximates x (if P then p else q) (if P then p' else q') := by
  split
  · exact hp
  · exact hq

/-- Executed where the bounds of `p` suffice, both come to the same. -/
theorem exec_eq {σ : Type} (h : Approximates x p q) (env : Env Resp σ) (s : σ)
    (hx : (p.exec env s).value ≠ .error x) : q.exec env s = p.exec env s :=
  Comp.exec_eq (h _ _ (exec_runs env p s) hx) (exec_follows env p s)

end Approximates

end Interaction.Comp
