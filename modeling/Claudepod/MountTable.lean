import Mathlib.Data.List.Induction

/-! Directories bound into a tree. A path is looked up in the mount whose target is the
innermost one at or above it; of two mounts at one target the later hides the earlier. -/

set_option autoImplicit false

namespace MountTable

variable {α : Type} [DecidableEq α]

structure Mount (α : Type) where
  source : List α
  target : List α
  deriving DecidableEq

/-- Below the target stands what is below the source. -/
def Mount.shows (m : Mount α) (path : List α) : Option (List α) :=
  if m.target <+: path then some (m.source ++ path.drop m.target.length) else none

def nearest (path : List α) (ms : List (Mount α)) : Option (Mount α) :=
  ms.foldl (fun best m =>
    if m.target <+: path ∧ best.all (fun b => b.target.length ≤ m.target.length) then some m
    else best) none

/-- Where a path leads. -/
def view (ms : List (Mount α)) (path : List α) : Option (List α) :=
  (nearest path ms).bind fun m => m.shows path

variable {m m' : Mount α} {ms : List (Mount α)} {path rest : List α}

theorem shows_below (m : Mount α) (rest : List α) :
    m.shows (m.target ++ rest) = some (m.source ++ rest) := by
  simp [Mount.shows]

theorem shows_eq_some {seen : List α} (h : m.shows path = some seen) :
    ∃ rest, path = m.target ++ rest ∧ seen = m.source ++ rest := by
  unfold Mount.shows at h
  split at h
  · rename_i hp
    obtain ⟨rest, rfl⟩ := hp
    exact ⟨rest, rfl, by simpa using h.symm⟩
  · cases h

theorem nearest_concat (path : List α) (ms : List (Mount α)) (m : Mount α) :
    nearest path (ms ++ [m]) =
      if m.target <+: path ∧ (nearest path ms).all (fun b => b.target.length ≤ m.target.length)
      then some m else nearest path ms := by
  rw [nearest, List.foldl_append]
  rfl

theorem nearest_mem (h : nearest path ms = some m) : m ∈ ms ∧ m.target <+: path := by
  induction ms using List.reverseRecOn with
  | nil => cases h
  | append_singleton ms m' ih =>
    rw [nearest_concat] at h
    split at h
    · rename_i hc
      obtain rfl := Option.some.inj h
      exact ⟨by simp, hc.1⟩
    · obtain ⟨hm, hp⟩ := ih h
      exact ⟨by simp [hm], hp⟩

/-- A last mount hides all others where no other lies further in. -/
theorem view_last (ms : List (Mount α)) (m : Mount α) (hp : m.target ++ rest = path)
    (h : ∀ b ∈ ms, b.target <+: path → b.target.length ≤ m.target.length) :
    view (ms ++ [m]) path = some (m.source ++ rest) := by
  have hn : nearest path (ms ++ [m]) = some m := by
    rw [nearest_concat, if_pos]
    refine ⟨⟨rest, hp⟩, ?_⟩
    cases hb : nearest path ms with
    | none => rfl
    | some b =>
      obtain ⟨hm, hb⟩ := nearest_mem hb
      simpa using h b hm hb
  rw [view, hn, Option.bind_some, ← hp, shows_below]

/-- A mount is seen where none before it lies further in, and none behind it as far. -/
theorem view_between (before : List (Mount α)) (m : Mount α) (behind : List (Mount α))
    (hp : m.target ++ rest = path)
    (hb : ∀ b ∈ before, b.target <+: path → b.target.length ≤ m.target.length)
    (ha : ∀ b ∈ behind, b.target <+: path → b.target.length < m.target.length) :
    view (before ++ m :: behind) path = some (m.source ++ rest) := by
  have hn : nearest path (before ++ m :: behind) = some m := by
    induction behind using List.reverseRecOn with
    | nil =>
      rw [nearest_concat, if_pos]
      refine ⟨⟨rest, hp⟩, ?_⟩
      cases hn : nearest path before with
      | none => rfl
      | some b =>
        obtain ⟨hm, hb'⟩ := nearest_mem hn
        simpa using hb b hm hb'
    | append_singleton behind b ih =>
      have hi := ih fun c hc => ha c (by simp [hc])
      rw [← List.cons_append, ← List.append_assoc, nearest_concat, hi, if_neg]
      intro ⟨hpre, hle⟩
      have hlt := ha b (by simp) hpre
      simp only [Option.all_some, decide_eq_true_eq] at hle
      omega
  rw [view, hn, Option.bind_some, ← hp, shows_below]

/-- What is seen is seen through a mount. -/
theorem view_eq_some {seen : List α} (h : view ms path = some seen) :
    ∃ m ∈ ms, ∃ rest, path = m.target ++ rest ∧ seen = m.source ++ rest := by
  obtain ⟨m, hm, hs⟩ := Option.bind_eq_some_iff.mp h
  exact ⟨m, (nearest_mem hm).1, shows_eq_some hs⟩

end MountTable
