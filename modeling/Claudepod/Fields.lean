import Mathlib.Data.List.Basic

/-! Lists cut at a separator. -/

set_option autoImplicit false

namespace Fields

variable {α : Type} [BEq α] [LawfulBEq α] {sep b : α} {f xs ys : List α}

theorem sep_notMem_field (h : f ∈ xs.splitOn sep) : sep ∉ f := by
  induction xs generalizing f with
  | nil => simp_all
  | cons x xs ih =>
    rw [List.splitOn_cons_eq_if_modifyHead] at h
    split at h
    · rcases List.mem_cons.mp h with rfl | h
      · simp
      · exact ih h
    · rename_i hx
      cases hs : xs.splitOn sep with
      | nil => simp [hs] at h
      | cons g gs =>
        rw [hs, List.modifyHead_cons] at h
        rw [hs] at ih
        rcases List.mem_cons.mp h with rfl | h
        · intro hm
          rcases List.mem_cons.mp hm with rfl | hm
          · simp at hx
          · exact ih (f := g) (by simp) hm
        · exact ih (by simp [h])

omit [LawfulBEq α] in
theorem mem_of_mem_field (h : f ∈ xs.splitOn sep) (hb : b ∈ f) : b ∈ xs := by
  induction xs generalizing f with
  | nil => simp_all
  | cons x xs ih =>
    rw [List.splitOn_cons_eq_if_modifyHead] at h
    split at h
    · rcases List.mem_cons.mp h with rfl | h
      · simp at hb
      · exact List.mem_cons_of_mem _ (ih h hb)
    · cases hs : xs.splitOn sep with
      | nil => simp [hs] at h
      | cons g gs =>
        rw [hs, List.modifyHead_cons] at h
        rw [hs] at ih
        rcases List.mem_cons.mp h with rfl | h
        · rcases List.mem_cons.mp hb with rfl | hb
          · simp
          · exact List.mem_cons_of_mem _ (ih (f := g) (by simp) hb)
        · exact List.mem_cons_of_mem _ (ih (by simp [h]) hb)

theorem find_none (h : sep ∉ xs) : xs.findIdx? (· == sep) = none :=
  List.findIdx?_eq_none_iff.mpr fun b hb => by simpa using fun he : b = sep => h (he ▸ hb)

/-- A field ends where the separator is first found. -/
theorem find_first (h : sep ∉ xs) : (xs ++ sep :: ys).findIdx? (· == sep) = some xs.length := by
  simp [List.findIdx?_append, find_none h, List.findIdx?_cons]

omit [BEq α] [LawfulBEq α] in
theorem intercalate_concat {fs : List (List α)} (h : fs ≠ []) :
    [sep].intercalate (fs ++ [f]) = [sep].intercalate fs ++ sep :: f := by
  induction fs with
  | nil => exact absurd rfl h
  | cons g gs ih =>
    cases gs with
    | nil => simp [List.intercalate_cons_cons]
    | cons k gs =>
      rw [List.cons_append, List.cons_append, List.intercalate_cons_cons, ← List.cons_append,
        ih (by simp), List.intercalate_cons_cons]
      simp

end Fields
