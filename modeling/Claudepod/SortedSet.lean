import Mathlib.Data.List.Basic

/-! Finite sets kept as strictly increasing lists, so that a set has one order of
iteration. -/

set_option autoImplicit false

namespace Interaction

variable {α : Type} [LT α]

structure SortedSet (α : Type) [LT α] where
  items : List α
  sorted : items.Pairwise (· < ·)

namespace SortedSet

instance : Membership α (SortedSet α) := ⟨fun s a => a ∈ s.items⟩

instance [DecidableEq α] (a : α) (s : SortedSet α) : Decidable (a ∈ s) :=
  inferInstanceAs (Decidable (a ∈ s.items))

def empty : SortedSet α := ⟨[], .nil⟩

@[simp] theorem not_mem_empty (a : α) : ¬ a ∈ (empty : SortedSet α) := List.not_mem_nil

section Insert

variable [DecidableLT α] [DecidableEq α]

/-- Insert in order, once. -/
def insertItem (a : α) : List α → List α
  | [] => [a]
  | b :: bs => if a < b then a :: b :: bs else if a = b then b :: bs else b :: insertItem a bs

theorem mem_insertItem {a b : α} {l : List α} : b ∈ insertItem a l ↔ b = a ∨ b ∈ l := by
  induction l with
  | nil => simp [insertItem]
  | cons c l ih =>
    by_cases hac : a < c
    · simp [insertItem, hac]
    by_cases he : a = c
    · subst he
      simp [insertItem, hac]
    · simp [insertItem, hac, he, ih, or_left_comm]

theorem insertItem_sorted [Trans (· < · : α → α → Prop) (· < ·) (· < ·)]
    [Std.Trichotomous (· < · : α → α → Prop)] (a : α) {l : List α}
    (h : l.Pairwise (· < ·)) : (insertItem a l).Pairwise (· < ·) := by
  induction l with
  | nil => simp [insertItem]
  | cons b l ih =>
    obtain ⟨hb, hl⟩ := List.pairwise_cons.mp h
    unfold insertItem
    split
    · rename_i hab
      refine List.pairwise_cons.mpr ⟨fun c hc => ?_, h⟩
      rcases List.mem_cons.mp hc with rfl | hc
      · exact hab
      · exact Trans.trans hab (hb c hc)
    split
    · exact h
    · rename_i hab hne
      have hba : b < a := by
        by_contra hba
        exact hne (Std.Trichotomous.trichotomous a b hab hba)
      refine List.pairwise_cons.mpr ⟨fun c hc => ?_, ih hl⟩
      rcases mem_insertItem.mp hc with rfl | hc
      · exact hba
      · exact hb c hc

variable [Trans (· < · : α → α → Prop) (· < ·) (· < ·)]
  [Std.Trichotomous (· < · : α → α → Prop)]

def insert (s : SortedSet α) (a : α) : SortedSet α :=
  ⟨insertItem a s.items, insertItem_sorted a s.sorted⟩

/-- The elements of a list, duplicates dropped. -/
def ofList (l : List α) : SortedSet α := l.foldl insert empty

theorem mem_insert {a b : α} {s : SortedSet α} : b ∈ s.insert a ↔ b = a ∨ b ∈ s := mem_insertItem

theorem mem_foldl_insert {l : List α} {s : SortedSet α} {b : α} :
    b ∈ l.foldl insert s ↔ b ∈ l ∨ b ∈ s := by
  induction l generalizing s with
  | nil => simp
  | cons a l ih =>
    simp only [List.foldl_cons, ih, mem_insert, List.mem_cons, or_assoc, or_left_comm]

@[simp] theorem mem_ofList {l : List α} {b : α} : b ∈ ofList l ↔ b ∈ l := by
  simp [ofList, mem_foldl_insert]

end Insert

end SortedSet

end Interaction
