import Claudepod.Calls
import Claudepod.FileSystem

/-! A file that some programs replace, and others leave alone, on a disk that they all look at. -/

set_option autoImplicit false

namespace FileSystem
open Interaction

variable {κ β ε ι : Type} {parent : κ → κ} [DecidableEq κ]

/-! ### Looking at the disk -/

section Observes

variable {Op : Type} {Resp : Op → Type}

/-- Calls on files step the disk; the answers to other calls only tell something about it. -/
def Observes (tells : Disk κ β parent → Event Resp → Prop) :
    Disk κ β parent → List (Event (Both (Answer ε : Call κ β → Type) Resp)) → Disk κ β parent → Prop
  | d, [], d' => d' = d
  | d, ⟨.inl o, r⟩ :: es, d' => ∃ m, Step d (⟨o, r⟩ : Act κ β ε) m ∧ Observes tells m es d'
  | d, ⟨.inr o, r⟩ :: es, d' => tells d ⟨o, r⟩ ∧ Observes tells d es d'

variable {tells : Disk κ β parent → Event Resp → Prop} {d d' : Disk κ β parent}
  {es fs : List (Event (Both (Answer ε : Call κ β → Type) Resp))}

theorem observes_append : Observes tells d (es ++ fs) d' ↔
    ∃ m, Observes tells d es m ∧ Observes tells m fs d' := by
  induction es generalizing d with
  | nil => simp [Observes]
  | cons e es ih =>
    obtain ⟨o, r⟩ := e
    cases o with
    | inl o =>
      simp only [List.cons_append, Observes, ih]
      constructor
      · intro ⟨m, hm, m', hes, hfs⟩
        exact ⟨m', ⟨m, hm, hes⟩, hfs⟩
      · intro ⟨m', ⟨m, hm, hes⟩, hfs⟩
        exact ⟨m, hm, m', hes, hfs⟩
    | inr o => simp only [List.cons_append, Observes, ih, and_assoc, exists_and_left]

theorem Observes.steps (h : Observes tells d es d') : Steps d (es.filterMap inlOf) d' := by
  induction es generalizing d with
  | nil => exact h
  | cons e es ih =>
    obtain ⟨o, r⟩ := e
    cases o with
    | inl o =>
      obtain ⟨m, hm, h⟩ := h
      exact ⟨m, hm, ih h⟩
    | inr o => exact ih h.2

theorem observes_calls {t : List (Act κ β ε)} :
    Observes tells d (t.map inlEvent) d' ↔ Steps d t d' := by
  induction t generalizing d with
  | nil => exact Iff.rfl
  | cons e t ih =>
    obtain ⟨o, r⟩ := e
    exact exists_congr fun m => and_congr_right fun _ => ih

end Observes

/-! ### Writers among others -/

omit [DecidableEq κ] in
/-- What is replaced, is replaced by renaming. -/
theorem renames_of_replaced {s : Draft β} {es : List (Act κ β ε)}
    (h : (es.foldl Draft.step s).replaced ≠ s.replaced) : ∃ e ∈ es, Renames e := by
  induction es generalizing s with
  | nil => exact absurd rfl h
  | cons e es ih =>
    by_cases hr : Renames e
    · exact ⟨e, .head _, hr⟩
    · obtain ⟨e', he, hr⟩ := ih (by rwa [step_not_renames hr])
      exact ⟨e', .tail _ he, hr⟩

/-- What writer `i` drafts at `q i` to replace the target, and what others do, which changes
neither the target nor a draft. -/
structure Among (parent : κ → κ) (q : ι → κ) (target : κ) (x : Option ι × Act κ β ε) : Prop where
  writer : ∀ i, x.1 = some i → Own parent (q i) target x.2
  other : x.1 = none → ∀ files : κ → Option (List β),
    effect files x.2 target = files target ∧ ∀ i, effect files x.2 (q i) = files (q i)

/-- Drafts have places of their own. -/
structure Apart (q : ι → κ) (target : κ) : Prop where
  drafts : ∀ i j, q i = q j → i = j
  target : ∀ i, q i ≠ target

variable [DecidableEq ι] {q : ι → κ} {target : κ} {s : ι → Draft β} {d d' : Disk κ β parent}
  {es : List (Option ι × Act κ β ε)} {x : Option ι × Act κ β ε}

theorem tracks_step (hq : Apart q target) (hx : Among parent q target x)
    (ht : ∀ i, Tracks (q i) (s i) d) (hs : Step d x.2 d') (i : ι) :
    Tracks (q i) ((own (some i) [x]).foldl Draft.step (s i)) d' := by
  obtain ⟨o, e⟩ := x
  cases o with
  | none =>
    rw [own_other (by simp)]
    exact ⟨by rw [hs.files, (hx.other rfl d.files).2 i]; exact (ht i).content, (ht i).reads⟩
  | some j =>
    by_cases hij : j = i
    · subst hij
      rw [own_self]
      exact (ht j).own (hx.writer j rfl) (hq.target j) hs
    · rw [own_other (by simpa using hij)]
      exact (ht i).other (hx.writer j rfl) (fun h => hij (hq.drafts _ _ h).symm) (hq.target i) hs

/-- Every writer's view of its draft stays right. -/
theorem tracks_among (hq : Apart q target) (hx : ∀ x ∈ es, Among parent q target x)
    (ht : ∀ i, Tracks (q i) (s i) d) (hs : Steps d (es.map (·.2)) d') (i : ι) :
    Tracks (q i) ((own (some i) es).foldl Draft.step (s i)) d' := by
  induction es generalizing s d with
  | nil =>
    obtain rfl := hs
    exact ht i
  | cons x es ih =>
    obtain ⟨m, hm, hs⟩ := hs
    obtain ⟨hx, hxs⟩ := List.forall_mem_cons.mp hx
    have h := ih hxs (tracks_step hq hx ht hm) hs
    rwa [← List.foldl_append, ← own_append] at h

/-- The target is as it was and has never been replaced, or it has all of what one of the writers
wrote and found acceptable. -/
theorem target_among {accept : List β → Prop} {contents : ι → List β} (hq : Apart q target)
    (hx : ∀ x ∈ es, Among parent q target x) (ht : ∀ i, Tracks (q i) (s i) d)
    (hm : ∀ i, (drafting accept (contents i)).Meets (s i) (own (some i) es))
    (hs : Steps d (es.map (·.2)) d') :
    (d'.files target = d.files target ∧ ∀ i e, (some i, e) ∈ es → ¬ Renames e) ∨
      ∃ i, (∃ e, (some i, e) ∈ es) ∧ d'.files target = some (contents i) ∧
        accept (contents i) := by
  induction es generalizing s d with
  | nil =>
    obtain rfl := hs
    exact .inl ⟨rfl, nofun⟩
  | cons x es ih =>
    obtain ⟨m, hstep, hs⟩ := hs
    obtain ⟨hx, hxs⟩ := List.forall_mem_cons.mp hx
    have hms : ∀ i, (drafting accept (contents i)).Meets (s i) (own (some i) [x]) ∧
        (drafting accept (contents i)).Meets ((own (some i) [x]).foldl Draft.step (s i))
          (own (some i) es) := by
      intro i
      have h := hm i
      rw [show x :: es = [x] ++ es from rfl, own_append] at h
      exact (Monitor.meets_append ..).mp h
    obtain ⟨hsame, hno⟩ | ⟨i, ⟨e, he⟩, hnew⟩ :=
      ih hxs (tracks_step hq hx ht hstep) (fun i => (hms i).2) hs
    swap
    · exact .inr ⟨i, ⟨e, List.mem_cons_of_mem _ he⟩, hnew⟩
    obtain ⟨o, e⟩ := x
    cases o with
    | none =>
      refine .inl ⟨by rw [hsame, hstep.files, (hx.other rfl d.files).1], fun i e' h => ?_⟩
      obtain h | h := List.mem_cons.mp h
      · cases h
      · exact hno i e' h
    | some j =>
      obtain ⟨hr, hf⟩ | ⟨hr, hf, -⟩ := target_step (hx.writer j rfl) (hq.target j) hstep
      · refine .inl ⟨hsame.trans hf, fun i e' h => ?_⟩
        obtain h | h := List.mem_cons.mp h
        · obtain ⟨-, rfl⟩ := Prod.mk.inj h
          exact hr
        · exact hno i e' h
      · have hg := (hms j).1
        rw [own_self] at hg
        obtain ⟨hc, ha⟩ := (ht j).ready (guar_renames hr hg.1)
        exact .inr ⟨j, ⟨e, .head _⟩, (hsame.trans hf).trans hc, ha⟩

end FileSystem
