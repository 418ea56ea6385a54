import Claudepod.Monitor
import Mathlib.Logic.Function.Basic

/-! Files that are replaced by renaming a draft over them. Any call may fail; renaming happens
at once. A writer's view of its draft is followed along its own calls, whatever the others do. -/

set_option autoImplicit false

namespace FileSystem
open Interaction

inductive Call (κ β : Type) where
  | createDirAll (dir : κ)
  | removeFile (path : κ)
  /-- The file must not exist. -/
  | createNew (path : κ)
  /-- To the end of a file that the caller has created. -/
  | write (path : κ) (data : List β)
  | syncAll (path : κ)
  | read (path : κ)
  | rename (src dst : κ)
  | openDir (dir : κ)

inductive Removal (ε : Type) where
  | done
  | notFound
  | fault (e : ε)

/-- A write tells how much of the data was taken. -/
def Answer {κ β : Type} (ε : Type) : Call κ β → Type
  | .createDirAll _ => Except ε Unit
  | .removeFile _ => Removal ε
  | .createNew _ => Except ε Unit
  | .write _ data => Except ε (Fin (data.length + 1))
  | .syncAll _ => Except ε Unit
  | .read _ => Except ε (List β)
  | .rename _ _ => Except ε Unit
  | .openDir _ => Except ε Unit

variable {κ β ε : Type} {parent : κ → κ}

abbrev Act (κ β ε : Type) := Event (Answer ε : Call κ β → Type)

/-- Files are in directories. -/
structure Disk (κ β : Type) (parent : κ → κ) where
  files : κ → Option (List β)
  dirs : κ → Prop
  rooted : ∀ p, files p ≠ none → dirs (parent p)

/-- The answers a disk can give. Most calls may fail at any time; making a directory fails only
where there is none. -/
def Honest (d : Disk κ β parent) : Act κ β ε → Prop
  | ⟨.createDirAll dir, .error _⟩ => ¬ d.dirs dir
  | ⟨.removeFile p, .done⟩ => d.files p ≠ none
  | ⟨.removeFile p, .notFound⟩ => d.files p = none
  | ⟨.createNew p, .ok _⟩ => d.files p = none
  | ⟨.write p _, .ok _⟩ => d.files p ≠ none
  | ⟨.read p, .ok raw⟩ => d.files p = some raw
  | ⟨.rename src _, .ok _⟩ => d.files src ≠ none
  | _ => True

/-! ### One draft -/

/-- What the writer of a draft knows. -/
structure Draft (β : Type) where
  /-- What is in the draft. -/
  content : Option (List β)
  /-- What was in the draft when it was read, and what reading gave. -/
  reads : List (Option (List β) × List β)
  /-- What was renamed to the target. -/
  replaced : Option (List β)
  /-- Some removal failed. -/
  kept : Bool

def Draft.step (s : Draft β) : Act κ β ε → Draft β
  | ⟨.createDirAll _, .error _⟩ => { s with content := none }
  | ⟨.removeFile _, .done⟩ => { s with content := none }
  | ⟨.removeFile _, .notFound⟩ => { s with content := none }
  | ⟨.removeFile _, .fault _⟩ => { s with kept := true }
  | ⟨.createNew _, .ok _⟩ => { s with content := some [] }
  | ⟨.write _ data, .ok k⟩ => { s with content := s.content.map (· ++ data.take k) }
  | ⟨.read _, .ok raw⟩ => { s with reads := (s.content, raw) :: s.reads }
  | ⟨.rename _ _, .ok _⟩ => { s with content := none, replaced := s.content }
  | _ => s

/-- The calls of a writer that drafts at `q` and replaces `target`. -/
def Own (parent : κ → κ) (q target : κ) : Act κ β ε → Prop
  | ⟨.createDirAll dir, _⟩ => dir = parent q
  | ⟨.removeFile p, _⟩ => p = q
  | ⟨.createNew p, _⟩ => p = q
  | ⟨.write p _, _⟩ => p = q
  | ⟨.read p, _⟩ => p = q
  | ⟨.rename src dst, _⟩ => src = q ∧ dst = target
  | ⟨.syncAll _, _⟩ => True
  | ⟨.openDir _, _⟩ => True

/-- The draft has all of `content`, and reading it back gave something acceptable. -/
def Draft.Ready (accept : List β → Prop) (content : List β) (s : Draft β) : Prop :=
  s.content = some content ∧ ∃ raw, (some content, raw) ∈ s.reads ∧ accept raw

/-- Only a draft that is ready may be renamed. -/
def drafting (accept : List β → Prop) (content : List β) :
    Monitor (Answer ε : Call κ β → Type) (Draft β) where
  step := Draft.step
  rely _ := True
  guar s
    | ⟨.rename _ _, .ok _⟩ => s.Ready accept content
    | _ => True

/-- The writer's view of its draft is right. -/
structure Tracks (q : κ) (s : Draft β) (d : Disk κ β parent) : Prop where
  content : s.content = d.files q
  reads : ∀ x ∈ s.reads, x.1 = some x.2

/-- The answer to a renaming that was carried out. -/
def Renames : Act κ β ε → Prop
  | ⟨.rename _ _, .ok _⟩ => True
  | _ => False

variable {q q' target : κ} {s : Draft β} {d d' : Disk κ β parent} {e : Act κ β ε}
  {accept : List β → Prop} {content : List β}

theorem guar_renames (hr : Renames e) (h : (drafting accept content).guar s e) :
    s.Ready accept content := by
  obtain ⟨o, r⟩ := e
  cases o with
  | rename src dst =>
    cases r with
    | ok u => exact h
    | error e => exact hr.elim
  | _ => exact hr.elim

theorem step_renames (hr : Renames e) :
    (s.step e).replaced = s.content := by
  obtain ⟨o, r⟩ := e
  cases o with
  | rename src dst =>
    cases r with
    | ok u => rfl
    | error e => exact hr.elim
  | _ => exact hr.elim

theorem step_not_renames (hr : ¬ Renames e) : (s.step e).replaced = s.replaced := by
  obtain ⟨o, r⟩ := e
  cases o <;> cases r <;> first | rfl | exact absurd trivial hr

/-- What a ready draft holds is acceptable. -/
theorem Tracks.ready (h : Tracks q s d) (hr : s.Ready accept content) :
    d.files q = some content ∧ accept content := by
  obtain ⟨hc, raw, hm, ha⟩ := hr
  have he : some content = some raw := h.reads _ hm
  exact ⟨h.content ▸ hc, Option.some.inj he ▸ ha⟩

theorem kept_step (hk : (s.step e).kept = true) :
    s.kept = true ∨ ∃ p x, e = ⟨.removeFile p, .fault x⟩ := by
  obtain ⟨o, r⟩ := e
  cases o with
  | removeFile p =>
    cases r with
    | fault x => exact .inr ⟨p, x, rfl⟩
    | done => exact .inl hk
    | notFound => exact .inl hk
  | _ => cases r <;> exact .inl hk

theorem kept_run {es : List (Act κ β ε)} (hk : (es.foldl Draft.step s).kept = true) :
    s.kept = true ∨ ∃ p x, (⟨.removeFile p, .fault x⟩ : Act κ β ε) ∈ es := by
  induction es generalizing s with
  | nil => exact .inl hk
  | cons e es ih =>
    obtain hk | ⟨p, x, hm⟩ := ih hk
    · obtain hk | ⟨p, x, he⟩ := kept_step hk
      · exact .inl hk
      · exact .inr ⟨p, x, by simp [he]⟩
    · exact .inr ⟨p, x, by simp [hm]⟩

/-- A view before the first call. -/
def Draft.fresh (content : Option (List β)) : Draft β := ⟨content, [], none, false⟩

theorem Tracks.fresh (q : κ) (d : Disk κ β parent) : Tracks q (Draft.fresh (d.files q)) d :=
  ⟨rfl, fun _ hx => by cases hx⟩

/-! ### The disk -/

variable [DecidableEq κ]

/-- What an answered call does to the files. -/
def effect (files : κ → Option (List β)) : Act κ β ε → κ → Option (List β)
  | ⟨.removeFile p, .done⟩ => Function.update files p none
  | ⟨.createNew p, .ok _⟩ => Function.update files p (some [])
  | ⟨.write p data, .ok k⟩ => Function.update files p ((files p).map (· ++ data.take k))
  | ⟨.rename src dst, .ok _⟩ => Function.update (Function.update files dst (files src)) src none
  | _ => files

structure Step (d : Disk κ β parent) (e : Act κ β ε) (d' : Disk κ β parent) : Prop where
  honest : Honest d e
  files : d'.files = effect d.files e
  /-- Directories stay. -/
  dirs : ∀ p, d.dirs p → d'.dirs p

def Steps : Disk κ β parent → List (Act κ β ε) → Disk κ β parent → Prop
  | d, [], d' => d' = d
  | d, e :: es, d' => ∃ m, Step d e m ∧ Steps m es d'

/-- Its own calls keep it right. -/
theorem Tracks.own (h : Tracks q s d) (ho : Own parent q target e) (hn : q ≠ target)
    (hs : Step d e d') : Tracks q (s.step e) d' := by
  obtain ⟨hh, hf, -⟩ := hs
  have hc := h.content
  obtain ⟨o, r⟩ := e
  cases o with
  | createDirAll dir =>
    cases r with
    | ok u => exact ⟨by rw [hf]; exact hc, h.reads⟩
    | error e =>
      obtain rfl : dir = parent q := ho
      have hq : d.files q = none := Classical.byContradiction fun hq => hh (d.rooted q hq)
      exact ⟨by rw [hf]; exact hq.symm, h.reads⟩
  | removeFile p =>
    obtain rfl : p = q := ho
    cases r with
    | done => exact ⟨by simp [hf, effect, Draft.step], h.reads⟩
    | notFound =>
      have hq : d.files p = none := hh
      exact ⟨by rw [hf]; exact hq.symm, h.reads⟩
    | fault e => exact ⟨by rw [hf]; exact hc, h.reads⟩
  | createNew p =>
    obtain rfl : p = q := ho
    cases r with
    | ok u => exact ⟨by simp [hf, effect, Draft.step], h.reads⟩
    | error e => exact ⟨by rw [hf]; exact hc, h.reads⟩
  | write p data =>
    obtain rfl : p = q := ho
    cases r with
    | ok k => exact ⟨by simp [hf, effect, Draft.step, hc], h.reads⟩
    | error e => exact ⟨by rw [hf]; exact hc, h.reads⟩
  | syncAll p =>
    cases r with
    | ok u => exact ⟨by rw [hf]; exact hc, h.reads⟩
    | error e => exact ⟨by rw [hf]; exact hc, h.reads⟩
  | read p =>
    obtain rfl : p = q := ho
    cases r with
    | ok raw =>
      have hq : d.files p = some raw := hh
      refine ⟨by rw [hf]; exact hc, fun x hx => ?_⟩
      obtain rfl | hx := List.mem_cons.mp hx
      · exact hc.trans hq
      · exact h.reads x hx
    | error e => exact ⟨by rw [hf]; exact hc, h.reads⟩
  | rename src dst =>
    obtain ⟨rfl, rfl⟩ : src = q ∧ dst = target := ho
    cases r with
    | ok u => exact ⟨by simp [hf, effect, Draft.step], h.reads⟩
    | error e => exact ⟨by rw [hf]; exact hc, h.reads⟩
  | openDir dir =>
    cases r with
    | ok u => exact ⟨by rw [hf]; exact hc, h.reads⟩
    | error e => exact ⟨by rw [hf]; exact hc, h.reads⟩

/-- A writer touches its draft and the target, and the target only by renaming. -/
theorem effect_frame (files : κ → Option (List β)) {p : κ} (ho : Own parent q target e)
    (hq : p ≠ q) (hn : p ≠ target) : effect files e p = files p := by
  obtain ⟨o, r⟩ := e
  cases o with
  | createDirAll dir => rfl
  | removeFile p' =>
    obtain rfl : p' = q := ho
    cases r <;> simp [effect, hq]
  | createNew p' =>
    obtain rfl : p' = q := ho
    cases r <;> simp [effect, hq]
  | write p' data =>
    obtain rfl : p' = q := ho
    cases r <;> simp [effect, hq]
  | syncAll p' => rfl
  | read p' => rfl
  | rename src dst =>
    obtain ⟨rfl, rfl⟩ : src = q ∧ dst = target := ho
    cases r <;> simp [effect, hq, hn]
  | openDir dir => rfl

/-- The calls of others do not touch it. -/
theorem Tracks.other (h : Tracks q s d) (ho : Own parent q' target e) (hq : q ≠ q')
    (hn : q ≠ target) (hs : Step d e d') : Tracks q s d' :=
  ⟨by rw [h.content, hs.files, effect_frame d.files ho hq hn], h.reads⟩

/-- The target changes by renaming, and is then what the draft was. -/
theorem target_step (ho : Own parent q target e) (hn : q ≠ target) (hs : Step d e d') :
    (¬ Renames e ∧ d'.files target = d.files target) ∨
      (Renames e ∧ d'.files target = d.files q ∧ d.files q ≠ none) := by
  obtain ⟨hh, hf, -⟩ := hs
  rw [hf]
  obtain ⟨o, r⟩ := e
  cases o with
  | createDirAll dir => exact .inl ⟨id, rfl⟩
  | removeFile p =>
    obtain rfl : p = q := ho
    cases r <;> exact .inl ⟨id, by simp [effect, Ne.symm hn]⟩
  | createNew p =>
    obtain rfl : p = q := ho
    cases r <;> exact .inl ⟨id, by simp [effect, Ne.symm hn]⟩
  | write p data =>
    obtain rfl : p = q := ho
    cases r <;> exact .inl ⟨id, by simp [effect, Ne.symm hn]⟩
  | syncAll p => exact .inl ⟨id, rfl⟩
  | read p => exact .inl ⟨id, rfl⟩
  | rename src dst =>
    obtain ⟨rfl, rfl⟩ : src = q ∧ dst = target := ho
    cases r with
    | ok u => exact .inr ⟨trivial, by simp [effect, Ne.symm hn], hh⟩
    | error e => exact .inl ⟨id, rfl⟩
  | openDir dir => exact .inl ⟨id, rfl⟩

/-! ### One writer -/

/-- A whole run of one writer: its view stays right, and the target is what it last renamed. -/
theorem Tracks.run {es : List (Act κ β ε)} (old : Option (List β)) (h : Tracks q s d)
    (ho : ∀ e ∈ es, Own parent q target e) (hn : q ≠ target)
    (ht : d.files target = (s.replaced <|> old)) (hs : Steps d es d') :
    Tracks q (es.foldl Draft.step s) d' ∧
      d'.files target = ((es.foldl Draft.step s).replaced <|> old) := by
  induction es generalizing s d with
  | nil =>
    obtain rfl := hs
    exact ⟨h, ht⟩
  | cons e es ih =>
    obtain ⟨m, hm, hs⟩ := hs
    obtain ⟨hoe, hos⟩ := List.forall_mem_cons.mp ho
    refine ih (h.own hoe hn hm) hos ?_ hs
    obtain ⟨hr, hf⟩ | ⟨hr, hf, hne⟩ := target_step hoe hn hm
    · rw [hf, ht, step_not_renames hr]
    · rw [hf, step_renames hr, h.content]
      cases hq : d.files q with
      | none => exact absurd hq hne
      | some c => rfl

/-! ### Many writers -/

variable {ι ζ α : Type} [DecidableEq ι]

/-- The calls of writer `i`. -/
def calls (i : ι) (es : List (ι × Act κ β ε)) : List (Act κ β ε) :=
  (es.filter fun x => x.1 = i).map (·.2)

/-- Each writer has come some way; it may have been cut off there. -/
def Interleaved (p : ι → Comp (Answer ε : Call κ β → Type) ζ α) (es : List (ι × Act κ β ε)) :
    Prop := ∀ i, ∃ rest r, (p i).Runs (calls i es ++ rest) r

omit [DecidableEq κ] in
theorem calls_cons (i j : ι) (e : Act κ β ε) (es : List (ι × Act κ β ε)) :
    calls i ((j, e) :: es) = if j = i then e :: calls i es else calls i es := by
  unfold calls
  rw [List.filter_cons]
  split <;> simp_all

omit [DecidableEq κ] in
theorem mem_calls {i : ι} {e : Act κ β ε} {es : List (ι × Act κ β ε)} (h : (i, e) ∈ es) :
    e ∈ calls i es :=
  List.mem_map.mpr ⟨(i, e), List.mem_filter.mpr ⟨h, by simp⟩, rfl⟩

/-- Whatever the writers do at once, the target stays as it was or has all of what one of them
wrote and found acceptable. -/
theorem target_whole {es : List (ι × Act κ β ε)} {q : ι → κ} {contents : ι → List β}
    {s : ι → Draft β} (hinj : ∀ i j, q i = q j → i = j) (hn : ∀ i, q i ≠ target)
    (ho : ∀ x ∈ es, Own parent (q x.1) target x.2) (ht : ∀ i, Tracks (q i) (s i) d)
    (hm : ∀ i, (drafting accept (contents i)).Meets (s i) (calls i es))
    (hs : Steps d (es.map (·.2)) d') :
    d'.files target = d.files target ∨
      ∃ i, d'.files target = some (contents i) ∧ accept (contents i) := by
  induction es generalizing s d with
  | nil =>
    obtain rfl := hs
    exact .inl rfl
  | cons x es ih =>
    obtain ⟨j, e⟩ := x
    obtain ⟨m, hstep, hs⟩ := hs
    obtain ⟨hoe, hos⟩ := List.forall_mem_cons.mp ho
    have hmj := hm j
    rw [calls_cons, if_pos rfl] at hmj
    have htrack : ∀ i, Tracks (q i) (if j = i then (s i).step e else s i) m := by
      intro i
      split
      · rename_i hij
        subst hij
        exact (ht j).own hoe (hn j) hstep
      · rename_i hij
        exact (ht i).other hoe (fun h => hij (hinj _ _ h).symm) (hn i) hstep
    have hmeets : ∀ i, (drafting accept (contents i)).Meets
        (if j = i then (s i).step e else s i) (calls i es) := by
      intro i
      have hmi := hm i
      rw [calls_cons] at hmi
      split
      · rename_i hij
        rw [if_pos hij] at hmi
        exact hmi.2
      · rename_i hij
        rwa [if_neg hij] at hmi
    obtain hsame | hnew := ih hos htrack hmeets hs
    · rw [hsame]
      obtain ⟨-, hf⟩ | ⟨hr, hf, -⟩ := target_step hoe (hn j) hstep
      · exact .inl hf
      · obtain ⟨hc, ha⟩ := (ht j).ready (guar_renames hr hmj.1)
        exact .inr ⟨j, hf.trans hc, ha⟩
    · exact .inr hnew

end FileSystem
