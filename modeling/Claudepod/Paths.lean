import Claudepod.Volumes
import Mathlib.Data.List.DropRight

/-! The components of a path, whatever its spelling: two absolute paths are equal for `std::path`
when the names between their slashes are. -/

set_option autoImplicit false

namespace Claudepod
open Interaction

/-- Names that `Path::components` passes over. -/
def Skipped (name : Bytes) : Prop := name = [] ∨ name = [dot]

instance (name : Bytes) : Decidable (Skipped name) := by unfold Skipped; infer_instance

/-- The names between the slashes. -/
def segments (path : Bytes) : List Bytes := (path.splitOn slash).filter fun name => ¬ Skipped name

def Component.ofSegment (name : Bytes) : Component :=
  if name = [dot, dot] then .parentDir else .normal name

theorem ofSegment_injective {x y : Bytes} (h : Component.ofSegment x = Component.ofSegment y) :
    x = y := by
  unfold Component.ofSegment at h
  split at h <;> split at h <;> simp_all

theorem ofSegment_normal {name : Bytes} (h : name ≠ [dot, dot]) :
    Component.ofSegment name = .normal name := if_neg h

theorem filterMap_single (names : List Bytes) :
    names.filterMap Component.single =
      (names.filter fun name => ¬ Skipped name).map Component.ofSegment := by
  induction names with
  | nil => rfl
  | cons name names ih =>
    rw [List.filterMap_cons, ih]
    by_cases hs : Skipped name
    · have hn : Component.single name = none := by
        rcases hs with rfl | rfl <;> rfl
      simp [hn, hs]
    · have hn : Component.single name = some (Component.ofSegment name) := by
        unfold Skipped at hs
        simp only [not_or] at hs
        unfold Component.single Component.ofSegment
        rw [if_neg hs.1, if_neg hs.2]
        split <;> rfl
      simp [hn, hs]

theorem isAbsolute_iff {path : Bytes} : isAbsolute path = true ↔ ∃ rest, path = slash :: rest := by
  cases path <;> simp [isAbsolute]

theorem components_absolute {path : Bytes} (h : isAbsolute path = true) :
    components path = .rootDir :: (segments path).map Component.ofSegment := by
  obtain ⟨rest, rfl⟩ := isAbsolute_iff.mp h
  simp only [components, List.head?_cons, ↓reduceIte, filterMap_single]
  rfl

theorem rootDir_notMem_relative {path : Bytes} (h : isAbsolute path = false) :
    Component.rootDir ∉ components path := by
  intro hm
  rcases mem_components hm with ⟨-, ha⟩ | ⟨hc, -⟩ | ⟨hf, -⟩
  · simp [h] at ha
  · cases hc
  · exact Fields.sep_notMem_field hf (by simp [Component.bytes])

/-- A relative path that does not start with a dot is nothing but its names. -/
theorem components_plain {path : Bytes} (h : isAbsolute path = false)
    (hd : path.head? ≠ some dot) : components path = (segments path).map Component.ofSegment := by
  have hs : path.head? ≠ some slash := by simpa [isAbsolute] using h
  have hc : ¬ (path = [dot] ∨ [dot, slash].isPrefixOf path = true) := by
    intro hc
    rcases hc with rfl | hc
    · exact hd rfl
    · obtain ⟨rest, rfl⟩ := List.isPrefixOf_iff_prefix.mp hc
      exact hd rfl
  simp only [components, if_neg hs, if_neg hc, List.nil_append, filterMap_single]
  rfl

/-- An absolute path is equal to another when that is absolute and has the same names. -/
theorem components_eq_iff {p q : Bytes} (hp : isAbsolute p = true) :
    components p = components q ↔ isAbsolute q = true ∧ segments p = segments q := by
  rw [components_absolute hp]
  cases hq : isAbsolute q with
  | true =>
    rw [components_absolute hq, List.cons.injEq]
    simp only [true_and]
    exact List.map_inj_right fun x y => ofSegment_injective
  | false =>
    simp only [Bool.false_eq_true, false_and, iff_false]
    intro h
    exact rootDir_notMem_relative hq (h ▸ List.mem_cons_self)

theorem segments_nil : segments [] = [] := rfl

theorem segments_append (p q : Bytes) : segments (p ++ slash :: q) = segments p ++ segments q := by
  unfold segments
  rw [List.splitOn_append_cons_self, List.filter_append]

theorem segments_cons (q : Bytes) : segments (slash :: q) = segments q := segments_append [] q

/-- A name that is no other component. -/
structure Name (name : Bytes) : Prop where
  kept : ¬ Skipped name
  whole : slash ∉ name

theorem Name.ne_nil {name : Bytes} (h : Name name) : name ≠ [] := fun hn => h.kept (.inl hn)

theorem Name.relative {name : Bytes} (h : Name name) : isAbsolute name = false := by
  cases ha : isAbsolute name with
  | false => rfl
  | true =>
    obtain ⟨rest, rfl⟩ := isAbsolute_iff.mp ha
    exact absurd (List.mem_cons_self) h.whole

theorem Name.getLast_ne {name : Bytes} (h : Name name) (buf : Bytes) :
    (buf ++ slash :: name).getLast? ≠ some slash := by
  obtain ⟨front, b, rfl⟩ := (List.eq_nil_or_concat' name).resolve_left h.ne_nil
  have hb : b ≠ slash := fun hb => h.whole (by simp [hb])
  rw [← List.cons_append, ← List.append_assoc, List.getLast?_concat]
  simpa using hb

theorem segments_name {name : Bytes} (h : Name name) : segments name = [name] := by
  unfold segments
  rw [List.splitOn_eq_singleton h.whole]
  simp [h.kept]

theorem mem_segments {path name : Bytes} (h : name ∈ segments path) : Name name := by
  obtain ⟨hm, hk⟩ := List.mem_filter.mp h
  exact ⟨of_decide_eq_true hk, Fields.sep_notMem_field hm⟩

/-- The names behind one slash each. -/
def rooted (names : List Bytes) : Bytes := names.flatMap fun name => slash :: name

theorem segments_rooted {names : List Bytes} (h : ∀ name ∈ names, Name name) :
    segments (rooted names) = names := by
  induction names with
  | nil => rfl
  | cons name names ih =>
    obtain ⟨hn, hns⟩ := List.forall_mem_cons.mp h
    have hr : rooted (name :: names) = slash :: (name ++ rooted names) := rfl
    rw [hr, segments_cons]
    cases names with
    | nil => rw [rooted, List.flatMap_nil, List.append_nil, segments_name hn]
    | cons other names =>
      have hs := ih hns
      have hr : rooted (other :: names) = slash :: (other ++ rooted names) := rfl
      rw [hr, segments_cons] at hs
      rw [hr, segments_append, segments_name hn, hs]
      rfl

/-- The plainest spelling of an absolute path: one slash before each of its names. -/
def canonical (path : Bytes) : Bytes :=
  if ¬ isAbsolute path then path
  else if segments path = [] then [slash]
  else rooted (segments path)

/-! ### Joining -/

theorem isAbsolute_append {p q : Bytes} (h : p ≠ []) : isAbsolute (p ++ q) = isAbsolute p := by
  cases p with
  | nil => exact absurd rfl h
  | cons b p => rfl

theorem push_name {buf path : Bytes} (h : isAbsolute path = false) (hb : buf ≠ [])
    (hl : buf.getLast? ≠ some slash) : push buf path = buf ++ slash :: path := by
  unfold push
  rw [if_neg (by simp [h]), if_neg (by simp [hb, hl])]

theorem segments_push {buf path : Bytes} (h : isAbsolute path = false) :
    segments (push buf path) = segments buf ++ segments path := by
  by_cases hb : buf = []
  · subst hb
    simp [push, h, segments_nil]
  · by_cases hl : buf.getLast? = some slash
    · obtain ⟨front, rfl⟩ := List.getLast?_eq_some_iff.mp hl
      have hp : push (front ++ [slash]) path = front ++ slash :: path := by
        simp [push, h]
      rw [hp, segments_append, segments_append, segments_nil, List.append_nil]
    · rw [push_name h hb hl, segments_append]

theorem isAbsolute_push {buf path : Bytes} (hb : isAbsolute buf = true) :
    isAbsolute (push buf path) = true := by
  obtain ⟨rest, rfl⟩ := isAbsolute_iff.mp hb
  unfold push
  split
  · assumption
  · split <;> rfl

/-- What stands before the names of a path. -/
def front (path : Bytes) : List Component :=
  if path.head? = some slash then [.rootDir]
  else if path = [dot] ∨ [dot, slash].isPrefixOf path then [.curDir]
  else []

theorem components_front (path : Bytes) :
    components path = front path ++ (segments path).map Component.ofSegment := by
  simp only [components, filterMap_single]
  rfl

theorem front_append {buf : Bytes} (h : buf ≠ []) (path : Bytes) :
    front (buf ++ slash :: path) = front buf := by
  cases buf with
  | nil => exact absurd rfl h
  | cons b buf =>
    cases buf with
    | nil => simp [front, @eq_comm _ dot b]
    | cons c buf => simp [front]

/-- Joining a relative path appends its names. -/
theorem components_push {buf path : Bytes} (h : isAbsolute path = false) (hf : front path = []) :
    components (push buf path) = components buf ++ (segments path).map Component.ofSegment := by
  rw [components_front, segments_push h, List.map_append, components_front buf, List.append_assoc]
  congr 1
  by_cases hb : buf = []
  · subst hb
    rw [show push [] path = path by simp [push, h], hf]
    rfl
  · by_cases hl : buf.getLast? = some slash
    · obtain ⟨init, rfl⟩ := List.getLast?_eq_some_iff.mp hl
      rw [show push (init ++ [slash]) path = init ++ slash :: path by simp [push, h]]
      by_cases hi : init = []
      · subst hi
        rfl
      · rw [front_append hi, front_append hi]
    · rw [push_name h hb hl, front_append hb]

/-! ### Prefixes -/

/-- `Path::starts_with`. -/
def startsWith (path base : Bytes) : Bool := (components base).isPrefixOf (components path)

/-- `Path::file_name`. -/
def fileName (path : Bytes) : Option Bytes :=
  match (components path).getLast? with
  | some (.normal name) => some name
  | _ => none

/-- The names behind the first `n` that are not passed over. -/
def dropNames : List Bytes → Nat → List Bytes
  | names, 0 => names
  | [], _ + 1 => []
  | name :: names, n + 1 => if Skipped name then dropNames names (n + 1) else dropNames names n

/-- `Components::as_path`, which trims both ends. -/
def asPath (names : List Bytes) : Bytes :=
  [slash].intercalate
    ((names.dropWhile fun name => Skipped name).rdropWhile fun name => Skipped name)

/-- `Path::strip_prefix`, for a base that is not the empty path. -/
def stripPrefix (path base : Bytes) : Option Bytes :=
  if startsWith path base then some (asPath (dropNames (path.splitOn slash) (segments base).length))
  else none

theorem dropNames_subset (names : List Bytes) (n : Nat) : dropNames names n ⊆ names := by
  induction names, n using dropNames.induct with
  | case1 names => simp [dropNames]
  | case2 n => simp [dropNames]
  | case3 name names n hs ih =>
    rw [dropNames, if_pos hs]
    exact List.Subset.trans ih (List.subset_cons_self _ _)
  | case4 name names n hs ih =>
    rw [dropNames, if_neg hs]
    exact List.Subset.trans ih (List.subset_cons_self _ _)

theorem filter_dropNames (names : List Bytes) (n : Nat) :
    ((dropNames names n).filter fun name => ¬ Skipped name) =
      (names.filter fun name => ¬ Skipped name).drop n := by
  induction names, n using dropNames.induct with
  | case1 names => simp [dropNames]
  | case2 n => simp [dropNames]
  | case3 name names n hs ih => simpa [dropNames, hs] using ih
  | case4 name names n hs ih => simpa [dropNames, hs] using ih

theorem filter_dropWhile (names : List Bytes) :
    ((names.dropWhile fun name => Skipped name).filter fun name => ¬ Skipped name) =
      names.filter fun name => ¬ Skipped name := by
  induction names with
  | nil => rfl
  | cons name names ih =>
    by_cases hs : Skipped name
    · simpa [List.dropWhile_cons, hs] using ih
    · simp [hs]

theorem filter_rdropWhile (names : List Bytes) :
    ((names.rdropWhile fun name => Skipped name).filter fun name => ¬ Skipped name) =
      names.filter fun name => ¬ Skipped name := by
  rw [List.rdropWhile, List.filter_reverse, filter_dropWhile, List.filter_reverse,
    List.reverse_reverse]

/-- What is left after trimming is empty or starts with a name. -/
theorem asPath_cases (names : List Bytes) (h : ∀ name ∈ names, slash ∉ name) :
    (asPath names = [] ∧ (names.filter fun name => ¬ Skipped name) = []) ∨
      ∃ name rest, asPath names = [slash].intercalate (name :: rest) ∧ Name name ∧
        (∀ n ∈ name :: rest, slash ∉ n) ∧
        ((name :: rest).filter fun name => ¬ Skipped name) =
          names.filter fun name => ¬ Skipped name := by
  have hf := filter_rdropWhile (names.dropWhile fun name => Skipped name)
  rw [filter_dropWhile] at hf
  have hsub : ∀ n ∈ (names.dropWhile fun name => Skipped name).rdropWhile
      (fun name => Skipped name), n ∈ names.dropWhile fun name => Skipped name :=
    fun n hn => (List.rdropWhile_prefix _ _).subset hn
  unfold asPath
  cases ht : (names.dropWhile fun name => Skipped name).rdropWhile fun name => Skipped name with
  | nil =>
    rw [ht] at hf
    exact .inl ⟨rfl, hf.symm⟩
  | cons name rest =>
    rw [ht] at hf hsub
    have hall : ∀ n ∈ name :: rest, slash ∉ n := fun n hn =>
      h n ((List.dropWhile_sublist _).subset (hsub n hn))
    refine .inr ⟨name, rest, rfl, ⟨?_, hall name (by simp)⟩, hall, hf⟩
    -- the first name survived the trimming from the left
    obtain ⟨more, hm⟩ := List.rdropWhile_prefix (fun name => decide (Skipped name))
      (l := names.dropWhile fun name => Skipped name)
    rw [ht] at hm
    have hh := List.head?_dropWhile_not (fun name => decide (Skipped name)) names
    rw [← hm] at hh
    simpa using hh

theorem segments_asPath {names : List Bytes} (h : ∀ name ∈ names, slash ∉ name) :
    segments (asPath names) = names.filter fun name => ¬ Skipped name := by
  obtain ⟨he, hn⟩ | ⟨name, rest, he, -, hall, hf⟩ := asPath_cases names h
  · rw [he, hn, segments_nil]
  · rw [he, segments, List.splitOn_intercalate _ hall (by simp), hf]

theorem front_name {name : Bytes} (h : Name name) (rest : Bytes) :
    isAbsolute (name ++ rest) = false ∧ front (name ++ rest) = [] := by
  have ha : isAbsolute (name ++ rest) = false := by rw [isAbsolute_append h.ne_nil, h.relative]
  refine ⟨ha, ?_⟩
  have hs : (name ++ rest).head? ≠ some slash := by simpa [isAbsolute] using ha
  rw [front, if_neg hs, if_neg]
  have hk := h.kept
  have hw := h.whole
  cases name with
  | nil => exact absurd rfl h.ne_nil
  | cons b name =>
    cases name with
    | nil =>
      have hb : b ≠ dot := fun hb => hk (.inr (by rw [hb]))
      simp [hb, Ne.symm hb]
    | cons c name =>
      have hc : slash ≠ c := fun hc => hw (by simp [hc])
      simp [hc]

/-- What was trimmed can be joined to anything. -/
theorem front_asPath {names : List Bytes} (h : ∀ name ∈ names, slash ∉ name) :
    isAbsolute (asPath names) = false ∧ front (asPath names) = [] := by
  obtain ⟨he, -⟩ | ⟨name, rest, he, hn, -, -⟩ := asPath_cases names h
  · rw [he]
    exact ⟨rfl, rfl⟩
  · rw [he]
    cases rest with
    | nil => simpa using front_name hn []
    | cons other rest =>
      rw [List.intercalate_cons_cons, List.append_assoc]
      exact front_name hn _

theorem startsWith_iff {path base : Bytes} :
    startsWith path base = true ↔ components base <+: components path :=
  List.isPrefixOf_iff_prefix

/-- What `strip_prefix` leaves, joined to the base, has the components of the path. -/
theorem stripPrefix_ok {path base rel : Bytes} (hp : isAbsolute path = true)
    (hb : components base ≠ []) (h : stripPrefix path base = some rel) :
    isAbsolute rel = false ∧ front rel = [] ∧
      components path = components base ++ (segments rel).map Component.ofSegment := by
  unfold stripPrefix at h
  split at h
  · rename_i hs
    obtain rfl := Option.some.inj h
    have hw : ∀ name ∈ dropNames (path.splitOn slash) (segments base).length, slash ∉ name :=
      fun name hn => Fields.sep_notMem_field (dropNames_subset _ _ hn)
    obtain ⟨ha, hf⟩ := front_asPath hw
    refine ⟨ha, hf, ?_⟩
    have hpre := startsWith_iff.mp hs
    have hab : isAbsolute base = true := by
      cases hab : isAbsolute base with
      | true => rfl
      | false =>
        obtain ⟨c, cs, hc⟩ := List.exists_cons_of_ne_nil hb
        rw [hc, components_absolute hp, List.cons_prefix_cons] at hpre
        refine absurd ?_ (rootDir_notMem_relative hab)
        rw [hc, hpre.1]
        exact List.mem_cons_self
    rw [components_absolute hp, components_absolute hab, List.cons_prefix_cons] at hpre
    obtain ⟨more, hm⟩ := hpre.2
    obtain ⟨names, rest, hn, hl, -⟩ := List.map_eq_append_iff.mp hm.symm
    obtain rfl : names = segments base := (List.map_inj_right fun x y => ofSegment_injective).mp hl
    have hr : segments (asPath (dropNames (path.splitOn slash) (segments base).length)) = rest := by
      rw [segments_asPath hw, filter_dropNames]
      change (segments path).drop _ = rest
      rw [hn, List.drop_left]
    rw [components_absolute hp, components_absolute hab, hr, hn, List.map_append, List.cons_append]
  · cases h

end Claudepod
