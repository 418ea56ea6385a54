import Claudepod.Async
import Claudepod.Fields

/-! Direct store paths, and the manifest of paths a session may fill. -/

set_option autoImplicit false

namespace Claudepod
open Interaction

/-- `path.display()`. -/
def display (path : Bytes) : String := fromUtf8Lossy path

def slash : UInt8 := 47
def dot : UInt8 := 46
def hyphen : UInt8 := 45
def newline : UInt8 := 10

def storePrefix : Bytes := utf8 "/nix/store/"

def directBasename (path : Bytes) : Except Error Bytes :=
  match storePrefix.isPrefixOf? path with
  | none => .error (.msg s!"not a /nix/store path: {display path}")
  | some basename =>
    if basename = [] ∨ slash ∈ basename then
      .error (.msg s!"not a direct /nix/store path: {display path}")
    else .ok basename

/-- The basename and where its first dash is. -/
def directNameParts (path : Bytes) : Except Error (Bytes × Nat) := do
  let basename ← directBasename path
  match basename.findIdx? (· == hyphen) with
  | none => .error (.msg s!"store path basename has no dash: {display path}")
  | some dash =>
    if dash = 0 ∨ dash + 1 = basename.length then
      .error (.msg s!"store path basename must be <hash>-<name>: {display path}")
    else .ok (basename, dash)

def validateDirect (path : Bytes) : Except Error Unit := (directNameParts path).map fun _ => ()

/-- A direct `/nix/store/<hash>-<name>` path. -/
def Direct (path : Bytes) : Prop :=
  ∃ hash name : Bytes, path = storePrefix ++ (hash ++ hyphen :: name) ∧ hash ≠ [] ∧ name ≠ [] ∧
    hyphen ∉ hash ∧ slash ∉ hash ∧ slash ∉ name

/-! ### Path components -/

/-- `std::path::Component`. -/
inductive Component where
  | rootDir | curDir | parentDir
  | normal (name : Bytes)
  deriving DecidableEq, Repr

def Component.single (name : Bytes) : Option Component :=
  if name = [] then none
  else if name = [dot] then none
  else if name = [dot, dot] then some .parentDir
  else some (.normal name)

/-- `Path::components`: doubled and trailing slashes and inner dots do not count. -/
def components (path : Bytes) : List Component :=
  let front :=
    if path.head? = some slash then [.rootDir]
    else if path = [dot] ∨ [dot, slash].isPrefixOf path then [.curDir]
    else []
  front ++ (path.splitOn slash).filterMap Component.single

/-! ### The manifest -/

/-- Paths compare by their components. -/
structure NixRunRoots where
  paths : List Bytes

def NixRunRoots.contains (roots : NixRunRoots) (path : Bytes) : Bool :=
  roots.paths.any fun p => components p == components path

/-- The lines of a manifest from line `lineNo` on; only the last may be empty. -/
def parseLines : Nat → List Bytes → Except Error (List Bytes)
  | _, [] => .ok []
  | lineNo, line :: rest =>
    if line = [] then
      if rest = [] then .ok [] else .error (.msg s!"blank line {lineNo}")
    else
      match validateDirect line with
      | .error e => .error (e.context s!"line {lineNo}")
      | .ok _ => (parseLines (lineNo + 1) rest).map (line :: ·)

def parseManifest (raw : Bytes) : Except Error NixRunRoots :=
  (parseLines 1 (raw.splitOn newline)).map NixRunRoots.mk

/-! ### Direct paths -/

theorem isPrefixOf?_eq_some {l x y : Bytes} : l.isPrefixOf? x = some y ↔ x = l ++ y := by
  induction l generalizing x with
  | nil => simp [List.isPrefixOf?, eq_comm]
  | cons a l ih =>
    cases x with
    | nil => simp [List.isPrefixOf?]
    | cons b x =>
      by_cases hab : a = b
      · simp [List.isPrefixOf?, hab, ih]
      · simp [List.isPrefixOf?, hab, Ne.symm hab]

/-- Where a hyphen is first found, the string splits. -/
theorem split_of_findHyphen {basename : Bytes} {dash : Nat}
    (h : basename.findIdx? (· == hyphen) = some dash) :
    ∃ hash name, basename = hash ++ hyphen :: name ∧ hash.length = dash ∧ hyphen ∉ hash := by
  obtain ⟨hlt, hp, hbefore⟩ := List.findIdx?_eq_some_iff_getElem.mp h
  refine ⟨basename.take dash, basename.drop (dash + 1), ?_, by simp; omega, fun hm => ?_⟩
  · have he : basename[dash] = hyphen := by simpa using hp
    rw [← he, ← List.drop_eq_getElem_cons hlt, List.take_append_drop]
  · obtain ⟨j, hj, he⟩ := List.mem_iff_getElem.mp hm
    rw [List.length_take] at hj
    refine hbefore j (by omega) ?_
    rw [List.getElem_take] at he
    simp [he]

/-- The parts of a direct path: its name is cut at the first dash. -/
def NameParts (path basename : Bytes) (dash : Nat) : Prop :=
  ∃ hash name : Bytes, path = storePrefix ++ basename ∧ basename = hash ++ hyphen :: name ∧
    dash = hash.length ∧ hash ≠ [] ∧ name ≠ [] ∧ hyphen ∉ hash ∧ slash ∉ hash ∧ slash ∉ name

theorem directNameParts_ok {path basename : Bytes} {dash : Nat} :
    directNameParts path = .ok (basename, dash) ↔ NameParts path basename dash := by
  unfold directNameParts directBasename
  constructor
  · intro h
    split at h
    · cases h
    · rename_i bn hb
      obtain rfl := isPrefixOf?_eq_some.mp hb
      by_cases hbad : bn = [] ∨ slash ∈ bn
      · rw [if_pos hbad] at h
        cases h
      · rw [if_neg hbad] at h
        simp only [bind, Except.bind] at h
        split at h
        · cases h
        · rename_i i hd
          obtain ⟨hash, name, rfl, rfl, hh⟩ := split_of_findHyphen hd
          by_cases hends : hash.length = 0 ∨ hash.length + 1 = (hash ++ hyphen :: name).length
          · rw [if_pos hends] at h
            cases h
          · rw [if_neg hends] at h
            obtain ⟨rfl, rfl⟩ := Prod.mk.inj (Except.ok.inj h)
            simp only [not_or, List.mem_append, List.mem_cons] at hbad hends
            refine ⟨hash, name, rfl, rfl, rfl, fun hn => hends.1 (by rw [hn]; rfl),
              fun hn => hends.2 ?_, hh, fun hm => hbad.2.1 hm, fun hm => hbad.2.2.2 hm⟩
            rw [hn, List.length_append]
            rfl
  · intro ⟨hash, name, hp, hb, hdash, hh, hn, hhy, hhs, hns⟩
    subst hp hb hdash
    have hb : storePrefix.isPrefixOf? (storePrefix ++ (hash ++ hyphen :: name)) =
        some (hash ++ hyphen :: name) := isPrefixOf?_eq_some.mpr rfl
    have hne : ¬ (hash ++ hyphen :: name = [] ∨ slash ∈ hash ++ hyphen :: name) := by
      simp [hhs, hns, show slash ≠ hyphen by decide]
    have hends : ¬ (hash.length = 0 ∨ hash.length + 1 = (hash ++ hyphen :: name).length) := by
      have h₁ := List.length_pos_of_ne_nil hh
      have h₂ := List.length_pos_of_ne_nil hn
      simp only [List.length_append, List.length_cons]
      omega
    simp only [hb, if_neg hne, bind, Except.bind, Fields.find_first hhy, if_neg hends]

theorem validateDirect_ok {path : Bytes} : validateDirect path = .ok () ↔ Direct path := by
  unfold validateDirect
  constructor
  · intro h
    cases hp : directNameParts path with
    | error e => simp [hp, Except.map] at h
    | ok parts =>
      obtain ⟨hash, name, h₁, h₂, -, hrest⟩ := directNameParts_ok.mp hp
      exact ⟨hash, name, by rw [h₁, h₂], hrest⟩
  · intro ⟨hash, name, hp, hrest⟩
    rw [directNameParts_ok.mpr ⟨hash, name, hp, rfl, rfl, hrest⟩]
    rfl

/-- A direct path has four components, and its bytes can be read off them. -/
theorem components_direct {hash name : Bytes} (hh : hash ≠ []) (hn : name ≠ [])
    (hhs : slash ∉ hash) (hns : slash ∉ name) :
    components (storePrefix ++ (hash ++ hyphen :: name)) =
      [.rootDir, .normal (utf8 "nix"), .normal (utf8 "store"),
        .normal (hash ++ hyphen :: name)] := by
  have hlast : (hash ++ hyphen :: name).splitOn slash = [hash ++ hyphen :: name] :=
    List.splitOn_eq_singleton (by simp [hhs, hns, show slash ≠ hyphen by decide])
  have hsplit : (storePrefix ++ (hash ++ hyphen :: name)).splitOn slash =
      [[], utf8 "nix", utf8 "store", hash ++ hyphen :: name] := by
    have h₁ : storePrefix = [] ++ slash :: (utf8 "nix" ++ slash :: (utf8 "store" ++ [slash])) := by
      decide
    rw [h₁, List.append_assoc, List.cons_append, List.append_assoc, List.cons_append,
      List.append_assoc, List.singleton_append,
      List.splitOn_append_cons_self_of_not_mem (by decide),
      List.splitOn_append_cons_self_of_not_mem (by decide),
      List.splitOn_append_cons_self_of_not_mem (by decide), hlast]
  have hsingle : Component.single (hash ++ hyphen :: name) =
      some (.normal (hash ++ hyphen :: name)) := by
    obtain ⟨b, hash, rfl⟩ := List.exists_cons_of_ne_nil hh
    obtain ⟨c, name, rfl⟩ := List.exists_cons_of_ne_nil hn
    have h : (b :: hash) ++ hyphen :: c :: name ≠ [dot, dot] := by
      cases hash <;> simp
    rw [Component.single, if_neg (by simp), if_neg (by simp), if_neg h]
  have hroot : (storePrefix ++ (hash ++ hyphen :: name)).head? = some slash := rfl
  simp only [components, hroot, ↓reduceIte, hsplit, List.filterMap_cons, hsingle,
    List.filterMap_nil]
  rfl

theorem Direct.eq_of_components {p q : Bytes} (hp : Direct p) (hq : Direct q)
    (h : components p = components q) : p = q := by
  obtain ⟨hash, name, rfl, hh, hn, -, hhs, hns⟩ := hp
  obtain ⟨hash', name', rfl, hh', hn', -, hhs', hns'⟩ := hq
  rw [components_direct hh hn hhs hns, components_direct hh' hn' hhs' hns'] at h
  simp only [List.cons.injEq, Component.normal.injEq, true_and, and_true] at h
  rw [h]

theorem parseLines_ok {n : Nat} {lines ps : List Bytes} (h : parseLines n lines = .ok ps) :
    ∀ p ∈ ps, Direct p ∧ p ∈ lines := by
  induction lines generalizing n ps with
  | nil =>
    obtain rfl := Except.ok.inj h
    simp
  | cons line rest ih =>
    unfold parseLines at h
    split at h
    · split at h
      · obtain rfl := Except.ok.inj h
        simp
      · cases h
    · split at h
      · cases h
      · rename_i hv
        cases hr : parseLines (n + 1) rest with
        | error e =>
          rw [hr] at h
          cases h
        | ok qs =>
          rw [hr] at h
          obtain rfl := Except.ok.inj h
          rintro p (_ | ⟨_, hp⟩)
          · exact ⟨validateDirect_ok.mp hv, .head _⟩
          · exact ⟨(ih hr p hp).1, .tail _ (ih hr p hp).2⟩

/-- A direct path a manifest contains is, byte for byte, one of its lines. -/
theorem mem_lines_of_contains {raw path : Bytes} {roots : NixRunRoots}
    (hm : parseManifest raw = .ok roots) (hc : roots.contains path = true) (hd : Direct path) :
    path ∈ raw.splitOn newline := by
  unfold parseManifest at hm
  cases hl : parseLines 1 (raw.splitOn newline) with
  | error e =>
    rw [hl] at hm
    cases hm
  | ok ps =>
    rw [hl] at hm
    obtain rfl := Except.ok.inj hm
    obtain ⟨p, hp, he⟩ := List.any_eq_true.mp hc
    obtain ⟨hdp, hpl⟩ := parseLines_ok hl p hp
    rwa [← hdp.eq_of_components hd (beq_iff_eq.mp he)]

end Claudepod
