import Claudepod.Paths

/-! Where the manifest of run roots is cached: by guest system and by the package universe. -/

set_option autoImplicit false

namespace Claudepod
open Interaction

def directHash (path : Bytes) : Except Error Bytes := do
  let (basename, dash) ← directNameParts path
  if isUtf8 basename then .ok (basename.take dash)
  else .error (.msg s!"store path is not valid UTF-8: {display path}")

def cachePathSegment (name : String) (value : Bytes) : Except Error Bytes :=
  if value = [] ∨ slash ∈ value ∨ value = [dot] ∨ value = [dot, dot] then
    .error (.msg s!"{name} is not a valid cache path segment")
  else if isUtf8 value then .ok value
  else .error (.msg s!"{name} is not valid UTF-8")

def nixRunRootsManifestRelativePath (guestSystem nixpkgs : Bytes) : Except Error Bytes := do
  let guestSystem ← cachePathSegment "CLAUDEPOD_GUEST_SYSTEM" guestSystem
  let nixpkgsHash ← (directHash nixpkgs).mapError
    (Error.context s!"parse CLAUDEPOD_NIXPKGS={fromUtf8Lossy nixpkgs}")
  pure (push (push (push (utf8 "nix-run-roots") (utf8 "v1")) guestSystem)
    (nixpkgsHash ++ utf8 ".txt"))

/-! ### The inputs -/

/-- The part of a store path that stands for its package universe. -/
def HashPart (path hash : Bytes) : Prop :=
  ∃ name : Bytes, path = storePrefix ++ (hash ++ hyphen :: name) ∧ hash ≠ [] ∧ hyphen ∉ hash ∧
    slash ∉ hash

theorem HashPart.unique {path hash other : Bytes} (h : HashPart path hash)
    (h' : HashPart path other) : hash = other := by
  obtain ⟨name, rfl, -, hh, -⟩ := h
  obtain ⟨name', he, -, hh', -⟩ := h'
  have hf := congrArg (fun x => List.findIdx? (· == hyphen) x) (List.append_cancel_left he)
  simp only [Fields.find_first hh, Fields.find_first hh', Option.some.injEq] at hf
  exact (List.append_inj (List.append_cancel_left he) hf).1

theorem directHash_ok {path hash : Bytes} (h : directHash path = .ok hash) :
    HashPart path hash := by
  unfold directHash at h
  obtain ⟨⟨basename, dash⟩, hp, h⟩ := bind_eq_ok h
  obtain ⟨hash', name, rfl, rfl, rfl, hne, -, hhy, hsl, -⟩ := directNameParts_ok.mp hp
  dsimp only at h
  split at h
  · obtain rfl := Except.ok.inj h
    rw [List.take_left]
    exact ⟨name, rfl, hne, hhy, hsl⟩
  · cases h

theorem cachePathSegment_ok {name : String} {value segment : Bytes}
    (h : cachePathSegment name value = .ok segment) :
    segment = value ∧ Name value ∧ value ≠ [dot, dot] := by
  unfold cachePathSegment at h
  split at h
  · cases h
  · rename_i hv
    simp only [not_or] at hv
    split at h
    · refine ⟨(Except.ok.inj h).symm, ⟨?_, hv.2.1⟩, hv.2.2.2⟩
      unfold Skipped
      exact not_or.mpr ⟨hv.1, hv.2.2.1⟩
    · cases h

/-! ### The path -/

theorem HashPart.file {path hash : Bytes} (h : HashPart path hash) :
    Name (hash ++ utf8 ".txt") ∧ hash ++ utf8 ".txt" ≠ [dot, dot] := by
  obtain ⟨name, -, hne, -, hs⟩ := h
  obtain ⟨b, hash, rfl⟩ := List.exists_cons_of_ne_nil hne
  have ht : slash ∉ utf8 ".txt" := by decide
  have hl : (utf8 ".txt").length = 4 := by decide
  have hlen : ∀ x : Bytes, x.length ≤ 2 → b :: hash ++ utf8 ".txt" ≠ x := by
    intro x hx he
    have := congrArg List.length he
    rw [List.length_append, List.length_cons, hl] at this
    omega
  refine ⟨⟨?_, ?_⟩, hlen _ (by simp)⟩
  · intro hsk
    rcases hsk with hsk | hsk
    · exact hlen _ (by simp) hsk
    · exact hlen _ (by simp) hsk
  · rw [List.mem_append, not_or]
    exact ⟨hs, ht⟩

/-- The names of the path are its own two and one for each input. -/
def cacheNames (guestSystem hash : Bytes) : List Bytes :=
  [utf8 "nix-run-roots", utf8 "v1", guestSystem, hash ++ utf8 ".txt"]

theorem relativePath_ok {guestSystem nixpkgs path : Bytes}
    (h : nixRunRootsManifestRelativePath guestSystem nixpkgs = .ok path) :
    ∃ hash, HashPart nixpkgs hash ∧ Name guestSystem ∧ guestSystem ≠ [dot, dot] ∧
      path = utf8 "nix-run-roots" ++ slash :: (utf8 "v1" ++ slash :: (guestSystem ++
        slash :: (hash ++ utf8 ".txt"))) := by
  unfold nixRunRootsManifestRelativePath at h
  obtain ⟨segment, hc, hrest⟩ := bind_eq_ok h
  obtain ⟨hash, hd, hpath⟩ := bind_eq_ok hrest
  obtain ⟨rfl, hn, hdd⟩ := cachePathSegment_ok hc
  have hp := directHash_ok (mapError_eq_ok hd)
  refine ⟨hash, hp, hn, hdd, ?_⟩
  have h₁ : push (utf8 "nix-run-roots") (utf8 "v1") = utf8 "nix-run-roots/v1" := by decide
  have h₂ : push (utf8 "nix-run-roots/v1") segment =
      utf8 "nix-run-roots/v1" ++ slash :: segment :=
    push_name hn.relative (by decide) (by decide)
  rw [← Except.ok.inj hpath, h₁, h₂, push_name hp.file.1.relative (by simp) (hn.getLast_ne _)]
  have h₃ : utf8 "nix-run-roots/v1" = utf8 "nix-run-roots" ++ slash :: utf8 "v1" := by decide
  rw [h₃]
  simp

theorem cacheNames_injective {guestSystem guestSystem' hash hash' : Bytes} :
    cacheNames guestSystem hash = cacheNames guestSystem' hash' ↔
      guestSystem = guestSystem' ∧ hash = hash' := by
  simp [cacheNames]

/-- The path has four names, none of which is a dot or two. -/
structure CachePath (guestSystem hash path : Bytes) : Prop where
  names : path.splitOn slash = cacheNames guestSystem hash
  components : components path = (cacheNames guestSystem hash).map .normal

theorem relativePath_names {guestSystem nixpkgs path : Bytes}
    (h : nixRunRootsManifestRelativePath guestSystem nixpkgs = .ok path) :
    ∃ hash, HashPart nixpkgs hash ∧ CachePath guestSystem hash path := by
  obtain ⟨hash, hp, hn, hdd, rfl⟩ := relativePath_ok h
  obtain ⟨hf, hfd⟩ := hp.file
  refine ⟨hash, hp, ?_, ?_⟩
  · rw [List.splitOn_append_cons_self_of_not_mem (by decide),
      List.splitOn_append_cons_self_of_not_mem (by decide),
      List.splitOn_append_cons_self_of_not_mem hn.whole, List.splitOn_eq_singleton hf.whole]
    rfl
  · have hsplit : segments (utf8 "nix-run-roots" ++ slash :: (utf8 "v1" ++ slash :: (guestSystem ++
        slash :: (hash ++ utf8 ".txt")))) = cacheNames guestSystem hash := by
      have h₁ : Name (utf8 "nix-run-roots") := ⟨by decide, by decide⟩
      have h₂ : Name (utf8 "v1") := ⟨by decide, by decide⟩
      rw [segments_append, segments_append, segments_append, segments_name h₁, segments_name h₂,
        segments_name hn, segments_name hf]
      rfl
    have hd : some (110 : UInt8) ≠ some dot := by decide
    rw [components_plain (by rfl) (by exact hd), hsplit]
    simp [cacheNames, ofSegment_normal hdd, ofSegment_normal hfd,
      ofSegment_normal (show utf8 "nix-run-roots" ≠ [dot, dot] by decide),
      ofSegment_normal (show utf8 "v1" ≠ [dot, dot] by decide)]

/-- A cached manifest has four plain names, and two pairs of inputs share one exactly if they
have the same guest system and the same hash part. -/
theorem cache_keys :
    (∀ guestSystem nixpkgs path : Bytes,
      nixRunRootsManifestRelativePath guestSystem nixpkgs = .ok path →
        isAbsolute path = false ∧ guestSystem ≠ [] ∧ guestSystem ≠ [dot] ∧
          guestSystem ≠ [dot, dot] ∧
          ∃ hash, HashPart nixpkgs hash ∧ CachePath guestSystem hash path) ∧
    ∀ guestSystem nixpkgs path guestSystem' nixpkgs' path' hash hash' : Bytes,
      nixRunRootsManifestRelativePath guestSystem nixpkgs = .ok path →
      nixRunRootsManifestRelativePath guestSystem' nixpkgs' = .ok path' →
      HashPart nixpkgs hash → HashPart nixpkgs' hash' →
        (path = path' ↔ guestSystem = guestSystem' ∧ hash = hash') ∧
        (components path = components path' ↔ guestSystem = guestSystem' ∧ hash = hash') := by
  constructor
  · intro guestSystem nixpkgs path h
    obtain ⟨hash, -, hn, hdd, rfl⟩ := relativePath_ok h
    exact ⟨rfl, hn.ne_nil, fun hd => hn.kept (.inr hd), hdd, relativePath_names h⟩
  · intro guestSystem nixpkgs path guestSystem' nixpkgs' path' hash hash' h h' hp hp'
    obtain ⟨hash₁, hp₁, hc⟩ := relativePath_names h
    obtain ⟨hash₂, hp₂, hc'⟩ := relativePath_names h'
    obtain rfl := hp.unique hp₁
    obtain rfl := hp'.unique hp₂
    have hback : guestSystem = guestSystem' ∧ hash = hash' → path = path' := by
      intro he
      have hs : path.splitOn slash = path'.splitOn slash := by
        rw [hc.names, hc'.names, cacheNames_injective.mpr he]
      rw [← @List.intercalate_splitOn _ path _ _ slash, hs, List.intercalate_splitOn]
    refine ⟨⟨fun he => ?_, hback⟩, ⟨fun he => ?_, fun he => by rw [hback he]⟩⟩
    · have hs := congrArg (List.splitOn slash) he
      rw [hc.names, hc'.names] at hs
      exact cacheNames_injective.mp hs
    · rw [hc.components, hc'.components] at he
      exact cacheNames_injective.mp
        (List.map_injective_iff.mpr (fun x y hxy => Component.normal.inj hxy) he)

theorem cache_keys_sample :
    (isAbsolute (utf8 "nix-run-roots/v1/x86_64-linux/abc.txt") = false ∧
      utf8 "x86_64-linux" ≠ [] ∧ utf8 "x86_64-linux" ≠ [dot] ∧ utf8 "x86_64-linux" ≠ [dot, dot] ∧
      ∃ hash, HashPart (utf8 "/nix/store/abc-source") hash ∧
        CachePath (utf8 "x86_64-linux") hash (utf8 "nix-run-roots/v1/x86_64-linux/abc.txt")) ∧
    (utf8 "nix-run-roots/v1/x86_64-linux/abc.txt" = utf8 "nix-run-roots/v1/x86_64-linux/abc.txt" ↔
      utf8 "x86_64-linux" = utf8 "x86_64-linux" ∧ utf8 "abc" = utf8 "abc") :=
  ⟨cache_keys.1 _ (utf8 "/nix/store/abc-source") _ (by decide +kernel),
    (cache_keys.2 _ (utf8 "/nix/store/abc-source") _ _ (utf8 "/nix/store/abc-other") _ _ _
      (by decide +kernel) (by decide +kernel)
      ⟨utf8 "source", by decide, by decide, by decide, by decide⟩
      ⟨utf8 "other", by decide, by decide, by decide, by decide⟩).1⟩

end Claudepod
