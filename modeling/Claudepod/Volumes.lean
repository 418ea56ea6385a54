import Claudepod.StorePath
import Mathlib.Data.List.TakeWhile

/-! Podman's `-v` arguments: the launcher's own mounts and those of the user. -/

set_option autoImplicit false

namespace Claudepod
open Interaction

def colon : UInt8 := 58

/-! ### `std::path` -/

/-- `Path::is_absolute`. -/
def isAbsolute (path : Bytes) : Bool := path.head? == some slash

def Component.bytes : Component → Bytes
  | .rootDir => [slash]
  | .curDir => [dot]
  | .parentDir => [dot, dot]
  | .normal name => name

/-- `PathBuf::push`. -/
def push (buf path : Bytes) : Bytes :=
  if isAbsolute path then path
  else if buf = [] ∨ buf.getLast? = some slash then buf ++ path
  else buf ++ slash :: path

/-- `strip_prefix(".")`, where there is one. -/
def stripCurDir : List Component → List Component
  | .curDir :: cs => cs
  | cs => cs

/-- What `absolute` starts from: exactly two leading slashes are kept. -/
def absoluteFrom (currentDir : Except Error Bytes) (path : Bytes) :
    Except Error (Bytes × List Component) :=
  let cs := stripCurDir (components path)
  if isAbsolute path then
    if [slash, slash].isPrefixOf path ∧ ¬ [slash, slash, slash].isPrefixOf path then
      .ok ([slash, slash], cs.drop 1)
    else .ok ([], cs)
  else currentDir.map fun dir => (dir, cs)

/-- `std::path::absolute`. -/
def absolute (currentDir : Except Error Bytes) (path : Bytes) : Except Error Bytes :=
  if path = [] then .error (.msg "cannot make an empty path absolute")
  else
    (absoluteFrom currentDir path).map fun (start, cs) =>
      let normalized := cs.foldl (fun buf c => push buf c.bytes) start
      if path.getLast? = some slash then push normalized [] else normalized

/-! ### The arguments -/

def rejectColonPath (label : String) (path : Bytes) : Except Error Unit :=
  if colon ∈ path then
    .error (.msg (label ++ " path contains ':' and cannot be encoded as a podman volume spec: " ++
      display path))
  else .ok ()

def volumeSpec (host guest : Bytes) (options : Option String) : Except Error Bytes := do
  rejectColonPath "host volume" host
  rejectColonPath "guest volume" guest
  pure (host ++ colon :: guest ++ match options with
    | some options => colon :: utf8 options
    | none => [])

/-- The host side of a spec, and the rest from its colon on. -/
def splitHost (spec : Bytes) : Bytes × Bytes :=
  match spec.findIdx? (· == colon) with
  | some i => (spec.take i, spec.drop i)
  | none => (spec, [])

/-- A user `-v` spec: `path` or `host:guest[:options]`. -/
def extraVolumeSpec (currentDir : Except Error Bytes) (spec : Bytes) : Except Error Bytes := do
  let (host, guestAndOptions) := splitHost spec
  let host ← (absolute currentDir host).mapError
    (Error.context s!"resolve volume spec {display spec}")
  pure (if guestAndOptions = [] then host ++ colon :: host else host ++ guestAndOptions)

/-- How podman reads a `-v` argument: host, guest and options. -/
def volumeFields (arg : Bytes) : List Bytes := arg.splitOn colon

/-- The part of a spec before its first colon. -/
def specHost (spec : Bytes) : Bytes := spec.takeWhile (· ≠ colon)

/-! ### Absolute paths -/

theorem mem_push {buf path : Bytes} {b : UInt8} (h : b ∈ push buf path) :
    b ∈ buf ∨ b ∈ path ∨ b = slash := by
  unfold push at h
  split at h
  · exact .inr (.inl h)
  · split at h
    · rcases List.mem_append.mp h with h | h
      · exact .inl h
      · exact .inr (.inl h)
    · rcases List.mem_append.mp h with h | h
      · exact .inl h
      · rcases List.mem_cons.mp h with h | h
        · exact .inr (.inr h)
        · exact .inr (.inl h)

theorem prefix_push {buf path : Bytes} (h : isAbsolute path = false) : buf <+: push buf path := by
  unfold push
  rw [if_neg (by simp [h])]
  split
  · exact List.prefix_append _ _
  · exact List.prefix_append _ _

theorem single_eq_some {name : Bytes} {c : Component} (h : Component.single name = some c) :
    c.bytes = name ∧ name ≠ [] := by
  unfold Component.single at h
  split at h
  · cases h
  · rename_i hne
    split at h
    · cases h
    · split at h
      · rename_i hp
        cases h
        exact ⟨hp.symm, hne⟩
      · cases h
        exact ⟨rfl, hne⟩

/-- A component is a separator, a dot, or a field between separators. -/
theorem mem_components {path : Bytes} {c : Component} (h : c ∈ components path) :
    (c = .rootDir ∧ isAbsolute path) ∨ (c = .curDir ∧ dot ∈ path) ∨
      (c.bytes ∈ path.splitOn slash ∧ c.bytes ≠ []) := by
  unfold components at h
  rcases List.mem_append.mp h with h | h
  · split at h
    · rename_i ha
      exact .inl ⟨List.mem_singleton.mp h, by simp [isAbsolute, ha]⟩
    · split at h
      · rename_i hd
        refine .inr (.inl ⟨List.mem_singleton.mp h, ?_⟩)
        rcases hd with rfl | hd
        · simp
        · exact (List.isPrefixOf_iff_prefix.mp hd).subset (by simp)
      · cases h
  · obtain ⟨name, hn, hs⟩ := List.mem_filterMap.mp h
    obtain ⟨hb, hne⟩ := single_eq_some hs
    exact .inr (.inr ⟨hb ▸ hn, hb ▸ hne⟩)

theorem mem_component_bytes {path : Bytes} {c : Component} {b : UInt8}
    (h : c ∈ components path) (hb : b ∈ c.bytes) : b ∈ path ∨ b = slash := by
  rcases mem_components h with ⟨rfl, -⟩ | ⟨rfl, hd⟩ | ⟨hf, -⟩
  · exact .inr (List.mem_singleton.mp hb)
  · exact .inl (List.mem_singleton.mp hb ▸ hd)
  · exact .inl (Fields.mem_of_mem_field hf hb)

/-- Every component of a relative path is relative. -/
theorem component_relative {path : Bytes} {c : Component} (hp : isAbsolute path = false)
    (h : c ∈ components path) : isAbsolute c.bytes = false := by
  rcases mem_components h with ⟨-, ha⟩ | ⟨rfl, -⟩ | ⟨hf, -⟩
  · simp [hp] at ha
  · rfl
  · have hs := Fields.sep_notMem_field hf
    cases hc : c.bytes with
    | nil => rfl
    | cons b bs =>
      rw [hc] at hs
      simp only [List.mem_cons, not_or] at hs
      simp [isAbsolute, Ne.symm hs.1]

theorem stripCurDir_subset {cs : List Component} : stripCurDir cs ⊆ cs := by
  unfold stripCurDir
  split
  · exact List.subset_cons_self _ _
  · exact List.Subset.refl _

theorem mem_foldl_push {cs : List Component} {buf : Bytes} {b : UInt8}
    (h : b ∈ cs.foldl (fun buf c => push buf c.bytes) buf) :
    b ∈ buf ∨ b = slash ∨ ∃ c ∈ cs, b ∈ c.bytes := by
  induction cs generalizing buf with
  | nil => exact .inl h
  | cons c cs ih =>
    rcases ih h with h | h | ⟨d, hd, hb⟩
    · rcases mem_push h with h | h | h
      · exact .inl h
      · exact .inr (.inr ⟨c, by simp, h⟩)
      · exact .inr (.inl h)
    · exact .inr (.inl h)
    · exact .inr (.inr ⟨d, by simp [hd], hb⟩)

theorem prefix_foldl_push {cs : List Component} {buf : Bytes}
    (h : ∀ c ∈ cs, isAbsolute c.bytes = false) :
    buf <+: cs.foldl (fun buf c => push buf c.bytes) buf := by
  induction cs generalizing buf with
  | nil => exact List.prefix_refl _
  | cons c cs ih =>
    exact (prefix_push (h c (by simp))).trans (ih fun d hd => h d (by simp [hd]))

theorem absoluteFrom_components {currentDir : Except Error Bytes} {path start : Bytes}
    {cs : List Component} (h : absoluteFrom currentDir path = .ok (start, cs)) :
    cs ⊆ components path := by
  unfold absoluteFrom at h
  split at h
  · split at h
    · cases h
      exact List.Subset.trans (List.drop_sublist 1 _).subset stripCurDir_subset
    · cases h
      exact stripCurDir_subset
  · cases currentDir with
    | error e => cases h
    | ok dir =>
      cases h
      exact stripCurDir_subset

/-- The bytes of an absolute path come from the path and, for a relative one, from the current
directory. -/
theorem mem_absolute {currentDir : Except Error Bytes} {path host : Bytes} {b : UInt8}
    (h : absolute currentDir path = .ok host) (hb : b ∈ host) :
    b ∈ path ∨ b = slash ∨ (isAbsolute path = false ∧ ∃ dir, currentDir = .ok dir ∧ b ∈ dir) := by
  unfold absolute at h
  split at h
  · cases h
  · cases hf : absoluteFrom currentDir path with
    | error e => simp [hf, Except.map] at h
    | ok x =>
      obtain ⟨start, cs⟩ := x
      have hcs := absoluteFrom_components hf
      simp only [hf, Except.map, Except.ok.injEq] at h
      have hn : b ∈ cs.foldl (fun buf c => push buf c.bytes) start ∨ b = slash := by
        rw [← h] at hb
        split at hb
        · rcases mem_push hb with hb | hb | hb
          · exact .inl hb
          · cases hb
          · exact .inr hb
        · exact .inl hb
      rcases hn with hn | hn
      · rcases mem_foldl_push hn with hs | hs | ⟨c, hc, hs⟩
        · unfold absoluteFrom at hf
          split at hf
          · split at hf
            · cases hf
              simp only [List.mem_cons, List.not_mem_nil, or_false, or_self] at hs
              exact .inr (.inl hs)
            · cases hf
              cases hs
          · rename_i ha
            cases currentDir with
            | error e => cases hf
            | ok dir =>
              cases hf
              exact .inr (.inr ⟨by simpa using ha, start, rfl, hs⟩)
        · exact .inr (.inl hs)
        · rcases mem_component_bytes (hcs hc) hs with hs | hs
          · exact .inl hs
          · exact .inr (.inl hs)
      · exact .inr (.inl hn)

/-- A relative path is resolved below the current directory. -/
theorem prefix_absolute {currentDir : Except Error Bytes} {path host : Bytes}
    (hp : isAbsolute path = false) (h : absolute currentDir path = .ok host) :
    ∃ dir, currentDir = .ok dir ∧ dir <+: host := by
  unfold absolute at h
  split at h
  · cases h
  · cases currentDir with
    | error e => simp [absoluteFrom, hp, Except.map] at h
    | ok dir =>
      simp only [absoluteFrom, hp, Bool.false_eq_true, if_false, Except.map, Except.ok.injEq] at h
      have hd : dir <+: (stripCurDir (components path)).foldl (fun buf c => push buf c.bytes) dir :=
        prefix_foldl_push fun c hc => component_relative hp (stripCurDir_subset hc)
      refine ⟨dir, rfl, ?_⟩
      rw [← h]
      split
      · exact hd.trans (prefix_push rfl)
      · exact hd

/-! ### Fields -/

theorem volumeFields_cons {host rest : Bytes} (h : colon ∉ host) :
    volumeFields (host ++ colon :: rest) = host :: volumeFields rest :=
  List.splitOn_append_cons_self_of_not_mem h rest

theorem volumeFields_single {host : Bytes} (h : colon ∉ host) : volumeFields host = [host] :=
  List.splitOn_eq_singleton h

theorem rejectColonPath_ok {label : String} {path : Bytes} {u : Unit}
    (h : rejectColonPath label path = .ok u) : colon ∉ path := by
  unfold rejectColonPath at h
  split at h
  · cases h
  · assumption

/-- The launcher's own mounts keep their fields. -/
theorem volumeSpec_fields {host guest out : Bytes} {options : Option String}
    (h : volumeSpec host guest options = .ok out) (ho : ∀ o ∈ options, colon ∉ utf8 o) :
    volumeFields out = host :: guest :: (options.map utf8).toList := by
  obtain ⟨_, hr, h⟩ := bind_eq_ok h
  obtain ⟨_, hr', h⟩ := bind_eq_ok h
  have hh := rejectColonPath_ok hr
  have hg := rejectColonPath_ok hr'
  obtain rfl := Except.ok.inj h
  cases options with
  | none => simp [volumeFields_cons hh, volumeFields_single hg]
  | some o =>
    rw [List.append_assoc, List.cons_append, volumeFields_cons hh, volumeFields_cons hg,
      volumeFields_single (ho o rfl)]
    rfl

theorem specHost_cons {host rest : Bytes} (h : colon ∉ host) :
    specHost (host ++ colon :: rest) = host := by
  unfold specHost
  rw [List.takeWhile_append_of_pos fun b hb => by
    simpa using fun he : b = colon => h (he ▸ hb)]
  simp

theorem specHost_self {host : Bytes} (h : colon ∉ host) : specHost host = host :=
  List.takeWhile_eq_self_iff.mpr fun b hb => by simpa using fun he : b = colon => h (he ▸ hb)

theorem splitHost_cons {host rest : Bytes} (h : colon ∉ host) :
    splitHost (host ++ colon :: rest) = (host, colon :: rest) := by
  unfold splitHost
  rw [Fields.find_first h]
  simp

theorem splitHost_self {host : Bytes} (h : colon ∉ host) : splitHost host = (host, []) := by
  unfold splitHost
  rw [Fields.find_none h]

/-- What an accepted spec is turned into. -/
theorem extraVolumeSpec_ok {currentDir : Except Error Bytes} {spec out : Bytes}
    (h : extraVolumeSpec currentDir spec = .ok out) :
    ∃ host, absolute currentDir (specHost spec) = .ok host ∧ colon ∉ specHost spec ∧
      ((∃ rest, spec = specHost spec ++ colon :: rest ∧ out = host ++ colon :: rest) ∨
        (spec = specHost spec ∧ out = host ++ colon :: host)) := by
  unfold extraVolumeSpec at h
  by_cases hc : colon ∈ spec
  · obtain ⟨path, rest, rfl, hp⟩ := List.eq_append_cons_of_mem hc
    rw [specHost_cons hp]
    rw [splitHost_cons hp] at h
    obtain ⟨host, ha, ho⟩ := bind_eq_ok h
    rw [if_neg (List.cons_ne_nil _ _)] at ho
    exact ⟨host, mapError_eq_ok ha, hp, .inl ⟨rest, rfl, (Except.ok.inj ho).symm⟩⟩
  · rw [specHost_self hc]
    rw [splitHost_self hc] at h
    obtain ⟨host, ha, ho⟩ := bind_eq_ok h
    rw [if_pos rfl] at ho
    exact ⟨host, mapError_eq_ok ha, hc, .inr ⟨rfl, (Except.ok.inj ho).symm⟩⟩

/-- Podman reads the host side as the absolute path of the spec's, and the rest as the spec has
it. -/
def HostKept (currentDir : Except Error Bytes) (spec out : Bytes) : Prop :=
  ∃ host, absolute currentDir (specHost spec) = .ok host ∧
    volumeFields out =
      if colon ∈ spec then host :: (volumeFields spec).tail else [host, host]

/-- Podman finds the host side of an accepted spec if it is absolute or the current directory
has no colon, and not otherwise. -/
theorem extraVolumeSpec_host {currentDir : Except Error Bytes} {spec out : Bytes}
    (h : extraVolumeSpec currentDir spec = .ok out) :
    HostKept currentDir spec out ↔
      isAbsolute (specHost spec) ∨ ∀ dir, currentDir = .ok dir → colon ∉ dir := by
  obtain ⟨host, ha, hn, hout⟩ := extraVolumeSpec_ok h
  have hfirst : colon ∈ host → (volumeFields out).head? ≠ some host := by
    intro hc he
    have hm : host ∈ volumeFields out := List.mem_of_mem_head? he
    exact Fields.sep_notMem_field hm hc
  constructor
  · intro ⟨host', ha', hk⟩
    obtain rfl : host' = host := by rw [ha] at ha'; exact (Except.ok.inj ha').symm
    have hc : colon ∉ host' := by
      intro hc
      refine hfirst hc ?_
      rw [hk]
      split <;> rfl
    by_cases hp : isAbsolute (specHost spec)
    · exact .inl hp
    · obtain ⟨dir, hd, hpre⟩ := prefix_absolute (by simpa using hp) ha
      refine .inr fun dir' hd' hm => hc ?_
      rw [hd] at hd'
      exact hpre.subset (Except.ok.inj hd' ▸ hm)
  · intro hcond
    have hc : colon ∉ host := by
      intro hc
      rcases mem_absolute ha hc with hm | hm | ⟨hp, dir, hd, hm⟩
      · exact hn hm
      · cases hm
      · rcases hcond with hp' | hcond
        · simp [hp] at hp'
        · exact hcond dir hd hm
    refine ⟨host, ha, ?_⟩
    rcases hout with ⟨rest, hs, rfl⟩ | ⟨hs, rfl⟩
    · have hm : colon ∈ spec := by rw [hs]; simp
      rw [if_pos hm, volumeFields_cons hc, hs, volumeFields_cons (hs ▸ hn), List.tail_cons]
    · rw [if_neg (hs ▸ hn), volumeFields_cons hc, volumeFields_single hc]

theorem extraVolumeSpec_host_sample :
    HostKept (.ok (utf8 "/home/u")) (utf8 "data:/mnt:ro") (utf8 "/home/u/data:/mnt:ro") ↔
      isAbsolute (specHost (utf8 "data:/mnt:ro")) ∨
        ∀ dir, (.ok (utf8 "/home/u") : Except Error Bytes) = .ok dir → colon ∉ dir :=
  extraVolumeSpec_host (by decide +kernel)

/-- In a directory with a colon in its name a relative host side is lost. The source root of the
user, which provides the project, is passed on all the same. -/
theorem extraVolumeSpec_host_fails :
    (volumeSpec (utf8 "/home/u/src") (utf8 "/home/u/src") none).isOk = true ∧
      extraVolumeSpec (.ok (utf8 "/home/u/src/a:b")) (utf8 "data") =
        .ok (utf8 "/home/u/src/a:b/data:/home/u/src/a:b/data") ∧
      ¬ HostKept (.ok (utf8 "/home/u/src/a:b")) (utf8 "data")
        (utf8 "/home/u/src/a:b/data:/home/u/src/a:b/data") := by
  refine ⟨by decide +kernel, by decide +kernel, ?_⟩
  intro ⟨host, ha, hk⟩
  have hh : absolute (.ok (utf8 "/home/u/src/a:b")) (specHost (utf8 "data")) =
      .ok (utf8 "/home/u/src/a:b/data") := by decide +kernel
  rw [hh] at ha
  rw [← Except.ok.inj ha] at hk
  exact absurd hk (by decide +kernel)

end Claudepod
