import Claudepod.Volumes
import Mathlib.Data.List.Nodup

/-! The stack of store layers that a launcher hands to the container it starts, and that the
container hands to the launchers inside it. -/

set_option autoImplicit false

namespace Claudepod
open Interaction

/-! ### The encoding -/

/-- Absolute paths in priority order, highest first. -/
def joinLayers (paths : List Bytes) : Bytes := [colon].intercalate paths

def checkLayer (path : Bytes) : Except Error Unit :=
  if path = [] then .error (.msg "store layer list contains an empty layer")
  else if ¬ isAbsolute path then .error (.msg s!"store layer {display path} is not absolute")
  else .ok ()

def parseLayers (value : Bytes) : Except Error (List Bytes) :=
  let paths := value.splitOn colon
  (paths.mapM checkLayer).map fun _ => paths

/-! ### The launcher -/

def comma : UInt8 := 44

/-- `idx.to_string()`. -/
def decimal (idx : Nat) : Bytes := (Nat.toDigits 10 idx).map fun c => UInt8.ofNat c.toNat

def storeLayersFile : String := "/run/claudepod-store-layers"

def storeLayerMountDir : Bytes := utf8 "/nix/.l"

def hostStore : Bytes := utf8 "/nix/store"

/-- `raw.strip_suffix(b"\n").unwrap_or(&raw)`. -/
def stripNewline (raw : Bytes) : Bytes :=
  if raw.getLast? = some newline then raw.dropLast else raw

/-- `None` is a file that does not exist. -/
def parentStoreLayers (file : Option Bytes) : Except Error (List Bytes) :=
  match file with
  | none => .ok [hostStore]
  | some raw =>
    (parseLayers (stripNewline raw)).mapError (Error.context s!"parse {storeLayersFile}")

/-- Where layer `idx` is in the child. -/
def childLayer (idx : Nat) : Bytes := push storeLayerMountDir (decimal idx)

def childLayers (parentLayers : List Bytes) : List Bytes :=
  (List.range parentLayers.length).map childLayer

/-- One read-only volume for each layer of the parent. -/
def layerVolumes (parentLayers : List Bytes) : Except Error (List Bytes) :=
  (parentLayers.zip (childLayers parentLayers)).mapM fun (host, guest) =>
    volumeSpec host guest (some "ro")

/-! ### The container -/

def storeUpperDir : Bytes := utf8 "/nix/.rw-store/store"

def storeLayersEnv : String := "CLAUDEPOD_STORE_LAYERS"

def overlayOptions (lowerLayers : List Bytes) : Bytes :=
  utf8 "lowerdir=" ++ joinLayers lowerLayers ++ utf8 ",upperdir=" ++ storeUpperDir ++
    utf8 ",workdir=/nix/.rw-store/work,userxattr"

/-- The mount options, and the layers of a launcher inside. -/
def setupStoreOverlay (env : Option Bytes) : Except Error (Bytes × Bytes) :=
  match env.filter (· ≠ []) with
  | none => .error (.msg s!"{storeLayersEnv} is not set")
  | some raw => do
    let lowerLayers ← (parseLayers raw).mapError (Error.context s!"parse {storeLayersEnv}")
    pure (overlayOptions lowerLayers, joinLayers (storeUpperDir :: lowerLayers))

/-- What `write_runtime_config` writes. -/
def storeLayersText (descendantLayers : Bytes) : Bytes := descendantLayers ++ [newline]

/-! ### Nesting -/

/-- The bind mounts of one container: host path and guest path. -/
abbrev Mounts := List (Bytes × Bytes)

/-- Podman mounts the first field of each argument at the second. -/
def mountsOf (volumes : List Bytes) : Mounts :=
  volumes.filterMap fun arg =>
    match volumeFields arg with
    | host :: guest :: _ => some (host, guest)
    | _ => none

/-- The overlay's `lowerdir` option, as the kernel splits it. -/
def lowerDirs (options : Bytes) : List Bytes :=
  match (utf8 "lowerdir=").isPrefixOf? (options.takeWhile (· ≠ comma)) with
  | some dirs => dirs.splitOn colon
  | none => []

structure Level where
  /-- `/run/claudepod-store-layers`, which the host does not have. -/
  file : Option Bytes
  /-- The overlay on `/nix/store`. -/
  options : Bytes
  /-- The mounts of this container, then of those around it. -/
  mounts : List Mounts

def hostLevel : Level := ⟨none, [], []⟩

/-- A launcher runs and the container it starts sets up its store. -/
def Level.launch (level : Level) : Except Error Level := do
  let parentLayers ← parentStoreLayers level.file
  let volumes ← layerVolumes parentLayers
  let (options, descendantLayers) ←
    setupStoreOverlay (some (joinLayers (childLayers parentLayers)))
  pure ⟨some (storeLayersText descendantLayers), options, mountsOf volumes :: level.mounts⟩

def nested : Nat → Except Error Level
  | 0 => .ok hostLevel
  | n + 1 => (nested n).bind Level.launch

/-- The container, counted from the host outwards, whose own directory a path names. -/
def resolve : List Mounts → Bytes → Nat × Bytes
  | [], path => (0, path)
  | mounts :: outer, path =>
    match mounts.find? (·.2 = path) with
    | some (host, _) => resolve outer host
    | none => (outer.length + 1, path)

/-! ### Layer paths -/

/-- A path that goes through every encoding of a layer list unharmed. -/
structure Plain (path : Bytes) : Prop where
  absolute : isAbsolute path
  colon : colon ∉ path
  comma : comma ∉ path

theorem isDigit_toNat {c : Char} (h : c.isDigit) :
    48 ≤ c.toNat ∧ c.toNat ≤ 57 ∧ (UInt8.ofNat c.toNat).toNat = c.toNat := by
  simp only [Char.isDigit, Bool.and_eq_true, decide_eq_true_eq] at h
  have hlo : 48 ≤ c.toNat := h.1
  have hhi : c.toNat ≤ 57 := h.2
  refine ⟨hlo, hhi, ?_⟩
  simp
  omega

theorem mem_decimal {n : Nat} {b : UInt8} (h : b ∈ decimal n) : 48 ≤ b.toNat ∧ b.toNat ≤ 57 := by
  obtain ⟨c, hc, rfl⟩ := List.mem_map.mp h
  obtain ⟨hlo, hhi, he⟩ := isDigit_toNat (Nat.isDigit_of_mem_toDigits (by decide) (by decide) hc)
  omega

/-- The digits can be read back. -/
theorem decimal_digits (n : Nat) :
    (decimal n).map (fun b => Char.ofNat b.toNat) = Nat.toDigits 10 n := by
  unfold decimal
  rw [List.map_map]
  conv_rhs => rw [← List.map_id (Nat.toDigits 10 n)]
  refine List.map_congr_left fun c hc => ?_
  obtain ⟨-, -, he⟩ := isDigit_toNat (Nat.isDigit_of_mem_toDigits (by decide) (by decide) hc)
  simp only [Function.comp, he, Char.ofNat_toNat, id]

theorem decimal_injective {m n : Nat} (h : decimal m = decimal n) : m = n := by
  rw [← Nat.ofDigitChars_ten_toDigits (n := m), ← decimal_digits, h, decimal_digits,
    Nat.ofDigitChars_ten_toDigits]

theorem childLayer_eq (idx : Nat) :
    childLayer idx = storeLayerMountDir ++ slash :: decimal idx := by
  have hd : isAbsolute (decimal idx) = false := by
    cases hc : decimal idx with
    | nil => rfl
    | cons b bs =>
      have hb := mem_decimal (n := idx) (b := b) (by simp [hc])
      have hs : b ≠ slash := fun h => by rw [h] at hb; exact absurd hb (by decide)
      simp [isAbsolute, hs]
  unfold childLayer push
  rw [if_neg (by simp [hd]), if_neg (by decide)]

theorem childLayer_injective {i j : Nat} (h : childLayer i = childLayer j) : i = j := by
  rw [childLayer_eq, childLayer_eq] at h
  exact decimal_injective (List.cons.inj (List.append_cancel_left h)).2

theorem childLayer_ne_upper (idx : Nat) : childLayer idx ≠ storeUpperDir := by
  rw [childLayer_eq]
  intro h
  have h6 := congrArg (·[6]?) h
  simp only [List.getElem?_append_left (show 6 < storeLayerMountDir.length by decide)] at h6
  exact absurd h6 (by decide)

theorem childLayer_plain (idx : Nat) : Plain (childLayer idx) := by
  rw [childLayer_eq]
  have hmem : ∀ b, b ∈ storeLayerMountDir ++ slash :: decimal idx →
      b ∈ storeLayerMountDir ++ [slash] ∨ 48 ≤ b.toNat ∧ b.toNat ≤ 57 := by
    intro b hb
    rcases List.mem_append.mp hb with hb | hb
    · exact .inl (by simp [hb])
    · rcases List.mem_cons.mp hb with rfl | hb
      · exact .inl (by simp)
      · exact .inr (mem_decimal hb)
  refine ⟨by simp [isAbsolute, storeLayerMountDir, utf8]; decide, fun h => ?_, fun h => ?_⟩
  · rcases hmem _ h with h | h <;> exact absurd h (by decide)
  · rcases hmem _ h with h | h <;> exact absurd h (by decide)

theorem storeUpperDir_plain : Plain storeUpperDir := ⟨by decide, by decide, by decide⟩

theorem hostStore_plain : Plain hostStore := ⟨by decide, by decide, by decide⟩

/-! ### Round trips -/

theorem Plain.ne_nil {path : Bytes} (h : Plain path) : path ≠ [] := by
  rintro rfl
  exact absurd h.absolute (by decide)

theorem checkLayer_ok {path : Bytes} (h : Plain path) : checkLayer path = .ok () := by
  unfold checkLayer
  rw [if_neg h.ne_nil, if_neg (by simp [h.absolute])]

theorem parseLayers_join {paths : List Bytes} (hne : paths ≠ []) (h : ∀ p ∈ paths, Plain p) :
    parseLayers (joinLayers paths) = .ok paths := by
  have hm : ∀ ps : List Bytes, (∀ p ∈ ps, Plain p) →
      ps.mapM checkLayer = .ok (ps.map fun _ => ()) := by
    intro ps hps
    induction ps with
    | nil => rfl
    | cons p ps ih =>
      rw [List.mapM_cons, checkLayer_ok (hps p (by simp)), ih fun q hq => hps q (by simp [hq])]
      rfl
  unfold parseLayers joinLayers
  rw [List.splitOn_intercalate _ (fun p hp => (h p hp).colon) hne]
  show (paths.mapM checkLayer).map (fun _ => paths) = _
  rw [hm paths h]
  rfl

theorem mem_joinLayers {paths : List Bytes} {b : UInt8} (h : b ∈ joinLayers paths) :
    b = colon ∨ ∃ p ∈ paths, b ∈ p := by
  unfold joinLayers at h
  induction paths with
  | nil => cases h
  | cons p ps ih =>
    cases ps with
    | nil => exact .inr ⟨p, by simp, by simpa using h⟩
    | cons q qs =>
      rw [List.intercalate_cons_cons] at h
      rcases List.mem_append.mp h with h | h
      · rcases List.mem_append.mp h with h | h
        · exact .inr ⟨p, by simp, h⟩
        · exact .inl (List.mem_singleton.mp h)
      · rcases ih h with h | ⟨r, hr, h⟩
        · exact .inl h
        · exact .inr ⟨r, by simp [hr], h⟩

/-- A joined list of layers is not empty, so that its newline is not taken for part of it. -/
theorem stripNewline_text (layers : Bytes) : stripNewline (storeLayersText layers) = layers := by
  simp [stripNewline, storeLayersText]

theorem parentStoreLayers_text {paths : List Bytes} (hne : paths ≠ []) (h : ∀ p ∈ paths, Plain p) :
    parentStoreLayers (some (storeLayersText (joinLayers paths))) = .ok paths := by
  show (parseLayers (stripNewline (storeLayersText (joinLayers paths)))).mapError _ = _
  rw [stripNewline_text, parseLayers_join hne h]
  rfl

/-- The kernel finds in the mount options what the container put there. -/
theorem lowerDirs_options {paths : List Bytes} (hne : paths ≠ []) (h : ∀ p ∈ paths, Plain p) :
    lowerDirs (overlayOptions paths) = paths := by
  have hc : ∀ b ∈ utf8 "lowerdir=" ++ joinLayers paths, (b ≠ comma) := by
    intro b hb hbc
    subst hbc
    rcases List.mem_append.mp hb with hb | hb
    · exact absurd hb (by decide)
    · rcases mem_joinLayers hb with hb | ⟨p, hp, hb⟩
      · cases hb
      · exact (h p hp).comma hb
  have ht : (overlayOptions paths).takeWhile (· ≠ comma) =
      utf8 "lowerdir=" ++ joinLayers paths := by
    have hu : utf8 ",upperdir=" = comma :: utf8 "upperdir=" := by decide
    unfold overlayOptions
    rw [hu, List.append_assoc, List.append_assoc, List.cons_append,
      List.takeWhile_append_of_pos fun b hb => by simpa using hc b hb]
    simp
  unfold lowerDirs
  rw [ht, isPrefixOf?_eq_some.mpr rfl]
  exact List.splitOn_intercalate _ (fun p hp => (h p hp).colon) hne

theorem setupStoreOverlay_join {paths : List Bytes} (hne : paths ≠ []) (h : ∀ p ∈ paths, Plain p) :
    setupStoreOverlay (some (joinLayers paths)) =
      .ok (overlayOptions paths, joinLayers (storeUpperDir :: paths)) := by
  have hj : joinLayers paths ≠ [] := by
    intro hj
    have hp := parseLayers_join hne h
    rw [hj] at hp
    exact absurd hp (by simp [parseLayers, checkLayer, Except.map, bind, Except.bind])
  unfold setupStoreOverlay
  rw [Option.filter_some_pos (by simpa using hj)]
  show ((parseLayers (joinLayers paths)).mapError _).bind _ = _
  rw [parseLayers_join hne h]
  rfl

theorem layerVolume_ok {host guest : Bytes} (hh : Plain host) (hg : Plain guest) :
    volumeSpec host guest (some "ro") = .ok (host ++ colon :: guest ++ colon :: utf8 "ro") := by
  simp [volumeSpec, rejectColonPath, hh.colon, hg.colon, bind, Except.bind, pure, Except.pure]

/-- Podman mounts what the launcher asked for. -/
theorem mountsOf_volumes {mounts : Mounts} {volumes : List Bytes} {options : Option String}
    (ho : ∀ o ∈ options, colon ∉ utf8 o)
    (h : (mounts.mapM fun (host, guest) => volumeSpec host guest options) = .ok volumes) :
    mountsOf volumes = mounts := by
  induction mounts generalizing volumes with
  | nil =>
    obtain rfl := Except.ok.inj h
    rfl
  | cons mount mounts ih =>
    rw [List.mapM_cons] at h
    obtain ⟨spec, hs, h⟩ := bind_eq_ok h
    obtain ⟨specs, hss, h⟩ := bind_eq_ok h
    obtain rfl := Except.ok.inj h
    rw [mountsOf, List.filterMap_cons, volumeSpec_fields hs ho]
    simp [← ih hss, mountsOf]

theorem mapM_volumeSpec {mounts : Mounts} (h : ∀ mount ∈ mounts, Plain mount.1 ∧ Plain mount.2) :
    ∃ volumes, (mounts.mapM fun (host, guest) => volumeSpec host guest (some "ro")) =
      .ok volumes := by
  induction mounts with
  | nil => exact ⟨[], rfl⟩
  | cons mount mounts ih =>
    obtain ⟨⟨hh, hg⟩, hms⟩ := List.forall_mem_cons.mp h
    obtain ⟨volumes, hv⟩ := ih hms
    rw [List.mapM_cons, hv]
    dsimp only
    rw [layerVolume_ok hh hg]
    exact ⟨_, rfl⟩

/-- The volumes of plain layers mount each of them where the child looks for it. -/
theorem layerVolumes_ok {paths : List Bytes} (h : ∀ p ∈ paths, Plain p) :
    ∃ volumes, layerVolumes paths = .ok volumes ∧
      mountsOf volumes = paths.zip (childLayers paths) := by
  have hp : ∀ mount ∈ paths.zip (childLayers paths), Plain mount.1 ∧ Plain mount.2 := by
    intro mount hm
    obtain ⟨hp, hg⟩ := List.of_mem_zip hm
    obtain ⟨i, -, hi⟩ := List.mem_map.mp hg
    exact ⟨h _ hp, hi ▸ childLayer_plain i⟩
  obtain ⟨volumes, hv⟩ := mapM_volumeSpec hp
  exact ⟨volumes, hv, mountsOf_volumes (by decide) hv⟩

/-! ### Every depth -/

theorem launch_ok {level : Level} {paths : List Bytes}
    (hf : parentStoreLayers level.file = .ok paths) (hne : paths ≠ []) (h : ∀ p ∈ paths, Plain p) :
    level.launch = .ok
      ⟨some (storeLayersText (joinLayers (storeUpperDir :: childLayers paths))),
        overlayOptions (childLayers paths), paths.zip (childLayers paths) :: level.mounts⟩ := by
  have hc : ∀ p ∈ childLayers paths, Plain p := by
    intro p hp
    obtain ⟨i, -, rfl⟩ := List.mem_map.mp hp
    exact childLayer_plain i
  have hcn : childLayers paths ≠ [] := by
    simpa [childLayers] using hne
  obtain ⟨volumes, hv, hm⟩ := layerVolumes_ok h
  unfold Level.launch
  simp only [hf, hv, setupStoreOverlay_join hcn hc, hm, bind, Except.bind, pure, Except.pure]

/-- A child's layer is the parent's of the same number. -/
theorem resolve_childLayer {paths : List Bytes} {path : Bytes} {outer : List Mounts} {i : Nat}
    (h : paths[i]? = some path) :
    resolve (paths.zip (childLayers paths) :: outer) (childLayer i) = resolve outer path := by
  obtain ⟨hi, rfl⟩ := List.getElem?_eq_some_iff.mp h
  have hf : (paths.zip (childLayers paths)).find? (·.2 = childLayer i) =
      some (paths[i], childLayer i) := by
    refine List.find?_eq_some_iff_getElem.mpr ⟨by simp, i, by simpa [childLayers] using hi, ?_, ?_⟩
    · simp [childLayers]
    · intro j hj
      simp only [childLayers, List.getElem_zip, List.getElem_map, List.getElem_range]
      simpa using fun he => absurd (childLayer_injective he) (by omega)
  rw [resolve, hf]

/-- Its own upper directory is mounted over by none of the layers. -/
theorem resolve_upper (paths : List Bytes) (outer : List Mounts) :
    resolve (paths.zip (childLayers paths) :: outer) storeUpperDir =
      (outer.length + 1, storeUpperDir) := by
  have hf : (paths.zip (childLayers paths)).find? (·.2 = storeUpperDir) = none := by
    refine List.find?_eq_none.mpr fun x hx => ?_
    obtain ⟨i, -, hi⟩ := List.mem_map.mp (List.of_mem_zip hx).2
    rw [← hi]
    simpa using childLayer_ne_upper i
  rw [resolve, hf]

/-- The stack of the container at depth `n`. -/
structure Stacked (n : Nat) (level : Level) : Prop where
  file : level.file =
    some (storeLayersText (joinLayers (storeUpperDir :: (List.range n).map childLayer)))
  options : level.options = overlayOptions ((List.range n).map childLayer)
  depth : level.mounts.length = n
  upper : resolve level.mounts storeUpperDir = (n, storeUpperDir)
  layer : ∀ i < n, resolve level.mounts (childLayer i) =
    if i + 1 = n then (0, hostStore) else (n - 1 - i, storeUpperDir)

theorem stacked_one : ∃ level, hostLevel.launch = .ok level ∧ Stacked 1 level := by
  have hp : parentStoreLayers hostLevel.file = .ok [hostStore] := rfl
  refine ⟨_, launch_ok hp (by simp) (by simpa using hostStore_plain), ?_⟩
  refine ⟨rfl, rfl, rfl, resolve_upper _ _, fun i hi => ?_⟩
  obtain rfl : i = 0 := by omega
  rw [resolve_childLayer rfl]
  rfl

theorem stacked_launch {n : Nat} {level : Level} (hn : 1 ≤ n) (h : Stacked n level) :
    ∃ level', level.launch = .ok level' ∧ Stacked (n + 1) level' := by
  have hp : ∀ p ∈ storeUpperDir :: (List.range n).map childLayer, Plain p := by
    intro p hp
    rcases List.mem_cons.mp hp with rfl | hp
    · exact storeUpperDir_plain
    · obtain ⟨i, -, rfl⟩ := List.mem_map.mp hp
      exact childLayer_plain i
  have hf : parentStoreLayers level.file =
      .ok (storeUpperDir :: (List.range n).map childLayer) := by
    rw [h.file]
    exact parentStoreLayers_text (by simp) hp
  have hc : childLayers (storeUpperDir :: (List.range n).map childLayer) =
      (List.range (n + 1)).map childLayer := by
    simp [childLayers]
  refine ⟨_, launch_ok hf (by simp) hp, ?_⟩
  refine ⟨by rw [hc], by rw [hc], by simp [h.depth], ?_, fun i hi => ?_⟩
  · rw [resolve_upper, h.depth]
  · cases i with
    | zero =>
      rw [resolve_childLayer rfl, h.upper, if_neg (by omega)]
      rfl
    | succ j =>
      have hj : (storeUpperDir :: (List.range n).map childLayer)[j + 1]? = some (childLayer j) := by
        simp [show j < n by omega]
      rw [resolve_childLayer hj, h.layer j (by omega)]
      by_cases hl : j + 1 = n
      · rw [if_pos hl, if_pos (by omega)]
      · rw [if_neg hl, if_neg (by omega), show n - 1 - j = n + 1 - 1 - (j + 1) by omega]

theorem nested_stacked (n : Nat) : ∃ level, nested (n + 1) = .ok level ∧ Stacked (n + 1) level := by
  induction n with
  | zero => exact stacked_one
  | succ n ih =>
    obtain ⟨level, hl, hs⟩ := ih
    obtain ⟨level', hl', hs'⟩ := stacked_launch (by omega) hs
    refine ⟨level', ?_, hs'⟩
    rw [nested, hl]
    exact hl'

/-- At every depth the overlay has one layer for each container around it, the nearest first,
and the store of the host last. -/
theorem layers_complete (n : Nat) (hn : 1 ≤ n) :
    ∃ level, nested n = .ok level ∧ (lowerDirs level.options).length = n ∧
      (lowerDirs level.options).Nodup ∧
      ∀ i < n, ∃ path, (lowerDirs level.options)[i]? = some path ∧
        resolve level.mounts path =
          if i + 1 = n then (0, hostStore) else (n - 1 - i, storeUpperDir) := by
  obtain ⟨m, rfl⟩ : ∃ m, n = m + 1 := ⟨n - 1, by omega⟩
  obtain ⟨level, hl, hs⟩ := nested_stacked m
  have hd : lowerDirs level.options = (List.range (m + 1)).map childLayer := by
    rw [hs.options]
    refine lowerDirs_options (by simp) fun p hp => ?_
    obtain ⟨i, -, rfl⟩ := List.mem_map.mp hp
    exact childLayer_plain i
  refine ⟨level, hl, by simp [hd], ?_, fun i hi => ⟨childLayer i, by simp [hd, hi], hs.layer i hi⟩⟩
  rw [hd]
  exact List.Nodup.map (fun i j hij => childLayer_injective hij) List.nodup_range

theorem layers_complete_two :
    ∃ level, nested 2 = .ok level ∧ (lowerDirs level.options).length = 2 ∧
      (lowerDirs level.options).Nodup ∧
      ∀ i < 2, ∃ path, (lowerDirs level.options)[i]? = some path ∧
        resolve level.mounts path =
          if i + 1 = 2 then (0, hostStore) else (2 - 1 - i, storeUpperDir) :=
  layers_complete 2 (by decide)

end Claudepod
