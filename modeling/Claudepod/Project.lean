import Claudepod.MountTable
import Claudepod.Paths
import Claudepod.StoreLayers

/-! Where the project directory is in the guest: below the source mount, at its own path, or in
`/projects`. -/

set_option autoImplicit false

namespace Claudepod
open Interaction MountTable

/-! ### The launcher -/

def srcRoot (hostHome : Option Bytes) : Except Error Bytes :=
  match hostHome with
  | none => .error (.msg "HOME is not set")
  | some home => .ok (push home (utf8 "src"))

def oneToOneProjectRoots (hostHome : Option Bytes) : List Bytes :=
  match hostHome with
  | some home => [push home (utf8 "projects"), push home (utf8 "temp")]
  | none => []

def guestHome (username : Bytes) : Bytes := utf8 "/home/" ++ username

/-- The path, and whether the project has to be shared there. -/
def guestProjectPath (projectDir : Bytes) (srcRoot : Option Bytes) (oneToOneRoots : List Bytes)
    (username : Bytes) : Except Error (Bytes × Bool) :=
  match srcRoot.bind (stripPrefix projectDir) with
  | some relPath =>
    let guestSrc := guestHome username ++ utf8 "/src"
    .ok (if relPath = [] then guestSrc else push guestSrc relPath, false)
  | none =>
    if oneToOneRoots.any (startsWith projectDir) then .ok (projectDir, true)
    else
      match fileName projectDir with
      | none => .error (.msg "project directory has no file name")
      | some projectName => .ok (push (utf8 "/projects") projectName, true)

/-- What `main` knows of the guest's home, source and project directories. -/
structure Placement where
  home : Bytes
  /-- The host directory behind the guest's home. -/
  homeDir : Bytes
  srcRoot : Option Bytes
  projectDir : Bytes
  guestPath : Bytes
  needProjectShare : Bool
  deriving DecidableEq

/-- The host directory behind the guest's home. -/
def guestHomeDir (sandboxHome : Option Bytes) (stateDir : Bytes)
    (currentDir : Except Error Bytes) : Except Error Bytes :=
  match sandboxHome with
  | some path => (absolute currentDir path).mapError (Error.context "resolve --sandbox-home")
  | none => .ok (push stateDir (utf8 "home"))

/-- With a home of its own the guest gets no source root. -/
def sharedSrcRoot (hostHome sandboxHome : Option Bytes) : Except Error (Option Bytes) :=
  match sandboxHome with
  | some _ => .ok none
  | none => (srcRoot hostHome).map some

/-- Where the project goes, with `homeDir` behind the guest's home. -/
def placement (hostHome sandboxHome : Option Bytes) (homeDir projectDir username : Bytes) :
    Except Error Placement := do
  let srcRoot ← sharedSrcRoot hostHome sandboxHome
  let path ← guestProjectPath projectDir srcRoot (oneToOneProjectRoots hostHome) username
  pure ⟨guestHome username, homeDir, srcRoot, projectDir, path.1, path.2⟩

/-- `projectDir` is the current directory. -/
def placeProject (hostHome sandboxHome : Option Bytes) (stateDir projectDir username : Bytes) :
    Except Error Placement := do
  let homeDir ← guestHomeDir sandboxHome stateDir (.ok projectDir)
  placement hostHome sandboxHome homeDir projectDir username

namespace Placement

/-- Where the guest sees the source root. -/
def guestSrc (p : Placement) : Bytes := push p.home (utf8 "src")

/-- The directory created below the home directory before the guest starts. -/
def mountpoint (p : Placement) : Option Bytes :=
  if p.needProjectShare then (stripPrefix p.guestPath p.home).map (push p.homeDir) else none

/-- Host directory and guest path of the home, source and project volumes, in the order of the
arguments. -/
def mounts (p : Placement) : Mounts :=
  (p.homeDir, p.home) :: (p.srcRoot.map fun root => (root, p.guestSrc)).toList ++
    if p.needProjectShare then [(p.projectDir, p.guestPath)] else []

def volumes (p : Placement) : Except Error (List Bytes) :=
  p.mounts.mapM fun (host, guest) => volumeSpec host guest none

end Placement

/-! ### Mounts by components -/

def mountAt (mount : Bytes × Bytes) : Mount Component := ⟨components mount.1, components mount.2⟩

def viewOf (mounts : Mounts) (path : Bytes) : Option (List Component) :=
  view (mounts.map mountAt) (components path)

/-! ### The guest path -/

theorem components_guestSrc (username : Bytes) :
    components (guestHome username ++ utf8 "/src") =
      components (push (guestHome username) (utf8 "src")) := by
  have hs : utf8 "/src" = slash :: utf8 "src" := by decide
  have ha : isAbsolute (guestHome username) = true := rfl
  have hr : isAbsolute (utf8 "src") = false := by decide
  rw [@components_absolute (push _ _) (isAbsolute_push ha), segments_push hr, hs,
    components_absolute (by rfl), segments_append]

/-- A path below the source root is below the source mount; any other has to be shared. -/
theorem guestProjectPath_ok {projectDir : Bytes} {root : Option Bytes} {roots : List Bytes}
    {username guestPath : Bytes} {need : Bool}
    (h : guestProjectPath projectDir root roots username = .ok (guestPath, need)) :
    (∃ r rel, root = some r ∧ stripPrefix projectDir r = some rel ∧ need = false ∧
      guestPath = if rel = [] then guestHome username ++ utf8 "/src"
        else push (guestHome username ++ utf8 "/src") rel) ∨
    ((∀ r, root = some r → stripPrefix projectDir r = none) ∧ need = true ∧
      (guestPath = projectDir ∨ ∃ name, guestPath = push (utf8 "/projects") name)) := by
  unfold guestProjectPath at h
  cases hb : root.bind (stripPrefix projectDir) with
  | some rel =>
    obtain ⟨r, rfl, hr⟩ := Option.bind_eq_some_iff.mp hb
    simp only [hb, Except.ok.injEq, Prod.mk.injEq] at h
    exact .inl ⟨r, rel, rfl, hr, h.2.symm, h.1.symm⟩
  | none =>
    have hn : ∀ r, root = some r → stripPrefix projectDir r = none := by
      intro r hr
      rw [hr] at hb
      exact hb
    simp only [hb] at h
    split at h
    · simp only [Except.ok.injEq, Prod.mk.injEq] at h
      exact .inr ⟨hn, h.2.symm, .inl h.1.symm⟩
    · cases hf : fileName projectDir with
      | none => simp [hf] at h
      | some name =>
        simp only [hf, Except.ok.injEq, Prod.mk.injEq] at h
        exact .inr ⟨hn, h.2.symm, .inr ⟨name, h.1.symm⟩⟩

/-! ### The placement -/

namespace Placement

/-- The guest finds the project where it starts, and gets no more of the host than that. -/
structure Reached (p : Placement) : Prop where
  /-- Where the guest starts is the project directory. -/
  found : viewOf p.mounts p.guestPath = some (components p.projectDir)
  /-- The volumes that are passed on are these mounts. -/
  passed : ∀ volumes, p.volumes = .ok volumes → mountsOf volumes = p.mounts
  /-- No share is asked for exactly when the source root provides the project. -/
  provided : p.needProjectShare = false ↔ ∃ root, p.srcRoot = some root ∧
    (mountAt (root, p.guestSrc)).shows (components p.guestPath) = some (components p.projectDir)
  /-- Apart from the home and the source root, only the project directory is mounted. -/
  only : ∀ mount ∈ p.mounts, mount = (p.homeDir, p.home) ∨
    (∃ root, p.srcRoot = some root ∧ mount = (root, p.guestSrc)) ∨
    (p.needProjectShare = true ∧ mount = (p.projectDir, p.guestPath))
  /-- A mountpoint is made exactly for a project that is shared inside the guest's home. -/
  made : (∃ dir, p.mountpoint = some dir) ↔
    p.needProjectShare = true ∧ components p.home <+: components p.guestPath
  /-- It is what the home mount shows there. -/
  shown : ∀ dir, p.mountpoint = some dir →
    (mountAt (p.homeDir, p.home)).shows (components p.guestPath) = some (components dir)

theorem mounts_shared {p : Placement} (h : p.needProjectShare = true) :
    p.mounts = ((p.homeDir, p.home) :: (p.srcRoot.map fun root => (root, p.guestSrc)).toList) ++
      [(p.projectDir, p.guestPath)] := by
  simp [mounts, h]

/-- A project that is shared has the innermost mount. -/
theorem found_shared {p : Placement} (h : p.needProjectShare = true) :
    viewOf p.mounts p.guestPath = some (components p.projectDir) := by
  have hp : (mountAt (p.projectDir, p.guestPath)).target ++ [] = components p.guestPath :=
    List.append_nil _
  rw [viewOf, mounts_shared h, List.map_append, List.map_singleton,
    view_last _ _ hp (fun b _ hb => hb.length_le), List.append_nil]
  rfl

/-- A project that is not shared is found below the source mount. -/
theorem found_source {p : Placement} {root : Bytes} {rest : List Component}
    (hr : p.srcRoot = some root) (h : p.needProjectShare = false)
    (hg : components p.guestPath = components p.guestSrc ++ rest)
    (hl : components p.home <+: components p.guestSrc) :
    viewOf p.mounts p.guestPath = some (components root ++ rest) := by
  have hm : p.mounts = [(p.homeDir, p.home)] ++ [(root, p.guestSrc)] := by
    simp [mounts, h, hr]
  have hle : ∀ b ∈ [mountAt (p.homeDir, p.home)], b.target <+: components p.guestPath →
      b.target.length ≤ (mountAt (root, p.guestSrc)).target.length := by
    intro b hb _
    obtain rfl := List.mem_singleton.mp hb
    exact hl.length_le
  rw [viewOf, hm, List.map_append, List.map_singleton, List.map_singleton,
    view_last _ (mountAt (root, p.guestSrc)) hg.symm hle]
  rfl

theorem mem_mounts {p : Placement} {mount : Bytes × Bytes} (h : mount ∈ p.mounts) :
    mount = (p.homeDir, p.home) ∨ (∃ root, p.srcRoot = some root ∧ mount = (root, p.guestSrc)) ∨
      (p.needProjectShare = true ∧ mount = (p.projectDir, p.guestPath)) := by
  unfold mounts at h
  obtain h | h := List.mem_append.mp h
  · obtain h | h := List.mem_cons.mp h
    · exact .inl h
    · obtain ⟨root, hr, hm⟩ := Option.map_eq_some_iff.mp (Option.mem_toList.mp h)
      exact .inr (.inl ⟨root, hr, hm.symm⟩)
  · split at h
    · rename_i hn
      exact .inr (.inr ⟨hn, List.mem_singleton.mp h⟩)
    · cases h

theorem mountpoint_made (p : Placement) : (∃ dir, p.mountpoint = some dir) ↔
    p.needProjectShare = true ∧ components p.home <+: components p.guestPath := by
  rw [← startsWith_iff]
  unfold mountpoint stripPrefix
  cases p.needProjectShare <;> cases startsWith p.guestPath p.home <;> simp

/-- Joining what is below the guest's home to the directory behind it is what a mount does. -/
theorem mountpoint_shown {p : Placement} {dir : Bytes} (hh : isAbsolute p.home = true)
    (hg : isAbsolute p.guestPath = true) (h : p.mountpoint = some dir) :
    (mountAt (p.homeDir, p.home)).shows (components p.guestPath) = some (components dir) := by
  unfold mountpoint at h
  split at h
  · obtain ⟨rel, hs, rfl⟩ := Option.map_eq_some_iff.mp h
    obtain ⟨hr, hf, hc⟩ := stripPrefix_ok hg (by simp [components_absolute hh]) hs
    rw [hc, components_push hr hf]
    exact shows_below (mountAt (p.homeDir, p.home)) _
  · cases h

end Placement

theorem guestSrc_below (username : Bytes) :
    components (guestHome username) <+: components (push (guestHome username) (utf8 "src")) := by
  rw [components_push (by decide) (by decide)]
  exact List.prefix_append _ _

theorem srcRoot_components {hostHome : Option Bytes} {root : Bytes}
    (h : srcRoot hostHome = .ok root) : components root ≠ [] := by
  unfold srcRoot at h
  cases hostHome with
  | none => cases h
  | some home =>
    obtain rfl := Except.ok.inj h
    rw [components_push (by decide) (by decide)]
    simp [show segments (utf8 "src") = [utf8 "src"] by decide]

theorem placement_ok {hostHome sandboxHome : Option Bytes} {homeDir projectDir username : Bytes}
    {p : Placement} (h : placement hostHome sandboxHome homeDir projectDir username = .ok p) :
    p.home = guestHome username ∧ p.homeDir = homeDir ∧ p.projectDir = projectDir ∧
      sharedSrcRoot hostHome sandboxHome = .ok p.srcRoot ∧
      guestProjectPath projectDir p.srcRoot (oneToOneProjectRoots hostHome) username =
        .ok (p.guestPath, p.needProjectShare) := by
  obtain ⟨root, hr, h⟩ := bind_eq_ok h
  obtain ⟨path, hg, h⟩ := bind_eq_ok h
  obtain rfl := Except.ok.inj h
  exact ⟨rfl, rfl, rfl, hr, hg⟩

/-- The source root is `src` in the user's home, and none with a home of its own. -/
theorem placeProject_ok {hostHome sandboxHome : Option Bytes} {stateDir projectDir username : Bytes}
    {p : Placement} (h : placeProject hostHome sandboxHome stateDir projectDir username = .ok p) :
    p.home = guestHome username ∧ p.projectDir = projectDir ∧
      (∀ root, p.srcRoot = some root → components root ≠ []) ∧
      guestProjectPath projectDir p.srcRoot (oneToOneProjectRoots hostHome) username =
        .ok (p.guestPath, p.needProjectShare) := by
  obtain ⟨homeDir, -, h⟩ := bind_eq_ok h
  obtain ⟨hhome, -, hproj, hr, hg⟩ := placement_ok h
  refine ⟨hhome, hproj, fun r he => ?_, hg⟩
  rw [he] at hr
  unfold sharedSrcRoot at hr
  cases sandboxHome with
  | some path => cases hr
  | none =>
    cases hs : srcRoot hostHome with
    | error e => simp [hs, Except.map] at hr
    | ok r' =>
      simp only [hs, Except.map, Except.ok.injEq, Option.some.injEq] at hr
      exact hr ▸ srcRoot_components hs

/-- Below the source root the guest path is below the source mount. -/
theorem source_path {projectDir root rel : Bytes} (username : Bytes)
    (hp : isAbsolute projectDir = true) (hr : components root ≠ [])
    (h : stripPrefix projectDir root = some rel) :
    ∃ rest, components projectDir = components root ++ rest ∧
      components (if rel = [] then guestHome username ++ utf8 "/src"
        else push (guestHome username ++ utf8 "/src") rel) =
      components (push (guestHome username) (utf8 "src")) ++ rest := by
  obtain ⟨ha, hf, hc⟩ := stripPrefix_ok hp hr h
  refine ⟨_, hc, ?_⟩
  split
  · rename_i hn
    rw [hn, segments_nil, List.map_nil, List.append_nil, components_guestSrc]
  · rw [components_push ha hf, components_guestSrc]

/-- Wherever the user starts the launcher, the guest starts in the same directory. -/
theorem project_reached {hostHome sandboxHome : Option Bytes} {stateDir projectDir username : Bytes}
    {p : Placement} (hp : isAbsolute projectDir = true)
    (h : placeProject hostHome sandboxHome stateDir projectDir username = .ok p) :
    p.projectDir = projectDir ∧ p.Reached := by
  obtain ⟨hhome, rfl, hroot, hg⟩ := placeProject_ok h
  have hha : isAbsolute p.home = true := by rw [hhome]; rfl
  refine ⟨rfl, ?_⟩
  obtain ⟨root, rel, hr, hs, hn, hpath⟩ | ⟨hno, hn, hpath⟩ := guestProjectPath_ok hg
  · obtain ⟨rest, hproj, hcomp⟩ := source_path username hp (hroot root hr) hs
    rw [← hpath, ← hhome] at hcomp
    exact {
      found := by
        rw [hproj]
        refine Placement.found_source hr hn hcomp ?_
        rw [Placement.guestSrc, hhome]
        exact guestSrc_below _
      passed := fun _ hv => mountsOf_volumes (by simp) hv
      provided := by
        refine ⟨fun _ => ⟨root, hr, ?_⟩, fun _ => hn⟩
        rw [hcomp, hproj]
        exact shows_below (mountAt (root, p.guestSrc)) rest
      only := fun _ hm => Placement.mem_mounts hm
      made := p.mountpoint_made
      shown := fun dir hd => by simp [Placement.mountpoint, hn] at hd }
  · have hga : isAbsolute p.guestPath = true := by
      obtain hpath | ⟨name, hpath⟩ := hpath
      · rw [hpath]
        exact hp
      · rw [hpath]
        exact isAbsolute_push (by decide)
    exact {
      found := Placement.found_shared hn
      passed := fun _ hv => mountsOf_volumes (by simp) hv
      provided := by
        refine ⟨fun hf => by simp [hn] at hf, fun ⟨root, hr, hv⟩ => ?_⟩
        obtain ⟨rest, -, hc⟩ := shows_eq_some hv
        have hs := hno root hr
        rw [stripPrefix, if_pos (startsWith_iff.mpr ⟨rest, hc.symm⟩)] at hs
        cases hs
      only := fun _ hm => Placement.mem_mounts hm
      made := p.mountpoint_made
      shown := fun dir hd => Placement.mountpoint_shown hha hga hd }

/-- A project below `~/projects` of a user whose home has the guest's name for it. -/
def nestedPlacement : Placement :=
  ⟨utf8 "/home/u", utf8 "/s/home", some (utf8 "/home/u/src"), utf8 "/home/u/projects/p",
    utf8 "/home/u/projects/p", true⟩

theorem project_reached_nested :
    placeProject (some (utf8 "/home/u")) none (utf8 "/s") (utf8 "/home/u/projects/p") (utf8 "u") =
        .ok nestedPlacement ∧
      nestedPlacement.projectDir = utf8 "/home/u/projects/p" ∧ nestedPlacement.Reached :=
  ⟨by decide +kernel, project_reached (by decide) (show placeProject (some (utf8 "/home/u")) none
    (utf8 "/s") (utf8 "/home/u/projects/p") (utf8 "u") = _ by decide +kernel)⟩

example : nestedPlacement.mountpoint = some (utf8 "/s/home/projects/p") := by decide +kernel

end Claudepod
