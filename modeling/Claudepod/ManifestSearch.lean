import Claudepod.CacheKey
import Claudepod.GuestShell
import Claudepod.ManifestFile
import Claudepod.SharedFiles
import Claudepod.SubIds

/-! How a launcher finds the manifest of run roots in the cache, or has it made. -/

set_option autoImplicit false

namespace Claudepod
open Interaction FileSystem

/-! ### What is asked of the system -/

/-- A program that is run for its output. -/
structure NixCommand where
  program : Bytes
  env : List (Bytes × Bytes)
  args : List Bytes

structure Output where
  success : Bool
  /-- The text of the exit status. -/
  status : String
  stdout : Bytes
  stderr : Bytes

inductive Query where
  | tryExists (path : Key)
  | output (command : NixCommand)

def Query.Answer : Query → Type
  | .tryExists _ => Except IoError Bool
  | .output _ => Except IoError Output

abbrev SysEvent := Event (Both (Answer IoError : Call Key UInt8 → Type) Query.Answer)

abbrev Sys (α : Type) := Comp (Both (Answer IoError : Call Key UInt8 → Type) Query.Answer) Error α

def orStop {α : Type} : Except Error α → Sys α
  | .ok a => pure a
  | .error e => throw e

/-- What a launcher has from its process. -/
structure Surroundings where
  vars : Env
  /-- `$XDG_CACHE_HOME`, or `~/.cache`. -/
  cacheHome : Option Bytes
  pid : Nat

/-! ### The launcher -/

def guestSystemEnv : Bytes := utf8 "CLAUDEPOD_GUEST_SYSTEM"
def nixpkgsEnv : Bytes := utf8 "CLAUDEPOD_NIXPKGS"
def nixEnv : Bytes := utf8 "CLAUDEPOD_NIX"

structure NixRunRootsBuildInputs where
  guestSystem : Bytes
  nixpkgs : Bytes
  nix : Bytes

/-- `NIX_RUN_ROOTS_EXPR`. -/
def nixRunRootsExpr : Bytes := utf8 ("\n".intercalate
  ["", "let",
    "  nixpkgs = /. + builtins.getEnv \"CLAUDEPOD_NIXPKGS\";",
    "  guestSystem = builtins.getEnv \"CLAUDEPOD_GUEST_SYSTEM\";",
    "  pkgs = import nixpkgs \x7b",
    "    system = guestSystem;",
    "    config = \x7b",
    "      allowUnfree = true;",
    "      allowAliases = false;",
    "    \x7d;",
    "  \x7d;",
    "  outputPathFor = name:",
    "    let",
    "      result = builtins.tryEval (",
    "        let value = pkgs.$\x7bname\x7d;",
    "        in if pkgs.lib.isDerivation value then toString value else null",
    "      );",
    "    in",
    "      if result.success && result.value != null",
    "      then [ (builtins.unsafeDiscardStringContext result.value) ]",
    "      else [];",
    "  paths = builtins.concatMap outputPathFor (builtins.attrNames pkgs);",
    "  sortedPaths = builtins.attrNames (builtins.listToAttrs (map (path: \x7b",
    "    name = path;",
    "    value = true;",
    "  \x7d) paths));",
    "in",
    "  if sortedPaths == [] then \"\" else builtins.concatStringsSep \"\\n\" sortedPaths + \"\\n\"",
    ""])

/-- `is_ascii_alphanumeric`, `_` or `-`. -/
def isSystemChar (b : UInt8) : Bool :=
  (48 ≤ b && b ≤ 57) || (65 ≤ b && b ≤ 90) || (97 ≤ b && b ≤ 122) || b == 95 || b == 45

def validateNixRunRootsInputs (inputs : NixRunRootsBuildInputs) : Except Error Unit := do
  (validateDirect inputs.nixpkgs).mapError
    (Error.context s!"parse CLAUDEPOD_NIXPKGS={fromUtf8Lossy inputs.nixpkgs}")
  if isUtf8 inputs.guestSystem then
    if inputs.guestSystem = [] ∨ ¬ inputs.guestSystem.all isSystemChar then
      .error (.msg "CLAUDEPOD_GUEST_SYSTEM is not a supported Nix system name")
    else .ok ()
  else .error (.msg "CLAUDEPOD_GUEST_SYSTEM is not valid UTF-8")

def nixRunRootsCommand (inputs : NixRunRootsBuildInputs) : Except Error NixCommand := do
  validateNixRunRootsInputs inputs
  pure ⟨inputs.nix, [(guestSystemEnv, inputs.guestSystem), (nixpkgsEnv, inputs.nixpkgs)],
    ["--extra-experimental-features", "nix-command", "eval", "--impure", "--raw", "--expr"].map
      utf8 ++ [nixRunRootsExpr]⟩

/-- Why no manifest could be generated. -/
def nixFailure (nix : Bytes) (output : Output) : Error :=
  let stderr := trim (fromUtf8Lossy output.stderr).toList
  if stderr = [] then .msg s!"{display nix} exited with {output.status}"
  else .msg s!"{display nix} exited with {output.status}: {String.ofList stderr}"

def generateNixRunRootsManifest (inputs : NixRunRootsBuildInputs) : Sys Bytes := do
  let command ← orStop (nixRunRootsCommand inputs)
  let output ← Comp.perform (.inr (.output command))
  let output ← (expect s!"run {display inputs.nix}" output).inl
  if output.success then pure output.stdout else throw (nixFailure inputs.nix output)

def buildNixRunRootsManifest (path : Bytes) (inputs : NixRunRootsBuildInputs) (pid : Nat) :
    Sys Unit := do
  let manifest ← generateNixRunRootsManifest inputs
  (writeNixRunRootsManifestAtomic path manifest pid).inl

def loadNixRunRootsManifest (path : Bytes) : Sys (Option Bytes) := do
  let found ← Comp.perform (.inr (.tryExists (key path)))
  let found ← (expect s!"stat {display path}" found).inl
  if found then do
    let _ ← (loadManifest path).inl
    pure (some path)
  else pure none

def nixRunRootsManifestPath (cacheHome : Option Bytes) (guestSystem nixpkgs : Bytes) :
    Except Error Bytes := do
  let relative ← nixRunRootsManifestRelativePath guestSystem nixpkgs
  match cacheHome with
  | some dir => .ok (push (push dir (utf8 "claudepod")) relative)
  | none => .error (.msg "HOME is not set and XDG_CACHE_HOME is unavailable")

/-- The guest system and the package universe that the launcher was made for. -/
def packageSet (s : Surroundings) : Option (Bytes × Bytes) := do
  let guestSystem ← (s.vars guestSystemEnv).filter (· ≠ [])
  let nixpkgs ← (s.vars nixpkgsEnv).filter (· ≠ [])
  pure (guestSystem, nixpkgs)

/-- Where there is no manifest yet. -/
def missingManifest (s : Surroundings) (build : Bool) (path guestSystem nixpkgs : Bytes) :
    Sys (Option Bytes) :=
  if build then do
    let nix ← orStop (requiredEnvBytes s.vars nixEnv)
    buildNixRunRootsManifest path ⟨guestSystem, nixpkgs, nix⟩ s.pid
    pure (some path)
  else pure none

def nixRunRootsManifest (s : Surroundings) (build : Bool) : Sys (Option Bytes) :=
  match packageSet s with
  | some (guestSystem, nixpkgs) => do
    let path ← orStop (nixRunRootsManifestPath s.cacheHome guestSystem nixpkgs)
    let found ← loadNixRunRootsManifest path
    match found with
    | some path => pure (some path)
    | none => missingManifest s build path guestSystem nixpkgs
  | none =>
    if build then throw (.msg ("--build-nix-run-roots requires CLAUDEPOD_GUEST_SYSTEM, " ++
      "CLAUDEPOD_NIXPKGS, and CLAUDEPOD_NIX"))
    else pure none

/-! ### What it does -/

/-- Where the launcher looks. -/
def manifestOf (s : Surroundings) : Option Bytes :=
  (packageSet s).bind fun x => (nixRunRootsManifestPath s.cacheHome x.1 x.2).toOption

/-- The ways a launcher can go that looks for its manifest at `path`. -/
inductive Search (s : Surroundings) (build : Bool) (path : Bytes) :
    List SysEvent → Except Error (Option Bytes) → Prop where
  | unseen (err : IoError) (e : Error) :
    Search s build path [⟨.inr (.tryExists (key path)), .error err⟩] (.error e)
  | found (answer : Except IoError Bytes) (r : Except Error (Option Bytes)) :
    (∀ out, r = .ok out → out = some path ∧ ∃ raw, answer = .ok raw ∧ Loadable raw) →
    Search s build path
      [⟨.inr (.tryExists (key path)), .ok true⟩, ⟨.inl (.read (key path)), answer⟩] r
  | missing (r : Except Error (Option Bytes)) : (∀ out, r = .ok out → out = none) →
    Search s build path [⟨.inr (.tryExists (key path)), .ok false⟩] r
  | unmade (command : NixCommand) (answer : Except IoError Output) (e : Error) :
    Search s build path
      [⟨.inr (.tryExists (key path)), .ok false⟩, ⟨.inr (.output command), answer⟩] (.error e)
  | made (inputs : NixRunRootsBuildInputs) (command : NixCommand) (out : Output)
      (t : List (Act Key UInt8 IoError)) (r : Except Error Unit) :
    packageSet s = some (inputs.guestSystem, inputs.nixpkgs) →
    nixRunRootsCommand inputs = .ok command → build = true → out.success = true →
    (writeNixRunRootsManifestAtomic path out.stdout s.pid).Runs t r →
    Search s build path (⟨.inr (.tryExists (key path)), .ok false⟩ ::
      ⟨.inr (.output command), .ok out⟩ :: t.map inlEvent) (r.map fun _ => some path)

section Search

variable {α β : Type} {s : Surroundings} {build : Bool} {path : Bytes} {t : List SysEvent}

theorem orStop_runs {x : Except Error α} {f : α → Sys β} {r : Except Error β}
    (h : (orStop x >>= f).Runs t r) :
    (∃ a, x = .ok a ∧ (f a).Runs t r) ∨ (t = [] ∧ ∃ e, r = .error e) := by
  cases x with
  | ok a => exact .inl ⟨a, rfl, h⟩
  | error e =>
    obtain ⟨ht, hr⟩ := (Comp.runs_throw _ _).mp h
    exact .inr ⟨ht, e, hr⟩

theorem expect_inl_runs {what : String} {x : Except IoError α} {f : α → Sys β}
    {r : Except Error β} (h : ((expect what x).inl >>= f).Runs t r) :
    (∃ a, x = .ok a ∧ (f a).Runs t r) ∨ (t = [] ∧ ∃ e, r = .error e) := by
  cases x with
  | ok a => exact .inl ⟨a, rfl, h⟩
  | error e =>
    obtain ⟨ht, hr⟩ := (Comp.runs_throw _ _).mp h
    exact .inr ⟨ht, _, hr⟩

theorem loadManifest_cases {u : List (Act Key UInt8 IoError)} {r : Except Error NixRunRoots}
    (h : (loadManifest path).Runs u r) : ∃ answer : Except IoError Bytes,
      u = [⟨.read (key path), answer⟩] ∧
        ∀ roots, r = .ok roots → ∃ raw, answer = .ok raw ∧ Loadable raw := by
  obtain ⟨answer, v, rfl, hv⟩ := (Comp.runs_perform_bind _).mp h
  cases answer with
  | error e =>
    obtain ⟨rfl, rfl⟩ := (Comp.runs_throw _ _).mp hv
    exact ⟨_, rfl, nofun⟩
  | ok raw =>
    rcases (Comp.runs_bind _).mp hv with ⟨raw', t₁, t₂, rfl, ⟨rfl, hraw⟩, hp⟩ | ⟨e, -, -, he⟩
    swap
    · cases he
    obtain rfl := Except.ok.inj hraw
    cases hparse : parseManifest raw' with
    | ok roots =>
      rw [hparse] at hp
      obtain ⟨rfl, -⟩ := (Comp.runs_pure _ _).mp hp
      exact ⟨_, rfl, fun _ _ => ⟨raw', rfl, roots, hparse⟩⟩
    | error e =>
      rw [hparse] at hp
      obtain ⟨rfl, rfl⟩ := (Comp.runs_throw _ _).mp hp
      exact ⟨_, rfl, nofun⟩

/-- A look at the cache, which may end the launcher's search. -/
theorem loadNixRunRootsManifest_cases {r : Except Error (Option Bytes)}
    (h : (loadNixRunRootsManifest path).Runs t r) :
    (r ≠ .ok none ∧ Search s build path t r) ∨
      (t = [⟨.inr (.tryExists (key path)), .ok false⟩] ∧ r = .ok none) := by
  obtain ⟨answer, v, rfl, hv⟩ := (Comp.runs_perform_bind _).mp h
  cases answer with
  | error err =>
    obtain ⟨rfl, rfl⟩ := (Comp.runs_throw _ _).mp hv
    exact .inl ⟨nofun, .unseen err _⟩
  | ok found =>
    cases found with
    | false =>
      obtain ⟨rfl, rfl⟩ := (Comp.runs_pure _ _).mp hv
      exact .inr ⟨rfl, rfl⟩
    | true =>
      refine .inl ?_
      rcases (Comp.runs_bind _).mp hv with ⟨_, t₁, t₂, rfl, ⟨rfl, hf⟩, hl⟩ | ⟨e, -, -, he⟩
      swap
      · cases he
      obtain rfl := Except.ok.inj hf
      rcases (Comp.runs_bind _).mp hl with ⟨roots, t₁, t₃, rfl, h₁, h₂⟩ | ⟨e, rfl, h₁⟩
      · obtain ⟨u, rfl, hu⟩ := Comp.runs_inl.mp h₁
        obtain ⟨answer, rfl, ha⟩ := loadManifest_cases hu
        obtain ⟨rfl, rfl⟩ := (Comp.runs_pure _ _).mp h₂
        exact ⟨nofun, .found answer _ fun out ho => ⟨(Except.ok.inj ho).symm, ha roots rfl⟩⟩
      · obtain ⟨u, rfl, hu⟩ := Comp.runs_inl.mp h₁
        obtain ⟨answer, rfl, -⟩ := loadManifest_cases hu
        exact ⟨nofun, .found answer _ nofun⟩

theorem generateNixRunRootsManifest_cases {inputs : NixRunRootsBuildInputs}
    {r : Except Error Bytes} (h : (generateNixRunRootsManifest inputs).Runs t r) :
    (t = [] ∧ ∃ e, r = .error e) ∨
      ∃ command answer, nixRunRootsCommand inputs = .ok command ∧
        t = [⟨.inr (.output command), answer⟩] ∧ ∀ manifest, r = .ok manifest →
          ∃ out : Output, answer = .ok out ∧ out.success = true ∧ out.stdout = manifest := by
  obtain ⟨command, hcommand, hc⟩ | hs := orStop_runs h
  swap
  · exact .inl hs
  obtain ⟨answer, v, rfl, hv⟩ := (Comp.runs_perform_bind _).mp hc
  refine .inr ⟨command, answer, hcommand, ?_⟩
  obtain ⟨out, rfl, ho⟩ | ⟨rfl, e, rfl⟩ := expect_inl_runs hv
  swap
  · exact ⟨rfl, nofun⟩
  split at ho
  · rename_i hs
    obtain ⟨rfl, rfl⟩ := (Comp.runs_pure _ _).mp ho
    exact ⟨rfl, fun manifest hm => ⟨out, rfl, hs, Except.ok.inj hm⟩⟩
  · obtain ⟨rfl, rfl⟩ := (Comp.runs_throw _ _).mp ho
    exact ⟨rfl, nofun⟩

/-- Having the manifest made, once none has been found. -/
theorem buildNixRunRootsManifest_cases {inputs : NixRunRootsBuildInputs} {r : Except Error Unit}
    (hu : packageSet s = some (inputs.guestSystem, inputs.nixpkgs)) (hb : build = true)
    (h : (buildNixRunRootsManifest path inputs s.pid).Runs t r) :
    Search s build path (⟨.inr (.tryExists (key path)), .ok false⟩ :: t)
      (r.map fun _ => some path) := by
  rcases (Comp.runs_bind _).mp h with ⟨manifest, t₁, t₂, rfl, hg, hw⟩ | ⟨e, rfl, hg⟩
  · obtain ⟨-, e, he⟩ | ⟨command, answer, hc, rfl, hm⟩ := generateNixRunRootsManifest_cases hg
    · cases he
    · obtain ⟨out, rfl, hs, rfl⟩ := hm manifest rfl
      obtain ⟨u, rfl, hrun⟩ := Comp.runs_inl.mp hw
      exact .made inputs command out u r hu hc hb hs hrun
  · obtain ⟨rfl, -⟩ | ⟨command, answer, -, rfl, -⟩ := generateNixRunRootsManifest_cases hg
    · exact .missing _ nofun
    · exact .unmade command answer e

theorem missingManifest_cases {guestSystem nixpkgs : Bytes} {r : Except Error (Option Bytes)}
    (hu : packageSet s = some (guestSystem, nixpkgs))
    (h : (missingManifest s build path guestSystem nixpkgs).Runs t r) :
    Search s build path (⟨.inr (.tryExists (key path)), .ok false⟩ :: t) r := by
  unfold missingManifest at h
  split at h
  · rename_i hb
    obtain ⟨nix, -, hn⟩ | ⟨rfl, e, rfl⟩ := orStop_runs h
    swap
    · exact .missing _ nofun
    rcases (Comp.runs_bind _).mp hn with ⟨_, t₁, t₂, rfl, h₁, h₂⟩ | ⟨e, rfl, h₁⟩
    · obtain ⟨rfl, rfl⟩ := (Comp.runs_pure _ _).mp h₂
      rw [List.append_nil]
      exact buildNixRunRootsManifest_cases (by exact hu) hb h₁
    · exact buildNixRunRootsManifest_cases (by exact hu) hb h₁
  · obtain ⟨rfl, rfl⟩ := (Comp.runs_pure _ _).mp h
    exact .missing _ fun out ho => (Except.ok.inj ho).symm

/-- A launcher goes one of the ways, or does not look at all. -/
theorem nixRunRootsManifest_cases {r : Except Error (Option Bytes)}
    (h : (nixRunRootsManifest s build).Runs t r) :
    (∃ path, manifestOf s = some path ∧ Search s build path t r) ∨
      (t = [] ∧ ∀ out, r = .ok out → out = none) := by
  unfold nixRunRootsManifest at h
  unfold manifestOf
  split at h
  · rename_i guestSystem nixpkgs hu
    obtain ⟨path, hp, hl⟩ | ⟨rfl, e, rfl⟩ := orStop_runs h
    swap
    · exact .inr ⟨rfl, nofun⟩
    refine .inl ⟨path, by rw [hu, Option.bind_some, hp]; rfl, ?_⟩
    rcases (Comp.runs_bind _).mp hl with ⟨found, t₁, t₂, rfl, h₁, h₂⟩ | ⟨e, rfl, h₁⟩
    · obtain ⟨hr, hs⟩ | ⟨rfl, hf⟩ := loadNixRunRootsManifest_cases h₁
      · cases found with
        | none => exact absurd rfl hr
        | some found =>
          obtain ⟨rfl, rfl⟩ := (Comp.runs_pure _ _).mp h₂
          rwa [List.append_nil]
      · obtain rfl := Except.ok.inj hf
        exact missingManifest_cases hu h₂
    · obtain ⟨-, hs⟩ | ⟨-, hf⟩ := loadNixRunRootsManifest_cases h₁
      · exact hs
      · cases hf
  · right
    split at h
    · obtain ⟨rfl, rfl⟩ := (Comp.runs_throw _ _).mp h
      exact ⟨rfl, nofun⟩
    · obtain ⟨rfl, rfl⟩ := (Comp.runs_pure _ _).mp h
      exact ⟨rfl, fun out ho => (Except.ok.inj ho).symm⟩

theorem nixRunRootsManifest_finds {guestSystem nixpkgs raw : Bytes} {roots : NixRunRoots}
    (hu : packageSet s = some (guestSystem, nixpkgs))
    (hp : nixRunRootsManifestPath s.cacheHome guestSystem nixpkgs = .ok path)
    (hl : parseManifest raw = .ok roots) :
    (nixRunRootsManifest s build).Runs
      [⟨.inr (.tryExists (key path)), .ok true⟩, ⟨.inl (.read (key path)), .ok raw⟩]
      (.ok (some path)) := by
  unfold nixRunRootsManifest
  rw [hu]
  show (orStop (nixRunRootsManifestPath s.cacheHome guestSystem nixpkgs) >>= _).Runs _ _
  rw [hp]
  have hload : (loadNixRunRootsManifest path).Runs
      [⟨.inr (.tryExists (key path)), .ok true⟩, ⟨.inl (.read (key path)), .ok raw⟩]
      (.ok (some path)) := by
    refine (Comp.runs_perform_bind _).mpr ⟨.ok true, _, rfl, ?_⟩
    exact Comp.Runs.bind (Comp.runs_inl.mpr ⟨_, rfl, loadManifest_runs hl⟩) ⟨rfl, rfl⟩
  exact hload.bind ⟨rfl, rfl⟩

theorem nixRunRootsManifest_makes {guestSystem nixpkgs nix : Bytes} {command : NixCommand}
    {out : Output} {u : List (Act Key UInt8 IoError)}
    (hu : packageSet s = some (guestSystem, nixpkgs))
    (hp : nixRunRootsManifestPath s.cacheHome guestSystem nixpkgs = .ok path)
    (hn : requiredEnvBytes s.vars nixEnv = .ok nix)
    (hc : nixRunRootsCommand ⟨guestSystem, nixpkgs, nix⟩ = .ok command) (ho : out.success = true)
    (hw : (writeNixRunRootsManifestAtomic path out.stdout s.pid).Runs u (.ok ())) :
    (nixRunRootsManifest s true).Runs (⟨.inr (.tryExists (key path)), .ok false⟩ ::
      ⟨.inr (.output command), .ok out⟩ :: u.map inlEvent) (.ok (some path)) := by
  have hgenerate : (generateNixRunRootsManifest ⟨guestSystem, nixpkgs, nix⟩).Runs
      [⟨.inr (.output command), .ok out⟩] (.ok out.stdout) := by
    unfold generateNixRunRootsManifest
    rw [hc]
    refine (Comp.runs_perform_bind _).mpr ⟨.ok out, [], rfl, ?_⟩
    show (if out.success then _ else _ : Sys Bytes).Runs _ _
    rw [if_pos ho]
    exact ⟨rfl, rfl⟩
  have hbuild : (buildNixRunRootsManifest path ⟨guestSystem, nixpkgs, nix⟩ s.pid).Runs
      (⟨.inr (.output command), .ok out⟩ :: u.map inlEvent) (.ok ()) :=
    hgenerate.bind (Comp.runs_inl.mpr ⟨u, rfl, hw⟩)
  have hlook : (loadNixRunRootsManifest path).Runs [⟨.inr (.tryExists (key path)), .ok false⟩]
      (.ok none) := (Comp.runs_perform_bind _).mpr ⟨.ok false, [], rfl, rfl, rfl⟩
  unfold nixRunRootsManifest
  rw [hu]
  show (orStop (nixRunRootsManifestPath s.cacheHome guestSystem nixpkgs) >>= _).Runs _ _
  rw [hp]
  refine hlook.bind ?_
  show (orStop (requiredEnvBytes s.vars nixEnv) >>= _).Runs _ _
  rw [hn, ← List.append_nil (_ :: u.map inlEvent)]
  exact hbuild.bind ⟨rfl, rfl⟩

end Search

/-! ### Where it is kept and drafted -/

theorem nixRunRootsManifestPath_ok {cacheHome : Option Bytes} {guestSystem nixpkgs path : Bytes}
    (h : nixRunRootsManifestPath cacheHome guestSystem nixpkgs = .ok path) :
    ∃ hash base, HashPart nixpkgs hash ∧
      components path = base ++ (cacheNames guestSystem hash).map .normal := by
  obtain ⟨relative, hr, hp⟩ := bind_eq_ok h
  cases cacheHome with
  | none => cases hp
  | some dir =>
    obtain rfl := Except.ok.inj hp
    obtain ⟨hash, hh, hc⟩ := relativePath_names hr
    obtain ⟨_, -, -, -, he⟩ := relativePath_ok hr
    have hn : Name (utf8 "nix-run-roots") := ⟨by decide, by decide⟩
    obtain ⟨ha, hf⟩ := he ▸ front_name hn _
    have hcomps := hc.components
    rw [components_front, hf, List.nil_append] at hcomps
    exact ⟨hash, _, hh, by rw [components_push ha hf, hcomps]⟩

/-- A launcher's manifest is called after its guest system and its package universe. -/
theorem manifestOf_components {s : Surroundings} {path : Bytes} (h : manifestOf s = some path) :
    ∃ guestSystem nixpkgs hash base, packageSet s = some (guestSystem, nixpkgs) ∧
      HashPart nixpkgs hash ∧
      components path = base ++ (cacheNames guestSystem hash).map .normal := by
  obtain ⟨⟨guestSystem, nixpkgs⟩, hu, hx⟩ := Option.bind_eq_some_iff.mp h
  cases hp : nixRunRootsManifestPath s.cacheHome guestSystem nixpkgs with
  | ok p =>
    rw [hp] at hx
    obtain rfl := Option.some.inj hx
    obtain ⟨hash, base, hh, hc⟩ := nixRunRootsManifestPath_ok hp
    exact ⟨guestSystem, nixpkgs, hash, base, hu, hh, hc⟩
  | error e =>
    rw [hp] at hx
    cases hx

theorem manifestOf_name {s : Surroundings} {path : Bytes} (h : manifestOf s = some path) :
    ∃ hash, fileName path = some (hash ++ utf8 ".txt") := by
  obtain ⟨_, _, hash, base, -, -, hc⟩ := manifestOf_components h
  exact ⟨hash, by rw [fileName, hc]; simp [cacheNames]⟩

/-- The guest system of `s`, and a package universe of the same hash. -/
def SamePackages (s : Surroundings) (inputs : NixRunRootsBuildInputs) : Prop :=
  ∃ nixpkgs hash, packageSet s = some (inputs.guestSystem, nixpkgs) ∧ HashPart nixpkgs hash ∧
    HashPart inputs.nixpkgs hash

theorem key_normal {path : Bytes} {base : List Component} {names : List Bytes}
    (h : components path = base ++ names.map .normal) :
    key path = (base.filter fun c => c ≠ .curDir) ++ names.map .normal := by
  have hn : (names.map Component.normal).filter (fun c => c ≠ .curDir) = names.map .normal :=
    List.filter_eq_self.mpr fun c hc => by
      obtain ⟨name, -, rfl⟩ := List.mem_map.mp hc
      rfl
  rw [key, h, List.filter_append, hn]

/-- Launchers that share a manifest share their packages. -/
theorem manifestOf_packages {s s' : Surroundings} {path path' : Bytes}
    {inputs : NixRunRootsBuildInputs} (h : manifestOf s = some path)
    (h' : manifestOf s' = some path') (hk : key path = key path')
    (hu : packageSet s' = some (inputs.guestSystem, inputs.nixpkgs)) : SamePackages s inputs := by
  obtain ⟨guestSystem, nixpkgs, hash, base, hp, hh, hc⟩ := manifestOf_components h
  obtain ⟨_, _, hash', base', hp', hh', hc'⟩ := manifestOf_components h'
  obtain ⟨rfl, rfl⟩ := Prod.mk.inj (Option.some.inj (hu.symm.trans hp'))
  rw [key_normal hc, key_normal hc'] at hk
  have hn := (List.append_inj' hk (by simp [cacheNames])).2
  obtain ⟨rfl, rfl⟩ := cacheNames_injective.mp
    (List.map_injective_iff.mpr (fun _ _ => Component.normal.inj) hn)
  exact ⟨nixpkgs, _, hp, hh, hh'⟩

/-- Drafts of different processes have different names, whatever they are drafts of. -/
theorem tmpName_pid {name name' : Bytes} {i j : Nat} (h : tmpName name i = tmpName name' j) :
    i = j := by
  have hd : ∀ n, dot ∉ decimal n := fun n hm => absurd (mem_decimal hm) (by decide)
  have hs := congrArg (List.splitOn dot) (List.append_left_injective _ h)
  rw [List.splitOn_append_cons_self, List.splitOn_append_cons_self,
    List.splitOn_eq_singleton (hd i), List.splitOn_eq_singleton (hd j)] at hs
  have hl := congrArg List.getLast? hs
  simp only [List.getLast?_concat, Option.some.injEq] at hl
  exact decimal_injective hl

theorem tmpName_ne_txt (name hash : Bytes) (pid : Nat) :
    tmpName name pid ≠ hash ++ utf8 ".txt" := by
  intro h
  have hl := congrArg List.getLast? h
  rw [tmpName, List.getLast?_append, List.getLast?_append] at hl
  revert hl
  simp [show utf8 ".tmp" = [46, 116, 109, 112] by decide,
    show utf8 ".txt" = [46, 116, 120, 116] by decide]

/-- Where the launcher drafts the manifest. -/
def draftOf (s : Surroundings) : Key :=
  (((manifestOf s).bind fun path => (fileName path).map fun name =>
    draftKey path name s.pid)).getD []

theorem draftOf_eq {s : Surroundings} {path : Bytes} (h : manifestOf s = some path) :
    ∃ name, fileName path = some name ∧ draftOf s = draftKey path name s.pid := by
  obtain ⟨hash, hn⟩ := manifestOf_name h
  refine ⟨_, hn, ?_⟩
  rw [draftOf, h, Option.bind_some, hn]
  rfl

theorem draftOf_last {s : Surroundings} {path : Bytes} (h : manifestOf s = some path) :
    ∃ name, (draftOf s).getLast? = some (.normal (tmpName name s.pid)) := by
  obtain ⟨name, hn, hd⟩ := draftOf_eq h
  exact ⟨name, by rw [hd, draftKey_eq path _ (fileName_whole hn), List.getLast?_concat]⟩

theorem draftOf_ne {s s' : Surroundings} {path path' : Bytes} (h : manifestOf s = some path)
    (h' : manifestOf s' = some path') : draftOf s ≠ key path' := by
  intro he
  obtain ⟨name, hl⟩ := draftOf_last h
  obtain ⟨hash, hn⟩ := manifestOf_name h'
  rw [he, key_last hn] at hl
  exact tmpName_ne_txt name hash s.pid (Component.normal.inj (Option.some.inj hl)).symm

theorem draftOf_pid {s s' : Surroundings} {path path' : Bytes} (h : manifestOf s = some path)
    (h' : manifestOf s' = some path') (he : draftOf s = draftOf s') : s.pid = s'.pid := by
  obtain ⟨name, hl⟩ := draftOf_last h
  obtain ⟨name', hl'⟩ := draftOf_last h'
  rw [he, hl'] at hl
  exact (tmpName_pid (Component.normal.inj (Option.some.inj hl))).symm

/-! ### One launcher's calls -/

/-- Reading the file: all that a launcher does to a manifest that is there. -/
def looksAt (file : Key) : Act Key UInt8 IoError → Bool
  | ⟨.read p, _⟩ => p = file
  | _ => false

/-- What a launcher does to files, apart from looking for the manifest. -/
def drafted (file : Key) (t : List SysEvent) : List (Act Key UInt8 IoError) :=
  (t.filterMap inlOf).filter fun e => !looksAt file e

theorem drafted_append (file : Key) (t u : List SysEvent) :
    drafted file (t ++ u) = drafted file t ++ drafted file u := by
  rw [drafted, List.filterMap_append, List.filter_append]
  rfl

theorem looksAt_own {q file : Key} {e : Act Key UInt8 IoError} (hn : q ≠ file)
    (h : Own List.dropLast q file e) : looksAt file e = false := by
  obtain ⟨o, r⟩ := e
  cases o with
  | read p =>
    obtain rfl : p = q := h
    exact decide_eq_false hn
  | _ => rfl

theorem drafted_inl {q file : Key} {u : List (Act Key UInt8 IoError)} (hn : q ≠ file)
    (h : ∀ e ∈ u, Own List.dropLast q file e) : drafted file (u.map inlEvent) = u := by
  have hu : (u.map inlEvent : List SysEvent).filterMap inlOf = u := by
    rw [List.filterMap_map]
    exact List.filterMap_some
  rw [drafted, hu, List.filter_eq_self]
  intro e he
  rw [looksAt_own hn (h e he)]
  rfl

/-- A launcher that has come so far with a draft of its own. -/
structure Drafts (s : Surroundings) (build : Bool) (path : Bytes) (t : List SysEvent)
    (contents : Bytes) : Prop where
  meets : ∀ c, (writing contents).Meets (Draft.fresh c) (drafted (key path) t)
  acts : ∀ e ∈ drafted (key path) t, Own List.dropLast (draftOf s) (key path) e
  told : drafted (key path) t ≠ [] → build = true
  missing : drafted (key path) t ≠ [] → ⟨.inr (.tryExists (key path)), .ok false⟩ ∈ t
  made : drafted (key path) t ≠ [] →
    ∃ (inputs : NixRunRootsBuildInputs) (command : NixCommand) (out : Output),
      packageSet s = some (inputs.guestSystem, inputs.nixpkgs) ∧
      nixRunRootsCommand inputs = .ok command ∧
      ⟨.inr (.output command), .ok out⟩ ∈ t ∧ out.success = true ∧ out.stdout = contents

section Launcher

variable {s : Surroundings} {build : Bool} {path : Bytes} {t rest : List SysEvent}
  {r : Except Error (Option Bytes)}

theorem Drafts.idle (h : drafted (key path) t = []) : Drafts s build path t [] where
  meets _ := by rw [h]; trivial
  acts _ he := by rw [h] at he; cases he
  told hn := absurd h hn
  missing hn := absurd h hn
  made hn := absurd h hn

/-- Only a launcher that has found nothing drafts, and what nix printed. -/
theorem Search.drafts (hm : manifestOf s = some path)
    (h : Search s build path (t ++ rest) r) : ∃ contents, Drafts s build path t contents := by
  have hidle : drafted (key path) (t ++ rest) = [] →
      ∃ contents, Drafts s build path t contents := by
    intro hn
    rw [drafted_append] at hn
    exact ⟨[], .idle (List.append_eq_nil_iff.mp hn).1⟩
  generalize ht : t ++ rest = whole at h hidle
  cases h with
  | unseen err e => exact hidle rfl
  | found answer r ho => exact hidle (by simp [drafted, inlOf, looksAt])
  | missing r ho => exact hidle rfl
  | unmade command answer e => exact hidle rfl
  | made inputs command out u r hu hc hb hs hr =>
    match t, ht with
    | [], _ => exact ⟨[], .idle rfl⟩
    | [e], ht =>
      obtain ⟨he, -⟩ := List.cons.inj ht
      exact ⟨[], .idle (by rw [he]; rfl)⟩
    | e :: e' :: t, ht =>
      obtain ⟨rfl, ht₁⟩ := List.cons.inj ht
      obtain ⟨rfl, ht₂⟩ := List.cons.inj ht₁
      obtain ⟨u₁, u₂, rfl, rfl, rfl⟩ := List.append_eq_map_iff.mp ht₂
      obtain ⟨name, hn, hd⟩ := draftOf_eq hm
      have hacts := write_acts out.stdout s.pid hn _ _ hr
      rw [← hd] at hacts
      have hdrafted : drafted (key path) (⟨.inr (.tryExists (key path)), .ok false⟩ ::
          ⟨.inr (.output command), .ok out⟩ :: u₁.map inlEvent) = u₁ :=
        drafted_inl (draftOf_ne hm hm) fun e he => hacts e (List.mem_append_left _ he)
      refine ⟨out.stdout, fun c => ?_, fun e he => ?_, fun _ => hb, fun _ => .head _, fun _ =>
        ⟨inputs, command, out, hu, hc, .tail _ (.head _), hs, rfl⟩⟩
      · rw [hdrafted]
        have hmeets := (write_triple path s.pid (by simp [hn]) (Draft.fresh c) _ r rfl hr
          fun _ _ => trivial).1
        exact ((Monitor.meets_append ..).mp hmeets).1
      · rw [hdrafted] at he
        exact hacts e (List.mem_append_left _ he)

/-- A launcher that has a manifest has read it or put it there. -/
theorem Search.served {out : Bytes} (hm : manifestOf s = some path)
    (h : Search s build path t (.ok (some out))) : out = path ∧
      ((∃ raw, ⟨.inl (.read (key path)), .ok raw⟩ ∈ t ∧ Loadable raw) ∨
        ∃ e ∈ drafted (key path) t, Renames e) := by
  generalize hr : (Except.ok (some out) : Except Error (Option Bytes)) = r at h
  cases h with
  | unseen err e => cases hr
  | found answer r ho =>
    obtain ⟨he, raw, rfl, hl⟩ := ho _ hr.symm
    exact ⟨Option.some.inj he, .inl ⟨raw, .tail _ (.head _), hl⟩⟩
  | missing r ho => exact absurd (ho _ hr.symm) nofun
  | unmade command answer e => cases hr
  | made inputs command out' u r hu hc hb hs hrun =>
    cases r with
    | error e => cases hr
    | ok v =>
      refine ⟨Option.some.inj (Except.ok.inj hr), .inr ?_⟩
      obtain ⟨name, hn, hd⟩ := draftOf_eq hm
      have hacts := write_acts out'.stdout s.pid hn _ _ hrun
      rw [← hd] at hacts
      obtain ⟨-, hrep, -⟩ := write_triple path s.pid (by simp [hn]) (Draft.fresh none) u _ rfl
        hrun fun _ _ => trivial
      show ∃ e ∈ drafted (key path) (u.map inlEvent), Renames e
      rw [drafted_inl (draftOf_ne hm hm) hacts]
      refine @renames_of_replaced _ _ _ (Draft.fresh none) u ?_
      rw [show (u.foldl Draft.step _).replaced = some out'.stdout from hrep]
      exact nofun

end Launcher

end Claudepod
