import Claudepod.Sharing
import Claudepod.SubIds

/-! The entry point of the container: what it makes of its environment and its arguments before
it hands over to init. -/

set_option autoImplicit false

namespace Claudepod
open Interaction

/-! ### The entry point -/

/-- The container around the entry point. -/
structure Site where
  /-- The environment that podman sets by itself. -/
  base : Env
  base_unset : ∀ name ∈ namesEnv :: controlVars, base name = none
  uidMap : Except Error Text
  gidMap : Except Error Text
  /-- `{:?}` of a value that is not Unicode. -/
  quoted : Bytes → String
  /-- The outcome of a system call, under the text that goes with its failure. -/
  outcome : String → Except Error Unit

def Site.call (site : Site) (text : String) : Except Error Unit :=
  (site.outcome text).mapError (Error.context text)

/-- What is there when init starts. -/
structure Guest where
  files : RunFiles
  username : Bytes
  subuid : Text
  subgid : Text
  storeLayers : Bytes
  toplevel : Bytes
  verbose : Bool
  /-- The options of the overlay on `/nix/store`. -/
  overlay : Bytes
  /-- Where `/etc/localtime` has been made to point. -/
  localtime : Option Bytes
  /-- Targets and names of the links for devices. -/
  deviceLinks : List (Bytes × Bytes)
  init : Bytes
  /-- The variable `container` of init. -/
  container : Bytes
  deriving DecidableEq

def varOs (env : Env) (name : Bytes) : Except Error Bytes :=
  match env name with
  | some value => .ok value
  | none => .error (.msg (fromUtf8Lossy name ++ " is not set"))

/-- `std::env::var`. -/
def var (site : Site) (env : Env) (name : Bytes) : Except Error Bytes :=
  match env name with
  | some value =>
    if isUtf8 value then .ok value
    else .error ((Error.msg
      ("environment variable was not valid unicode: " ++ site.quoted value)).context
      (fromUtf8Lossy name ++ " is not set"))
  | none => .error ((Error.msg "environment variable not found").context
      (fromUtf8Lossy name ++ " is not set"))

/-- A variable with a value that is not empty. -/
def isSet (env : Env) (name : Bytes) : Bool := (env name).any (· ≠ [])

/-- The overlay's options, and the layers of a launcher inside. -/
def mountStore (site : Site) (env : Env) : Except Error (Bytes × Bytes) := do
  let (options, layers) ← setupStoreOverlay (env (utf8 storeLayersEnv))
  site.call "create /nix/.rw-store"
  site.call "mount tmpfs on /nix/.rw-store"
  site.call "create overlay upper dir"
  site.call "create overlay work dir"
  site.call "mount overlay on /nix/store"
  pure (options, layers)

def subidFileFromMapPath (path : String) (map : Except Error Text) : Except Error Text := do
  let map ← map.mapError (Error.context s!"read {path}")
  subidFileFromMap map

/-- The files under `/run`, in the order of their writes. -/
def writeRuntimeConfig (site : Site) (env : Env) (system username : Bytes) (command : List Bytes)
    (overlay layers : Bytes) : Except Error Guest := do
  site.call "write /run/claudepod-username"
  let project ← requiredEnvBytes env projectPathEnv
  site.call "write /run/claudepod-project"
  let mode ← requiredEnvBytes env modeEnv
  site.call "write /run/claudepod-mode"
  let subuid ← subidFileFromMapPath "/proc/self/uid_map" site.uidMap
  site.call "write /run/claudepod-subuid"
  let subgid ← subidFileFromMapPath "/proc/self/gid_map" site.gidMap
  site.call "write /run/claudepod-subgid"
  site.call "write /run/claudepod-command"
  site.call "write /run/claudepod-store-layers"
  site.call "write /run/claudepod-toplevel"
  let text ← agentEnvFile env
  site.call "write /run/claudepod-env"
  let verbose := isSet env verboseEnv
  if verbose then do
    site.call "create /run/systemd/system.conf.d"
    site.call "write systemd verbose config"
  pure {
    files := ⟨mode ++ [newline], project ++ [newline], command.flatMap (· ++ [0]), text⟩
    username := username ++ [newline]
    subuid := subuid
    subgid := subgid
    storeLayers := storeLayersText layers
    toplevel := toplevelText system
    verbose := verbose
    overlay := overlay
    localtime := none
    deviceLinks := []
    init := system ++ utf8 "/init"
    container := (env (utf8 "container")).getD (utf8 "podman") }

/-- Where `/etc/localtime` shall point. A missing link is no failure of its removal. -/
def setupLocaltime (site : Site) (env : Env) : Except Error (Option Bytes) :=
  match (env timezoneEnv).filter (· ≠ []) with
  | none => .ok none
  | some timezone => do
    let target := push hostZoneinfo timezone
    site.call "remove /etc/localtime"
    site.call s!"create /etc/localtime -> {display target}"
    pure (some target)

def usbDeviceClasses : List Bytes := ["hidraw", "ttyUSB"].map utf8
def usbDeviceLinksPerClass : Nat := 64
def hostDevSubdir : Bytes := utf8 "host"

def deviceLink (dev cls : Bytes) (n : Nat) : Bytes × Bytes :=
  (push hostDevSubdir (cls ++ decimal n), push dev (cls ++ decimal n))

def usbDeviceLinks (dev : Bytes) : List (Bytes × Bytes) :=
  usbDeviceClasses.flatMap fun cls => (List.range usbDeviceLinksPerClass).map (deviceLink dev cls)

def createUsbDeviceLinks (site : Site) (dev : Bytes) : Except Error (List (Bytes × Bytes)) := do
  let _ ← (usbDeviceLinks dev).mapM fun (target, link) =>
    site.call s!"create {display link} -> {display target}"
  pure (usbDeviceLinks dev)

/-- The links that a launch with USB devices needs. -/
def setupUsb (site : Site) (env : Env) : Except Error (List (Bytes × Bytes)) :=
  if isSet env usbEnv then
    (createUsbDeviceLinks site (utf8 "/dev")).mapError (Error.context "create USB device links")
  else .ok []

/-- `run`, up to the `exec` of init. -/
def enter (site : Site) (env : Env) (command : List Bytes) : Except Error Guest := do
  let system ← varOs env toplevelEnv
  let username ← var site env usernameEnv
  let (overlay, layers) ← (mountStore site env).mapError (Error.context "mount setup")
  let guest ← (writeRuntimeConfig site env system username command overlay layers).mapError
    (Error.context "write runtime config")
  let localtime ← (setupLocaltime site env).mapError (Error.context "setup localtime")
  let links ← setupUsb site env
  pure { guest with localtime := localtime, deviceLinks := links }

/-! ### What it leaves behind -/

/-- A guest that init starts in. -/
structure Entered (site : Site) (env : Env) (command : List Bytes) (g : Guest) : Prop where
  files : writeRunFiles env command = .ok g.files
  username : ∃ name, env usernameEnv = some name ∧ g.username = name ++ [newline]
  system : ∃ system, env toplevelEnv = some system ∧ g.toplevel = toplevelText system ∧
    g.init = system ++ utf8 "/init"
  store : ∃ layers, setupStoreOverlay (env (utf8 storeLayersEnv)) = .ok (g.overlay, layers) ∧
    g.storeLayers = storeLayersText layers
  subuid : ∃ map, site.uidMap = .ok map ∧ subidFileFromMap map = .ok g.subuid
  subgid : ∃ map, site.gidMap = .ok map ∧ subidFileFromMap map = .ok g.subgid
  verbose : g.verbose = isSet env verboseEnv
  localtime : g.localtime = ((env timezoneEnv).filter (· ≠ [])).map (push hostZoneinfo)
  deviceLinks : g.deviceLinks = if isSet env usbEnv then usbDeviceLinks (utf8 "/dev") else []

theorem varOs_ok {env : Env} {name value : Bytes} (h : varOs env name = .ok value) :
    env name = some value := by
  unfold varOs at h
  split at h
  · rename_i he
    rw [he, Except.ok.inj h]
  · cases h

theorem var_ok {site : Site} {env : Env} {name value : Bytes} (h : var site env name = .ok value) :
    env name = some value := by
  unfold var at h
  split at h
  · rename_i he
    split at h
    · rw [he, Except.ok.inj h]
    · cases h
  · cases h

theorem mountStore_ok {site : Site} {env : Env} {x : Bytes × Bytes}
    (h : mountStore site env = .ok x) :
    setupStoreOverlay (env (utf8 storeLayersEnv)) = .ok x := by
  unfold mountStore at h
  obtain ⟨⟨options, layers⟩, hs, h⟩ := bind_eq_ok h
  obtain ⟨_, -, h⟩ := bind_eq_ok h
  obtain ⟨_, -, h⟩ := bind_eq_ok h
  obtain ⟨_, -, h⟩ := bind_eq_ok h
  obtain ⟨_, -, h⟩ := bind_eq_ok h
  obtain ⟨_, -, h⟩ := bind_eq_ok h
  obtain rfl := Except.ok.inj h
  exact hs

theorem subidFileFromMapPath_ok {path : String} {map : Except Error Text} {text : Text}
    (h : subidFileFromMapPath path map = .ok text) :
    ∃ m, map = .ok m ∧ subidFileFromMap m = .ok text := by
  obtain ⟨m, hm, h⟩ := bind_eq_ok h
  exact ⟨m, mapError_eq_ok hm, h⟩

theorem setupLocaltime_ok {site : Site} {env : Env} {localtime : Option Bytes}
    (h : setupLocaltime site env = .ok localtime) :
    localtime = ((env timezoneEnv).filter (· ≠ [])).map (push hostZoneinfo) := by
  unfold setupLocaltime at h
  split at h
  · rename_i he
    rw [he, ← Except.ok.inj h]
    rfl
  · rename_i timezone he
    obtain ⟨_, -, h⟩ := bind_eq_ok h
    obtain ⟨_, -, h⟩ := bind_eq_ok h
    rw [he, ← Except.ok.inj h]
    rfl

theorem setupUsb_ok {site : Site} {env : Env} {links : List (Bytes × Bytes)}
    (h : setupUsb site env = .ok links) :
    links = if isSet env usbEnv then usbDeviceLinks (utf8 "/dev") else [] := by
  unfold setupUsb at h
  split at h
  · rename_i hu
    obtain ⟨_, -, h⟩ := bind_eq_ok (mapError_eq_ok h)
    rw [if_pos hu, ← Except.ok.inj h]
  · rename_i hu
    rw [if_neg hu, ← Except.ok.inj h]

theorem writeRuntimeConfig_ok {site : Site} {env : Env} {system username overlay layers : Bytes}
    {command : List Bytes} {g : Guest}
    (h : writeRuntimeConfig site env system username command overlay layers = .ok g) :
    writeRunFiles env command = .ok g.files ∧
      (∃ map, site.uidMap = .ok map ∧ subidFileFromMap map = .ok g.subuid) ∧
      (∃ map, site.gidMap = .ok map ∧ subidFileFromMap map = .ok g.subgid) ∧
      g = ⟨g.files, username ++ [newline], g.subuid, g.subgid, storeLayersText layers,
        toplevelText system, isSet env verboseEnv, overlay, none, [], system ++ utf8 "/init",
        (env (utf8 "container")).getD (utf8 "podman")⟩ := by
  unfold writeRuntimeConfig at h
  obtain ⟨_, -, h⟩ := bind_eq_ok h
  obtain ⟨project, hproject, h⟩ := bind_eq_ok h
  obtain ⟨_, -, h⟩ := bind_eq_ok h
  obtain ⟨mode, hmode, h⟩ := bind_eq_ok h
  obtain ⟨_, -, h⟩ := bind_eq_ok h
  obtain ⟨subuid, huid, h⟩ := bind_eq_ok h
  obtain ⟨_, -, h⟩ := bind_eq_ok h
  obtain ⟨subgid, hgid, h⟩ := bind_eq_ok h
  obtain ⟨_, -, h⟩ := bind_eq_ok h
  obtain ⟨_, -, h⟩ := bind_eq_ok h
  obtain ⟨_, -, h⟩ := bind_eq_ok h
  obtain ⟨_, -, h⟩ := bind_eq_ok h
  obtain ⟨text, htext, h⟩ := bind_eq_ok h
  obtain ⟨_, -, h⟩ := bind_eq_ok h
  have hfiles : writeRunFiles env command =
      .ok ⟨mode ++ [newline], project ++ [newline], command.flatMap (· ++ [0]), text⟩ := by
    rw [writeRunFiles, hproject, hmode, htext]
    rfl
  have hg : g = ⟨⟨mode ++ [newline], project ++ [newline], command.flatMap (· ++ [0]), text⟩,
      username ++ [newline], subuid, subgid, storeLayersText layers, toplevelText system,
      isSet env verboseEnv, overlay, none, [], system ++ utf8 "/init",
      (env (utf8 "container")).getD (utf8 "podman")⟩ := by
    cases hv : isSet env verboseEnv with
    | false =>
      simp only [hv, Bool.false_eq_true, if_false] at h
      exact (Except.ok.inj h).symm
    | true =>
      simp only [hv, if_true] at h
      obtain ⟨_, -, h⟩ := bind_eq_ok h
      obtain ⟨_, -, h⟩ := bind_eq_ok h
      exact (Except.ok.inj h).symm
  rw [hg]
  exact ⟨hfiles, subidFileFromMapPath_ok huid, subidFileFromMapPath_ok hgid, rfl⟩

theorem enter_ok {site : Site} {env : Env} {command : List Bytes} {g : Guest}
    (h : enter site env command = .ok g) : Entered site env command g := by
  unfold enter at h
  obtain ⟨system, hsystem, h⟩ := bind_eq_ok h
  obtain ⟨username, husername, h⟩ := bind_eq_ok h
  obtain ⟨⟨overlay, layers⟩, hstore, h⟩ := bind_eq_ok h
  obtain ⟨guest, hguest, h⟩ := bind_eq_ok h
  obtain ⟨localtime, hlocal, h⟩ := bind_eq_ok h
  obtain ⟨links, hlinks, h⟩ := bind_eq_ok h
  obtain rfl := Except.ok.inj h
  obtain ⟨hfiles, huid, hgid, hg⟩ := writeRuntimeConfig_ok (mapError_eq_ok hguest)
  exact {
    files := hfiles
    username := ⟨username, var_ok husername, by rw [hg]⟩
    system := ⟨system, varOs_ok hsystem, by rw [hg], by rw [hg]⟩
    store := ⟨layers, by rw [hg]; exact mountStore_ok (mapError_eq_ok hstore), by rw [hg]⟩
    subuid := huid
    subgid := hgid
    verbose := by rw [hg]
    localtime := setupLocaltime_ok (mapError_eq_ok hlocal)
    deviceLinks := setupUsb_ok hlinks }

end Claudepod
