import Claudepod.CommandLine
import Claudepod.Ports
import Claudepod.Project
import Claudepod.RunFiles

/-! The launcher: `main`, from its command line to the arguments of podman. What it asks of the
host, and what it has the host do, is a parameter. -/

set_option autoImplicit false

namespace Claudepod
open Interaction

/-- The command line. -/
structure Args where
  shell : Bool
  verbose : Bool
  extraVolumes : List Bytes
  env : List Bytes
  hostPort : List PortMap
  publish : List PortMap
  sandboxHome : Option Bytes
  gpu : Bool
  usb : Bool
  buildNixRunRoots : Bool
  command : List Bytes

/-- The answers of the host. -/
structure Host where
  /-- The file name of `argv[0]`. -/
  commandName : Bytes
  vars : Env
  username : Except Error Bytes
  /-- `get_data_home`; a relative path in the environment counts as none. -/
  dataHome : Option Bytes
  dataHome_absolute : ∀ dir ∈ dataHome, isAbsolute dir = true
  currentDir : Except Error Bytes
  currentDir_absolute : ∀ dir, currentDir = .ok dir → isAbsolute dir = true
  currentExe : Except Error Bytes
  pathExists : Bytes → Bool
  isDir : Bytes → Bool
  /-- The names in a directory; an entry may be unreadable. -/
  readDir : Bytes → Except Error (List (Option Bytes))
  createDirAll : Bytes → Except Error Unit
  /-- `create_dir_all` with mode 0700. -/
  createPrivateDir : Bytes → Except Error Unit
  readLink : Bytes → Option Bytes
  toplevelFile : Except Error Bytes
  /-- `None` is a file that does not exist. -/
  storeLayersFile : Except Error (Option Bytes)
  nixRunRootsManifest : Bool → Except Error (Option Bytes)
  spawnNixProxy : Option Bytes → Except Error Bytes
  /-- `{:?}` of a string. -/
  quoted : String → String

def require (P : Prop) [Decidable P] (text : String) : Except Error Unit :=
  if P then .ok () else .error (.msg text)

/-! ### Devices -/

def openglDriverDir : Bytes := utf8 "/run/opengl-driver"
def usbfsDir : Bytes := utf8 "/dev/bus/usb"
def hostDevDir : Bytes := utf8 "/dev/host"

def isDigit (b : UInt8) : Bool := 48 ≤ b && b ≤ 57

/-- `nvidia` and a number. -/
def isGpuNode (name : Bytes) : Bool :=
  isUtf8 name && ((utf8 "nvidia").isPrefixOf? name).any fun rest => rest ≠ [] && rest.all isDigit

/-- A node that has to be there. -/
def controlNode (host : Host) (dev name : Bytes) : Except Error Bytes := do
  let path := push dev name
  require (host.pathExists path = true) s!"--gpu: {display path} not found (NVIDIA driver loaded?)"
  pure path

/-- The paths differ in their last component only, so the order is that of the names. -/
def sortNames (names : List Bytes) : List Bytes := names.mergeSort fun a b => decide (a ≤ b)

/-- The control nodes, and one for each GPU. -/
def nvidiaDeviceNodes (host : Host) (dev : Bytes) : Except Error (List Bytes) := do
  let devices ← [utf8 "nvidiactl", utf8 "nvidia-uvm", utf8 "nvidia-uvm-tools"].mapM
    (controlNode host dev)
  let entries ← (host.readDir dev).mapError (Error.context s!"read {display dev}")
  let gpus := (entries.filterMap id).filter fun name => isGpuNode name
  require (gpus ≠ []) s!"--gpu: no {display dev}/nvidia[0-9]* device nodes"
  pure (devices ++ (sortNames gpus).map (push dev))

/-- The driver's variable and the device nodes. -/
def gpuSetup (cli : Args) (host : Host) : Except Error (List EnvSpec × List Bytes) :=
  if cli.gpu then do
    let devices ← nvidiaDeviceNodes host (utf8 "/dev")
    require (host.isDir openglDriverDir = true) s!"--gpu: {display openglDriverDir} not found"
    let driver ← parseEnvSpec openglDriverEnv
    pure ([driver], devices)
  else .ok ([], [])

/-! ### What the host says -/

def defaultModeFromCommandName (host : Host) : Except Error Bytes :=
  if host.commandName = utf8 "claudepod" then .ok (utf8 "claude")
  else if host.commandName = utf8 "gptpod" then .ok (utf8 "codex")
  else .error (.msg (s!"unknown command name {host.quoted (fromUtf8Lossy host.commandName)}; " ++
    "expected claudepod or gptpod"))

def selectMode (cli : Args) (host : Host) : Except Error Bytes :=
  if cli.shell then .ok (utf8 "shell") else defaultModeFromCommandName host

def stateDir (host : Host) : Except Error Bytes :=
  match host.dataHome with
  | some dir => .ok (push dir (utf8 "claudepod"))
  | none => .error (.msg "HOME is not set and XDG_DATA_HOME is unavailable")

def hostLocaltime : Bytes := utf8 "/etc/localtime"
def hostZoneinfo : Bytes := utf8 "/etc/zoneinfo"

/-- Where `/etc/localtime` points below `/etc/zoneinfo`. -/
def hostTimezone (host : Host) : Option Bytes :=
  ((host.readLink hostLocaltime).bind fun target => stripPrefix target hostZoneinfo).filter
    (· ≠ [])

/-- `path.with_file_name(name)`, for the path of an executable: it ends in its file name. -/
def withFileName (path name : Bytes) : Bytes :=
  [slash].intercalate ((path.splitOn slash).dropLast ++ [name])

/-! ### Directories and volumes -/

def homeEnv : Bytes := utf8 "HOME"

/-- The lowerdir of the rootfs, which must remain empty. -/
def prepareRootfs (host : Host) (rootfsDir : Bytes) : Except Error Unit := do
  (host.createDirAll rootfsDir).mapError (Error.context s!"create {display rootfsDir}")
  let entries ← (host.readDir rootfsDir).mapError (Error.context s!"read {display rootfsDir}")
  require (entries = []) s!"{display rootfsDir} is not empty"

/-- So that the mountpoint inside the guest's home is the user's. -/
def makeMountpoint (host : Host) (p : Placement) : Except Error Unit :=
  match p.mountpoint with
  | some dir => (host.createDirAll dir).mapError (Error.context s!"create {display dir}")
  | none => .ok ()

def guestSocket : Bytes := utf8 "/nix/.host-nix-daemon/socket"

/-- A volume that there is only sometimes. -/
def volumeIf (c : Bool) (host guest : Bytes) (options : Option String) :
    Except Error (List Bytes) :=
  if c then (volumeSpec host guest options).map ([·]) else .ok []

/-- The bus, and all of the host's devices for the nodes of class drivers. -/
def usbVolumes (cli : Args) (host : Host) : Except Error (List Bytes) :=
  if cli.usb then do
    require (host.isDir usbfsDir = true) s!"--usb: {display usbfsDir} not found"
    let usbfs ← volumeSpec usbfsDir usbfsDir none
    let dev ← volumeSpec (utf8 "/dev") hostDevDir none
    pure [usbfs, dev]
  else .ok []

/-- The `-v` arguments, in order. -/
def launchVolumes (cli : Args) (host : Host) (proxySocket : Bytes) (p : Placement)
    (parentLayers : List Bytes) : Except Error (List Bytes) := do
  let store ← volumeSpec hostStore hostStore (some "ro")
  let socket ← volumeSpec proxySocket guestSocket none
  let home ← volumeSpec p.homeDir p.home none
  let src ← volumeIf p.srcRoot.isSome (p.srcRoot.getD []) p.guestSrc none
  let layers ← layerVolumes parentLayers
  let project ← volumeIf p.needProjectShare p.projectDir p.guestPath none
  let driver ← volumeIf cli.gpu openglDriverDir openglDriverDir (some "ro")
  let usb ← usbVolumes cli host
  let extra ← cli.extraVolumes.mapM (extraVolumeSpec host.currentDir)
  pure ([store, socket, home] ++ src ++ layers ++ project ++ driver ++ usb ++ extra)

/-! ### Podman -/

/-- The arguments that never change. -/
def fixedArgs : List Bytes :=
  ["run", "--rm", "-it", "--log-driver=none", "--userns=keep-id:uid=1000,gid=100", "--user", "0:0",
    "--cap-add=SYS_ADMIN", "--cap-add=NET_ADMIN", "--cap-add=NET_RAW", "--cap-add=SYS_PTRACE",
    "--device", "/dev/fuse", "--device", "/dev/net/tun", "--rootfs", "--systemd=always",
    "--no-hostname", "--no-hosts", "--dns=none", "--pids-limit=16384", "--shm-size", "2g",
    "--security-opt", "unmask=ALL"].map utf8

def textBytes (text : Text) : Bytes := utf8 (String.ofList text)

/-- Each value behind the flag. -/
def under (flag : String) (values : List Bytes) : List Bytes :=
  values.flatMap fun value => [utf8 flag, value]

def rootfsSpec (rootfsDir : Bytes) : Except Error Bytes := do
  rejectColonPath "rootfs" rootfsDir
  pure (rootfsDir ++ utf8 ":O")

/-- A program and its arguments. -/
structure Exec where
  program : Bytes
  args : List Bytes
  deriving DecidableEq

/-- What `main` has found out before it starts anything. -/
structure Plan where
  podman : Bytes
  fuseOverlayfs : Bytes
  devices : List Bytes
  env : List EnvSpec
  launch : Launch
  placement : Placement
  rootfsDir : Bytes

/-- `main` up to the manifest and the proxy. -/
def plan (cli : Args) (host : Host) : Except Error Plan := do
  let user ← parseEnvSpecs cli.env
  let gpu ← gpuSetup cli host
  let system ← toplevel (host.vars toplevelEnv) host.toplevelFile
  let podman ← requiredEnvBytes host.vars (utf8 "CLAUDEPOD_PODMAN")
  let fuseOverlayfs ← requiredEnvBytes host.vars (utf8 "CLAUDEPOD_FUSE_OVERLAYFS")
  let username ← host.username
  let mode ← selectMode cli host
  let stateDir ← stateDir host
  let homeDir ← guestHomeDir cli.sandboxHome stateDir host.currentDir
  (host.createPrivateDir homeDir).mapError (Error.context s!"create {display homeDir}")
  let rootfsDir := push stateDir (utf8 "empty-rootfs")
  prepareRootfs host rootfsDir
  let projectDir ← host.currentDir.mapError (Error.context "current directory")
  let p ← placement (host.vars homeEnv) cli.sandboxHome homeDir projectDir username
  makeMountpoint host p
  let file ← host.storeLayersFile.mapError (Error.context s!"read {storeLayersFile}")
  let parentLayers ← parentStoreLayers file
  pure ⟨podman, fuseOverlayfs, gpu.2, gpu.1 ++ user, ⟨cli.env, cli.gpu, cli.verbose, cli.usb,
    hostTimezone host, parentLayers, username, system, p.guestPath, mode⟩, p, rootfsDir⟩

/-- What podman is given. -/
def podmanArgs (cli : Args) (plan : Plan) (volumes : List Bytes) (rootfs init : Bytes) :
    List Bytes :=
  fixedArgs ++ under "--storage-opt" [envArg (utf8 "overlay.mount_program") plan.fuseOverlayfs] ++
    under "--device" plan.devices ++
    under "--network" ((networkArg cli.hostPort cli.publish).map textBytes).toList ++
    under "-p" (cli.publish.map fun port => textBytes (publishArg port)) ++
    under "-v" volumes ++
    under "-e" (plan.env.map (·.arg) ++ Launch.namesArgs plan.env ++ plan.launch.controlArgs) ++
    rootfs :: init :: cli.command

/-- `main`, up to the `exec` of podman. -/
def main (cli : Args) (host : Host) : Except Error Exec := do
  let plan ← plan cli host
  let nixRunRoots ← host.nixRunRootsManifest cli.buildNixRunRoots
  let proxySocket ← host.spawnNixProxy nixRunRoots
  let volumes ← launchVolumes cli host proxySocket plan.placement plan.launch.parentLayers
  let exe ← host.currentExe.mapError (Error.context "resolve own executable path")
  let rootfs ← rootfsSpec plan.rootfsDir
  pure ⟨plan.podman, podmanArgs cli plan volumes rootfs (withFileName exe (utf8 "claudepod-entry"))⟩

/-! ### What `main` does when it succeeds -/

/-- A project that has its place. -/
structure Placed (cli : Args) (host : Host) (username : Bytes) (p : Placement) : Prop where
  home : p.home = guestHome username
  homeDir : ∃ dir, host.dataHome = some dir ∧
    guestHomeDir cli.sandboxHome (push dir (utf8 "claudepod")) host.currentDir = .ok p.homeDir
  current : host.currentDir = .ok p.projectDir
  source : sharedSrcRoot (host.vars homeEnv) cli.sandboxHome = .ok p.srcRoot
  path : guestProjectPath p.projectDir p.srcRoot (oneToOneProjectRoots (host.vars homeEnv))
    username = .ok (p.guestPath, p.needProjectShare)

/-- A plan that was made. -/
structure Planned (cli : Args) (host : Host) (plan : Plan) : Prop where
  env : ∃ user driver, parseEnvSpecs cli.env = .ok user ∧ gpuSetup cli host = .ok driver ∧
    plan.env = driver.1 ++ user ∧ plan.devices = driver.2
  placed : Placed cli host plan.launch.username plan.placement
  mode : selectMode cli host = .ok plan.launch.mode
  system : toplevel (host.vars toplevelEnv) host.toplevelFile = .ok plan.launch.toplevel
  username : host.username = .ok plan.launch.username
  guestPath : plan.launch.guestPath = plan.placement.guestPath
  timezone : plan.launch.timezone = hostTimezone host
  layers : ∃ file, host.storeLayersFile = .ok file ∧
    parentStoreLayers file = .ok plan.launch.parentLayers
  rootfsDir : ∃ dir, host.dataHome = some dir ∧
    plan.rootfsDir = push (push dir (utf8 "claudepod")) (utf8 "empty-rootfs")
  options : plan.launch.env = cli.env ∧ plan.launch.gpu = cli.gpu ∧
    plan.launch.verbose = cli.verbose ∧ plan.launch.usb = cli.usb

theorem stateDir_ok {host : Host} {dir : Bytes} (h : stateDir host = .ok dir) :
    ∃ home, host.dataHome = some home ∧ dir = push home (utf8 "claudepod") := by
  unfold stateDir at h
  cases hd : host.dataHome with
  | none => simp [hd] at h
  | some home =>
    rw [hd] at h
    exact ⟨home, rfl, (Except.ok.inj h).symm⟩

theorem plan_ok {cli : Args} {host : Host} {p : Plan} (h : plan cli host = .ok p) :
    Planned cli host p := by
  unfold plan at h
  obtain ⟨user, huser, h⟩ := bind_eq_ok h
  obtain ⟨gpu, hgpu, h⟩ := bind_eq_ok h
  obtain ⟨system, hsystem, h⟩ := bind_eq_ok h
  obtain ⟨podman, hpodman, h⟩ := bind_eq_ok h
  obtain ⟨fuse, hfuse, h⟩ := bind_eq_ok h
  obtain ⟨username, husername, h⟩ := bind_eq_ok h
  obtain ⟨mode, hmode, h⟩ := bind_eq_ok h
  obtain ⟨state, hstate, h⟩ := bind_eq_ok h
  obtain ⟨homeDir, hhome, h⟩ := bind_eq_ok h
  obtain ⟨_, -, h⟩ := bind_eq_ok h
  obtain ⟨_, -, h⟩ := bind_eq_ok h
  obtain ⟨projectDir, hproject, h⟩ := bind_eq_ok h
  obtain ⟨place, hplace, h⟩ := bind_eq_ok h
  obtain ⟨_, -, h⟩ := bind_eq_ok h
  obtain ⟨file, hfile, h⟩ := bind_eq_ok h
  obtain ⟨layers, hlayers, h⟩ := bind_eq_ok h
  obtain rfl := Except.ok.inj h
  obtain ⟨dir, hdir, rfl⟩ := stateDir_ok hstate
  obtain ⟨hplaced, rfl, rfl, hroot, hpath⟩ := placement_ok hplace
  exact {
    env := ⟨user, gpu, huser, hgpu, rfl, rfl⟩
    placed := ⟨hplaced, ⟨dir, hdir, hhome⟩, mapError_eq_ok hproject, hroot, hpath⟩
    mode := hmode
    system := hsystem
    username := husername
    guestPath := rfl
    timezone := rfl
    layers := ⟨file, mapError_eq_ok hfile, hlayers⟩
    rootfsDir := ⟨dir, hdir, rfl⟩
    options := ⟨rfl, rfl, rfl, rfl⟩ }

/-- A run of `main` that reaches podman. -/
structure Launched (cli : Args) (host : Host) (exec : Exec) (plan : Plan) (socket : Bytes)
    (volumes : List Bytes) (init : Bytes) : Prop where
  planned : Planned cli host plan
  proxy : ∃ roots, host.nixRunRootsManifest cli.buildNixRunRoots = .ok roots ∧
    host.spawnNixProxy roots = .ok socket
  mounted : launchVolumes cli host socket plan.placement plan.launch.parentLayers = .ok volumes
  entry : ∃ exe, host.currentExe = .ok exe ∧ init = withFileName exe (utf8 "claudepod-entry")
  args : exec = ⟨plan.podman, podmanArgs cli plan volumes (plan.rootfsDir ++ utf8 ":O") init⟩

theorem main_ok {cli : Args} {host : Host} {exec : Exec} (h : main cli host = .ok exec) :
    ∃ plan socket volumes init, Launched cli host exec plan socket volumes init := by
  unfold main at h
  obtain ⟨plan, hplan, h⟩ := bind_eq_ok h
  obtain ⟨roots, hroots, h⟩ := bind_eq_ok h
  obtain ⟨socket, hsocket, h⟩ := bind_eq_ok h
  obtain ⟨volumes, hvolumes, h⟩ := bind_eq_ok h
  obtain ⟨exe, hexe, h⟩ := bind_eq_ok h
  obtain ⟨rootfs, hrootfs, h⟩ := bind_eq_ok h
  obtain rfl := Except.ok.inj h
  obtain ⟨_, -, hrootfs⟩ := bind_eq_ok hrootfs
  obtain rfl := Except.ok.inj hrootfs
  exact ⟨plan, socket, volumes, _, plan_ok hplan, ⟨roots, hroots, hsocket⟩, hvolumes,
    ⟨exe, mapError_eq_ok hexe, rfl⟩, rfl⟩

/-! ### How podman reads its arguments -/

open CommandLine

/-- The flags of `podman run` that the launcher uses. -/
def podmanFlags : Table where
  switches := ["--rm", "-it", "--rootfs", "--no-hostname", "--no-hosts"].map utf8
  valued := ["--log-driver", "--userns", "--user", "--cap-add", "--device", "--systemd", "--dns",
    "--pids-limit", "--shm-size", "--security-opt", "--storage-opt", "--network", "-p", "-v",
    "-e"].map utf8

theorem podmanFlags_sound : podmanFlags.Sound where
  hyphened := by decide +kernel
  plain := by decide +kernel
  closed := by decide +kernel
  disjoint := by decide +kernel

/-- The flags that never change, as they are written. -/
def fixedItems : List Item :=
  [.switch (utf8 "--rm"), .switch (utf8 "-it"), .joined (utf8 "--log-driver") (utf8 "none"),
    .joined (utf8 "--userns") (utf8 "keep-id:uid=1000,gid=100"),
    .next (utf8 "--user") (utf8 "0:0"), .joined (utf8 "--cap-add") (utf8 "SYS_ADMIN"),
    .joined (utf8 "--cap-add") (utf8 "NET_ADMIN"), .joined (utf8 "--cap-add") (utf8 "NET_RAW"),
    .joined (utf8 "--cap-add") (utf8 "SYS_PTRACE"), .next (utf8 "--device") (utf8 "/dev/fuse"),
    .next (utf8 "--device") (utf8 "/dev/net/tun"), .switch (utf8 "--rootfs"),
    .joined (utf8 "--systemd") (utf8 "always"), .switch (utf8 "--no-hostname"),
    .switch (utf8 "--no-hosts"), .joined (utf8 "--dns") (utf8 "none"),
    .joined (utf8 "--pids-limit") (utf8 "16384"), .next (utf8 "--shm-size") (utf8 "2g"),
    .next (utf8 "--security-opt") (utf8 "unmask=ALL")]

theorem fixedArgs_eq : fixedArgs = utf8 "run" :: fixedItems.flatMap Item.args := by
  decide +kernel

theorem fixedItems_in : ∀ x ∈ fixedItems, x.In podmanFlags := by decide +kernel

theorem under_eq (flag : String) (vs : List Bytes) :
    under flag vs = (each (utf8 flag) vs).flatMap Item.args := by
  induction vs with
  | nil => rfl
  | cons v vs ih =>
    rw [under, List.flatMap_cons, ← under, ih]
    rfl

theorem each_in {flag : Bytes} (h : flag ∈ podmanFlags.valued) (vs : List Bytes) :
    ∀ x ∈ each flag vs, x.In podmanFlags := by
  intro x hx
  obtain ⟨v, -, rfl⟩ := List.mem_map.mp hx
  exact h

/-- All flags. -/
def podmanItems (cli : Args) (plan : Plan) (volumes : List Bytes) : List Item :=
  fixedItems ++ each (utf8 "--storage-opt")
      [envArg (utf8 "overlay.mount_program") plan.fuseOverlayfs] ++
    each (utf8 "--device") plan.devices ++
    each (utf8 "--network") ((networkArg cli.hostPort cli.publish).map textBytes).toList ++
    each (utf8 "-p") (cli.publish.map fun port => textBytes (publishArg port)) ++
    each (utf8 "-v") volumes ++
    each (utf8 "-e")
      (plan.env.map (·.arg) ++ Launch.namesArgs plan.env ++ plan.launch.controlArgs)

theorem podmanArgs_eq (cli : Args) (plan : Plan) (volumes : List Bytes) (rootfs init : Bytes) :
    podmanArgs cli plan volumes rootfs init =
      utf8 "run" :: ((podmanItems cli plan volumes).flatMap Item.args ++
        rootfs :: init :: cli.command) := by
  simp only [podmanArgs, podmanItems, fixedArgs_eq, under_eq, List.flatMap_append, List.cons_append]

theorem podmanItems_in (cli : Args) (plan : Plan) (volumes : List Bytes) :
    ∀ x ∈ podmanItems cli plan volumes, x.In podmanFlags := by
  intro x hx
  simp only [podmanItems, List.mem_append] at hx
  rcases hx with (((((hx | hx) | hx) | hx) | hx) | hx) | hx
  · exact fixedItems_in x hx
  all_goals exact each_in (by decide +kernel) _ x hx

/-- What a container is told. -/
structure Container where
  env : List Bytes
  volumes : List Bytes
  publish : List Bytes
  devices : List Bytes
  networks : List Bytes
  /-- All other flags, in order. -/
  options : List Flag
  rootfs : Bytes
  command : List Bytes
  deriving DecidableEq

def listedFlags : List Bytes := ["-e", "-v", "-p", "--device", "--network"].map utf8

/-- What podman makes of the flags and operands. -/
def containerOf (parsed : Parsed) : Option Container :=
  parsed.2.head?.map fun rootfs => ⟨values (utf8 "-e") parsed.1, values (utf8 "-v") parsed.1,
    values (utf8 "-p") parsed.1, values (utf8 "--device") parsed.1,
    values (utf8 "--network") parsed.1, others listedFlags parsed.1, rootfs, parsed.2.tail⟩

def fixedOptions : List Flag := others listedFlags (fixedItems.map Item.flag)

/-- What the launcher means it to be told. -/
def Plan.container (plan : Plan) (cli : Args) (volumes : List Bytes) (init : Bytes) :
    Container where
  env := plan.env.map (·.arg) ++ Launch.namesArgs plan.env ++ plan.launch.controlArgs
  volumes := volumes
  publish := cli.publish.map fun port => textBytes (publishArg port)
  devices := [utf8 "/dev/fuse", utf8 "/dev/net/tun"] ++ plan.devices
  networks := ((networkArg cli.hostPort cli.publish).map textBytes).toList
  options := fixedOptions ++
    [.value (utf8 "--storage-opt") (envArg (utf8 "overlay.mount_program") plan.fuseOverlayfs)]
  rootfs := plan.rootfsDir ++ utf8 ":O"
  command := init :: cli.command

/-- The flags have different names, so that each gets the values under it. -/
theorem values_podmanItems (cli : Args) (plan : Plan) (volumes : List Bytes) :
    let flags := (podmanItems cli plan volumes).map Item.flag
    values (utf8 "-e") flags =
        plan.env.map (·.arg) ++ Launch.namesArgs plan.env ++ plan.launch.controlArgs ∧
      values (utf8 "-v") flags = volumes ∧
      values (utf8 "-p") flags = cli.publish.map (fun port => textBytes (publishArg port)) ∧
      values (utf8 "--device") flags =
        [utf8 "/dev/fuse", utf8 "/dev/net/tun"] ++ plan.devices ∧
      values (utf8 "--network") flags =
        ((networkArg cli.hostPort cli.publish).map textBytes).toList := by
  have hd : values (utf8 "--device") (fixedItems.map Item.flag) =
      [utf8 "/dev/fuse", utf8 "/dev/net/tun"] := by decide +kernel
  have hf : ∀ name ∈ [utf8 "-e", utf8 "-v", utf8 "-p", utf8 "--network"],
      values name (fixedItems.map Item.flag) = [] := by decide +kernel
  simp only [podmanItems, List.map_append, values_append]
  refine ⟨?_, ?_, ?_, ?_, ?_⟩
  · rw [hf _ (by simp)]
    simp (disch := decide) only [values_each, values_each_other, List.nil_append]
  · rw [hf _ (by simp)]
    simp (disch := decide) only [values_each, values_each_other, List.nil_append, List.append_nil]
  · rw [hf _ (by simp)]
    simp (disch := decide) only [values_each, values_each_other, List.nil_append, List.append_nil]
  · rw [hd]
    simp (disch := decide) only [values_each, values_each_other, List.append_nil]
  · rw [hf _ (by simp)]
    simp (disch := decide) only [values_each, values_each_other, List.nil_append, List.append_nil]

theorem others_podmanItems (cli : Args) (plan : Plan) (volumes : List Bytes) :
    others listedFlags ((podmanItems cli plan volumes).map Item.flag) = fixedOptions ++
      [.value (utf8 "--storage-opt")
        (envArg (utf8 "overlay.mount_program") plan.fuseOverlayfs)] := by
  have hs : ∀ value, others listedFlags ((each (utf8 "--storage-opt") [value]).map Item.flag) =
      [.value (utf8 "--storage-opt") value] := fun value => rfl
  simp only [podmanItems, List.map_append, others_append, hs]
  simp (disch := decide) only [others_each, List.append_nil]
  rfl

theorem containerOf_podmanItems (cli : Args) (plan : Plan) (volumes : List Bytes) (init : Bytes) :
    containerOf ((podmanItems cli plan volumes).map Item.flag,
        (plan.rootfsDir ++ utf8 ":O") :: init :: cli.command) =
      some (plan.container cli volumes init) := by
  obtain ⟨he, hv, hp, hd, hn⟩ := values_podmanItems cli plan volumes
  have ho := others_podmanItems cli plan volumes
  show some (Container.mk _ _ _ _ _ _ _ _) = _
  rw [he, hv, hp, hd, hn, ho]
  rfl

theorem Planned.rootfs_operand {cli : Args} {host : Host} {plan : Plan}
    (h : Planned cli host plan) : (plan.rootfsDir ++ utf8 ":O").head? ≠ some hyphen := by
  obtain ⟨dir, hd, hr⟩ := h.rootfsDir
  have ha : isAbsolute plan.rootfsDir = true := by
    rw [hr]
    exact isAbsolute_push (isAbsolute_push (host.dataHome_absolute dir hd))
  obtain ⟨rest, hrest⟩ := isAbsolute_iff.mp ha
  rw [hrest]
  exact fun hh => absurd (Option.some.inj hh) (by decide)

theorem Launched.told {cli : Args} {host : Host} {exec : Exec} {plan : Plan} {socket : Bytes}
    {volumes : List Bytes} {init : Bytes} (podman : Reader podmanFlags)
    (h : Launched cli host exec plan socket volumes init) :
    ∃ rest parsed, exec.args = utf8 "run" :: rest ∧ podman.read rest = some parsed ∧
      containerOf parsed = some (plan.container cli volumes init) := by
  have hargs : exec.args = utf8 "run" :: ((podmanItems cli plan volumes).flatMap Item.args ++
      (plan.rootfsDir ++ utf8 ":O") :: init :: cli.command) := by rw [h.args, podmanArgs_eq]
  have hread := podman.read_line (podmanItems_in cli plan volumes) h.planned.rootfs_operand
    (init :: cli.command)
  exact ⟨_, _, hargs, hread, containerOf_podmanItems cli plan volumes init⟩

/-- Whatever the user's arguments look like, podman takes them for what they are meant to be. -/
theorem podman_told {cli : Args} {host : Host} {exec : Exec} (podman : Reader podmanFlags)
    (h : main cli host = .ok exec) :
    ∃ plan socket volumes init, Launched cli host exec plan socket volumes init ∧
      ∃ rest parsed, exec.args = utf8 "run" :: rest ∧ podman.read rest = some parsed ∧
        containerOf parsed = some (plan.container cli volumes init) := by
  obtain ⟨plan, socket, volumes, init, hl⟩ := main_ok h
  exact ⟨plan, socket, volumes, init, hl, hl.told podman⟩

/-- `claudepod -v data -e "X=-v" -- -e`. -/
def launchArgs : Args :=
  ⟨false, false, [utf8 "data"], [utf8 "X=-v"], [], [], none, false, false, false, [utf8 "-e"]⟩

def launchHost : Host where
  commandName := utf8 "claudepod"
  vars name :=
    if name = homeEnv then some (utf8 "/home/u")
    else if name = toplevelEnv then some (utf8 "/nix/store/x-system")
    else if name = utf8 "CLAUDEPOD_PODMAN" then some (utf8 "podman")
    else if name = utf8 "CLAUDEPOD_FUSE_OVERLAYFS" then some (utf8 "fuse-overlayfs")
    else none
  username := .ok (utf8 "u")
  dataHome := some (utf8 "/home/u/.local/share")
  dataHome_absolute _ h := Option.mem_some_iff.mp h ▸ rfl
  currentDir := .ok (utf8 "/home/u/src/p")
  currentDir_absolute _ h := Except.ok.inj h ▸ rfl
  currentExe := .ok (utf8 "/nix/store/c/bin/claudepod-start")
  pathExists _ := true
  isDir _ := true
  readDir _ := .ok []
  createDirAll _ := .ok ()
  createPrivateDir _ := .ok ()
  readLink _ := some (utf8 "/etc/zoneinfo/Europe/Paris")
  toplevelFile := .error (.msg "not found")
  storeLayersFile := .ok none
  nixRunRootsManifest _ := .ok none
  spawnNixProxy _ := .ok (utf8 "/run/user/1000/claudepod/nix-proxy-7.sock")
  quoted := id

def launchExec : Exec where
  program := utf8 "podman"
  args := fixedArgs ++ ["--storage-opt", "overlay.mount_program=fuse-overlayfs",
    "-v", "/nix/store:/nix/store:ro",
    "-v", "/run/user/1000/claudepod/nix-proxy-7.sock:/nix/.host-nix-daemon/socket",
    "-v", "/home/u/.local/share/claudepod/home:/home/u", "-v", "/home/u/src:/home/u/src",
    "-v", "/nix/store:/nix/.l/0:ro", "-v", "/home/u/src/p/data:/home/u/src/p/data",
    "-e", "X=-v", "-e", "CLAUDEPOD_AGENT_ENV_NAMES=X", "-e", "CLAUDEPOD_TIMEZONE=Europe/Paris",
    "-e", "CLAUDEPOD_STORE_LAYERS=/nix/.l/0", "-e", "CLAUDEPOD_USERNAME=u",
    "-e", "CLAUDEPOD_TOPLEVEL=/nix/store/x-system", "-e", "CLAUDEPOD_PROJECT_PATH=/home/u/src/p",
    "-e", "CLAUDEPOD_MODE=claude", "/home/u/.local/share/claudepod/empty-rootfs:O",
    "/nix/store/c/bin/claudepod-entry", "-e"].map utf8

theorem main_launchHost : main launchArgs launchHost = .ok launchExec := by decide +kernel

/-- Below the source root a directory may have a colon in its name. -/
example : (main launchArgs { launchHost with
    currentDir := .ok (utf8 "/home/u/src/a:b")
    currentDir_absolute := fun _ h => Except.ok.inj h ▸ rfl }).map
      (fun exec => decide (utf8 "/home/u/src/a:b/data:/home/u/src/a:b/data" ∈ exec.args)) =
    .ok true := by
  decide +kernel

theorem podman_told_sample :
    ∃ plan socket volumes init,
      Launched launchArgs launchHost launchExec plan socket volumes init ∧
      ∃ rest parsed, launchExec.args = utf8 "run" :: rest ∧
        (Table.reader podmanFlags_sound).read rest = some parsed ∧
        containerOf parsed = some (plan.container launchArgs volumes init) :=
  podman_told (Table.reader podmanFlags_sound) main_launchHost

end Claudepod
