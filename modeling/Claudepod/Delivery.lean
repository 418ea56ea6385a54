import Claudepod.Entry
import Claudepod.RunFiles

/-! From the command line to the session: a launch, podman, the entry point and the guest's
script. -/

set_option autoImplicit false

namespace Claudepod
open Interaction CommandLine

/-- A launch up to the start of init. -/
def boot (podman : Reader podmanFlags) (site : Site) (cli : Args) (host : Host) :
    Except Error Guest := do
  let exec ← main cli host
  match (podman.read exec.args.tail).bind containerOf with
  | some container =>
    enter site (containerEnv host.vars site.base container.env) container.command.tail
  | none => .error (.msg "podman")

/-- The arguments that podman makes the container's environment of. -/
def Plan.envArgs (plan : Plan) : List Bytes :=
  plan.env.map (·.arg) ++ Launch.namesArgs plan.env ++ plan.launch.controlArgs

theorem boot_ok {podman : Reader podmanFlags} {site : Site} {cli : Args} {host : Host} {g : Guest}
    (h : boot podman site cli host = .ok g) :
    ∃ exec plan socket volumes init, Launched cli host exec plan socket volumes init ∧
      Entered site (containerEnv host.vars site.base plan.envArgs) cli.command g := by
  obtain ⟨exec, hexec, h⟩ := bind_eq_ok h
  obtain ⟨plan, socket, volumes, init, hl⟩ := main_ok hexec
  obtain ⟨rest, parsed, hargs, hread, hcontainer⟩ := hl.told podman
  rw [hargs, List.tail_cons, hread, Option.bind_some, hcontainer] at h
  exact ⟨exec, plan, socket, volumes, init, hl, enter_ok h⟩

/-! ### The environment of the container -/

/-- A name that is set once has that value. -/
theorem lastSetting_of_mem {own : Env} {args : List Bytes} {arg name value : Bytes}
    (hn : ((args.filterMap (setting own)).map (·.1)).Nodup) (ha : arg ∈ args)
    (hs : setting own arg = some (name, value)) : lastSetting own args name = some value := by
  have hm : (name, value) ∈ args.filterMap (setting own) := List.mem_filterMap.mpr ⟨arg, ha, hs⟩
  unfold lastSetting
  cases hl : ((args.filterMap (setting own)).filter (·.1 = name)).getLast? with
  | none =>
    rw [List.getLast?_eq_none_iff, List.filter_eq_nil_iff] at hl
    exact absurd (decide_eq_true rfl) (hl _ hm)
  | some y =>
    obtain ⟨hy, hk⟩ := List.mem_filter.mp (List.mem_of_getLast? hl)
    have he : y = (name, value) :=
      List.inj_on_of_nodup_map hn hy hm (by simpa using hk)
    rw [he]
    rfl

/-- The names that the session's script and bash use are none of the launcher's. -/
theorem notMem_controlVars : namesEnv ∉ controlVars ∧
    ∀ name ∈ modeName :: projectName :: commandName :: (readonlyVars ++ integerVars),
      name ∉ namesEnv :: controlVars := by
  decide +kernel

namespace Launch

theorem controlArgs_nodup (l : Launch) (own : Env) :
    ((l.controlArgs.filterMap (setting own)).map (·.1)).Nodup := by
  rw [controlArgs_names]
  generalize l.timezone.isSome = tz
  cases l.verbose <;> cases l.usb <;> cases tz <;> decide +kernel

theorem controlArgs_names_subset (l : Launch) (own : Env) :
    (l.controlArgs.filterMap (setting own)).map (·.1) ⊆ controlVars := by
  rw [controlArgs_names]
  generalize l.timezone.isSome = tz
  cases l.verbose <;> cases l.usb <;> cases tz <;> decide +kernel

theorem lastSetting_control (l : Launch) (own : Env) :
    lastSetting own l.controlArgs toplevelEnv = some l.toplevel ∧
      lastSetting own l.controlArgs usernameEnv = some l.username ∧
      lastSetting own l.controlArgs projectPathEnv = some l.guestPath ∧
      lastSetting own l.controlArgs modeEnv = some l.mode ∧
      lastSetting own l.controlArgs (utf8 storeLayersEnv) =
        some (joinLayers (childLayers l.parentLayers)) := by
  have hn := l.controlArgs_nodup own
  refine ⟨?_, ?_, ?_, ?_, ?_⟩
  · exact lastSetting_of_mem hn (by simp [controlArgs])
      (@setting_envArg own toplevelEnv (by decide) l.toplevel)
  · exact @lastSetting_of_mem own _ (utf8 "CLAUDEPOD_USERNAME=" ++ l.username) _ _ hn
      (by simp [controlArgs]) (@setting_envArg own usernameEnv (by decide) l.username)
  · exact lastSetting_of_mem hn (by simp [controlArgs])
      (@setting_envArg own projectPathEnv (by decide) l.guestPath)
  · exact @lastSetting_of_mem own _ (utf8 "CLAUDEPOD_MODE=" ++ l.mode) _ _ hn
      (by simp [controlArgs]) (@setting_envArg own modeEnv (by decide) l.mode)
  · exact lastSetting_of_mem hn (by simp [controlArgs])
      (@setting_envArg own (utf8 storeLayersEnv) (by decide) _)

theorem lastSetting_timezone {l : Launch} {timezone : Bytes} (own : Env)
    (h : l.timezone = some timezone) :
    lastSetting own l.controlArgs timezoneEnv = some timezone :=
  lastSetting_of_mem (l.controlArgs_nodup own) (by simp [controlArgs, h])
    (@setting_envArg own timezoneEnv (by decide) timezone)

theorem lastSetting_control_none {name : Bytes} (l : Launch) (own : Env) (h : name ∉ controlVars) :
    lastSetting own l.controlArgs name = none := by
  rw [← Option.not_isSome_iff_eq_none, lastSetting_isSome]
  exact fun hm => h (l.controlArgs_names_subset own hm)

end Launch

section Env

variable {cli : Args} {host : Host} {plan : Plan}

theorem gpuSetup_ok {driver : List EnvSpec × List Bytes} (h : gpuSetup cli host = .ok driver) :
    (cli.gpu = true → ∃ spec, parseEnvSpec openglDriverEnv = .ok spec ∧ driver.1 = [spec]) ∧
      (cli.gpu = false → driver.1 = []) := by
  unfold gpuSetup at h
  split at h
  · rename_i hg
    obtain ⟨_, -, h⟩ := bind_eq_ok h
    obtain ⟨_, -, h⟩ := bind_eq_ok h
    obtain ⟨spec, hs, h⟩ := bind_eq_ok h
    obtain rfl := Except.ok.inj h
    exact ⟨fun _ => ⟨spec, hs, rfl⟩, fun hf => by simp [hg] at hf⟩
  · rename_i hg
    obtain rfl := Except.ok.inj h
    exact ⟨fun ht => absurd ht hg, fun _ => rfl⟩

theorem Planned.envSpecs (h : Planned cli host plan) : plan.launch.envSpecs = .ok plan.env := by
  obtain ⟨user, driver, hu, hd, he, -⟩ := h.env
  obtain ⟨henv, hgpu, -, -⟩ := h.options
  have hd := gpuSetup_ok hd
  rw [Launch.envSpecs, henv, hu, hgpu]
  cases hg : cli.gpu with
  | false =>
    rw [he, hd.2 hg]
    rfl
  | true =>
    obtain ⟨spec, hs, hd⟩ := hd.1 hg
    show (parseEnvSpec openglDriverEnv >>= fun driver => pure (driver :: user)) = _
    rw [hs, he, hd]
    rfl

theorem Planned.envArgs (h : Planned cli host plan) : plan.launch.envArgs = .ok plan.envArgs := by
  rw [Launch.envArgs, h.envSpecs]
  rfl

/-- A control variable has the launcher's value. -/
theorem Planned.containerEnv_control (h : Planned cli host plan) (base : Env) {name value : Bytes}
    (hn : name ∈ controlVars)
    (hv : lastSetting host.vars plan.launch.controlArgs name = some value) :
    containerEnv host.vars base plan.envArgs name = some value := by
  rw [containerEnv_eq, Launch.lastSetting_envArgs host.vars h.envArgs hn, hv]
  rfl

theorem lastSetting_env_names (specs : List EnvSpec) (own : Env) :
    lastSetting own (specs.map (·.arg)) namesEnv = none := by
  refine lastSetting_none fun arg ha => ?_
  obtain ⟨spec, -, rfl⟩ := List.mem_map.mp ha
  rw [spec.named]
  exact spec.unreserved

/-- The list of names is the launcher's. -/
theorem containerEnv_names (plan : Plan) (own : Env) {base : Env} (hb : base namesEnv = none) :
    (containerEnv own base plan.envArgs namesEnv).getD [] = joinEnvNames plan.env := by
  have hc := plan.launch.lastSetting_control_none own notMem_controlVars.1
  rw [containerEnv_eq, Plan.envArgs, lastSetting_append, lastSetting_append, hc,
    lastSetting_env_names, hb, Launch.namesArgs]
  split
  · rename_i he
    rw [he]
    rfl
  · have hs := @setting_envArg own namesEnv (by decide) (joinEnvNames plan.env)
    rw [@lastSetting_of_mem own [envArg namesEnv (joinEnvNames plan.env)] _ _ _
      (by simp [hs]) (List.mem_singleton_self _) hs]
    rfl

/-- A variable that the launcher does not set has the value that the specs give it. -/
theorem containerEnv_unset (plan : Plan) (own base : Env) {name : Bytes} (hn : name ≠ namesEnv)
    (hc : lastSetting own plan.launch.controlArgs name = none) :
    containerEnv own base plan.envArgs name =
      (lastSetting own (plan.env.map (·.arg)) name).or (base name) := by
  have hnames : lastSetting own (Launch.namesArgs plan.env) name = none := by
    refine lastSetting_none fun arg ha => ?_
    unfold Launch.namesArgs at ha
    split at ha
    · cases ha
    · rw [List.mem_singleton.mp ha,
        ← setting_name (@setting_envArg own namesEnv (by decide) (joinEnvNames plan.env))]
      exact hn.symm
  rw [containerEnv_eq, Plan.envArgs, lastSetting_append, lastSetting_append, hc, hnames]
  rfl

end Env

/-! ### The session -/

/-- `IFS= read -r`: the first line. -/
def readLine (text : Bytes) : Bytes := (text.filter (· ≠ 0)).takeWhile (· ≠ newline)

/-- The home that `claudepod-runtime-user` gives to the user it makes. -/
def runtimeUserHome (g : Guest) : Bytes := utf8 "/home/" ++ readLine g.username

/-- What the specs of a launch give to each of their names. -/
def Plan.given (plan : Plan) (own base : Env) : Bytes → Option Bytes :=
  Claudepod.given (fun name => (lastSetting own (plan.env.map (·.arg)) name).or (base name))
    (plan.env.map (·.name))

/-- What a file of assignments leaves a name with. -/
def lastAssigned (xs : List (Bytes × Bytes)) (name : Bytes) : Option Bytes :=
  ((xs.filter (·.1 = name)).getLast?).map (·.2)

theorem lastAssigned_selected (env : Env) (names : List Bytes) (name : Bytes) :
    lastAssigned (selected env names) name = Claudepod.given env names name := by
  have hall : ∀ x ∈ selected env names, env x.1 = some x.2 ∧ x.1 ∈ names := by
    intro x hx
    obtain ⟨n, hn, hs⟩ := List.mem_filterMap.mp hx
    obtain ⟨value, hv, rfl⟩ := Option.map_eq_some_iff.mp hs
    exact ⟨hv, hn⟩
  unfold lastAssigned Claudepod.given
  cases hl : ((selected env names).filter (·.1 = name)).getLast? with
  | some x =>
    obtain ⟨hx, hk⟩ := List.mem_filter.mp (List.mem_of_getLast? hl)
    obtain rfl : x.1 = name := by simpa using hk
    obtain ⟨hv, hn⟩ := hall x hx
    rw [if_pos hn, hv]
    rfl
  | none =>
    rw [List.getLast?_eq_none_iff, List.filter_eq_nil_iff] at hl
    split
    · rename_i hn
      cases hv : env name with
      | none => rfl
      | some value =>
        have hm : (name, value) ∈ selected env names :=
          List.mem_filterMap.mpr ⟨name, hn, by rw [hv]; rfl⟩
        exact absurd (decide_eq_true rfl) (hl _ hm)
    · rfl

theorem readLine_line {v : Bytes} (h : 0 ∉ v) (hn : newline ∉ v) :
    readLine (v ++ [newline]) = v := by
  have hall : ∀ b ∈ v, (decide (b ≠ newline)) = true := fun b hb => by
    simpa using fun he : b = newline => hn (he ▸ hb)
  rw [readLine, filter_of_notMem (by simp [h, newline]), List.takeWhile_append_of_pos hall]
  simp

/-- The modes of a launcher. -/
theorem selectMode_known {cli : Args} {host : Host} {mode : Bytes}
    (h : selectMode cli host = .ok mode) : mode ∈ knownModes := by
  unfold selectMode defaultModeFromCommandName at h
  split at h
  · rw [← Except.ok.inj h]
    decide
  · split at h
    · rw [← Except.ok.inj h]
      decide
    · split at h
      · rw [← Except.ok.inj h]
        decide
      · cases h

theorem commandSubstitution_known {mode : Bytes} (h : mode ∈ knownModes) :
    commandSubstitution (mode ++ [newline]) = mode := by
  revert mode
  decide +kernel

theorem undisturbed_congr {assigned assigned' : Bytes → Option Bytes} {vars : Vars}
    (h : ∀ name ∉ namesEnv :: controlVars, assigned name = assigned' name) :
    Undisturbed assigned vars ↔ Undisturbed assigned' vars := by
  have hs := notMem_controlVars.2
  have hr : ∀ name ∈ readonlyVars, name ∉ namesEnv :: controlVars := fun name hn =>
    hs name (by simp [hn])
  have hm := h modeName (hs _ (by simp))
  have hp := h projectName (hs _ (by simp))
  have hc := h commandName (hs _ (by simp))
  constructor
  · intro hu
    exact ⟨fun name hn => h name (hr name hn) ▸ hu.readonly name hn, hc ▸ hu.command, hm ▸ hu.mode,
      hp ▸ hu.project⟩
  · intro hu
    exact ⟨fun name hn => (h name (hr name hn)).symm ▸ hu.readonly name hn, hc.symm ▸ hu.command,
      hm.symm ▸ hu.mode, hp.symm ▸ hu.project⟩

section Boot

variable {site : Site} {cli : Args} {host : Host} {plan : Plan} {g : Guest}

/-- The variables that the script starts with are the launch's. -/
theorem Entered.vars
    (h : Entered site (containerEnv host.vars site.base plan.envArgs) cli.command g)
    (hp : Planned cli host plan) (hc : ∀ arg ∈ cli.command, 0 ∉ arg) :
    readVars g.files =
      ⟨plan.launch.mode, commandSubstitution (plan.launch.guestPath ++ [newline]),
        cli.command⟩ := by
  obtain ⟨project, mode, hpr, hmo, -, hf⟩ := writeRunFiles_ok h.files
  obtain ⟨-, -, hpath, hmode, -⟩ := plan.launch.lastSetting_control host.vars
  obtain rfl : plan.launch.mode = mode := Option.some.inj
    ((hp.containerEnv_control site.base (by simp [controlVars]) hmode).symm.trans
      (requiredEnvBytes_iff.mp hmo).1)
  obtain rfl : plan.launch.guestPath = project := Option.some.inj
    ((hp.containerEnv_control site.base (by simp [controlVars]) hpath).symm.trans
      (requiredEnvBytes_iff.mp hpr).1)
  have hcommand : readCommand g.files.command = cli.command := by
    rw [hf]
    exact readCommand_commandText hc
  rw [readVars, hcommand, hf, commandSubstitution_known (selectMode_known hp.mode)]

/-- The script sources the specs that have a value, and nothing else. -/
theorem Entered.sourced
    (h : Entered site (containerEnv host.vars site.base plan.envArgs) cli.command g) :
    Shell.assignments g.files.env = some (selected
      (containerEnv host.vars site.base plan.envArgs) (plan.env.map (·.name))) := by
  obtain ⟨-, -, -, -, ht, -⟩ := writeRunFiles_ok h.files
  obtain ⟨text, ht', ha⟩ := agentEnvFile_assignments
    (containerEnv_names plan host.vars (site.base_unset _ List.mem_cons_self))
  rw [← ha]
  exact congrArg _ (Except.ok.inj (ht.symm.trans ht'))

theorem given_unset (plan : Plan) (own base : Env) {name : Bytes} (hn : name ≠ namesEnv)
    (hc : lastSetting own plan.launch.controlArgs name = none) :
    Claudepod.given (containerEnv own base plan.envArgs) (plan.env.map (·.name)) name =
      plan.given own base name := by
  unfold Plan.given Claudepod.given
  rw [containerEnv_unset plan own base hn hc]

theorem given_other (plan : Plan) (own base : Env) {name : Bytes}
    (hn : name ∉ namesEnv :: controlVars) :
    Claudepod.given (containerEnv own base plan.envArgs) (plan.env.map (·.name)) name =
      plan.given own base name :=
  given_unset plan own base (List.ne_of_not_mem_cons hn)
    (plan.launch.lastSetting_control_none own (List.not_mem_of_not_mem_cons hn))

/-- The guest's user has the home that is shared with it. -/
theorem Entered.home
    (h : Entered site (containerEnv host.vars site.base plan.envArgs) cli.command g)
    (hp : Planned cli host plan) (h0 : 0 ∉ plan.launch.username)
    (hn : newline ∉ plan.launch.username) : runtimeUserHome g = plan.placement.home := by
  obtain ⟨name, hname, hg⟩ := h.username
  obtain ⟨-, hu, -, -, -⟩ := plan.launch.lastSetting_control host.vars
  obtain rfl : plan.launch.username = name := Option.some.inj
    ((hp.containerEnv_control site.base (by simp [controlVars]) hu).symm.trans hname)
  rw [runtimeUserHome, hg, readLine_line h0 hn, hp.placed.home]
  rfl

end Boot

def bootSite : Site where
  base _ := none
  base_unset _ _ := rfl
  uidMap := .ok "0 100000 65536".toList
  gidMap := .ok "0 100000 65536".toList
  quoted value := fromUtf8Lossy value
  outcome _ := .ok ()

def bootGuest : Guest where
  files := ⟨utf8 "claude\n", utf8 "/home/u/src/p\n", utf8 "-e" ++ [0], utf8 "X='-v'\n"⟩
  username := utf8 "u\n"
  subuid := "1000:1001:64535\n".toList
  subgid := "1000:1001:64535\n".toList
  storeLayers := utf8 "/nix/.rw-store/store:/nix/.l/0\n"
  toplevel := utf8 "/nix/store/x-system\n"
  verbose := false
  overlay := utf8 ("lowerdir=/nix/.l/0,upperdir=/nix/.rw-store/store," ++
    "workdir=/nix/.rw-store/work,userxattr")
  localtime := some (utf8 "/etc/zoneinfo/Europe/Paris")
  deviceLinks := []
  init := utf8 "/nix/store/x-system/init"
  container := utf8 "podman"

theorem boot_launchHost :
    boot (Table.reader podmanFlags_sound) bootSite launchArgs launchHost = .ok bootGuest := by
  decide +kernel

end Claudepod
