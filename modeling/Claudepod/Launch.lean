import Claudepod.AgentEnv
import Claudepod.StoreLayers
import Mathlib.Data.List.TakeWhile

/-! The `-e` arguments that the launcher gives to podman, and the environment of the container
that podman makes of them. -/

set_option autoImplicit false

namespace Claudepod
open Interaction

/-! ### The launcher -/

def timezoneEnv : Bytes := utf8 "CLAUDEPOD_TIMEZONE"
def verboseEnv : Bytes := utf8 "CLAUDEPOD_VERBOSE"
def usbEnv : Bytes := utf8 "CLAUDEPOD_USB"
def usernameEnv : Bytes := utf8 "CLAUDEPOD_USERNAME"
def toplevelEnv : Bytes := utf8 "CLAUDEPOD_TOPLEVEL"
def projectPathEnv : Bytes := utf8 "CLAUDEPOD_PROJECT_PATH"
def modeEnv : Bytes := utf8 "CLAUDEPOD_MODE"

def openglDriverEnv : Bytes := utf8 "LD_LIBRARY_PATH=/run/opengl-driver/lib"

/-- What `main` has when it writes the `-e` arguments. -/
structure Launch where
  /-- The user's specs. -/
  env : List Bytes
  gpu : Bool
  verbose : Bool
  usb : Bool
  timezone : Option Bytes
  parentLayers : List Bytes
  username : Bytes
  toplevel : Bytes
  guestPath : Bytes
  mode : Bytes
  deriving DecidableEq

namespace Launch

/-- The driver's spec comes first, so that the user's overrides it. -/
def envSpecs (l : Launch) : Except Error (List EnvSpec) := do
  let env ← parseEnvSpecs l.env
  if l.gpu then do
    let driver ← parseEnvSpec openglDriverEnv
    pure (driver :: env)
  else pure env

/-- What the launcher itself sets, after the user's specs. -/
def controlArgs (l : Launch) : List Bytes :=
  (if l.verbose then [utf8 "CLAUDEPOD_VERBOSE=1"] else []) ++
  (if l.usb then [utf8 "CLAUDEPOD_USB=1"] else []) ++
  (match l.timezone with
    | some timezone => [envArg timezoneEnv timezone]
    | none => []) ++
  [envArg (utf8 storeLayersEnv) (joinLayers (childLayers l.parentLayers)),
    utf8 "CLAUDEPOD_USERNAME=" ++ l.username,
    envArg toplevelEnv l.toplevel,
    envArg projectPathEnv l.guestPath,
    utf8 "CLAUDEPOD_MODE=" ++ l.mode]

def namesArgs (env : List EnvSpec) : List Bytes :=
  if env = [] then [] else [envArg namesEnv (joinEnvNames env)]

/-- The `-e` arguments, in order. -/
def envArgs (l : Launch) : Except Error (List Bytes) :=
  l.envSpecs.map fun env => env.map (·.arg) ++ namesArgs env ++ l.controlArgs

/-- The control variables that this launch says nothing about. -/
def unset (l : Launch) : List Bytes :=
  (if l.verbose then [] else [verboseEnv]) ++ (if l.usb then [] else [usbEnv]) ++
    (if l.timezone.isSome then [] else [timezoneEnv])

end Launch

/-- The control variables that the container reads. -/
def controlVars : List Bytes :=
  [toplevelEnv, usernameEnv, projectPathEnv, modeEnv, timezoneEnv, verboseEnv, usbEnv,
    utf8 storeLayersEnv]

/-! ### Podman -/

/-- What an argument sets: `NAME=VALUE` sets the name, and `NAME` forwards it from podman's own
environment when it is set there. -/
def setting (own : Env) (arg : Bytes) : Option (Bytes × Bytes) :=
  match arg.dropWhile (· ≠ equals) with
  | [] => (own arg).map fun value => (arg, value)
  | _ :: value => some (specName arg, value)

def Env.set (env : Env) (x : Bytes × Bytes) : Env :=
  fun name => if name = x.1 then some x.2 else env name

/-- The arguments apply in order, the last one winning. -/
def containerEnv (own base : Env) (args : List Bytes) : Env :=
  (args.filterMap (setting own)).foldl Env.set base

/-- What the last of the arguments that set a name sets it to. -/
def lastSetting (own : Env) (args : List Bytes) (name : Bytes) : Option Bytes :=
  (((args.filterMap (setting own)).filter (·.1 = name)).getLast?).map (·.2)

/-! ### Settings -/

theorem setting_envArg {own : Env} {name : Bytes} (h : equals ∉ name) (value : Bytes) :
    setting own (envArg name value) = some (name, value) := by
  have hp : ∀ b ∈ name, (decide (b ≠ equals)) = true := fun b hb => by
    simpa using fun he : b = equals => h (he ▸ hb)
  have hd : (envArg name value).dropWhile (· ≠ equals) = equals :: value := by
    unfold envArg
    rw [List.dropWhile_append_of_pos hp]
    simp
  have hn : specName (envArg name value) = name := by
    unfold specName envArg
    rw [List.takeWhile_append_of_pos hp]
    simp
  rw [setting, hd, hn]

/-- The name that an argument sets is the one before its equals sign. -/
theorem setting_name {own : Env} {arg : Bytes} {x : Bytes × Bytes} (h : setting own arg = some x) :
    x.1 = specName arg := by
  unfold setting at h
  split at h
  · rename_i hd
    obtain ⟨value, -, rfl⟩ := Option.map_eq_some_iff.mp h
    have ha : ∀ b ∈ arg, (decide (b ≠ equals)) = true := List.dropWhile_eq_nil_iff.mp hd
    exact (List.takeWhile_eq_self_iff.mpr ha).symm
  · exact (congrArg Prod.fst (Option.some.inj h)).symm

theorem foldl_set (xs : List (Bytes × Bytes)) (base : Env) (name : Bytes) :
    xs.foldl Env.set base name =
      (((xs.filter (·.1 = name)).getLast?).map (·.2)).or (base name) := by
  induction xs generalizing base with
  | nil => rfl
  | cons x xs ih =>
    rw [List.foldl_cons, ih]
    by_cases hx : x.1 = name
    · rw [List.filter_cons_of_pos (by simpa using hx), List.getLast?_cons]
      cases (xs.filter (·.1 = name)).getLast? with
      | none => simp [Env.set, hx]
      | some y => simp
    · rw [List.filter_cons_of_neg (by simpa using hx)]
      simp [Env.set, Ne.symm hx]

theorem containerEnv_eq (own base : Env) (args : List Bytes) (name : Bytes) :
    containerEnv own base args name = (lastSetting own args name).or (base name) :=
  foldl_set _ base name

/-- Later arguments go before earlier ones. -/
theorem lastSetting_append (own : Env) (xs ys : List Bytes) (name : Bytes) :
    lastSetting own (xs ++ ys) name = (lastSetting own ys name).or (lastSetting own xs name) := by
  unfold lastSetting
  rw [List.filterMap_append, List.filter_append, List.getLast?_append]
  cases ((ys.filterMap (setting own)).filter (·.1 = name)).getLast? <;> rfl

theorem lastSetting_isSome {own : Env} {args : List Bytes} {name : Bytes} :
    (lastSetting own args name).isSome ↔ name ∈ (args.filterMap (setting own)).map (·.1) := by
  unfold lastSetting
  rw [Option.isSome_map, List.getLast?_isSome]
  simp [List.filter_eq_nil_iff]

/-- Arguments with other names leave a name alone. -/
theorem lastSetting_none {own : Env} {args : List Bytes} {name : Bytes}
    (h : ∀ arg ∈ args, specName arg ≠ name) : lastSetting own args name = none := by
  rw [← Option.not_isSome_iff_eq_none, lastSetting_isSome]
  intro hm
  obtain ⟨x, hx, rfl⟩ := List.mem_map.mp hm
  obtain ⟨arg, ha, hs⟩ := List.mem_filterMap.mp hx
  exact h arg ha (setting_name hs).symm

namespace Launch

theorem controlArgs_names (l : Launch) (own : Env) :
    (l.controlArgs.filterMap (setting own)).map (·.1) =
      (if l.verbose then [verboseEnv] else []) ++ (if l.usb then [usbEnv] else []) ++
        (if l.timezone.isSome then [timezoneEnv] else []) ++
        [utf8 storeLayersEnv, usernameEnv, toplevelEnv, projectPathEnv, modeEnv] := by
  have hv : setting own (utf8 "CLAUDEPOD_VERBOSE=1") = some (verboseEnv, utf8 "1") :=
    @setting_envArg own verboseEnv (by decide) (utf8 "1")
  have hu : setting own (utf8 "CLAUDEPOD_USB=1") = some (usbEnv, utf8 "1") :=
    @setting_envArg own usbEnv (by decide) (utf8 "1")
  have hn : setting own (utf8 "CLAUDEPOD_USERNAME=" ++ l.username) =
      some (usernameEnv, l.username) := @setting_envArg own usernameEnv (by decide) _
  have hm : setting own (utf8 "CLAUDEPOD_MODE=" ++ l.mode) = some (modeEnv, l.mode) :=
    @setting_envArg own modeEnv (by decide) _
  have hs := fun value => @setting_envArg own (utf8 storeLayersEnv) (by decide) value
  have ht := fun value => @setting_envArg own toplevelEnv (by decide) value
  have hp := fun value => @setting_envArg own projectPathEnv (by decide) value
  have hz := fun value => @setting_envArg own timezoneEnv (by decide) value
  unfold controlArgs
  simp only [List.filterMap_append, List.map_append]
  cases l.verbose <;> cases l.usb <;> cases l.timezone <;>
    simp [hv, hu, hn, hm, hs, ht, hp, hz]

/-- Every control variable is either set by the launch, or left unset by it. -/
theorem mem_unset (l : Launch) (own : Env) {name : Bytes} (h : name ∈ controlVars) :
    name ∈ l.unset ↔ (lastSetting own l.controlArgs name).isSome = false := by
  rw [← Bool.not_eq_true, lastSetting_isSome, controlArgs_names]
  unfold unset
  generalize l.timezone.isSome = tz
  revert name
  cases l.verbose <;> cases l.usb <;> cases tz <;> decide

theorem unset_subset (l : Launch) : l.unset ⊆ controlVars := by
  unfold unset
  cases l.verbose <;> cases l.usb <;> cases l.timezone.isSome <;> decide

/-- The specs of a launch: the driver's, whose name no control variable has, and the user's. -/
theorem envSpecs_ok {l : Launch} {env : List EnvSpec} (h : l.envSpecs = .ok env) :
    ∃ driver user, env = driver ++ user ∧ user.map (·.arg) = l.env ∧
      (∀ spec ∈ driver, specName spec.arg ∉ controlVars) ∧
      ({ l with env := [] } : Launch).envSpecs = .ok driver := by
  unfold envSpecs at h
  obtain ⟨user, hu, h⟩ := bind_eq_ok h
  have ha := (parseEnvSpecs_ok hu).1
  cases hg : l.gpu with
  | false =>
    rw [hg, if_neg (by simp)] at h
    refine ⟨[], user, (Except.ok.inj h).symm, ha, by simp, ?_⟩
    simp [envSpecs, parseEnvSpecs, bind, Except.bind, pure, Except.pure]
  | true =>
    rw [hg, if_pos rfl] at h
    obtain ⟨driver, hd, h⟩ := bind_eq_ok h
    refine ⟨[driver], user, (Except.ok.inj h).symm, ha, ?_, ?_⟩
    · intro spec hs
      rw [List.mem_singleton.mp hs, (parseEnvSpec_ok hd).1]
      decide
    · simp [envSpecs, parseEnvSpecs, hd, bind, Except.bind, pure, Except.pure]

theorem lastSetting_names (own : Env) (env : List EnvSpec) {name : Bytes}
    (h : name ∈ controlVars) : lastSetting own (namesArgs env) name = none := by
  refine lastSetting_none fun arg ha => ?_
  unfold namesArgs at ha
  split at ha
  · cases ha
  · rw [List.mem_singleton.mp ha]
    have hn := setting_name (@setting_envArg own namesEnv (by decide) (joinEnvNames env))
    rw [← hn]
    intro hne
    rw [← hne] at h
    exact absurd (show namesEnv ∈ controlVars from h) (by decide)

/-- A control variable gets what the launch sets it to, else what the user's specs do. -/
theorem lastSetting_envArgs {l : Launch} {args : List Bytes} (own : Env) {name : Bytes}
    (h : l.envArgs = .ok args) (hn : name ∈ controlVars) :
    lastSetting own args name =
      (lastSetting own l.controlArgs name).or (lastSetting own l.env name) := by
  unfold envArgs at h
  cases he : l.envSpecs with
  | error e => simp [he, Except.map] at h
  | ok env =>
    obtain ⟨driver, user, rfl, ha, hd, -⟩ := envSpecs_ok he
    simp only [he, Except.map, Except.ok.injEq] at h
    have hdriver : lastSetting own (driver.map (·.arg)) name = none := by
      refine lastSetting_none fun arg harg hs => ?_
      obtain ⟨spec, hspec, rfl⟩ := List.mem_map.mp harg
      exact hd spec hspec (hs ▸ hn)
    rw [← h, lastSetting_append, lastSetting_append, lastSetting_names own _ hn, List.map_append,
      lastSetting_append, ha, hdriver]
    cases lastSetting own l.controlArgs name <;> simp

end Launch

/-- The user's specs leave the control variables alone if those that the launch does not set are
not set by the specs either, other than to what the container has for them anyway. -/
theorem control_vars_kept {l : Launch} {args : List Bytes} (own base : Env)
    (h : l.envArgs = .ok args) :
    (∃ args₀, ({ l with env := [] } : Launch).envArgs = .ok args₀ ∧ ∀ name ∈ controlVars,
      containerEnv own base args name = containerEnv own base args₀ name) ↔
    ∀ name ∈ l.unset, ∀ value, lastSetting own l.env name = some value →
      base name = some value := by
  have h₀ : ∃ args₀, ({ l with env := [] } : Launch).envArgs = .ok args₀ := by
    unfold Launch.envArgs at h ⊢
    cases he : l.envSpecs with
    | error e => simp [he, Except.map] at h
    | ok env =>
      obtain ⟨driver, user, -, -, -, hd⟩ := Launch.envSpecs_ok he
      rw [hd]
      exact ⟨_, rfl⟩
  obtain ⟨args₀, h₀⟩ := h₀
  -- With and without the specs, for one variable.
  have hvar : ∀ name ∈ controlVars,
      (containerEnv own base args name = containerEnv own base args₀ name ↔
        (name ∈ l.unset → ∀ value, lastSetting own l.env name = some value →
          base name = some value)) := by
    intro name hn
    have hu := l.mem_unset own hn
    have hargs := Launch.lastSetting_envArgs own h hn
    have hargs₀ := Launch.lastSetting_envArgs own h₀ hn
    rw [containerEnv_eq, containerEnv_eq, hargs, hargs₀, hu]
    show _ = ((lastSetting own l.controlArgs name).or none).or _ ↔ _
    cases lastSetting own l.controlArgs name with
    | some value => simp
    | none =>
      cases lastSetting own l.env name with
      | none => simp
      | some value => simp [eq_comm]
  constructor
  · intro ⟨args', h', hk⟩ name hn
    obtain rfl : args₀ = args' := by
      rw [h₀] at h'
      exact Except.ok.inj h'
    exact (hvar name (l.unset_subset hn)).mp (hk name (l.unset_subset hn)) hn
  · intro hk
    exact ⟨args₀, h₀, fun name hn => (hvar name hn).mpr (hk name)⟩

/-- `claudepod` with the given specs and no other option, on a host with an unknown timezone. -/
def launchSample (env : List Bytes) : Launch :=
  ⟨env, false, false, false, none, [hostStore], utf8 "alice", utf8 "/nix/store/x-system",
    utf8 "/home/alice/src/proj", utf8 "claude"⟩

theorem control_vars_kept_sample :
    (∃ args₀, (launchSample []).envArgs = .ok args₀ ∧ ∀ name ∈ controlVars,
      containerEnv (fun _ => none) (fun _ => none)
        ([utf8 "FOO=1", utf8 "CLAUDEPOD_AGENT_ENV_NAMES=FOO"] ++ (launchSample []).controlArgs)
          name =
        containerEnv (fun _ => none) (fun _ => none) args₀ name) ↔
    ∀ name ∈ (launchSample [utf8 "FOO=1"]).unset, ∀ value,
      lastSetting (fun _ => none) [utf8 "FOO=1"] name = some value → none = some value :=
  @control_vars_kept (launchSample [utf8 "FOO=1"]) _ (fun _ => none) (fun _ => none)
    (by decide +kernel)

/-- The user turns on the boot messages that the launcher has an option for. -/
theorem control_vars_kept_fails :
    ∃ args args₀, (launchSample [utf8 "CLAUDEPOD_VERBOSE=1"]).envArgs = .ok args ∧
      (launchSample []).envArgs = .ok args₀ ∧
      containerEnv (fun _ => none) (fun _ => none) args verboseEnv = some (utf8 "1") ∧
      containerEnv (fun _ => none) (fun _ => none) args₀ verboseEnv = none :=
  ⟨[utf8 "CLAUDEPOD_VERBOSE=1", utf8 "CLAUDEPOD_AGENT_ENV_NAMES=CLAUDEPOD_VERBOSE"] ++
    (launchSample []).controlArgs, (launchSample []).controlArgs, by decide +kernel,
    by decide +kernel, by decide +kernel, by decide +kernel⟩

end Claudepod
