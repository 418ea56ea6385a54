import Claudepod.StorePath
import Claudepod.Shell

/-! The environment selected with `-e`: the launcher passes it to the container, with the list
of its names, and the container writes it to a file that the guest session sources. -/

set_option autoImplicit false

namespace Claudepod
open Interaction

/-! ### Shell identifiers -/

def namesEnv : Bytes := utf8 "CLAUDEPOD_AGENT_ENV_NAMES"

def isShellIdentifierStart (byte : UInt8) : Bool :=
  byte == 95 || ((65 ≤ byte && byte ≤ 90) || (97 ≤ byte && byte ≤ 122))

def isShellIdentifierChar (byte : UInt8) : Bool :=
  isShellIdentifierStart byte || (48 ≤ byte && byte ≤ 57)

def isShellIdentifier (name : Bytes) : Bool :=
  match name with
  | [] => false
  | first :: rest => isShellIdentifierStart first && rest.all isShellIdentifierChar

/-! ### The launcher -/

def equals : UInt8 := 61

/-- What stands before the first equals sign of a spec. -/
def specName (spec : Bytes) : Bytes := spec.takeWhile (· ≠ equals)

/-- A spec `NAME` or `NAME=VALUE`. -/
structure EnvSpec where
  arg : Bytes
  name : Bytes
  named : specName arg = name
  identifier : isShellIdentifier name = true
  unreserved : name ≠ namesEnv
  deriving DecidableEq

def parseEnvSpec (spec : Bytes) : Except Error EnvSpec :=
  let name := specName spec
  if hi : isShellIdentifier name = true then
    if hr : name = namesEnv then .error (.msg s!"invalid -e {display spec}: name is reserved")
    else .ok ⟨spec, name, rfl, hi, hr⟩
  else
    .error (.msg s!"invalid -e {display spec}: variable name must be a shell identifier")

def parseEnvSpecs (specs : List Bytes) : Except Error (List EnvSpec) := specs.mapM parseEnvSpec

def joinEnvNames (specs : List EnvSpec) : Bytes :=
  specs.foldl (fun out spec => (if out = [] then out else out ++ [newline]) ++ spec.name) []

def envArg (name value : Bytes) : Bytes := name ++ equals :: value

/-! ### The container -/

/-- The environment of a process. -/
abbrev Env := Bytes → Option Bytes

def checkName (name : Bytes) : Except Error Unit :=
  if isShellIdentifier name then .ok ()
  else
    .error (.msg (fromUtf8Lossy namesEnv ++ " contains invalid variable name " ++ display name))

def agentEnvNamesFromRaw (raw : Option Bytes) : Except Error (List Bytes) :=
  match raw.filter (· ≠ []) with
  | none => .ok []
  | some raw =>
    let names := raw.splitOn newline
    (names.mapM checkName).map fun _ => names

def appendEnvLine (out name value : Bytes) : Bytes :=
  out ++ name ++ utf8 "='" ++
    value.flatMap (fun byte => if byte = 39 then [39, 92, 39, 39] else [byte]) ++ [39, newline]

/-- A name that is not set has no line. -/
def appendEnvVar (env : Env) (out name : Bytes) : Bytes :=
  match env name with
  | some value => appendEnvLine out name value
  | none => out

/-- The file that the guest session sources. -/
def agentEnvFile (env : Env) : Except Error Bytes :=
  (agentEnvNamesFromRaw (env namesEnv)).map fun names => names.foldl (appendEnvVar env) []

/-! ### Names -/

/-- The names that the launcher accepts are the shell's. -/
theorem isShellIdentifier_eq (name : Bytes) : isShellIdentifier name = Shell.isName name := by
  have hs : ∀ b, isShellIdentifierStart b = Shell.isNameStart b := by
    intro b
    simp [isShellIdentifierStart, Shell.isNameStart, Shell.underscore, Bool.or_assoc]
  have hc : isShellIdentifierChar = Shell.isNameByte := by
    funext b
    rw [isShellIdentifierChar, Shell.isNameByte, hs]
  cases name with
  | nil => rfl
  | cons b bs => rw [isShellIdentifier, Shell.isName, hs, hc]

theorem EnvSpec.isName (spec : EnvSpec) : Shell.isName spec.name :=
  isShellIdentifier_eq spec.name ▸ spec.identifier

theorem EnvSpec.name_ne_nil (spec : EnvSpec) : spec.name ≠ [] := by
  intro h
  have hi := spec.identifier
  rw [h] at hi
  cases hi

theorem EnvSpec.newline_notMem (spec : EnvSpec) : newline ∉ spec.name := fun h =>
  absurd (Shell.ordinary_of_isName spec.isName newline h) (by decide)

theorem parseEnvSpec_ok {raw : Bytes} {spec : EnvSpec} (h : parseEnvSpec raw = .ok spec) :
    spec.arg = raw ∧ spec.name = specName raw := by
  unfold parseEnvSpec at h
  dsimp only at h
  split at h
  · split at h
    · cases h
    · cases h
      exact ⟨rfl, rfl⟩
  · cases h

theorem parseEnvSpecs_ok {raw : List Bytes} {specs : List EnvSpec}
    (h : parseEnvSpecs raw = .ok specs) :
    specs.map (·.arg) = raw ∧ specs.map (·.name) = raw.map specName := by
  unfold parseEnvSpecs at h
  induction raw generalizing specs with
  | nil =>
    cases h
    exact ⟨rfl, rfl⟩
  | cons r raw ih =>
    rw [List.mapM_cons] at h
    obtain ⟨spec, hr, h⟩ := bind_eq_ok h
    obtain ⟨rest, hs, h⟩ := bind_eq_ok h
    obtain rfl := Except.ok.inj h
    obtain ⟨ha, hn⟩ := parseEnvSpec_ok hr
    obtain ⟨has, hns⟩ := ih hs
    simp [ha, hn, has, hns]

/-! ### The list of names -/

theorem joinEnvNames_eq (specs : List EnvSpec) :
    joinEnvNames specs = [newline].intercalate (specs.map (·.name)) := by
  have hfold : ∀ (specs : List EnvSpec) (out : Bytes), out ≠ [] →
      specs.foldl (fun out spec => (if out = [] then out else out ++ [newline]) ++ spec.name) out =
        [newline].intercalate (out :: specs.map (·.name)) := by
    intro specs
    induction specs with
    | nil => intro out _; simp
    | cons spec specs ih =>
      intro out ho
      rw [List.foldl_cons, if_neg ho, ih _ (by simp [ho])]
      cases specs <;> simp [List.intercalate_cons_cons]
  cases specs with
  | nil => rfl
  | cons spec specs =>
    unfold joinEnvNames
    rw [List.foldl_cons, if_pos rfl, List.nil_append, hfold _ _ spec.name_ne_nil]
    rfl

/-- The container reads the names that the launcher joined. -/
theorem agentEnvNames_join {specs : List EnvSpec} {raw : Option Bytes}
    (h : raw.getD [] = joinEnvNames specs) :
    agentEnvNamesFromRaw raw = .ok (specs.map (·.name)) := by
  have hcheck : ∀ specs : List EnvSpec,
      (specs.map (·.name)).mapM checkName = .ok (specs.map fun _ => ()) := by
    intro specs
    induction specs with
    | nil => rfl
    | cons spec specs ih =>
      rw [List.map_cons, List.mapM_cons, checkName, if_pos spec.identifier, ih]
      rfl
  cases specs with
  | nil =>
    have hn : raw.getD [] = [] := h
    have hf : raw.filter (· ≠ []) = none := by
      cases raw with
      | none => rfl
      | some x => simpa using hn
    rw [agentEnvNamesFromRaw, hf]
    rfl
  | cons spec specs =>
    have hne : joinEnvNames (spec :: specs) ≠ [] := by
      rw [joinEnvNames_eq]
      cases specs with
      | nil => simpa using spec.name_ne_nil
      | cons s ss => simp [List.intercalate_cons_cons]
    have hr : raw.filter (· ≠ []) = some (joinEnvNames (spec :: specs)) := by
      cases raw with
      | none => exact absurd h.symm hne
      | some x =>
        obtain rfl : x = joinEnvNames (spec :: specs) := h
        simpa using hne
    have hsplit :
        (joinEnvNames (spec :: specs)).splitOn newline = (spec :: specs).map (·.name) := by
      rw [joinEnvNames_eq]
      refine List.splitOn_intercalate _ (fun n hn => ?_) (by simp)
      obtain ⟨s, -, rfl⟩ := List.mem_map.mp hn
      exact s.newline_notMem
    rw [agentEnvNamesFromRaw, hr]
    show (((joinEnvNames (spec :: specs)).splitOn newline).mapM checkName).map _ = _
    rw [hsplit, hcheck]
    rfl

/-! ### The file -/

theorem appendEnvLine_eq (out name value : Bytes) :
    appendEnvLine out name value = out ++ Shell.assignmentLine name value := by
  have hq : utf8 "='" = [Shell.equals, Shell.quote] := by decide
  unfold appendEnvLine Shell.assignmentLine
  rw [hq]
  simp only [List.append_assoc, List.cons_append, List.nil_append]
  rfl

/-- What the environment has for the names, in their order. -/
def selected (env : Env) (names : List Bytes) : List (Bytes × Bytes) :=
  names.filterMap fun name => (env name).map fun value => (name, value)

theorem agentEnvFile_eq {env : Env} {names : List Bytes}
    (h : agentEnvNamesFromRaw (env namesEnv) = .ok names) :
    agentEnvFile env =
      .ok ((selected env names).flatMap fun x => Shell.assignmentLine x.1 x.2) := by
  have hfold : ∀ out : Bytes, names.foldl (appendEnvVar env) out =
      out ++ (selected env names).flatMap fun x => Shell.assignmentLine x.1 x.2 := by
    clear h
    unfold selected
    induction names with
    | nil => intro out; simp
    | cons name names ih =>
      intro out
      rw [List.foldl_cons, ih, List.filterMap_cons, appendEnvVar]
      cases env name with
      | none => rfl
      | some value => simp [appendEnvLine_eq]
  unfold agentEnvFile
  rw [h]
  show Except.ok (names.foldl (appendEnvVar env) []) = _
  rw [hfold, List.nil_append]

/-- The file of accepted specs holds assignments only. -/
theorem agentEnvFile_assignments {specs : List EnvSpec} {env : Env}
    (h : (env namesEnv).getD [] = joinEnvNames specs) :
    ∃ text, agentEnvFile env = .ok text ∧
      Shell.assignments text = some (selected env (specs.map (·.name))) := by
  refine ⟨_, agentEnvFile_eq (agentEnvNames_join h), Shell.assignments_lines fun x hx => ?_⟩
  obtain ⟨name, hm, hv⟩ := List.mem_filterMap.mp hx
  obtain ⟨value, -, rfl⟩ := Option.map_eq_some_iff.mp hv
  obtain ⟨spec, -, rfl⟩ := List.mem_map.mp hm
  exact spec.isName

/-- The names arrive as they were selected, and what the session sources is one assignment for
each that has a value, in their order, and nothing else. Without names the launcher leaves out
the list. -/
theorem env_delivered {raw : List Bytes} {specs : List EnvSpec} {env : Env}
    (h : parseEnvSpecs raw = .ok specs) (he : (env namesEnv).getD [] = joinEnvNames specs) :
    agentEnvNamesFromRaw (env namesEnv) = .ok (raw.map specName) ∧
    ∃ text, agentEnvFile env = .ok text ∧
      Shell.assignments text = some (selected env (raw.map specName)) := by
  obtain ⟨-, hn⟩ := parseEnvSpecs_ok h
  rw [← hn]
  exact ⟨agentEnvNames_join he, agentEnvFile_assignments he⟩

/-- A container started with `-e FOO=a'b -e BAR`, where the host has no `BAR`. -/
def envSample : Env := fun name =>
  if name = namesEnv then some (utf8 "FOO\nBAR")
  else if name = utf8 "FOO" then some (utf8 "a'b")
  else none

theorem env_delivered_sample :
    agentEnvNamesFromRaw (envSample namesEnv) =
      .ok ([utf8 "FOO=a'b", utf8 "BAR"].map specName) ∧
    ∃ text, agentEnvFile envSample = .ok text ∧ Shell.assignments text =
      some (selected envSample ([utf8 "FOO=a'b", utf8 "BAR"].map specName)) :=
  @env_delivered _ [⟨utf8 "FOO=a'b", utf8 "FOO", by decide, by decide, by decide⟩,
    ⟨utf8 "BAR", utf8 "BAR", by decide, by decide, by decide⟩] _ (by decide +kernel)
    (by decide +kernel)

end Claudepod
