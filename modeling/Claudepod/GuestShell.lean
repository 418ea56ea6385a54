import Claudepod.Launch

/-! `claudepod-shell`, which starts the session in the guest from the files that the entry point
of the container writes. -/

set_option autoImplicit false

namespace Claudepod
open Interaction

/-! ### The entry point -/

/-- The files under `/run` that the script reads. -/
structure RunFiles where
  mode : Bytes
  project : Bytes
  command : Bytes
  env : Bytes
  deriving DecidableEq

def requiredEnvBytes (env : Env) (name : Bytes) : Except Error Bytes :=
  match (env name).filter (· ≠ []) with
  | some value => .ok value
  | none => .error (.msg (fromUtf8Lossy name ++ " is not set"))

def writeRunFiles (env : Env) (command : List Bytes) : Except Error RunFiles := do
  let project ← requiredEnvBytes env projectPathEnv
  let mode ← requiredEnvBytes env modeEnv
  let text ← agentEnvFile env
  pure ⟨mode ++ [newline], project ++ [newline], command.flatMap (· ++ [0]), text⟩

/-! ### The script -/

/-- The variables that the script itself uses. -/
structure Vars where
  mode : Bytes
  project : Bytes
  command : List Bytes
  deriving DecidableEq

/-- `$(cat file)`: without null bytes and the newlines at the end. -/
def commandSubstitution (text : Bytes) : Bytes :=
  ((text.filter (· ≠ 0)).reverse.dropWhile (· = newline)).reverse

/-- `while IFS= read -r -d ""`: what follows the last null byte is not read. -/
def readCommand (text : Bytes) : List Bytes :=
  if text = [] then [] else (text.splitOn 0).dropLast

def readVars (files : RunFiles) : Vars :=
  ⟨commandSubstitution files.mode, commandSubstitution files.project, readCommand files.command⟩

def modeName : Bytes := utf8 "MODE"
def projectName : Bytes := utf8 "PROJECT"
def commandName : Bytes := utf8 "COMMAND"

/-- Variables of bash that cannot be assigned to: under `set -e` the script ends. -/
def readonlyVars : List Bytes :=
  [utf8 "BASHOPTS", utf8 "BASH_VERSINFO", utf8 "EUID", utf8 "PPID", utf8 "SHELLOPTS", utf8 "UID"]

/-- Variables of bash whose value is evaluated as an arithmetic expression. -/
def integerVars : List Bytes :=
  [utf8 "HISTCMD", utf8 "OPTIND", utf8 "RANDOM", utf8 "SRANDOM"]

/-- What evaluating an arithmetic expression does to the variables; `none` is an error. -/
abbrev Evaluate := Bytes → Vars → Option Vars

/-- An assignment in the script. To an array it is one to its first element. -/
def Vars.assign (evaluate : Evaluate) (vars : Vars) (x : Bytes × Bytes) : Option Vars :=
  if x.1 ∈ readonlyVars then none
  else if x.1 ∈ integerVars then evaluate x.2 vars
  else if x.1 = modeName then some { vars with mode := x.2 }
  else if x.1 = projectName then some { vars with project := x.2 }
  else if x.1 = commandName then some { vars with command := x.2 :: vars.command.tail }
  else some vars

/-- `set -a` and `. /run/claudepod-env`, where it holds assignments only: the variables
afterwards, and the assignments that are exported. -/
def sourceEnv (evaluate : Evaluate) (text : Bytes) (vars : Vars) :
    Option (Vars × List (Bytes × Bytes)) :=
  (Shell.assignments text).bind fun xs =>
    (xs.foldlM (Vars.assign evaluate) vars).map fun vars => (vars, xs)

structure Pkgs where
  bash : Bytes
  npx : Bytes

/-- How a login shell comes out of its start-up files. -/
inductive Startup where
  /-- To the commands it was given, with these positional parameters. -/
  | done (params : List Bytes)
  /-- It goes another way: the directory it ends in, and what it executes there. -/
  | diverted (dir : Bytes) (argv : List Bytes)
  deriving DecidableEq

/-- What `bash --login -c` does before its commands. It reads `/etc/profile`, the profile in
`HOME` and the file in `BASH_ENV`; they find the exported assignments in the environment, and may
set the positional parameters. -/
abbrev Login := List (Bytes × Bytes) → List Bytes → Startup

def innerScript : Bytes := utf8 "\n  cd \"$1\"\n  shift\n  exec \"$@\"\n"

/-- The operand of `cd` in `innerScript`, and what it executes. -/
def runInner : Startup → Bytes × List Bytes
  | .done params => (params.headD [], params.tail)
  | .diverted dir argv => (dir, argv)

/-- What the script does in the end. -/
inductive Started where
  /-- It has changed to a directory and executes a login shell. -/
  | shell (dir : Bytes) (argv : List Bytes)
  /-- It executes `argv`, a login shell that runs `innerScript`; `inner` is what comes of that. -/
  | exec (mode : Option Bytes) (argv : List Bytes) (inner : Bytes × List Bytes)
  | unknownMode (mode : Bytes)
  | aborted
  deriving DecidableEq

def execCommand (pkgs : Pkgs) (startup : List Bytes → Startup) (mode : Option Bytes)
    (project : Bytes) (command : List Bytes) : Started :=
  .exec mode
    ([pkgs.bash, utf8 "--login", utf8 "-c", innerScript, utf8 "claudepod", project] ++ command)
    (runInner (startup (project :: command)))

/-- The command of a mode that has one. -/
def agentCommand (pkgs : Pkgs) (mode : Bytes) : Option (List Bytes) :=
  if mode = utf8 "claude" then some [utf8 "claude", utf8 "--dangerously-skip-permissions"]
  else if mode = utf8 "codex" then
    some [pkgs.npx, utf8 "-y", utf8 "@openai/codex", utf8 "--sandbox", utf8 "danger-full-access",
      utf8 "--ask-for-approval", utf8 "never"]
  else none

def startSession (pkgs : Pkgs) (startup : List Bytes → Startup) (vars : Vars) : Started :=
  if vars.command = [] then
    if vars.mode = utf8 "shell" then .shell vars.project [pkgs.bash, utf8 "--login"]
    else
      match agentCommand pkgs vars.mode with
      | some command => execCommand pkgs startup (some vars.mode) vars.project command
      | none => .unknownMode vars.mode
  else execCommand pkgs startup none vars.project vars.command

def claudepodShell (pkgs : Pkgs) (evaluate : Evaluate) (login : Login) (files : RunFiles) :
    Started :=
  match sourceEnv evaluate files.env (readVars files) with
  | some (vars, exported) => startSession pkgs (login exported) vars
  | none => .aborted

/-! ### What the selected environment can change -/

/-- The value that a selected name has in the container. -/
def given (env : Env) (names : List Bytes) (name : Bytes) : Option Bytes :=
  if name ∈ names then env name else none

/-- Evaluating the value changes none of the script's variables. -/
def Harmless (evaluate : Evaluate) (value : Bytes) : Prop :=
  ∀ vars, evaluate value vars = some vars

def knownModes : List Bytes := [utf8 "shell", utf8 "claude", utf8 "codex"]

/-- The given assignments leave alone what the script still uses. -/
structure Undisturbed (assigned : Bytes → Option Bytes) (vars : Vars) : Prop where
  readonly : ∀ name ∈ readonlyVars, assigned name = none
  command : ∀ value, assigned commandName = some value → vars.command.head? = some value
  /-- Without a command the mode decides. -/
  mode : vars.command = [] → ∀ value, assigned modeName = some value → value = vars.mode
  /-- In an unknown mode the script goes nowhere. -/
  project : vars.command ≠ [] ∨ vars.mode ∈ knownModes →
    ∀ value, assigned projectName = some value → value = vars.project

/-- The positional parameters that `innerScript` is to find, where it runs. -/
def handed (pkgs : Pkgs) (vars : Vars) : Option (List Bytes) :=
  if vars.command = [] then (agentCommand pkgs vars.mode).map (vars.project :: ·)
  else some (vars.project :: vars.command)

/-- With the assignments in its environment the inner shell starts up as it does without. -/
def StartsAlike (pkgs : Pkgs) (login : Login) (exported : List (Bytes × Bytes)) (vars : Vars) :
    Prop :=
  ∀ params, handed pkgs vars = some params →
    runInner (login exported params) = runInner (login [] params)

/-- The variables after the assignments. -/
def Vars.override (assigned : Bytes → Option Bytes) (vars : Vars) : Vars :=
  ⟨(assigned modeName).getD vars.mode, (assigned projectName).getD vars.project,
    match assigned commandName with
    | some value => value :: vars.command.tail
    | none => vars.command⟩

theorem given_nil (env : Env) (name : Bytes) : given env [] name = none := by simp [given]

theorem given_cons_self {env : Env} {names : List Bytes} {name : Bytes} :
    given env (name :: names) name = env name := by simp [given]

theorem given_cons_ne {env : Env} {names : List Bytes} {name other : Bytes} (h : other ≠ name) :
    given env (name :: names) other = given env names other := by simp [given, h]

theorem given_eq_some {env : Env} {names : List Bytes} {name value : Bytes}
    (h : given env names name = some value) : env name = some value := by
  unfold given at h
  split at h
  · exact h
  · cases h

/-- A name without a value is as good as not selected. -/
theorem given_cons_none {env : Env} {names : List Bytes} {name : Bytes} (h : env name = none) :
    given env (name :: names) = given env names := by
  funext other
  by_cases ho : other = name
  · subst ho
    simp [given, h]
  · exact given_cons_ne ho

theorem given_cons_of_some {env : Env} {names : List Bytes} {other value : Bytes} (name : Bytes)
    (h : given env names other = some value) : given env (name :: names) other = some value := by
  by_cases ho : other = name
  · subst ho
    rw [given_cons_self]
    exact given_eq_some h
  · rw [given_cons_ne ho, h]

/-- Once assigned, a later assignment of the same value changes nothing. -/
theorem getD_given_cons {env : Env} {names : List Bytes} {name value : Bytes}
    (h : env name = some value) (d : Bytes) :
    (given env (name :: names) name).getD d = (given env names name).getD value := by
  rw [given_cons_self, h, Option.getD_some]
  cases hg : given env names name with
  | none => rfl
  | some x => exact Option.some.inj (h.symm.trans (given_eq_some hg))

section Source

variable {evaluate : Evaluate} {env : Env}

theorem override_other {names : List Bytes} {name : Bytes} {vars : Vars} (hm : modeName ≠ name)
    (hp : projectName ≠ name) (hc : commandName ≠ name) :
    vars.override (given env (name :: names)) = vars.override (given env names) := by
  simp only [Vars.override, given_cons_ne hm, given_cons_ne hp, given_cons_ne hc]

/-- Assigning a name first is part of what its value overrides in the end. -/
theorem assign_override {name value : Bytes} (names : List Bytes) (vars : Vars)
    (hv : env name = some value) (hr : name ∉ readonlyVars)
    (hi : name ∈ integerVars → Harmless evaluate value) :
    ∃ vars', vars.assign evaluate (name, value) = some vars' ∧
      vars'.override (given env names) = vars.override (given env (name :: names)) := by
  unfold Vars.assign
  rw [if_neg hr]
  by_cases hint : name ∈ integerVars
  · refine ⟨vars, by rw [if_pos hint]; exact hi hint vars, (override_other ?_ ?_ ?_).symm⟩ <;>
      rintro rfl <;> revert hint <;> decide
  · rw [if_neg hint]
    by_cases hm : name = modeName
    · subst hm
      refine ⟨_, if_pos rfl, ?_⟩
      simp only [Vars.override, getD_given_cons hv]
      rw [given_cons_ne (by decide), given_cons_ne (by decide)]
    · rw [if_neg hm]
      by_cases hp : name = projectName
      · subst hp
        refine ⟨_, if_pos rfl, ?_⟩
        simp only [Vars.override, getD_given_cons hv]
        rw [given_cons_ne (by decide), given_cons_ne (by decide)]
      · rw [if_neg hp]
        by_cases hc : name = commandName
        · subst hc
          refine ⟨_, if_pos rfl, ?_⟩
          simp only [Vars.override, given_cons_self, hv]
          rw [given_cons_ne (by decide), given_cons_ne (by decide)]
          cases hg : given env names commandName with
          | none => rfl
          | some x =>
            obtain rfl : value = x := Option.some.inj (hv.symm.trans (given_eq_some hg))
            rfl
        · exact ⟨vars, if_neg hc, (override_other (Ne.symm hm) (Ne.symm hp) (Ne.symm hc)).symm⟩

/-- What is assigned, step by step, is what the names have for values in the end. -/
theorem foldlM_assign {names : List Bytes} (vars : Vars)
    (hr : ∀ name ∈ readonlyVars, given env names name = none)
    (hi : ∀ name ∈ integerVars, ∀ value, given env names name = some value →
      Harmless evaluate value) :
    (selected env names).foldlM (Vars.assign evaluate) vars =
      some (vars.override (given env names)) := by
  induction names generalizing vars with
  | nil => simp [selected, Vars.override, given_nil]
  | cons name names ih =>
    have hr' : ∀ other ∈ readonlyVars, given env names other = none := by
      intro other ho
      cases hg : given env names other with
      | none => rfl
      | some value =>
        have hs := given_cons_of_some name hg
        rw [hr other ho] at hs
        cases hs
    have hi' : ∀ other ∈ integerVars, ∀ value, given env names other = some value →
        Harmless evaluate value := fun other ho value hg =>
      hi other ho value (given_cons_of_some _ hg)
    unfold selected
    rw [List.filterMap_cons]
    cases hv : env name with
    | none =>
      rw [given_cons_none hv]
      exact ih vars hr' hi'
    | some value =>
      have hn : name ∉ readonlyVars := by
        intro hm
        have hs := hr name hm
        rw [given_cons_self, hv] at hs
        cases hs
      obtain ⟨vars', ha, ho⟩ := assign_override names vars hv hn fun hm =>
        hi name hm value (by rw [given_cons_self, hv])
      show ((name, value) :: selected env names).foldlM _ _ = _
      rw [List.foldlM_cons, ha, ← ho]
      exact ih vars' hr' hi'

/-- A readonly variable among the names ends the script. -/
theorem foldlM_assign_readonly {names : List Bytes} {name value : Bytes} (vars : Vars)
    (hr : name ∈ readonlyVars) (hv : given env names name = some value) :
    (selected env names).foldlM (Vars.assign evaluate) vars = none := by
  induction names generalizing vars with
  | nil => cases hv
  | cons n names ih =>
    unfold selected
    rw [List.filterMap_cons]
    cases he : env n with
    | none =>
      rw [given_cons_none he] at hv
      exact ih vars hv
    | some x =>
      show ((n, x) :: selected env names).foldlM _ _ = _
      rw [List.foldlM_cons]
      by_cases hn : name = n
      · subst hn
        rw [Vars.assign, if_pos hr]
        rfl
      · rw [given_cons_ne hn] at hv
        cases vars.assign evaluate (n, x) with
        | none => rfl
        | some vars' => exact ih vars' hv

end Source

/-- The mode that the script has selected. -/
def Started.mode : Started → Option Bytes
  | .shell _ _ => some (utf8 "shell")
  | .exec mode _ _ => mode
  | .unknownMode mode => some mode
  | .aborted => none

/-- The three ways of a session without a command. -/
theorem mode_cases (pkgs : Pkgs) (mode : Bytes) :
    (mode = utf8 "shell" ∧ agentCommand pkgs mode = none) ∨
    (mode ≠ utf8 "shell" ∧ mode ∈ knownModes ∧ ∃ command, agentCommand pkgs mode = some command) ∨
    (mode ≠ utf8 "shell" ∧ mode ∉ knownModes ∧ agentCommand pkgs mode = none) := by
  by_cases hs : mode = utf8 "shell"
  · subst hs
    exact .inl ⟨rfl, rfl⟩
  · by_cases hc : mode = utf8 "claude"
    · exact .inr (.inl ⟨hs, by simp [knownModes, hc], _, if_pos hc⟩)
    · by_cases hx : mode = utf8 "codex"
      · exact .inr (.inl ⟨hs, by simp [knownModes, hx], _, by
          rw [agentCommand, if_neg hc, if_pos hx]⟩)
      · exact .inr (.inr ⟨hs, by simp [knownModes, hs, hc, hx], by
          rw [agentCommand, if_neg hc, if_neg hx]⟩)

section Session

variable {pkgs : Pkgs} {startup startup' : List Bytes → Startup} {mode mode' project : Bytes}

theorem startSession_shell :
    startSession pkgs startup ⟨utf8 "shell", project, []⟩ =
      .shell project [pkgs.bash, utf8 "--login"] := rfl

theorem startSession_agent {command : List Bytes} (hs : mode ≠ utf8 "shell")
    (hc : agentCommand pkgs mode = some command) :
    startSession pkgs startup ⟨mode, project, []⟩ =
      execCommand pkgs startup (some mode) project command := by
  simp only [startSession, if_true, if_neg hs, hc]

theorem startSession_unknown (hs : mode ≠ utf8 "shell") (hc : agentCommand pkgs mode = none) :
    startSession pkgs startup ⟨mode, project, []⟩ = .unknownMode mode := by
  simp only [startSession, if_true, if_neg hs, hc]

theorem startSession_command {command : List Bytes} (h : command ≠ []) :
    startSession pkgs startup ⟨mode, project, command⟩ =
      execCommand pkgs startup none project command := if_neg h

theorem execCommand_inj {chosen chosen' : Option Bytes} {project' : Bytes}
    {command command' : List Bytes} :
    execCommand pkgs startup' chosen' project' command' =
        execCommand pkgs startup chosen project command ↔
      chosen' = chosen ∧ project' = project ∧ command' = command ∧
        runInner (startup' (project :: command)) = runInner (startup (project :: command)) := by
  unfold execCommand
  constructor
  · intro h
    injection h with hm hargv hi
    have hp : project' :: command' = project :: command :=
      @List.append_cancel_left _ [pkgs.bash, utf8 "--login", utf8 "-c", innerScript,
        utf8 "claudepod"] _ _ hargv
    obtain ⟨rfl, rfl⟩ := List.cons.inj hp
    exact ⟨hm, rfl, rfl, hi⟩
  · rintro ⟨rfl, rfl, rfl, hi⟩
    rw [hi]

theorem mode_startSession :
    (startSession pkgs startup ⟨mode, project, []⟩).mode = some mode := by
  obtain ⟨rfl, -⟩ | ⟨hs, -, command, hc⟩ | ⟨hs, -, hc⟩ := mode_cases pkgs mode
  · rfl
  · rw [startSession_agent hs hc]
    rfl
  · rw [startSession_unknown hs hc]
    rfl

theorem startSession_nil_iff {project' : Bytes} :
    startSession pkgs startup' ⟨mode', project', []⟩ =
        startSession pkgs startup ⟨mode, project, []⟩ ↔
      mode' = mode ∧ (mode ∈ knownModes → project' = project) ∧
        ∀ params, handed pkgs ⟨mode, project, []⟩ = some params →
          runInner (startup' params) = runInner (startup params) := by
  have hmode : startSession pkgs startup' ⟨mode', project', []⟩ =
      startSession pkgs startup ⟨mode, project, []⟩ → mode' = mode := fun h => by
    have hm := congrArg Started.mode h
    rw [mode_startSession, mode_startSession] at hm
    exact Option.some.inj hm
  have hhanded : handed pkgs ⟨mode, project, []⟩ =
      (agentCommand pkgs mode).map (project :: ·) := rfl
  rw [hhanded]
  obtain ⟨rfl, hc⟩ | ⟨hs, hk, command, hc⟩ | ⟨hs, hk, hc⟩ := mode_cases pkgs mode <;>
    simp only [hc, Option.map_some, Option.map_none, Option.some.injEq, forall_eq']
  · constructor
    · intro h
      obtain rfl := hmode h
      rw [startSession_shell, startSession_shell] at h
      injection h with hp
      exact ⟨rfl, fun _ => hp, nofun⟩
    · rintro ⟨rfl, hp, -⟩
      rw [hp (by decide), startSession_shell, startSession_shell]
  · constructor
    · intro h
      obtain rfl := hmode h
      rw [startSession_agent hs hc, startSession_agent hs hc, execCommand_inj] at h
      exact ⟨rfl, fun _ => h.2.1, h.2.2.2⟩
    · rintro ⟨rfl, hp, hi⟩
      rw [startSession_agent hs hc, startSession_agent hs hc, execCommand_inj]
      exact ⟨rfl, hp hk, rfl, hi⟩
  · constructor
    · intro h
      exact ⟨hmode h, fun hm => absurd hm hk, nofun⟩
    · rintro ⟨rfl, -⟩
      rw [startSession_unknown hs hc, startSession_unknown hs hc]

theorem startSession_command_iff {project' : Bytes} {command command' : List Bytes}
    (h : command ≠ []) (h' : command' ≠ []) :
    startSession pkgs startup' ⟨mode', project', command'⟩ =
        startSession pkgs startup ⟨mode, project, command⟩ ↔
      project' = project ∧ command' = command ∧
        ∀ params, handed pkgs ⟨mode, project, command⟩ = some params →
          runInner (startup' params) = runInner (startup params) := by
  have hhanded : handed pkgs ⟨mode, project, command⟩ = some (project :: command) := if_neg h
  rw [startSession_command h, startSession_command h', execCommand_inj, hhanded]
  simp

/-- A command and a mode never execute the same. -/
theorem startSession_command_ne {project' : Bytes} {command : List Bytes} (h : command ≠ []) :
    startSession pkgs startup' ⟨mode', project', command⟩ ≠
      startSession pkgs startup ⟨mode, project, []⟩ := by
  intro he
  have hm := congrArg Started.mode he
  rw [mode_startSession, startSession_command h] at hm
  cases hm

end Session

/-- The given assignments leave the session alone if they leave alone what the script uses, and
the start-up of the inner shell comes to the same. -/
theorem startSession_override (pkgs : Pkgs) (login : Login) (exported : List (Bytes × Bytes))
    (assigned : Bytes → Option Bytes) (vars : Vars) :
    startSession pkgs (login exported) (vars.override assigned) =
        startSession pkgs (login []) vars ↔
      (∀ value, assigned commandName = some value → vars.command.head? = some value) ∧
      (vars.command = [] → ∀ value, assigned modeName = some value → value = vars.mode) ∧
      (vars.command ≠ [] ∨ vars.mode ∈ knownModes → ∀ value,
        assigned projectName = some value → value = vars.project) ∧
      StartsAlike pkgs login exported vars := by
  obtain ⟨mode, project, command⟩ := vars
  have hget : ∀ (o : Option Bytes) (d : Bytes),
      o.getD d = d ↔ ∀ value, o = some value → value = d := by
    intro o d
    cases o with
    | none => simp
    | some x => simp
  unfold Vars.override StartsAlike
  cases command with
  | nil =>
    cases assigned commandName with
    | none =>
      simp only [startSession_nil_iff, hget]
      simp
    | some value =>
      refine ⟨fun h => absurd h (startSession_command_ne (by simp)), fun h => ?_⟩
      cases h.1 value rfl
  | cons c cs =>
    cases assigned commandName with
    | none =>
      simp only [startSession_command_iff (List.cons_ne_nil c cs) (List.cons_ne_nil c cs), hget]
      simp
    | some value =>
      simp only [startSession_command_iff (List.cons_ne_nil c cs) (List.cons_ne_nil value cs),
        List.tail_cons, hget]
      simp [eq_comm, and_left_comm]

theorem startSession_ne_aborted (pkgs : Pkgs) (startup : List Bytes → Startup) (vars : Vars) :
    startSession pkgs startup vars ≠ .aborted := by
  unfold startSession execCommand
  split
  · repeat' split
    all_goals nofun
  · nofun

/-! ### The files -/

theorem requiredEnvBytes_iff {env : Env} {name v : Bytes} :
    requiredEnvBytes env name = .ok v ↔ env name = some v ∧ v ≠ [] := by
  unfold requiredEnvBytes
  cases env name with
  | none => simp
  | some w =>
    by_cases hw : w = []
    · subst hw
      simp only [ne_eq, Option.some.injEq, decide_not]
      exact ⟨nofun, fun h => absurd h.1.symm h.2⟩
    · rw [Option.filter_some_pos (by simpa using hw)]
      exact ⟨fun h => ⟨congrArg some (Except.ok.inj h), Except.ok.inj h ▸ hw⟩,
        fun h => congrArg Except.ok (Option.some.inj h.1)⟩

theorem writeRunFiles_ok {env : Env} {command : List Bytes} {files : RunFiles}
    (h : writeRunFiles env command = .ok files) :
    ∃ project mode, requiredEnvBytes env projectPathEnv = .ok project ∧
      requiredEnvBytes env modeEnv = .ok mode ∧ agentEnvFile env = .ok files.env ∧
      files = ⟨mode ++ [newline], project ++ [newline], command.flatMap (· ++ [0]), files.env⟩ := by
  unfold writeRunFiles at h
  obtain ⟨project, hp, h⟩ := bind_eq_ok h
  obtain ⟨mode, hm, h⟩ := bind_eq_ok h
  obtain ⟨text, ht, h⟩ := bind_eq_ok h
  obtain rfl := Except.ok.inj h
  exact ⟨project, mode, hp, hm, ht, rfl⟩

/-- Without specs the environment file is empty, and the others are the same. -/
theorem writeRunFiles_unselected {env env₀ : Env} {command : List Bytes} {files : RunFiles}
    (h : writeRunFiles env command = .ok files) (hm : env₀ modeEnv = env modeEnv)
    (hp : env₀ projectPathEnv = env projectPathEnv) (hn : (env₀ namesEnv).getD [] = []) :
    writeRunFiles env₀ command = .ok { files with env := [] } := by
  obtain ⟨project, mode, hpr, hmo, -, hf⟩ := writeRunFiles_ok h
  have ht : agentEnvFile env₀ = .ok [] := by
    rw [agentEnvFile_eq (@agentEnvNames_join [] _ hn)]
    rfl
  have hpr₀ : requiredEnvBytes env₀ projectPathEnv = .ok project := by
    rw [← hpr, requiredEnvBytes, hp, requiredEnvBytes]
  have hmo₀ : requiredEnvBytes env₀ modeEnv = .ok mode := by
    rw [← hmo, requiredEnvBytes, hm, requiredEnvBytes]
  rw [writeRunFiles, hpr₀, hmo₀, ht, hf]
  rfl

theorem claudepodShell_unselected (pkgs : Pkgs) (evaluate : Evaluate) (login : Login)
    (files : RunFiles) :
    claudepodShell pkgs evaluate login { files with env := [] } =
      startSession pkgs (login []) (readVars files) := rfl

/-- Sourced assignments leave the session alone exactly when they leave alone what it uses. -/
theorem claudepodShell_selected {env : Env} {names : List Bytes} {files : RunFiles} (pkgs : Pkgs)
    (evaluate : Evaluate) (login : Login)
    (ha : Shell.assignments files.env = some (selected env names))
    (hi : ∀ name ∈ integerVars, ∀ value, given env names name = some value →
      Harmless evaluate value) :
    claudepodShell pkgs evaluate login files = startSession pkgs (login []) (readVars files) ↔
      Undisturbed (given env names) (readVars files) ∧
        StartsAlike pkgs login (selected env names) (readVars files) := by
  have hsource : sourceEnv evaluate files.env (readVars files) =
      ((selected env names).foldlM (Vars.assign evaluate) (readVars files)).map
        fun vars => (vars, selected env names) := by
    rw [sourceEnv, ha, Option.bind_some]
  rw [claudepodShell, hsource]
  by_cases hr : ∀ name ∈ readonlyVars, given env names name = none
  · rw [foldlM_assign _ hr hi]
    show startSession pkgs _ _ = _ ↔ _
    rw [startSession_override]
    exact ⟨fun ⟨hc, hm, hp, hl⟩ => ⟨⟨hr, hc, hm, hp⟩, hl⟩,
      fun ⟨hu, hl⟩ => ⟨hu.command, hu.mode, hu.project, hl⟩⟩
  · obtain ⟨name, hn, hg⟩ : ∃ name ∈ readonlyVars, given env names name ≠ none := by
      simpa using hr
    obtain ⟨value, hv⟩ := Option.ne_none_iff_exists'.mp hg
    rw [foldlM_assign_readonly _ hn hv]
    exact ⟨fun hx => absurd hx.symm (startSession_ne_aborted pkgs _ _),
      fun hu => absurd hu.1.readonly hr⟩

/-- The environment of a container started with one spec, in mode `claude`. -/
def shellSample (name value : Bytes) : Env := fun n =>
  if n = name then some value
  else if n = namesEnv then some name
  else if n = modeEnv then some (utf8 "claude")
  else if n = projectPathEnv then some (utf8 "/home/alice/src/proj")
  else none

def pkgsSample : Pkgs := ⟨utf8 "/nix/store/x-bash/bin/bash", utf8 "/nix/store/x-nodejs/bin/npx"⟩

/-- Start-up files that change nothing, and a file `/f` that executes `sh` where `BASH_ENV` names
it. -/
def loginSample : Login := fun exported params =>
  if (utf8 "BASH_ENV", utf8 "/f") ∈ exported then .diverted (utf8 "/tmp") [utf8 "sh"]
  else .done params

/-- With `-e BASH_ENV=/f` the script executes the same, and the inner shell something else. -/
example : claudepodShell pkgsSample (fun _ vars => some vars) loginSample
    ⟨utf8 "claude\n", utf8 "/p\n", [], utf8 "BASH_ENV='/f'\n"⟩ =
      .exec (some (utf8 "claude")) [pkgsSample.bash, utf8 "--login", utf8 "-c", innerScript,
        utf8 "claudepod", utf8 "/p", utf8 "claude", utf8 "--dangerously-skip-permissions"]
        (utf8 "/tmp", [utf8 "sh"]) := by
  decide +kernel

end Claudepod
