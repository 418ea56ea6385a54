import Claudepod.GuestShell

/-! The files under `/run` and their readers: the guest's shell script, and the launcher inside
the container. -/

set_option autoImplicit false

namespace Claudepod
open Interaction

/-! ### The command -/

/-- What `write_runtime_config` writes to `/run/claudepod-command`. -/
def commandText (command : List Bytes) : Bytes := command.flatMap (· ++ [0])

theorem writeRunFiles_command {env : Env} {command : List Bytes} {files : RunFiles}
    (h : writeRunFiles env command = .ok files) : files.command = commandText command := by
  obtain ⟨project, mode, -, -, -, hf⟩ := writeRunFiles_ok h
  rw [hf]
  rfl

theorem splitOn_commandText {command : List Bytes} (h : ∀ arg ∈ command, 0 ∉ arg) :
    (commandText command).splitOn 0 = command ++ [[]] := by
  induction command with
  | nil => rfl
  | cons arg command ih =>
    obtain ⟨ha, hc⟩ := List.forall_mem_cons.mp h
    have ht : commandText (arg :: command) = arg ++ 0 :: commandText command := by
      simp [commandText]
    rw [ht, List.splitOn_append_cons_self_of_not_mem ha, ih hc]
    rfl

theorem readCommand_commandText {command : List Bytes} (h : ∀ arg ∈ command, 0 ∉ arg) :
    readCommand (commandText command) = command := by
  unfold readCommand
  split
  · rename_i ht
    cases command with
    | nil => rfl
    | cons arg command => simp [commandText] at ht
  · rw [splitOn_commandText h, List.dropLast_concat]

/-- The files are written for every command, or for none. -/
theorem writeRunFiles_iff {env : Env} {command : List Bytes} :
    (∃ files, writeRunFiles env command = .ok files) ↔
      (∃ project, env projectPathEnv = some project ∧ project ≠ []) ∧
        (∃ mode, env modeEnv = some mode ∧ mode ≠ []) ∧ ∃ text, agentEnvFile env = .ok text := by
  simp only [← requiredEnvBytes_iff]
  constructor
  · intro ⟨files, h⟩
    obtain ⟨project, mode, hp, hm, ht, -⟩ := writeRunFiles_ok h
    exact ⟨⟨project, hp⟩, ⟨mode, hm⟩, files.env, ht⟩
  · intro ⟨⟨project, hp⟩, ⟨mode, hm⟩, text, ht⟩
    rw [writeRunFiles, hp, hm, ht]
    exact ⟨_, rfl⟩

/-- The shell reads back the arguments of every command, and no two commands have one file. -/
theorem command_delivered :
    (∀ (env : Env) (command : List Bytes), (∃ files, writeRunFiles env command = .ok files) ↔
      (∃ project, env projectPathEnv = some project ∧ project ≠ []) ∧
        (∃ mode, env modeEnv = some mode ∧ mode ≠ []) ∧ ∃ text, agentEnvFile env = .ok text) ∧
    (∀ (env : Env) (command : List Bytes) (files : RunFiles),
      writeRunFiles env command = .ok files → files.command = commandText command) ∧
    (∀ command : List Bytes, (∀ arg ∈ command, 0 ∉ arg) →
      readCommand (commandText command) = command) ∧
    ∀ command other : List Bytes, (∀ arg ∈ command, 0 ∉ arg) → (∀ arg ∈ other, 0 ∉ arg) →
      commandText command = commandText other → command = other := by
  refine ⟨fun env command => writeRunFiles_iff, fun env command files h => writeRunFiles_command h,
    fun command h => readCommand_commandText h, fun command other h h' he => ?_⟩
  rw [← readCommand_commandText h, he, readCommand_commandText h']

/-- The environment of a container for one project. -/
def projectSample (project : Bytes) : Env := fun name =>
  if name = projectPathEnv then some project
  else if name = modeEnv then some (utf8 "shell")
  else none

def argvSample : List Bytes := [[], utf8 "-x\n", []]

/-- What is written is read back, and no arguments at all have another file than an empty one. -/
theorem command_delivered_sample :
    (∃ files, writeRunFiles (projectSample (utf8 "/projects/a")) argvSample = .ok files ∧
      readCommand files.command = argvSample) ∧ commandText [] ≠ commandText [[]] := by
  obtain ⟨written, text, read, apart⟩ := command_delivered
  obtain ⟨files, h⟩ := (written (projectSample (utf8 "/projects/a")) argvSample).mpr
    ⟨⟨utf8 "/projects/a", by decide, by decide⟩, ⟨utf8 "shell", by decide, by decide⟩,
      [], by decide⟩
  refine ⟨⟨files, h, ?_⟩, fun he => ?_⟩
  · rw [text _ _ _ h, read _ (by decide)]
  · cases apart [] [[]] (by simp) (by simp) he

/-! ### Files of one line -/

def toplevelFile : String := "/run/claudepod-toplevel"

/-- What `write_runtime_config` writes for the system. -/
def toplevelText (system : Bytes) : Bytes := system ++ [newline]

/-- The system a launcher boots: `CLAUDEPOD_TOPLEVEL`, or what the file of a container says. -/
def toplevel (env : Option Bytes) (file : Except Error Bytes) : Except Error Bytes :=
  match env.filter (· ≠ []) with
  | some value => .ok value
  | none => do
    let raw ← file.mapError (Error.context s!"read {toplevelFile}")
    let trimmed := stripNewline raw
    if trimmed = [] then .error (.msg s!"{toplevelFile} is empty") else .ok trimmed

theorem toplevel_text {v : Bytes} (h : v ≠ []) : toplevel none (.ok (toplevelText v)) = .ok v := by
  have hs : stripNewline (toplevelText v) = v := stripNewline_text v
  show (if stripNewline (toplevelText v) = [] then _ else _) = _
  rw [hs, if_neg h]

theorem storeLayers_text {v : Bytes} {paths : List Bytes} (h : parseLayers v = .ok paths) :
    parentStoreLayers (some (storeLayersText v)) = .ok paths ∧ joinLayers paths = v := by
  constructor
  · show (parseLayers (stripNewline (storeLayersText v))).mapError _ = _
    rw [stripNewline_text, h]
    rfl
  · unfold parseLayers at h
    cases hm : (v.splitOn colon).mapM checkLayer with
    | error e => simp [hm, Except.map] at h
    | ok units =>
      simp only [hm, Except.map, Except.ok.injEq] at h
      rw [← h, joinLayers, List.intercalate_splitOn]

theorem filter_of_notMem {v : Bytes} (h : 0 ∉ v) : v.filter (· ≠ 0) = v :=
  List.filter_eq_self.mpr fun b hb => by simpa using fun he : b = 0 => h (he ▸ hb)

/-- The shell takes off all newlines at the end. -/
theorem commandSubstitution_line {v : Bytes} (h : 0 ∉ v) :
    commandSubstitution (v ++ [newline]) = v ↔ v.getLast? ≠ some newline := by
  have hf : (v ++ [newline]).filter (· ≠ 0) = v ++ [newline] :=
    filter_of_notMem (by simp [h, newline])
  unfold commandSubstitution
  rw [hf, List.reverse_append, List.reverse_singleton, List.singleton_append,
    List.dropWhile_cons_of_pos (by simp), ← List.head?_reverse]
  rw [List.reverse_eq_iff]
  cases v.reverse with
  | nil => simp
  | cons b bs =>
    rw [List.head?_cons]
    by_cases hb : b = newline
    · subst hb
      rw [List.dropWhile_cons_of_pos (by simp)]
      simp only [ne_eq, not_true_eq_false, iff_false]
      intro he
      have hl := (List.dropWhile_suffix (fun x => x = newline) (l := bs)).length_le
      rw [he, List.length_cons] at hl
      omega
    · rw [List.dropWhile_cons_of_neg (by simpa using hb)]
      simp [hb]

/-- The launcher reads back every system and every list of layers; the shell reads back a
project unless it ends in a newline. -/
theorem lines_read_back {v : Bytes} (hne : v ≠ []) (h : 0 ∉ v) :
    (∀ (env : Env) (command : List Bytes) (files : RunFiles), env projectPathEnv = some v →
      writeRunFiles env command = .ok files →
        ((readVars files).project = v ↔ v.getLast? ≠ some newline)) ∧
    toplevel none (.ok (toplevelText v)) = .ok v ∧
    ∀ paths, parseLayers v = .ok paths →
      parentStoreLayers (some (storeLayersText v)) = .ok paths ∧ joinLayers paths = v := by
  refine ⟨fun env command files he hf => ?_, toplevel_text hne, fun paths hp => storeLayers_text hp⟩
  obtain ⟨project, mode, hp, -, -, hfiles⟩ := writeRunFiles_ok hf
  obtain rfl : v = project := Option.some.inj (he.symm.trans (requiredEnvBytes_iff.mp hp).1)
  rw [hfiles]
  exact commandSubstitution_line h

theorem lines_read_back_sample :
    (∀ (env : Env) (command : List Bytes) (files : RunFiles),
      env projectPathEnv = some (utf8 "/nix/store") → writeRunFiles env command = .ok files →
        ((readVars files).project = utf8 "/nix/store" ↔
          (utf8 "/nix/store").getLast? ≠ some newline)) ∧
    toplevel none (.ok (toplevelText (utf8 "/nix/store"))) = .ok (utf8 "/nix/store") ∧
    ∀ paths, parseLayers (utf8 "/nix/store") = .ok paths →
      parentStoreLayers (some (storeLayersText (utf8 "/nix/store"))) = .ok paths ∧
        joinLayers paths = utf8 "/nix/store" :=
  lines_read_back (by decide) (by decide)

/-- The newline at the end of a project's name is lost. -/
theorem lines_read_back_fails :
    ∃ files, writeRunFiles (projectSample (utf8 "/projects/a\n")) [] = .ok files ∧
      (readVars files).project = utf8 "/projects/a" ∧
      utf8 "/projects/a" ≠ utf8 "/projects/a\n" :=
  ⟨⟨utf8 "shell\n", utf8 "/projects/a\n\n", [], []⟩, by decide +kernel, by decide, by decide⟩

end Claudepod
