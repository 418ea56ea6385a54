import Mathlib.Data.List.Basic

/-! Words and commands as a POSIX shell reads them. Bytes in single quotes are literal, a
backslash quotes one byte, and a newline outside quotes ends a command. -/

set_option autoImplicit false

namespace Shell

/-- A byte of a word. -/
inductive Piece where
  /-- It is not quoted and stands for itself. -/
  | plain (b : UInt8)
  | quoted (b : UInt8)
  /-- It is not quoted and has another meaning: an expansion, a pattern, an operator. -/
  | special (b : UInt8)
  deriving DecidableEq, Repr

abbrev Word := List Piece

inductive Mode where
  | bare | single | escaped
  deriving DecidableEq, Repr

structure State where
  mode : Mode
  word : Option Word
  /-- The words of the command so far. -/
  command : List Word
  commands : List (List Word)
  deriving DecidableEq, Repr

def quote : UInt8 := 39
def backslash : UInt8 := 92
def newline : UInt8 := 10
def equals : UInt8 := 61
def underscore : UInt8 := 95

/-- Blank and tab. -/
def blanks : List UInt8 := [32, 9]

/-- `!`, `"`, `#`, `$`, `&`, `(`, `)`, `*`, `;`, `<`, `>`, `?`, `[`, `]`, the backquote, and
`{`, `|`, `}`, `~`. -/
def specials : List UInt8 :=
  [33, 34, 35, 36, 38, 40, 41, 42, 59, 60, 62, 63, 91, 93, 96, 123, 124, 125, 126]

namespace State

def initial : State := ⟨.bare, none, [], []⟩

def put (s : State) (p : Piece) : State := { s with word := some (s.word.getD [] ++ [p]) }

def endWord (s : State) : State :=
  { s with word := none, command := s.command ++ s.word.toList }

/-- A line without words is no command. -/
def endCommand (s : State) : State :=
  let s := s.endWord
  if s.command = [] then s else { s with command := [], commands := s.commands ++ [s.command] }

def step (s : State) (b : UInt8) : State :=
  match s.mode with
  | .single => if b = quote then { s with mode := .bare } else s.put (.quoted b)
  -- A backslash and a newline are both removed.
  | .escaped =>
    if b = newline then { s with mode := .bare } else { s.put (.quoted b) with mode := .bare }
  | .bare =>
    if b = quote then { s with mode := .single, word := some (s.word.getD []) }
    else if b = backslash then { s with mode := .escaped }
    else if b = newline then s.endCommand
    else if b ∈ blanks then s.endWord
    else if b ∈ specials then s.put (.special b)
    else s.put (.plain b)

def read (s : State) (text : List UInt8) : State := text.foldl step s

end State

/-- The commands of a text, if no quote is left open. -/
def commands (text : List UInt8) : Option (List (List Word)) :=
  let s := State.initial.read text
  if s.mode = .bare then some s.endCommand.commands else none

/-- What a word without special bytes stands for. -/
def literal : Word → Option (List UInt8)
  | [] => some []
  | .plain b :: w | .quoted b :: w => (literal w).map (b :: ·)
  | .special _ :: _ => none

/-! ### Names and assignments -/

def isNameStart (b : UInt8) : Bool :=
  b == underscore || (65 ≤ b && b ≤ 90) || (97 ≤ b && b ≤ 122)

def isNameByte (b : UInt8) : Bool := isNameStart b || (48 ≤ b && b ≤ 57)

def isName : List UInt8 → Bool
  | [] => false
  | b :: bs => isNameStart b && bs.all isNameByte

/-- The bytes up to an unquoted equals sign, and what follows it. -/
def splitAssignment : Word → Option (List UInt8 × Word)
  | .plain b :: w =>
    if b = equals then some ([], w) else (splitAssignment w).map fun (name, w) => (b :: name, w)
  | _ => none

/-- The name and the value, where a word is an assignment of literal bytes. -/
def assignment (w : Word) : Option (List UInt8 × List UInt8) :=
  (splitAssignment w).bind fun (name, value) =>
    if isName name then (literal value).map fun v => (name, v) else none

/-- The assignments that a text consists of, one a command, if it has no other words. -/
def assignments (text : List UInt8) : Option (List (List UInt8 × List UInt8)) :=
  (commands text).bind fun cs => cs.mapM fun
    | [w] => assignment w
    | _ => none

/-! ### Reading plain and quoted bytes -/

/-- A byte of a single-quoted string, with quotes closed, escaped and opened again. -/
def quoteByte (b : UInt8) : List UInt8 :=
  if b = quote then [quote, backslash, quote, quote] else [b]

/-- It neither ends a word nor has another meaning outside quotes. -/
def ordinary (b : UInt8) : Bool := b ∉ quote :: backslash :: newline :: (blanks ++ specials)

theorem ordinary_of_nameByte {b : UInt8} (h : isNameByte b) : ordinary b := by
  have hm : ∀ b ∈ quote :: backslash :: newline :: (blanks ++ specials), isNameByte b = false := by
    decide +kernel
  unfold ordinary
  rw [decide_eq_true_eq]
  intro hb
  rw [hm b hb] at h
  cases h

theorem ordinary_of_isName {name : List UInt8} (h : isName name) : ∀ b ∈ name, ordinary b := by
  cases name with
  | nil => simp
  | cons b bs =>
    simp only [isName, Bool.and_eq_true, List.all_eq_true] at h
    intro c hc
    rcases List.mem_cons.mp hc with rfl | hc
    · exact ordinary_of_nameByte (by simp [isNameByte, h.1])
    · exact ordinary_of_nameByte (h.2 c hc)

namespace State

theorem read_append (s : State) (x y : List UInt8) : s.read (x ++ y) = (s.read x).read y :=
  List.foldl_append

theorem read_cons (s : State) (b : UInt8) (x : List UInt8) : s.read (b :: x) = (s.step b).read x :=
  rfl

variable {w : Word} {command : List Word} {commands : List (List Word)}

theorem step_ordinary {word : Option Word} {b : UInt8} (h : ordinary b) :
    step ⟨.bare, word, command, commands⟩ b =
      ⟨.bare, some (word.getD [] ++ [.plain b]), command, commands⟩ := by
  simp only [ordinary, List.mem_cons, List.mem_append, not_or, decide_eq_true_eq] at h
  simp [step, put, h]

theorem read_ordinary {bs : List UInt8} (h : ∀ b ∈ bs, ordinary b) :
    read ⟨.bare, some w, command, commands⟩ bs =
      ⟨.bare, some (w ++ bs.map .plain), command, commands⟩ := by
  induction bs generalizing w with
  | nil => simp [read]
  | cons b bs ih =>
    rw [read_cons, step_ordinary (h b (by simp))]
    rw [Option.getD_some, ih fun c hc => h c (by simp [hc])]
    simp

/-- A name starts a word. -/
theorem read_name {name : List UInt8} (h : isName name) :
    read ⟨.bare, none, command, commands⟩ name =
      ⟨.bare, some (name.map .plain), command, commands⟩ := by
  have ho := ordinary_of_isName h
  cases name with
  | nil => cases h
  | cons b bs =>
    rw [read_cons, step_ordinary (ho b (by simp)), Option.getD_none,
      read_ordinary fun c hc => ho c (by simp [hc])]
    simp

theorem read_quoteByte (b : UInt8) :
    read ⟨.single, some w, command, commands⟩ (quoteByte b) =
      ⟨.single, some (w ++ [.quoted b]), command, commands⟩ := by
  unfold quoteByte
  split
  · rename_i h
    subst h
    rfl
  · rename_i h
    simp [read, step, put, h]

theorem read_quoteBytes (value : List UInt8) :
    read ⟨.single, some w, command, commands⟩ (value.flatMap quoteByte) =
      ⟨.single, some (w ++ value.map .quoted), command, commands⟩ := by
  induction value generalizing w with
  | nil => simp [read]
  | cons b value ih =>
    rw [List.flatMap_cons, read_append, read_quoteByte, ih]
    simp

end State

/-- `name='value'` and a newline. -/
def assignmentLine (name value : List UInt8) : List UInt8 :=
  name ++ equals :: quote :: (value.flatMap quoteByte ++ [quote, newline])

def assignmentWord (name value : List UInt8) : Word :=
  name.map .plain ++ .plain equals :: value.map .quoted

/-- A line leaves the reader where it was, one command further on. -/
theorem State.read_assignmentLine {name : List UInt8} (h : isName name) (value : List UInt8)
    (commands : List (List Word)) :
    read ⟨.bare, none, [], commands⟩ (assignmentLine name value) =
      ⟨.bare, none, [], commands ++ [[assignmentWord name value]]⟩ := by
  have he : ordinary equals := by decide
  have hq : ∀ w : Word, step ⟨.bare, some w, [], commands⟩ quote =
      ⟨.single, some w, [], commands⟩ := fun _ => rfl
  have hend : ∀ w : Word, read ⟨.single, some w, [], commands⟩ [quote, newline] =
      ⟨.bare, none, [], commands ++ [[w]]⟩ := fun _ => rfl
  unfold assignmentLine assignmentWord
  rw [read_append, read_name h, read_cons, step_ordinary he, Option.getD_some, read_cons, hq,
    read_append, read_quoteBytes, hend]
  simp

/-- The lines of a list of assignments are read one by one. -/
theorem commands_assignmentLines {xs : List (List UInt8 × List UInt8)} (h : ∀ x ∈ xs, isName x.1) :
    commands (xs.flatMap fun x => assignmentLine x.1 x.2) =
      some (xs.map fun x => [assignmentWord x.1 x.2]) := by
  have hr : ∀ cs, State.read ⟨.bare, none, [], cs⟩ (xs.flatMap fun x => assignmentLine x.1 x.2) =
      ⟨.bare, none, [], cs ++ xs.map fun x => [assignmentWord x.1 x.2]⟩ := by
    induction xs with
    | nil => simp [State.read]
    | cons x xs ih =>
      intro cs
      rw [List.flatMap_cons, State.read_append, State.read_assignmentLine (h x (by simp)),
        ih fun y hy => h y (by simp [hy])]
      simp
  unfold commands State.initial
  rw [hr]
  simp [State.endCommand, State.endWord]

theorem literal_quoted (value : List UInt8) : literal (value.map .quoted) = some value := by
  induction value with
  | nil => rfl
  | cons b value ih => rw [List.map_cons, literal, ih]; rfl

theorem splitAssignment_word {name : List UInt8} (h : equals ∉ name) (value : List UInt8) :
    splitAssignment (assignmentWord name value) = some (name, value.map .quoted) := by
  unfold assignmentWord
  induction name with
  | nil => simp [splitAssignment]
  | cons b name ih =>
    rw [List.mem_cons, not_or] at h
    rw [List.map_cons, List.cons_append, splitAssignment, if_neg (Ne.symm h.1), ih h.2]
    rfl

theorem equals_notMem {name : List UInt8} (h : isName name) : equals ∉ name := by
  cases name with
  | nil => simp
  | cons b bs =>
    simp only [isName, Bool.and_eq_true, List.all_eq_true] at h
    intro hm
    rcases List.mem_cons.mp hm with rfl | hm
    · exact absurd h.1 (by decide)
    · exact absurd (h.2 _ hm) (by decide)

theorem assignment_word {name : List UInt8} (h : isName name) (value : List UInt8) :
    assignment (assignmentWord name value) = some (name, value) := by
  simp [assignment, splitAssignment_word (equals_notMem h), h, literal_quoted]

/-- A text of such lines is those assignments and nothing else. -/
theorem assignments_lines {xs : List (List UInt8 × List UInt8)} (h : ∀ x ∈ xs, isName x.1) :
    assignments (xs.flatMap fun x => assignmentLine x.1 x.2) = some xs := by
  unfold assignments
  rw [commands_assignmentLines h, Option.bind_some]
  induction xs with
  | nil => rfl
  | cons x xs ih =>
    rw [List.map_cons, List.mapM_cons, ih fun y hy => h y (by simp [hy])]
    simp [assignment_word (h x (by simp))]

end Shell
