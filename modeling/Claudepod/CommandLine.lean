import Mathlib.Data.List.TakeWhile

/-! Command lines. A program has switches, and flags with a value, which stands behind an equals
sign or is the next argument, whatever that looks like. The first argument that is not a flag ends
the flags: it and all behind it are operands. -/

set_option autoImplicit false

namespace CommandLine

abbrev Arg := List UInt8

def hyphen : UInt8 := 45
def equals : UInt8 := 61

inductive Flag where
  | switch (name : Arg)
  | value (name value : Arg)
  deriving DecidableEq

/-- A flag as it is written. -/
inductive Item where
  | switch (name : Arg)
  | next (name value : Arg)
  | joined (name value : Arg)
  deriving DecidableEq

def Item.args : Item → List Arg
  | .switch name => [name]
  | .next name value => [name, value]
  | .joined name value => [name ++ equals :: value]

def Item.flag : Item → Flag
  | .switch name => .switch name
  | .next name value => .value name value
  | .joined name value => .value name value

def Flag.valueOf (name : Arg) : Flag → Option Arg
  | .switch _ => none
  | .value other v => if other = name then some v else none

def Flag.name : Flag → Arg
  | .switch name => name
  | .value name _ => name

/-- The values of a flag, in order. -/
def values (name : Arg) (flags : List Flag) : List Arg := flags.filterMap (Flag.valueOf name)

/-- The flags with other names. -/
def others (names : List Arg) (flags : List Flag) : List Flag :=
  flags.filter fun flag => !names.contains flag.name

/-- The flags of a program. -/
structure Table where
  switches : List Arg
  valued : List Arg
  deriving DecidableEq

def Item.In (table : Table) : Item → Prop
  | .switch name => name ∈ table.switches
  | .next name _ => name ∈ table.valued
  | .joined name _ => name ∈ table.valued

instance (table : Table) : DecidablePred (Item.In table)
  | .switch _ => decidable_of_iff _ List.contains_iff_mem
  | .next _ _ => decidable_of_iff _ List.contains_iff_mem
  | .joined _ _ => decidable_of_iff _ List.contains_iff_mem

abbrev Parsed := List Flag × List Arg

def Parsed.add (flag : Flag) (parsed : Parsed) : Parsed := (flag :: parsed.1, parsed.2)

/-- How a program reads its arguments: its flags, however they are written, up to the first
operand. -/
structure Reader (table : Table) where
  read : List Arg → Option Parsed
  item : ∀ (x : Item) (rest : List Arg), x.In table →
    read (x.args ++ rest) = (read rest).map (Parsed.add x.flag)
  operand : ∀ (arg : Arg) (rest : List Arg), arg.head? ≠ some hyphen →
    read (arg :: rest) = some ([], arg :: rest)

namespace Reader

variable {table : Table} (reader : Reader table) {items : List Item} {arg : Arg}

/-- Nothing in a value or behind the first operand is taken for a flag. -/
theorem read_line (hi : ∀ x ∈ items, x.In table) (ha : arg.head? ≠ some hyphen)
    (rest : List Arg) :
    reader.read (items.flatMap Item.args ++ arg :: rest) =
      some (items.map Item.flag, arg :: rest) := by
  induction items with
  | nil => exact reader.operand arg rest ha
  | cons x items ih =>
    rw [List.flatMap_cons, List.append_assoc, reader.item x _ (hi x (.head _)),
      ih fun y hy => hi y (.tail _ hy)]
    rfl

end Reader

/-! ### Values -/

section Values

variable {name other value : Arg} {flags gs : List Flag}

@[simp] theorem values_nil (name : Arg) : values name [] = [] := rfl

@[simp] theorem values_append (name : Arg) (flags gs : List Flag) :
    values name (flags ++ gs) = values name flags ++ values name gs := List.filterMap_append

@[simp] theorem values_switch : values name (.switch other :: flags) = values name flags := rfl

theorem values_self : values name (.value name value :: flags) = value :: values name flags := by
  rw [values, List.filterMap_cons_some
    (show Flag.valueOf name (.value name value) = some value from if_pos rfl)]
  rfl

theorem values_other (h : other ≠ name) :
    values name (.value other value :: flags) = values name flags := by
  rw [values, List.filterMap_cons_none
    (show Flag.valueOf name (.value other value) = none from if_neg h)]
  rfl

/-- Each value under the name. -/
def each (name : Arg) (vs : List Arg) : List Item := vs.map (.next name)

theorem values_each (name : Arg) (vs : List Arg) :
    values name ((each name vs).map Item.flag) = vs := by
  induction vs with
  | nil => rfl
  | cons v vs ih =>
    show values name (.value name v :: (each name vs).map Item.flag) = v :: vs
    rw [values_self, ih]

theorem values_each_other (h : other ≠ name) (vs : List Arg) :
    values name ((each other vs).map Item.flag) = [] := by
  induction vs with
  | nil => rfl
  | cons v vs ih =>
    show values name (.value other v :: (each other vs).map Item.flag) = []
    rw [values_other h, ih]

@[simp] theorem others_append (names : List Arg) (flags gs : List Flag) :
    others names (flags ++ gs) = others names flags ++ others names gs := List.filter_append ..

theorem others_each {names : List Arg} (h : name ∈ names) (vs : List Arg) :
    others names ((each name vs).map Item.flag) = [] := by
  refine List.filter_eq_nil_iff.mpr fun flag hf => ?_
  obtain ⟨item, hi, rfl⟩ := List.mem_map.mp hf
  obtain ⟨v, -, rfl⟩ := List.mem_map.mp hi
  simp [Item.flag, Flag.name, h]

end Values

/-! ### A reader for every table -/

namespace Table

/-- Flags start with a hyphen and have no equals sign, and none is both. -/
structure Sound (table : Table) : Prop where
  hyphened : ∀ name ∈ table.switches ++ table.valued, name.head? = some hyphen
  plain : ∀ name ∈ table.valued, equals ∉ name
  closed : ∀ name ∈ table.switches, equals ∉ name
  disjoint : ∀ name ∈ table.valued, name ∉ table.switches

/-- With the flag that awaits its value. -/
def readFrom (table : Table) : Option Arg → List Arg → Option Parsed
  | none, [] => some ([], [])
  | some _, [] => none
  | some name, value :: rest =>
    (table.readFrom none rest).map (Parsed.add (.value name value))
  | none, arg :: rest =>
    if arg.head? ≠ some hyphen then some ([], arg :: rest)
    else if table.switches.contains arg then
      (table.readFrom none rest).map (Parsed.add (.switch arg))
    else if table.valued.contains arg then table.readFrom (some arg) rest
    else if table.valued.contains (arg.takeWhile (· ≠ equals)) then
      (table.readFrom none rest).map (Parsed.add (.value (arg.takeWhile (· ≠ equals))
        ((arg.dropWhile (· ≠ equals)).drop 1)))
    else none

def read (table : Table) (args : List Arg) : Option Parsed := table.readFrom none args

variable {table : Table}

theorem read_item (h : table.Sound) (x : Item) (rest : List Arg) (hx : x.In table) :
    table.read (x.args ++ rest) = (table.read rest).map (Parsed.add x.flag) := by
  cases x with
  | switch name =>
    have hh := h.hyphened name (List.mem_append_left _ hx)
    show table.readFrom none (name :: rest) = _
    rw [readFrom, if_neg (by simp [hh]), if_pos (List.contains_iff_mem.mpr hx)]
    rfl
  | next name value =>
    have hh := h.hyphened name (List.mem_append_right _ hx)
    show table.readFrom none (name :: value :: rest) = _
    rw [readFrom, if_neg (by simp [hh]), if_neg (by simpa using h.disjoint name hx),
      if_pos (List.contains_iff_mem.mpr hx)]
    rfl
  | joined name value =>
    have hh := h.hyphened name (List.mem_append_right _ hx)
    have hp := h.plain name hx
    have hb : ∀ b ∈ name, (decide (b ≠ equals)) = true := fun b hb => by
      simpa using fun he : b = equals => hp (he ▸ hb)
    have ht : (name ++ equals :: value).takeWhile (· ≠ equals) = name := by
      rw [List.takeWhile_append_of_pos hb]
      simp
    have hd : (name ++ equals :: value).dropWhile (· ≠ equals) = equals :: value := by
      rw [List.dropWhile_append_of_pos hb]
      simp
    have hs : name ++ equals :: value ∉ table.switches := fun hm =>
      h.closed _ hm (by simp)
    have hv : name ++ equals :: value ∉ table.valued := fun hm => h.plain _ hm (by simp)
    have hf : (name ++ equals :: value).head? = some hyphen := by
      rw [List.head?_append, hh]
      rfl
    show table.readFrom none ((name ++ equals :: value) :: rest) = _
    rw [readFrom, if_neg (by simp [hf]), if_neg (by simpa using hs), if_neg (by simpa using hv),
      ht, hd, if_pos (List.contains_iff_mem.mpr hx)]
    rfl

/-- The rules can be kept. -/
def reader (h : table.Sound) : Reader table where
  read := table.read
  item := read_item h
  operand arg rest ha := by rw [read, readFrom, if_pos ha]

end Table

end CommandLine
