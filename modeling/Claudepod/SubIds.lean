import Claudepod.Async
import Claudepod.Numeral
import Mathlib.Data.List.Forall2
import Mathlib.Data.List.TakeWhile

/-! The sub-id files of a container: the ids of its user namespace above the runtime user. -/

set_option autoImplicit false

namespace Claudepod
open Interaction

/-! ### `str` -/

/-- A carriage return before the newline belongs to it. -/
def stripCarriageReturn (line : Text) : Text :=
  if line.getLast? = some '\r' then line.dropLast else line

/-- `str::lines`: no line follows the last newline. -/
def lines (text : Text) : List Text :=
  let pieces := text.splitOn '\n'
  pieces.dropLast.map stripCarriageReturn ++ pieces.getLast?.toList.filter (· ≠ [])

/-- `str::trim`. -/
def trim (text : Text) : Text :=
  ((text.dropWhile isWhitespace).reverse.dropWhile isWhitespace).reverse

/-- `str::split_whitespace`. -/
def splitWhitespace (text : Text) : List Text := (text.splitOnP isWhitespace).filter (· ≠ [])

/-! ### The files -/

def runtimeUid : Nat := 1000

def subidDelegateStart : Nat := runtimeUid + 1

def parseMapField (field : Option Text) (lineNo : Nat) (name : String) : Except Error Nat :=
  match field with
  | none => .error (.msg s!"uid/gid map line {lineNo} missing {name}")
  | some field => (Numeral.fromStr 64 field).mapError fun e =>
    (Error.msg e.text).context s!"uid/gid map line {lineNo} invalid {name}"

/-- A line of a sub-id file. -/
def delegation (start count : Nat) : Text :=
  Numeral.decimal runtimeUid ++ ':' :: (Numeral.decimal start ++ ':' :: (Numeral.decimal count ++
    ['\n']))

/-- What is written for one line of the map. -/
def subidLine (lineNo : Nat) (line : Text) : Except Error Text :=
  let line := trim line
  if line = [] then .ok []
  else do
    let fields := splitWhitespace line
    let inside ← parseMapField fields[0]? lineNo "inside id"
    let _ ← parseMapField fields[1]? lineNo "parent id"
    let count ← parseMapField fields[2]? lineNo "count"
    if fields[3]?.isSome then .error (.msg s!"uid/gid map line {lineNo} has extra fields")
    else if 2 ^ 64 ≤ inside + count then .error (.msg s!"uid/gid map line {lineNo} overflows")
    else
      let stop := inside + count
      let start := max inside subidDelegateStart
      .ok (if start < stop then delegation start (stop - start) else [])

def subidLines : Nat → List Text → Except Error Text
  | _, [] => .ok []
  | lineNo, line :: rest => do
    let out ← subidLine lineNo line
    let more ← subidLines (lineNo + 1) rest
    pure (out ++ more)

def subidFileFromMap (map : Text) : Except Error Text := subidLines 1 (lines map)

example : subidFileFromMap "0 100000 500\r\n500 100500 1000".toList =
    .ok "1000:1001:499\n".toList := by decide +kernel

/-! ### Ranges of ids -/

structure IdRange where
  start : Nat
  count : Nat
  deriving DecidableEq, Repr

namespace IdRange

def Has (r : IdRange) (id : Nat) : Prop := r.start ≤ id ∧ id < r.start + r.count

instance (r : IdRange) (id : Nat) : Decidable (r.Has id) := by unfold Has; infer_instance

/-- Some id of the range may be delegated. -/
def Reaches (r : IdRange) : Prop := subidDelegateStart < r.start + r.count ∧ 0 < r.count

instance (r : IdRange) : Decidable r.Reaches := by unfold Reaches; infer_instance

/-- The ids of the range that may be delegated. -/
def above (r : IdRange) : IdRange :=
  ⟨max r.start subidDelegateStart, r.start + r.count - max r.start subidDelegateStart⟩

theorem reaches_iff {r : IdRange} : r.Reaches ↔ ∃ id, runtimeUid < id ∧ r.Has id := by
  unfold Reaches Has subidDelegateStart
  constructor
  · intro h
    exact ⟨r.start + r.count - 1, by omega, by omega, by omega⟩
  · intro ⟨id, hid, h⟩
    omega

theorem has_above {r : IdRange} {id : Nat} : r.above.Has id ↔ r.Has id ∧ runtimeUid < id := by
  unfold above Has subidDelegateStart
  dsimp only
  omega

theorem above_bounds {r : IdRange} (h : r.Reaches) (hr : r.start + r.count < 2 ^ 64) :
    subidDelegateStart ≤ r.above.start ∧ 0 < r.above.count ∧
      r.above.start + r.above.count < 2 ^ 64 := by
  unfold Reaches at h
  unfold above
  dsimp only
  omega

def text (r : IdRange) : Text := delegation r.start r.count

end IdRange

/-- What a map of ranges leaves to be delegated. -/
structure Delegated (ranges delegated : List IdRange) : Prop where
  inOrder : List.Forall₂ (fun r d : IdRange => ∀ id, d.Has id ↔ r.Has id ∧ runtimeUid < id)
    (ranges.filter (·.Reaches)) delegated
  bounds : ∀ d ∈ delegated, subidDelegateStart ≤ d.start ∧ 0 < d.count ∧ d.start + d.count < 2 ^ 64
  exact : ∀ id, delegated.countP (·.Has id) =
    if runtimeUid < id then ranges.countP (·.Has id) else 0
  disjoint : (∀ id, ranges.countP (·.Has id) ≤ 1) → ∀ id, delegated.countP (·.Has id) ≤ 1

theorem countP_above (ranges : List IdRange) (id : Nat) :
    ((ranges.filter (·.Reaches)).map IdRange.above).countP (·.Has id) =
      if runtimeUid < id then ranges.countP (·.Has id) else 0 := by
  induction ranges with
  | nil => simp
  | cons r ranges ih =>
    have hr : r.above.Has id → r.Reaches := fun h =>
      IdRange.reaches_iff.mpr ⟨id, (IdRange.has_above.mp h).2, (IdRange.has_above.mp h).1⟩
    have hc : r.Reaches ∨ ¬ r.above.Has id := by tauto
    by_cases hp : r.Reaches
    · rw [List.filter_cons_of_pos (by simpa using hp), List.map_cons, List.countP_cons, ih,
        List.countP_cons]
      simp only [decide_eq_true_eq, IdRange.has_above]
      split <;> simp_all
    · have hn : runtimeUid < id → ¬ r.Has id := fun hi hh =>
        hp (IdRange.reaches_iff.mpr ⟨id, hi, hh⟩)
      rw [List.filter_cons_of_neg (by simpa using hp), ih, List.countP_cons]
      split <;> simp_all

theorem delegated_above {ranges : List IdRange} (h : ∀ r ∈ ranges, r.start + r.count < 2 ^ 64) :
    Delegated ranges ((ranges.filter (·.Reaches)).map IdRange.above) where
  inOrder := by
    rw [List.forall₂_map_right_iff, List.forall₂_same]
    intro r _ id
    exact IdRange.has_above
  bounds d hd := by
    obtain ⟨r, hr, rfl⟩ := List.mem_map.mp hd
    obtain ⟨hm, hp⟩ := List.mem_filter.mp hr
    exact IdRange.above_bounds (by simpa using hp) (h r hm)
  exact := countP_above ranges
  disjoint h id := by
    rw [countP_above]
    split
    · exact h id
    · omega

/-! ### Lines of a map -/

def Blank (line : Text) : Prop := ∀ c ∈ line, isWhitespace c

instance (line : Text) : Decidable (Blank line) :=
  decidable_of_iff (line.all isWhitespace = true) List.all_eq_true

/-- Three numbers, of which the first and the last are a range. -/
def MapLine (line : Text) (r : IdRange) : Prop :=
  ∃ inside parent count : Text, ∃ n : Nat, splitWhitespace line = [inside, parent, count] ∧
    (Numeral.Spells inside r.start ∧ r.start < 2 ^ 64) ∧ (Numeral.Spells parent n ∧ n < 2 ^ 64) ∧
    (Numeral.Spells count r.count ∧ r.count < 2 ^ 64) ∧ r.start + r.count < 2 ^ 64

theorem splitWhitespace_cons {c : Char} (h : isWhitespace c) (text : Text) :
    splitWhitespace (c :: text) = splitWhitespace text := by
  have hs := List.splitOnP_append_cons (p := isWhitespace) [] text h
  unfold splitWhitespace
  rw [List.nil_append] at hs
  rw [hs, List.filter_append]
  simp

theorem splitWhitespace_concat {c : Char} (h : isWhitespace c) (text : Text) :
    splitWhitespace (text ++ [c]) = splitWhitespace text := by
  unfold splitWhitespace
  rw [List.splitOnP_append_cons _ _ h, List.filter_append]
  simp

theorem splitWhitespace_dropWhile (text : Text) :
    splitWhitespace (text.dropWhile isWhitespace) = splitWhitespace text := by
  induction text with
  | nil => rfl
  | cons c text ih =>
    by_cases hc : isWhitespace c
    · rw [List.dropWhile_cons_of_pos hc, ih, splitWhitespace_cons hc]
    · rw [List.dropWhile_cons_of_neg hc]

theorem splitWhitespace_trim (text : Text) :
    splitWhitespace (trim text) = splitWhitespace text := by
  have hr : ∀ s : Text, splitWhitespace (s.dropWhile isWhitespace).reverse =
      splitWhitespace s.reverse := by
    intro s
    induction s with
    | nil => rfl
    | cons c s ih =>
      by_cases hc : isWhitespace c
      · rw [List.dropWhile_cons_of_pos hc, ih, List.reverse_cons, splitWhitespace_concat hc]
      · rw [List.dropWhile_cons_of_neg hc]
  unfold trim
  rw [hr, List.reverse_reverse, splitWhitespace_dropWhile]

theorem trim_eq_nil {line : Text} : trim line = [] ↔ Blank line := by
  unfold trim Blank
  rw [List.reverse_eq_nil_iff, List.dropWhile_eq_nil_iff]
  simp only [List.mem_reverse]
  constructor
  · intro h
    have hd : line.dropWhile isWhitespace = [] := by
      cases hl : line.dropWhile isWhitespace with
      | nil => rfl
      | cons c cs =>
        have hc := List.head_dropWhile_not isWhitespace (l := line) (by simp [hl])
        simp only [hl, List.head_cons] at hc
        have hw := h c (by simp [hl])
        simp [hc] at hw
    exact List.dropWhile_eq_nil_iff.mp hd
  · intro h c hc
    exact h c ((List.dropWhile_sublist _).subset hc)

theorem parseMapField_ok {field : Option Text} {lineNo : Nat} {name : String} {n : Nat} :
    parseMapField field lineNo name = .ok n ↔
      ∃ f, field = some f ∧ Numeral.Spells f n ∧ n < 2 ^ 64 := by
  cases field with
  | none => simp [parseMapField]
  | some f =>
    have he : parseMapField (some f) lineNo name = .ok n ↔ Numeral.fromStr 64 f = .ok n := by
      show (Numeral.fromStr 64 f).mapError _ = _ ↔ _
      cases Numeral.fromStr 64 f <;> simp [Except.mapError]
    rw [he, Numeral.fromStr_ok]
    simp

/-- What a range leaves is written in one line, if it leaves anything. -/
def IdRange.written (r : IdRange) : Text := if r.Reaches then r.above.text else []

theorem subidLine_blank {line : Text} (h : Blank line) (lineNo : Nat) :
    subidLine lineNo line = .ok [] := by
  unfold subidLine
  rw [trim_eq_nil.mpr h]
  rfl

theorem written_eq (inside count : Nat) :
    (if max inside subidDelegateStart < inside + count then
      delegation (max inside subidDelegateStart)
        (inside + count - max inside subidDelegateStart) else []) =
      IdRange.written ⟨inside, count⟩ := by
  have hr :
      (⟨inside, count⟩ : IdRange).Reaches ↔ max inside subidDelegateStart < inside + count := by
    unfold IdRange.Reaches
    dsimp only
    omega
  unfold IdRange.written
  simp only [hr]
  rfl

theorem subidLine_ok {line out : Text} {lineNo : Nat} (h : ¬ Blank line) :
    subidLine lineNo line = .ok out ↔ ∃ r, MapLine line r ∧ out = r.written := by
  unfold subidLine
  dsimp only
  rw [if_neg fun ht => h (trim_eq_nil.mp ht), splitWhitespace_trim]
  unfold MapLine
  generalize splitWhitespace line = fields
  constructor
  · intro ho
    obtain ⟨inside, hi, ho⟩ := bind_eq_ok ho
    obtain ⟨parent, hp, ho⟩ := bind_eq_ok ho
    obtain ⟨count, hc, ho⟩ := bind_eq_ok ho
    split at ho
    · cases ho
    · rename_i hx
      split at ho
      · cases ho
      · rename_i hb
        obtain ⟨f₁, h₁, hs₁⟩ := parseMapField_ok.mp hi
        obtain ⟨f₂, h₂, hs₂⟩ := parseMapField_ok.mp hp
        obtain ⟨f₃, h₃, hs₃⟩ := parseMapField_ok.mp hc
        have hf : fields = [f₁, f₂, f₃] := by
          match fields, h₁, h₂, h₃, hx with
          | [_, _, _], h₁, h₂, h₃, _ => simp_all
        have hlt : inside + count < 2 ^ 64 := by omega
        refine ⟨⟨inside, count⟩, ⟨f₁, f₂, f₃, parent, hf, hs₁, hs₂, hs₃, hlt⟩, ?_⟩
        rw [← written_eq inside count]
        exact (Except.ok.inj ho).symm
  · intro ⟨r, ⟨f₁, f₂, f₃, parent, hf, hs₁, hs₂, hs₃, hb⟩, ho⟩
    have hi : parseMapField fields[0]? lineNo "inside id" = .ok r.start :=
      parseMapField_ok.mpr ⟨f₁, by simp [hf], hs₁⟩
    have hp : parseMapField fields[1]? lineNo "parent id" = .ok parent :=
      parseMapField_ok.mpr ⟨f₂, by simp [hf], hs₂⟩
    have hc : parseMapField fields[2]? lineNo "count" = .ok r.count :=
      parseMapField_ok.mpr ⟨f₃, by simp [hf], hs₃⟩
    simp only [hi, hp, hc, bind, Except.bind]
    rw [if_neg (by simp [hf]), if_neg (by omega), ho]
    exact congrArg Except.ok (written_eq r.start r.count)

/-! ### The whole map -/

theorem subidLines_ok {lineNo : Nat} {ls : List Text} {out : Text} :
    subidLines lineNo ls = .ok out ↔
      ∃ ranges, List.Forall₂ MapLine (ls.filter (¬ Blank ·)) ranges ∧
        out = ranges.flatMap IdRange.written := by
  induction ls generalizing lineNo out with
  | nil =>
    simp only [subidLines, Except.ok.injEq, List.filter_nil, List.forall₂_nil_left_iff]
    constructor
    · intro h
      exact ⟨[], rfl, h.symm⟩
    · intro ⟨ranges, hr, ho⟩
      rw [ho, hr]
      rfl
  | cons line ls ih =>
    unfold subidLines
    by_cases hb : Blank line
    · have hm : (do let out ← subidLine lineNo line; let more ← subidLines (lineNo + 1) ls
                    pure (out ++ more)) = subidLines (lineNo + 1) ls := by
        rw [subidLine_blank hb]
        cases subidLines (lineNo + 1) ls <;> rfl
      rw [hm, List.filter_cons_of_neg (by simp [hb]), ih]
    · rw [List.filter_cons_of_pos (by simp [hb])]
      constructor
      · intro h
        obtain ⟨first, hl, h⟩ := bind_eq_ok h
        obtain ⟨more, hr, h⟩ := bind_eq_ok h
        obtain ⟨r, hm, rfl⟩ := (subidLine_ok hb).mp hl
        obtain ⟨ranges, hrs, rfl⟩ := ih.mp hr
        exact ⟨r :: ranges, .cons hm hrs, by rw [← Except.ok.inj h, List.flatMap_cons]⟩
      · intro ⟨ranges, hrs, ho⟩
        obtain ⟨r, rs, hm, hmore, rfl⟩ := List.forall₂_cons_left_iff.mp hrs
        rw [(subidLine_ok hb).mpr ⟨r, hm, rfl⟩, ih.mpr ⟨rs, hmore, rfl⟩, ho]
        rfl

theorem flatMap_written (ranges : List IdRange) :
    ranges.flatMap IdRange.written =
      ((ranges.filter (·.Reaches)).map IdRange.above).flatMap IdRange.text := by
  induction ranges with
  | nil => rfl
  | cons r ranges ih =>
    rw [List.flatMap_cons, ih]
    unfold IdRange.written
    by_cases hr : r.Reaches
    · rw [if_pos hr, List.filter_cons_of_pos (by simpa using hr)]
      rfl
    · rw [if_neg hr, List.filter_cons_of_neg (by simpa using hr)]
      rfl

theorem exists_forall₂ {ls : List Text} (h : ∀ line ∈ ls, ∃ r, MapLine line r) :
    ∃ ranges, List.Forall₂ MapLine ls ranges := by
  induction ls with
  | nil => exact ⟨[], .nil⟩
  | cons line ls ih =>
    rw [List.forall_mem_cons] at h
    obtain ⟨r, hr⟩ := h.1
    obtain ⟨ranges, hrs⟩ := ih h.2
    exact ⟨r :: ranges, .cons hr hrs⟩

theorem forall₂_bounded {ls : List Text} {ranges : List IdRange}
    (h : List.Forall₂ MapLine ls ranges) :
    (∀ line ∈ ls, ∃ r, MapLine line r) ∧ ∀ r ∈ ranges, r.start + r.count < 2 ^ 64 := by
  induction h with
  | nil => simp
  | @cons line r ls ranges hm _ ih =>
    obtain ⟨-, -, -, -, -, -, -, -, hb⟩ := id hm
    rw [List.forall_mem_cons, List.forall_mem_cons]
    exact ⟨⟨⟨r, hm⟩, ih.1⟩, hb, ih.2⟩

/-- A map is accepted exactly if each of its lines is blank or a range of ids, and then exactly
the ids of its ranges above the runtime user are delegated. -/
theorem subids_exact (map : Text) :
    ((∃ out, subidFileFromMap map = .ok out) ↔
      ∀ line ∈ lines map, ¬ Blank line → ∃ r, MapLine line r) ∧
    ∀ out, subidFileFromMap map = .ok out →
      ∃ ranges delegated, List.Forall₂ MapLine ((lines map).filter (¬ Blank ·)) ranges ∧
        out = delegated.flatMap IdRange.text ∧ Delegated ranges delegated := by
  constructor
  · constructor
    · intro ⟨out, ho⟩ line hl hb
      obtain ⟨ranges, hr, -⟩ := subidLines_ok.mp ho
      exact (forall₂_bounded hr).1 line (List.mem_filter.mpr ⟨hl, by simpa using hb⟩)
    · intro h
      obtain ⟨ranges, hr⟩ := @exists_forall₂ ((lines map).filter (¬ Blank ·)) fun line hm => by
        obtain ⟨hl, hb⟩ := List.mem_filter.mp hm
        exact h line hl (by simpa using hb)
      exact ⟨_, subidLines_ok.mpr ⟨ranges, hr, rfl⟩⟩
  · intro out ho
    obtain ⟨ranges, hr, rfl⟩ := subidLines_ok.mp ho
    exact ⟨ranges, _, hr, flatMap_written ranges, delegated_above (forall₂_bounded hr).2⟩

theorem subids_exact_sample :
    ∃ ranges delegated, List.Forall₂ MapLine
        ((lines "0 100000 500\r\n500 100500 1000".toList).filter (¬ Blank ·)) ranges ∧
      "1000:1001:499\n".toList = delegated.flatMap IdRange.text ∧ Delegated ranges delegated :=
  (subids_exact "0 100000 500\r\n500 100500 1000".toList).2 _ (by decide +kernel)

end Claudepod
