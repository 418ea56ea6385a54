import Claudepod.Handshake

/-! The op allowlist and per-op payload relay. Payloads are parsed only for field boundaries
and copied verbatim. -/

set_option autoImplicit false
set_option linter.constructorNameAsVariable false

namespace Claudepod
open Interaction

/-- The allowed ops. -/
inductive Op where
  | isValidPath | queryReferrers | setOptions | queryPathInfo | queryPathFromHashPart
  | queryValidPaths | queryValidDerivers | queryRealisation
  deriving DecidableEq, Repr

namespace Op

/-- The protocol op words. -/
def word : Op → UInt64
  | isValidPath => 1
  | queryReferrers => 6
  | setOptions => 19
  | queryPathInfo => 26
  | queryPathFromHashPart => 29
  | queryValidPaths => 31
  | queryValidDerivers => 33
  | queryRealisation => 43

/-- The allowlist: op word to allowed op. -/
def allowed (word : UInt64) : Option Op :=
  [isValidPath, queryReferrers, setOptions, queryPathInfo, queryPathFromHashPart,
    queryValidPaths, queryValidDerivers, queryRealisation].find? (fun op => op.word == word)

theorem word_of_allowed {w : UInt64} {op : Op} (h : allowed w = some op) : op.word = w := by
  simpa using List.find?_some h

@[simp] theorem allowed_word (op : Op) : allowed op.word = some op := by
  cases op <;> rfl

end Op

/-- Name of any op the nix protocol defines, for rejection messages. -/
def opName (word : UInt64) : String :=
  match word with
  | 1 => "IsValidPath"
  | 6 => "QueryReferrers"
  | 7 => "AddToStore"
  | 8 => "AddTextToStore"
  | 9 => "BuildPaths"
  | 10 => "EnsurePath"
  | 11 => "AddTempRoot"
  | 12 => "AddIndirectRoot"
  | 13 => "SyncWithGC"
  | 14 => "FindRoots"
  | 18 => "QueryDeriver"
  | 19 => "SetOptions"
  | 20 => "CollectGarbage"
  | 21 => "QuerySubstitutablePathInfo"
  | 22 => "QueryDerivationOutputs"
  | 23 => "QueryAllValidPaths"
  | 26 => "QueryPathInfo"
  | 28 => "QueryDerivationOutputNames"
  | 29 => "QueryPathFromHashPart"
  | 30 => "QuerySubstitutablePathInfos"
  | 31 => "QueryValidPaths"
  | 32 => "QuerySubstitutablePaths"
  | 33 => "QueryValidDerivers"
  | 34 => "OptimiseStore"
  | 35 => "VerifyStore"
  | 36 => "BuildDerivation"
  | 37 => "AddSignatures"
  | 38 => "NarFromPath"
  | 39 => "AddToStoreNar"
  | 40 => "QueryMissing"
  | 41 => "QueryDerivationOutputMap"
  | 42 => "RegisterDrvOutput"
  | 43 => "QueryRealisation"
  | 44 => "AddMultipleToStore"
  | 45 => "AddBuildLog"
  | 46 => "BuildPathsWithResults"
  | 47 => "AddPermRoot"
  | _ => "unknown"

def Op.name (op : Op) : String := opName op.word

/-- A name and a value. -/
def copyOverride (guest dest : Leg) : Async Unit := do
  copyString guest dest maxGuestString
  copyString guest dest maxGuestString

/-- Relay an op's arguments guest-to-host. The op word itself has already been forwarded
by the caller. -/
def copyArgs (op : Op) (negotiated : Negotiated) (guest host : Leg) : Async Unit :=
  match op with
  | .isValidPath | .queryReferrers | .queryPathInfo | .queryValidDerivers
  | .queryPathFromHashPart => copyString guest host maxGuestString
  | .queryValidPaths => do
    copyStringList guest host maxGuestString
    -- The substitute flag would make the host daemon fetch paths on our behalf.
    let substitute ← readU64 guest
    ensure (substitute = 0) "QueryValidPaths with substitution is not allowed"
    writeU64 host 0
  | .setOptions => do
    -- Parsed for framing only: the session swallows SetOptions.
    Proc.times (do let _ ← copyU64 guest host) 12
    let overrides ← copyU64 guest host
    ensure (overrides ≤ maxCount) s!"override count {overrides} exceeds limit"
    Proc.times (copyOverride guest host) overrides.toNat
  | .queryRealisation =>
    if negotiated.realisationWithPath then do
      copyString guest host maxGuestString
      copyString guest host maxGuestString
    else copyString guest host maxGuestString

/-- `UnkeyedValidPathInfo`. -/
def copyPathInfo (host guest : Leg) : Async Unit := do
  copyString host guest maxHostString
  copyString host guest maxHostString
  copyStringList host guest maxHostString
  let _ ← copyU64 host guest
  let _ ← copyU64 host guest
  let _ ← copyU64 host guest
  copyStringList host guest maxHostString
  copyString host guest maxHostString

/-- Relay an op's result host-to-guest (the payload after `STDERR_LAST`). -/
def copyResult (op : Op) (negotiated : Negotiated) (host guest : Leg) : Async Unit :=
  match op with
  | .setOptions => pure ()
  | .isValidPath => do let _ ← copyU64 host guest
  | .queryReferrers | .queryValidPaths | .queryValidDerivers =>
    copyStringList host guest maxHostString
  | .queryPathFromHashPart => copyString host guest maxHostString
  | .queryPathInfo => do
    let valid ← copyU64 host guest
    if valid ≠ 0 then context "ValidPathInfo" (copyPathInfo host guest) else pure ()
  | .queryRealisation =>
    if negotiated.realisationWithPath then do
      let tag ← copyU64 host guest
      ensure (tag ≤ 1) s!"invalid optional tag {tag}"
      if tag = 1 then do
        copyString host guest maxHostString
        copyStringList host guest maxHostString
      else pure ()
    else copyStringList host guest maxHostString

/-! ### Requests and results -/

/-- The requests a guest may make. -/
inductive Request where
  | isValidPath (path : Bytes)
  | queryReferrers (path : Bytes)
  | setOptions (scalars : List UInt64) (overrides : List (Bytes × Bytes))
  | queryPathInfo (path : Bytes)
  | queryPathFromHashPart (hashPart : Bytes)
  | queryValidPaths (paths : List Bytes)
  | queryValidDerivers (path : Bytes)
  | queryRealisation (id : List Bytes)
  deriving DecidableEq, Repr

namespace Request

def op : Request → Op
  | isValidPath _ => .isValidPath
  | queryReferrers _ => .queryReferrers
  | setOptions _ _ => .setOptions
  | queryPathInfo _ => .queryPathInfo
  | queryPathFromHashPart _ => .queryPathFromHashPart
  | queryValidPaths _ => .queryValidPaths
  | queryValidDerivers _ => .queryValidDerivers
  | queryRealisation _ => .queryRealisation

/-- The argument bytes; `QueryValidPaths` ends in the word 0, no substitution. -/
def args : Request → Bytes
  | isValidPath s | queryReferrers s | queryPathInfo s | queryPathFromHashPart s
  | queryValidDerivers s => encString s
  | queryValidPaths paths => encStringList paths ++ le64 0
  | setOptions scalars overrides =>
    scalars.flatMap le64 ++ encCounted (fun o => encString o.1 ++ encString o.2) overrides
  | queryRealisation id => id.flatMap encString

def encode (r : Request) : Bytes := le64 r.op.word ++ r.args

/-- Within the caps and, for `QueryRealisation`, of the negotiated shape. -/
def Valid (withPath : Bool) : Request → Prop
  | isValidPath s | queryReferrers s | queryPathInfo s | queryPathFromHashPart s
  | queryValidDerivers s => s.length ≤ maxGuestString.toNat
  | queryValidPaths paths =>
    paths.length ≤ maxCount.toNat ∧ ∀ s ∈ paths, s.length ≤ maxGuestString.toNat
  | setOptions scalars overrides =>
    scalars.length = 12 ∧ overrides.length ≤ maxCount.toNat ∧
      ∀ o ∈ overrides, o.1.length ≤ maxGuestString.toNat ∧ o.2.length ≤ maxGuestString.toNat
  | queryRealisation id =>
    id.length = (if withPath then 2 else 1) ∧ ∀ s ∈ id, s.length ≤ maxGuestString.toNat

end Request

/-- The arguments of the valid requests of one op. -/
def argsFormat (op : Op) (withPath : Bool) : Format Unit :=
  fun _ x => ∃ r : Request, r.op = op ∧ r.Valid withPath ∧ x = r.args

def pathInfoFormat : Format Unit :=
  (stringFormat maxHostString).erase.bind fun _ => (stringFormat maxHostString).erase.bind fun _ =>
  (stringListFormat maxCount maxHostString).erase.bind fun _ =>
  wordFormat.bind fun _ => wordFormat.bind fun _ => wordFormat.bind fun _ =>
  (stringListFormat maxCount maxHostString).erase.bind fun _ => (stringFormat maxHostString).erase

/-- The result payload of each op. -/
def resultFormat (op : Op) (withPath : Bool) : Format Unit :=
  match op with
  | .setOptions => Format.pure ()
  | .isValidPath => wordFormat.erase
  | .queryReferrers | .queryValidPaths | .queryValidDerivers =>
    (stringListFormat maxCount maxHostString).erase
  | .queryPathFromHashPart => (stringFormat maxHostString).erase
  | .queryPathInfo =>
    wordFormat.bind fun valid => if valid ≠ 0 then pathInfoFormat else Format.pure ()
  | .queryRealisation =>
    if withPath then
      wordFormat.bind fun tag => Format.guard (tag ≤ 1) <|
        if tag = 1 then (stringFormat maxHostString).erase.bind fun _ =>
          (stringListFormat maxCount maxHostString).erase
        else Format.pure ()
    else (stringListFormat maxCount maxHostString).erase

/-! ### What the copiers copy -/

theorem argsFormat_string {op : Op} {withPath : Bool} (mk : Bytes → Request)
    (hop : ∀ r : Request, r.op = op ↔ ∃ s, r = mk s)
    (hv : ∀ s, (mk s).Valid withPath ↔ s.length ≤ maxGuestString.toNat)
    (ha : ∀ s, (mk s).args = encString s) (u : Unit) (x : Bytes) :
    (stringFormat maxGuestString).erase u x ↔ argsFormat op withPath u x := by
  constructor
  · rintro ⟨s, hs, rfl⟩
    exact ⟨mk s, (hop _).mpr ⟨s, rfl⟩, (hv s).mpr hs, (ha s).symm⟩
  · rintro ⟨r, ho, hr, rfl⟩
    obtain ⟨s, rfl⟩ := (hop r).mp ho
    exact ⟨s, (hv s).mp hr, ha s⟩

theorem queryValidPaths_format (withPath : Bool) (u : Unit) (x : Bytes) :
    ((stringListFormat maxCount maxGuestString).erase.bind fun _ => literal 0) u x ↔
      argsFormat .queryValidPaths withPath u x := by
  constructor
  · rintro ⟨-, x, y, ⟨paths, hp, rfl⟩, rfl, rfl⟩
    exact ⟨.queryValidPaths paths, rfl, hp, rfl⟩
  · rintro ⟨r, ho, hr, rfl⟩
    cases r with
    | queryValidPaths paths => exact ⟨(), _, _, ⟨paths, hr, rfl⟩, rfl, rfl⟩
    | _ => cases ho

theorem queryRealisation_format (withPath : Bool) (u : Unit) (x : Bytes) :
    (if withPath then (stringFormat maxGuestString).erase.bind fun _ =>
        (stringFormat maxGuestString).erase
      else (stringFormat maxGuestString).erase : Format Unit) u x ↔
      argsFormat .queryRealisation withPath u x := by
  cases withPath with
  | true =>
    constructor
    · rintro ⟨-, x, y, ⟨s, hs, rfl⟩, ⟨s', hs', rfl⟩, rfl⟩
      exact ⟨.queryRealisation [s, s'], rfl, ⟨rfl, by simpa using ⟨hs, hs'⟩⟩,
        by simp [Request.args]⟩
    · rintro ⟨r, ho, hr, rfl⟩
      cases r with
      | queryRealisation id =>
        obtain ⟨hl, hs⟩ := hr
        obtain ⟨s, s', rfl⟩ := List.length_eq_two.mp hl
        simp only [List.forall_mem_cons] at hs
        exact ⟨(), _, _, ⟨s, hs.1, rfl⟩, ⟨s', hs.2.1, rfl⟩, by simp [Request.args]⟩
      | _ => cases ho
  | false =>
    constructor
    · rintro ⟨s, hs, rfl⟩
      exact ⟨.queryRealisation [s], rfl, ⟨rfl, by simpa using hs⟩, by simp [Request.args]⟩
    · rintro ⟨r, ho, hr, rfl⟩
      cases r with
      | queryRealisation id =>
        obtain ⟨hl, hs⟩ := hr
        obtain ⟨s, rfl⟩ := List.length_eq_one_iff.mp hl
        simp only [List.forall_mem_cons] at hs
        exact ⟨s, hs.1, by simp [Request.args]⟩
      | _ => cases ho

/-- The override pairs of `SetOptions`. -/
def overrideFormat : Format (Bytes × Bytes) :=
  Format.canonical
    (fun o => o.1.length ≤ maxGuestString.toNat ∧ o.2.length ≤ maxGuestString.toNat)
    (fun o => encString o.1 ++ encString o.2)

theorem copyOverride_copies (guest dest : Leg) :
    Copies guest dest (copyOverride guest dest) overrideFormat.erase := by
  refine ((copyString_copies guest dest maxGuestString).bind fun _ =>
    copyString_copies guest dest maxGuestString).congr fun u x => ?_
  constructor
  · rintro ⟨-, x, y, ⟨s, hs, rfl⟩, ⟨s', hs', rfl⟩, rfl⟩
    exact ⟨(s, s'), ⟨hs, hs'⟩, rfl⟩
  · rintro ⟨o, ⟨hs, hs'⟩, rfl⟩
    exact ⟨(), _, _, ⟨o.1, hs, rfl⟩, ⟨o.2, hs', rfl⟩, rfl⟩

/-- Twelve words, a count within the cap, and that many pairs. -/
theorem setOptions_format (withPath : Bool) (u : Unit) (x : Bytes) :
    ((wordFormat.erase.times 12).bind fun _ => wordFormat.bind fun n =>
      (overrideFormat.erase.times n.toNat).guard (n ≤ maxCount)) u x ↔
      argsFormat .setOptions withPath u x := by
  constructor
  · rintro ⟨v, x, y, hx, ⟨n, x', y', ⟨-, rfl⟩, ⟨hn, hy⟩, rfl⟩, rfl⟩
    obtain ⟨scalars, hm⟩ := (Format.times_erase _ _ _ _).mp hx
    obtain ⟨hl, -, rfl⟩ := (Format.many_canonical _ _ _ _ _).mp hm
    obtain ⟨os, ⟨ho, hv⟩, he⟩ := (counted_times maxCount _ _ u _).mp ⟨n, _, _, ⟨hn, rfl⟩, hy, rfl⟩
    exact ⟨.setOptions scalars os, rfl, ⟨hl, ho, hv⟩, by rw [he]; rfl⟩
  · rintro ⟨r, ho, hr, rfl⟩
    cases r with
    | setOptions scalars os =>
      obtain ⟨hl, ho, hv⟩ := hr
      obtain ⟨n, x, y, ⟨hn, rfl⟩, hy, he⟩ := (counted_times maxCount
        (fun o : Bytes × Bytes =>
          o.1.length ≤ maxGuestString.toNat ∧ o.2.length ≤ maxGuestString.toNat)
        (fun o => encString o.1 ++ encString o.2) () _).mpr ⟨os, ⟨ho, hv⟩, rfl⟩
      exact ⟨(), _, _, (Format.times_erase _ _ _ _).mpr ⟨scalars,
        (Format.many_canonical _ _ _ _ _).mpr ⟨hl, fun _ _ => trivial, rfl⟩⟩,
        ⟨n, _, _, ⟨trivial, rfl⟩, ⟨hn, hy⟩, rfl⟩, by rw [← he]; rfl⟩
    | _ => cases ho

theorem copyWord_copies (r w : Leg) :
    Copies r w (copyU64 r w >>= fun _ => pure ()) wordFormat.erase :=
  ((copyU64_copies r w).bind fun _ => .pure ()).congr (bind_unit_format wordFormat)

/-- The word 0, read and written again. -/
def copyZero (guest host : Leg) (other : String) : Async Unit := do
  let word ← readU64 guest
  ensure (word = 0) other
  writeU64 host 0

theorem copyZero_eq (guest host : Leg) (other : String) :
    copyZero guest host other =
      ((readU64 guest >>= fun word => ensure (word = 0) other) >>= fun _ =>
        writeU64 host 0 >>= fun _ => pure ()) := by
  simp [copyZero, bind_assoc]

theorem readZero_decodes (guest : Leg) (other : String) :
    Decodes guest (readU64 guest >>= fun word => ensure (word = 0) other)
      (Format.canonical (fun _ => True) (fun _ => le64 0)) := by
  refine ((readU64_decodes guest).bind fun word => decodes_check).congr fun u x => ?_
  constructor
  · rintro ⟨word, x, y, ⟨-, rfl⟩, ⟨rfl, -, rfl⟩, rfl⟩
    exact ⟨trivial, List.append_nil _⟩
  · rintro ⟨-, rfl⟩
    exact ⟨0, _, [], ⟨trivial, rfl⟩, ⟨rfl, rfl, rfl⟩, (List.append_nil _).symm⟩

theorem zero_format (u : Unit) (x : Bytes) :
    (Format.canonical (fun _ : Unit => True) (fun _ => le64 0)).bind (fun _ => Format.pure ()) u x ↔
      literal 0 u x := by
  rw [bind_unit_format]
  constructor
  · rintro ⟨-, -, rfl⟩
    rfl
  · rintro rfl
    exact ⟨(), trivial, rfl⟩

theorem copyZero_copies (guest host : Leg) (other : String) :
    Copies guest host (copyZero guest host other) (literal 0) := by
  rw [copyZero_eq]
  exact (Copies.relay (readZero_decodes guest other) (fun _ => writeU64_emits host 0)
    (fun _ => .pure ())).congr zero_format

theorem copyZero_extends (guest host : Leg) (other : String) :
    Extends host (copyZero guest host other) (literal 0) := by
  rw [copyZero_eq]
  exact (Extends.relay (readZero_decodes guest other) ⟨(), trivial⟩
    (fun _ => writeU64_emits host 0) (fun _ => Extends.pure () (Format.pure ()))
    (fun _ _ _ => ⟨(), [], rfl, rfl⟩)).congr zero_format

/-- Relaying the arguments of an op passes on exactly the arguments of a valid request. -/
theorem copyArgs_copies (op : Op) (n : Negotiated) (guest host : Leg) :
    Copies guest host (copyArgs op n guest host) (argsFormat op n.realisationWithPath) := by
  have hs := copyString_copies guest host maxGuestString
  cases op with
  | isValidPath =>
    exact hs.congr (argsFormat_string .isValidPath (by rintro ⟨⟩ <;> simp [Request.op])
      (fun _ => Iff.rfl) (fun _ => rfl))
  | queryReferrers =>
    exact hs.congr (argsFormat_string .queryReferrers (by rintro ⟨⟩ <;> simp [Request.op])
      (fun _ => Iff.rfl) (fun _ => rfl))
  | queryPathInfo =>
    exact hs.congr (argsFormat_string .queryPathInfo (by rintro ⟨⟩ <;> simp [Request.op])
      (fun _ => Iff.rfl) (fun _ => rfl))
  | queryPathFromHashPart =>
    exact hs.congr (argsFormat_string .queryPathFromHashPart
      (by rintro ⟨⟩ <;> simp [Request.op]) (fun _ => Iff.rfl) (fun _ => rfl))
  | queryValidDerivers =>
    exact hs.congr (argsFormat_string .queryValidDerivers
      (by rintro ⟨⟩ <;> simp [Request.op]) (fun _ => Iff.rfl) (fun _ => rfl))
  | queryValidPaths =>
    exact ((copyStringList_copies guest host maxGuestString).bind fun _ =>
      copyZero_copies guest host _).congr (queryValidPaths_format _)
  | setOptions =>
    exact (((copyWord_copies guest host).times 12).bind fun _ =>
      (copyU64_copies guest host).bind fun n => copies_ensure
        ((copyOverride_copies guest host).times n.toNat)).congr (setOptions_format _)
  | queryRealisation =>
    exact (Copies.ite (hs.bind fun _ => hs) hs).congr (queryRealisation_format _)

theorem copyArgs_extends (op : Op) (n : Negotiated) (guest host : Leg) (ho : op ≠ .setOptions) :
    Extends host (copyArgs op n guest host) (argsFormat op n.realisationWithPath) := by
  have hs := copyString_extends guest host maxGuestString
  cases op with
  | isValidPath =>
    exact hs.congr (argsFormat_string .isValidPath (by rintro ⟨⟩ <;> simp [Request.op])
      (fun _ => Iff.rfl) (fun _ => rfl))
  | queryReferrers =>
    exact hs.congr (argsFormat_string .queryReferrers (by rintro ⟨⟩ <;> simp [Request.op])
      (fun _ => Iff.rfl) (fun _ => rfl))
  | queryPathInfo =>
    exact hs.congr (argsFormat_string .queryPathInfo (by rintro ⟨⟩ <;> simp [Request.op])
      (fun _ => Iff.rfl) (fun _ => rfl))
  | queryPathFromHashPart =>
    exact hs.congr (argsFormat_string .queryPathFromHashPart
      (by rintro ⟨⟩ <;> simp [Request.op]) (fun _ => Iff.rfl) (fun _ => rfl))
  | queryValidDerivers =>
    exact hs.congr (argsFormat_string .queryValidDerivers
      (by rintro ⟨⟩ <;> simp [Request.op]) (fun _ => Iff.rfl) (fun _ => rfl))
  | queryValidPaths =>
    exact ((copyStringList_extends guest host maxGuestString).bind
      (copyStringList_copies guest host maxGuestString)
      (fun _ => copyZero_extends guest host _) (fun _ _ _ => ⟨(), _, rfl⟩)).congr
      (queryValidPaths_format _)
  | setOptions => exact absurd rfl ho
  | queryRealisation =>
    exact (Extends.ite (hs.bind (copyString_copies guest host maxGuestString) (fun _ => hs)
      (fun _ _ _ => ⟨(), erase_inhabited (stringFormat_inhabited _)⟩)) hs).congr
      (queryRealisation_format _)

/-- A result is passed on as it is. -/
theorem copyResult_copies (op : Op) (n : Negotiated) (host guest : Leg) :
    Copies host guest (copyResult op n host guest) (resultFormat op n.realisationWithPath) := by
  have hs := copyString_copies host guest maxHostString
  have hl := copyStringList_copies host guest maxHostString
  have hw := copyU64_copies host guest
  cases op with
  | setOptions => exact .pure ()
  | isValidPath => exact copyWord_copies host guest
  | queryReferrers => exact hl
  | queryValidPaths => exact hl
  | queryValidDerivers => exact hl
  | queryPathFromHashPart => exact hs
  | queryPathInfo =>
    have hi : Copies host guest (copyPathInfo host guest) pathInfoFormat :=
      hs.bind fun _ => hs.bind fun _ => hl.bind fun _ => hw.bind fun _ => hw.bind fun _ =>
        hw.bind fun _ => hl.bind fun _ => hs
    exact hw.bind fun valid => .ite (hi.mapStop _) (.pure ())
  | queryRealisation =>
    exact .ite (hw.bind fun tag => copies_ensure (.ite (hs.bind fun _ => hl) (.pure ()))) hl

/-! ### Why the copiers stop -/

theorem copyArgs_terse (op : Op) (n : Negotiated) (guest host : Leg) :
    Comp.StopsIn Stop.Terse (copyArgs op n guest host) := by
  have hs := copyString_terse guest host maxGuestString
  cases op with
  | isValidPath => exact hs
  | queryReferrers => exact hs
  | queryPathInfo => exact hs
  | queryPathFromHashPart => exact hs
  | queryValidDerivers => exact hs
  | queryValidPaths =>
    exact (copyStringList_terse guest host _).bind fun _ => (readU64_terse guest).bind fun _ =>
      (ensure_terse (by decide)).bind fun _ => writeU64_terse host 0
  | setOptions =>
    exact (Proc.stopsIn_times ((copyU64_terse guest host).bind fun _ => .pure ()) 12).bind fun _ =>
      (copyU64_terse guest host).bind fun count =>
      (ensure_terse (labelled_size "override count " " exceeds limit"
        (by decide) count)).bind fun _ => Proc.stopsIn_times (hs.bind fun _ => hs) _
  | queryRealisation =>
    exact .ite (hs.bind fun _ => hs) hs

theorem copyResult_halts (op : Op) (n : Negotiated) (host guest : Leg) :
    Comp.HaltsAt spoiled (copyResult op n host guest) := by
  have hs := copyString_halts host guest maxHostString
  have hl := copyStringList_halts host guest maxHostString
  have hw := copyU64_halts host guest
  cases op with
  | setOptions => exact .pure ()
  | isValidPath => exact hw.bind fun _ => .pure ()
  | queryReferrers => exact hl
  | queryValidPaths => exact hl
  | queryValidDerivers => exact hl
  | queryPathFromHashPart => exact hs
  | queryPathInfo =>
    exact hw.bind fun valid => .ite (Comp.HaltsAt.mapStop (hs.bind fun _ => hs.bind fun _ =>
      hl.bind fun _ => hw.bind fun _ => hw.bind fun _ => hw.bind fun _ => hl.bind fun _ => hs))
      (.pure ())
  | queryRealisation =>
    exact .ite (hw.bind fun tag => ensure_halts.bind fun _ => .ite (hs.bind fun _ => hl)
      (.pure ())) hl

/-- A result is cut short only where what the host has sent for it is incomplete or malformed. -/
theorem copyResult_rejects {op : Op} {n : Negotiated} {host guest : Leg} {t : IoTrace} {s : Stop}
    (h : (copyResult op n host guest).Runs t (.error s))
    (hg : Only (fun e => puts guest e → clean e) t) {x : Bytes}
    (hx : resultFormat op n.realisationWithPath () x) : ¬ x <+: recvd host t :=
  (copyResult_copies op n host guest).rejects (copyResult_halts op n host guest) h hg hx

end Claudepod
