import Claudepod.Wire

/-! The daemon-to-client stderr message loop: relay between op arguments and op result,
plus the synthetic error used to reject ops. -/

set_option autoImplicit false
set_option linter.constructorNameAsVariable false

namespace Claudepod
open Interaction

def stderrNext : UInt64 := 0x6f6c6d67
def stderrRead : UInt64 := 0x64617461
def stderrWrite : UInt64 := 0x64617416
def stderrLast : UInt64 := 0x616c7473
def stderrError : UInt64 := 0x63787470
def stderrStartActivity : UInt64 := 0x53545254
def stderrStopActivity : UInt64 := 0x53544f50
def stderrResult : UInt64 := 0x52534c54

/-- How a relayed stderr exchange ended. After `last` the op's result payload follows;
after `error` the op is over. -/
inductive Terminal where
  | last | error
  deriving DecidableEq, Repr

/-- Stderr drained without relaying. -/
inductive Drained where
  | last : Drained
  | error : String → Drained
  deriving DecidableEq, Repr

inductive Field where
  | int : UInt64 → Field
  | string : Bytes → Field
  deriving DecidableEq, Repr

structure ErrorPayload where
  typeName : Bytes
  verbosity : UInt64
  name : Bytes
  message : Bytes
  traces : List Bytes
  deriving DecidableEq, Repr

inductive Message where
  | last : Message
  | error : ErrorPayload → Message
  | next : (text : Bytes) → Message
  | startActivity : (id verbosity activityType : UInt64) → (text : Bytes) →
      (fields : List Field) → (parent : UInt64) → Message
  | stopActivity : (id : UInt64) → Message
  | result : (id resultType : UInt64) → (fields : List Field) → Message
  | streaming : (msg : UInt64) → Message
  | unknown : (msg : UInt64) → Message
  deriving DecidableEq, Repr

/-! ### Reading -/

def readField (host : Leg) : Async Field := do
  let tag ← readU64 host
  if tag = 0 then do
    let value ← readU64 host
    pure (.int value)
  else if tag = 1 then do
    let value ← readString host maxHostString
    pure (.string value)
  else bail s!"unsupported logger field type {tag}"

/-- Typed logger fields. -/
def readFields (host : Leg) : Async (List Field) :=
  readCounted host maxCount (fun count => s!"field count {count} exceeds limit") (readField host)

def readTrace (host : Leg) : Async Bytes := do
  let havePos ← readU64 host
  ensure (havePos = 0) "error positions are not supported"
  readString host maxHostString

/-- Error payload, structured format only. -/
def readErrorPayload (host : Leg) : Async ErrorPayload := do
  let typeName ← readString host maxHostString
  let verbosity ← readU64 host
  let name ← readString host maxHostString
  let message ← readString host maxHostString
  let havePos ← readU64 host
  ensure (havePos = 0) "error positions are not supported"
  let traces ← readCounted host maxCount (fun count => s!"trace count {count} exceeds limit")
    (readTrace host)
  pure ⟨typeName, verbosity, name, message, traces⟩

def readMessage (host : Leg) : Async Message := do
  let msg ← readU64 host
  if msg = stderrLast then pure .last
  else if msg = stderrError then do
    let error ← readErrorPayload host
    pure (.error error)
  else if msg = stderrNext then do
    let text ← readString host maxHostString
    pure (.next text)
  else if msg = stderrStartActivity then do
    let id ← readU64 host
    let verbosity ← readU64 host
    let activityType ← readU64 host
    let text ← readString host maxHostString
    let fields ← readFields host
    let parent ← readU64 host
    pure (.startActivity id verbosity activityType text fields parent)
  else if msg = stderrStopActivity then do
    let id ← readU64 host
    pure (.stopActivity id)
  else if msg = stderrResult then do
    let id ← readU64 host
    let resultType ← readU64 host
    let fields ← readFields host
    pure (.result id resultType fields)
  else if msg = stderrRead ∨ msg = stderrWrite then pure (.streaming msg)
  else pure (.unknown msg)

/-! ### Writing -/

def writeField (guest : Leg) : Field → Async Unit
  | .int value => do
    writeU64 guest 0
    writeU64 guest value
  | .string value => do
    writeU64 guest 1
    writeString guest value

def writeFields (guest : Leg) (fields : List Field) : Async Unit :=
  writeCounted guest (writeField guest) fields

def writeTrace (guest : Leg) (trace : Bytes) : Async Unit := do
  writeU64 guest 0
  writeString guest trace

def writeErrorPayload (guest : Leg) (error : ErrorPayload) : Async Unit := do
  writeString guest error.typeName
  writeU64 guest error.verbosity
  writeString guest error.name
  writeString guest error.message
  writeU64 guest 0
  writeCounted guest (writeTrace guest) error.traces

/-- Synthesize a `STDERR_ERROR` toward the guest. -/
def writeError (guest : Leg) (msg : String) : Async Unit := do
  writeU64 guest stderrError
  writeString guest (utf8 "Error")
  writeU64 guest 0
  writeString guest (utf8 "Error")
  writeString guest (utf8 s!"claudepod-nix-proxy: {msg}")
  writeU64 guest 0
  writeU64 guest 0
  flush guest

/-! ### Relaying -/

/-- Tell the guest, whether or not that works, and fail. -/
def refuse {α : Type} (guest : Leg) (text : String) (err : Error) : Async α := do
  let _ ← attempt (writeError guest text)
  throw (.failed err)

/-- The arms of the relay loop: `some` ends the exchange, `none` goes on with the next
message. -/
def relayMessage (guest : Leg) (forwardLast : Bool) : Message → Async (Option Terminal)
  | .last => do
    if forwardLast then writeU64 guest stderrLast else pure ()
    pure (some .last)
  | .error error => do
    writeU64 guest stderrError
    writeErrorPayload guest error
    pure (some .error)
  | .next text => do
    writeU64 guest stderrNext
    writeString guest text
    pure none
  | .startActivity id verbosity activityType text fields parent => do
    writeU64 guest stderrStartActivity
    writeU64 guest id
    writeU64 guest verbosity
    writeU64 guest activityType
    writeString guest text
    writeFields guest fields
    writeU64 guest parent
    pure none
  | .stopActivity id => do
    writeU64 guest stderrStopActivity
    writeU64 guest id
    pure none
  | .result id resultType fields => do
    writeU64 guest stderrResult
    writeU64 guest id
    writeU64 guest resultType
    writeFields guest fields
    pure none
  | .streaming msg =>
    let err := s!"host daemon sent streaming stderr message {hex msg} during a query op"
    refuse guest err (.msg err)
  | .unknown msg =>
    let err := s!"unknown stderr message {hex msg} from host daemon"
    refuse guest err (.msg err)

def relayInner (host guest : Leg) (forwardLast : Bool) : Nat → Async Terminal
  | 0 => throw .exhausted
  | fuel+1 => do
    let message ← readMessage host
    match ← relayMessage guest forwardLast message with
    | some terminal => pure terminal
    | none => do
      -- Keep log lines live instead of buffering until the op completes.
      flush guest
      relayInner host guest forwardLast fuel

/-- Relay stderr messages host-to-guest until a terminal message. -/
def relay (fuel : Nat) (host guest : Leg) : Async Terminal := relayInner host guest true fuel

/-- Relay stderr messages host-to-guest until a terminal message, but hold back
`STDERR_LAST`. -/
def relayWithoutLast (fuel : Nat) (host guest : Leg) : Async Terminal :=
  relayInner host guest false fuel

/-! ### Draining -/

def pushLog (logs : List String) (raw : Bytes) : List String :=
  let text := trimEnd (fromUtf8Lossy raw)
  if text = "" then logs else logs ++ [text]

def pushFieldLogs (logs : List String) (fields : List Field) : List String :=
  fields.foldl (fun logs field =>
    match field with
    | .string raw => pushLog logs raw
    | .int _ => logs) logs

def ErrorPayload.daemonMessage (error : ErrorPayload) : String :=
  let message := s!"host daemon error: {fromUtf8Lossy error.message}"
  if error.traces = [] then message
  else message ++ "; traces: " ++ String.intercalate " | " (error.traces.map fromUtf8Lossy)

/-- What the drain loop reports for an error, the logs seen before it included. -/
def drainedError (logs : List String) (error : ErrorPayload) : String :=
  if logs = [] then error.daemonMessage
  else error.daemonMessage ++ "; logs: " ++ String.intercalate " | " logs

def drainFrom (host : Leg) : Nat → List String → Async Drained
  | 0, _ => throw .exhausted
  | fuel+1, logs => do
    match ← readMessage host with
    | .last => pure .last
    | .error error => pure (.error (drainedError logs error))
    | .next text => drainFrom host fuel (pushLog logs text)
    | .startActivity _ _ _ text fields _ =>
      drainFrom host fuel (pushFieldLogs (pushLog logs text) fields)
    | .stopActivity _ => drainFrom host fuel logs
    | .result _ _ fields => drainFrom host fuel (pushFieldLogs logs fields)
    | .streaming msg =>
      bail s!"host daemon sent streaming stderr message {hex msg} during proxy-owned op"
    | .unknown msg => bail s!"unknown stderr message {hex msg} from host daemon"

def drainToTerminal (fuel : Nat) (host : Leg) : Async Drained := drainFrom host fuel []

/-- Drain stderr messages from the host daemon without relaying them. -/
def drainToLast (fuel : Nat) (host : Leg) : Async Unit := do
  match ← drainToTerminal fuel host with
  | .last => pure ()
  | .error message => bail message

/-! ### Encodings -/

def Field.Valid : Field → Prop
  | .int _ => True
  | .string s => s.length ≤ maxHostString.toNat

def Field.encode : Field → Bytes
  | .int v => le64 0 ++ le64 v
  | .string s => le64 1 ++ encString s

def encTrace (trace : Bytes) : Bytes := le64 0 ++ encString trace

structure ErrorPayload.Valid (e : ErrorPayload) : Prop where
  typeName : e.typeName.length ≤ maxHostString.toNat
  name : e.name.length ≤ maxHostString.toNat
  message : e.message.length ≤ maxHostString.toNat
  count : e.traces.length ≤ maxCount.toNat
  traces : ∀ trace ∈ e.traces, trace.length ≤ maxHostString.toNat

def ErrorPayload.encode (e : ErrorPayload) : Bytes :=
  encString e.typeName ++ (le64 e.verbosity ++ (encString e.name ++ (encString e.message ++
    (le64 0 ++ encCounted encTrace e.traces))))

def FieldsValid (fields : List Field) : Prop :=
  fields.length ≤ maxCount.toNat ∧ ∀ field ∈ fields, field.Valid

def encFields : List Field → Bytes := encCounted Field.encode

def Message.Valid : Message → Prop
  | .last => True
  | .error e => e.Valid
  | .next text => text.length ≤ maxHostString.toNat
  | .startActivity _ _ _ text fields _ => text.length ≤ maxHostString.toNat ∧ FieldsValid fields
  | .stopActivity _ => True
  | .result _ _ fields => FieldsValid fields
  | .streaming msg => msg = stderrRead ∨ msg = stderrWrite
  | .unknown msg => msg ∉ [stderrLast, stderrError, stderrNext, stderrStartActivity,
      stderrStopActivity, stderrResult, stderrRead, stderrWrite]

def Message.encode : Message → Bytes
  | .last => le64 stderrLast
  | .error e => le64 stderrError ++ e.encode
  | .next text => le64 stderrNext ++ encString text
  | .startActivity id verbosity activityType text fields parent =>
    le64 stderrStartActivity ++ (le64 id ++ (le64 verbosity ++ (le64 activityType ++
      (encString text ++ (encFields fields ++ le64 parent)))))
  | .stopActivity id => le64 stderrStopActivity ++ le64 id
  | .result id resultType fields =>
    le64 stderrResult ++ (le64 id ++ (le64 resultType ++ encFields fields))
  | .streaming msg => le64 msg
  | .unknown msg => le64 msg

def messageFormat : Format Message := Format.canonical Message.Valid Message.encode

/-- The messages that carry log lines and activities; the exchange goes on behind them. -/
def Message.isLog : Message → Bool
  | .next _ | .startActivity .. | .stopActivity _ | .result .. => true
  | _ => false

/-- The payload of `writeError`. -/
def syntheticError (msg : String) : ErrorPayload :=
  ⟨utf8 "Error", 0, utf8 "Error", utf8 s!"claudepod-nix-proxy: {msg}", []⟩

theorem syntheticError_valid {text : String} (h : text.utf8ByteSize ≤ 2048) :
    (syntheticError text).Valid := by
  have hm : ("claudepod-nix-proxy: " ++ text).utf8ByteSize ≤ maxHostString.toNat := by
    rw [String.utf8ByteSize_append]
    have h₁ : "claudepod-nix-proxy: ".utf8ByteSize = 21 := by decide
    have h₂ : maxHostString.toNat = 16777216 := by decide
    omega
  have he : (utf8 "Error").length ≤ maxHostString.toNat := by decide
  exact ⟨he, he, hm, Nat.zero_le _, by simp [syntheticError]⟩

/-! ### What is read and written -/

theorem readField_decodes (host : Leg) :
    Decodes host (readField host) (Format.canonical Field.Valid Field.encode) := by
  refine ((readU64_decodes host).bind (fun tag =>
    .ite ((readU64_decodes host).bind fun value => .pure (Field.int value))
      (.ite ((readString_decodes host maxHostString).bind fun value => .pure (Field.string value))
        (.throw _)))).congr fun field x => ?_
  simp only [wordFormat, stringFormat, Format.bind_canonical, Format.pure]
  constructor
  · rintro ⟨tag, y, -, h, rfl⟩
    split at h
    · obtain ⟨value, z, -, ⟨rfl, rfl⟩, rfl⟩ := h
      subst tag
      exact ⟨trivial, by simp [Field.encode]⟩
    · split at h
      · obtain ⟨value, z, hv, ⟨rfl, rfl⟩, rfl⟩ := h
        subst tag
        exact ⟨hv, by simp [Field.encode]⟩
      · exact h.elim
  · rintro ⟨hv, rfl⟩
    cases field with
    | int value => exact ⟨0, le64 value, trivial, ⟨value, [], trivial, ⟨rfl, rfl⟩, by simp⟩, rfl⟩
    | string value =>
      exact ⟨1, encString value, trivial, ⟨value, [], hv, ⟨rfl, rfl⟩, by simp⟩, rfl⟩

theorem readFields_decodes (host : Leg) :
    Decodes host (readFields host) (Format.canonical FieldsValid encFields) :=
  readCounted_decodes _ (readField_decodes host)

theorem readTrace_decodes (host : Leg) :
    Decodes host (readTrace host)
      (Format.canonical (fun trace => trace.length ≤ maxHostString.toNat) encTrace) := by
  refine ((readU64_decodes host).bind (fun havePos =>
    decodes_ensure (readString_decodes host maxHostString))).congr fun trace x => ?_
  constructor
  · rintro ⟨havePos, x, y, ⟨-, rfl⟩, ⟨rfl, hl, rfl⟩, rfl⟩
    exact ⟨hl, rfl⟩
  · rintro ⟨hl, rfl⟩
    exact ⟨0, le64 0, encString trace, ⟨trivial, rfl⟩, ⟨rfl, hl, rfl⟩, rfl⟩

theorem readErrorPayload_decodes (host : Leg) :
    Decodes host (readErrorPayload host)
      (Format.canonical ErrorPayload.Valid ErrorPayload.encode) := by
  refine ((readString_decodes host maxHostString).bind fun typeName =>
    (readU64_decodes host).bind fun verbosity =>
    (readString_decodes host maxHostString).bind fun name =>
    (readString_decodes host maxHostString).bind fun message =>
    (readU64_decodes host).bind fun havePos =>
    decodes_ensure (P := havePos = 0) (s := "error positions are not supported")
    ((readCounted_decodes (fun count => s!"trace count {count} exceeds limit")
      (readTrace_decodes host)).bind fun traces =>
    .pure (ErrorPayload.mk typeName verbosity name message traces))).congr fun e x => ?_
  simp only [wordFormat, stringFormat, countedFormat, Format.bind_canonical, Format.pure,
    Format.guard]
  constructor
  · rintro ⟨typeName, y₁, h₁, ⟨verbosity, y₂, -, ⟨name, y₃, h₃, ⟨message, y₄, h₄, ⟨havePos, y₅, -,
      ⟨rfl, traces, y₆, h₆, ⟨rfl, rfl⟩, rfl⟩, rfl⟩, rfl⟩, rfl⟩, rfl⟩, rfl⟩
    exact ⟨⟨h₁, h₃, h₄, h₆.1, h₆.2⟩, by simp [ErrorPayload.encode]⟩
  · rintro ⟨hv, rfl⟩
    exact ⟨_, _, hv.typeName, ⟨_, _, trivial, ⟨_, _, hv.name, ⟨_, _, hv.message, ⟨0, _, trivial,
      ⟨rfl, _, [], ⟨hv.count, hv.traces⟩, ⟨rfl, rfl⟩, rfl⟩, rfl⟩, rfl⟩, rfl⟩, rfl⟩,
      by simp [ErrorPayload.encode]⟩

theorem readMessage_decodes (host : Leg) : Decodes host (readMessage host) messageFormat := by
  refine ((readU64_decodes host).bind fun msg =>
    .ite (.pure Message.last)
    (.ite ((readErrorPayload_decodes host).bind fun error => .pure (Message.error error))
    (.ite ((readString_decodes host maxHostString).bind fun text => .pure (Message.next text))
    (.ite ((readU64_decodes host).bind fun id => (readU64_decodes host).bind fun verbosity =>
      (readU64_decodes host).bind fun activityType =>
      (readString_decodes host maxHostString).bind fun text =>
      (readFields_decodes host).bind fun fields => (readU64_decodes host).bind fun parent =>
      .pure (Message.startActivity id verbosity activityType text fields parent))
    (.ite ((readU64_decodes host).bind fun id => .pure (Message.stopActivity id))
    (.ite ((readU64_decodes host).bind fun id => (readU64_decodes host).bind fun resultType =>
      (readFields_decodes host).bind fun fields => .pure (Message.result id resultType fields))
    (.ite (.pure (Message.streaming msg)) (.pure (Message.unknown msg))))))))).congr fun m x => ?_
  simp only [wordFormat, stringFormat, Format.bind_canonical, Format.pure, messageFormat]
  constructor
  · rintro ⟨msg, y, -, h, rfl⟩
    split at h
    · obtain ⟨rfl, rfl⟩ := h
      subst msg
      exact ⟨trivial, by simp [Message.encode]⟩
    split at h
    · obtain ⟨e, z, hv, ⟨rfl, rfl⟩, rfl⟩ := h
      subst msg
      exact ⟨hv, by simp [Message.encode]⟩
    split at h
    · obtain ⟨text, z, hv, ⟨rfl, rfl⟩, rfl⟩ := h
      subst msg
      exact ⟨hv, by simp [Message.encode]⟩
    split at h
    · obtain ⟨id, y₁, -, ⟨verbosity, y₂, -, ⟨activityType, y₃, -, ⟨text, y₄, ht, ⟨fields, y₅, hf,
        ⟨parent, y₆, -, ⟨rfl, rfl⟩, rfl⟩, rfl⟩, rfl⟩, rfl⟩, rfl⟩, rfl⟩ := h
      subst msg
      exact ⟨⟨ht, hf⟩, by simp [Message.encode]⟩
    split at h
    · obtain ⟨id, z, -, ⟨rfl, rfl⟩, rfl⟩ := h
      subst msg
      exact ⟨trivial, by simp [Message.encode]⟩
    split at h
    · obtain ⟨id, y₁, -, ⟨resultType, y₂, -, ⟨fields, y₃, hf, ⟨rfl, rfl⟩, rfl⟩, rfl⟩, rfl⟩ := h
      subst msg
      exact ⟨hf, by simp [Message.encode]⟩
    split at h
    · rename_i hs
      obtain ⟨rfl, rfl⟩ := h
      exact ⟨hs, by simp [Message.encode]⟩
    · obtain ⟨rfl, rfl⟩ := h
      exact ⟨by simp_all [Message.Valid], by simp [Message.encode]⟩
  · rintro ⟨hv, rfl⟩
    cases m with
    | last => exact ⟨stderrLast, [], trivial, ⟨rfl, rfl⟩, by simp [Message.encode]⟩
    | error e =>
      exact ⟨stderrError, e.encode, trivial, ⟨e, [], hv, ⟨rfl, rfl⟩, by simp⟩, rfl⟩
    | next text =>
      exact ⟨stderrNext, encString text, trivial, ⟨text, [], hv, ⟨rfl, rfl⟩, by simp⟩, rfl⟩
    | startActivity id verbosity activityType text fields parent =>
      exact ⟨stderrStartActivity, _, trivial, ⟨id, _, trivial, ⟨verbosity, _, trivial,
        ⟨activityType, _, trivial, ⟨text, _, hv.1, ⟨fields, _, hv.2, ⟨parent, [], trivial,
        ⟨rfl, rfl⟩, by simp⟩, rfl⟩, rfl⟩, rfl⟩, rfl⟩, rfl⟩, rfl⟩
    | stopActivity id =>
      exact ⟨stderrStopActivity, le64 id, trivial, ⟨id, [], trivial, ⟨rfl, rfl⟩, by simp⟩, rfl⟩
    | result id resultType fields =>
      exact ⟨stderrResult, _, trivial, ⟨id, _, trivial, ⟨resultType, _, trivial, ⟨fields, [], hv,
        ⟨rfl, rfl⟩, by simp⟩, rfl⟩, rfl⟩, rfl⟩
    | streaming msg =>
      refine ⟨msg, [], trivial, ?_, by simp [Message.encode]⟩
      rcases hv with rfl | rfl <;> exact ⟨rfl, rfl⟩
    | unknown msg =>
      refine ⟨msg, [], trivial, ?_, by simp [Message.encode]⟩
      simp only [Message.Valid, List.mem_cons, not_or, List.not_mem_nil] at hv
      simp [hv]

theorem writeField_emits (guest : Leg) (field : Field) :
    Emits guest (writeField guest field) () field.encode := by
  cases field with
  | int value => exact (writeU64_emits guest 0).bind (writeU64_emits guest value)
  | string value => exact (writeU64_emits guest 1).bind (writeString_emits guest value)

theorem writeFields_emits (guest : Leg) (fields : List Field) :
    Emits guest (writeFields guest fields) () (encFields fields) :=
  writeCounted_emits (writeField_emits guest) fields

theorem writeTrace_emits (guest : Leg) (trace : Bytes) :
    Emits guest (writeTrace guest trace) () (encTrace trace) :=
  (writeU64_emits guest 0).bind (writeString_emits guest trace)

theorem writeErrorPayload_emits (guest : Leg) (e : ErrorPayload) :
    Emits guest (writeErrorPayload guest e) () e.encode :=
  (writeString_emits guest _).bind <| (writeU64_emits guest _).bind <|
    (writeString_emits guest _).bind <| (writeString_emits guest _).bind <|
    (writeU64_emits guest 0).bind (writeCounted_emits (writeTrace_emits guest) e.traces)

/-- The synthetic error is an error message like the host's. -/
theorem writeError_emits (guest : Leg) (msg : String) :
    Emits guest (writeError guest msg) () (Message.error (syntheticError msg)).encode := by
  refine Emits.of_eq ((writeU64_emits guest _).bind <| (writeString_emits guest _).bind <|
    (writeU64_emits guest _).bind <| (writeString_emits guest _).bind <|
    (writeString_emits guest _).bind <| (writeU64_emits guest _).bind <|
    (writeU64_emits guest _).bind (flush_emits guest)) ?_
  simp [Message.encode, ErrorPayload.encode, syntheticError, encCounted]

/-- Relaying a log message passes it on and continues. -/
theorem relayMessage_log (guest : Leg) (forwardLast : Bool) {m : Message} (h : m.isLog) :
    Emits guest (relayMessage guest forwardLast m) none m.encode := by
  cases m with
  | next text =>
    exact ((writeU64_emits guest _).andThen <| (writeString_emits guest _).andThen (.pure _)).of_eq
      (by simp [Message.encode])
  | startActivity id verbosity activityType text fields parent =>
    exact ((writeU64_emits guest _).andThen <| (writeU64_emits guest _).andThen <|
      (writeU64_emits guest _).andThen <| (writeU64_emits guest _).andThen <|
      (writeString_emits guest _).andThen <| (writeFields_emits guest _).andThen <|
      (writeU64_emits guest _).andThen (.pure _)).of_eq (by simp [Message.encode])
  | stopActivity id =>
    exact ((writeU64_emits guest _).andThen <| (writeU64_emits guest _).andThen (.pure _)).of_eq
      (by simp [Message.encode])
  | result id resultType fields =>
    exact ((writeU64_emits guest _).andThen <| (writeU64_emits guest _).andThen <|
      (writeU64_emits guest _).andThen <| (writeFields_emits guest _).andThen (.pure _)).of_eq
      (by simp [Message.encode])
  | last => cases h
  | error e => cases h
  | streaming msg => cases h
  | unknown msg => cases h

/-! ### Why reading and writing stop -/

theorem readField_terse (host : Leg) : Comp.StopsIn Stop.Terse (readField host) := by
  refine (readU64_terse host).bind fun tag => ?_
  split
  · exact (readU64_terse host).bind fun _ => .pure _
  split
  · exact (readString_terse host _).bind fun _ => .pure _
  · exact bail_terse (prefixed_size "unsupported logger field type " (by decide) tag)

theorem readFields_terse (host : Leg) : Comp.StopsIn Stop.Terse (readFields host) :=
  readCounted_terse (fun n => labelled_size "field count " " exceeds limit"
    (by decide) n) (readField_terse host)

theorem readTrace_terse (host : Leg) : Comp.StopsIn Stop.Terse (readTrace host) :=
  (readU64_terse host).bind fun _ => (ensure_terse (by decide)).bind fun _ =>
    readString_terse host _

theorem readErrorPayload_terse (host : Leg) :
    Comp.StopsIn Stop.Terse (readErrorPayload host) :=
  (readString_terse host _).bind fun _ => (readU64_terse host).bind fun _ =>
    (readString_terse host _).bind fun _ => (readString_terse host _).bind fun _ =>
    (readU64_terse host).bind fun _ => (ensure_terse (by decide)).bind fun _ =>
    (readCounted_terse (fun n => labelled_size "trace count " " exceeds limit" (by decide) n)
      (readTrace_terse host)).bind fun _ => .pure _

theorem readMessage_terse (host : Leg) : Comp.StopsIn Stop.Terse (readMessage host) := by
  refine (readU64_terse host).bind fun msg => ?_
  split
  · exact .pure _
  split
  · exact (readErrorPayload_terse host).bind fun _ => .pure _
  split
  · exact (readString_terse host _).bind fun _ => .pure _
  split
  · exact (readU64_terse host).bind fun _ => (readU64_terse host).bind fun _ =>
      (readU64_terse host).bind fun _ => (readString_terse host _).bind fun _ =>
      (readFields_terse host).bind fun _ => (readU64_terse host).bind fun _ => .pure _
  split
  · exact (readU64_terse host).bind fun _ => .pure _
  split
  · exact (readU64_terse host).bind fun _ => (readU64_terse host).bind fun _ =>
      (readFields_terse host).bind fun _ => .pure _
  split
  · exact .pure _
  · exact .pure _

theorem writeErrorPayload_terse (guest : Leg) (e : ErrorPayload) :
    Comp.StopsIn Stop.Terse (writeErrorPayload guest e) :=
  (writeString_terse guest _).bind fun _ => (writeU64_terse guest _).bind fun _ =>
    (writeString_terse guest _).bind fun _ => (writeString_terse guest _).bind fun _ =>
    (writeU64_terse guest _).bind fun _ => writeCounted_terse
      (fun _ => (writeU64_terse guest _).bind fun _ => writeString_terse guest _) _

theorem writeFields_terse (guest : Leg) (fields : List Field) :
    Comp.StopsIn Stop.Terse (writeFields guest fields) :=
  writeCounted_terse (fun field => by
    cases field <;>
      exact (writeU64_terse guest _).bind fun _ => by
        first | exact writeU64_terse guest _ | exact writeString_terse guest _) fields

theorem writeError_terse (guest : Leg) (msg : String) :
    Comp.StopsIn Stop.Terse (writeError guest msg) :=
  (writeU64_terse guest _).bind fun _ => (writeString_terse guest _).bind fun _ =>
    (writeU64_terse guest _).bind fun _ => (writeString_terse guest _).bind fun _ =>
    (writeString_terse guest _).bind fun _ => (writeU64_terse guest _).bind fun _ =>
    (writeU64_terse guest _).bind fun _ => flush_terse guest

end Claudepod
