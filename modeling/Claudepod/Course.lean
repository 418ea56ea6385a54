import Claudepod.Framing
import Claudepod.Relay

/-! Streams of stderr messages. Every stream is some log messages and then a message that ends
the exchange, a violation, or no message; relaying and draining are determined by which. -/

set_option autoImplicit false
set_option linter.constructorNameAsVariable false

namespace Claudepod
open Interaction

/-- No message starts here. -/
def NoMessage (x : Bytes) : Prop := ∀ (m : Message) (y : Bytes), m.Valid → x ≠ m.encode ++ y

/-- How a stream goes on behind its log messages. -/
inductive Course : Bytes → Prop
  | ends {m : Message} {term : Terminal} (y : Bytes) :
      m.Valid → m.terminal = some term → Course (m.encode ++ y)
  | offends {m : Message} {err : String} (y : Bytes) :
      m.Valid → m.violation = some err → Course (m.encode ++ y)
  | breaks {x : Bytes} : NoMessage x → Course x

theorem Logs.cons {m : Message} {ms : List Message} (hl : m.isLog) (hv : m.Valid)
    (h : Logs ms) : Logs (m :: ms) := by
  intro x hx
  cases hx with
  | head => exact ⟨hl, hv⟩
  | tail _ hx => exact h x hx

theorem exists_course (z : Bytes) : ∃ ms x, Logs ms ∧ Course x ∧ z = encMessages ms ++ x := by
  induction h : z.length using Nat.strong_induction_on generalizing z with
  | _ n ih =>
    by_cases hn : NoMessage z
    · exact ⟨[], z, by simp [Logs], .breaks hn, rfl⟩
    · simp only [NoMessage, not_forall, not_not] at hn
      obtain ⟨m, y, hv, he⟩ := hn
      subst he
      rcases m.kinds with hl | ⟨term, ht⟩ | ⟨err, hx⟩
      · have h8 := m.encode_length
        rw [List.length_append] at h
        obtain ⟨ms, x, hms, hc, hy⟩ := ih y.length (by omega) y rfl
        exact ⟨m :: ms, x, hms.cons hl hv, hc, by rw [hy, encMessages_cons]⟩
      · exact ⟨[], _, by simp [Logs], .ends y hv ht, rfl⟩
      · exact ⟨[], _, by simp [Logs], .offends y hv hx, rfl⟩

theorem encMessages_length (ms : List Message) : 8 * ms.length ≤ (encMessages ms).length := by
  induction ms with
  | nil => simp
  | cons m ms ih =>
    have h8 := m.encode_length
    simp only [encMessages, List.flatMap_cons, List.length_append, List.length_cons] at ih ⊢
    omega

/-- A bound the stream cannot use up leaves one more round behind its log messages. -/
theorem exists_fuel {ms : List Message} {x : Bytes} {fuel : Nat}
    (h : (encMessages ms ++ x).length < 8 * fuel) : ∃ k, fuel = k + 1 + ms.length := by
  have hm := encMessages_length ms
  rw [List.length_append] at h
  exact ⟨fuel - 1 - ms.length, by omega⟩

/-! ### The word that offends -/

/-- The word a stream starts with. -/
def leadingWord (x : Bytes) : Option UInt64 :=
  if 8 ≤ x.length then some (ofLe64 (x.take 8)) else none

/-- What is wrong with a message that starts with this word. -/
def offence (w : UInt64) : Option String :=
  if w ∈ [stderrLast, stderrError, stderrNext, stderrStartActivity, stderrStopActivity,
      stderrResult] then none
  else if w = stderrRead ∨ w = stderrWrite then (Message.streaming w).violation
  else (Message.unknown w).violation

/-- The synthetic error for a stream that starts with an offending word. -/
def offenceBytes (x : Bytes) : Bytes :=
  match (leadingWord x).bind offence with
  | some text => (Message.error (syntheticError text)).encode
  | none => []

@[simp] theorem leadingWord_le64 (w : UInt64) (y : Bytes) : leadingWord (le64 w ++ y) = some w := by
  simp [leadingWord]

theorem eq_of_leadingWord {x : Bytes} {w : UInt64} (h : leadingWord x = some w) :
    ∃ y, x = le64 w ++ y := by
  unfold leadingWord at h
  split at h
  next h8 =>
    obtain rfl := Option.some.inj h
    have hl : (x.take 8).length = 8 := by simp [h8]
    exact ⟨x.drop 8, by rw [le64_ofLe64 hl, List.take_append_drop]⟩
  next => cases h

theorem offence_of_violation {m : Message} {err : String} (hv : m.Valid)
    (h : m.violation = some err) : ∃ w, m.encode = le64 w ∧ offence w = some err := by
  cases m with
  | streaming w =>
    refine ⟨w, rfl, ?_⟩
    rw [← h]
    rcases hv with rfl | rfl <;> rfl
  | unknown w =>
    refine ⟨w, rfl, ?_⟩
    simp only [Message.Valid, List.mem_cons, List.not_mem_nil, not_or, or_false] at hv
    rw [← h, offence]
    simp [hv]
  | _ => cases h

theorem offenceBytes_violation {m : Message} {err : String} (hv : m.Valid)
    (h : m.violation = some err) (y : Bytes) :
    offenceBytes (m.encode ++ y) = (Message.error (syntheticError err)).encode := by
  obtain ⟨w, he, ho⟩ := offence_of_violation hv h
  simp only [offenceBytes, he, leadingWord_le64, Option.bind_some, ho]

/-- A word that offends is a message by itself. -/
theorem message_of_offence {w : UInt64} {text : String} (h : offence w = some text) :
    ∃ m : Message, m.Valid ∧ m.encode = le64 w := by
  unfold offence at h
  split at h
  next => cases h
  next hw =>
    by_cases hs : w = stderrRead ∨ w = stderrWrite
    · exact ⟨.streaming w, hs, rfl⟩
    · refine ⟨.unknown w, ?_, rfl⟩
      simp only [Message.Valid, List.mem_cons, List.not_mem_nil, not_or, or_false] at hw hs ⊢
      simp [hw, hs]

theorem offenceBytes_none {x : Bytes} (h : NoMessage x) : offenceBytes x = [] := by
  unfold offenceBytes
  split
  next text ht =>
    obtain ⟨w, hw, ho⟩ := Option.bind_eq_some_iff.mp ht
    obtain ⟨y, rfl⟩ := eq_of_leadingWord hw
    obtain ⟨m, hv, he⟩ := message_of_offence ho
    exact absurd (by rw [he]) (h m y hv)
  next => rfl

/-! ### Relaying a stream -/

section Relaying

variable (host guest : Leg) (forwardLast : Bool)

theorem relayInner_behind {ms : List Message} (hms : Logs ms) :
    ∃ t, recvd host t = encMessages ms ∧ sent guest t = encMessages ms ∧
      ∀ fuel x e, (relayInner host guest forwardLast (fuel + ms.length)).exec World.step
          (feeding host (encMessages ms ++ x) e) =
        ((relayInner host guest forwardLast fuel).exec World.step (feeding host x e)).behind t := by
  obtain ⟨t, hc, ho, hr, hs, hrun⟩ := relayInner_logs host guest forwardLast hms
  refine ⟨t, hr, hs, fun fuel x e => ?_⟩
  have hf := follows_feeding ho hc x e
  rw [hr] at hf
  exact Comp.exec_eq (hrun _ _ _ (Comp.exec_runs ..))
    ((follows_append ..).mpr ⟨_, hf, Comp.exec_follows ..⟩)

theorem relayInner_ends {m : Message} {term : Terminal} (hm : m.Valid)
    (ht : m.terminal = some term) :
    ∃ t, recvd host t = m.encode ∧ sent guest t = m.shown forwardLast ∧
      ∀ fuel y e, (relayInner host guest forwardLast (fuel + 1)).exec World.step
        (feeding host (m.encode ++ y) e) = ⟨t, .ok term, feeding host y e⟩ := by
  obtain ⟨t₁, h₁, hc₁, hr₁⟩ := hm.decoded host
  have hw := relayMessage_terminal guest forwardLast ht
  obtain ⟨t₂, h₂, hc₂⟩ := hw.complete
  have ho : Only (fun e => reads host e ∨ puts guest e) (t₁ ++ t₂) := only_append.mpr
    ⟨((readMessage_decodes host).only h₁).mono fun _ => .inl, (hw.only h₂).mono fun _ => .inr⟩
  have hr : recvd host (t₁ ++ t₂) = m.encode := by simp [hr₁, recvd_of_puts (hw.only h₂)]
  refine ⟨t₁ ++ t₂, hr, ?_, fun fuel y e => ?_⟩
  · simp [(readMessage_decodes host).sent_nil h₁, (hw.sound h₂).2]
  · have hrun : (relayInner host guest forwardLast (fuel + 1)).Runs (t₁ ++ (t₂ ++ []))
        (.ok term) := h₁.bind (h₂.bind ⟨rfl, rfl⟩)
    rw [List.append_nil] at hrun
    have hf := follows_feeding ho (only_append.mpr ⟨hc₁, hc₂⟩) y e
    rw [hr] at hf
    exact Comp.exec_eq hrun hf

theorem relayInner_offends {m : Message} {err : String} (hm : m.Valid)
    (hv : m.violation = some err) :
    ∃ t, recvd host t = m.encode ∧
      sent guest t = (Message.error (syntheticError err)).encode ∧
      ∀ fuel y e, (relayInner host guest forwardLast (fuel + 1)).exec World.step
        (feeding host (m.encode ++ y) e) =
          ⟨t, .error (.failed (.msg err)), feeding host y e⟩ := by
  obtain ⟨t₁, h₁, hc₁, hr₁⟩ := hm.decoded host
  have hw := writeError_emits guest err
  obtain ⟨t₂, h₂, hc₂⟩ := hw.complete
  have ho : Only (fun e => reads host e ∨ puts guest e) (t₁ ++ t₂) := only_append.mpr
    ⟨((readMessage_decodes host).only h₁).mono fun _ => .inl, (hw.only h₂).mono fun _ => .inr⟩
  have hr : recvd host (t₁ ++ t₂) = m.encode := by simp [hr₁, recvd_of_puts (hw.only h₂)]
  have ha : (relayMessage guest forwardLast m).Runs (t₂ ++ []) (.error (.failed (.msg err))) := by
    rw [relayMessage_violation hv]
    exact ((Comp.runs_attempt _ _).mpr (.inl ⟨(), h₂, rfl⟩)).bind ⟨rfl, rfl⟩
  refine ⟨t₁ ++ t₂, hr, ?_, fun fuel y e => ?_⟩
  · rw [sent_append, (readMessage_decodes host).sent_nil h₁, List.nil_append]
    exact (hw.sound h₂).2
  · rw [List.append_nil] at ha
    have hrun : (relayInner host guest forwardLast (fuel + 1)).Runs (t₁ ++ t₂)
        (.error (.failed (.msg err))) := h₁.bind ((Comp.runs_bind _).mpr (.inr ⟨_, rfl, ha⟩))
    have hf := follows_feeding ho (only_append.mpr ⟨hc₁, hc₂⟩) y e
    rw [hr] at hf
    exact Comp.exec_eq hrun hf

/-- Reading fails where no message starts. -/
theorem readMessage_breaks {x : Bytes} (hx : NoMessage x) (e : Ending IoError) :
    ∃ s, s ≠ .exhausted ∧
      ((readMessage host).exec World.step (feeding host x e)).value = .error s := by
  have hd := readMessage_decodes host
  have hr := Comp.exec_runs World.step (readMessage host) (feeding host x e)
  cases hv : ((readMessage host).exec World.step (feeding host x e)).value with
  | error s =>
    rw [hv] at hr
    exact ⟨s, (readMessage_terse host _ _ hr).ne_exhausted, rfl⟩
  | ok m =>
    rw [hv] at hr
    have hf := follows_recvd host (Comp.exec_follows World.step (readMessage host)
      (feeding host x e)) ((hd.only hr).mono fun _ he =>
        not_dials_of_reads_or_puts (d := host) (.inl he))
    rw [feeding_peer, (hd.sound hr).2] at hf
    exact absurd hf (hx m _ (hd.sound hr).1)

theorem relayInner_breaks {s : Stop} {x : Bytes} {e : Ending IoError}
    (h : ((readMessage host).exec World.step (feeding host x e)).value = .error s) (fuel : Nat) :
    (relayInner host guest forwardLast (fuel + 1)).exec World.step (feeding host x e) =
      ⟨((readMessage host).exec World.step (feeding host x e)).trace, .error s,
        ((readMessage host).exec World.step (feeding host x e)).state⟩ :=
  Comp.exec_bind_error h

end Relaying

/-! ### Draining a stream -/

section Draining

variable (host : Leg)

theorem drainFrom_behind {ms : List Message} (hms : Logs ms) (logs : List String) :
    ∃ t, recvd host t = encMessages ms ∧
      ∀ fuel x e, (drainFrom host (fuel + ms.length) logs).exec World.step
          (feeding host (encMessages ms ++ x) e) =
        ((drainFrom host fuel (ms.foldl pushMessage logs)).exec World.step
          (feeding host x e)).behind t := by
  obtain ⟨t, hc, ho, hr, hrun⟩ := drainFrom_logs host hms logs
  refine ⟨t, hr, fun fuel x e => ?_⟩
  have hf := follows_feeding (d := host) (ho.mono fun _ => .inl) hc x e
  rw [hr] at hf
  exact Comp.exec_eq (hrun _ _ _ (Comp.exec_runs ..))
    ((follows_append ..).mpr ⟨_, hf, Comp.exec_follows ..⟩)

/-- One message that does not let the drain go on. -/
theorem drainFrom_stops {m : Message} {logs : List String} {r : Except Stop Drained}
    (hm : m.Valid)
    (h : ∀ fuel t, (readMessage host).Runs t (.ok m) → (drainFrom host (fuel + 1) logs).Runs t r) :
    ∃ t, recvd host t = m.encode ∧
      ∀ fuel y e, (drainFrom host (fuel + 1) logs).exec World.step
        (feeding host (m.encode ++ y) e) = ⟨t, r, feeding host y e⟩ := by
  obtain ⟨t, ht, hc, hr⟩ := hm.decoded host
  refine ⟨t, hr, fun fuel y e => ?_⟩
  have hf := follows_feeding (d := host) (((readMessage_decodes host).only ht).mono fun _ => .inl)
    hc y e
  rw [hr] at hf
  exact Comp.exec_eq (h fuel t ht) hf

theorem drainFrom_ends {m : Message} {logs : List String} {d : Drained} (hm : m.Valid)
    (hd : m.drained logs = some d) :
    ∃ t, recvd host t = m.encode ∧
      ∀ fuel y e, (drainFrom host (fuel + 1) logs).exec World.step
        (feeding host (m.encode ++ y) e) = ⟨t, .ok d, feeding host y e⟩ := by
  refine drainFrom_stops host hm fun fuel t ht => ?_
  have hend : (drainFrom host (fuel + 1) logs).Runs (t ++ []) (.ok d) := by
    refine ht.bind ?_
    cases m with
    | last => exact ⟨rfl, by rw [← Option.some.inj hd]⟩
    | error e => exact ⟨rfl, by rw [← Option.some.inj hd]⟩
    | next text => cases hd
    | startActivity id verbosity activityType text fields parent => cases hd
    | stopActivity id => cases hd
    | result id resultType fields => cases hd
    | streaming msg => cases hd
    | unknown msg => cases hd
  rwa [List.append_nil] at hend

theorem drainFrom_offends {m : Message} {err : String} (logs : List String) (hm : m.Valid)
    (hv : m.violation = some err) :
    ∃ s t, s ≠ .exhausted ∧ recvd host t = m.encode ∧
      ∀ fuel y e, (drainFrom host (fuel + 1) logs).exec World.step
        (feeding host (m.encode ++ y) e) = ⟨t, .error s, feeding host y e⟩ := by
  have hgo : ∀ text : String, (∀ fuel t, (readMessage host).Runs t (.ok m) →
      (drainFrom host (fuel + 1) logs).Runs (t ++ []) (.error (.failed (.msg text)))) →
      ∃ s t, s ≠ .exhausted ∧ recvd host t = m.encode ∧
        ∀ fuel y e, (drainFrom host (fuel + 1) logs).exec World.step
          (feeding host (m.encode ++ y) e) = ⟨t, .error s, feeding host y e⟩ := by
    intro text h
    obtain ⟨t, hr, he⟩ := drainFrom_stops host (r := .error (.failed (.msg text))) hm
      fun fuel t ht => by
        have hb := h fuel t ht
        rwa [List.append_nil] at hb
    exact ⟨_, t, by simp, hr, he⟩
  cases m with
  | streaming msg => exact hgo _ fun fuel t ht => ht.bind ⟨rfl, rfl⟩
  | unknown msg => exact hgo _ fun fuel t ht => ht.bind ⟨rfl, rfl⟩
  | _ => cases hv

theorem drainFrom_breaks {s : Stop} {x : Bytes} {e : Ending IoError}
    (h : ((readMessage host).exec World.step (feeding host x e)).value = .error s) (fuel : Nat)
    (logs : List String) :
    (drainFrom host (fuel + 1) logs).exec World.step (feeding host x e) =
      ⟨((readMessage host).exec World.step (feeding host x e)).trace, .error s,
        ((readMessage host).exec World.step (feeding host x e)).state⟩ :=
  Comp.exec_bind_error h

end Draining

/-! ### Collecting log texts -/

def Field.text? : Field → Option Bytes
  | .int _ => none
  | .string s => some s

/-- The texts and string fields of a message, in order. -/
def Message.texts : Message → List Bytes
  | .next text => [text]
  | .startActivity _ _ _ text fields _ => text :: fields.filterMap Field.text?
  | .result _ _ fields => fields.filterMap Field.text?
  | _ => []

/-- Lossily decoded, right-trimmed, blank ones left out. -/
def logLines (raws : List Bytes) : List String :=
  (raws.map fun raw => trimEnd (fromUtf8Lossy raw)).filter (· ≠ "")

theorem logLines_append (xs ys : List Bytes) :
    logLines (xs ++ ys) = logLines xs ++ logLines ys := by
  simp [logLines]

theorem logLines_cons (x : Bytes) (xs : List Bytes) :
    logLines (x :: xs) = logLines [x] ++ logLines xs :=
  logLines_append [x] xs

theorem pushLog_eq (logs : List String) (raw : Bytes) :
    pushLog logs raw = logs ++ logLines [raw] := by
  unfold pushLog
  by_cases h : trimEnd (fromUtf8Lossy raw) = "" <;> simp [logLines, h]

theorem pushFieldLogs_eq (logs : List String) (fields : List Field) :
    pushFieldLogs logs fields = logs ++ logLines (fields.filterMap Field.text?) := by
  induction fields generalizing logs with
  | nil => simp [pushFieldLogs, logLines]
  | cons field fields ih =>
    cases field with
    | int v => exact ih logs
    | string s =>
      have h :
          pushFieldLogs logs (.string s :: fields) = pushFieldLogs (pushLog logs s) fields := rfl
      rw [h, ih, pushLog_eq, List.append_assoc, ← logLines_cons]
      rfl

theorem pushMessage_eq (logs : List String) (m : Message) :
    pushMessage logs m = logs ++ logLines m.texts := by
  cases m with
  | next text => exact pushLog_eq logs text
  | startActivity id verbosity activityType text fields parent =>
    simp only [pushMessage, Message.texts, pushLog_eq, pushFieldLogs_eq]
    rw [List.append_assoc, ← logLines_cons]
  | result id resultType fields => exact pushFieldLogs_eq logs fields
  | _ => simp [pushMessage, Message.texts, logLines]

/-- Nothing is dropped or reordered: the logs are the lines of all messages, in order. -/
theorem foldl_pushMessage (logs : List String) (ms : List Message) :
    ms.foldl pushMessage logs = logs ++ logLines (ms.flatMap Message.texts) := by
  induction ms generalizing logs with
  | nil => simp [logLines]
  | cons m ms ih => simp [ih, pushMessage_eq, logLines_append]

/-- A list of texts behind its label; nothing for no texts. -/
def labelled (label : String) (items : List String) : String :=
  if items = [] then "" else label ++ String.intercalate " | " items

/-- The daemon's message, then its traces, then the logs. -/
def errorText (err : ErrorPayload) (logs : List String) : String :=
  "host daemon error: " ++ fromUtf8Lossy err.message ++
    labelled "; traces: " (err.traces.map fromUtf8Lossy) ++ labelled "; logs: " logs

theorem drainedError_eq (err : ErrorPayload) (logs : List String) :
    drainedError logs err = errorText err logs := by
  have hm : err.daemonMessage = "host daemon error: " ++ fromUtf8Lossy err.message ++
      labelled "; traces: " (err.traces.map fromUtf8Lossy) := by
    unfold ErrorPayload.daemonMessage labelled
    by_cases h : err.traces = []
    · simp [h, toString]
    · simp [h, toString, String.append_assoc]
  unfold drainedError errorText
  rw [hm]
  by_cases h : logs = []
  · simp [h, labelled]
  · simp [h, labelled, String.append_assoc]

/-! ### Both loops over any stream -/

section Streams

variable (fuel : Nat) (host guest : Leg) (z : Bytes) (e : Ending IoError)

/-- The outcome of relaying the stream `z`. -/
def relayed : Outcome (Resp Leg IoError Error) (Except Stop Terminal) (World Leg IoError Error) :=
  (relay fuel host guest).exec World.step (feeding host z e)

/-- The outcome of relaying `z` with `STDERR_LAST` held back. -/
def heldBack : Outcome (Resp Leg IoError Error) (Except Stop Terminal) (World Leg IoError Error) :=
  (relayWithoutLast fuel host guest).exec World.step (feeding host z e)

/-- The outcome of draining `z`. -/
def drained : Outcome (Resp Leg IoError Error) (Except Stop Drained) (World Leg IoError Error) :=
  (drainToTerminal fuel host).exec World.step (feeding host z e)

end Streams

/-- What `relayWithoutLast` omits. -/
def heldLast : Except Stop Terminal → Bytes
  | .ok .last => le64 stderrLast
  | _ => []

/-- The relay on the host stream `z` that ends in `e`, to a guest that takes everything. -/
structure RelayExact (fuel : Nat) (host guest : Leg) (z : Bytes) (e : Ending IoError) : Prop where
  passed : ∀ term, (relayed fuel host guest z e).value = .ok term →
    ∃ (ms : List Message) (m : Message) (y : Bytes), Logs ms ∧ m.Valid ∧
      m.terminal = some term ∧ z = encMessages ms ++ (m.encode ++ y) ∧
      recvd host (relayed fuel host guest z e).trace = encMessages ms ++ m.encode ∧
      sent guest (relayed fuel host guest z e).trace = encMessages ms ++ m.encode ∧
      (relayed fuel host guest z e).state = feeding host y e
  failed : ∀ s, (relayed fuel host guest z e).value = .error s →
    s ≠ .exhausted ∧ ∃ (ms : List Message) (x : Bytes), Logs ms ∧ z = encMessages ms ++ x ∧
      (∀ (m : Message) (y : Bytes), m.Valid → m.violation = none → x ≠ m.encode ++ y) ∧
      sent guest (relayed fuel host guest z e).trace = encMessages ms ++ offenceBytes x
  accepts : ∀ (ms : List Message) (m : Message) (term : Terminal) (y : Bytes), Logs ms →
    m.Valid → m.terminal = some term → z = encMessages ms ++ (m.encode ++ y) →
    (relayed fuel host guest z e).value = .ok term
  held : (heldBack fuel host guest z e).value = (relayed fuel host guest z e).value ∧
    recvd host (heldBack fuel host guest z e).trace =
      recvd host (relayed fuel host guest z e).trace ∧
    (heldBack fuel host guest z e).state = (relayed fuel host guest z e).state ∧
    sent guest (relayed fuel host guest z e).trace =
      sent guest (heldBack fuel host guest z e).trace ++
        heldLast (relayed fuel host guest z e).value

/-- The drain and the relay on the same host stream. -/
structure DrainAgrees (fuel : Nat) (host guest : Leg) (z : Bytes) (e : Ending IoError) : Prop where
  consumed : recvd host (drained fuel host z e).trace =
    recvd host (heldBack fuel host guest z e).trace
  left : (drained fuel host z e).state = (heldBack fuel host guest z e).state
  last :
    (drained fuel host z e).value = .ok .last ↔ (heldBack fuel host guest z e).value = .ok .last
  error : (∃ text, (drained fuel host z e).value = .ok (.error text)) ↔
    (heldBack fuel host guest z e).value = .ok .error
  fails : (∃ s, (drained fuel host z e).value = .error s) ↔
    ∃ s, (heldBack fuel host guest z e).value = .error s
  text : ∀ text, (drained fuel host z e).value = .ok (.error text) →
    ∃ (ms : List Message) (err : ErrorPayload) (y : Bytes), Logs ms ∧ err.Valid ∧
      z = encMessages ms ++ ((Message.error err).encode ++ y) ∧
      text = errorText err (logLines (ms.flatMap Message.texts))

section Outcomes

variable (host guest : Leg) {ms : List Message} {m : Message} (k : Nat) (e : Ending IoError)

theorem relay_ends {term : Terminal} (forwardLast : Bool) (hms : Logs ms) (hm : m.Valid)
    (ht : m.terminal = some term) (y : Bytes) :
    ∃ t, (relayInner host guest forwardLast (k + 1 + ms.length)).exec World.step
        (feeding host (encMessages ms ++ (m.encode ++ y)) e) = ⟨t, .ok term, feeding host y e⟩ ∧
      recvd host t = encMessages ms ++ m.encode ∧
      sent guest t = encMessages ms ++ m.shown forwardLast := by
  obtain ⟨t, hr, hs, hb⟩ := relayInner_behind host guest forwardLast hms
  obtain ⟨u, hr', hs', he⟩ := relayInner_ends host guest forwardLast hm ht
  refine ⟨t ++ u, by rw [hb, he]; rfl, by rw [recvd_append, hr, hr'], by rw [sent_append, hs, hs']⟩

theorem relay_offends {err : String} (forwardLast : Bool) (hms : Logs ms) (hm : m.Valid)
    (hv : m.violation = some err) (y : Bytes) :
    ∃ t, (relayInner host guest forwardLast (k + 1 + ms.length)).exec World.step
        (feeding host (encMessages ms ++ (m.encode ++ y)) e) =
          ⟨t, .error (.failed (.msg err)), feeding host y e⟩ ∧
      recvd host t = encMessages ms ++ m.encode ∧
      sent guest t = encMessages ms ++ (Message.error (syntheticError err)).encode := by
  obtain ⟨t, hr, hs, hb⟩ := relayInner_behind host guest forwardLast hms
  obtain ⟨u, hr', hs', he⟩ := relayInner_offends host guest forwardLast hm hv
  refine ⟨t ++ u, by rw [hb, he]; rfl, by rw [recvd_append, hr, hr'], by rw [sent_append, hs, hs']⟩

theorem relay_breaks {s : Stop} {x : Bytes} (forwardLast : Bool) (hms : Logs ms)
    (h : ((readMessage host).exec World.step (feeding host x e)).value = .error s) :
    ∃ t, (relayInner host guest forwardLast (k + 1 + ms.length)).exec World.step
        (feeding host (encMessages ms ++ x) e) =
          ⟨t, .error s, ((readMessage host).exec World.step (feeding host x e)).state⟩ ∧
      recvd host t = encMessages ms ++
        recvd host ((readMessage host).exec World.step (feeding host x e)).trace ∧
      sent guest t = encMessages ms := by
  obtain ⟨t, hr, hs, hb⟩ := relayInner_behind host guest forwardLast hms
  have hno := (readMessage_decodes host).sent_nil (d := guest)
    (Comp.exec_runs World.step (readMessage host) (feeding host x e))
  refine ⟨_, by rw [hb, relayInner_breaks host guest forwardLast h]; rfl,
    by rw [recvd_append, hr], by rw [sent_append, hs, hno, List.append_nil]⟩

theorem drain_ends {d : Drained} (hms : Logs ms) (hm : m.Valid)
    (hd : m.drained (ms.foldl pushMessage []) = some d) (y : Bytes) :
    ∃ t, (drainToTerminal (k + 1 + ms.length) host).exec World.step
        (feeding host (encMessages ms ++ (m.encode ++ y)) e) = ⟨t, .ok d, feeding host y e⟩ ∧
      recvd host t = encMessages ms ++ m.encode := by
  obtain ⟨t, hr, hb⟩ := drainFrom_behind host hms []
  obtain ⟨u, hr', he⟩ := drainFrom_ends host hm hd
  exact ⟨t ++ u, by rw [drainToTerminal, hb, he]; rfl, by rw [recvd_append, hr, hr']⟩

theorem drain_offends {err : String} (hms : Logs ms) (hm : m.Valid)
    (hv : m.violation = some err) (y : Bytes) :
    ∃ s t, (drainToTerminal (k + 1 + ms.length) host).exec World.step
        (feeding host (encMessages ms ++ (m.encode ++ y)) e) = ⟨t, .error s, feeding host y e⟩ ∧
      recvd host t = encMessages ms ++ m.encode := by
  obtain ⟨t, hr, hb⟩ := drainFrom_behind host hms []
  obtain ⟨s, u, -, hr', he⟩ := drainFrom_offends host (ms.foldl pushMessage []) hm hv
  exact ⟨s, t ++ u, by rw [drainToTerminal, hb, he]; rfl, by rw [recvd_append, hr, hr']⟩

theorem drain_breaks {s : Stop} {x : Bytes} (hms : Logs ms)
    (h : ((readMessage host).exec World.step (feeding host x e)).value = .error s) :
    ∃ t, (drainToTerminal (k + 1 + ms.length) host).exec World.step
        (feeding host (encMessages ms ++ x) e) =
          ⟨t, .error s, ((readMessage host).exec World.step (feeding host x e)).state⟩ ∧
      recvd host t = encMessages ms ++
        recvd host ((readMessage host).exec World.step (feeding host x e)).trace := by
  obtain ⟨t, hr, hb⟩ := drainFrom_behind host hms []
  exact ⟨_, by rw [drainToTerminal, hb, drainFrom_breaks host h]; rfl, by rw [recvd_append, hr]⟩

end Outcomes

theorem Message.shown_true (m : Message) : m.shown true = m.encode := by
  cases m <;> rfl

/-- The relay never stops early where a whole exchange is on the stream. -/
theorem relay_accepts (host guest : Leg) {fuel : Nat} {z : Bytes} (e : Ending IoError)
    (hf : z.length < 8 * fuel) {ms : List Message} {m : Message} {term : Terminal} {y : Bytes}
    (hms : Logs ms) (hm : m.Valid) (ht : m.terminal = some term)
    (hz : z = encMessages ms ++ (m.encode ++ y)) :
    (relayed fuel host guest z e).value = .ok term := by
  subst hz
  obtain ⟨k, rfl⟩ := exists_fuel hf
  obtain ⟨t, he, -⟩ := relay_ends host guest k e true hms hm ht y
  rw [relayed, relay, he]

/-- What the relay does with any host stream, to a guest that takes what it is sent. -/
theorem relay_exact (host guest : Leg) (z : Bytes) (e : Ending IoError) (fuel : Nat)
    (hf : z.length < 8 * fuel) : RelayExact fuel host guest z e := by
  obtain ⟨ms, x, hms, hc, hz⟩ := exists_course z
  have ha : ∀ (ms : List Message) (m : Message) (term : Terminal) (y : Bytes), Logs ms →
      m.Valid → m.terminal = some term → z = encMessages ms ++ (m.encode ++ y) →
      (relayed fuel host guest z e).value = .ok term :=
    fun _ _ _ _ hms hm ht hz => relay_accepts host guest e hf hms hm ht hz
  subst hz
  obtain ⟨k, rfl⟩ := exists_fuel hf
  cases hc with
  | @ends m term y hm ht =>
    obtain ⟨t, h, hr, hs⟩ := relay_ends host guest k e true hms hm ht y
    obtain ⟨t', h', hr', hs'⟩ := relay_ends host guest k e false hms hm ht y
    rw [m.shown_true] at hs
    refine ⟨fun term' hv => ?_, fun s hv => ?_, ha, ?_⟩
    · rw [relayed, relay, h] at hv ⊢
      obtain rfl := Except.ok.inj hv
      exact ⟨ms, m, y, hms, hm, ht, rfl, hr, hs, rfl⟩
    · rw [relayed, relay, h] at hv
      cases hv
    · rw [heldBack, relayWithoutLast, relayed, relay, h, h', hr, hr', hs, hs']
      refine ⟨rfl, rfl, rfl, ?_⟩
      cases m with
      | last =>
        obtain rfl := Option.some.inj ht
        simp [Message.shown, heldLast, Message.encode]
      | error err =>
        obtain rfl := Option.some.inj ht
        simp [Message.shown, heldLast]
      | _ => cases ht
  | @offends m err y hm hv =>
    obtain ⟨t, h, hr, hs⟩ := relay_offends host guest k e true hms hm hv y
    obtain ⟨t', h', hr', hs'⟩ := relay_offends host guest k e false hms hm hv y
    refine ⟨fun term' hv' => ?_, fun s hv' => ?_, ha, ?_⟩
    · rw [relayed, relay, h] at hv'
      cases hv'
    · rw [relayed, relay, h] at hv' ⊢
      obtain rfl := Except.error.inj hv'
      refine ⟨by simp, ms, _, hms, rfl, fun m' y' hm' hn he => ?_, ?_⟩
      · obtain ⟨rfl, -⟩ := message_unambiguous hm hm' he
        rw [hv] at hn
        cases hn
      · rw [offenceBytes_violation hm hv]
        exact hs
    · rw [heldBack, relayWithoutLast, relayed, relay, h, h', hr, hr', hs, hs']
      exact ⟨rfl, rfl, rfl, (List.append_nil _).symm⟩
  | breaks hx =>
    obtain ⟨s, hne, hb⟩ := readMessage_breaks host hx e
    obtain ⟨t, h, hr, hs⟩ := relay_breaks host guest k e true hms hb
    obtain ⟨t', h', hr', hs'⟩ := relay_breaks host guest k e false hms hb
    refine ⟨fun term' hv => ?_, fun s' hv => ?_, ha, ?_⟩
    · rw [relayed, relay, h] at hv
      cases hv
    · rw [relayed, relay, h] at hv ⊢
      obtain rfl := Except.error.inj hv
      exact ⟨hne, ms, x, hms, rfl, fun m' y' hm' _ => hx m' y' hm',
        by rw [offenceBytes_none hx, List.append_nil]; exact hs⟩
    · rw [heldBack, relayWithoutLast, relayed, relay, h, h', hr, hr', hs, hs']
      exact ⟨rfl, rfl, rfl, (List.append_nil _).symm⟩

/-- A log line, and the end of the exchange. -/
def lastSample : Bytes := encMessages [.next (utf8 "copying")] ++ Message.last.encode

theorem relay_exact_sample : RelayExact 5 .host .guest lastSample .eof ∧
    (relayed 5 .host .guest lastSample .eof).value = .ok .last :=
  ⟨relay_exact .host .guest lastSample .eof 5 (by decide), by decide +kernel⟩

/-- The drain and the relay stay in step on any host stream. -/
theorem drain_agrees (host guest : Leg) (z : Bytes) (e : Ending IoError) (fuel : Nat)
    (hf : z.length < 8 * fuel) : DrainAgrees fuel host guest z e := by
  obtain ⟨ms, x, hms, hc, hz⟩ := exists_course z
  subst hz
  obtain ⟨k, rfl⟩ := exists_fuel hf
  cases hc with
  | @ends m term y hm ht =>
    obtain ⟨t, h, hr, -⟩ := relay_ends host guest k e false hms hm ht y
    cases m with
    | last =>
      obtain rfl := Option.some.inj ht
      obtain ⟨u, hd, hr'⟩ := drain_ends host k e hms hm rfl y
      constructor <;> simp [drained, heldBack, relayWithoutLast, h, hd, hr, hr']
    | error err =>
      obtain rfl := Option.some.inj ht
      obtain ⟨u, hd, hr'⟩ := drain_ends host k e hms hm rfl y
      constructor
      case text =>
        intro text hv
        rw [drained, hd] at hv
        refine ⟨ms, err, y, hms, hm, rfl, ?_⟩
        rw [← Drained.error.inj (Except.ok.inj hv), drainedError_eq, foldl_pushMessage,
          List.nil_append]
      all_goals simp [drained, heldBack, relayWithoutLast, h, hd, hr, hr']
    | _ => cases ht
  | @offends m err y hm hv =>
    obtain ⟨t, h, hr, -⟩ := relay_offends host guest k e false hms hm hv y
    obtain ⟨s, u, hd, hr'⟩ := drain_offends host k e hms hm hv y
    constructor <;> simp [drained, heldBack, relayWithoutLast, h, hd, hr, hr']
  | breaks hx =>
    obtain ⟨s, -, hb⟩ := readMessage_breaks host hx e
    obtain ⟨t, h, hr, -⟩ := relay_breaks host guest k e false hms hb
    obtain ⟨u, hd, hr'⟩ := drain_breaks host k e hms hb
    constructor <;> simp [drained, heldBack, relayWithoutLast, h, hd, hr, hr']

/-- A log line, a blank one, and an error with a trace. -/
def errorSample : Bytes :=
  encMessages [.next (utf8 "copying \n"), .next (utf8 " ")] ++
    (Message.error ⟨utf8 "Error", 0, utf8 "Error", utf8 "no such path",
      [utf8 "while reading"]⟩).encode

theorem drain_agrees_sample : DrainAgrees 30 .host .guest errorSample .eof ∧
    (drained 30 .host errorSample .eof).value = .ok (.error
      "host daemon error: no such path; traces: while reading; logs: copying") :=
  ⟨drain_agrees .host .guest errorSample .eof 30 (by decide +kernel), by decide +kernel⟩

end Claudepod
