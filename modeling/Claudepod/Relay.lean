import Claudepod.Bounded
import Claudepod.Stderr

/-! What a run of the stderr relay and of the drain looks like: a list of log messages and
then a terminal message, or a failure behind whole messages. -/

set_option autoImplicit false
set_option linter.constructorNameAsVariable false

namespace Claudepod
open Interaction

/-- Log messages as the daemon sends them before it ends an exchange. -/
def Logs (ms : List Message) : Prop := ∀ m ∈ ms, m.isLog ∧ m.Valid

def encMessages (ms : List Message) : Bytes := ms.flatMap Message.encode

theorem encMessages_nil (x : Bytes) : encMessages [] ++ x = x := rfl

theorem encMessages_cons (m : Message) (ms : List Message) (x : Bytes) :
    encMessages (m :: ms) ++ x = m.encode ++ (encMessages ms ++ x) := by
  rw [encMessages, List.flatMap_cons, List.append_assoc]
  rfl

def Message.terminal : Message → Option Terminal
  | .last => some .last
  | .error _ => some .error
  | _ => none

/-- What the guest sees of a terminal message. -/
def Message.shown (forwardLast : Bool) : Message → Bytes
  | .last => if forwardLast then le64 stderrLast else []
  | m => m.encode

/-- The message of a violation. -/
def Message.violation : Message → Option String
  | .streaming msg =>
    some s!"host daemon sent streaming stderr message {hex msg} during a query op"
  | .unknown msg => some s!"unknown stderr message {hex msg} from host daemon"
  | _ => none

theorem relayMessage_terminal (guest : Leg) (forwardLast : Bool) {m : Message} {term : Terminal}
    (h : m.terminal = some term) :
    Emits guest (relayMessage guest forwardLast m) (some term) (m.shown forwardLast) := by
  cases m with
  | last =>
    obtain rfl := Option.some.inj h
    cases forwardLast with
    | false => exact (Emits.pure ()).andThen (Emits.pure (some Terminal.last))
    | true => exact (writeU64_emits guest _).andThen (.pure _)
  | error e =>
    obtain rfl := Option.some.inj h
    exact ((writeU64_emits guest _).andThen <|
      (writeErrorPayload_emits guest e).andThen (.pure _)).of_eq
      (by simp [Message.shown, Message.encode])
  | next text => cases h
  | startActivity id verbosity activityType text fields parent => cases h
  | stopActivity id => cases h
  | result id resultType fields => cases h
  | streaming msg => cases h
  | unknown msg => cases h

/-- Every message is a log message, ends the exchange, or is a violation. -/
theorem Message.kinds (m : Message) :
    m.isLog = true ∨ (∃ term, m.terminal = some term) ∨ ∃ err, m.violation = some err := by
  cases m <;> simp [isLog, terminal, violation]

theorem Message.terminal_not_log (m : Message) {term : Terminal} (h : m.terminal = some term) :
    m.isLog = false := by
  cases m with
  | last => rfl
  | error e => rfl
  | _ => cases h

theorem Message.violation_not_log (m : Message) {err : String} (h : m.violation = some err) :
    m.isLog = false := by
  cases m with
  | streaming msg => rfl
  | unknown msg => rfl
  | _ => cases h

theorem relayMessage_violation {guest : Leg} {forwardLast : Bool} {m : Message} {err : String}
    (h : m.violation = some err) :
    relayMessage guest forwardLast m = refuse guest err (.msg err) := by
  cases m with
  | streaming msg => rw [← Option.some.inj h]; rfl
  | unknown msg => rw [← Option.some.inj h]; rfl
  | last => cases h
  | error e => cases h
  | next text => cases h
  | startActivity id verbosity activityType text fields parent => cases h
  | stopActivity id => cases h
  | result id resultType fields => cases h

/-- Refusing writes at most the synthetic error, and all of it if the guest takes it. -/
theorem refuse_runs {α : Type} {guest : Leg} {text : String} {err : Error} {t : IoTrace}
    {r : Except Stop α} (h : (refuse guest text err).Runs t r) :
    Only (puts guest) t ∧ sent guest t <+: (Message.error (syntheticError text)).encode ∧
      (Only (fun e => puts guest e → clean e) t →
        sent guest t = (Message.error (syntheticError text)).encode) ∧
      ∃ s, r = .error s ∧ s ≠ .exhausted := by
  have hw := writeError_emits guest text
  rcases (Comp.runs_bind _).mp h with ⟨w, t₁, t₂, rfl, h₁, h₂⟩ | ⟨s, rfl, h₁⟩
  · obtain ⟨rfl, rfl⟩ := (Comp.runs_throw _ _).mp h₂
    rw [List.append_nil]
    rcases (Comp.runs_attempt _ _).mp h₁ with ⟨u, h, -⟩ | ⟨e, z, h, -, -⟩ | ⟨e, -, -, h⟩
    · exact ⟨hw.only h, hw.sent_part h, fun _ => (hw.sound h).2, _, rfl, by simp⟩
    · refine ⟨hw.only h, hw.sent_part h, fun hc => ?_, _, rfl, by simp⟩
      exact absurd (fun e he => hc e he (hw.only h e he)) (hw.stopped h).2
    · cases h
  · rcases (Comp.runs_attempt _ _).mp h₁ with ⟨u, -, h⟩ | ⟨e, z, -, -, h⟩ | ⟨e, h, hn, he⟩
    · cases h
    · cases h
    · obtain rfl := Except.error.inj he
      refine ⟨hw.only h, hw.sent_part h, fun hc => ?_, _, rfl, ?_⟩
      · exact absurd (fun e he => hc e he (hw.only h e he)) (hw.stopped h).2
      · exact (writeError_terse guest text _ _ h).ne_exhausted

/-- The course of an exchange: log messages passed on and flushed one by one, up to a
terminal message or to a failure. -/
inductive Relayed (host guest : Leg) (forwardLast : Bool) : IoTrace → Except Stop Terminal → Prop
  | exhausted : Relayed host guest forwardLast [] (.error .exhausted)
  | unread {t : IoTrace} {s : Stop} : (readMessage host).Runs t (.error s) →
      Relayed host guest forwardLast t (.error s)
  | unwritten {t₁ t₂ : IoTrace} {m : Message} {s : Stop} : (readMessage host).Runs t₁ (.ok m) →
      (relayMessage guest forwardLast m).Runs t₂ (.error s) →
      Relayed host guest forwardLast (t₁ ++ t₂) (.error s)
  | unflushed {t₁ t₂ t₃ : IoTrace} {m : Message} {s : Stop} :
      (readMessage host).Runs t₁ (.ok m) → m.isLog →
      (relayMessage guest forwardLast m).Runs t₂ (.ok none) → (flush guest).Runs t₃ (.error s) →
      Relayed host guest forwardLast (t₁ ++ (t₂ ++ t₃)) (.error s)
  | terminal {t₁ t₂ : IoTrace} {m : Message} {term : Terminal} :
      (readMessage host).Runs t₁ (.ok m) → m.terminal = some term →
      (relayMessage guest forwardLast m).Runs t₂ (.ok (some term)) →
      Relayed host guest forwardLast (t₁ ++ t₂) (.ok term)
  | log {t₁ t₂ t₃ t₄ : IoTrace} {m : Message} {r : Except Stop Terminal} :
      (readMessage host).Runs t₁ (.ok m) → m.isLog →
      (relayMessage guest forwardLast m).Runs t₂ (.ok none) → (flush guest).Runs t₃ (.ok ()) →
      Relayed host guest forwardLast t₄ r →
      Relayed host guest forwardLast (t₁ ++ (t₂ ++ (t₃ ++ t₄))) r

/-- What handling a message returns says which kind of message it was. -/
theorem relayMessage_ok {guest : Leg} {forwardLast : Bool} {m : Message} {t : IoTrace}
    {o : Option Terminal} (h : (relayMessage guest forwardLast m).Runs t (.ok o)) :
    (o = none ∧ m.isLog) ∨ ∃ term, o = some term ∧ m.terminal = some term := by
  rcases m.kinds with hl | ⟨term, ht⟩ | ⟨err, hv⟩
  · exact .inl ⟨((relayMessage_log guest forwardLast hl).sound h).1, hl⟩
  · exact .inr ⟨term, ((relayMessage_terminal guest forwardLast ht).sound h).1, ht⟩
  · rw [relayMessage_violation hv] at h
    obtain ⟨-, -, -, s, hs, -⟩ := refuse_runs h
    cases hs

theorem relayInner_runs {host guest : Leg} {forwardLast : Bool} {fuel : Nat} {t : IoTrace}
    {r : Except Stop Terminal} (h : (relayInner host guest forwardLast fuel).Runs t r) :
    Relayed host guest forwardLast t r := by
  induction fuel generalizing t with
  | zero =>
    obtain ⟨rfl, rfl⟩ := (Comp.runs_throw _ _).mp h
    exact .exhausted
  | succ fuel ih =>
    rcases (Comp.runs_bind _).mp h with ⟨m, t₁, u, rfl, h₁, h⟩ | ⟨s, rfl, h₁⟩
    · rcases (Comp.runs_bind _).mp h with ⟨o, t₂, u, rfl, h₂, h⟩ | ⟨s, rfl, h₂⟩
      · rcases relayMessage_ok h₂ with ⟨rfl, hl⟩ | ⟨term, rfl, ht⟩
        · rcases (Comp.runs_bind _).mp h with ⟨x, t₃, t₄, rfl, h₃, h₄⟩ | ⟨s, rfl, h₃⟩
          · exact .log h₁ hl h₂ h₃ (ih h₄)
          · exact .unflushed h₁ hl h₂ h₃
        · obtain ⟨rfl, rfl⟩ := (Comp.runs_pure _ _).mp h
          rw [List.append_nil]
          exact .terminal h₁ ht h₂
      · exact .unwritten h₁ h₂
    · exact .unread h₁

theorem relayMessage_only {guest : Leg} {forwardLast : Bool} {m : Message} {t : IoTrace}
    {r : Except Stop (Option Terminal)} (h : (relayMessage guest forwardLast m).Runs t r) :
    Only (puts guest) t := by
  rcases m.kinds with hl | ⟨term, ht⟩ | ⟨err, hv⟩
  · exact (relayMessage_log guest forwardLast hl).only h
  · exact (relayMessage_terminal guest forwardLast ht).only h
  · rw [relayMessage_violation hv] at h
    exact (refuse_runs h).1

theorem hexed_size (pre post : String) (h : pre.utf8ByteSize + post.utf8ByteSize ≤ 900)
    (n : UInt64) : (pre ++ hex n ++ post).utf8ByteSize ≤ 1024 := by
  have hn := hex_size n
  simp only [String.utf8ByteSize_append]
  omega

theorem Message.violation_size {m : Message} {err : String} (h : m.violation = some err) :
    err.utf8ByteSize ≤ 1024 := by
  cases m with
  | streaming msg =>
    obtain rfl := Option.some.inj h
    exact hexed_size "host daemon sent streaming stderr message " " during a query op"
      (by decide) msg
  | unknown msg =>
    obtain rfl := Option.some.inj h
    exact hexed_size "unknown stderr message " " from host daemon" (by decide) msg
  | last => cases h
  | error e => cases h
  | next text => cases h
  | startActivity id verbosity activityType text fields parent => cases h
  | stopActivity id => cases h
  | result id resultType fields => cases h

theorem relayMessage_terse (guest : Leg) (forwardLast : Bool) (m : Message) :
    Comp.StopsIn Stop.Terse (relayMessage guest forwardLast m) := by
  cases m with
  | last =>
    cases forwardLast with
    | false => exact .pure _
    | true => exact (writeU64_terse guest _).bind fun _ => .pure _
  | error e =>
    exact (writeU64_terse guest _).bind fun _ => (writeErrorPayload_terse guest e).bind fun _ =>
      .pure _
  | next text =>
    exact (writeU64_terse guest _).bind fun _ => (writeString_terse guest _).bind fun _ => .pure _
  | startActivity id verbosity activityType text fields parent =>
    exact (writeU64_terse guest _).bind fun _ => (writeU64_terse guest _).bind fun _ =>
      (writeU64_terse guest _).bind fun _ => (writeU64_terse guest _).bind fun _ =>
      (writeString_terse guest _).bind fun _ => (writeFields_terse guest _).bind fun _ =>
      (writeU64_terse guest _).bind fun _ => .pure _
  | stopActivity id =>
    exact (writeU64_terse guest _).bind fun _ => (writeU64_terse guest _).bind fun _ => .pure _
  | result id resultType fields =>
    exact (writeU64_terse guest _).bind fun _ => (writeU64_terse guest _).bind fun _ =>
      (writeU64_terse guest _).bind fun _ => (writeFields_terse guest _).bind fun _ => .pure _
  | streaming msg =>
    exact (Comp.StopsIn.attempt (writeError_terse guest _)).bind fun _ =>
      bail_terse (Message.violation_size (m := .streaming msg) rfl)
  | unknown msg =>
    exact (Comp.StopsIn.attempt (writeError_terse guest _)).bind fun _ =>
      bail_terse (Message.violation_size (m := .unknown msg) rfl)

namespace Relayed

variable {host guest : Leg} {forwardLast : Bool} {t : IoTrace}

theorem only {r : Except Stop Terminal} (h : Relayed host guest forwardLast t r) :
    Only (fun e => reads host e ∨ puts guest e) t := by
  have hread : ∀ {t : IoTrace} {r : Except Stop Message}, (readMessage host).Runs t r →
      Only (fun e => reads host e ∨ puts guest e) t :=
    fun h => ((readMessage_decodes host).only h).mono fun _ => .inl
  have hput : ∀ {t : IoTrace}, Only (puts guest) t →
      Only (fun e => reads host e ∨ puts guest e) t := fun h => h.mono fun _ => .inr
  induction h with
  | exhausted => simp
  | unread h => exact hread h
  | unwritten h₁ h₂ => exact only_append.mpr ⟨hread h₁, hput (relayMessage_only h₂)⟩
  | unflushed h₁ _ h₂ h₃ =>
    exact only_append.mpr ⟨hread h₁, only_append.mpr ⟨hput (relayMessage_only h₂),
      hput ((flush_emits guest).only h₃)⟩⟩
  | terminal h₁ _ h₂ => exact only_append.mpr ⟨hread h₁, hput (relayMessage_only h₂)⟩
  | log h₁ _ h₂ h₃ _ ih =>
    exact only_append.mpr ⟨hread h₁, only_append.mpr ⟨hput (relayMessage_only h₂),
      only_append.mpr ⟨hput ((flush_emits guest).only h₃), ih⟩⟩⟩

/-- Passing one log message on: the host's bytes of it are the guest's. -/
theorem log_bytes {t₁ t₂ t₃ : IoTrace} {m : Message} (h₁ : (readMessage host).Runs t₁ (.ok m))
    (hl : m.isLog) (h₂ : (relayMessage guest forwardLast m).Runs t₂ (.ok none))
    (h₃ : (flush guest).Runs t₃ (.ok ())) :
    m.Valid ∧ recvd host (t₁ ++ (t₂ ++ t₃)) = m.encode ∧
      sent guest (t₁ ++ (t₂ ++ t₃)) = m.encode := by
  have hm := (readMessage_decodes host).sound h₁
  have hw := relayMessage_log guest forwardLast hl
  simp only [recvd_append, sent_append, hm.2, (readMessage_decodes host).sent_nil h₁,
    recvd_of_puts (hw.only h₂), (hw.sound h₂).2, recvd_of_puts ((flush_emits guest).only h₃),
    ((flush_emits guest).sound h₃).2, List.append_nil, List.nil_append]
  exact ⟨hm.1, trivial, trivial⟩

/-- An exchange that ends is log messages and a terminal message; the guest has seen all
of it, except perhaps `STDERR_LAST`. -/
theorem ok {term : Terminal} (h : Relayed host guest forwardLast t (.ok term)) :
    ∃ (ms : List Message) (m : Message), Logs ms ∧ m.Valid ∧ m.terminal = some term ∧
      recvd host t = encMessages ms ++ m.encode ∧
      sent guest t = encMessages ms ++ m.shown forwardLast := by
  generalize hr : Except.ok term = r at h
  induction h with
  | exhausted => cases hr
  | unread h => cases hr
  | unwritten h₁ h₂ => cases hr
  | unflushed h₁ _ h₂ h₃ => cases hr
  | terminal h₁ ht h₂ =>
    obtain rfl := Except.ok.inj hr
    have hm := (readMessage_decodes host).sound h₁
    have hw := relayMessage_terminal guest forwardLast ht
    refine ⟨[], _, by simp [Logs], hm.1, ht, ?_, ?_⟩
    · simp [hm.2, recvd_of_puts (hw.only h₂), encMessages]
    · simp [(readMessage_decodes host).sent_nil h₁, (hw.sound h₂).2, encMessages]
  | @log t₁ t₂ t₃ t₄ m r h₁ hl h₂ h₃ _ ih =>
    obtain ⟨ms, m', hms, hv, ht, hrecv, hsent⟩ := ih hr
    obtain ⟨hmv, hmr, hms'⟩ := log_bytes h₁ hl h₂ h₃
    refine ⟨m :: ms, m', ?_, hv, ht, ?_, ?_⟩
    · rintro x (_ | ⟨_, hx⟩)
      · exact ⟨hl, hmv⟩
      · exact hms x hx
    · rw [← List.append_assoc t₂, ← List.append_assoc t₁, recvd_append, hmr, hrecv]
      simp [encMessages]
    · rw [← List.append_assoc t₂, ← List.append_assoc t₁, sent_append, hms', hsent]
      simp [encMessages]

/-- As long as the guest takes what it is sent, an exchange that fails has shown it whole
messages, and behind them at most one synthetic error. -/
theorem error {s : Stop} (h : Relayed host guest forwardLast t (.error s))
    (hc : Only (fun e => puts guest e → clean e) t) :
    ∃ (ms : List Message) (tail : Bytes), Logs ms ∧ sent guest t = encMessages ms ++ tail ∧
      (tail = [] ∨ ∃ (m : Message) (err : String), m.violation = some err ∧
        tail = (Message.error (syntheticError err)).encode) := by
  generalize hr : Except.error s = r at h
  induction h with
  | exhausted => exact ⟨[], [], by simp [Logs], rfl, .inl rfl⟩
  | unread h =>
    exact ⟨[], [], by simp [Logs], by
      simp [(readMessage_decodes host).sent_nil h, encMessages], .inl rfl⟩
  | @unwritten t₁ t₂ m s' h₁ h₂ =>
    rw [only_append] at hc
    have hn : ∀ {o x}, Emits guest (relayMessage guest forwardLast m) o x → False := fun hw =>
      (hw.stopped h₂).2 fun e he => hc.2 e he (hw.only h₂ e he)
    rcases m.kinds with hl | ⟨term, ht⟩ | ⟨err, hv⟩
    · exact (hn (relayMessage_log guest forwardLast hl)).elim
    · exact (hn (relayMessage_terminal guest forwardLast ht)).elim
    · have hs : sent guest t₂ = (Message.error (syntheticError err)).encode := by
        rw [relayMessage_violation hv] at h₂
        exact (refuse_runs h₂).2.2.1 hc.2
      refine ⟨[], (Message.error (syntheticError err)).encode, by simp [Logs], ?_,
        .inr ⟨m, err, hv, rfl⟩⟩
      rw [sent_append, (readMessage_decodes host).sent_nil h₁, hs]
      rfl
  | unflushed h₁ _ h₂ h₃ =>
    simp only [only_append] at hc
    exact absurd (fun e he => hc.2.2 e he ((flush_emits guest).only h₃ e he))
      ((flush_emits guest).stopped h₃).2
  | terminal h₁ _ h₂ => cases hr
  | @log t₁ t₂ t₃ t₄ m r h₁ hl h₂ h₃ _ ih =>
    rw [← List.append_assoc t₂, ← List.append_assoc t₁, only_append] at hc
    obtain ⟨ms, tail, hms, hsent, htail⟩ := ih hc.2 hr
    obtain ⟨hmv, -, hms'⟩ := log_bytes h₁ hl h₂ h₃
    refine ⟨m :: ms, tail, ?_, ?_, htail⟩
    · rintro x (_ | ⟨_, hx⟩)
      · exact ⟨hl, hmv⟩
      · exact hms x hx
    · rw [← List.append_assoc t₂, ← List.append_assoc t₁, sent_append, hms', hsent]
      simp [encMessages]

/-- However the guest takes it: an exchange that fails has shown whole log messages that came
from the host, and then at most the beginning of what the next message made it send. -/
theorem stopped {s : Stop} (h : Relayed host guest forwardLast t (.error s)) :
    ∃ (ms : List Message) (tail : Bytes), Logs ms ∧ sent guest t <+: encMessages ms ++ tail ∧
      (tail = [] ∧ encMessages ms <+: recvd host t ∨
        ∃ m : Message, m.Valid ∧ m.isLog = false ∧ recvd host t = encMessages ms ++ m.encode ∧
          ((∃ err, m.violation = some err ∧
              tail = (Message.error (syntheticError err)).encode) ∨
            (∃ term, m.terminal = some term) ∧ tail = m.shown forwardLast)) := by
  generalize hr : Except.error s = r at h
  have hread : ∀ {t : IoTrace} {r : Except Stop Message}, (readMessage host).Runs t r →
      sent guest t = [] := fun h => (readMessage_decodes host).sent_nil h
  induction h with
  | exhausted => exact ⟨[], [], by simp [Logs], List.nil_prefix, .inl ⟨rfl, List.nil_prefix⟩⟩
  | unread h =>
    exact ⟨[], [], by simp [Logs], by rw [hread h]; exact List.nil_prefix,
      .inl ⟨rfl, List.nil_prefix⟩⟩
  | @unwritten t₁ t₂ m s' h₁ h₂ =>
    obtain ⟨hv, he⟩ := (readMessage_decodes host).sound h₁
    rw [sent_append, hread h₁, List.nil_append, recvd_append, he,
      recvd_of_puts (relayMessage_only h₂), List.append_nil]
    rcases m.kinds with hl | ⟨term, ht⟩ | ⟨err, he⟩
    · refine ⟨[m], [], by simpa [Logs] using ⟨hl, hv⟩, ?_, .inl ⟨rfl, ?_⟩⟩
      · rw [List.append_nil, encMessages, List.flatMap_singleton]
        exact (relayMessage_log guest forwardLast hl).sent_part h₂
      · rw [encMessages, List.flatMap_singleton]
    · refine ⟨[], m.shown forwardLast, by simp [Logs], ?_,
        .inr ⟨m, hv, m.terminal_not_log ht, rfl, .inr ⟨⟨term, ht⟩, rfl⟩⟩⟩
      rw [encMessages_nil]
      exact (relayMessage_terminal guest forwardLast ht).sent_part h₂
    · refine ⟨[], (Message.error (syntheticError err)).encode, by simp [Logs], ?_,
        .inr ⟨m, hv, m.violation_not_log he, rfl, .inl ⟨err, he, rfl⟩⟩⟩
      rw [encMessages_nil]
      rw [relayMessage_violation he] at h₂
      exact (refuse_runs h₂).2.1
  | @unflushed t₁ t₂ t₃ m s' h₁ hl h₂ h₃ =>
    obtain ⟨hv, he⟩ := (readMessage_decodes host).sound h₁
    refine ⟨[m], [], by simpa [Logs] using ⟨hl, hv⟩, ?_, .inl ⟨rfl, ?_⟩⟩
    · rw [sent_append, sent_append, hread h₁,
        ((relayMessage_log guest forwardLast hl).sound h₂).2,
        List.prefix_nil.mp ((flush_emits guest).sent_part h₃), List.append_nil, List.append_nil,
        encMessages, List.flatMap_singleton]
      exact List.prefix_rfl
    · rw [recvd_append, he, encMessages, List.flatMap_singleton]
      exact List.prefix_append ..
  | terminal h₁ _ h₂ => cases hr
  | @log t₁ t₂ t₃ t₄ m r h₁ hl h₂ h₃ _ ih =>
    obtain ⟨ms, tail, hms, hsent, htail⟩ := ih hr
    obtain ⟨hmv, hmr, hms'⟩ := log_bytes h₁ hl h₂ h₃
    have hall : Logs (m :: ms) := by
      rintro x (_ | ⟨_, hx⟩)
      · exact ⟨hl, hmv⟩
      · exact hms x hx
    have hr' : recvd host (t₁ ++ (t₂ ++ (t₃ ++ t₄))) = m.encode ++ recvd host t₄ := by
      rw [← List.append_assoc t₂, ← List.append_assoc t₁, recvd_append, hmr]
    refine ⟨m :: ms, tail, hall, ?_, ?_⟩
    · rw [← List.append_assoc t₂, ← List.append_assoc t₁, sent_append, hms', encMessages_cons]
      exact (List.prefix_append_right_inj _).mpr hsent
    · rw [hr']
      rcases htail with ⟨rfl, hp⟩ | ⟨m', hv', hl', he, htail⟩
      · refine .inl ⟨rfl, ?_⟩
        rw [encMessages, List.flatMap_cons]
        exact (List.prefix_append_right_inj _).mpr hp
      · exact .inr ⟨m', hv', hl', by rw [he, encMessages_cons], htail⟩

/-- Whenever the exchange waits for the host, all it has passed on so far is flushed. -/
theorem quiet {r : Except Stop Terminal}
    (h : Relayed host guest forwardLast t r) : Quiet (readsFrom host) guest [] t := by
  have hread : ∀ {t : IoTrace} {r : Except Stop Message}, (readMessage host).Runs t r →
      Quiet (readsFrom host) guest [] t ∧ held guest [] t = [] := fun h => by
    have ho : Only (fun e => ¬ puts guest e) _ :=
      ((readMessage_decodes host).only h).mono fun e he =>
        not_puts_of_readsFrom (readsFrom_of_reads he)
    exact ⟨quiet_nil_of_only ho, held_of_only ho⟩
  have hput : ∀ {t : IoTrace} {buf : Bytes}, Only (puts guest) t →
      Quiet (readsFrom host) guest buf t := fun h =>
    quiet_of_only (h.mono fun e he hr => not_puts_of_readsFrom hr he)
  induction h with
  | exhausted => trivial
  | unread h => exact (hread h).1
  | unwritten h₁ h₂ => exact quiet_append.mpr ⟨(hread h₁).1, hput (relayMessage_only h₂)⟩
  | unflushed h₁ _ h₂ h₃ =>
    exact quiet_append.mpr ⟨(hread h₁).1, quiet_append.mpr ⟨hput (relayMessage_only h₂),
      hput ((flush_emits guest).only h₃)⟩⟩
  | terminal h₁ _ h₂ => exact quiet_append.mpr ⟨(hread h₁).1, hput (relayMessage_only h₂)⟩
  | log h₁ _ h₂ h₃ _ ih =>
    refine quiet_append.mpr ⟨(hread h₁).1, quiet_append.mpr ⟨hput (relayMessage_only h₂),
      quiet_append.mpr ⟨hput ((flush_emits guest).only h₃), ?_⟩⟩⟩
    rw [flush_held h₃]
    exact ih

end Relayed

theorem relayInner_acts (host guest : Leg) (forwardLast : Bool) (fuel : Nat) :
    Comp.ActsIn (fun e => reads host e ∨ puts guest e) (relayInner host guest forwardLast fuel) :=
  fun _ _ h => (relayInner_runs h).only

theorem refuse_acts {α : Type} (guest : Leg) (text : String) (err : Error) :
    Comp.ActsIn (puts guest) (refuse guest text err : Async α) := fun _ _ h => (refuse_runs h).1

/-! ### Telling messages apart -/

theorem message_unambiguous {m m' : Message} {u v : Bytes} (hm : m.Valid) (hm' : m'.Valid)
    (h : m.encode ++ u = m'.encode ++ v) : m = m' ∧ u = v := by
  obtain ⟨rfl, -, he⟩ := (readMessage_decodes .host).unambiguous ⟨hm, rfl⟩ ⟨hm', rfl⟩ h
  exact ⟨rfl, he⟩

/-- Where log messages end can be told from the message that follows them. -/
theorem logs_unambiguous {ms ms' : List Message} {m m' : Message} {u v : Bytes} (hms : Logs ms)
    (hms' : Logs ms') (hm : m.Valid) (hl : m.isLog = false) (hm' : m'.Valid)
    (hl' : m'.isLog = false)
    (h : encMessages ms ++ (m.encode ++ u) = encMessages ms' ++ (m'.encode ++ v)) :
    ms = ms' ∧ m = m' ∧ u = v := by
  induction ms generalizing ms' with
  | nil =>
    cases ms' with
    | nil =>
      rw [encMessages_nil, encMessages_nil] at h
      exact ⟨rfl, message_unambiguous hm hm' h⟩
    | cons x ms' =>
      obtain ⟨hx, hv⟩ := hms' x (.head _)
      rw [encMessages_nil, encMessages_cons] at h
      obtain ⟨rfl, -⟩ := message_unambiguous hm hv h
      rw [hx] at hl
      cases hl
  | cons x ms ih =>
    obtain ⟨hx, hv⟩ := hms x (.head _)
    cases ms' with
    | nil =>
      rw [encMessages_nil, encMessages_cons] at h
      obtain ⟨rfl, -⟩ := message_unambiguous hv hm' h
      rw [hx] at hl'
      cases hl'
    | cons y ms' =>
      rw [encMessages_cons, encMessages_cons] at h
      obtain ⟨rfl, h'⟩ := message_unambiguous hv (hms' y (.head _)).2 h
      obtain ⟨rfl, rfl, rfl⟩ := ih (fun z hz => hms z (.tail _ hz))
        (fun z hz => hms' z (.tail _ hz)) h'
      exact ⟨rfl, rfl, rfl⟩

theorem logs_prefix {ms ms' : List Message} {m m' : Message} {u v : Bytes} (hms : Logs ms)
    (hms' : Logs ms') (hm : m.Valid) (hl : m.isLog = false) (hm' : m'.Valid)
    (hl' : m'.isLog = false)
    (h : encMessages ms ++ (m.encode ++ u) <+: encMessages ms' ++ (m'.encode ++ v)) :
    ms = ms' ∧ m = m' ∧ u <+: v := by
  obtain ⟨z, hz⟩ := h
  rw [List.append_assoc, List.append_assoc] at hz
  obtain ⟨rfl, rfl, rfl⟩ := logs_unambiguous hms hms' hm hl hm' hl' hz
  exact ⟨rfl, rfl, List.prefix_append ..⟩

/-! ### Exchanges that complete -/

theorem Message.Valid.decoded {m : Message} (h : m.Valid) (host : Leg) :
    ∃ t, (readMessage host).Runs t (.ok m) ∧ Only clean t ∧ recvd host t = m.encode :=
  (readMessage_decodes host).complete ⟨h, rfl⟩

/-- A run of the relay can be put behind log messages. -/
theorem relayInner_logs (host guest : Leg) (forwardLast : Bool) {ms : List Message}
    (hms : Logs ms) :
    ∃ t, Only clean t ∧ Only (fun e => reads host e ∨ puts guest e) t ∧
      recvd host t = encMessages ms ∧ sent guest t = encMessages ms ∧
      ∀ fuel u r, (relayInner host guest forwardLast fuel).Runs u r →
        (relayInner host guest forwardLast (fuel + ms.length)).Runs (t ++ u) r := by
  induction ms with
  | nil => exact ⟨[], by simp, by simp, rfl, rfl, fun fuel u r h => h⟩
  | cons m ms ih =>
    obtain ⟨t₄, hc₄, ho₄, hr₄, hs₄, hrun⟩ := ih fun x hx => hms x (.tail _ hx)
    obtain ⟨hl, hv⟩ := hms m (.head _)
    obtain ⟨t₁, h₁, hc₁, -⟩ := hv.decoded host
    have hw := relayMessage_log guest forwardLast hl
    obtain ⟨t₂, h₂, hc₂⟩ := hw.complete
    obtain ⟨t₃, h₃, hc₃⟩ := (flush_emits guest).complete
    obtain ⟨-, hr, hs⟩ := Relayed.log_bytes h₁ hl h₂ h₃
    have ho : Only (fun e => reads host e ∨ puts guest e) (t₁ ++ (t₂ ++ t₃)) := by
      rw [only_append, only_append]
      exact ⟨((readMessage_decodes host).only h₁).mono fun _ => .inl,
        (hw.only h₂).mono fun _ => .inr, ((flush_emits guest).only h₃).mono fun _ => .inr⟩
    refine ⟨t₁ ++ (t₂ ++ t₃) ++ t₄, by simp [hc₁, hc₂, hc₃, hc₄], only_append.mpr ⟨ho, ho₄⟩,
      by rw [recvd_append, hr, hr₄]; simp [encMessages],
      by rw [sent_append, hs, hs₄]; simp [encMessages], fun fuel u r h => ?_⟩
    have hb : (relayInner host guest forwardLast (fuel + ms.length + 1)).Runs
        (t₁ ++ (t₂ ++ (t₃ ++ (t₄ ++ u)))) r := h₁.bind (h₂.bind (h₃.bind (hrun fuel u r h)))
    rw [List.append_assoc, List.append_assoc, List.append_assoc]
    exact hb

/-- Log messages and a terminal message from the host make the exchange end. -/
theorem relayInner_complete {host guest : Leg} {forwardLast : Bool} {ms : List Message}
    {m : Message} {term : Terminal} (hms : Logs ms) (hm : m.Valid)
    (ht : m.terminal = some term) :
    ∃ t, Only clean t ∧ recvd host t = encMessages ms ++ m.encode ∧
      sent guest t = encMessages ms ++ m.shown forwardLast ∧
      ∀ fuel, ms.length < fuel → (relayInner host guest forwardLast fuel).Runs t (.ok term) := by
  obtain ⟨t, hc, -, hr, hs, hrun⟩ := relayInner_logs host guest forwardLast hms
  obtain ⟨t₁, h₁, hc₁, hr₁⟩ := hm.decoded host
  have hw := relayMessage_terminal guest forwardLast ht
  obtain ⟨t₂, h₂, hc₂⟩ := hw.complete
  have hend : ∀ k, (relayInner host guest forwardLast (k + 1)).Runs (t₁ ++ (t₂ ++ []))
      (.ok term) := fun k => h₁.bind (h₂.bind ⟨rfl, rfl⟩)
  refine ⟨t ++ (t₁ ++ (t₂ ++ [])), by simp [hc, hc₁, hc₂], ?_, ?_, fun fuel hf => ?_⟩
  · simp [hr, hr₁, recvd_of_puts (hw.only h₂)]
  · simp [hs, (readMessage_decodes host).sent_nil h₁, (hw.sound h₂).2]
  · obtain ⟨k, rfl⟩ : ∃ k, fuel = k + 1 + ms.length := ⟨fuel - 1 - ms.length, by omega⟩
    exact hrun _ _ _ (hend k)

theorem Message.encode_length (m : Message) : 8 ≤ m.encode.length := by
  cases m <;> simp [encode]

/-- More fuel does no harm. -/
theorem relayInner_approximates {host guest : Leg} {forwardLast : Bool} {fuel fuel' : Nat}
    (hf : fuel ≤ fuel') : Comp.Approximates .exhausted (relayInner host guest forwardLast fuel)
      (relayInner host guest forwardLast fuel') := by
  induction fuel generalizing fuel' with
  | zero => exact .throw _
  | succ fuel ih =>
    obtain ⟨k, rfl⟩ : ∃ k, fuel' = k + 1 := ⟨fuel' - 1, by omega⟩
    refine .bind (.refl _) fun m => .bind (.refl _) fun o => ?_
    cases o with
    | some term => exact .refl _
    | none => exact .bind (.refl _) fun _ => ih (by omega)

/-- The loop bound is not reached before that many messages have come. -/
theorem relayInner_fuel {host guest : Leg} {forwardLast : Bool} {fuel : Nat} {t : IoTrace}
    (h : (relayInner host guest forwardLast fuel).Runs t (.error .exhausted)) :
    8 * fuel ≤ (recvd host t).length := by
  induction fuel generalizing t with
  | zero => simp
  | succ fuel ih =>
    rcases (Comp.runs_bind _).mp h with ⟨m, t₁, u, rfl, h₁, h⟩ | ⟨s, hs, h₁⟩
    · have hm := (readMessage_decodes host).sound h₁
      have h8 := m.encode_length
      rw [recvd_append, hm.2, List.length_append]
      rcases (Comp.runs_bind _).mp h with ⟨o, t₂, u, rfl, h₂, h⟩ | ⟨s, hs, h₂⟩
      · cases o with
        | some term => cases ((Comp.runs_pure _ _).mp h).2
        | none =>
          rcases (Comp.runs_bind _).mp h with ⟨x, t₃, t₄, rfl, h₃, h₄⟩ | ⟨s, hs, h₃⟩
          · have := ih h₄
            simp only [recvd_append, List.length_append]
            omega
          · exact absurd (Except.error.inj hs).symm (flush_terse guest _ _ h₃).ne_exhausted
      · exact absurd (Except.error.inj hs).symm
          (relayMessage_terse guest forwardLast m _ _ h₂).ne_exhausted
    · exact absurd (Except.error.inj hs).symm (readMessage_terse host _ _ h₁).ne_exhausted

/-! ### Draining -/

def pushMessage (logs : List String) : Message → List String
  | .next text => pushLog logs text
  | .startActivity _ _ _ text fields _ => pushFieldLogs (pushLog logs text) fields
  | .result _ _ fields => pushFieldLogs logs fields
  | _ => logs

/-- What draining returns for a terminal message behind the given logs. -/
def Message.drained (logs : List String) : Message → Option Drained
  | .last => some .last
  | .error e => some (.error (drainedError logs e))
  | _ => none

/-- A drain reads whole messages and returns what the terminal one stands for. -/
def Drains (host : Leg) (logs : List String) (t : IoTrace) (r : Except Stop Drained) : Prop :=
  Only (reads host) t ∧ ∀ d, r = .ok d → ∃ (ms : List Message) (m : Message), Logs ms ∧
    m.Valid ∧ m.drained (ms.foldl pushMessage logs) = some d ∧
    recvd host t = encMessages ms ++ m.encode

theorem Drains.log {host : Leg} {logs : List String} {m : Message} {t₁ t₂ : IoTrace}
    {r : Except Stop Drained} (h₁ : (readMessage host).Runs t₁ (.ok m)) (hl : m.isLog)
    (h₂ : Drains host (pushMessage logs m) t₂ r) : Drains host logs (t₁ ++ t₂) r := by
  obtain ⟨hv, he⟩ := (readMessage_decodes host).sound h₁
  refine ⟨only_append.mpr ⟨(readMessage_decodes host).only h₁, h₂.1⟩, fun d hr => ?_⟩
  obtain ⟨ms, m', hms, hm', hd', hrecv⟩ := h₂.2 d hr
  refine ⟨m :: ms, m', ?_, hm', hd', ?_⟩
  · rintro x (_ | ⟨_, hx⟩)
    · exact ⟨hl, hv⟩
    · exact hms x hx
  · rw [recvd_append, he, hrecv]
    simp [encMessages]

theorem Drains.terminal {host : Leg} {logs : List String} {m : Message} {t : IoTrace}
    {d : Drained} (h : (readMessage host).Runs t (.ok m)) (hd : m.drained logs = some d) :
    Drains host logs t (.ok d) := by
  obtain ⟨hv, he⟩ := (readMessage_decodes host).sound h
  refine ⟨(readMessage_decodes host).only h, fun d' hr => ⟨[], m, by simp [Logs], hv, ?_, he⟩⟩
  rw [← Except.ok.inj hr]
  exact hd

theorem Drains.stopped {host : Leg} {logs : List String} {t : IoTrace} {r : Except Stop Message}
    {s : Stop} (h : (readMessage host).Runs t r) : Drains host logs t (.error s) :=
  ⟨(readMessage_decodes host).only h, fun d hr => by cases hr⟩

theorem drainFrom_runs {host : Leg} {fuel : Nat} {logs : List String} {t : IoTrace}
    {r : Except Stop Drained} (h : (drainFrom host fuel logs).Runs t r) :
    Drains host logs t r := by
  induction fuel generalizing logs t with
  | zero =>
    obtain ⟨rfl, rfl⟩ := (Comp.runs_throw _ _).mp h
    exact ⟨by simp, fun d hd => by cases hd⟩
  | succ fuel ih =>
    rcases (Comp.runs_bind _).mp h with ⟨m, t₁, t₂, rfl, h₁, h₂⟩ | ⟨s, rfl, h₁⟩
    · have hend : ∀ {d : Drained}, m.drained logs = some d →
          (pure d : Async Drained).Runs t₂ r → Drains host logs (t₁ ++ t₂) r := by
        intro d hd h₂
        obtain ⟨rfl, rfl⟩ := (Comp.runs_pure _ _).mp h₂
        rw [List.append_nil]
        exact .terminal h₁ hd
      have hbail : ∀ {s : String}, (bail s : Async Drained).Runs t₂ r →
          Drains host logs (t₁ ++ t₂) r := by
        intro s h₂
        obtain ⟨rfl, rfl⟩ := (Comp.runs_throw _ _).mp h₂
        rw [List.append_nil]
        exact .stopped h₁
      cases m with
      | last => exact hend rfl h₂
      | error e => exact hend rfl h₂
      | next text => exact .log h₁ rfl (ih h₂)
      | startActivity id verbosity activityType text fields parent => exact .log h₁ rfl (ih h₂)
      | stopActivity id => exact .log h₁ rfl (ih h₂)
      | result id resultType fields => exact .log h₁ rfl (ih h₂)
      | streaming msg => exact hbail h₂
      | unknown msg => exact hbail h₂
    · exact .stopped h₁

theorem drainToTerminal_acts (fuel : Nat) (host : Leg) :
    Comp.ActsIn (reads host) (drainToTerminal fuel host) := fun _ _ h => (drainFrom_runs h).1

theorem drainToLast_acts (fuel : Nat) (host : Leg) :
    Comp.ActsIn (reads host) (drainToLast fuel host) :=
  (drainToTerminal_acts fuel host).bind fun d => by
    cases d with
    | last => exact .pure ()
    | error message => exact .throw _

/-- A run of the drain can be put behind log messages, which it collects. -/
theorem drainFrom_logs (host : Leg) {ms : List Message} (hms : Logs ms) (logs : List String) :
    ∃ t, Only clean t ∧ Only (reads host) t ∧ recvd host t = encMessages ms ∧
      ∀ fuel u r, (drainFrom host fuel (ms.foldl pushMessage logs)).Runs u r →
        (drainFrom host (fuel + ms.length) logs).Runs (t ++ u) r := by
  induction ms generalizing logs with
  | nil => exact ⟨[], by simp, by simp, rfl, fun fuel u r h => h⟩
  | cons m ms ih =>
    obtain ⟨t₂, hc₂, ho₂, hr₂, hrun⟩ := ih (fun x hx => hms x (.tail _ hx)) (pushMessage logs m)
    obtain ⟨hl, hv⟩ := hms m (.head _)
    obtain ⟨t₁, h₁, hc₁, hr₁⟩ := hv.decoded host
    refine ⟨t₁ ++ t₂, by simp [hc₁, hc₂],
      only_append.mpr ⟨(readMessage_decodes host).only h₁, ho₂⟩, by simp [hr₁, hr₂, encMessages],
      fun fuel u r h => ?_⟩
    have hgo := hrun fuel u r h
    rw [List.append_assoc]
    cases m with
    | next text => exact h₁.bind hgo
    | startActivity id verbosity activityType text fields parent => exact h₁.bind hgo
    | stopActivity id => exact h₁.bind hgo
    | result id resultType fields => exact h₁.bind hgo
    | last => cases hl
    | error e => cases hl
    | streaming msg => cases hl
    | unknown msg => cases hl

/-- Log messages and a terminal message end a drain. -/
theorem drainFrom_complete {host : Leg} {ms : List Message} {m : Message} {logs : List String}
    {d : Drained} (hms : Logs ms) (hm : m.Valid)
    (hd : m.drained (ms.foldl pushMessage logs) = some d) :
    ∃ t, Only clean t ∧ recvd host t = encMessages ms ++ m.encode ∧
      ∀ fuel, ms.length < fuel → (drainFrom host fuel logs).Runs t (.ok d) := by
  obtain ⟨t, hc, -, hr, hrun⟩ := drainFrom_logs host hms logs
  obtain ⟨t₁, h₁, hc₁, hr₁⟩ := hm.decoded host
  have hend : ∀ k, (drainFrom host (k + 1) (ms.foldl pushMessage logs)).Runs (t₁ ++ [])
      (.ok d) := by
    refine fun k => h₁.bind ?_
    cases m with
    | last => exact ⟨rfl, by rw [← Option.some.inj hd]⟩
    | error e => exact ⟨rfl, by rw [← Option.some.inj hd]⟩
    | next text => cases hd
    | startActivity id verbosity activityType text fields parent => cases hd
    | stopActivity id => cases hd
    | result id resultType fields => cases hd
    | streaming msg => cases hd
    | unknown msg => cases hd
  refine ⟨t ++ (t₁ ++ []), by simp [hc, hc₁], by simp [hr, hr₁], fun fuel hf => ?_⟩
  obtain ⟨k, rfl⟩ : ∃ k, fuel = k + 1 + ms.length := ⟨fuel - 1 - ms.length, by omega⟩
  exact hrun _ _ _ (hend k)

theorem drainFrom_approximates {host : Leg} {fuel fuel' : Nat} (logs : List String)
    (hf : fuel ≤ fuel') :
    Comp.Approximates .exhausted (drainFrom host fuel logs) (drainFrom host fuel' logs) := by
  induction fuel generalizing fuel' logs with
  | zero => exact .throw _
  | succ fuel ih =>
    obtain ⟨k, rfl⟩ : ∃ k, fuel' = k + 1 := ⟨fuel' - 1, by omega⟩
    refine .bind (.refl _) fun m => ?_
    cases m with
    | last => exact .refl _
    | error e => exact .refl _
    | next text => exact ih _ (by omega)
    | startActivity id verbosity activityType text fields parent => exact ih _ (by omega)
    | stopActivity id => exact ih _ (by omega)
    | result id resultType fields => exact ih _ (by omega)
    | streaming msg => exact .refl _
    | unknown msg => exact .refl _

theorem drainFrom_fuel {host : Leg} {fuel : Nat} {logs : List String} {t : IoTrace}
    (h : (drainFrom host fuel logs).Runs t (.error .exhausted)) :
    8 * fuel ≤ (recvd host t).length := by
  induction fuel generalizing t logs with
  | zero => simp
  | succ fuel ih =>
    rcases (Comp.runs_bind _).mp h with ⟨m, t₁, t₂, rfl, h₁, h₂⟩ | ⟨s, hs, h₁⟩
    · have hm := ((readMessage_decodes host).sound h₁).2
      have h8 := m.encode_length
      have hgo : ∀ {logs : List String},
          (drainFrom host fuel logs).Runs t₂ (.error .exhausted) →
          8 * (fuel + 1) ≤ (recvd host (t₁ ++ t₂)).length := by
        intro logs h
        have hi := ih h
        rw [recvd_append, List.length_append, hm]
        omega
      cases m with
      | last => cases ((Comp.runs_pure _ _).mp h₂).2
      | error e => cases ((Comp.runs_pure _ _).mp h₂).2
      | next text => exact hgo h₂
      | startActivity id verbosity activityType text fields parent => exact hgo h₂
      | stopActivity id => exact hgo h₂
      | result id resultType fields => exact hgo h₂
      | streaming msg => cases ((Comp.runs_throw _ _).mp h₂).2
      | unknown msg => cases ((Comp.runs_throw _ _).mp h₂).2
    · exact absurd (Except.error.inj hs).symm (readMessage_terse host _ _ h₁).ne_exhausted

end Claudepod
