import Claudepod.HostGrammar

/-! What the guest is told about the validity of a path, and what the host has said for it,
in every run of the interception, complete or not. -/

set_option autoImplicit false

namespace Claudepod
open Interaction

/-- Of the two connections of the session, and so of no fill. -/
def onSession (e : IoEvent) : Prop :=
  (reads .guest e ∨ puts .host e) ∨ (reads .host e ∨ puts .guest e)

/-- What the guest is sent behind log messages when its question came to no word: nothing,
the host's error, or an error of the proxy's own, which is none of the host's. -/
inductive Ending (fromHost : Bytes) (logs : List Message) : Bytes → Prop
  | none : encMessages logs <+: fromHost → Ending fromHost logs []
  | theirs {e : ErrorPayload} : e.Valid → fromHost = (Reply.error logs e).encode →
      Ending fromHost logs (Message.error e).encode
  | ours {text : String} : text.utf8ByteSize ≤ 2048 → encMessages logs <+: fromHost →
      (∀ logs' e, Logs logs' → ErrorPayload.Valid e → fromHost ≠ (Reply.error logs' e).encode) →
      Ending fromHost logs (Message.error (syntheticError text)).encode

/-- The host's first reply is in, and its word is held back. -/
def answeredFlow (path : Bytes) (logs : List Message) (w : UInt64) : Flow :=
  ⟨encString path, (Request.isValidPath path).encode, (Reply.last logs (le64 w)).encode,
    encMessages logs, []⟩

def refusedFlow (path : Bytes) (logs : List Message) (e : ErrorPayload) : Flow :=
  ⟨encString path, (Request.isValidPath path).encode, (Reply.error logs e).encode,
    (Reply.error logs e).encode, []⟩

/-- The ways serving an `IsValidPath` can go. -/
inductive Intercepted (setup : Setup) : IoTrace → Except Stop Unit → Prop
  | unposed {t : IoTrace} {s : Stop} {logs : List Message} {tail : Bytes} : Only onSession t →
      Logs logs → sent .guest t <+: encMessages logs ++ tail → Ending (recvd .host t) logs tail →
      Intercepted setup t (.error s)
  | refused {t : IoTrace} {r : Except Stop Unit} {path : Bytes} {logs : List Message}
      {e : ErrorPayload} : Only onSession t → Logs logs → e.Valid →
      flow t = refusedFlow path logs e → Intercepted setup t r
  | unjudged {t₁ t₂ : IoTrace} {s : Stop} {path : Bytes} {logs : List Message} {w : UInt64} :
      Logs logs → flow t₁ = answeredFlow path logs w → sent .guest t₂ = [] →
      Intercepted setup (t₁ ++ t₂) (.error s)
  | told {t₁ t₂ t₃ : IoTrace} {r : Except Stop Unit} {path : Bytes} {logs : List Message}
      {w : UInt64} {valid : Bool} {x : Bytes} : Logs logs → flow t₁ = answeredFlow path logs w →
      Judged setup path w t₂ valid → flow t₃ = ⟨[], [], [], x, []⟩ →
      x <+: le64 stderrLast ++ validWord valid →
      (r = .ok () → x = le64 stderrLast ++ validWord valid) →
      Intercepted setup (t₁ ++ (t₂ ++ t₃)) r

theorem Posed.prepend {path : Bytes} {answer : Option UInt64} {t₁ t₂ : IoTrace}
    (h₁ : flow t₁ = ⟨[], le64 Op.isValidPath.word, [], [], []⟩) (h : Posed path answer t₂) :
    (answer = none ∧ ∃ logs e, Logs logs ∧ ErrorPayload.Valid e ∧
        flow (t₁ ++ t₂) = refusedFlow path logs e) ∨
      ∃ logs w, answer = some w ∧ Logs logs ∧ flow (t₁ ++ t₂) = answeredFlow path logs w := by
  cases h with
  | @refused t₂ logs e hl he hf =>
    refine .inl ⟨rfl, logs, e, hl, he, ?_⟩
    rw [flow_append, h₁, hf, Flow.toHost_append, ← isValidPath_encode]
    rfl
  | @answered t₂ logs w hl hf =>
    refine .inr ⟨logs, w, rfl, hl, ?_⟩
    rw [flow_append, h₁, hf, Flow.toHost_append, ← isValidPath_encode]
    rfl

theorem poseIsValidPath_acts (fuel : Nat) : Comp.ActsIn onSession (poseIsValidPath fuel) := by
  have hargs : Comp.ActsIn onSession relayIsValidPathArgs :=
    (copyPath_copies.acts.mono fun _ => .inl).mapStop.attempt.bind fun
      | .ok a => .pure a
      | .error _ => (refuse_acts .guest _ _).mono fun _ he => .inr (.inr he)
  refine hargs.bind fun path => ((flush_emits .host).acts.mono fun _ he => .inl (.inr he)).bind
    fun _ => ((relayInner_acts .host .guest false fuel).mono fun _ => .inr).mapStop.bind
    fun terminal => .ite (.pure _) ?_
  exact ((readU64_decodes .host).acts.mono fun _ he => .inr (.inl he)).mapStop.bind fun _ => .pure _

theorem reply_error (logs : List Message) (e : ErrorPayload) :
    (Reply.error logs e).encode = encMessages logs ++ (Message.error e).encode := rfl

theorem Ending.of_args {text : String} (h : text.utf8ByteSize ≤ 2048) :
    Ending [] [] (Message.error (syntheticError text)).encode := by
  refine .ours h List.nil_prefix fun logs e _ _ he => ?_
  have hl := congrArg List.length he
  have h8 := (Message.error e).encode_length
  rw [reply_error, List.length_append, List.length_nil] at hl
  omega

/-- What a relay that fails has left the guest with. -/
theorem Relayed.ending {t : IoTrace} {s : Stop} (h : Relayed .host .guest false t (.error s)) :
    ∃ logs tail, Logs logs ∧ sent .guest t <+: encMessages logs ++ tail ∧
      Ending (recvd .host t) logs tail := by
  obtain ⟨logs, tail, hl, hp, ⟨rfl, hx⟩ | ⟨m, hv, hm, he, ht⟩⟩ := h.stopped
  · exact ⟨logs, [], hl, hp, .none hx⟩
  have hx : encMessages logs <+: recvd .host t := by
    rw [he]
    exact List.prefix_append ..
  refine ⟨logs, tail, hl, hp, ?_⟩
  rcases ht with ⟨err, herr, rfl⟩ | ⟨⟨term, ht⟩, rfl⟩
  · refine .ours (Nat.le_trans (Message.violation_size herr) (by decide)) hx
      fun logs' e hl' hv' hr => ?_
    rw [he, ← List.append_nil m.encode, reply_error,
      ← List.append_nil (Message.error e).encode] at hr
    obtain ⟨-, rfl, -⟩ := logs_unambiguous hl hl' hv hm (show Message.Valid (.error e) from hv')
      rfl hr
    cases herr
  · rcases terminal_cases ht with ⟨rfl, -⟩ | ⟨e, rfl, -⟩
    · exact .none hx
    · exact .theirs hv he

/-- What the guest has seen of a question that was not answered. -/
theorem poseIsValidPath_stopped {fuel : Nat} {t : IoTrace} {s : Stop}
    (h : (poseIsValidPath fuel).Runs t (.error s)) :
    ∃ logs tail, Logs logs ∧ sent .guest t <+: encMessages logs ++ tail ∧
      Ending (recvd .host t) logs tail := by
  have hargs : ∀ {t r}, Comp.Runs copyPath t r → sent .guest t = [] ∧ recvd .host t = [] :=
    fun h => ⟨(copyPath_copies.silent (by decide)).sent_nil h,
      recvd_other (copyPath_copies.only h) (by decide)⟩
  have hflush : ∀ {t r}, (flush .host).Runs t r → sent .guest t = [] ∧ recvd .host t = [] :=
    fun h => ⟨(flush_silent .guest .host).sent_nil h, recvd_of_puts ((flush_emits .host).only h)⟩
  rcases (Comp.runs_bind _).mp h with ⟨path, t₁, u, rfl, h₁, h⟩ | ⟨s, -, h₁⟩
  · rw [relayIsValidPathArgs_eq] at h₁
    rcases orSyntheticError_runs copyPath_terse (by decide) h₁ with ⟨a, -, h₁⟩ | ⟨s, hs, -⟩
    swap
    · cases hs
    rw [sent_append, recvd_append, (hargs h₁).1, (hargs h₁).2, List.nil_append, List.nil_append]
    rcases (Comp.runs_bind _).mp h with ⟨⟨⟩, t₂, u, rfl, h₂, h⟩ | ⟨s, -, h₂⟩
    swap
    · refine ⟨[], [], by simp [Logs], ?_, .none List.nil_prefix⟩
      rw [(hflush h₂).1]
      exact List.nil_prefix
    rw [sent_append, recvd_append, (hflush h₂).1, (hflush h₂).2, List.nil_append, List.nil_append]
    rcases (Comp.runs_bind _).mp h with ⟨term, t₃, t₄, rfl, h₃, h₄⟩ | ⟨s, -, h₃⟩
    swap
    · obtain ⟨s', h₃, -⟩ := (Comp.runs_mapStop_error _ _).mp h₃
      exact (relayInner_runs h₃).ending
    obtain ⟨logs, m, hl, -, ht, hrecv, hsent⟩ :=
      (relayInner_runs ((Comp.runs_mapStop_ok _ _).mp h₃)).ok
    have hword : m = .last ∧ sent .guest t₄ = [] := by
      rcases terminal_cases ht with ⟨rfl, rfl⟩ | ⟨e, rfl, rfl⟩
      · rcases (Comp.runs_bind _).mp h₄ with ⟨w, t₅, t₆, rfl, h₅, h₆⟩ | ⟨s, -, h₅⟩
        · cases ((Comp.runs_pure _ _).mp h₆).2
        · exact ⟨rfl, ((readU64_decodes .host).mapStop _).sent_nil h₅⟩
      · cases ((Comp.runs_pure _ _).mp h₄).2
    obtain ⟨rfl, hs₄⟩ := hword
    refine ⟨logs, [], hl, ?_, .none ?_⟩
    · rw [sent_append, hsent, hs₄, List.append_nil]
      exact List.prefix_rfl
    · rw [recvd_append, hrecv, List.append_assoc]
      exact List.prefix_append ..
  · rw [relayIsValidPathArgs_eq] at h₁
    rcases orSyntheticError_runs copyPath_terse (by decide) h₁ with ⟨a, ha, -⟩ | ⟨s, -, h₁⟩
    · cases ha
    obtain ⟨t₁, t₂, s₁, text, rfl, h₁, htext, ho, hp, -⟩ := h₁.split
    refine ⟨[], (Message.error (syntheticError text)).encode, by simp [Logs], ?_, ?_⟩
    · rw [sent_append, (hargs h₁).1, List.nil_append, encMessages_nil]
      exact hp
    · rw [recvd_append, (hargs h₁).2, recvd_of_puts ho]
      exact .of_args htext

theorem judgeIsValidPath_silent (setup : Setup) (path : Bytes) (w : UInt64) :
    Silent .guest (judgeIsValidPath setup path w) :=
  silent_of_acts (judgeIsValidPath_acts setup path w) fun _ he => he.elim
    (not_writesTo_of_elsewhere (.inl rfl)) fun he => not_writesTo he (by decide)

theorem serveOp_intercepts {setup : Setup} {n : Negotiated} {t : IoTrace} {r : Except Stop Unit}
    (h : (serveOp setup n Op.isValidPath.word).Runs t r) : Intercepted setup t r := by
  rw [serveOp_intercepted, interceptIsValidPath_eq] at h
  have hw := writeU64_emits .host Op.isValidPath.word
  have hwo : ∀ {t r}, (writeU64 .host Op.isValidPath.word).Runs t r → Only onSession t := fun h =>
    (hw.only h).mono fun _ he => .inl (.inr he)
  rcases (Comp.runs_bind _).mp h with ⟨⟨⟩, t₁, u, rfl, h₁, h⟩ | ⟨s, rfl, h₁⟩
  swap
  · have hs : sent .guest t <+: encMessages [] ++ [] := by
      rw [(hw.silent (by decide)).sent_nil h₁]
      exact List.nil_prefix
    exact .unposed (hwo h₁) (by simp [Logs]) hs (.none List.nil_prefix)
  have hf₁ : flow t₁ = ⟨[], le64 Op.isValidPath.word, [], [], []⟩ := by
    rw [flow_write_host hw h₁, (hw.sound h₁).2]
  have hunposed : ∀ {u s}, (poseIsValidPath setup.fuel).Runs u (.error s) →
      Intercepted setup (t₁ ++ u) (.error s) := fun {v _} h => by
    obtain ⟨logs, tail, hl, hp, ht⟩ := poseIsValidPath_stopped h
    have hs : sent .guest (t₁ ++ v) <+: encMessages logs ++ tail := by
      rwa [sent_append, (hw.silent (by decide)).sent_nil h₁, List.nil_append]
    refine .unposed (only_append.mpr ⟨hwo h₁, poseIsValidPath_acts _ _ _ h⟩) hl hs ?_
    rwa [recvd_append, recvd_of_puts (hw.only h₁), List.nil_append]
  have hw₆ : ∀ valid {t r}, (writeIsValidPathResult valid).Runs t r →
      flow t = ⟨[], [], [], sent .guest t, []⟩ := fun valid _ _ h =>
    flow_write_guest (writeIsValidPathResult_emits valid) h
  rcases (Comp.runs_bind _).mp h with ⟨⟨⟩, u, t₄, rfl, h', h₄⟩ | ⟨s, rfl, h'⟩
  · obtain ⟨⟨path, answer⟩, t₂, t₃, rfl, h₂, h₃⟩ := (Comp.runs_bind_ok _).mp h'
    rcases (poseIsValidPath_ok h₂).2.prepend hf₁ with ⟨rfl, logs, e, hl, he, hf⟩ |
      ⟨logs, w, rfl, hl, hf⟩
    · obtain ⟨rfl, -⟩ := (Comp.runs_pure _ _).mp h₃
      have hr : flow (t₁ ++ ((t₂ ++ []) ++ t₄)) = refusedFlow path logs e := by
        rw [List.append_nil, ← List.append_assoc, flow_append, hf, flow_flush h₄, Flow.append_nil]
      refine .refused ?_ hl he hr
      simp only [only_append]
      exact ⟨hwo h₁, ⟨poseIsValidPath_acts _ _ _ h₂, only_nil⟩,
        ((flush_emits .guest).only h₄).mono fun _ he => .inr (.inr he)⟩
    · obtain ⟨valid, t₅, t₆, rfl, h₅, h₆⟩ := (Comp.runs_bind_ok _).mp h₃
      have hv := writeIsValidPathResult_emits valid
      have ht : t₁ ++ ((t₂ ++ (t₅ ++ t₆)) ++ t₄) = (t₁ ++ t₂) ++ (t₅ ++ (t₆ ++ t₄)) := by simp
      rw [ht]
      refine .told hl hf (judgeIsValidPath_ok h₅) (x := sent .guest t₆) ?_ (hv.sent_part h₆)
        fun _ => (hv.sound h₆).2
      rw [flow_append, hw₆ valid h₆, flow_flush h₄, Flow.append_nil]
  · rcases (Comp.runs_bind _).mp h' with ⟨⟨path, answer⟩, t₂, t₃, rfl, h₂, h₃⟩ | ⟨s', hs, h₂⟩
    swap
    · obtain rfl := Except.error.inj hs
      exact hunposed h₂
    rcases (poseIsValidPath_ok h₂).2.prepend hf₁ with ⟨rfl, -⟩ | ⟨logs, w, rfl, hl, hf⟩
    · cases ((Comp.runs_pure _ _).mp h₃).2
    rw [← List.append_assoc]
    rcases (Comp.runs_bind _).mp h₃ with ⟨valid, t₅, t₆, rfl, h₅, h₆⟩ | ⟨s, -, h₅⟩
    · exact .told hl hf (judgeIsValidPath_ok h₅) (hw₆ valid h₆)
        ((writeIsValidPathResult_emits valid).sent_part h₆) nofun
    · exact .unjudged hl hf ((judgeIsValidPath_silent setup path w).sent_nil h₅)

/-! ### What can be read off the bytes -/

theorem last_encode : Message.last.encode = le64 stderrLast := rfl

/-- An answer within what the guest is sent is all that is behind the log messages. -/
theorem word_prefix {logs logs' : List Message} {m : Message} {v : UInt64} {y : Bytes}
    (hl : Logs logs) (hl' : Logs logs') (hv : m.Valid) (hm : m.isLog = false)
    (h : encMessages logs ++ (le64 stderrLast ++ le64 v) <+: encMessages logs' ++ (m.encode ++ y)) :
    m = .last ∧ le64 v <+: y := by
  rw [← last_encode] at h
  obtain ⟨-, rfl, hp⟩ := logs_prefix hl hl' (m := .last) trivial rfl hv hm h
  exact ⟨rfl, hp⟩

theorem error_prefix {logs logs' : List Message} {m : Message} {e : ErrorPayload} {y : Bytes}
    (hl : Logs logs) (hl' : Logs logs') (he : e.Valid) (hv : m.Valid) (hm : m.isLog = false)
    (h : (Reply.error logs e).encode <+: encMessages logs' ++ (m.encode ++ y)) :
    logs = logs' ∧ m = .error e := by
  rw [reply_error, ← List.append_nil (Message.error e).encode] at h
  obtain ⟨rfl, rfl, -⟩ := logs_prefix hl hl' (m := .error e) he rfl hv hm h
  exact ⟨rfl, rfl⟩

/-- The host has said, last of all, that the path is valid; it was asked for these bytes each
time, and twice at most. -/
def HostConfirms (path : Bytes) (t : IoTrace) : Prop :=
  (∃ logs w, Logs logs ∧ w ≠ 0 ∧ sent .host t = (Request.isValidPath path).encode ∧
    recvd .host t = (Reply.last logs (le64 w)).encode) ∨
  ∃ logs logs' w, Logs logs ∧ Logs logs' ∧ w ≠ 0 ∧
    sent .host t = (Request.isValidPath path).encode ++ (Request.isValidPath path).encode ∧
    recvd .host t = (Reply.last logs (le64 0)).encode ++ (Reply.last logs' (le64 w)).encode

/-- The host has said that the path is not valid, and the path may not be filled, or the fill
failed, or the host, asked for the same bytes again, said 0 or an error. -/
def HostDenies (setup : Setup) (path : Bytes) (t : IoTrace) : Prop :=
  ∃ logs, Logs logs ∧
    ((sent .host t = (Request.isValidPath path).encode ∧
        recvd .host t = (Reply.last logs (le64 0)).encode ∧
        (fillable setup.nixRunRoots path = false ∨ ∃ e, Filled setup path t (.error e))) ∨
      ∃ again : Reply, Filled setup path t (.ok ()) ∧
        ((∃ logs', Logs logs' ∧ again = .last logs' (le64 0)) ∨
          ∃ logs' e, Logs logs' ∧ ErrorPayload.Valid e ∧ again = .error logs' e) ∧
        sent .host t = (Request.isValidPath path).encode ++ (Request.isValidPath path).encode ∧
        recvd .host t = (Reply.last logs (le64 0)).encode ++ again.encode)

/-- What the guest is sent behind the log messages of the host's first reply. -/
inductive Marker : Bytes → Prop
  | word (valid : Bool) : Marker (le64 stderrLast ++ validWord valid)
  | error {e : ErrorPayload} : e.Valid → Marker (Message.error e).encode

/-- What serving an `IsValidPath` tells the guest, and why. -/
structure SoundAnswer (setup : Setup) (t : IoTrace) (r : Except Stop Unit) : Prop where
  valid : ∀ logs, Logs logs →
    encMessages logs ++ (le64 stderrLast ++ le64 1) <+: sent .guest t →
    ∃ path, recvd .guest t = encString path ∧ HostConfirms path t
  invalid : ∀ logs, Logs logs →
    encMessages logs ++ (le64 stderrLast ++ le64 0) <+: sent .guest t →
    ∃ path, recvd .guest t = encString path ∧ HostDenies setup path t
  /-- The host's error is what the guest is sent, and nothing is filled. -/
  refused : ∀ logs e, Logs logs → ErrorPayload.Valid e →
    recvd .host t = (Reply.error logs e).encode →
    Only onSession t ∧ sent .guest t <+: (Reply.error logs e).encode ∧
      (r = .ok () → sent .guest t = (Reply.error logs e).encode)
  /-- An error the guest is sent is the host's, or the proxy's own and the session is over. -/
  genuine : ∀ logs e, Logs logs → ErrorPayload.Valid e →
    (Reply.error logs e).encode <+: sent .guest t →
    recvd .host t = (Reply.error logs e).encode ∨ r ≠ .ok () ∧ ∃ text, e = syntheticError text
  /-- Nothing but the log messages of the first reply and one marker. -/
  marked : ∃ logs tail, Logs logs ∧ encMessages logs <+: recvd .host t ∧ Marker tail ∧
    sent .guest t <+: encMessages logs ++ tail ∧
    (r = .ok () → sent .guest t = encMessages logs ++ tail ∧
      ∃ first : Reply, first.logs = logs ∧ first.encode <+: recvd .host t)

section Answers

variable {setup : Setup} {t : IoTrace} {r : Except Stop Unit} {logs : List Message} {m : Message}
  {y : Bytes}

/-- Nothing the guest is sent here reads as an answer. -/
theorem not_answered (hl : Logs logs) (hv : m.Valid) (hm : m.isLog = false)
    (hs : sent .guest t <+: encMessages logs ++ (m.encode ++ y))
    (hn : m = .last → y = []) {logs' : List Message} {v : UInt64} (hl' : Logs logs')
    (h : encMessages logs' ++ (le64 stderrLast ++ le64 v) <+: sent .guest t) : False := by
  obtain ⟨rfl, hp⟩ := word_prefix hl' hl hv hm (h.trans hs)
  have hlen := hp.length_le
  rw [hn rfl, le64_length] at hlen
  simp at hlen

theorem refusedFlow_sound {path : Bytes} {e : ErrorPayload} (ho : Only onSession t)
    (hl : Logs logs) (he : e.Valid) (hf : flow t = refusedFlow path logs e) :
    SoundAnswer setup t r := by
  have hsent : sent .guest t = (Reply.error logs e).encode := congrArg Flow.toGuest hf
  have hrecv : recvd .host t = (Reply.error logs e).encode := congrArg Flow.fromHost hf
  have hs : sent .guest t = encMessages logs ++ ((Message.error e).encode ++ []) := by
    rw [hsent, reply_error, List.append_nil]
  have hno : ∀ {logs' : List Message} {v : UInt64}, Logs logs' →
      ¬ encMessages logs' ++ (le64 stderrLast ++ le64 v) <+: sent .guest t := fun hl' =>
    not_answered hl (m := .error e) he rfl (by rw [hs]) nofun hl'
  refine ⟨fun _ hl' h => (hno hl' h).elim, fun _ hl' h => (hno hl' h).elim, ?_, ?_, ?_⟩
  · intro logs' e' _ _ h
    rw [hsent, ← hrecv, h]
    exact ⟨ho, List.prefix_rfl, fun _ => rfl⟩
  · intro logs' e' hl' he' h
    rw [hs] at h
    obtain ⟨rfl, hm⟩ := error_prefix hl' hl he' (m := .error e) he rfl h
    obtain rfl := Message.error.inj hm
    exact .inl hrecv
  · refine ⟨logs, _, hl, ?_, .error he, ?_, fun _ => ⟨?_, .error logs e, rfl, ?_⟩⟩
    · rw [hrecv, reply_error]
      exact List.prefix_append ..
    · rw [hsent, reply_error]
    · rw [hsent, reply_error]
    · rw [hrecv]

theorem unposed_sound {s : Stop} {tail : Bytes} (ho : Only onSession t) (hl : Logs logs)
    (hs : sent .guest t <+: encMessages logs ++ tail) (ht : Ending (recvd .host t) logs tail) :
    SoundAnswer setup t (.error s) := by
  -- Whatever the ending, one message bounds what the guest is sent.
  have hmark : ∃ m : Message, m.Valid ∧ m.isLog = false ∧ Marker (m.encode ++
      if m = .last then le64 0 else []) ∧ tail <+: m.encode ++ [] ∧
      (∀ e, m = .error e → recvd .host t = (Reply.error logs e).encode ∨
        ∃ text, e = syntheticError text) := by
    cases ht with
    | none _ => exact ⟨.last, trivial, rfl, .word false, List.nil_prefix, nofun⟩
    | @theirs e he hr =>
      refine ⟨.error e, he, rfl, ?_, ?_, ?_⟩
      · rw [if_neg nofun, List.append_nil]
        exact .error he
      · rw [List.append_nil]
      · rintro _ ⟨⟩
        exact .inl hr
    | @ours text h _ _ =>
      refine ⟨.error (syntheticError text), syntheticError_valid h, rfl, ?_, ?_, ?_⟩
      · rw [if_neg nofun, List.append_nil]
        exact .error (syntheticError_valid h)
      · rw [List.append_nil]
      · rintro _ ⟨⟩
        exact .inr ⟨text, rfl⟩
  obtain ⟨m, hv, hm, hmarker, htail, herr⟩ := hmark
  have hp : sent .guest t <+: encMessages logs ++ (m.encode ++ []) :=
    hs.trans ((List.prefix_append_right_inj _).mpr htail)
  have hno : ∀ {logs' : List Message} {v : UInt64}, Logs logs' →
      ¬ encMessages logs' ++ (le64 stderrLast ++ le64 v) <+: sent .guest t := fun hl' =>
    not_answered hl hv hm hp (fun _ => rfl) hl'
  have hx : encMessages logs <+: recvd .host t := by
    cases ht with
    | none h => exact h
    | theirs _ h =>
      rw [h, reply_error]
      exact List.prefix_append ..
    | ours _ h _ => exact h
  refine ⟨fun _ hl' h => (hno hl' h).elim, fun _ hl' h => (hno hl' h).elim, ?_, ?_, ?_⟩
  · intro logs' e' hl' he' h
    refine ⟨ho, ?_, nofun⟩
    cases ht with
    | none h' =>
      rw [List.append_nil] at hs
      exact hs.trans (h ▸ h')
    | theirs he hr => rwa [← h, hr, reply_error]
    | ours _ _ hn => exact absurd h (hn _ _ hl' he')
  · intro logs' e' hl' he' h
    obtain ⟨rfl, rfl⟩ := error_prefix hl' hl he' hv hm (h.trans hp)
    exact (herr _ rfl).imp id fun hx => ⟨nofun, hx⟩
  · refine ⟨logs, _, hl, hx, hmarker, ?_, nofun⟩
    exact hs.trans ((List.prefix_append_right_inj _).mpr
      ((List.append_nil m.encode ▸ htail).trans (List.prefix_append ..)))

/-- Behind a word of the host's, its bytes are no error. -/
theorem not_refused {w : UInt64} {x : Bytes} (hl : Logs logs)
    (hr : recvd .host t = (Reply.last logs (le64 w)).encode ++ x) {logs' : List Message}
    {e : ErrorPayload} (hl' : Logs logs') (he : e.Valid) :
    recvd .host t ≠ (Reply.error logs' e).encode := by
  intro h
  rw [hr, reply_last, reply_error, ← last_encode, List.append_assoc, List.append_assoc,
    ← List.append_nil (Message.error e).encode] at h
  obtain ⟨-, hm, -⟩ := logs_unambiguous hl hl' (m := .last) trivial rfl
    (show Message.Valid (.error e) from he) rfl h
  cases hm

theorem answered_marked {path : Bytes} {w : UInt64} {t₁ t₂ : IoTrace} {x : Bytes}
    (valid : Bool) (hl : Logs logs) (hf : flow t₁ = answeredFlow path logs w)
    (hs : sent .guest t₂ = x) (hx : x <+: le64 stderrLast ++ validWord valid)
    (hr : r = .ok () → x = le64 stderrLast ++ validWord valid) :
    ∃ logs tail, Logs logs ∧ encMessages logs <+: recvd .host (t₁ ++ t₂) ∧ Marker tail ∧
      sent .guest (t₁ ++ t₂) <+: encMessages logs ++ tail ∧
      (r = .ok () → sent .guest (t₁ ++ t₂) = encMessages logs ++ tail ∧
        ∃ first : Reply, first.logs = logs ∧ first.encode <+: recvd .host (t₁ ++ t₂)) := by
  have hrecv : recvd .host t₁ = (Reply.last logs (le64 w)).encode := congrArg Flow.fromHost hf
  have hsent : sent .guest t₁ = encMessages logs := congrArg Flow.toGuest hf
  refine ⟨logs, _, hl, ?_, .word valid, ?_, fun hok => ⟨?_, .last logs (le64 w), rfl, ?_⟩⟩
  · rw [recvd_append, hrecv, reply_last, List.append_assoc]
    exact List.prefix_append ..
  · rw [sent_append, hsent, hs]
    exact (List.prefix_append_right_inj _).mpr hx
  · rw [sent_append, hsent, hs, hr hok]
  · rw [recvd_append, hrecv]
    exact List.prefix_append ..

theorem unjudged_sound {path : Bytes} {w : UInt64} {t₁ t₂ : IoTrace} {s : Stop} (hl : Logs logs)
    (hf : flow t₁ = answeredFlow path logs w) (hs : sent .guest t₂ = []) :
    SoundAnswer setup (t₁ ++ t₂) (.error s) := by
  have hrecv : recvd .host (t₁ ++ t₂) = (Reply.last logs (le64 w)).encode ++ recvd .host t₂ := by
    rw [recvd_append, show recvd .host t₁ = _ from congrArg Flow.fromHost hf]
    rfl
  have hp : sent .guest (t₁ ++ t₂) <+: encMessages logs ++ (Message.last.encode ++ []) := by
    rw [sent_append, hs, List.append_nil, show sent .guest t₁ = encMessages logs from
      congrArg Flow.toGuest hf]
    exact List.prefix_append ..
  have hno : ∀ {logs' : List Message} {v : UInt64}, Logs logs' →
      ¬ encMessages logs' ++ (le64 stderrLast ++ le64 v) <+: sent .guest (t₁ ++ t₂) := fun hl' =>
    not_answered hl (m := .last) trivial rfl hp (fun _ => rfl) hl'
  refine ⟨fun _ hl' h => (hno hl' h).elim, fun _ hl' h => (hno hl' h).elim, ?_, ?_, ?_⟩
  · exact fun _ _ hl' he' h => absurd h (not_refused hl hrecv hl' he')
  · intro logs' e' hl' he' h
    obtain ⟨-, hm⟩ := error_prefix hl' hl he' (m := .last) trivial rfl (h.trans hp)
    cases hm
  · exact answered_marked false hl hf hs List.nil_prefix nofun

theorem told_sound {path : Bytes} {w : UInt64} {valid : Bool} {t₁ t₂ t₃ : IoTrace} {x : Bytes}
    (hl : Logs logs) (hf₁ : flow t₁ = answeredFlow path logs w)
    (hj : Judged setup path w t₂ valid) (hf₃ : flow t₃ = ⟨[], [], [], x, []⟩)
    (hx : x <+: le64 stderrLast ++ validWord valid)
    (hr : r = .ok () → x = le64 stderrLast ++ validWord valid) :
    SoundAnswer setup (t₁ ++ (t₂ ++ t₃)) r := by
  obtain ⟨again, fill, hd, hf₂, hfill, -⟩ := hj.decided
  have hfilled : ∀ o, fill = some o → Filled setup path (t₁ ++ (t₂ ++ t₃)) o := fun o ho =>
    (hfill o ho).mono
  have hf : flow (t₁ ++ (t₂ ++ t₃)) = ⟨encString path, (Request.isValidPath path).encode ++
      again.flatMap fun _ => (Request.isValidPath path).encode,
      (Reply.last logs (le64 w)).encode ++ again.flatMap Reply.encode, encMessages logs ++ x,
      asks t₂⟩ := by
    rw [flow_append, flow_append, hf₁, hf₂, hf₃, answeredFlow, Flow.append_mk, Flow.append_mk]
    simp only [List.append_nil, List.nil_append]
  have hguest : recvd .guest (t₁ ++ (t₂ ++ t₃)) = encString path := congrArg Flow.fromGuest hf
  have hto : sent .host (t₁ ++ (t₂ ++ t₃)) = _ := congrArg Flow.toHost hf
  have hfrom : recvd .host (t₁ ++ (t₂ ++ t₃)) = _ := congrArg Flow.fromHost hf
  have hp : sent .guest (t₁ ++ (t₂ ++ t₃)) <+:
      encMessages logs ++ (Message.last.encode ++ validWord valid) := by
    rw [show sent .guest (t₁ ++ (t₂ ++ t₃)) = _ from congrArg Flow.toGuest hf]
    exact (List.prefix_append_right_inj _).mpr hx
  have hword : ∀ {logs' : List Message} {v : UInt64}, Logs logs' →
      encMessages logs' ++ (le64 stderrLast ++ le64 v) <+: sent .guest (t₁ ++ (t₂ ++ t₃)) →
      v = if valid then 1 else 0 := by
    intro logs' v hl' h
    obtain ⟨-, hv⟩ := word_prefix hl' hl (m := .last) trivial rfl (h.trans hp)
    exact le64_injective (hv.eq_of_length (by simp [validWord]))
  refine ⟨?_, ?_, ?_, ?_, ?_⟩
  · intro logs' hl' h
    obtain rfl : valid = true := by
      have hv := hword hl' h
      cases valid
      · exact absurd hv (by decide)
      · rfl
    refine ⟨path, hguest, ?_⟩
    cases hd with
    | valid hw => exact .inl ⟨logs, w, hl, hw, by rw [hto]; simp, by rw [hfrom]; simp⟩
    | @refilled logs' w hm hl' hw =>
      exact .inr ⟨logs, logs', w, hl, hl', hw, by rw [hto]; simp, by rw [hfrom]; simp⟩
  · intro logs' hl' h
    obtain rfl : valid = false := by
      have hv := hword hl' h
      cases valid
      · rfl
      · exact absurd hv (by decide)
    refine ⟨path, hguest, logs, hl, ?_⟩
    cases hd with
    | unfillable hm => exact .inl ⟨by rw [hto]; simp, by rw [hfrom]; simp, .inl hm⟩
    | fillFailed hm =>
      exact .inl ⟨by rw [hto]; simp, by rw [hfrom]; simp, .inr ⟨_, hfilled _ rfl⟩⟩
    | @stillInvalid logs' hm hl' =>
      exact .inr ⟨_, hfilled _ rfl, .inl ⟨logs', hl', rfl⟩, by rw [hto]; simp,
        by rw [hfrom]; simp⟩
    | @recheckFailed logs' e hm hl' he =>
      exact .inr ⟨_, hfilled _ rfl, .inr ⟨logs', e, hl', he, rfl⟩, by rw [hto]; simp,
        by rw [hfrom]; simp⟩
  · exact fun _ _ hl' he' h => absurd h (not_refused hl hfrom hl' he')
  · intro logs' e' hl' he' h
    obtain ⟨-, hm⟩ := error_prefix hl' hl he' (m := .last) trivial rfl (h.trans hp)
    cases hm
  · refine answered_marked valid hl hf₁ ?_ hx hr
    rw [sent_append, show sent .guest t₂ = [] from congrArg Flow.toGuest hf₂,
      show sent .guest t₃ = x from congrArg Flow.toGuest hf₃, List.nil_append]

theorem Intercepted.sound (h : Intercepted setup t r) : SoundAnswer setup t r := by
  cases h with
  | unposed ho hl hs ht => exact unposed_sound ho hl hs ht
  | refused ho hl he hf => exact refusedFlow_sound ho hl he hf
  | unjudged hl hf hs => exact unjudged_sound hl hf hs
  | told hl hf hj hf₃ hx hr => exact told_sound hl hf hj hf₃ hx hr

end Answers

/-- Whatever an `IsValidPath` comes to, the guest is told what the host has said of that path. -/
theorem isValidPath_sound {setup : Setup} {t : IoTrace} {r : Except Stop Unit}
    (h : (run setup).Runs t r) :
    (∃ s, r = .error s ∧ (opening setup).Runs t (.error s)) ∨
      ∃ n t₀ turns rest, t = t₀ ++ (turnsTrace turns ++ rest) ∧
        (opening setup).Runs t₀ (.ok n) ∧ Looped setup n turns rest r ∧
        ∀ x ∈ turns, x.word = Op.isValidPath.word → SoundAnswer setup x.serving x.result := by
  rcases run_runs h with h | ⟨n, t₀, turns, rest, ht, h₀, hl⟩
  · exact .inl h
  · refine .inr ⟨n, t₀, turns, rest, ht, h₀, hl, fun x hx hw => ?_⟩
    exact (serveOp_intercepts (hw ▸ (hl.of x hx).serve)).sound

theorem isValidPath_sound_sample :
    sampleFilled.value.toBool = true ∧
      ((∃ s, sampleFilled.value = .error s ∧
          (opening sampleSetup).Runs sampleFilled.trace (.error s)) ∨
        ∃ n t₀ turns rest, sampleFilled.trace = t₀ ++ (turnsTrace turns ++ rest) ∧
          (opening sampleSetup).Runs t₀ (.ok n) ∧
          Looped sampleSetup n turns rest sampleFilled.value ∧
          ∀ x ∈ turns, x.word = Op.isValidPath.word →
            SoundAnswer sampleSetup x.serving x.result) :=
  ⟨by decide +kernel, isValidPath_sound sampleFilled_runs⟩

end Claudepod
