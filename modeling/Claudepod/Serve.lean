import Claudepod.Exchange
import Claudepod.Flow

/-! What serving one op comes to. `IsValidPath` is taken apart into posing the guest's
question to the host, judging the host's word, and telling the guest. -/

set_option autoImplicit false

namespace Claudepod
open Interaction

/-! ### Arguments -/

/-- A failure while arguments are read: the copier's, then the news of it for the guest. -/
structure Refused {α : Type} (p : Async α) (t : IoTrace) (s : Stop) : Prop where
  split : ∃ (t₁ t₂ : IoTrace) (s₁ : Stop) (text : String), t = t₁ ++ t₂ ∧
    p.Runs t₁ (.error s₁) ∧ text.utf8ByteSize ≤ 2048 ∧ Only (puts .guest) t₂ ∧
    sent .guest t₂ <+: (Message.error (syntheticError text)).encode ∧
    (Only (fun e => puts .guest e → clean e) t₂ →
      sent .guest t₂ = (Message.error (syntheticError text)).encode)
  bounded : s ≠ .exhausted

theorem context_size {name : String} {e : Error} (h : ∃ s, e = .msg s ∧ s.utf8ByteSize ≤ 1024)
    (hn : name.utf8ByteSize ≤ 900) :
    (e.context (name ++ " arguments")).render.utf8ByteSize ≤ 2048 := by
  obtain ⟨s, rfl, hs⟩ := h
  have h₁ : " arguments".utf8ByteSize = 10 := by decide
  have h₂ : ": ".utf8ByteSize = 2 := by decide
  simp only [Error.context, Error.msg, Error.render, String.intercalate_cons_cons,
    String.intercalate_singleton, String.utf8ByteSize_append]
  omega

theorem orSyntheticError_runs {α : Type} {name : String} {p : Async α} {t : IoTrace}
    {r : Except Stop α} (hp : Comp.StopsIn Stop.Terse p) (hn : name.utf8ByteSize ≤ 900)
    (h : (orSyntheticError name p).Runs t r) :
    (∃ a, r = .ok a ∧ p.Runs t (.ok a)) ∨ ∃ s, r = .error s ∧ Refused p t s := by
  rcases (Comp.runs_bind _).mp h with ⟨o, t₁, t₂, rfl, h₁, h₂⟩ | ⟨s, rfl, h₁⟩
  · rcases (Comp.runs_attempt _ _).mp h₁ with ⟨a, ha, ho⟩ | ⟨s, e, hs, he, ho⟩ | ⟨s, -, -, ho⟩
    · obtain rfl := Except.ok.inj ho
      obtain ⟨rfl, rfl⟩ := (Comp.runs_pure _ _).mp h₂
      rw [List.append_nil]
      exact .inl ⟨a, rfl, (Comp.runs_mapStop_ok _ _).mp ha⟩
    · obtain rfl := Except.ok.inj ho
      obtain ⟨ho, hpre, hall, s', rfl, hs'⟩ := refuse_runs h₂
      have ht := within_terse hp _ _ hs
      obtain ⟨s₁, hs₁, rfl⟩ := (Comp.runs_mapStop_error _ _).mp hs
      refine .inr ⟨s', rfl, ⟨t₁, t₂, s₁, _, rfl, hs₁, context_size ?_ hn, ho, hpre, hall⟩, hs'⟩
      cases hw : Stop.elapsed argsTimeout s₁ with
      | failed e' =>
        rw [hw] at he
        obtain rfl := Option.some.inj he
        change Stop.Terse (Stop.elapsed argsTimeout s₁) at ht
        rw [hw] at ht
        exact ht
      | pending => rw [hw] at he; cases he
      | exhausted => rw [hw] at he; cases he
    · cases ho
  · rcases (Comp.runs_attempt _ _).mp h₁ with ⟨a, -, ho⟩ | ⟨s', e, -, -, ho⟩ | ⟨s', hs, hn', ho⟩
    · cases ho
    · cases ho
    · have ht := within_terse hp _ _ hs
      obtain ⟨s₁, -, rfl⟩ := (Comp.runs_mapStop_error _ _).mp hs
      cases s₁ with
      | failed e => cases hn'
      | pending => cases hn'
      | exhausted => exact ht.elim

theorem orSyntheticError_complete {α : Type} {name : String} {p : Async α} {t : IoTrace} {a : α}
    (h : p.Runs t (.ok a)) : (orSyntheticError name p).Runs t (.ok a) := by
  have ha : (attempt (within argsTimeout p)).Runs t (.ok (.ok a)) :=
    (Comp.runs_attempt _ _).mpr (.inl ⟨a, (Comp.runs_mapStop_ok _ _).mpr h, rfl⟩)
  rw [← List.append_nil t]
  exact ha.bind ⟨rfl, rfl⟩

/-- Reading the path and forwarding it. -/
def copyPath : Async Bytes := do
  let raw ← readString .guest maxGuestString
  writeString .host raw
  pure raw

theorem copyPath_copies : Copies .guest .host copyPath (stringFormat maxGuestString) :=
  (Copies.relay (readString_decodes .guest maxGuestString) (writeString_emits .host)
    (fun s => .pure s)).congr (bind_pure_format _)

theorem copyPath_extends : Extends .host copyPath (stringFormat maxGuestString) :=
  (Extends.relay (readString_decodes .guest maxGuestString) ⟨[], Nat.zero_le _⟩
    (writeString_emits .host) (fun s => Extends.pure s (Format.pure s))
    (fun s _ _ => ⟨s, [], rfl, rfl⟩)).congr (bind_pure_format _)

theorem copyPath_terse : Comp.StopsIn Stop.Terse copyPath :=
  (readString_terse .guest _).bind fun _ => (writeString_terse .host _).bind fun _ => .pure _

theorem relayIsValidPathArgs_eq : relayIsValidPathArgs = orSyntheticError "IsValidPath" copyPath :=
  rfl

theorem opName_size (op : Op) : op.name.utf8ByteSize ≤ 900 := by
  cases op <;> decide

/-! ### Taking `IsValidPath` apart -/

/-- The guest's question passed on to the host, and the host's word if it gave one; an
error is the guest's already. -/
def poseIsValidPath (fuel : Nat) : Async (Bytes × Option UInt64) := do
  let storePath ← relayIsValidPathArgs
  flush .host
  let terminal ← context "IsValidPath stderr" (relayWithoutLast fuel .host .guest)
  if terminal = .error then pure (storePath, none)
  else do
    let hostValid ← context "IsValidPath result" (readU64 .host)
    pure (storePath, some hostValid)

/-- Whether the path counts as valid, after a fill if need be. -/
def judgeIsValidPath (setup : Setup) (storePath : Bytes) (hostValid : UInt64) : Async Bool :=
  if hostValid ≠ 0 then pure true
  else if ¬ fillable setup.nixRunRoots storePath then pure false
  else do
    match ← attempt (setup.fill storePath) with
    | .error err => do
      warnOnDemandFill storePath s!"fill failed: {err.render}"
      pure false
    | .ok () => do
      match ← recheckIsValidPath setup.fuel storePath with
      | .valid => pure true
      | .invalid => do
        warnOnDemandFill storePath "re-check still invalid"
        pure false
      | .daemonError message => do
        warnOnDemandFill storePath s!"re-check failed: {message}"
        pure false

def tellIsValidPath (setup : Setup) : Bytes × Option UInt64 → Async Unit
  | (_, none) => pure ()
  | (storePath, some hostValid) => do
    let valid ← judgeIsValidPath setup storePath hostValid
    writeIsValidPathResult valid

theorem interceptIsValidPath_eq (setup : Setup) :
    interceptIsValidPath setup = poseIsValidPath setup.fuel >>= tellIsValidPath setup := by
  simp only [interceptIsValidPath, poseIsValidPath, bind_assoc]
  congr 1
  funext storePath
  congr 1
  funext _
  congr 1
  funext terminal
  split
  · rw [pure_bind]
    rfl
  rw [bind_assoc]
  congr 1
  funext hostValid
  rw [pure_bind]
  show _ = judgeIsValidPath setup storePath hostValid >>= writeIsValidPathResult
  unfold judgeIsValidPath
  by_cases hv : hostValid ≠ 0
  · rw [if_pos hv, if_pos hv, pure_bind]
  rw [if_neg hv, if_neg hv]
  by_cases hm : ¬ fillable setup.nixRunRoots storePath
  · rw [if_pos hm, if_pos hm, pure_bind]
  rw [if_neg hm, if_neg hm, bind_assoc]
  congr 1
  funext filled
  cases filled with
  | error err => simp only [bind_assoc, pure_bind]
  | ok _ =>
    rw [bind_assoc]
    show (recheckIsValidPath setup.fuel storePath >>= _) = recheckIsValidPath _ _ >>= _
    congr 1
    funext again
    cases again with
    | valid => rw [pure_bind]
    | invalid => simp only [bind_assoc, pure_bind]
    | daemonError message => simp only [bind_assoc, pure_bind]

/-! ### Which connections a judgement touches -/

theorem recheckIsValidPath_acts (fuel : Nat) (path : Bytes) :
    Comp.ActsIn (fun e => reads .host e ∨ puts .host e) (recheckIsValidPath fuel path) :=
  ((writeU64_emits .host _).acts.mono fun _ => .inr).bind fun _ =>
    ((writeString_emits .host path).acts.mono fun _ => .inr).bind fun _ =>
    (flush_acts fun _ => .inr rfl).bind fun _ =>
    ((drainToTerminal_acts fuel .host).mono fun _ => .inl).mapStop.bind fun
      | .last =>
        ((readU64_decodes .host).acts.mono fun _ => .inl).mapStop.bind fun _ => .pure _
      | .error _ => .pure _

theorem judgeIsValidPath_acts (setup : Setup) (path : Bytes) (w : UInt64) :
    Comp.ActsIn (fun e => elsewhere e ∨ reads .host e ∨ puts .host e)
      (judgeIsValidPath setup path w) := by
  have hwarn : ∀ reason b, Comp.ActsIn (fun e => elsewhere e ∨ reads .host e ∨ puts .host e)
      (warnOnDemandFill path reason >>= fun _ => (pure b : Async Bool)) := fun reason b =>
    (Comp.ActsIn.perform (o := Call.note _) fun _ => .inl trivial).bind fun _ => .pure b
  refine .ite (.pure _) (.ite (.pure _) ?_)
  exact ((setup.separate path).mono fun _ => .inl).attempt.bind fun
    | .error err => hwarn _ _
    | .ok () => ((recheckIsValidPath_acts setup.fuel path).mono fun _ => .inr).bind fun
      | .valid => .pure _
      | .invalid => hwarn _ _
      | .daemonError message => hwarn _ _

/-! ### Posing -/

theorem terminal_cases {m : Message} {term : Terminal} (h : m.terminal = some term) :
    (m = .last ∧ term = .last) ∨ ∃ e, m = .error e ∧ term = .error := by
  cases m with
  | last => exact .inl ⟨rfl, (Option.some.inj h).symm⟩
  | error e => exact .inr ⟨e, rfl, (Option.some.inj h).symm⟩
  | _ => cases h

/-- A question the host has answered: the path went to it as the guest sent it. -/
inductive Posed (path : Bytes) : Option UInt64 → IoTrace → Prop
  | refused {t : IoTrace} {logs : List Message} {e : ErrorPayload} : Logs logs → e.Valid →
      flow t = ⟨encString path, encString path, (Reply.error logs e).encode,
        (Reply.error logs e).encode, []⟩ → Posed path none t
  | answered {t : IoTrace} {logs : List Message} {w : UInt64} : Logs logs →
      flow t = ⟨encString path, encString path, (Reply.last logs (le64 w)).encode,
        encMessages logs, []⟩ → Posed path (some w) t

theorem flow_flush {t : IoTrace} {c : Leg} {r : Except Stop Unit} (h : (flush c).Runs t r) :
    flow t = ⟨[], [], [], [], []⟩ := by
  have ho := (flush_emits c).only h
  have hs : ∀ d, sent d t = [] := fun d => by
    by_cases hd : d = c
    · rw [hd, List.prefix_nil.mp ((flush_emits c).sent_part h)]
    · exact sent_eq_nil ho (by rintro ⟨o, r⟩ he hn; cases o <;> simp_all [puts, writesTo])
  rw [flow, hs, hs, recvd_of_puts ho, recvd_of_puts ho, asks_eq_nil (ho.mono fun e he =>
    onWire_of_reads_or_puts (c := c) (.inr he))]

theorem poseIsValidPath_ok {fuel : Nat} {path : Bytes} {answer : Option UInt64} {t : IoTrace}
    (h : (poseIsValidPath fuel).Runs t (.ok (path, answer))) :
    path.length ≤ maxGuestString.toNat ∧ Posed path answer t := by
  obtain ⟨p, t₁, u, rfl, h₁, h⟩ := (Comp.runs_bind_ok _).mp h
  obtain ⟨⟨⟩, t₂, u, rfl, h₂, h⟩ := (Comp.runs_bind_ok _).mp h
  obtain ⟨term, t₃, t₄, rfl, h₃, h₄⟩ := (Comp.runs_bind_ok _).mp h
  rw [relayIsValidPathArgs_eq] at h₁
  rcases orSyntheticError_runs copyPath_terse (by decide) h₁ with ⟨a, ha, h₁⟩ | ⟨s, hs, -⟩
  swap
  · cases hs
  obtain rfl := Except.ok.inj ha
  obtain ⟨⟨hl, he⟩, hs⟩ := copyPath_copies.sound h₁
  have hf₁ : flow t₁ = ⟨encString p, encString p, [], [], []⟩ := by
    rw [flow_up (copyPath_copies.only h₁), hs, he]
  have hr := relayInner_runs ((Comp.runs_mapStop_ok _ _).mp h₃)
  obtain ⟨logs, m, hlogs, hm, ht, hrecv, hsent⟩ := hr.ok
  have hf₃ := flow_down hr.only
  rw [hrecv, hsent] at hf₃
  have hf : flow (t₁ ++ (t₂ ++ (t₃ ++ t₄))) = ⟨encString p, encString p, encMessages logs ++
      m.encode, encMessages logs ++ m.shown false, []⟩ ++ flow t₄ := by
    rw [flow_append, flow_append, flow_append, hf₁, flow_flush h₂, hf₃, ← Flow.append_assoc,
      ← Flow.append_assoc]
    simp
  rcases terminal_cases ht with ⟨rfl, rfl⟩ | ⟨e, rfl, rfl⟩
  · obtain ⟨w, t₅, t₆, rfl, h₅, h₆⟩ := (Comp.runs_bind_ok _).mp h₄
    obtain ⟨rfl, ho⟩ := (Comp.runs_pure _ _).mp h₆
    obtain ⟨rfl, rfl⟩ := Prod.mk.inj (Except.ok.inj ho)
    have hd := (readU64_decodes .host).mapStop (Stop.context "IsValidPath result")
    refine ⟨hl, .answered (w := w) hlogs ?_⟩
    rw [hf, List.append_nil, flow_read_host hd h₅, (hd.sound h₅).2]
    simp [Reply.encode, Reply.logs, Reply.ending, Message.encode, Message.shown]
  · obtain ⟨rfl, ho⟩ := (Comp.runs_pure _ _).mp h₄
    obtain ⟨rfl, rfl⟩ := Prod.mk.inj (Except.ok.inj ho)
    refine ⟨hl, .refused (e := e) hlogs hm ?_⟩
    rw [hf]
    simp [Reply.encode, Reply.logs, Reply.ending, Message.shown]

/-! ### Judging -/

/-- What a re-check makes of the host's second reply. -/
inductive Rechecked : Recheck → Reply → Prop
  | valid {logs : List Message} {w : UInt64} : Logs logs → w ≠ 0 →
      Rechecked .valid (.last logs (le64 w))
  | invalid {logs : List Message} : Logs logs → Rechecked .invalid (.last logs (le64 0))
  | daemonError {logs : List Message} {e : ErrorPayload} {message : String} : Logs logs →
      e.Valid → Rechecked (.daemonError message) (.error logs e)

/-- The bytes of a re-check: the same path again, and nothing for the guest. -/
def reaskFlow (path : Bytes) (reply : Reply) : Flow :=
  ⟨[], (Request.isValidPath path).encode, reply.encode, [], []⟩

theorem recheckIsValidPath_ok {fuel : Nat} {path : Bytes} {again : Recheck} {t : IoTrace}
    (h : (recheckIsValidPath fuel path).Runs t (.ok again)) :
    ∃ reply, Rechecked again reply ∧ flow t = reaskFlow path reply := by
  obtain ⟨⟨⟩, t₁, u, rfl, h₁, h⟩ := (Comp.runs_bind_ok _).mp h
  obtain ⟨⟨⟩, t₂, u, rfl, h₂, h⟩ := (Comp.runs_bind_ok _).mp h
  obtain ⟨⟨⟩, t₃, u, rfl, h₃, h⟩ := (Comp.runs_bind_ok _).mp h
  obtain ⟨d, t₄, t₅, rfl, h₄, h₅⟩ := (Comp.runs_bind_ok _).mp h
  have hw := writeU64_emits .host Op.isValidPath.word
  have hs := writeString_emits .host path
  obtain ⟨ho, hd⟩ := drainFrom_runs ((Comp.runs_mapStop_ok _ _).mp h₄)
  obtain ⟨logs, m, hlogs, hm, hmd, hrecv⟩ := hd d rfl
  have hf₄ : flow t₄ = ⟨[], [], encMessages logs ++ m.encode, [], []⟩ := by
    rw [flow_host (ho.mono fun _ => .inl), hrecv,
      sent_of_reads (ho.mono fun _ => readsFrom_of_reads)]
  have hf : flow (t₁ ++ (t₂ ++ (t₃ ++ (t₄ ++ t₅)))) = ⟨[], (Request.isValidPath path).encode,
      encMessages logs ++ m.encode, [], []⟩ ++ flow t₅ := by
    rw [flow_append, flow_append, flow_append, flow_append, flow_write_host hw h₁,
      (hw.sound h₁).2, flow_write_host hs h₂, (hs.sound h₂).2, flow_flush h₃, hf₄,
      ← Flow.append_assoc, ← Flow.append_assoc, ← Flow.append_assoc]
    simp [Request.encode, Request.args, Request.op]
  cases m with
  | last =>
    obtain rfl := Option.some.inj hmd
    obtain ⟨w, t₆, t₇, rfl, h₆, h₇⟩ := (Comp.runs_bind_ok _).mp h₅
    obtain ⟨rfl, ha⟩ := (Comp.runs_pure _ _).mp h₇
    obtain rfl := Except.ok.inj ha
    have hd := (readU64_decodes .host).mapStop (Stop.context "IsValidPath re-check result")
    refine ⟨.last logs (le64 w), ?_, ?_⟩
    · by_cases hw : w ≠ 0
      · rw [if_pos hw]
        exact .valid hlogs hw
      · rw [if_neg hw, not_not.mp hw]
        exact .invalid hlogs
    · rw [hf, List.append_nil, flow_read_host hd h₆, (hd.sound h₆).2]
      simp [reaskFlow, Reply.encode, Reply.logs, Reply.ending, Message.encode]
  | error e =>
    obtain rfl := Option.some.inj hmd
    obtain ⟨rfl, ha⟩ := (Comp.runs_pure _ _).mp h₅
    obtain rfl := Except.ok.inj ha
    refine ⟨.error logs e, .daemonError hlogs hm, ?_⟩
    rw [hf]
    simp [reaskFlow, Reply.encode, Reply.logs, Reply.ending]
  | _ => cases hmd

/-- How the host's word was judged, and what happened on the way. -/
inductive Judged (setup : Setup) (path : Bytes) : UInt64 → IoTrace → Bool → Prop
  | valid {w : UInt64} : w ≠ 0 → Judged setup path w [] true
  | unfillable : fillable setup.nixRunRoots path = false → Judged setup path 0 [] false
  | fillFailed {t₁ t₂ : IoTrace} {e : Error} : fillable setup.nixRunRoots path = true →
      (setup.fill path).Runs t₁ (.error (.failed e)) → flow t₂ = ⟨[], [], [], [], []⟩ →
      Judged setup path 0 (t₁ ++ t₂) false
  | refilled {t₁ t₂ : IoTrace} {logs : List Message} {w : UInt64} :
      fillable setup.nixRunRoots path = true → (setup.fill path).Runs t₁ (.ok ()) →
      Logs logs → w ≠ 0 → flow t₂ = reaskFlow path (.last logs (le64 w)) →
      Judged setup path 0 (t₁ ++ t₂) true
  | stillInvalid {t₁ t₂ : IoTrace} {logs : List Message} :
      fillable setup.nixRunRoots path = true → (setup.fill path).Runs t₁ (.ok ()) →
      Logs logs → flow t₂ = reaskFlow path (.last logs (le64 0)) →
      Judged setup path 0 (t₁ ++ t₂) false
  | recheckFailed {t₁ t₂ : IoTrace} {logs : List Message} {e : ErrorPayload} :
      fillable setup.nixRunRoots path = true → (setup.fill path).Runs t₁ (.ok ()) →
      Logs logs → e.Valid → flow t₂ = reaskFlow path (.error logs e) →
      Judged setup path 0 (t₁ ++ t₂) false

theorem warn_flow {storePath : Bytes} {reason : String} {t : IoTrace} {r : Except Stop Unit}
    (h : (warnOnDemandFill storePath reason).Runs t r) : flow t = ⟨[], [], [], [], []⟩ := by
  obtain ⟨x, rfl, -⟩ := (Comp.runs_perform _ _).mp h
  rfl

/-- A warning and an answer. -/
theorem warn_ok {storePath : Bytes} {reason : String} {t : IoTrace} {a b : Bool}
    (h : (warnOnDemandFill storePath reason >>= fun _ => pure a : Async Bool).Runs t (.ok b)) :
    b = a ∧ flow t = ⟨[], [], [], [], []⟩ := by
  obtain ⟨⟨⟩, t₁, t₂, rfl, h₁, h₂⟩ := (Comp.runs_bind_ok _).mp h
  obtain ⟨rfl, hb⟩ := (Comp.runs_pure _ _).mp h₂
  exact ⟨Except.ok.inj hb, by rw [List.append_nil, warn_flow h₁]⟩

theorem judgeIsValidPath_ok {setup : Setup} {path : Bytes} {w : UInt64} {valid : Bool}
    {t : IoTrace} (h : (judgeIsValidPath setup path w).Runs t (.ok valid)) :
    Judged setup path w t valid := by
  unfold judgeIsValidPath at h
  by_cases hw : w ≠ 0
  · rw [if_pos hw] at h
    obtain ⟨rfl, hv⟩ := (Comp.runs_pure _ _).mp h
    exact Except.ok.inj hv ▸ .valid hw
  rw [if_neg hw] at h
  obtain rfl := not_not.mp hw
  by_cases hm : ¬ fillable setup.nixRunRoots path
  · rw [if_pos hm] at h
    obtain ⟨rfl, hv⟩ := (Comp.runs_pure _ _).mp h
    exact Except.ok.inj hv ▸ .unfillable (Bool.not_eq_true _ ▸ hm)
  rw [if_neg hm] at h
  have hmay := not_not.mp hm
  obtain ⟨filled, t₁, t₂, rfl, h₁, h₂⟩ := (Comp.runs_bind_ok _).mp h
  rcases (Comp.runs_attempt _ _).mp h₁ with ⟨⟨⟩, hf, ho⟩ | ⟨s, e, hf, he, ho⟩ | ⟨s, -, -, ho⟩
  · obtain rfl := Except.ok.inj ho
    obtain ⟨again, t₃, t₄, rfl, h₃, h₄⟩ := (Comp.runs_bind_ok _).mp h₂
    obtain ⟨reply, hr, hfl⟩ := recheckIsValidPath_ok h₃
    have hfl₄ : ∀ {t₄}, flow t₄ = ⟨[], [], [], [], []⟩ → flow (t₃ ++ t₄) = reaskFlow path reply :=
      fun h => by rw [flow_append, hfl, h]; simp [reaskFlow]
    cases hr with
    | valid hlogs hw =>
      obtain ⟨rfl, hv⟩ := (Comp.runs_pure _ _).mp h₄
      exact Except.ok.inj hv ▸ .refilled hmay hf hlogs hw (hfl₄ rfl)
    | invalid hlogs =>
      obtain ⟨rfl, hn⟩ := warn_ok h₄
      exact .stillInvalid hmay hf hlogs (hfl₄ hn)
    | daemonError hlogs he =>
      obtain ⟨rfl, hn⟩ := warn_ok h₄
      exact .recheckFailed hmay hf hlogs he (hfl₄ hn)
  · obtain rfl := Except.ok.inj ho
    obtain ⟨rfl, hn⟩ := warn_ok h₂
    cases s with
    | failed e' =>
      obtain rfl := Option.some.inj he
      exact .fillFailed hmay hf hn
    | pending => cases he
    | exhausted => cases he
  · cases ho

end Claudepod
