import Claudepod.Serve

/-! One op of the loop that is served to its end is one exchange: what `serveOp` does refines
`Legal`. -/

set_option autoImplicit false

namespace Claudepod
open Interaction

/-- The reply of the host passed on. -/
def relayReply (fuel : Nat) (op : Op) (negotiated : Negotiated) : Async Unit := do
  let terminal ← context s!"{op.name} stderr" (relay fuel .host .guest)
  if terminal = .last then
    context s!"{op.name} result" (copyResult op negotiated .host .guest)
  else pure ()

theorem relayReply_acts (fuel : Nat) (op : Op) (n : Negotiated) :
    Comp.ActsIn (fun e => reads .host e ∨ puts .guest e) (relayReply fuel op n) :=
  (relayInner_acts .host .guest true fuel).mapStop.bind fun _ =>
    .ite (copyResult_copies op n .host .guest).acts.mapStop (.pure ())

/-- An op relayed: its word, its arguments, the stderr exchange and the result as they come. -/
def relayOp (fuel : Nat) (op : Op) (negotiated : Negotiated) : Async Unit := do
  writeU64 .host op.word
  relayArgs op negotiated .host
  flush .host
  relayReply fuel op negotiated
  flush .guest

section Branches

variable {setup : Setup} {n : Negotiated} {word : UInt64} {op : Op}

theorem serveOp_rejected (h : Op.allowed word = none) :
    serveOp setup n word =
      writeError .guest (rejectedOp word) >>= fun _ => bail (rejectedOp word) := by
  unfold serveOp
  rw [h]

theorem serveOp_swallowed :
    serveOp setup n Op.setOptions.word = relayArgs .setOptions n .sink >>= fun _ =>
      writeU64 .guest stderrLast >>= fun _ => flush .guest := rfl

theorem serveOp_intercepted :
    serveOp setup n Op.isValidPath.word = writeU64 .host Op.isValidPath.word >>= fun _ =>
      interceptIsValidPath setup >>= fun _ => flush .guest := rfl

theorem serveOp_relayed (hs : op ≠ .setOptions) (hv : op ≠ .isValidPath) :
    serveOp setup n op.word = relayOp setup.fuel op n := by
  unfold serveOp relayOp relayReply
  rw [Op.allowed_word]
  simp only [if_neg hs, if_neg hv, bind_assoc]
  congr 1
  funext _
  congr 1
  funext _
  congr 1
  funext _
  congr 1
  funext terminal
  split
  · rfl
  · rw [pure_bind]

end Branches

/-! ### What is served is legal -/

theorem relayReply_ok {fuel : Nat} {op : Op} {n : Negotiated} {t : IoTrace}
    (h : (relayReply fuel op n).Runs t (.ok ())) :
    ∃ reply : Reply, reply.Valid op n.realisationWithPath ∧
      flow t = ⟨[], [], reply.encode, reply.encode, []⟩ := by
  obtain ⟨term, t₁, t₂, rfl, h₁, h₂⟩ := (Comp.runs_bind_ok _).mp h
  have hr := relayInner_runs ((Comp.runs_mapStop_ok _ _).mp h₁)
  obtain ⟨logs, m, hlogs, hm, ht, hrecv, hsent⟩ := hr.ok
  rcases terminal_cases ht with ⟨rfl, rfl⟩ | ⟨e, rfl, rfl⟩
  · have hc := (copyResult_copies op n .host .guest).mapStop (Stop.context (op.name ++ " result"))
    rw [if_pos rfl] at h₂
    obtain ⟨hv, hs⟩ := hc.sound h₂
    refine ⟨.last logs (recvd .host t₂), ⟨hlogs, hv⟩, ?_⟩
    rw [flow_append, flow_down hr.only, flow_down (hc.only h₂), hrecv, hsent, hs]
    simp [Reply.encode, Reply.logs, Reply.ending, Message.encode, Message.shown]
  · obtain ⟨rfl, -⟩ := (Comp.runs_pure _ _).mp h₂
    refine ⟨.error logs e, ⟨hlogs, hm⟩, ?_⟩
    rw [List.append_nil, flow_down hr.only, hrecv, hsent]
    simp [Reply.encode, Reply.logs, Reply.ending, Message.shown]

/-- A fill of the trace that went as `o` says. -/
def Filled (setup : Setup) (path : Bytes) (t : IoTrace) (o : Except Error Unit) : Prop :=
  ∃ t₁ t₂ t₃, t = t₁ ++ (t₂ ++ t₃) ∧ (setup.fill path).Runs t₂ (o.mapError Stop.failed)

theorem writeIsValidPathResult_emits (valid : Bool) :
    Emits .guest (writeIsValidPathResult valid) () (le64 stderrLast ++ validWord valid) :=
  (writeU64_emits .guest stderrLast).andThen (writeU64_emits .guest _)

theorem fill_flow {setup : Setup} {path : Bytes} {t : IoTrace} {r : Except Stop Unit}
    (h : (setup.fill path).Runs t r) : flow t = ⟨[], [], [], [], asks t⟩ :=
  flow_elsewhere (setup.separate path _ _ h)

/-- A fill and what comes after it. -/
theorem fill_flow_append {setup : Setup} {path x y : Bytes} {t₁ t₂ : IoTrace}
    {r : Except Stop Unit} (h₁ : (setup.fill path).Runs t₁ r) (h₂ : flow t₂ = ⟨[], x, y, [], []⟩) :
    flow (t₁ ++ t₂) = ⟨[], x, y, [], asks (t₁ ++ t₂)⟩ := by
  have ha : asks t₂ = [] := congrArg Flow.fills h₂
  rw [flow_append, fill_flow h₁, h₂, asks_append, ha]
  rfl

/-- A judgement is a decision over the host's second reply, if it was asked again. -/
theorem Judged.decided {setup : Setup} {path : Bytes} {w : UInt64} {t : IoTrace} {valid : Bool}
    (h : Judged setup path w t valid) :
    ∃ again fill, Decided (fillable setup.nixRunRoots) path w again fill valid ∧
      flow t = ⟨[], again.flatMap fun _ => (Request.isValidPath path).encode,
        again.flatMap Reply.encode, [], asks t⟩ ∧
      (∀ o, fill = some o → Filled setup path t o) ∧ (fill = none → asks t = []) := by
  have hasked : ∀ {t₁ t₂ : IoTrace} {reply : Reply}, (setup.fill path).Runs t₁ (.ok ()) →
      flow t₂ = reaskFlow path reply → flow (t₁ ++ t₂) =
        ⟨[], [reply].flatMap fun _ => (Request.isValidPath path).encode,
          [reply].flatMap Reply.encode, [], asks (t₁ ++ t₂)⟩ := by
    intro t₁ t₂ reply h₁ h₂
    rw [fill_flow_append h₁ h₂, List.flatMap_singleton, List.flatMap_singleton]
  cases h with
  | valid hw => exact ⟨[], none, .valid hw, rfl, by simp, fun _ => rfl⟩
  | unfillable hm => exact ⟨[], none, .unfillable hm, rfl, by simp, fun _ => rfl⟩
  | fillFailed hm hf hn =>
    exact ⟨[], _, .fillFailed hm, fill_flow_append hf hn, by rintro o ⟨⟩; exact ⟨[], _, _, rfl, hf⟩,
      by simp⟩
  | refilled hm hf hl hw hr =>
    exact ⟨_, _, .refilled hm hl hw, hasked hf hr, by rintro o ⟨⟩; exact ⟨[], _, _, rfl, hf⟩,
      by simp⟩
  | stillInvalid hm hf hl hr =>
    exact ⟨_, _, .stillInvalid hm hl, hasked hf hr, by rintro o ⟨⟩; exact ⟨[], _, _, rfl, hf⟩,
      by simp⟩
  | recheckFailed hm hf hl he hr =>
    exact ⟨_, _, .recheckFailed hm hl he, hasked hf hr, by rintro o ⟨⟩; exact ⟨[], _, _, rfl, hf⟩,
      by simp⟩

/-- The exchange is what the trace of serving an op shows. -/
structure Exchange.Shows (setup : Setup) (x : Exchange) (t : IoTrace) : Prop where
  bytes : flow t = ⟨x.request.args, x.toHost, x.fromHost, x.toGuest, asks t⟩
  filled : ∀ path o, x.request = .isValidPath path → x.fill = some o → Filled setup path t o
  idle : x.fill = none → asks t = []

theorem Filled.mono {setup : Setup} {path : Bytes} {t u v : IoTrace} {o : Except Error Unit}
    (h : Filled setup path u o) : Filled setup path (t ++ (u ++ v)) o := by
  obtain ⟨t₁, t₂, t₃, rfl, hf⟩ := h
  exact ⟨t ++ t₁, t₂, t₃ ++ v, by simp, hf⟩

theorem swallowed_ok {setup : Setup} {n : Negotiated} {t : IoTrace}
    (h : (serveOp setup n Op.setOptions.word).Runs t (.ok ())) :
    ∃ r : Request, r.op = .setOptions ∧ r.Valid n.realisationWithPath ∧
      flow t = ⟨r.args, [], [], le64 stderrLast, []⟩ := by
  rw [serveOp_swallowed] at h
  obtain ⟨⟨⟩, t₁, u, rfl, h₁, h⟩ := (Comp.runs_bind_ok _).mp h
  obtain ⟨⟨⟩, t₂, t₃, rfl, h₂, h₃⟩ := (Comp.runs_bind_ok _).mp h
  have hw := writeU64_emits .guest stderrLast
  rcases orSyntheticError_runs (copyArgs_terse _ n .guest .sink) (opName_size _) h₁ with
    ⟨⟨⟩, -, h₁⟩ | ⟨s, hs, -⟩
  · have hc := copyArgs_copies .setOptions n .guest .sink
    obtain ⟨⟨r, hop, hv, hr⟩, -⟩ := hc.sound h₁
    refine ⟨r, hop, hv, ?_⟩
    rw [flow_append, flow_append, flow_sink (hc.only h₁), hr, flow_write_guest hw h₂,
      (hw.sound h₂).2, flow_flush h₃]
    simp
  · cases hs

theorem Exchange.shows_of_flow {setup : Setup} {x : Exchange} {t : IoTrace}
    {f : List (Bytes × Answer Error)}
    (hf : flow t = ⟨x.request.args, x.toHost, x.fromHost, x.toGuest, f⟩)
    (hfill : ∀ path o, x.request = .isValidPath path → x.fill = some o → Filled setup path t o)
    (hidle : x.fill = none → f = []) : x.Shows setup t where
  bytes := by rw [hf, asks_of_flow hf]
  filled := hfill
  idle hn := (asks_of_flow hf).trans (hidle hn)

theorem isValidPath_encode (path : Bytes) :
    (Request.isValidPath path).encode = le64 Op.isValidPath.word ++ encString path := rfl

theorem isValidPath_args (path : Bytes) : (Request.isValidPath path).args = encString path := rfl

theorem intercepted_ok {setup : Setup} {n : Negotiated} {t : IoTrace}
    (h : (serveOp setup n Op.isValidPath.word).Runs t (.ok ())) :
    ∃ x : Exchange, Legal n.realisationWithPath (fillable setup.nixRunRoots) x ∧
      x.request.op = .isValidPath ∧ x.Shows setup t := by
  rw [serveOp_intercepted, interceptIsValidPath_eq] at h
  obtain ⟨⟨⟩, t₁, u, rfl, h₁, h⟩ := (Comp.runs_bind_ok _).mp h
  obtain ⟨⟨⟩, u, t₄, rfl, h, h₄⟩ := (Comp.runs_bind_ok _).mp h
  obtain ⟨⟨path, answer⟩, t₂, t₃, rfl, h₂, h₃⟩ := (Comp.runs_bind_ok _).mp h
  have hw := writeU64_emits .host Op.isValidPath.word
  obtain ⟨hl, hp⟩ := poseIsValidPath_ok h₂
  have hf : flow (t₁ ++ ((t₂ ++ t₃) ++ t₄)) =
      ⟨[], le64 Op.isValidPath.word, [], [], []⟩ ++ (flow t₂ ++ flow t₃) := by
    rw [flow_append, flow_append, flow_append, flow_write_host hw h₁, (hw.sound h₁).2,
      flow_flush h₄, Flow.append_nil]
  cases hp with
  | @refused t₂ logs e hlogs he hf₂ =>
    obtain ⟨rfl, -⟩ := (Comp.runs_pure _ _).mp h₃
    refine ⟨_, .refused hl hlogs he, rfl,
      Exchange.shows_of_flow (f := []) ?_ (by rintro _ _ _ ⟨⟩) fun _ => rfl⟩
    rw [hf, hf₂, flow_nil, Flow.append_nil, Flow.toHost_append, Exchange.toHost,
      Exchange.fromHost, List.flatMap_singleton, List.flatMap_singleton, isValidPath_encode,
      isValidPath_args]
  | @answered t₂ logs w hlogs hf₂ =>
    obtain ⟨valid, t₅, t₆, rfl, h₅, h₆⟩ := (Comp.runs_bind_ok _).mp h₃
    obtain ⟨again, fill, hd, hf₅, hfill, hidle⟩ := (judgeIsValidPath_ok h₅).decided
    have hv := writeIsValidPathResult_emits valid
    refine ⟨_, .decided hl hlogs hd, rfl, Exchange.shows_of_flow (f := asks t₅) ?_ ?_ hidle⟩
    · rw [hf, hf₂, flow_append, hf₅, flow_write_guest hv h₆, (hv.sound h₆).2,
        Flow.append_aside, Exchange.toHost_map, Exchange.fromHost_map, isValidPath_encode,
        isValidPath_args, reply_last logs (validWord valid)]
    · rintro p o ⟨⟩ ho
      have := (hfill o ho).mono (t := t₁ ++ t₂) (v := t₆ ++ t₄)
      simpa using this

theorem relayOp_ok {fuel : Nat} {n : Negotiated} {op : Op} {t : IoTrace}
    (h : (relayOp fuel op n).Runs t (.ok ())) :
    ∃ (r : Request) (reply : Reply), r.op = op ∧ r.Valid n.realisationWithPath ∧
      reply.Valid op n.realisationWithPath ∧
      flow t = ⟨r.args, r.encode, reply.encode, reply.encode, []⟩ := by
  obtain ⟨⟨⟩, t₁, u, rfl, h₁, h⟩ := (Comp.runs_bind_ok _).mp h
  obtain ⟨⟨⟩, t₂, u, rfl, h₂, h⟩ := (Comp.runs_bind_ok _).mp h
  obtain ⟨⟨⟩, t₃, u, rfl, h₃, h⟩ := (Comp.runs_bind_ok _).mp h
  obtain ⟨⟨⟩, t₄, t₅, rfl, h₄, h₅⟩ := (Comp.runs_bind_ok _).mp h
  have hw := writeU64_emits .host op.word
  rcases orSyntheticError_runs (copyArgs_terse _ n .guest .host) (opName_size _) h₂ with
    ⟨⟨⟩, -, h₂⟩ | ⟨s, hs, -⟩
  · have hc := copyArgs_copies op n .guest .host
    obtain ⟨⟨r, rfl, hr, ha⟩, hsent⟩ := hc.sound h₂
    obtain ⟨reply, hreply, hf₄⟩ := relayReply_ok h₄
    refine ⟨r, reply, rfl, hr, hreply, ?_⟩
    rw [flow_append, flow_append, flow_append, flow_append, flow_write_host hw h₁,
      (hw.sound h₁).2, flow_up (hc.only h₂), hsent, ha, flow_flush h₃, hf₄, flow_flush h₅,
      Flow.append_nil, Flow.nil_append, Flow.append_mk, Flow.append_mk, Request.encode]
    simp
  · cases hs

/-- What is served to its end is a legal exchange. -/
theorem serveOp_ok {setup : Setup} {n : Negotiated} {word : UInt64} {t : IoTrace}
    (h : (serveOp setup n word).Runs t (.ok ())) :
    ∃ x : Exchange, Legal n.realisationWithPath (fillable setup.nixRunRoots) x ∧
      x.request.op.word = word ∧ x.Shows setup t := by
  cases ho : Op.allowed word with
  | none =>
    rw [serveOp_rejected ho] at h
    obtain ⟨⟨⟩, t₁, t₂, rfl, -, h₂⟩ := (Comp.runs_bind_ok _).mp h
    cases ((Comp.runs_throw _ _).mp h₂).2
  | some op =>
    obtain rfl := Op.word_of_allowed ho
    by_cases hs : op = .setOptions
    · subst hs
      obtain ⟨r, hop, hr, hf⟩ := swallowed_ok h
      exact ⟨_, .swallowed hop hr, by rw [hop], Exchange.shows_of_flow hf (by rintro _ _ _ ⟨⟩)
        fun _ => rfl⟩
    by_cases hv : op = .isValidPath
    · subst hv
      obtain ⟨x, hx, hop, hshows⟩ := intercepted_ok h
      exact ⟨x, hx, by rw [hop], hshows⟩
    rw [serveOp_relayed hs hv] at h
    obtain ⟨r, reply, rfl, hr, hreply, hf⟩ := relayOp_ok h
    refine ⟨_, .relayed hs hv hr hreply, rfl, Exchange.shows_of_flow (f := []) ?_
      (by rintro _ _ _ ⟨⟩) fun _ => rfl⟩
    rw [hf, Exchange.toHost, Exchange.fromHost, List.flatMap_singleton, List.flatMap_singleton]

end Claudepod
