import Claudepod.Verdict

/-! The fills of a session: when one is asked for, for which path, and what it says to the
host daemon on a connection of its own. -/

set_option autoImplicit false

namespace Claudepod
open Interaction

/-! ### Fills and what is not part of them -/

/-- Not an event of a fill. -/
def unfilled : IoEvent → Prop
  | ⟨.read c _, _⟩ | ⟨.readSome c _, _⟩ | ⟨.write c _, _⟩ | ⟨.flush c, _⟩ | ⟨.dial c, _⟩ =>
    c ≠ .fill
  | ⟨.ask _, _⟩ => False
  | ⟨.note _, _⟩ => True

/-- On a connection of the session itself, where it stays connected. -/
def steady : IoEvent → Prop
  | ⟨.read c _, _⟩ | ⟨.readSome c _, _⟩ | ⟨.write c _, _⟩ | ⟨.flush c, _⟩ => c ≠ .fill
  | ⟨.dial _, _⟩ | ⟨.ask _, _⟩ => False
  | ⟨.note _, _⟩ => True

theorem unfilled_of_steady (e : IoEvent) (h : steady e) : unfilled e := by
  obtain ⟨o, r⟩ := e
  cases o <;> first | exact h | exact h.elim

theorem steady_of_reads_or_puts {c d : Leg} {e : IoEvent} (hc : c ≠ .fill) (hd : d ≠ .fill)
    (h : reads c e ∨ puts d e) : steady e := by
  obtain ⟨o, r⟩ := e
  cases o <;> simp_all [reads, puts, steady]

theorem steady_of_readsFrom {c : Leg} {e : IoEvent} (hc : c ≠ .fill) (h : readsFrom c e) :
    steady e := by
  obtain ⟨o, r⟩ := e
  cases o <;> simp_all [readsFrom, steady]

section Steady

variable {α : Type} {p : Async α} {F : Format α} {c d : Leg}

theorem decodes_steady (h : Decodes c p F) (hc : c ≠ .fill) :
    Comp.ActsIn steady p :=
  h.acts.mono fun _ he => steady_of_reads_or_puts hc hc (.inl he)

theorem emits_steady {a : α} {x : Bytes} (h : Emits c p a x) (hc : c ≠ .fill) :
    Comp.ActsIn steady p :=
  h.acts.mono fun _ he => steady_of_reads_or_puts hc hc (.inr he)

theorem copies_steady (h : Copies c d p F) (hc : c ≠ .fill) (hd : d ≠ .fill) :
    Comp.ActsIn steady p :=
  h.acts.mono fun _ he => steady_of_reads_or_puts hc hd he

theorem flush_steady (hc : c ≠ .fill) : Comp.ActsIn steady (flush c) := flush_acts fun _ => hc

theorem refuse_steady (text : String) (err : Error) :
    Comp.ActsIn steady (refuse .guest text err : Async α) :=
  (refuse_acts .guest text err).mono fun _ he =>
    steady_of_reads_or_puts (c := .guest) (by decide) (by decide) (.inr he)

theorem orSyntheticError_steady {name : String} (h : Comp.ActsIn steady p) :
    Comp.ActsIn steady (orSyntheticError name p) :=
  h.mapStop.attempt.bind fun
    | .ok a => .pure a
    | .error _ => refuse_steady _ _

theorem relayInner_steady (forwardLast : Bool) (fuel : Nat) :
    Comp.ActsIn steady (relayInner .host .guest forwardLast fuel) :=
  (relayInner_acts .host .guest forwardLast fuel).mono fun _ he =>
    steady_of_reads_or_puts (by decide) (by decide) he

theorem warn_steady (storePath : Bytes) (reason : String) :
    Comp.ActsIn steady (warnOnDemandFill storePath reason) := Comp.ActsIn.perform fun _ => trivial

theorem relayReply_steady (fuel : Nat) (op : Op) (n : Negotiated) :
    Comp.ActsIn steady (relayReply fuel op n) :=
  (relayReply_acts fuel op n).mono fun _ => steady_of_reads_or_puts (by decide) (by decide)

theorem recheck_steady (fuel : Nat) (path : Bytes) :
    Comp.ActsIn steady (recheckIsValidPath fuel path) :=
  (recheckIsValidPath_acts fuel path).mono fun _ =>
    steady_of_reads_or_puts (by decide) (by decide)

theorem poseIsValidPath_steady (fuel : Nat) : Comp.ActsIn steady (poseIsValidPath fuel) :=
  (orSyntheticError_steady (copies_steady copyPath_copies (by decide) (by decide))).bind fun _ =>
    (flush_steady (by decide)).bind fun _ => (relayInner_steady false fuel).mapStop.bind fun _ =>
    .ite (.pure _)
      ((decodes_steady (readU64_decodes .host) (by decide)).mapStop.bind fun _ => .pure _)

theorem postHandshake_steady : Comp.ActsIn steady postHandshake :=
  (copies_steady clientFields_copies (by decide) (by decide)).mapStop.mapStop.bind
    fun _ => flush_steady (by decide)

theorem greeting_steady (fuel : Nat) : Comp.ActsIn steady (greeting fuel) := by
  rw [greeting_eq]
  exact (copies_steady header_copies (by decide) (by decide)).bind fun _ =>
    (relayInner_steady true _).mapStop.bind fun _ => flush_steady (by decide)

/-- Up to its first op a session dials the host, and that is all it does besides relaying. -/
theorem opening_acts {S : IoEvent → Prop} (hs : ∀ e, steady e → S e)
    (hdial : ∀ a, S ⟨.dial .host, a⟩) (setup : Setup) : Comp.ActsIn S (opening setup) := by
  have hb : ∀ {c d : Leg}, c ≠ .fill → d ≠ .fill → ∀ e : IoEvent, reads c e ∨ puts d e → S e :=
    fun hc hd e he => hs e (steady_of_reads_or_puts hc hd he)
  refine Comp.ActsIn.bind (Comp.ActsIn.bind
    ((decodes_steady (guestMagic_decodes .guest) (by decide)).mono hs).mapStop.mapStop fun _ =>
    (dial_acts hdial).mapStop.bind fun _ =>
    ((upstream_converses _ .host).acts.mono (hb (by decide) (by decide))).mapStop.bind
    fun n => ((downstream_converses .guest n).acts.mono
      (hb (by decide) (by decide))).mapStop.mapStop.bind fun _ => .pure n) fun n => ?_
  exact Comp.ActsIn.bind (postHandshake_steady.mono hs) fun _ =>
    ((greeting_steady setup.fuel).mono hs).bind fun _ => .pure n

theorem opening_unfilled (setup : Setup) : Comp.ActsIn unfilled (opening setup) :=
  opening_acts unfilled_of_steady (fun _ => nofun) setup

end Steady

/-! ### At most one fill for each `IsValidPath` -/

/-- The fill within a judgement, if it came to one. -/
theorem judgeIsValidPath_fill {setup : Setup} {path : Bytes} {w : UInt64} {t : IoTrace}
    {r : Except Stop Bool} (h : (judgeIsValidPath setup path w).Runs t r) :
    Only steady t ∨ ∃ t₁ t₂ s, t = t₁ ++ t₂ ∧ w = 0 ∧ fillable setup.nixRunRoots path = true ∧
      (setup.fill path).Runs t₁ s ∧ Only steady t₂ := by
  unfold judgeIsValidPath at h
  by_cases hw : w ≠ 0
  · rw [if_pos hw] at h
    obtain ⟨rfl, -⟩ := (Comp.runs_pure _ _).mp h
    exact .inl only_nil
  rw [if_neg hw] at h
  by_cases hm : ¬ fillable setup.nixRunRoots path
  · rw [if_pos hm] at h
    obtain ⟨rfl, -⟩ := (Comp.runs_pure _ _).mp h
    exact .inl only_nil
  rw [if_neg hm] at h
  have hwarn : ∀ reason b, Comp.ActsIn steady (warnOnDemandFill path reason >>= fun _ =>
      (pure b : Async Bool)) := fun reason b => (warn_steady path reason).bind fun _ => .pure b
  right
  rcases (Comp.runs_bind _).mp h with ⟨filled, t₁, t₂, rfl, h₁, h₂⟩ | ⟨s, -, h₁⟩
  · have hrest : Only steady t₂ := by
      cases filled with
      | error err => exact hwarn _ _ _ _ h₂
      | ok _ =>
        refine Comp.ActsIn.bind (recheck_steady setup.fuel path) (fun again => ?_) _ _ h₂
        cases again with
        | valid => exact .pure _
        | invalid => exact hwarn _ _
        | daemonError message => exact hwarn _ _
    rcases (Comp.runs_attempt _ _).mp h₁ with ⟨a, hf, -⟩ | ⟨e, z, hf, -, -⟩ | ⟨e, hf, -, -⟩
    · exact ⟨t₁, t₂, _, rfl, not_not.mp hw, not_not.mp hm, hf, hrest⟩
    · exact ⟨t₁, t₂, _, rfl, not_not.mp hw, not_not.mp hm, hf, hrest⟩
    · exact ⟨t₁, t₂, _, rfl, not_not.mp hw, not_not.mp hm, hf, hrest⟩
  · rcases (Comp.runs_attempt _ _).mp h₁ with ⟨a, hf, -⟩ | ⟨e, z, hf, -, -⟩ | ⟨e, hf, -, -⟩
    · exact ⟨t, [], _, by simp, not_not.mp hw, not_not.mp hm, hf, only_nil⟩
    · exact ⟨t, [], _, by simp, not_not.mp hw, not_not.mp hm, hf, only_nil⟩
    · exact ⟨t, [], _, by simp, not_not.mp hw, not_not.mp hm, hf, only_nil⟩

/-- The fills of serving one op: none, or one for the path of an `IsValidPath` that the host
has just answered with 0. -/
inductive FillOf (setup : Setup) (word : UInt64) (t : IoTrace) : Prop
  | none : Only steady t → FillOf setup word t
  | one {t₁ t₂ t₃ : IoTrace} {path : Bytes} {logs : List Message} {s : Except Stop Unit} :
      word = Op.isValidPath.word → t = t₁ ++ (t₂ ++ t₃) → Only steady t₁ → Logs logs →
      flow t₁ = answeredFlow path logs 0 → fillable setup.nixRunRoots path = true →
      (setup.fill path).Runs t₂ s → Only steady t₃ → FillOf setup word t

theorem serveOp_fill {setup : Setup} {n : Negotiated} {word : UInt64} {t : IoTrace}
    {r : Except Stop Unit} (h : (serveOp setup n word).Runs t r) : FillOf setup word t := by
  have hg : ∀ w, Comp.ActsIn steady (writeU64 .guest w) := fun w =>
    emits_steady (writeU64_emits .guest w) (by decide)
  have hh : ∀ w, Comp.ActsIn steady (writeU64 .host w) := fun w =>
    emits_steady (writeU64_emits .host w) (by decide)
  have hf : ∀ c, c ≠ .fill → Comp.ActsIn steady (flush c) := fun c hc => flush_steady hc
  cases ho : Op.allowed word with
  | none =>
    rw [serveOp_rejected ho] at h
    exact .none (((emits_steady (writeError_emits .guest _) (by decide)).bind fun _ =>
      .throw _) _ _ h)
  | some op =>
    obtain rfl := Op.word_of_allowed ho
    by_cases hs : op = .setOptions
    · subst hs
      rw [serveOp_swallowed] at h
      exact .none (((orSyntheticError_steady (copies_steady (copyArgs_copies .setOptions n
        .guest .sink) (by decide) (by decide))).bind fun _ => (hg _).bind fun _ =>
        hf _ (by decide)) _ _ h)
    by_cases hv : op = .isValidPath
    swap
    · rw [serveOp_relayed hs hv] at h
      exact .none (((hh _).bind fun _ => Comp.ActsIn.bind (orSyntheticError_steady
        (copies_steady (copyArgs_copies op n .guest .host) (by decide) (by decide))) fun _ =>
        (hf _ (by decide)).bind fun _ => (relayReply_steady _ op n).bind fun _ =>
        hf _ (by decide)) _ _ h)
    subst hv
    rw [serveOp_intercepted, interceptIsValidPath_eq, bind_assoc] at h
    rcases (Comp.runs_bind _).mp h with ⟨⟨⟩, t₁, u, rfl, h₁, h⟩ | ⟨s, -, h₁⟩
    swap
    · exact .none (hh _ _ _ h₁)
    have hw := writeU64_emits .host Op.isValidPath.word
    have hf₁ : flow t₁ = ⟨[], le64 Op.isValidPath.word, [], [], []⟩ := by
      rw [flow_write_host hw h₁, (hw.sound h₁).2]
    rcases (Comp.runs_bind _).mp h with ⟨⟨path, answer⟩, t₂, u, rfl, h₂, h⟩ | ⟨s, -, h₂⟩
    swap
    · exact .none (only_append.mpr ⟨hh _ _ _ h₁, poseIsValidPath_steady _ _ _ h₂⟩)
    have ho₂ : Only steady (t₁ ++ t₂) :=
      only_append.mpr ⟨hh _ _ _ h₁, poseIsValidPath_steady _ _ _ h₂⟩
    rw [← List.append_assoc]
    rcases (poseIsValidPath_ok h₂).2.prepend hf₁ with ⟨rfl, -⟩ | ⟨logs, w, rfl, hl, hfl⟩
    · exact .none (only_append.mpr ⟨ho₂, ((Comp.ActsIn.pure ()).bind fun _ =>
        hf _ (by decide)) _ _ h⟩)
    · have htell : ∀ valid, Comp.ActsIn steady (writeIsValidPathResult valid >>= fun _ =>
          flush .guest) := fun valid => (emits_steady (writeIsValidPathResult_emits valid)
        (by decide)).bind fun _ => hf _ (by decide)
      have h' : (judgeIsValidPath setup path w >>= fun valid => writeIsValidPathResult valid >>=
          fun _ => flush .guest).Runs u r := by
        rw [← bind_assoc]
        exact h
      rcases (Comp.runs_bind _).mp h' with ⟨valid, t₃, t₄, rfl, h₃, h₄⟩ | ⟨s, -, h₃⟩
      · rcases judgeIsValidPath_fill h₃ with ho₃ | ⟨t₅, t₆, s, rfl, rfl, hm, h₅, ho₆⟩
        · exact .none (only_append.mpr ⟨ho₂, only_append.mpr ⟨ho₃, htell _ _ _ h₄⟩⟩)
        · exact .one rfl (congrArg _ (List.append_assoc ..)) ho₂ hl hfl hm h₅
            (only_append.mpr ⟨ho₆, htell _ _ _ h₄⟩)
      · rcases judgeIsValidPath_fill h₃ with ho₃ | ⟨t₅, t₆, s, rfl, rfl, hm, h₅, ho₆⟩
        · exact .none (only_append.mpr ⟨ho₂, ho₃⟩)
        · exact .one rfl rfl ho₂ hl hfl hm h₅ ho₆

/-! ### What a fill says -/

/-- What a fill sends, in full. -/
def fillTail (path : Bytes) : Bytes := le64 0 ++ le64 0 ++ ensureRequest path

/-- The course of one fill with the host daemon. -/
structure FillBytes (advertised : List Bytes) (path : Bytes) (t : IoTrace)
    (s : Except Stop Unit) : Prop where
  beginning : Beginning advertised (· = fillTail path) (recvd .fill t) (sent .fill t)
  direct : sent .fill t ≠ [] → Direct path
  success : s = .ok () → ∃ n x y g logs logs', UpstreamTalk advertised n x y ∧ headerFormat () g ∧
    Logs logs ∧ Logs logs' ∧ sent .fill t = y ++ fillTail path ∧
    recvd .fill t = x ++ (g ++ (Reply.last logs []).encode) ++ (Reply.last logs' (le64 1)).encode

theorem Beginning.fillTail {advertised : List Bytes} {x y : Bytes} (path : Bytes)
    (h : Beginning advertised (· = le64 0 ++ le64 0) x y) :
    Beginning advertised (· = fillTail path) x y := by
  rcases h with h | ⟨word, z, ha, hw, rfl, h⟩
  · exact .inl h
  · refine .inr ⟨word, _, ha, hw, rfl, h.trans ?_⟩
    rw [← List.append_assoc, ← List.append_assoc _ _ (Claudepod.fillTail path), Claudepod.fillTail,
      ← List.append_assoc _ (le64 0 ++ le64 0)]
    exact List.prefix_append ..

theorem ensurePath_bytes {advertised : List Bytes} {fuel : Nat} {upstreamPath path : Bytes}
    {t : IoTrace} {s : Except Stop Unit}
    (h : (ensurePath advertised fuel upstreamPath path).Runs t s) :
    FillBytes advertised path t s := by
  -- Nothing is sent before the path has been checked.
  have hnone : ∀ {t : IoTrace} {s : Stop},
      sent .fill t = [] → FillBytes advertised path t (.error s) := fun h =>
    ⟨by rw [h]; exact .inl List.nil_prefix, fun hn => absurd h hn, nofun⟩
  have hdial : ∀ {t : IoTrace} {r : Except Stop Unit}, (dial .fill).Runs t r →
      sent .fill t = [] ∧ recvd .fill t = [] := fun h => by
    rcases dial_runs.mp h with ⟨rfl, -⟩ | ⟨f, rfl, -⟩
    · exact ⟨rfl, rfl⟩
    · exact ⟨rfl, rfl⟩
  rcases (Comp.runs_bind _).mp h with ⟨⟨⟩, t₁, u, rfl, h₁, h⟩ | ⟨s, rfl, h₁⟩
  swap
  · obtain ⟨s', h₁, -⟩ := (Comp.runs_mapStop_error _ _).mp h₁
    exact hnone (hdial h₁).1
  obtain ⟨hs₁, hr₁⟩ := hdial ((Comp.runs_mapStop_ok _ _).mp h₁)
  rw [ensurePathOnConnection_eq] at h
  rcases (Comp.runs_bind _).mp h with ⟨⟨⟩, t₂, u, rfl, h₂, h'⟩ | ⟨s, rfl, h₂⟩
  swap
  · obtain ⟨s', h₂, -⟩ := (Comp.runs_mapStop_error _ _).mp h₂
    have ht : u = [] := by
      cases hv : validateDirect path with
      | ok a => rw [hv] at h₂; cases ((Comp.runs_pure _ _).mp h₂).2
      | error e => rw [hv] at h₂; exact ((Comp.runs_throw _ _).mp h₂).1
    subst ht
    exact hnone (by rw [List.append_nil]; exact hs₁)
  have hdirect : t₂ = [] ∧ Direct path := by
    have h₂ := (Comp.runs_mapStop_ok _ _).mp h₂
    cases hv : validateDirect path with
    | ok a =>
      rw [hv] at h₂
      exact ⟨((Comp.runs_pure _ _).mp h₂).1, validateDirect_ok.mp hv⟩
    | error e => rw [hv] at h₂; cases ((Comp.runs_throw _ _).mp h₂).2
  obtain ⟨rfl, hd⟩ := hdirect
  rw [List.nil_append]
  have hsent : ∀ v, sent .fill (t₁ ++ v) = sent .fill v := fun v => by rw [sent_append, hs₁]; rfl
  have hrecv : ∀ v, recvd .fill (t₁ ++ v) = recvd .fill v := fun v => by rw [recvd_append, hr₁]; rfl
  rcases (Comp.runs_bind _).mp h' with ⟨⟨⟩, t₃, u, rfl, h₃, h'⟩ | ⟨s, rfl, h₃⟩
  swap
  · refine ⟨?_, fun _ => hd, nofun⟩
    rw [hsent, hrecv]
    exact (greetHost_beginning h₃).fillTail path
  obtain ⟨n, x, y, g, logs, hu, hg, hl, hrecv₃, hsent₃⟩ := greetHost_ok h₃
  have hreq := writeEnsurePath_emits path
  -- What is sent behind the start is a prefix of the request.
  have hpre : sent .fill u <+: ensureRequest path := by
    rcases (Comp.runs_bind _).mp h' with ⟨⟨⟩, t₄, t₅, rfl, h₄, h₅⟩ | ⟨s, rfl, h₄⟩
    · rw [sent_append, (hreq.sound h₄).2, (hearEnsured_silent _ _).sent_nil h₅, List.append_nil]
    · exact hreq.sent_part h₄
  refine ⟨?_, fun _ => hd, ?_⟩
  · rw [hsent, hrecv]
    refine .of_talk hu ?_ rfl (z := fillTail path) ?_
    · rw [recvd_append, hrecv₃, List.append_assoc]
      exact List.prefix_append ..
    · rw [sent_append, hsent₃, fillTail, List.append_assoc]
      exact (List.prefix_append_right_inj _).mpr ((List.prefix_append_right_inj _).mpr hpre)
  · rintro rfl
    obtain ⟨⟨⟩, t₄, t₅, rfl, h₄, h₅⟩ := (Comp.runs_bind_ok _).mp h'
    obtain ⟨logs', hl', hr₅⟩ := hearEnsured_ok h₅
    refine ⟨n, x, y, g, logs, logs', hu, hg, hl, hl', ?_, ?_⟩
    · rw [hsent, sent_append, sent_append, hsent₃, (hreq.sound h₄).2,
        (hearEnsured_silent _ _).sent_nil h₅, List.append_nil, fillTail, List.append_assoc]
    · rw [hrecv, recvd_append, recvd_append, hrecv₃, recvd_of_puts (hreq.only h₄), hr₅,
        List.nil_append]

/-! ### The session of a proxy -/

/-- The manifest a proxy has loaded, if it was given one. -/
inductive Loaded : Option Bytes → Option NixRunRoots → Prop
  | none : Loaded none none
  | parsed {raw : Bytes} {roots : NixRunRoots} : parseManifest raw = .ok roots →
      Loaded (some raw) (some roots)

def manifestLines : Option Bytes → List Bytes
  | none => []
  | some raw => raw.splitOn newline

theorem Loaded.line {manifest : Option Bytes} {roots : Option NixRunRoots} {path : Bytes}
    (h : Loaded manifest roots) (hf : fillable roots path = true) (hd : Direct path) :
    path ∈ manifestLines manifest := by
  cases h with
  | none => cases hf
  | parsed hm => exact mem_lines_of_contains hm hf hd

/-- A fill that the guest and the host between them have called for: the guest asked for this
path, the host was asked for it and has answered 0, and it is a line of the manifest if the
fill says anything at all. -/
structure Authorised (manifest : Option Bytes) (path : Bytes) (before t : IoTrace)
    (s : Except Stop Unit) : Prop extends FillBytes ourFeatures path t s where
  asked : recvd .guest before = encString path
  passedOn : sent .host before = (Request.isValidPath path).encode
  answered : ∃ logs, Logs logs ∧ recvd .host before = (Reply.last logs (le64 0)).encode
  line : sent .fill t ≠ [] → path ∈ manifestLines manifest

/-- The fills of one op of a proxy. -/
inductive AuthorisedFill (manifest : Option Bytes) (word : UInt64) (t : IoTrace) : Prop
  | none : Only unfilled t → AuthorisedFill manifest word t
  | one {t₁ t₂ t₃ : IoTrace} {path : Bytes} {s : Except Stop Unit} :
      word = Op.isValidPath.word → t = t₁ ++ (t₂ ++ t₃) → Only unfilled t₁ → Only unfilled t₃ →
      Authorised manifest path t₁ t₂ s → AuthorisedFill manifest word t

theorem serveOp_authorised {manifest : Option Bytes} {roots : Option NixRunRoots}
    {upstreamPath : Bytes} {fuel : Nat} {n : Negotiated} {word : UInt64} {t : IoTrace}
    {r : Except Stop Unit} (hm : Loaded manifest roots)
    (h : (serveOp (proxySetup roots upstreamPath fuel) n word).Runs t r) :
    AuthorisedFill manifest word t := by
  cases serveOp_fill h with
  | none ho => exact .none (ho.mono unfilled_of_steady)
  | @one t₁ t₂ t₃ path logs s hw ht ho₁ hl hf hfill hr ho₃ =>
    have hb : FillBytes ourFeatures path t₂ s := ensurePath_bytes hr
    exact .one hw ht (ho₁.mono unfilled_of_steady) (ho₃.mono unfilled_of_steady)
      ⟨hb, congrArg Flow.fromGuest hf, congrArg Flow.toHost hf,
        ⟨logs, hl, congrArg Flow.fromHost hf⟩, fun hn => hm.line hfill (hb.direct hn)⟩

/-- The host knows the path once a fill over a second connection has ensured it. -/
def proxySample : Outcome (Resp Leg IoError Error) (Except Stop Unit) (World Leg IoError Error) :=
  (proxyRelay (some ⟨[samplePath]⟩) [] 8).exec World.step
    { sessionWorld (guestSample [.isValidPath samplePath]) [] [] with
      dials := [.ok (Peer.script (hostSample [.last [] (le64 0), .last [] (le64 1)])),
        .ok (Peer.script (hostSample [.last [] (le64 1)]))] }

end Claudepod
