import Claudepod.Opening

/-! How a connection to the host daemon starts, and the course of a fill on a connection of
its own. -/

set_option autoImplicit false

namespace Claudepod
open Interaction

/-- What the host was sent is the beginning of a handshake and of a `tail` behind it; the
feature list is the one that the host's version calls for. -/
def Beginning (advertised : List Bytes) (tail : Bytes → Prop) (fromHost toHost : Bytes) : Prop :=
  toHost <+: hostHello ∨ ∃ word z, Accepted word ∧ le64 workerMagic2 ++ le64 word <+: fromHost ∧
    tail z ∧ toHost <+:
      hostHello ++ (exchanged (min (Version.fromWire word) ourVersion) advertised ++ z)

/-- The handshake succeeded and the greeting ended with `STDERR_LAST`. -/
def Greeted (advertised : List Bytes) (fromHost : Bytes) : Prop :=
  ∃ n x y g logs, UpstreamTalk advertised n x y ∧ headerFormat () g ∧ Logs logs ∧
    x ++ (g ++ (Reply.last logs []).encode) <+: fromHost

section Beginning

variable {advertised : List Bytes} {tail tail' : Bytes → Prop} {x x' y y' z : Bytes}
  {n : Negotiated}

theorem Beginning.mono (h : Beginning advertised tail x y) (hx : x <+: x') (hy : y' <+: y) :
    Beginning advertised tail x' y' := by
  rcases h with h | ⟨word, z, ha, hw, hz, h⟩
  · exact .inl (hy.trans h)
  · exact .inr ⟨word, z, ha, hw.trans hx, hz, hy.trans h⟩

theorem Beginning.weaken (h : Beginning advertised tail x y) (ht : ∀ z, tail z → tail' z) :
    Beginning advertised tail' x y :=
  h.imp id fun ⟨word, z, ha, hw, hz, h⟩ => ⟨word, z, ha, hw, ht z hz, h⟩

theorem Greeted.mono (h : Greeted advertised x) (hx : x <+: x') : Greeted advertised x' := by
  obtain ⟨n, x, y, g, logs, hu, hg, hl, hp⟩ := h
  exact ⟨n, x, y, g, logs, hu, hg, hl, hp.trans hx⟩

theorem UpstreamTalk.hello (h : UpstreamTalk advertised n x y) :
    y = hostHello ++ exchanged n.version advertised := by
  obtain ⟨word, fs, -, -, -, -, rfl⟩ := h
  exact (List.append_assoc ..).symm

/-- The daemon's word, in front of what it says. -/
theorem UpstreamTalk.word (h : UpstreamTalk advertised n x y) :
    ∃ word, Accepted word ∧ n.version = min (Version.fromWire word) ourVersion ∧
      le64 workerMagic2 ++ le64 word <+: x := by
  obtain ⟨word, fs, ha, -, hn, rfl, -⟩ := h
  refine ⟨word, ha, by rw [hn], ?_⟩
  rw [← List.append_assoc]
  exact List.prefix_append ..

theorem Beginning.of_talk (h : UpstreamTalk advertised n x y) (hx : x <+: x') (hz : tail z)
    (hy : y' <+: y ++ z) : Beginning advertised tail x' y' := by
  obtain ⟨word, ha, hv, hw⟩ := h.word
  refine .inr ⟨word, z, ha, hw.trans hx, hz, ?_⟩
  rwa [h.hello, hv, List.append_assoc] at hy

theorem Beginning.of_stopped {c : Leg} {t : IoTrace} {s : Stop} (hz : tail z)
    (h : (upstream advertised c).Runs t (.error s)) :
    Beginning advertised tail (recvd c t) (sent c t) := by
  rcases upstream_stopped h with h | ⟨word, ha, hv, hw, hs⟩
  · exact .inl h
  · refine .inr ⟨word, z, ha, hw, hz, hs.trans ?_⟩
    rw [exchanged, if_pos hv, ← List.append_assoc]
    exact List.prefix_append ..

end Beginning

/-- A feature list can be told apart from what follows it. -/
theorem exchanged_unambiguous {version : Version} {fs gs : List Bytes} {u v : Bytes}
    (he : featureExchange ≤ version) (hf : FeatureList fs) (hg : FeatureList gs)
    (h : exchanged version fs ++ u = exchanged version gs ++ v) : fs = gs := by
  rw [exchanged, exchanged, if_pos he, if_pos he] at h
  exact ((readStringList_decodes .host maxFeatures maxGuestString).unambiguous
    ⟨⟨hf.count, hf.lengths⟩, rfl⟩ ⟨⟨hg.count, hg.lengths⟩, rfl⟩ h).1

theorem UpstreamTalk.unambiguous {advertised : List Bytes} {n m : Negotiated}
    {x x' y y' u v : Bytes} (h : UpstreamTalk advertised n x y)
    (h' : UpstreamTalk advertised m x' y')
    (he : x ++ u = x' ++ v) : u = v := by
  obtain ⟨word, fs, -, hfs, rfl, rfl, -⟩ := h
  obtain ⟨word', fs', -, hfs', rfl, rfl, -⟩ := h'
  simp only [List.append_assoc] at he
  obtain ⟨-, he⟩ := List.append_inj he rfl
  obtain ⟨hw, he⟩ := List.append_inj he (by simp)
  obtain rfl := le64_injective hw
  by_cases hv : featureExchange ≤ min (Version.fromWire word) ourVersion
  · obtain rfl := exchanged_unambiguous hv (hfs hv) (hfs' hv) he
    exact List.append_cancel_left he
  · rwa [exchanged, exchanged, if_neg hv, if_neg hv] at he

/-! ### A client on the connection of a fill -/

theorem drainToLast_ok {fuel : Nat} {c : Leg} {t : IoTrace}
    (h : (drainToLast fuel c).Runs t (.ok ())) :
    ∃ logs, Logs logs ∧ recvd c t = (Reply.last logs []).encode := by
  obtain ⟨d, t₁, t₂, rfl, h₁, h₂⟩ := (Comp.runs_bind_ok _).mp h
  cases d with
  | error message => cases ((Comp.runs_throw _ _).mp h₂).2
  | last =>
    obtain ⟨rfl, -⟩ := (Comp.runs_pure _ _).mp h₂
    obtain ⟨-, hd⟩ := drainFrom_runs h₁
    obtain ⟨logs, m, hl, hm, hmd, hrecv⟩ := hd _ rfl
    cases m with
    | last =>
      refine ⟨logs, hl, ?_⟩
      rw [List.append_nil, hrecv, reply_last, List.append_nil]
      rfl
    | _ => cases hmd

/-- What a fill says after its handshake, the two obsolete fields. -/
def fillFields : Async Unit := do
  writeU64 .fill 0
  writeU64 .fill 0

/-- The daemon's introduction and its greeting. -/
def hearGreeting (fuel : Nat) : Async Unit := do
  flush .fill
  let _ ← context "daemon version" (readString .fill maxHostString)
  let _ ← context "daemon trusted flag" (readU64 .fill)
  context "daemon greeting" (drainToLast fuel .fill)

def greetHost (advertised : List Bytes) (fuel : Nat) : Async Unit := do
  let _ ← context "host daemon handshake" (upstream advertised .fill)
  fillFields
  hearGreeting fuel

def writeEnsurePath (storePath : Bytes) : Async Unit := do
  writeU64 .fill opEnsurePath
  writeString .fill storePath

def hearEnsured (fuel : Nat) : Async Unit := do
  flush .fill
  match ← attempt (drainToLast fuel .fill) with
  | .error err => bail s!"EnsurePath stderr: {err.render}"
  | .ok () => do
    let success ← context "EnsurePath result" (readU64 .fill)
    ensure (success = 1) s!"EnsurePath returned unexpected success word {success}"

/-- A fill is a check of the path, the start of a client, and one request. -/
theorem ensurePathOnConnection_eq (advertised : List Bytes) (fuel : Nat) (storePath : Bytes) :
    ensurePathOnConnection advertised fuel storePath =
      context s!"EnsurePath target {display storePath}" (ofExcept (validateDirect storePath)) >>=
        fun _ => greetHost advertised fuel >>= fun _ => writeEnsurePath storePath >>= fun _ =>
          hearEnsured fuel := by
  simp only [ensurePathOnConnection, greetHost, fillFields, hearGreeting, writeEnsurePath,
    bind_assoc]
  rfl

/-- The bytes of the request of a fill. -/
def ensureRequest (storePath : Bytes) : Bytes := le64 opEnsurePath ++ encString storePath

theorem fillFields_emits : Emits .fill fillFields () (le64 0 ++ le64 0) :=
  (writeU64_emits .fill 0).andThen (writeU64_emits .fill 0)

theorem writeEnsurePath_emits (storePath : Bytes) :
    Emits .fill (writeEnsurePath storePath) () (ensureRequest storePath) :=
  (writeU64_emits .fill opEnsurePath).andThen (writeString_emits .fill storePath)

theorem drainToLast_silent (c : Leg) (fuel : Nat) : Silent c (drainToLast fuel .fill) :=
  (drainToLast_acts fuel .fill).mono fun e he => by
    obtain ⟨o, r⟩ := e
    cases o <;> simp_all [reads, writesTo]

theorem hearGreeting_silent (c : Leg) (fuel : Nat) : Silent c (hearGreeting fuel) :=
  Comp.ActsIn.bind (flush_acts fun _ h => h) fun _ =>
    ((readString_decodes .fill maxHostString).silent c).mapStop.bind fun _ =>
    ((readU64_decodes .fill).silent c).mapStop.bind fun _ => (drainToLast_silent c fuel).mapStop

theorem hearEnsured_silent (c : Leg) (fuel : Nat) : Silent c (hearEnsured fuel) :=
  Comp.ActsIn.bind (flush_acts fun _ h => h) fun _ => (drainToLast_silent c fuel).attempt.bind fun
    | .error _ => .throw _
    | .ok () => ((readU64_decodes .fill).silent c).mapStop.bind fun _ =>
      (decodes_check (c := .fill)).silent c

theorem hearGreeting_ok {fuel : Nat} {t : IoTrace} (h : (hearGreeting fuel).Runs t (.ok ())) :
    ∃ g logs, headerFormat () g ∧ Logs logs ∧
      recvd .fill t = g ++ (Reply.last logs []).encode := by
  obtain ⟨⟨⟩, t₁, u, rfl, h₁, h⟩ := (Comp.runs_bind_ok _).mp h
  obtain ⟨s, t₂, u, rfl, h₂, h⟩ := (Comp.runs_bind_ok _).mp h
  obtain ⟨w, t₃, t₄, rfl, h₃, h₄⟩ := (Comp.runs_bind_ok _).mp h
  obtain ⟨logs, hl, hr⟩ := drainToLast_ok ((Comp.runs_mapStop_ok _ _).mp h₄)
  have hs := (readString_decodes .fill maxHostString).sound ((Comp.runs_mapStop_ok _ _).mp h₂)
  have hw := (readU64_decodes .fill).sound ((Comp.runs_mapStop_ok _ _).mp h₃)
  refine ⟨recvd .fill t₂ ++ recvd .fill t₃, logs, ?_, hl, ?_⟩
  · exact ⟨(), _, recvd .fill t₃, ⟨s, hs⟩, ⟨w, _, [], hw, ⟨rfl, rfl⟩, by simp⟩, rfl⟩
  · rw [recvd_append, recvd_append, recvd_append, recvd_of_puts ((flush_emits .fill).only h₁), hr,
      List.nil_append, List.append_assoc]

/-- How far a fill has come with the host when its start is over, however it ended. -/
theorem greetHost_beginning {advertised : List Bytes} {fuel : Nat} {t : IoTrace}
    {r : Except Stop Unit} (h : (greetHost advertised fuel).Runs t r) :
    Beginning advertised (· = le64 0 ++ le64 0) (recvd .fill t) (sent .fill t) := by
  have hu := upstream_converses advertised .fill
  rcases (Comp.runs_bind _).mp h with ⟨n, t₁, u, rfl, h₁, h⟩ | ⟨s, -, h₁⟩
  swap
  · obtain ⟨s', h₁, -⟩ := (Comp.runs_mapStop_error _ _).mp h₁
    exact .of_stopped rfl h₁
  have ht := hu.sound ((Comp.runs_mapStop_ok _ _).mp h₁)
  refine .of_talk ht (by rw [recvd_append]; exact List.prefix_append ..) rfl ?_
  rw [sent_append]
  refine (List.prefix_append_right_inj _).mpr ?_
  rcases (Comp.runs_bind _).mp h with ⟨⟨⟩, t₂, t₃, rfl, h₂, h₃⟩ | ⟨s, -, h₂⟩
  · rw [sent_append, (fillFields_emits.sound h₂).2, (hearGreeting_silent _ _).sent_nil h₃,
      List.append_nil]
  · exact fillFields_emits.sent_part h₂

theorem greetHost_ok {advertised : List Bytes} {fuel : Nat} {t : IoTrace}
    (h : (greetHost advertised fuel).Runs t (.ok ())) :
    ∃ n x y g logs, UpstreamTalk advertised n x y ∧ headerFormat () g ∧ Logs logs ∧
      recvd .fill t = x ++ (g ++ (Reply.last logs []).encode) ∧
      sent .fill t = y ++ (le64 0 ++ le64 0) := by
  obtain ⟨n, t₁, u, rfl, h₁, h⟩ := (Comp.runs_bind_ok _).mp h
  obtain ⟨⟨⟩, t₂, t₃, rfl, h₂, h₃⟩ := (Comp.runs_bind_ok _).mp h
  have ht := (upstream_converses advertised .fill).sound ((Comp.runs_mapStop_ok _ _).mp h₁)
  obtain ⟨g, logs, hg, hl, hr⟩ := hearGreeting_ok h₃
  refine ⟨n, _, _, g, logs, ht, hg, hl, ?_, ?_⟩
  · rw [recvd_append, recvd_append, recvd_of_puts (fillFields_emits.only h₂), hr, List.nil_append]
  · rw [sent_append, sent_append, (fillFields_emits.sound h₂).2,
      (hearGreeting_silent _ _).sent_nil h₃, List.append_nil]

theorem hearEnsured_ok {fuel : Nat} {t : IoTrace} (h : (hearEnsured fuel).Runs t (.ok ())) :
    ∃ logs, Logs logs ∧ recvd .fill t = (Reply.last logs (le64 1)).encode := by
  obtain ⟨⟨⟩, t₁, u, rfl, h₁, h⟩ := (Comp.runs_bind_ok _).mp h
  obtain ⟨o, t₂, t₃, rfl, h₂, h₃⟩ := (Comp.runs_bind_ok _).mp h
  cases o with
  | error err => cases ((Comp.runs_throw _ _).mp h₃).2
  | ok v =>
    rcases (Comp.runs_attempt _ _).mp h₂ with ⟨a, h₂, -⟩ | ⟨e, z, -, -, ho⟩ | ⟨e, -, -, ho⟩
    · obtain ⟨logs, hl, hr⟩ := drainToLast_ok h₂
      obtain ⟨success, t₄, t₅, rfl, h₄, h₅⟩ := (Comp.runs_bind_ok _).mp h₃
      have hw := (readU64_decodes .fill).sound ((Comp.runs_mapStop_ok _ _).mp h₄)
      obtain ⟨rfl, ⟨rfl, -⟩ | ⟨-, he⟩⟩ := Proc.runs_require.mp h₅
      · refine ⟨logs, hl, ?_⟩
        rw [recvd_append, recvd_append, recvd_of_puts ((flush_emits .fill).only h₁), hr,
          List.append_nil, hw.2, reply_last, reply_last, List.append_nil, List.append_assoc]
        rfl
      · cases he
    · cases ho
    · cases ho

end Claudepod
