import Claudepod.Loop

/-! The opening of a session: both handshakes, the client fields, the daemon's introduction
and its greeting. -/

set_option autoImplicit false

namespace Claudepod
open Interaction

/-- The bytes the proxy sends the host first. -/
def hostHello : Bytes := le64 workerMagic1 ++ le64 ourVersion.toWire

/-- The client fields: a word, a second one if the first is not zero, and a last one. -/
def clientFormat : Format UInt64 :=
  wordFormat.bind fun affinity =>
    if affinity ≠ 0 then wordFormat.bind fun _ => wordFormat else wordFormat

/-- The version string of the host daemon and its trusted flag. -/
def header : Async Unit := do
  copyString .host .guest maxHostString
  let _ ← copyU64 .host .guest
  pure ()

def headerFormat : Format Unit :=
  (stringFormat maxHostString).erase.bind fun _ => wordFormat.bind fun _ => Format.pure ()

/-- A reply without a result. -/
def Reply.Bare : Reply → Prop
  | .error logs e => Logs logs ∧ e.Valid
  | .last logs result => Logs logs ∧ result = []

def greet (fuel : Nat) : Async Unit := do
  let _ ← context "greeting" (relay fuel .host .guest)
  flush .guest

theorem greeting_eq (fuel : Nat) : greeting fuel = header >>= fun _ => greet fuel := by
  simp only [greeting, header, greet, bind_assoc, pure_bind]

theorem clientFields_copies : Copies .guest .host clientFields clientFormat :=
  (copyU64_copies .guest .host).bind fun _ =>
    .ite ((copyU64_copies .guest .host).bind fun _ => copyU64_copies .guest .host)
      (copyU64_copies .guest .host)

theorem wordFormat_continues {α : Type} (F : Format α) : F.Continues fun _ => wordFormat :=
  fun _ _ _ => ⟨0, le64 0, trivial, rfl⟩

theorem clientFields_extends : Extends .host clientFields clientFormat := by
  have hw := copyU64_extends .guest .host
  refine hw.bind (copyU64_copies .guest .host) (fun affinity => .ite (hw.bind
    (copyU64_copies .guest .host) (fun _ => hw) (wordFormat_continues _)) hw) fun affinity x _ => ?_
  by_cases h : affinity ≠ 0
  · rw [if_pos h]
    exact ⟨0, le64 0 ++ le64 0, 0, _, _, ⟨trivial, rfl⟩, ⟨trivial, rfl⟩, rfl⟩
  · rw [if_neg h]
    exact ⟨0, le64 0, trivial, rfl⟩

theorem header_copies : Copies .host .guest header headerFormat :=
  (copyString_copies .host .guest _).bind fun _ => (copyU64_copies .host .guest).bind fun _ =>
    .pure ()

/-- What the upstream leg has sent when it gives up: the hello at most, or part of the
feature list behind it, if the daemon's version calls for one. -/
theorem upstream_stopped {advertised : List Bytes} {c : Leg} {t : IoTrace} {s : Stop}
    (h : (upstream advertised c).Runs t (.error s)) :
    sent c t <+: hostHello ∨ ∃ word, Accepted word ∧
      featureExchange ≤ min (Version.fromWire word) ourVersion ∧
      le64 workerMagic2 ++ le64 word <+: recvd c t ∧
      sent c t <+: hostHello ++ encStringList advertised := by
  rw [upstream_eq] at h
  have hh := hello_emits c workerMagic1 ourVersion
  have hd := daemonVersion_decodes c
  rcases (Comp.runs_bind _).mp h with ⟨⟨⟩, t₁, u, rfl, h₁, h⟩ | ⟨s, -, h₁⟩
  swap
  · exact .inl (hh.sent_part h₁)
  rcases (Comp.runs_bind _).mp h with ⟨version, t₂, t₃, rfl, h₂, h₃⟩ | ⟨s, -, h₂⟩
  swap
  · left
    rw [sent_append, (hh.sound h₁).2, hd.sent_nil h₂, List.append_nil]
    exact List.prefix_rfl
  right
  obtain ⟨word, ha, rfl, hx⟩ := hd.sound h₂
  have hl := writeStringList_emits c advertised
  unfold offerFeatures at h₃
  split at h₃
  swap
  · cases ((Comp.runs_pure _ _).mp h₃).2
  rename_i hv
  refine ⟨word, ha, hv, ?_, ?_⟩
  · rw [recvd_append, recvd_append, recvd_of_puts (hh.only h₁), hx, List.nil_append]
    exact List.prefix_append ..
  · rw [sent_append, sent_append, (hh.sound h₁).2, hd.sent_nil h₂, List.nil_append]
    refine (List.prefix_append_right_inj _).mpr ?_
    rcases (Comp.runs_bind _).mp h₃ with ⟨⟨⟩, t₄, u, rfl, h₄, h⟩ | ⟨s, -, h₄⟩
    swap
    · exact hl.sent_part h₄
    rcases (Comp.runs_bind _).mp h with ⟨⟨⟩, t₅, t₆, rfl, h₅, h₆⟩ | ⟨s, -, h₅⟩
    swap
    · rw [sent_append, (hl.sound h₄).2, List.prefix_nil.mp ((flush_emits c).sent_part h₅),
        List.append_nil]
    have hs : sent c t₆ = [] := by
      rcases (Comp.runs_bind _).mp h₆ with ⟨fs, t₇, t₈, rfl, h₇, h₈⟩ | ⟨s, -, h₇⟩
      · cases ((Comp.runs_pure _ _).mp h₈).2
      · exact (readFeatures_decodes c).sent_nil h₇
    rw [sent_append, sent_append, (hl.sound h₄).2, ((flush_emits c).sound h₅).2, hs,
      List.append_nil, List.append_nil]

/-! ### The two legs in turn -/

/-- Everything up to the daemon's introduction, it included. -/
def introduction (setup : Setup) : Async Negotiated := do
  let negotiated ← handshakes setup.advertised
  postHandshake
  header
  pure negotiated

theorem opening_eq (setup : Setup) :
    opening setup = introduction setup >>= fun n => greet setup.fuel >>= fun _ => pure n := by
  simp only [opening, introduction, greeting_eq, bind_assoc, pure_bind]

/-- What has passed on the four streams when both handshakes are through. -/
def HandshakeFlow (advertised : List Bytes) (n : Negotiated) (f : Flow) : Prop :=
  ∃ x y u v, UpstreamTalk advertised n x y ∧ DownstreamTalk n u v ∧
    f = ⟨le64 workerMagic1 ++ u, y, x, v, []⟩

theorem flow_guest {t : IoTrace} (h : Only (fun e => reads .guest e ∨ puts .guest e) t) :
    flow t = ⟨recvd .guest t, [], [], sent .guest t, []⟩ := by
  rw [flow, recvd_other (x := .host) h (by decide), sent_other (x := .host) h (by decide),
    asks_eq_nil (h.mono fun _ => onWire_of_reads_or_puts)]

theorem flow_dial {c : Leg} {t : IoTrace} {r : Except Stop Unit} (h : (dial c).Runs t r) :
    flow t = ⟨[], [], [], [], []⟩ := by
  rcases dial_runs.mp h with ⟨rfl, -⟩ | ⟨f, rfl, -⟩
  · rfl
  · rfl

theorem handshakes_ok {advertised : List Bytes} {n : Negotiated} {t : IoTrace}
    (h : (handshakes advertised).Runs t (.ok n)) : HandshakeFlow advertised n (flow t) := by
  obtain ⟨⟨⟩, t₁, u, rfl, h₁, h⟩ := (Comp.runs_bind_ok _).mp h
  obtain ⟨⟨⟩, t₂, u, rfl, h₂, h⟩ := (Comp.runs_bind_ok _).mp h
  obtain ⟨n', t₃, u, rfl, h₃, h⟩ := (Comp.runs_bind_ok _).mp h
  obtain ⟨⟨⟩, t₄, t₅, rfl, h₄, h₅⟩ := (Comp.runs_bind_ok _).mp h
  obtain ⟨rfl, hn⟩ := (Comp.runs_pure _ _).mp h₅
  obtain rfl := Except.ok.inj hn
  have hm := guestMagic_decodes .guest
  have hu := upstream_converses advertised .host
  have hd := downstream_converses .guest n
  replace h₁ := (Comp.runs_mapStop_ok _ _).mp ((Comp.runs_mapStop_ok _ _).mp h₁)
  replace h₂ := (Comp.runs_mapStop_ok _ _).mp h₂
  replace h₃ := (Comp.runs_mapStop_ok _ _).mp h₃
  replace h₄ := (Comp.runs_mapStop_ok _ _).mp ((Comp.runs_mapStop_ok _ _).mp h₄)
  refine ⟨_, _, _, _, hu.sound h₃, hd.sound h₄, ?_⟩
  rw [List.append_nil, flow_append, flow_append, flow_append, flow_read_guest hm h₁, hm.sound h₁,
    flow_dial h₂, flow_host (hu.only h₃), flow_guest (hd.only h₄), Flow.nil_append, Flow.append_mk,
    Flow.append_mk]
  simp

/-- What passes once the handshakes are through, up to the first op. -/
structure OpeningFlow (f : Flow) : Prop where
  split : ∃ a z b g reply, clientFormat a z ∧ headerFormat b g ∧ Reply.Bare reply ∧
    f = ⟨z, z, g ++ reply.encode, g ++ reply.encode, []⟩

theorem postHandshake_ok {t : IoTrace} (h : postHandshake.Runs t (.ok ())) :
    ∃ a z, clientFormat a z ∧ flow t = ⟨z, z, [], [], []⟩ := by
  obtain ⟨a, t₁, t₂, rfl, h₁, h₂⟩ := (Comp.runs_bind_ok _).mp h
  replace h₁ := (Comp.runs_mapStop_ok _ _).mp ((Comp.runs_mapStop_ok _ _).mp h₁)
  obtain ⟨hz, hs⟩ := clientFields_copies.sound h₁
  exact ⟨a, _, hz, by rw [flow_append, flow_up (clientFields_copies.only h₁), hs, flow_flush h₂,
    Flow.append_nil]⟩

theorem header_ok {t : IoTrace} (h : header.Runs t (.ok ())) :
    ∃ g, headerFormat () g ∧ flow t = ⟨[], [], g, g, []⟩ := by
  obtain ⟨hg, hs⟩ := header_copies.sound h
  exact ⟨_, hg, by rw [flow_down (header_copies.only h), hs]⟩

theorem greet_ok {fuel : Nat} {t : IoTrace} (h : (greet fuel).Runs t (.ok ())) :
    ∃ reply, Reply.Bare reply ∧ flow t = ⟨[], [], reply.encode, reply.encode, []⟩ := by
  obtain ⟨term, t₁, t₂, rfl, h₁, h₂⟩ := (Comp.runs_bind_ok _).mp h
  have hr := relayInner_runs ((Comp.runs_mapStop_ok _ _).mp h₁)
  obtain ⟨logs, m, hlogs, hm, ht, hrecv, hsent⟩ := hr.ok
  rw [flow_append, flow_down hr.only, hrecv, hsent, flow_flush h₂, Flow.append_nil]
  rcases terminal_cases ht with ⟨rfl, rfl⟩ | ⟨e, rfl, rfl⟩
  · refine ⟨.last logs [], ⟨hlogs, rfl⟩, ?_⟩
    rw [reply_last, List.append_nil]
    rfl
  · exact ⟨.error logs e, ⟨hlogs, hm⟩, rfl⟩

theorem introduction_ok {setup : Setup} {n : Negotiated} {t : IoTrace}
    (h : (introduction setup).Runs t (.ok n)) :
    ∃ t₀ t₁ a z g, t = t₀ ++ t₁ ∧ (handshakes setup.advertised).Runs t₀ (.ok n) ∧
      clientFormat a z ∧ headerFormat () g ∧ flow t₁ = ⟨z, z, g, g, []⟩ := by
  obtain ⟨n', t₀, u, rfl, h₀, h⟩ := (Comp.runs_bind_ok _).mp h
  obtain ⟨⟨⟩, t₁, u, rfl, h₁, h⟩ := (Comp.runs_bind_ok _).mp h
  obtain ⟨⟨⟩, t₂, t₃, rfl, h₂, h₃⟩ := (Comp.runs_bind_ok _).mp h
  obtain ⟨rfl, hn⟩ := (Comp.runs_pure _ _).mp h₃
  obtain rfl := Except.ok.inj hn
  obtain ⟨a, z, hz, hf₁⟩ := postHandshake_ok h₁
  obtain ⟨g, hg, hf₂⟩ := header_ok h₂
  refine ⟨t₀, _, a, z, g, rfl, h₀, hz, hg, ?_⟩
  rw [List.append_nil, flow_append, hf₁, hf₂, Flow.append_mk, List.append_nil, List.append_nil,
    List.nil_append]

/-- An opening that succeeds is both handshakes and then bytes that pass unchanged. -/
theorem opening_ok {setup : Setup} {n : Negotiated} {t : IoTrace}
    (h : (opening setup).Runs t (.ok n)) :
    ∃ t₀ t₁, t = t₀ ++ t₁ ∧ (handshakes setup.advertised).Runs t₀ (.ok n) ∧
      OpeningFlow (flow t₁) := by
  rw [opening_eq] at h
  obtain ⟨n', t₁, u, rfl, h₁, h⟩ := (Comp.runs_bind_ok _).mp h
  obtain ⟨⟨⟩, t₂, t₃, rfl, h₂, h₃⟩ := (Comp.runs_bind_ok _).mp h
  obtain ⟨rfl, hn⟩ := (Comp.runs_pure _ _).mp h₃
  obtain rfl := Except.ok.inj hn
  obtain ⟨t₀, t₁, a, z, g, rfl, h₀, hz, hg, hf₁⟩ := introduction_ok h₁
  obtain ⟨reply, hr, hf₂⟩ := greet_ok h₂
  refine ⟨t₀, t₁ ++ (t₂ ++ []), List.append_assoc .., h₀, ⟨a, z, (), g, reply, hz, hg, hr, ?_⟩⟩
  rw [List.append_nil, flow_append, hf₁, hf₂, Flow.append_mk, List.append_nil, List.append_nil]

end Claudepod
