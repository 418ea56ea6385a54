import Claudepod.Fill

/-! What the greeting of a host daemon decides. A fill heeds it; a session passes an error on
to the guest and goes on. -/

set_option autoImplicit false

namespace Claudepod
open Interaction

def ClientFields (z : Bytes) : Prop := ∃ a, clientFormat a z

/-- At every point of the trace: what was sent on `c` is within a handshake and the client
fields, or the handshake was through and the greeting had ended with `STDERR_LAST`. -/
def GreetedFirst (advertised : List Bytes) (c : Leg) (t : IoTrace) : Prop :=
  ∀ before, before <+: t →
    Beginning advertised ClientFields (recvd c t) (sent c before) ∨
      Greeted advertised (recvd c before)

/-- An op that goes to the host. -/
def Forwarded (word : UInt64) : Prop := ∃ op, Op.allowed word = some op ∧ op ≠ .setOptions

/-- The host has greeted with an error. -/
def Refuses (advertised : List Bytes) (n : Negotiated) (fromHost : Bytes) : Prop :=
  ∃ x y g logs e, UpstreamTalk advertised n x y ∧ headerFormat () g ∧ Logs logs ∧
    ErrorPayload.Valid e ∧ fromHost = x ++ (g ++ (Reply.error logs e).encode)

/-- The host has greeted with an error, and the guest goes on to ask it something. -/
def AskedRefused (setup : Setup) (t : IoTrace) (r : Except Stop Unit) : Prop :=
  ∃ n t₀ turns rest, t = t₀ ++ (turnsTrace turns ++ rest) ∧ (opening setup).Runs t₀ (.ok n) ∧
    Looped setup n turns rest r ∧ Refuses setup.advertised n (recvd .host t₀) ∧
    ∃ x ∈ turns, Forwarded x.word

/-! ### Order -/

theorem sent_part {c : Leg} {t u : IoTrace} (h : t <+: u) : sent c t <+: sent c u := by
  obtain ⟨v, rfl⟩ := h
  rw [sent_append]
  exact List.prefix_append ..

theorem recvd_part {c : Leg} {t u : IoTrace} (h : t <+: u) : recvd c t <+: recvd c u := by
  obtain ⟨v, rfl⟩ := h
  rw [recvd_append]
  exact List.prefix_append ..

/-- A start, and then ops only if the greeting was heeded. -/
theorem greetedFirst_of {advertised : List Bytes} {c : Leg} {t u : IoTrace}
    (ht : Beginning advertised ClientFields (recvd c t) (sent c t))
    (hu : Greeted advertised (recvd c t) ∨ sent c u = []) : GreetedFirst advertised c (t ++ u) := by
  intro before hb
  have hx : recvd c t <+: recvd c (t ++ u) := recvd_part (List.prefix_append ..)
  rcases List.prefix_or_prefix_of_prefix hb (List.prefix_append t u) with h | ⟨v, rfl⟩
  · exact .inl (ht.mono hx (sent_part h))
  · rcases hu with hg | hs
    · exact .inr (hg.mono (recvd_part (List.prefix_append ..)))
    · have hv : sent c v = [] := by
        have hp := sent_part (c := c) ((List.prefix_append_right_inj t).mp hb)
        rw [hs] at hp
        exact List.prefix_nil.mp hp
      refine .inl (ht.mono hx ?_)
      rw [sent_append, hv, List.append_nil]

/-! ### Fills -/

theorem clientFields_zero : ClientFields (le64 0 ++ le64 0) :=
  ⟨0, 0, _, _, ⟨trivial, rfl⟩, ⟨trivial, rfl⟩, rfl⟩

theorem ensurePathOnConnection_greeted {advertised : List Bytes} {fuel : Nat} {path : Bytes}
    {t : IoTrace} {r : Except Stop Unit}
    (h : (ensurePathOnConnection advertised fuel path).Runs t r) :
    GreetedFirst advertised .fill t := by
  have hstart : ∀ {t r}, (greetHost advertised fuel).Runs t r →
      Beginning advertised ClientFields (recvd .fill t) (sent .fill t) := fun h =>
    (greetHost_beginning h).weaken fun z hz => hz ▸ clientFields_zero
  have hcheck : ∀ {t r}, (context s!"EnsurePath target {display path}"
      (ofExcept (validateDirect path))).Runs t r → t = [] := fun h => by
    obtain ⟨r', h, -⟩ := (Comp.runs_mapStop _ _).mp h
    cases hv : validateDirect path with
    | ok a => rw [hv] at h; exact ((Comp.runs_pure _ _).mp h).1
    | error e => rw [hv] at h; exact ((Comp.runs_throw _ _).mp h).1
  rw [ensurePathOnConnection_eq] at h
  rcases (Comp.runs_bind _).mp h with ⟨⟨⟩, t₁, u, rfl, h₁, h'⟩ | ⟨s, -, h₁⟩
  swap
  · obtain rfl := hcheck h₁
    intro before hb
    obtain rfl := List.prefix_nil.mp hb
    exact .inl (.inl List.nil_prefix)
  obtain rfl := hcheck h₁
  rw [List.nil_append]
  rcases (Comp.runs_bind _).mp h' with ⟨⟨⟩, t₂, t₃, rfl, h₂, -⟩ | ⟨s, -, h₂⟩
  · obtain ⟨n, x, y, g, logs, hu, hg, hl, hx, -⟩ := greetHost_ok h₂
    exact greetedFirst_of (hstart h₂) (.inl ⟨n, x, y, g, logs, hu, hg, hl, hx ▸ List.prefix_rfl⟩)
  · have hg := greetedFirst_of (u := []) (hstart h₂) (.inr rfl)
    rwa [List.append_nil] at hg

/-! ### Sessions -/

variable {setup : Setup} {n : Negotiated} {t : IoTrace}

/-- What an opening sends the host, however it ends, is within the client fields. -/
theorem opening_beginning {r : Except Stop Negotiated} (h : (opening setup).Runs t r) :
    Beginning setup.advertised ClientFields (recvd .host t) (sent .host t) := by
  obtain ⟨a₀, z₀, hz₀⟩ := clientFormat_inhabited
  cases r with
  | error s =>
    rcases opening_stopped h with h | ⟨word, ha, hv, hw, hs⟩ | ⟨n, x, y, a, z, hu, hx, hz, hs⟩
    · exact .inl h
    · refine .inr ⟨word, z₀, ha, hw, ⟨a₀, hz₀⟩, hs.trans ?_⟩
      rw [exchanged, if_pos hv, ← List.append_assoc]
      exact List.prefix_append ..
    · exact .of_talk hu hx ⟨a, hz⟩ hs
  | ok n =>
    obtain ⟨t₀, t₁, rfl, h₀, ⟨a, z, b, g, reply, hz, -, -, hf₁⟩⟩ := opening_ok h
    obtain ⟨x, y, u, v, hu, -, hf₀⟩ := handshakes_ok h₀
    have hx : recvd .host t₀ = x := congrArg Flow.fromHost hf₀
    have hy : sent .host t₀ = y := congrArg Flow.toHost hf₀
    have hz₁ : sent .host t₁ = z := congrArg Flow.toHost hf₁
    refine .of_talk hu ?_ ⟨a, hz⟩ ?_
    · rw [recvd_append, hx]
      exact List.prefix_append ..
    · rw [sent_append, hy, hz₁]

/-- An opening that succeeds has heard a greeting of one kind or the other. -/
theorem opening_greeted (h : (opening setup).Runs t (.ok n)) :
    Greeted setup.advertised (recvd .host t) ∨ Refuses setup.advertised n (recvd .host t) := by
  obtain ⟨t₀, t₁, rfl, h₀, ⟨a, z, b, g, reply, -, hg, hr, hf₁⟩⟩ := opening_ok h
  obtain ⟨x, y, u, v, hu, -, hf₀⟩ := handshakes_ok h₀
  have hx : recvd .host (t₀ ++ t₁) = x ++ (g ++ reply.encode) := by
    rw [recvd_append, show recvd .host t₀ = x from congrArg Flow.fromHost hf₀,
      show recvd .host t₁ = _ from congrArg Flow.fromHost hf₁]
  rw [hx]
  cases reply with
  | last logs result =>
    obtain ⟨hl, rfl⟩ := hr
    exact .inl ⟨n, x, y, g, logs, hu, hg, hl, List.prefix_rfl⟩
  | error logs e => exact .inr ⟨x, y, g, logs, e, hu, hg, hr.1, hr.2, rfl⟩

theorem serveOp_unforwarded {word : UInt64} (h : ¬ Forwarded word) :
    Silent .host (serveOp setup n word) := by
  cases ho : Op.allowed word with
  | none =>
    rw [serveOp_rejected ho]
    exact ((writeError_emits .guest _).silent (by decide)).bind fun _ => .throw _
  | some op =>
    obtain rfl := Op.word_of_allowed ho
    obtain rfl : op = .setOptions := not_not.mp fun hs => h ⟨op, ho, hs⟩
    rw [serveOp_swallowed]
    exact (orSyntheticError_silent ((copyArgs_copies .setOptions n .guest
      .sink).silent (by decide))).bind fun _ => ((writeU64_emits .guest _).silent
      (by decide)).bind fun _ => flush_silent .host .guest

theorem readOp_silent : Silent .host (readU64OrEof .guest) := fun _ _ h =>
  (readU64OrEof_runs h).1.mono fun e he => by
    obtain ⟨o, r⟩ := e
    cases o <;> simp_all [readsFrom, writesTo]

/-- A loop without a forwarded op sends the host nothing. -/
theorem Looped.unforwarded {turns : List Turn} {rest : IoTrace} {r : Except Stop Unit}
    (h : Looped setup n turns rest r) (hw : ∀ x ∈ turns, ¬ Forwarded x.word) :
    sent .host (turnsTrace turns ++ rest) = [] := by
  have hturn : ∀ {x : Turn}, x.Of setup n → ¬ Forwarded x.word → sent .host x.trace = [] :=
    fun hx hn => by
      rw [Turn.trace, sent_append, readOp_silent.sent_nil hx.read,
        (serveOp_unforwarded hn).sent_nil hx.serve, List.append_nil]
  induction h with
  | exhausted => rfl
  | hangup h => exact readOp_silent.sent_nil h
  | unread h => exact readOp_silent.sent_nil h
  | @cut x s hx _ =>
    rw [turnsTrace, List.flatMap_singleton, List.append_nil]
    exact hturn hx (hw x (.head _))
  | @turn x xs t r hx _ _ ih =>
    rw [turnsTrace, List.flatMap_cons, List.append_assoc, sent_append, hturn hx (hw x (.head _)),
      List.nil_append]
    exact ih fun y hy => hw y (.tail _ hy)

theorem run_greeted {r : Except Stop Unit} (h : (run setup).Runs t r)
    (hn : ¬ AskedRefused setup t r) : GreetedFirst setup.advertised .host t := by
  rcases run_runs h with ⟨s, rfl, h₀⟩ | ⟨n, t₀, turns, rest, rfl, h₀, hl⟩
  · have hg := greetedFirst_of (u := []) (opening_beginning h₀) (.inr rfl)
    rwa [List.append_nil] at hg
  · refine greetedFirst_of (opening_beginning h₀) ?_
    rcases opening_greeted h₀ with hg | hr
    · exact .inl hg
    · exact .inr (hl.unforwarded fun x hx hf => hn ⟨n, t₀, turns, rest, rfl, h₀, hl, hr, x, hx, hf⟩)

/-! ### The error that is not heeded -/

/-- A host that has refused and was sent more than the client fields was not heeded. -/
theorem not_greetedFirst {advertised : List Bytes} {c : Leg} {x y g z w v : Bytes} {a : UInt64}
    {logs : List Message} {e : ErrorPayload} (hu : UpstreamTalk advertised n x y)
    (hg : headerFormat () g) (hl : Logs logs) (he : e.Valid)
    (hx : recvd c t = x ++ (g ++ (Reply.error logs e).encode) ++ v) (hz : clientFormat a z)
    (hy : sent c t = y ++ (z ++ w)) (hw : w ≠ []) : ¬ GreetedFirst advertised c t := by
  intro h
  rcases h t List.prefix_rfl with hb | ⟨n', x', y', g', logs', hu', hg', hl', hp⟩
  · rw [hy, hu.hello, List.append_assoc] at hb
    rcases hb with hb | ⟨word', z', -, hw', ⟨a', hz'⟩, hb⟩
    · have hlen := hb.length_le
      obtain ⟨b, u, v, ⟨-, rfl⟩, -, rfl⟩ := hz
      simp only [List.length_append, le64_length] at hlen
      omega
    · obtain ⟨word, -, hv, hword⟩ := hu.word
      have hxx : le64 workerMagic2 ++ le64 word <+: recvd c t := by
        rw [hx, List.append_assoc]
        exact hword.trans (List.prefix_append ..)
      obtain ⟨k, hk⟩ := hxx
      rw [← hk, List.append_assoc] at hw'
      obtain ⟨-, hw'⟩ := prefix_append_inj hw' rfl
      rw [← List.append_nil (le64 word')] at hw'
      obtain ⟨hww, -⟩ := prefix_append_inj hw' (by simp)
      obtain rfl := le64_injective hww
      rw [hv] at hb
      obtain ⟨k', hk'⟩ := (List.prefix_append_right_inj _).mp
        ((List.prefix_append_right_inj _).mp hb)
      rw [List.append_assoc, ← List.append_nil z'] at hk'
      obtain ⟨-, -, hnil⟩ := clientFields_copies.unambiguous hz hz' hk'
      exact hw (List.append_eq_nil_iff.mp hnil).1
  · obtain ⟨k, hk⟩ := hp
    rw [hx, List.append_assoc, List.append_assoc, List.append_assoc, List.append_assoc] at hk
    have hk := hu'.unambiguous hu hk
    obtain ⟨-, -, hk⟩ := header_copies.unambiguous hg' hg hk
    rw [reply_last, reply_error, List.append_nil, List.append_assoc, List.append_assoc,
      ← last_encode] at hk
    obtain ⟨-, hm, -⟩ := logs_unambiguous hl' hl (m := .last) trivial rfl
      (show Message.Valid (.error e) from he) rfl hk
    cases hm

theorem sent_turnsTrace (c : Leg) (turns : List Turn) :
    sent c (turnsTrace turns) = turns.flatMap fun x => sent c x.trace := by
  induction turns with
  | nil => rfl
  | cons x xs ih => rw [turnsTrace, List.flatMap_cons, sent_append, List.flatMap_cons, ← ih]; rfl

/-- Serving a forwarded op sends the host something, if the host takes anything. -/
theorem serveOp_forwarded {word : UInt64} {r : Except Stop Unit}
    (h : (serveOp setup n word).Runs t r) (hc : Only (fun e => puts .host e → clean e) t)
    (hf : Forwarded word) : sent .host t ≠ [] := by
  obtain ⟨op, ho, hs⟩ := hf
  obtain rfl := Op.word_of_allowed ho
  have hw := writeU64_emits .host op.word
  have hrest : ∃ p : Async Unit,
      serveOp setup n op.word = writeU64 .host op.word >>= fun _ => p := by
    by_cases hv : op = .isValidPath
    · subst hv
      exact ⟨_, serveOp_intercepted⟩
    · exact ⟨_, serveOp_relayed hs hv⟩
  obtain ⟨p, hp⟩ := hrest
  rw [hp] at h
  rcases (Comp.runs_bind _).mp h with ⟨⟨⟩, t₁, t₂, rfl, h₁, -⟩ | ⟨s, -, h₁⟩
  · intro hn
    have hlen := congrArg List.length hn
    rw [sent_append, (hw.sound h₁).2, List.length_append, le64_length, List.length_nil] at hlen
    omega
  · exact absurd (fun e he => hc e he (hw.only h₁ e he)) (hw.stopped h₁).2

theorem askedRefused_not_greeted {r : Except Stop Unit}
    (hc : Only (fun e => puts .host e → clean e) t) (h : AskedRefused setup t r) :
    ¬ GreetedFirst setup.advertised .host t := by
  obtain ⟨n, t₀, turns, rest, rfl, h₀, hl, ⟨x, y, g, logs, e, hu, hg, hlg, he, hx⟩, q, hq, hf⟩ := h
  obtain ⟨t₁, t₂, rfl, h₁, ⟨a, z, b, g', reply, hz, -, -, hf₂⟩⟩ := opening_ok h₀
  obtain ⟨x', y', u, v, hu', -, hf₁⟩ := handshakes_ok h₁
  have hy : sent .host (t₁ ++ t₂) = y ++ z := by
    rw [sent_append, show sent .host t₁ = y' from congrArg Flow.toHost hf₁,
      show sent .host t₂ = z from congrArg Flow.toHost hf₂, hu.hello, hu'.hello]
  have hne : sent .host (turnsTrace turns ++ rest) ≠ [] := by
    intro hn
    rw [sent_append, sent_turnsTrace] at hn
    have hq' := List.flatMap_eq_nil_iff.mp (List.append_eq_nil_iff.mp hn).1 q hq
    rw [Turn.trace, sent_append] at hq'
    refine serveOp_forwarded (hl.of q hq).serve (fun e he => hc e ?_) hf
      (List.append_eq_nil_iff.mp hq').2
    refine List.mem_append_right _ (List.mem_append_left _ (List.mem_flatMap.mpr ⟨q, hq, ?_⟩))
    exact List.mem_append_right _ he
  refine not_greetedFirst hu hg hlg he (recvd_append .. |>.trans (by rw [hx])) hz ?_ hne
  rw [sent_append, hy, List.append_assoc]

/-- No op goes to a host that has not greeted with `STDERR_LAST`: of a fill always, and of a
session just when the guest does not go on to ask a host that has refused it. -/
theorem greeted_first (setup : Setup) :
    (∀ (t : IoTrace) (r : Except Stop Unit), (run setup).Runs t r →
      ¬ AskedRefused setup t r → GreetedFirst setup.advertised .host t) ∧
    (∀ (t : IoTrace) (r : Except Stop Unit), (run setup).Runs t r →
      Only (fun e => puts .host e → clean e) t →
      (GreetedFirst setup.advertised .host t ↔ ¬ AskedRefused setup t r)) ∧
    ∀ (fuel : Nat) (path : Bytes) (t : IoTrace) (r : Except Stop Unit),
      (ensurePathOnConnection setup.advertised fuel path).Runs t r →
        GreetedFirst setup.advertised .fill t :=
  ⟨fun _ _ h hn => run_greeted h hn,
    fun _ _ h hc => ⟨fun hg ha => askedRefused_not_greeted hc ha hg, run_greeted h⟩,
    fun _ _ _ _ h => ensurePathOnConnection_greeted h⟩

def refusal : ErrorPayload := ⟨utf8 "Error", 0, utf8 "Error", utf8 "not allowed", []⟩

/-- The host refuses the session, and is asked about a path. -/
def refusedSample : Outcome (Resp Leg IoError Error) (Except Stop Unit) (World Leg IoError Error) :=
  (run (hookSetup none 8)).exec World.step (sessionWorld (guestSample [.isValidPath samplePath])
    (le64 workerMagic2 ++ (le64 0x125 ++ (encString (utf8 "2.18") ++ (le64 1 ++
      (Reply.error [] refusal).encode)))) [])

/-- A session asks a host that has refused it. -/
theorem greeted_first_fails :
    ¬ ∀ (setup : Setup) (t : IoTrace) (r : Except Stop Unit), (run setup).Runs t r →
      GreetedFirst setup.advertised .host t := by
  intro h
  have hu : UpstreamTalk ourFeatures ⟨⟨1, 37⟩, .empty⟩ (le64 workerMagic2 ++ (le64 0x125 ++ []))
      (hostHello ++ []) := by
    refine ⟨0x125, [], ⟨rfl, by decide⟩, fun hv => absurd hv (by decide), rfl, rfl, ?_⟩
    rw [hostHello, List.append_assoc]
    rfl
  have hg : headerFormat () (encString (utf8 "2.18") ++ le64 1) :=
    ⟨(), _, _, ⟨utf8 "2.18", by decide, rfl⟩, ⟨1, _, [], ⟨trivial, rfl⟩, ⟨rfl, rfl⟩, by simp⟩, rfl⟩
  have he : refusal.Valid := ⟨by decide, by decide, by decide, by decide, by simp [refusal]⟩
  have hz : clientFormat 0 (le64 0 ++ le64 0) := ⟨0, _, _, ⟨trivial, rfl⟩, ⟨trivial, rfl⟩, rfl⟩
  have hx : recvd .host refusedSample.trace = le64 workerMagic2 ++ (le64 0x125 ++ []) ++
      (encString (utf8 "2.18") ++ le64 1 ++ (Reply.error [] refusal).encode) ++ [] := by
    decide +kernel
  have hy : sent .host refusedSample.trace = hostHello ++ [] ++ (le64 0 ++ le64 0 ++
      (Request.isValidPath samplePath).encode) := by
    decide +kernel
  exact not_greetedFirst hu hg (by simp [Logs]) he hx hz hy (by decide +kernel)
    (h (hookSetup none 8) _ _ (Comp.exec_runs ..))

end Claudepod
