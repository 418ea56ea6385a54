import Claudepod.Accept
import Claudepod.Monitor
import Claudepod.Fill
import Mathlib.Data.List.Perm.Basic

/-! The connections to the host daemon that the proxy holds: one for each session that has
dialled, and one more for each fill in progress. -/

set_option autoImplicit false

namespace Claudepod
open Interaction Monitor

/-! ### What a session does -/

/-- One session on its own. -/
def session : Machine Phase SessionEvent := ⟨Phase.step⟩

/-- What an event of a session's run means for its connections. A fill is over when the session
goes on. -/
def sessionEvent? : Phase → IoEvent → Option SessionEvent
  | _, ⟨.dial .host, .done⟩ => some .dial
  | _, ⟨.dial .fill, .done⟩ => some .fill
  | .filling, ⟨.read c _, _⟩ | .filling, ⟨.readSome c _, _⟩ | .filling, ⟨.write c _, _⟩
  | .filling, ⟨.flush c, _⟩ => if c = .fill then none else some .filled
  | .filling, ⟨.note _, _⟩ => some .filled
  | _, _ => none

def Phase.next (p : Phase) (e : IoEvent) : Phase :=
  ((sessionEvent? p e).bind p.step).getD p

def sessionEvents : Phase → IoTrace → List SessionEvent
  | _, [] => []
  | p, e :: t => (sessionEvent? p e).toList ++ sessionEvents (p.next e) t

/-- Demands that a session only does what its phase allows. -/
def lifecycle : Monitor (Resp Leg IoError Error) Phase where
  step := Phase.next
  rely _ := True
  guar p e := ∀ ev, sessionEvent? p e = some ev → (p.step ev).isSome

theorem quiet_event {p : Phase} {e : IoEvent} (h : sessionEvent? p e = none) :
    lifecycle.guar p e ∧ p.next e = p :=
  ⟨fun ev he => (by rw [h] at he; cases he), by simp [Phase.next, h]⟩

theorem sessionEvents_run {p : Phase} {t : IoTrace} (h : lifecycle.Meets p t) :
    session.run p (sessionEvents p t) = some (lifecycle.after p t) := by
  induction t generalizing p with
  | nil => rfl
  | cons e t ih =>
    obtain ⟨hg, hm⟩ := h
    change lifecycle.Meets (p.next e) t at hm
    show session.run p ((sessionEvent? p e).toList ++ sessionEvents (p.next e) t) =
      some (lifecycle.after (p.next e) t)
    cases he : sessionEvent? p e with
    | none =>
      have hn := (quiet_event he).2
      rw [hn] at hm ⊢
      exact ih hm
    | some ev =>
      obtain ⟨q, hq⟩ := Option.isSome_iff_exists.mp (hg ev he)
      have hn : p.next e = q := by simp [Phase.next, he, hq]
      have hm' : lifecycle.Meets q t := hn ▸ hm
      rw [hn, Option.toList_some, List.singleton_append, Machine.run_cons]
      show (p.step ev).bind _ = _
      rw [hq]
      exact ih hm'

/-- The relayed connection is open. -/
def Open (p : Phase) : Prop := p = .dialled ∨ p = .filling

theorem steady_event {p : Phase} {e : IoEvent} (h : steady e) :
    sessionEvent? p e = none ∧ p ≠ .filling ∨ sessionEvent? p e = some .filled ∧ p = .filling := by
  obtain ⟨o, r⟩ := e
  cases p <;> cases o <;> simp_all [steady, sessionEvent?]

/-- Going on behind a fill, the session holds its relayed connection only. -/
theorem steady_next {p : Phase} {e : IoEvent} (h : steady e) (hp : Open p) :
    p.next e = .dialled ∧ lifecycle.guar p e := by
  rcases steady_event (p := p) h with ⟨he, hn⟩ | ⟨he, rfl⟩
  · rcases hp with rfl | rfl
    · exact ⟨(quiet_event he).2, (quiet_event he).1⟩
    · exact absurd rfl hn
  · refine ⟨by simp [Phase.next, he, Phase.step], fun ev hev => ?_⟩
    rw [he] at hev
    rw [← Option.some.inj hev]
    rfl

/-- Steady events keep the relayed connection; behind them no fill is open. -/
theorem steady_trace {t : IoTrace} {p : Phase} (h : Only steady t) (hp : Open p) :
    lifecycle.Meets p t ∧ Open (lifecycle.after p t) ∧
      (t ≠ [] ∨ p = .dialled → lifecycle.after p t = .dialled) := by
  induction t generalizing p with
  | nil => exact ⟨trivial, hp, fun ht => ht.resolve_left (by simp)⟩
  | cons e t ih =>
    rw [only_cons] at h
    obtain ⟨hn, hg⟩ := steady_next h.1 hp
    obtain ⟨hm, -, ha⟩ := ih (p := p.next e) h.2 (.inl hn)
    have hd : lifecycle.after (p.next e) t = .dialled := ha (.inr hn)
    exact ⟨⟨hg, hm⟩, .inl hd, fun _ => hd⟩

section Triples

variable {α : Type} {p : Async α}

theorem greeting_keeps (h : Comp.ActsIn steady p) :
    lifecycle.Triple (· = .greeting) p (fun _ q => q = .greeting) (· = .greeting) := by
  refine Triple.of_acts h fun q e hq he _ => ?_
  subst hq
  rcases steady_event (p := .greeting) he with ⟨hn, -⟩ | ⟨-, hp⟩
  · exact quiet_event hn
  · cases hp

theorem dialled_keeps (h : Comp.ActsIn steady p) :
    lifecycle.Triple (· = .dialled) p (fun _ => (· = .dialled)) (fun _ => True) :=
  (Triple.of_acts h fun _ _ hq he _ => (steady_next he (.inl hq)).symm).conseq (fun _ => id)
    (fun _ _ => id) fun _ _ => trivial

/-- On the connection of a fill nothing changes. -/
theorem fill_next {q : Phase} {e : IoEvent} (h : onFill e) : sessionEvent? q e = none := by
  obtain ⟨o, r⟩ := e
  cases o <;> cases q <;> simp_all [onFill, reads, puts, sessionEvent?]

theorem ensurePath_lifecycle (advertised : List Bytes) (fuel : Nat) (upstreamPath path : Bytes) :
    lifecycle.Triple (· = .dialled) (ensurePath advertised fuel upstreamPath path)
      (fun _ => Open) Open := by
  refine Triple.bind (Q := fun _ => Open) (Triple.mapStop ?_) fun _ => ?_
  · intro q t r hq hr _
    subst hq
    rcases dial_runs.mp hr with ⟨rfl, rfl⟩ | ⟨f, rfl, rfl⟩
    · exact ⟨⟨fun ev hev => by cases hev; rfl, trivial⟩, .inr rfl⟩
    · exact ⟨⟨nofun, trivial⟩, .inl rfl⟩
  · refine Triple.of_acts (ensurePathOnConnection_acts advertised fuel path) fun q e hq he _ => ?_
    obtain ⟨hg, hn⟩ := quiet_event (fill_next (q := q) he)
    refine ⟨hg, ?_⟩
    show Open (q.next e)
    rw [hn]
    exact hq

end Triples

/-- Serving an op opens at most one more connection at a time, that of a fill. -/
theorem serveOp_lifecycle {roots : Option NixRunRoots} {upstreamPath : Bytes} {fuel : Nat}
    {n : Negotiated} {word : UInt64} {t : IoTrace} {r : Except Stop Unit} {p : Phase}
    (hp : p = .dialled) (h : (serveOp (proxySetup roots upstreamPath fuel) n word).Runs t r) :
    lifecycle.Meets p t ∧ Open (lifecycle.after p t) := by
  cases serveOp_fill h with
  | none ho =>
    obtain ⟨hm, ha, -⟩ := steady_trace ho (.inl hp)
    exact ⟨hm, ha⟩
  | @one t₁ t₂ t₃ path logs s hw ht ho₁ hl hf hm hfill ho₃ =>
    subst ht
    obtain ⟨hm₁, -, ha₁⟩ := steady_trace ho₁ (.inl hp)
    obtain ⟨hm₂, hq₂⟩ := ensurePath_lifecycle _ _ upstreamPath path _ _ _ (ha₁ (.inr hp)) hfill
      fun _ _ => trivial
    have ho₂ : Open (lifecycle.after (lifecycle.after p t₁) t₂) := by
      cases s with
      | ok a => exact hq₂
      | error s => exact hq₂
    obtain ⟨hm₃, ha₃, -⟩ := steady_trace ho₃ ho₂
    rw [meets_append, meets_append, after_append, after_append]
    exact ⟨⟨hm₁, hm₂, hm₃⟩, ha₃⟩

/-- Up to the op loop a session dials the host once, behind the guest's magic. -/
theorem opening_lifecycle (setup : Setup) :
    lifecycle.Triple (· = .greeting) (opening setup) (fun _ q => q = .dialled) (fun _ => True) := by
  have hw : ∀ {c d : Leg}, c ≠ .fill → d ≠ .fill → ∀ e : IoEvent, reads c e ∨ puts d e → steady e :=
    fun hc hd _ => steady_of_reads_or_puts hc hd
  have hdial : lifecycle.Triple (· = .greeting) (dial .host) (fun _ q => q = .dialled)
      (fun _ => True) := by
    intro q t r hq hr _
    subst hq
    rcases dial_runs.mp hr with ⟨rfl, rfl⟩ | ⟨f, rfl, rfl⟩
    · exact ⟨⟨fun ev hev => by cases hev; rfl, trivial⟩, rfl⟩
    · exact ⟨⟨nofun, trivial⟩, trivial⟩
  have hmagic := (greeting_keeps (decodes_steady (guestMagic_decodes .guest) (by decide))).conseq
    (fun _ => id) (fun _ _ => id) (fun _ _ => trivial : ∀ q : Phase, q = .greeting → True)
  refine Triple.bind (Triple.bind hmagic.mapStop.mapStop fun _ => hdial.mapStop.bind fun _ =>
    (dialled_keeps ((upstream_converses _ .host).acts.mono
      (hw (by decide) (by decide)))).mapStop.bind fun n =>
    (dialled_keeps ((downstream_converses .guest n).acts.mono
      (hw (by decide) (by decide)))).mapStop.mapStop.bind fun _ => .pure fun _ => id) fun n => ?_
  exact (dialled_keeps postHandshake_steady).bind fun _ =>
    (dialled_keeps (greeting_steady setup.fuel)).bind fun _ => .pure fun _ => id

theorem loop_lifecycle {roots : Option NixRunRoots} {upstreamPath : Bytes} {fuel : Nat}
    {n : Negotiated} {turns : List Turn} {rest : IoTrace} {r : Except Stop Unit} {p : Phase}
    (h : Looped (proxySetup roots upstreamPath fuel) n turns rest r) (hp : Open p) :
    lifecycle.Meets p (turnsTrace turns ++ rest) := by
  have hread : ∀ {t : IoTrace} {res : Except Stop (Option UInt64)},
      (readU64OrEof .guest).Runs t res → Only steady t := fun h =>
    (readU64OrEof_runs h).1.mono fun _ he => steady_of_readsFrom (by decide) he
  have hturn : ∀ {x : Turn} {p : Phase}, x.Of (proxySetup roots upstreamPath fuel) n → Open p →
      lifecycle.Meets p x.trace ∧ Open (lifecycle.after p x.trace) := by
    intro x p hx hp
    obtain ⟨hm, -, ha⟩ := steady_trace (hread hx.read) hp
    have hne : x.reading ≠ [] := by
      intro he
      have hr := hx.read
      rw [he] at hr
      have hw := congrArg List.length (readU64OrEof_runs hr).2
      simp at hw
    obtain ⟨hm', ha'⟩ := serveOp_lifecycle (ha (.inl hne)) hx.serve
    rw [Turn.trace, meets_append, after_append]
    exact ⟨⟨hm, hm'⟩, ha'⟩
  induction h generalizing p with
  | exhausted => trivial
  | hangup h => exact (steady_trace (hread h) hp).1
  | unread h => exact (steady_trace (hread h) hp).1
  | @cut x s hx hr =>
    simpa [turnsTrace] using (hturn hx hp).1
  | @turn x xs t r hx hr _ ih =>
    obtain ⟨hm, ha⟩ := hturn hx hp
    rw [turnsTrace, List.flatMap_cons, List.append_assoc, meets_append]
    exact ⟨hm, ih ha⟩

theorem proxyRelay_lifecycle {roots : Option NixRunRoots} {upstreamPath : Bytes} {fuel : Nat}
    {t : IoTrace} {r : Except Stop Unit} (h : (proxyRelay roots upstreamPath fuel).Runs t r) :
    lifecycle.Meets .greeting t := by
  rcases run_runs h with ⟨s, -, h₀⟩ | ⟨n, t₀, turns, rest, rfl, h₀, hl⟩
  · exact (opening_lifecycle _ _ _ _ rfl h₀ fun _ _ => trivial).1
  · obtain ⟨hm, hq⟩ := opening_lifecycle _ _ _ _ rfl h₀ fun _ _ => trivial
    exact (meets_append ..).mpr ⟨hm, loop_lifecycle hl (.inl hq)⟩

/-- Every session of the proxy drives its phases: it dials once, and fills one path at a time. -/
theorem proxyRelay_phases {roots : Option NixRunRoots} {upstreamPath : Bytes} {fuel : Nat}
    {t : IoTrace} {r : Except Stop Unit} (h : (proxyRelay roots upstreamPath fuel).Runs t r) :
    ∃ p, session.run .greeting (sessionEvents .greeting t) = some p :=
  ⟨_, sessionEvents_run (proxyRelay_lifecycle h)⟩

/-- Without a manifest no session fills. -/
theorem proxyRelay_unfilled {upstreamPath : Bytes} {fuel : Nat} {t : IoTrace}
    {r : Except Stop Unit} (h : (proxyRelay none upstreamPath fuel).Runs t r) :
    Only unfilled t := by
  have hread : ∀ {t : IoTrace} {res : Except Stop (Option UInt64)},
      (readU64OrEof .guest).Runs t res → Only unfilled t := fun h =>
    (readU64OrEof_runs h).1.mono fun e he =>
      unfilled_of_steady e (steady_of_readsFrom (by decide) he)
  have hturn : ∀ {x : Turn} {n : Negotiated}, x.Of (proxySetup none upstreamPath fuel) n →
      Only unfilled x.trace := by
    intro x n hx
    refine only_append.mpr ⟨hread hx.read, ?_⟩
    cases serveOp_fill hx.serve with
    | none ho => exact ho.mono unfilled_of_steady
    | one hw ht ho₁ hl hf hm hfill ho₃ => cases hm
  have hloop : ∀ {n : Negotiated} {turns : List Turn} {rest : IoTrace} {r : Except Stop Unit},
      Looped (proxySetup none upstreamPath fuel) n turns rest r →
      Only unfilled (turnsTrace turns ++ rest) := by
    intro n turns rest r hl
    induction hl with
    | exhausted => exact only_nil
    | hangup h => exact hread h
    | unread h => exact hread h
    | @cut x s hx hr => simpa [turnsTrace] using hturn hx
    | @turn x xs t r hx hr _ ih =>
      rw [turnsTrace, List.flatMap_cons, List.append_assoc]
      exact only_append.mpr ⟨hturn hx, ih⟩
  rcases run_runs h with ⟨s, -, h₀⟩ | ⟨n, t₀, turns, rest, rfl, h₀, hl⟩
  · exact opening_unfilled _ _ _ h₀
  · exact only_append.mpr ⟨opening_unfilled _ _ _ h₀, hloop hl⟩

theorem fill_not_mem_sessionEvents {t : IoTrace} (h : Only unfilled t) (p : Phase) :
    .fill ∉ sessionEvents p t := by
  induction t generalizing p with
  | nil => simp [sessionEvents]
  | cons e t ih =>
    rw [only_cons] at h
    have he : sessionEvent? p e ≠ some .fill := by
      obtain ⟨o, r⟩ := e
      have hu := h.1
      intro he
      cases o with
      | dial c => cases c <;> cases r <;> cases p <;> simp_all [sessionEvent?, unfilled]
      | _ => cases p <;> simp_all [sessionEvent?]
    rw [sessionEvents, List.mem_append, Option.mem_toList]
    exact not_or.mpr ⟨he, ih h.2 _⟩

theorem proxyRelay_never_fills {upstreamPath : Bytes} {fuel : Nat} {t : IoTrace}
    {r : Except Stop Unit} (h : (proxyRelay none upstreamPath fuel).Runs t r) :
    .fill ∉ sessionEvents .greeting t :=
  fill_not_mem_sessionEvents (proxyRelay_unfilled h) .greeting

/-! ### All sessions at once -/

/-- Its connection to the host daemon is open. -/
def Phase.relayed (p : Phase) : Bool := p = .dialled || p = .filling

namespace Serving

variable {s s' : Serving} {e : ServeEvent}

def relayed (s : Serving) : Nat := s.sessions.countP Phase.relayed

def fills (s : Serving) : Nat := s.sessions.countP (· = .filling)

/-- Connections to the host daemon that are open. -/
def connections (s : Serving) : Nat := s.relayed + s.fills

/-- A fill starts with room for one more connection, and while there is one a session dials only
with room for that. -/
def Room (s : Serving) : ServeEvent → Prop
  | .session _ .fill => s.relayed + s.fills < maxSessions
  | .session _ .dial => s.fills = 0 ∨ s.relayed + s.fills < maxSessions
  | _ => True

def Uncrowded (s : Serving) (e : ServeEvent) : Prop := (serve.step s e).isSome → s.Room e

end Serving

theorem countP_eraseIdx_add {α : Type} {p : α → Bool} {l : List α} {i : Nat} {a : α}
    (h : l[i]? = some a) : (l.eraseIdx i).countP p + (if p a then 1 else 0) = l.countP p := by
  obtain ⟨hi, rfl⟩ := List.getElem?_eq_some_iff.mp h
  rw [← (List.getElem_cons_eraseIdx_perm hi).countP_eq p, List.countP_cons]

theorem countP_set_add {α : Type} {p : α → Bool} {l : List α} {i : Nat} {a b : α}
    (h : l[i]? = some a) :
    (l.set i b).countP p + (if p a then 1 else 0) = l.countP p + (if p b then 1 else 0) := by
  obtain ⟨hi, -⟩ := List.getElem?_eq_some_iff.mp h
  have hb := countP_eraseIdx_add (p := p)
    (show (l.set i b)[i]? = some b by simp [hi])
  have ha := countP_eraseIdx_add (p := p) h
  rw [List.eraseIdx_set_eq] at hb
  omega

namespace Serving

variable {s s' : Serving} {e : ServeEvent}

theorem relayed_le : s.relayed ≤ s.sessions.length := List.countP_le_length

theorem fills_le : s.fills ≤ s.relayed := by
  unfold fills relayed
  exact List.countP_mono_left fun p _ hp => by simp_all [Phase.relayed]

/-- Only a dial and a fill open a connection. -/
theorem connections_cases (h : serve.step s e = some s') :
    (∃ i, e = .session i .dial ∧ s'.relayed = s.relayed + 1 ∧ s'.fills = s.fills) ∨
    (∃ i, e = .session i .fill ∧ s'.relayed = s.relayed ∧ s'.fills = s.fills + 1) ∨
    (s.Room e ∧ s'.relayed ≤ s.relayed ∧ s'.fills ≤ s.fills) := by
  rcases step_cases h with ⟨rfl, -, -, rfl⟩ | ⟨rfl, -, rfl⟩ | ⟨rfl, -, rfl⟩ | ⟨rfl, -, rfl⟩ |
    ⟨i, ev, phase, phase', rfl, hi, hp, rfl⟩ | ⟨i, rfl, hi, rfl⟩
  · exact .inr (.inr ⟨trivial, Nat.le_refl _, Nat.le_refl _⟩)
  · refine .inr (.inr ⟨trivial, ?_, ?_⟩) <;>
      simp [relayed, fills, spawn, Phase.relayed]
  · exact .inr (.inr ⟨trivial, Nat.le_refl _, Nat.le_refl _⟩)
  · exact .inr (.inr ⟨trivial, Nat.le_refl _, Nat.le_refl _⟩)
  · have hr := countP_set_add (p := Phase.relayed) (b := phase') hi
    have hf := countP_set_add (p := (· = .filling)) (b := phase') hi
    unfold relayed fills
    cases ev with
    | dial =>
      cases phase <;> simp [Phase.step] at hp
      subst hp
      simp [Phase.relayed] at hr hf
      exact .inl ⟨i, rfl, hr, hf⟩
    | fill =>
      cases phase <;> simp [Phase.step] at hp
      subst hp
      simp [Phase.relayed] at hr hf
      exact .inr (.inl ⟨i, rfl, hr, hf⟩)
    | filled =>
      cases phase <;> simp [Phase.step] at hp
      subst hp
      simp [Phase.relayed] at hr hf
      exact .inr (.inr ⟨trivial, by simp only []; omega, by simp only []; omega⟩)
    | finish =>
      cases phase <;> simp [Phase.step] at hp <;> subst hp <;> simp [Phase.relayed] at hr hf <;>
        exact .inr (.inr ⟨trivial, by simp only []; omega, by simp only []; omega⟩)
  · have hr := countP_eraseIdx_add (p := Phase.relayed) hi
    have hf := countP_eraseIdx_add (p := (· = .filling)) hi
    exact .inr (.inr ⟨trivial, Nat.le.intro hr, Nat.le.intro hf⟩)

theorem conserved_start (given : Bool) : (start given).Conserved := by
  simp [Conserved, start, LoopAt.permits]

theorem relayed_bounded (hc : s.Conserved) : s.relayed ≤ maxSessions := by
  have hr := relayed_le (s := s)
  unfold Conserved at hc
  omega

/-- Within the bound, with room for what it opens, a step stays within the bound. -/
theorem connections_step (hc : s.Conserved) (hs : s.connections ≤ maxSessions)
    (hu : s.Uncrowded e) (h : serve.step s e = some s') : s'.connections ≤ maxSessions := by
  have hroom := hu (by simp [h])
  have hb := relayed_bounded (conserved_step hc h)
  unfold connections at hs ⊢
  rcases connections_cases h with ⟨i, rfl, hr, hf⟩ | ⟨i, rfl, hr, hf⟩ | ⟨-, hr, hf⟩
  · rcases hroom with hz | hlt
    · omega
    · omega
  · have hlt : s.relayed + s.fills < maxSessions := hroom
    omega
  · omega

theorem uncrowded_of_bounded (hs' : s'.connections ≤ maxSessions)
    (h : serve.step s e = some s') : s.Uncrowded e := by
  intro _
  unfold connections at hs'
  rcases connections_cases h with ⟨i, rfl, hr, hf⟩ | ⟨i, rfl, hr, hf⟩ | ⟨hroom, -, -⟩
  · exact .inr (by omega)
  · show s.relayed + s.fills < maxSessions
    omega
  · exact hroom

/-- As long as nothing is filled there is room for every dial. -/
theorem fills_step (hs : s.fills = 0) (he : ∀ i, e ≠ .session i .fill)
    (h : serve.step s e = some s') : s'.fills = 0 := by
  rcases connections_cases h with ⟨i, rfl, hr, hf⟩ | ⟨i, rfl, hr, hf⟩ | ⟨-, hr, hf⟩
  · omega
  · exact absurd rfl (he i)
  · omega

theorem uncrowded_of_unfilled {es : List ServeEvent} (hs : s.fills = 0)
    (he : ∀ i, .session i .fill ∉ es) : serve.Along Uncrowded s es := by
  induction es generalizing s with
  | nil => trivial
  | cons e es ih =>
    have hne : ∀ i, e ≠ .session i .fill := fun i h => he i (by simp [h])
    refine ⟨fun _ => ?_, fun s' h => ih (fills_step hs hne h) fun i hi => he i (by simp [hi])⟩
    unfold Room
    split
    · exact absurd rfl (hne _)
    · exact .inl hs
    · trivial

end Serving

/-- The proxy keeps within the cap on sessions along a run exactly when no fill is one connection
too many; it does so when nothing is filled, and at worst holds twice as many. -/
theorem connections_bounded (given : Bool) (es : List ServeEvent) :
    (serve.Throughout (fun s => s.connections ≤ maxSessions) (.start given) es ↔
      serve.Along Serving.Uncrowded (.start given) es) ∧
    ((∀ i, .session i .fill ∉ es) → serve.Along Serving.Uncrowded (.start given) es) ∧
    serve.Throughout (fun s => s.connections ≤ 2 * maxSessions) (.start given) es := by
  have hc := Serving.conserved_start given
  refine ⟨⟨fun h => ?_, fun h => ?_⟩, fun he => Serving.uncrowded_of_unfilled rfl he, ?_⟩
  · exact Machine.along_of_throughout (I := fun _ => True)
      (fun s e s' _ _ hs' h => Serving.uncrowded_of_bounded hs' h) (fun _ _ _ _ _ => trivial)
      (fun s e hn hs => by simp [hn] at hs) trivial h
  · refine Machine.throughout_of_along (I := fun s => s.Conserved ∧ s.connections ≤ maxSessions)
      (fun s e s' hi hu h => ?_) (fun s hi => hi.2) ⟨hc, Nat.zero_le _⟩ h
    exact ⟨Serving.conserved_step hi.1 h, Serving.connections_step hi.1 hi.2 hu h⟩
  · refine Machine.Throughout.mono (fun s hs => ?_)
      (Machine.throughout_of_invariant (fun s e s' => Serving.conserved_step) hc)
    have hr := Serving.relayed_bounded hs
    have hf := Serving.fills_le (s := s)
    unfold Serving.connections
    omega

/-- As many sessions as there are permits, each connected to the host, and one of them fills. -/
def crowdedRun : List ServeEvent :=
  (List.range maxSessions).flatMap (fun i => [.acquire, .accept, .session i .dial]) ++
    [.session 0 .fill]

/-- A session that fills does these things. -/
theorem connections_bounded_fails :
    (∃ s, serve.run (.start false) crowdedRun = some s ∧ s.connections = maxSessions + 1) ∧
    sessionEvents .greeting proxySample.trace = [.dial, .fill, .filled] :=
  ⟨⟨⟨0, .acquiring, false, .filling :: List.replicate 31 .dialled, List.replicate 32 .started⟩,
    by decide +kernel, by decide +kernel⟩, by decide +kernel⟩

end Claudepod
