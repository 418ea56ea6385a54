import Claudepod.Tasks
import Claudepod.Connections
import Claudepod.Waiting
import Claudepod.Termination

/-! The whole proxy: the accept loop, and the sessions it has started, each somewhere along its
relay. Their calls are answered in any order; the loop sees of a session only that it ends. -/

set_option autoImplicit false

namespace Claudepod
open Interaction Monitor

deriving instance DecidableEq for Call

/-- The task `serve` spawns for a guest. -/
abbrev SessionTask (nixRunRoots : Option NixRunRoots) (upstreamPath : Bytes) (fuel : Nat) :=
  Task (proxyRelay nixRunRoots upstreamPath fuel).run

/-- What a `relay` that waits for ever, or that reaches a loop bound of the model, resolves to. -/
def resolved : Except Stop Unit → Option (Except Error Unit)
  | .ok _ => some (.ok ())
  | .error (.failed err) => some (.error err)
  | .error .pending => none
  | .error .exhausted => none

variable {roots : Option NixRunRoots} {upstreamPath : Bytes} {fuel : Nat}

namespace SessionTask

def result (x : SessionTask roots upstreamPath fuel) : Option (Except Error Unit) :=
  x.outcome.bind resolved

/-- Still on its way, or resolved. -/
def Sound (x : SessionTask roots upstreamPath fuel) : Prop :=
  x.outcome = none ∨ x.result.isSome

instance (x : SessionTask roots upstreamPath fuel) : Decidable x.Sound :=
  inferInstanceAs (Decidable (x.outcome = none ∨ x.result.isSome))

/-- Its call is answered. A call that never is answered is not an event. -/
def answer (x : SessionTask roots upstreamPath fuel) (e : IoEvent) :
    Option (SessionTask roots upstreamPath fuel) :=
  (x.advance e).filter fun y => y.Sound

/-- What it holds of the host. -/
def phase (x : SessionTask roots upstreamPath fuel) : Phase :=
  if x.result.isSome then .returned else lifecycle.after .greeting x.trace

end SessionTask

/-- What the proxy has done, for the record; the last two are its own lines on stderr. -/
inductive ProxyMark where
  | hook | started | acceptFailed
  | sessionFailed (err : Error)
  deriving DecidableEq, Repr

structure Proxy (nixRunRoots : Option NixRunRoots) (upstreamPath : Bytes) (fuel : Nat) where
  free : Nat
  loop : LoopAt
  onFirstAccept : Bool
  tasks : List (SessionTask nixRunRoots upstreamPath fuel)
  /-- Sessions that are over, for the record. -/
  ended : List (SessionTask nixRunRoots upstreamPath fuel)
  log : List ProxyMark

inductive ProxyEvent where
  | acquire | accept | acceptError | retry
  | answer (i : Nat) (e : IoEvent)
  | release (i : Nat)

namespace Proxy

def start (onFirstAccept : Bool) : Proxy roots upstreamPath fuel :=
  ⟨maxSessions, .acquiring, onFirstAccept, [], [], []⟩

def takeHook (s : Proxy roots upstreamPath fuel) : Proxy roots upstreamPath fuel :=
  if s.onFirstAccept then { s with onFirstAccept := false, log := s.log ++ [.hook] } else s

def spawn (s : Proxy roots upstreamPath fuel) : Proxy roots upstreamPath fuel :=
  { s with
    loop := .acquiring
    tasks := s.tasks ++ [Task.start _]
    log := s.log ++ [.started] }

/-- `if let Err(err) = relay(…).await`. -/
def report : Except Error Unit → List ProxyMark
  | .ok _ => []
  | .error err => [.sessionFailed err]

end Proxy

/-- `serve` with its sessions. -/
def proxy (nixRunRoots : Option NixRunRoots) (upstreamPath : Bytes) (fuel : Nat) :
    Machine (Proxy nixRunRoots upstreamPath fuel) ProxyEvent where
  step s
    | .acquire =>
      if s.loop = .acquiring ∧ 0 < s.free then
        some { s with loop := .accepting, free := s.free - 1 }
      else none
    | .accept => if s.loop = .accepting then some s.takeHook.spawn else none
    | .acceptError =>
      if s.loop = .accepting then
        some { s with loop := .failed, log := s.log ++ [.acceptFailed] }
      else none
    | .retry =>
      if s.loop = .failed then some { s with loop := .acquiring, free := s.free + 1 } else none
    | .answer i e =>
      (s.tasks[i]?).bind fun x => (x.answer e).map fun y => { s with tasks := s.tasks.set i y }
    | .release i =>
      (s.tasks[i]?).bind fun x => x.result.map fun r =>
        { s with
          tasks := s.tasks.eraseIdx i
          ended := s.ended ++ [x]
          free := s.free + 1
          log := s.log ++ Proxy.report r }

/-! ### A session in progress -/

namespace SessionTask

variable {x y : SessionTask roots upstreamPath fuel} {e : IoEvent}

theorem answer_eq_some : x.answer e = some y ↔ x.advance e = some y ∧ y.Sound := by
  simp [answer, Option.filter_eq_some_iff]

theorem start_outcome :
    Task.outcome (Task.start _ : SessionTask roots upstreamPath fuel) = none := rfl

theorem start_sound : SessionTask.Sound (Task.start _ : SessionTask roots upstreamPath fuel) :=
  .inl start_outcome

theorem result_of_outcome (h : x.outcome = none) : x.result = none := by rw [result, h]; rfl

theorem start_phase :
    SessionTask.phase (Task.start _ : SessionTask roots upstreamPath fuel) = .greeting := by
  rw [phase, result_of_outcome start_outcome]
  rfl

/-- Peers that are gone. -/
def hangUp : (o : Call Leg) → Resp Leg IoError Error o
  | .read _ 0 => .full [] rfl
  | .read _ (n+1) => .short [] (Nat.succ_pos n) .eof
  | .readSome _ _ => .ended .eof
  | .write _ [] => .done
  | .write _ (_ :: bs) => .cut 0 (Nat.succ_pos _) (.broken ⟨"Broken pipe (os error 32)", by decide⟩)
  | .flush _ => .fault (.broken ⟨"Broken pipe (os error 32)", by decide⟩)
  | .dial _ => .fault (.broken ⟨"Connection refused (os error 111)", by decide⟩)
  | .ask _ => .denied (.msg "Connection refused (os error 111)")
  | .note _ => ()

/-- The answer of peers that are gone. -/
def Hangup (e : IoEvent) : Prop := e.2 = hangUp e.1

theorem hangup_silent {t : IoTrace} (h : Only Hangup t) (c : Leg) :
    recvd c t = [] ∧ sent c t = [] := by
  have hevent : ∀ e : IoEvent, Hangup e → eventRecvd c e = [] ∧ eventSent c e = [] := by
    rintro ⟨o, r⟩ he
    obtain rfl : r = hangUp o := he
    cases o with
    | read d n => cases n <;> simp [hangUp, eventRecvd, eventSent, Got.bytes]
    | readSome d n => simp [hangUp, eventRecvd, eventSent, Chunk.bytes]
    | write d bs => cases bs <;> simp [hangUp, eventRecvd, eventSent, Put.taken]
    | flush d => exact ⟨rfl, rfl⟩
    | dial d => exact ⟨rfl, rfl⟩
    | ask p => exact ⟨rfl, rfl⟩
    | note m => exact ⟨rfl, rfl⟩
  exact ⟨List.flatMap_eq_nil_iff.mpr fun e he => (hevent e (h e he)).1,
    List.flatMap_eq_nil_iff.mpr fun e he => (hevent e (h e he)).2⟩

/-- A session does what its lifecycle allows, as far as it has come. -/
theorem meets (x : SessionTask roots upstreamPath fuel) : lifecycle.Meets .greeting x.trace := by
  obtain ⟨u, r, h, -⟩ := x.extends_run hangUp
  exact ((meets_append ..).mp (proxyRelay_lifecycle h)).1

/-- What the session has come to is the beginning of a script, whatever happens to it now. -/
theorem hostPrefix (x : SessionTask roots upstreamPath fuel) :
    ∃ n fields rs,
      HostPrefix ourFeatures (recvd .host x.trace) (sent .host x.trace) n fields rs := by
  obtain ⟨u, r, h, hu⟩ := x.extends_run hangUp
  obtain ⟨hr, hs⟩ := hangup_silent hu .host
  obtain ⟨n, fields, rs, hp⟩ := run_hostPrefix h
  rw [recvd_append, sent_append, hr, hs, List.append_nil, List.append_nil] at hp
  exact ⟨n, fields, rs, hp⟩

theorem phase_of_outcome (h : x.outcome = none) : x.phase = lifecycle.after .greeting x.trace := by
  rw [phase, result_of_outcome h]
  rfl

theorem sessionEvent_ne_finish {p : Phase} {e : IoEvent} : sessionEvent? p e ≠ some .finish := by
  obtain ⟨o, r⟩ := e
  intro he
  cases o with
  | dial c => cases c <;> cases r <;> cases p <;> simp_all [sessionEvent?]
  | _ => cases p <;> simp_all [sessionEvent?]

theorem next_ne_returned {p : Phase} (hp : p ≠ .returned) (e : IoEvent) : p.next e ≠ .returned := by
  unfold Phase.next
  cases he : sessionEvent? p e with
  | none => exact hp
  | some ev => cases ev <;> cases p <;> simp_all [Phase.step, sessionEvent_ne_finish]

theorem after_ne_returned {p : Phase} (hp : p ≠ .returned) (t : IoTrace) :
    lifecycle.after p t ≠ .returned := by
  induction t generalizing p with
  | nil => exact hp
  | cons e t ih => exact ih (next_ne_returned hp e)

theorem finish_step {p : Phase} (hp : p ≠ .returned) : p.step .finish = some .returned := by
  cases p with
  | returned => exact absurd rfl hp
  | greeting => rfl
  | dialled => rfl
  | filling => rfl

/-- An answered call is an event of its phase, and then the end if the session is over. -/
theorem phase_answer (h : x.answer e = some y) :
    session.run x.phase ((sessionEvent? x.phase e).toList ++
      if y.result.isSome then [.finish] else []) = some y.phase := by
  obtain ⟨ha, -⟩ := answer_eq_some.mp h
  have hx := phase_of_outcome (Task.outcome_of_advance ha)
  have hm := y.meets
  rw [Task.advance_trace ha, meets_append, ← hx] at hm
  have hy : y.phase = if y.result.isSome then .returned else x.phase.next e := by
    rw [phase, Task.advance_trace ha, after_append, ← hx]
    rfl
  have hr : session.run x.phase (sessionEvent? x.phase e).toList = some (x.phase.next e) := by
    rw [← List.append_nil (sessionEvent? x.phase e).toList]
    exact sessionEvents_run hm.2
  rw [Machine.run_append, hr, Option.bind_some, hy]
  split
  · have hn : x.phase.next e ≠ .returned :=
      next_ne_returned (hx ▸ after_ne_returned (by simp) x.trace) e
    rw [Machine.run_cons]
    show ((x.phase.next e).step .finish).bind _ = _
    rw [finish_step hn]
    rfl
  · rfl

end SessionTask

/-! ### The accept loop sees its sessions -/

def ProxyMark.mark : ProxyMark → Option Mark
  | .hook => some .hook
  | .started => some .started
  | .acceptFailed => some .acceptFailed
  | .sessionFailed _ => none

namespace Proxy

variable {s s' : Proxy roots upstreamPath fuel} {e : ProxyEvent}

/-- The accept loop's view of the proxy. -/
def serving (s : Proxy roots upstreamPath fuel) : Serving :=
  ⟨s.free, s.loop, s.onFirstAccept, s.tasks.map SessionTask.phase, s.log.filterMap ProxyMark.mark⟩

/-- What the accept loop sees of an event. -/
def shown (s : Proxy roots upstreamPath fuel) : ProxyEvent → List ServeEvent
  | .acquire => [.acquire]
  | .accept => [.accept]
  | .acceptError => [.acceptError]
  | .retry => [.retry]
  | .answer i e => ((s.tasks[i]?).elim [] fun x => (sessionEvent? x.phase e).toList ++
      if ((x.answer e).bind SessionTask.result).isSome then [.finish] else []).map (.session i)
  | .release i => [.release i]

/-- What one step can do. -/
theorem step_cases (h : (proxy roots upstreamPath fuel).step s e = some s') :
    (e = .acquire ∧ s.loop = .acquiring ∧ 0 < s.free ∧
      s' = { s with loop := .accepting, free := s.free - 1 }) ∨
    (e = .accept ∧ s.loop = .accepting ∧ s' = s.takeHook.spawn) ∨
    (e = .acceptError ∧ s.loop = .accepting ∧
      s' = { s with loop := .failed, log := s.log ++ [.acceptFailed] }) ∨
    (e = .retry ∧ s.loop = .failed ∧ s' = { s with loop := .acquiring, free := s.free + 1 }) ∨
    (∃ i ev x y, e = .answer i ev ∧ s.tasks[i]? = some x ∧ x.answer ev = some y ∧
      s' = { s with tasks := s.tasks.set i y }) ∨
    ∃ i x r, e = .release i ∧ s.tasks[i]? = some x ∧ x.result = some r ∧
      s' = { s with
        tasks := s.tasks.eraseIdx i
        ended := s.ended ++ [x]
        free := s.free + 1
        log := s.log ++ report r } := by
  cases e with
  | acquire =>
    simp only [proxy, Option.ite_none_right_eq_some, Option.some.injEq] at h
    exact .inl ⟨rfl, h.1.1, h.1.2, h.2.symm⟩
  | accept =>
    simp only [proxy, Option.ite_none_right_eq_some, Option.some.injEq] at h
    exact .inr (.inl ⟨rfl, h.1, h.2.symm⟩)
  | acceptError =>
    simp only [proxy, Option.ite_none_right_eq_some, Option.some.injEq] at h
    exact .inr (.inr (.inl ⟨rfl, h.1, h.2.symm⟩))
  | retry =>
    simp only [proxy, Option.ite_none_right_eq_some, Option.some.injEq] at h
    exact .inr (.inr (.inr (.inl ⟨rfl, h.1, h.2.symm⟩)))
  | answer i ev =>
    simp only [proxy, Option.bind_eq_some_iff, Option.map_eq_some_iff] at h
    obtain ⟨x, hx, y, hy, hs⟩ := h
    exact .inr (.inr (.inr (.inr (.inl ⟨i, ev, x, y, rfl, hx, hy, hs.symm⟩))))
  | release i =>
    simp only [proxy, Option.bind_eq_some_iff, Option.map_eq_some_iff] at h
    obtain ⟨x, hx, r, hr, hs⟩ := h
    exact .inr (.inr (.inr (.inr (.inr ⟨i, x, r, rfl, hx, hr, hs.symm⟩))))

/-- Events of one session are events of the accept loop's view of it. -/
theorem run_session {t : Serving} {i : Nat} {p q : Phase} {evs : List SessionEvent}
    (hp : t.sessions[i]? = some p) (h : session.run p evs = some q) :
    serve.run t (evs.map (.session i)) = some { t with sessions := t.sessions.set i q } := by
  induction evs generalizing t p with
  | nil =>
    obtain rfl := Option.some.inj h
    obtain ⟨hi, rfl⟩ := List.getElem?_eq_some_iff.mp hp
    rw [List.map_nil, Machine.run_nil, List.set_getElem_self]
  | cons ev evs ih =>
    obtain ⟨m, hm, h⟩ := Machine.run_cons_some.mp h
    change p.step ev = some m at hm
    have hs : serve.step t (.session i ev) = some { t with sessions := t.sessions.set i m } := by
      simp only [serve, hp, Option.bind_some, hm, Option.map_some]
    have hi := (List.getElem?_eq_some_iff.mp hp).1
    rw [List.map_cons, Machine.run_cons, hs, Option.bind_some, ih (by simp [hi]) h]
    simp

/-- Each step of the proxy is a run of its accept loop's view. -/
theorem serving_step (h : (proxy roots upstreamPath fuel).step s e = some s') :
    serve.run s.serving (s.shown e) = some s'.serving := by
  rcases step_cases h with ⟨rfl, hl, hf, rfl⟩ | ⟨rfl, hl, rfl⟩ | ⟨rfl, hl, rfl⟩ | ⟨rfl, hl, rfl⟩ |
    ⟨i, ev, x, y, rfl, hx, hy, rfl⟩ | ⟨i, x, r, rfl, hx, hr, rfl⟩
  · simp [shown, serve, Machine.run, serving, hl, hf]
  · simp only [shown, serve, Machine.run_cons, Machine.run_nil]
    rw [if_pos (show s.serving.loop = .accepting from hl), Option.bind_some]
    congr 1
    unfold takeHook Serving.takeHook
    by_cases hf : s.onFirstAccept <;>
      simp [hf, serving, spawn, Serving.spawn, ProxyMark.mark, SessionTask.start_phase]
  · simp [shown, serve, Machine.run, serving, hl, ProxyMark.mark]
  · simp [shown, serve, Machine.run, serving, hl]
  · have hp : s.serving.sessions[i]? = some x.phase := by simp [serving, hx]
    have hr := run_session hp (SessionTask.phase_answer hy)
    rw [shown, hx]
    simp only [Option.elim_some, hy, Option.bind_some]
    rw [hr]
    simp [serving, List.map_set]
  · have hp : s.serving.sessions[i]? = some .returned := by
      simp [serving, hx, SessionTask.phase, hr]
    simp only [shown, serve, Machine.run_cons, Machine.run_nil]
    rw [if_pos hp, Option.bind_some]
    congr 1
    cases r <;> simp [serving, report, ProxyMark.mark, List.eraseIdx_map]

/-- Every run of the proxy is a run of its accept loop's view. -/
theorem serving_run {es : List ProxyEvent}
    (h : (proxy roots upstreamPath fuel).run s es = some s') :
    serve.run s.serving ((proxy roots upstreamPath fuel).shownRun shown s es) = some s'.serving :=
  Machine.run_shown (fun _ _ _ => serving_step) h

/-- Connections to the host daemon that are open. -/
def connections (s : Proxy roots upstreamPath fuel) : Nat := s.serving.connections

end Proxy

/-! ### The record -/

def ProxyMark.failure : ProxyMark → Option Error
  | .sessionFailed err => some err
  | _ => none

def SessionTask.failure (x : SessionTask roots upstreamPath fuel) : Option Error :=
  x.result.bind fun
    | .ok _ => none
    | .error err => some err

namespace Proxy

variable {s s' : Proxy roots upstreamPath fuel} {e : ProxyEvent}

/-- Each session that was started is running or over, and each that failed was reported, once and
in the order they came to their ends. -/
structure Kept (s : Proxy roots upstreamPath fuel) : Prop where
  sound : ∀ x ∈ s.tasks, x.Sound
  ended : ∀ x ∈ s.ended, x.result.isSome
  started : s.log.count .started = s.tasks.length + s.ended.length
  reported : s.log.filterMap ProxyMark.failure = s.ended.filterMap SessionTask.failure

theorem kept_start (given : Bool) : (start given : Proxy roots upstreamPath fuel).Kept where
  sound := by simp [start]
  ended := by simp [start]
  started := rfl
  reported := rfl

theorem report_failure {x : SessionTask roots upstreamPath fuel} {r : Except Error Unit}
    (h : x.result = some r) :
    (report r).filterMap ProxyMark.failure = [x].filterMap SessionTask.failure ∧
      (report r).count .started = 0 := by
  cases r <;> simp [report, ProxyMark.failure, SessionTask.failure, h]

theorem takeHook_kept (h : s.Kept) : s.takeHook.Kept := by
  unfold takeHook
  split
  · exact ⟨h.sound, h.ended, by simp [h.started], by simp [h.reported, ProxyMark.failure]⟩
  · exact h

theorem spawn_kept (h : s.Kept) : s.spawn.Kept where
  sound x hx := by
    rcases List.mem_append.mp hx with hx | hx
    · exact h.sound x hx
    · rw [List.mem_singleton.mp hx]
      exact SessionTask.start_sound
  ended := h.ended
  started := by
    have hs := h.started
    simp only [spawn, List.count_append, List.length_append, List.length_singleton]
    rw [show List.count ProxyMark.started [.started] = 1 by decide]
    omega
  reported := by simp [spawn, h.reported, ProxyMark.failure]

theorem kept_step (hk : s.Kept) (h : (proxy roots upstreamPath fuel).step s e = some s') :
    s'.Kept := by
  rcases step_cases h with ⟨rfl, hl, hf, rfl⟩ | ⟨rfl, hl, rfl⟩ | ⟨rfl, hl, rfl⟩ | ⟨rfl, hl, rfl⟩ |
    ⟨i, ev, x, y, rfl, hx, hy, rfl⟩ | ⟨i, x, r, rfl, hx, hr, rfl⟩
  · exact ⟨hk.sound, hk.ended, hk.started, hk.reported⟩
  · exact spawn_kept (takeHook_kept hk)
  · exact ⟨hk.sound, hk.ended, by simp [hk.started], by simp [hk.reported, ProxyMark.failure]⟩
  · exact ⟨hk.sound, hk.ended, hk.started, hk.reported⟩
  · refine ⟨fun z hz => ?_, hk.ended, by simp [hk.started], hk.reported⟩
    rcases List.mem_or_eq_of_mem_set hz with hz | rfl
    · exact hk.sound z hz
    · exact (SessionTask.answer_eq_some.mp hy).2
  · obtain ⟨hf, hc⟩ := report_failure hr
    refine ⟨fun z hz => hk.sound z (List.mem_of_mem_eraseIdx hz), fun z hz => ?_, ?_, ?_⟩
    · rcases List.mem_append.mp hz with hz | hz
      · exact hk.ended z hz
      · rw [List.mem_singleton.mp hz, hr]
        rfl
    · have hs := hk.started
      have hi := (List.getElem?_eq_some_iff.mp hx).1
      simp only [List.count_append, hc, List.length_append, List.length_singleton,
        List.length_eraseIdx_of_lt hi]
      omega
    · simp only [List.filterMap_append, hk.reported, hf]

/-- Sessions are neither lost nor made up, and no failure goes unreported or is reported twice, in
whatever order their calls are answered and they come to their ends. -/
theorem sessions_accounted (given : Bool) (es : List ProxyEvent) :
    ∀ s, (proxy roots upstreamPath fuel).run (.start given) es = some s → s.Kept := fun _ h =>
  Machine.invariant (fun _ _ _ => kept_step) (kept_start given) h

/-- Two guests connect. The first sends its magic word, and the host daemon is dialled for it; the
second sends something else, and its session fails. The loop waits for the next guest. -/
def busyEvents : List ProxyEvent :=
  [.acquire, .accept, .acquire, .accept, .acquire,
    .answer 0 ⟨.read .guest 8, .full (le64 workerMagic1) rfl⟩,
    .answer 1 ⟨.read .guest 8, .full (le64 workerMagic2) rfl⟩,
    .answer 0 ⟨.dial .host, .done⟩, .release 1]

theorem busyEvents_run : ((proxy none [] 4).run (.start true) busyEvents).isSome = true := by
  decide +kernel

def busy : Proxy none [] 4 := ((proxy none [] 4).run (.start true) busyEvents).get busyEvents_run

theorem busy_run : (proxy none [] 4).run (.start true) busyEvents = some busy :=
  (Option.some_get busyEvents_run).symm

theorem sessions_accounted_busy : busy.Kept := sessions_accounted true busyEvents busy busy_run

example : (busy.free, busy.loop, busy.tasks.length, busy.ended.length, busy.log) =
    (30, .accepting, 1, 1, [.hook, .started, .started, .sessionFailed
      ⟨["guest handshake", "guest sent bad magic 0x6478696f"]⟩]) := by
  decide +kernel

end Proxy

/-! ### Bounds -/

theorem next_ne_filling {p : Phase} {e : IoEvent} (hp : p ≠ .filling) (he : unfilled e) :
    p.next e ≠ .filling := by
  have hn := fill_not_mem_sessionEvents (t := [e]) (only_cons.mpr ⟨he, only_nil⟩) p
  unfold Phase.next
  cases hev : sessionEvent? p e with
  | none => exact hp
  | some ev =>
    cases ev with
    | fill => simp [sessionEvents, hev] at hn
    | dial => cases p <;> simp_all [Phase.step]
    | filled => cases p <;> simp_all [Phase.step]
    | finish => cases p <;> simp_all [Phase.step]

theorem after_ne_filling {p : Phase} {t : IoTrace} (hp : p ≠ .filling) (h : Only unfilled t) :
    lifecycle.after p t ≠ .filling := by
  induction t generalizing p with
  | nil => exact hp
  | cons e t ih =>
    rw [only_cons] at h
    exact ih (next_ne_filling hp h.1) h.2

/-- Without a manifest no session is ever in a fill. -/
theorem SessionTask.phase_ne_filling (x : SessionTask none upstreamPath fuel) :
    x.phase ≠ .filling := by
  obtain ⟨u, r, h, -⟩ := x.extends_run hangUp
  have hu := (only_append.mp (proxyRelay_unfilled h)).1
  unfold phase
  split
  · simp
  · exact after_ne_filling (by simp) hu

namespace Proxy

theorem serving_start (given : Bool) :
    (start given : Proxy roots upstreamPath fuel).serving = .start given := rfl

theorem serving_conserved {given : Bool} {es : List ProxyEvent} {s : Proxy roots upstreamPath fuel}
    (h : (proxy roots upstreamPath fuel).run (.start given) es = some s) : s.serving.Conserved :=
  Machine.invariant (m := serve) (fun _ _ _ => Serving.conserved_step)
    (Serving.conserved_start given) (serving_start given ▸ serving_run h)

theorem fills_eq_zero (s : Proxy none upstreamPath fuel) : s.serving.fills = 0 := by
  refine List.countP_eq_zero.mpr fun p hp => ?_
  obtain ⟨x, -, rfl⟩ := List.mem_map.mp hp
  simpa using x.phase_ne_filling

end Proxy

/-- What the proxy keeps to in a state. -/
structure WellBehaved (s : Proxy roots upstreamPath fuel) : Prop where
  permits : s.free + s.loop.permits + s.tasks.length = maxSessions
  connections : s.connections ≤ 2 * maxSessions
  unfilled : roots = none → s.connections ≤ maxSessions
  /-- On its relayed connection every session, running or over, keeps to the script. -/
  scripts : ∀ x ∈ s.tasks ++ s.ended, ∃ n fields rs,
    HostPrefix ourFeatures (recvd .host x.trace) (sent .host x.trace) n fields rs

/-- However the calls of all its sessions are answered, and in whichever order, the proxy keeps to
its permits, to its connections, and each session to its script. -/
theorem proxy_wellBehaved (given : Bool) (es : List ProxyEvent) :
    ∀ s, (proxy roots upstreamPath fuel).run (.start given) es = some s → WellBehaved s := by
  intro s h
  have hc := Proxy.serving_conserved h
  have hr := Serving.relayed_bounded hc
  have hf := Serving.fills_le (s := s.serving)
  refine ⟨?_, ?_, ?_, fun x _ => x.hostPrefix⟩
  · simpa [Serving.Conserved, Proxy.serving] using hc
  · unfold Proxy.connections Serving.connections
    omega
  · rintro rfl
    have hz := Proxy.fills_eq_zero s
    unfold Proxy.connections Serving.connections
    omega

theorem proxy_wellBehaved_busy : WellBehaved Proxy.busy :=
  proxy_wellBehaved true Proxy.busyEvents Proxy.busy Proxy.busy_run

end Claudepod
