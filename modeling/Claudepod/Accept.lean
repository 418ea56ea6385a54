import Claudepod.Machine

/-! The accept loop of the proxy. A permit is taken before a guest is accepted and moves into
the task of its session. -/

set_option autoImplicit false

namespace Claudepod
open Interaction

/-- Cap on concurrent sessions. -/
def maxSessions : Nat := 32

/-- What a session's task holds of the host: nothing before the guest's magic, the relayed
connection, that and the connection of a fill, or nothing any more. -/
inductive Phase where
  | greeting | dialled | filling | returned
  deriving DecidableEq, Repr

inductive SessionEvent where
  | dial | fill | filled | finish
  deriving DecidableEq, Repr

/-- A session dials once and fills one path at a time; it can end wherever it is. -/
def Phase.step : Phase → SessionEvent → Option Phase
  | .greeting, .dial => some .dialled
  | .dialled, .fill => some .filling
  | .filling, .filled => some .dialled
  | .greeting, .finish | .dialled, .finish | .filling, .finish => some .returned
  | _, _ => none

/-- Where the accept loop is. Its permit is a local of the loop body. -/
inductive LoopAt where
  | acquiring | accepting | failed
  deriving DecidableEq, Repr

def LoopAt.permits : LoopAt → Nat
  | .acquiring => 0
  | .accepting | .failed => 1

/-- What the loop has done, for the record. -/
inductive Mark where
  | hook | started | acceptFailed
  deriving DecidableEq, Repr

structure Serving where
  /-- Permits in the semaphore. -/
  free : Nat
  loop : LoopAt
  /-- `on_first_accept`, not yet taken. -/
  onFirstAccept : Bool
  /-- Tasks that hold a permit. -/
  sessions : List Phase
  log : List Mark
  deriving DecidableEq, Repr

inductive ServeEvent where
  | acquire | accept | acceptError | retry
  | session (i : Nat) (e : SessionEvent)
  | release (i : Nat)
  deriving DecidableEq, Repr

namespace Serving

def start (onFirstAccept : Bool) : Serving := ⟨maxSessions, .acquiring, onFirstAccept, [], []⟩

/-- `if let Some(hook) = on_first_accept.take() { hook() }`. -/
def takeHook (s : Serving) : Serving :=
  if s.onFirstAccept then { s with onFirstAccept := false, log := s.log ++ [.hook] } else s

/-- The permit moves into the new task. -/
def spawn (s : Serving) : Serving :=
  { s with loop := .acquiring, sessions := s.sessions ++ [.greeting], log := s.log ++ [.started] }

end Serving

/-- `serve`. From an accept to the spawn the loop awaits nothing. -/
def serve : Machine Serving ServeEvent where
  step s
    | .acquire =>
      if s.loop = .acquiring ∧ 0 < s.free then
        some { s with loop := .accepting, free := s.free - 1 }
      else none
    | .accept => if s.loop = .accepting then some s.takeHook.spawn else none
    | .acceptError =>
      if s.loop = .accepting then
        some { s with loop := .failed, log := s.log ++ [.acceptFailed] }
      else none
    -- After the sleep, `continue` drops the permit.
    | .retry =>
      if s.loop = .failed then some { s with loop := .acquiring, free := s.free + 1 } else none
    | .session i e =>
      (s.sessions[i]?).bind fun phase => (phase.step e).map fun phase' =>
        { s with sessions := s.sessions.set i phase' }
    -- The task is over: its permit is dropped last.
    | .release i =>
      if s.sessions[i]? = some .returned then
        some { s with sessions := s.sessions.eraseIdx i, free := s.free + 1 }
      else none

namespace Serving

variable {s s' : Serving}

@[simp] theorem takeHook_loop (s : Serving) : s.takeHook.loop = s.loop := by
  unfold takeHook; split <;> rfl

@[simp] theorem takeHook_free (s : Serving) : s.takeHook.free = s.free := by
  unfold takeHook; split <;> rfl

@[simp] theorem takeHook_sessions (s : Serving) : s.takeHook.sessions = s.sessions := by
  unfold takeHook; split <;> rfl

/-- What one step can do. -/
theorem step_cases {e : ServeEvent} (h : serve.step s e = some s') :
    (e = .acquire ∧ s.loop = .acquiring ∧ 0 < s.free ∧
      s' = { s with loop := .accepting, free := s.free - 1 }) ∨
    (e = .accept ∧ s.loop = .accepting ∧ s' = s.takeHook.spawn) ∨
    (e = .acceptError ∧ s.loop = .accepting ∧
      s' = { s with loop := .failed, log := s.log ++ [.acceptFailed] }) ∨
    (e = .retry ∧ s.loop = .failed ∧ s' = { s with loop := .acquiring, free := s.free + 1 }) ∨
    (∃ i ev phase phase', e = .session i ev ∧ s.sessions[i]? = some phase ∧
      phase.step ev = some phase' ∧ s' = { s with sessions := s.sessions.set i phase' }) ∨
    ∃ i, e = .release i ∧ s.sessions[i]? = some .returned ∧
      s' = { s with sessions := s.sessions.eraseIdx i, free := s.free + 1 } := by
  cases e with
  | acquire =>
    simp only [serve, Option.ite_none_right_eq_some, Option.some.injEq] at h
    exact .inl ⟨rfl, h.1.1, h.1.2, h.2.symm⟩
  | accept =>
    simp only [serve, Option.ite_none_right_eq_some, Option.some.injEq] at h
    exact .inr (.inl ⟨rfl, h.1, h.2.symm⟩)
  | acceptError =>
    simp only [serve, Option.ite_none_right_eq_some, Option.some.injEq] at h
    exact .inr (.inr (.inl ⟨rfl, h.1, h.2.symm⟩))
  | retry =>
    simp only [serve, Option.ite_none_right_eq_some, Option.some.injEq] at h
    exact .inr (.inr (.inr (.inl ⟨rfl, h.1, h.2.symm⟩)))
  | session i ev =>
    simp only [serve, Option.bind_eq_some_iff, Option.map_eq_some_iff] at h
    obtain ⟨phase, hp, phase', hp', hs⟩ := h
    exact .inr (.inr (.inr (.inr (.inl ⟨i, ev, phase, phase', rfl, hp, hp', hs.symm⟩))))
  | release i =>
    simp only [serve, Option.ite_none_right_eq_some, Option.some.injEq] at h
    exact .inr (.inr (.inr (.inr (.inr ⟨i, rfl, h.1, h.2.symm⟩))))

/-- Every permit is free, with the loop, or with a session. -/
def Conserved (s : Serving) : Prop := s.free + s.loop.permits + s.sessions.length = maxSessions

theorem conserved_step {e : ServeEvent} (hc : s.Conserved) (h : serve.step s e = some s') :
    s'.Conserved := by
  unfold Conserved at hc ⊢
  rcases step_cases h with ⟨-, hl, hf, rfl⟩ | ⟨-, hl, rfl⟩ | ⟨-, hl, rfl⟩ | ⟨-, hl, rfl⟩ |
    ⟨i, ev, phase, phase', -, -, -, rfl⟩ | ⟨i, -, hi, rfl⟩
  · simp only [hl, LoopAt.permits] at hc ⊢
    omega
  · simp only [hl, LoopAt.permits, spawn, takeHook_free, takeHook_sessions, List.length_append,
      List.length_singleton] at hc ⊢
    omega
  · simp only [hl, LoopAt.permits] at hc ⊢
    omega
  · simp only [hl, LoopAt.permits] at hc ⊢
    omega
  · simpa using hc
  · have hlt := (List.getElem?_eq_some_iff.mp hi).1
    have hn := List.length_eraseIdx_of_lt hlt
    simp only [hn] at hc ⊢
    omega

/-- The record of the hook: not given and never run, still to come and no session started, or
run once before the first session. -/
def HookKept (given : Bool) (s : Serving) : Prop :=
  (given = false ∧ s.onFirstAccept = false ∧ .hook ∉ s.log) ∨
  (given = true ∧ s.onFirstAccept = true ∧ .hook ∉ s.log ∧ .started ∉ s.log) ∨
  (given = true ∧ s.onFirstAccept = false ∧
    ∃ before rest, s.log = before ++ .hook :: rest ∧ .hook ∉ before ∧ .hook ∉ rest ∧
      .started ∉ before)

theorem hookKept_log {given : Bool} {x : Mark} (hx : x ≠ .hook)
    (hs : x = .started → s.onFirstAccept = false) (h : s.HookKept given)
    (hf : s'.onFirstAccept = s.onFirstAccept) (hl : s'.log = s.log ++ [x]) :
    s'.HookKept given := by
  unfold HookKept at h ⊢
  rw [hf, hl]
  rcases h with ⟨hg, ho, hn⟩ | ⟨hg, ho, hn, hst⟩ | ⟨hg, ho, before, rest, he, hb, hr, hst⟩
  · exact .inl ⟨hg, ho, by simp [hn, hx.symm]⟩
  · have hne : x ≠ .started := fun hx => by rw [hs hx] at ho; cases ho
    exact .inr (.inl ⟨hg, ho, by simp [hn, hx.symm], by simp [hst, hne.symm]⟩)
  · exact .inr (.inr ⟨hg, ho, before, rest ++ [x], by simp [he], hb, by simp [hr, hx.symm], hst⟩)

theorem takeHook_kept {given : Bool} (h : s.HookKept given) :
    s.takeHook.HookKept given ∧ s.takeHook.onFirstAccept = false := by
  unfold takeHook
  rcases h with ⟨hg, ho, hn⟩ | ⟨hg, ho, hn, hst⟩ | ⟨hg, ho, hx⟩
  · rw [if_neg (by simp [ho])]
    exact ⟨.inl ⟨hg, ho, hn⟩, ho⟩
  · rw [if_pos ho]
    exact ⟨.inr (.inr ⟨hg, rfl, s.log, [], rfl, hn, by simp, hst⟩), rfl⟩
  · rw [if_neg (by simp [ho])]
    exact ⟨.inr (.inr ⟨hg, ho, hx⟩), ho⟩

theorem hookKept_step {given : Bool} {e : ServeEvent} (hk : s.HookKept given)
    (h : serve.step s e = some s') : s'.HookKept given := by
  rcases step_cases h with ⟨-, -, -, rfl⟩ | ⟨-, -, rfl⟩ | ⟨-, -, rfl⟩ | ⟨-, -, rfl⟩ |
    ⟨i, ev, phase, phase', -, -, -, rfl⟩ | ⟨i, -, -, rfl⟩
  · exact hk
  · obtain ⟨ht, ho⟩ := takeHook_kept hk
    exact hookKept_log (x := .started) (by simp) (fun _ => ho) ht rfl rfl
  · exact hookKept_log (x := .acceptFailed) (by simp) nofun hk rfl rfl
  · exact hk
  · exact hk
  · exact hk

end Serving

/-- The events of the loop itself that do not wait for a guest. -/
def ServeEvent.ofLoop : ServeEvent → Bool
  | .acquire | .retry => true
  | _ => false

/-- What the accept loop guarantees in a state. -/
structure PermitsKept (given : Bool) (s : Serving) : Prop where
  conserved : s.free + s.loop.permits + s.sessions.length = maxSessions
  bounded : s.sessions.length ≤ maxSessions
  /-- An accept error keeps the sessions and, once the loop goes on, gives its permit back. -/
  error : ∀ s', serve.step s .acceptError = some s' →
    s'.sessions = s.sessions ∧ s'.free + s'.loop.permits = s.free + s.loop.permits ∧
      s'.log = s.log ++ [.acceptFailed] ∧
      ∃ s'', serve.step s' .retry = some s'' ∧ s''.sessions = s.sessions ∧
        s''.free = s.free + 1 ∧ s''.loop.permits = 0
  /-- With room for a session the loop gets ready for the next guest by itself. -/
  ready : s.sessions.length < maxSessions → ∃ es s', (∀ e ∈ es, e.ofLoop) ∧
    serve.run s es = some s' ∧ s'.sessions = s.sessions ∧ s'.loop = .accepting
  hookOnce : s.log.count .hook ≤ 1
  hookGiven : .hook ∈ s.log → given
  hookFirst : given → ∀ before rest, s.log = before ++ .started :: rest → .hook ∈ before

theorem Serving.ready {s : Serving} (hc : s.Conserved) (h : s.sessions.length < maxSessions) :
    ∃ es s', (∀ e ∈ es, e.ofLoop) ∧ serve.run s es = some s' ∧ s'.sessions = s.sessions ∧
      s'.loop = .accepting := by
  obtain ⟨free, loop, hook, sessions, log⟩ := s
  unfold Serving.Conserved at hc
  dsimp only at hc h
  cases loop with
  | acquiring =>
    have hf : 0 < free := by simp only [LoopAt.permits] at hc; omega
    exact ⟨[.acquire], ⟨free - 1, .accepting, hook, sessions, log⟩, by simp [ServeEvent.ofLoop],
      by simp [serve, Machine.run, hf], rfl, rfl⟩
  | accepting => exact ⟨[], _, by simp, rfl, rfl, rfl⟩
  | failed =>
    exact ⟨[.retry, .acquire], ⟨free, .accepting, hook, sessions, log⟩, by simp [ServeEvent.ofLoop],
      by simp [serve, Machine.run], rfl, rfl⟩

theorem Serving.hookFirst {s : Serving} (h : s.HookKept true) {before rest : List Mark}
    (he : s.log = before ++ .started :: rest) : .hook ∈ before := by
  rcases h with ⟨hg, -⟩ | ⟨-, -, -, hst⟩ | ⟨-, -, b, r, hb, -, -, hst⟩
  · cases hg
  · exact absurd (by simp [he]) hst
  · rw [hb] at he
    rcases List.append_eq_append_iff.mp he with ⟨c, rfl, hc⟩ | ⟨c, rfl, hc⟩
    · cases c with
      | nil => simp at hc
      | cons x c =>
        simp only [List.cons_append, List.cons.injEq] at hc
        simp [← hc.1]
    · cases c with
      | nil => simp at hc
      | cons x c =>
        simp only [List.cons_append, List.cons.injEq] at hc
        simp [← hc.1] at hst

/-- Permits are conserved in every state the accept loop and its sessions can reach, in any
order of accepts, errors and endings; the hook runs once, before the first session. -/
theorem permits_conserved (given : Bool) (es : List ServeEvent) :
    ∀ s, serve.run (.start given) es = some s → PermitsKept given s := by
  intro s hr
  have hc : s.Conserved :=
    Machine.invariant (m := serve) (fun s e s' hc h => Serving.conserved_step hc h)
      (by simp [Serving.Conserved, Serving.start, LoopAt.permits]) hr
  have hk : s.HookKept given :=
    Machine.invariant (m := serve) (fun s e s' hk h => Serving.hookKept_step hk h)
      (by cases given <;> simp [Serving.HookKept, Serving.start]) hr
  refine ⟨hc, by unfold Serving.Conserved at hc; omega, ?_, fun h => Serving.ready hc h, ?_, ?_, ?_⟩
  · intro s' hs
    rcases Serving.step_cases hs with ⟨h, -⟩ | ⟨h, -⟩ | ⟨-, hl, rfl⟩ | ⟨h, -⟩ |
      ⟨i, ev, phase, phase', h, -⟩ | ⟨i, h, -⟩
    · cases h
    · cases h
    · exact ⟨rfl, by simp [hl, LoopAt.permits], rfl,
        { s with loop := .acquiring, free := s.free + 1, log := s.log ++ [.acceptFailed] },
        by simp [serve], rfl, rfl, rfl⟩
    · cases h
    · cases h
    · cases h
  · rcases hk with ⟨-, -, hn⟩ | ⟨-, -, hn, -⟩ | ⟨-, -, before, rest, he, hb, hr, -⟩
    · rw [List.count_eq_zero_of_not_mem hn]; omega
    · rw [List.count_eq_zero_of_not_mem hn]; omega
    · rw [he, List.count_append, List.count_cons, List.count_eq_zero_of_not_mem hb,
        List.count_eq_zero_of_not_mem hr]
      simp
  · intro hm
    rcases hk with ⟨-, -, hn⟩ | ⟨hg, -⟩ | ⟨hg, -⟩
    · exact absurd hm hn
    · exact hg
    · exact hg
  · intro hg before rest he
    rw [show given = true from hg] at hk
    exact Serving.hookFirst hk he

theorem permits_conserved_sample :
    PermitsKept true ⟨31, .acquiring, false, [.dialled], [.acceptFailed, .hook, .started]⟩ :=
  permits_conserved true
    [.acquire, .acceptError, .retry, .acquire, .accept, .session 0 .dial] _ (by decide)

end Claudepod
