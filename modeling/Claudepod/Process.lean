import Claudepod.Proxy

/-! The process of the proxy, from its start by the launcher to its end. Signals and the death of
its parent, which first is the launcher and then podman, come between any two of its steps. -/

set_option autoImplicit false

namespace Claudepod
open Interaction

variable {upstreamPath : Bytes} {fuel : Nat}

/-- Signals that end a process which has no handler for them. -/
inductive Signal where
  /-- SIGTERM. -/
  | term
  /-- SIGINT. -/
  | int
  /-- SIGHUP, SIGQUIT, SIGKILL and others. -/
  | other
  deriving DecidableEq

/-- The step of `main` that puts its handler in place. -/
def Signal.handler : Signal → Option Nat
  | .term => some 1
  | .int => some 2
  | .other => none

/-- How far `main` has come. -/
inductive Stage (upstreamPath : Bytes) (fuel : Nat) where
  /-- The listener is adopted, and the path of its socket known. -/
  | adopted
  /-- SIGTERM has a handler. -/
  | terminable
  /-- SIGINT has one, too. -/
  | handling
  /-- The death of the parent sends SIGTERM. -/
  | armed
  /-- The parent was still there then. -/
  | checked
  | serving (roots : Option NixRunRoots) (s : Proxy roots upstreamPath fuel)
  | ended (result : Except Error Unit)
  /-- By a signal without a handler. -/
  | killed

namespace Stage

/-- `PR_SET_PDEATHSIG` has been called. -/
def watching : Stage upstreamPath fuel → Bool
  | .armed | .checked | .serving _ _ => true
  | _ => false

/-- The parent has been seen. -/
def passed : Stage upstreamPath fuel → Bool
  | .checked | .serving _ _ => true
  | _ => false

def done : Stage upstreamPath fuel → Bool
  | .ended _ | .killed => true
  | _ => false

/-- How many handlers there are. -/
def handlers : Stage upstreamPath fuel → Nat
  | .adopted => 0
  | .terminable => 1
  | _ => 2

def handles (stage : Stage upstreamPath fuel) (signal : Signal) : Bool :=
  signal.handler.any (· ≤ stage.handlers)

/-- The process's own steps to its end, once its parent is gone. -/
def left : Stage upstreamPath fuel → Nat
  | .adopted => 4
  | .terminable => 3
  | .handling => 2
  | .armed => 1
  | .checked => 2
  | .serving _ _ => 1
  | .ended _ => 0
  | .killed => 0

end Stage

structure ProxyProcess (upstreamPath : Bytes) (fuel : Nat) where
  parentAlive : Bool
  /-- A handler has been called, and `select!` has not seen it yet. -/
  signalled : Bool
  /-- `unlink` has not been called for the socket. -/
  named : Bool
  stage : Stage upstreamPath fuel

inductive ProcessEvent where
  | parentDies
  /-- From anyone else. -/
  | signal (signal : Signal)
  /-- The next step before serving, and how its system call ends. -/
  | work (outcome : Except Error Unit)
  /-- `select!` is polled: `serve` gets so far, and a signal is seen. -/
  | poll (es : List ProxyEvent)

def ProcessEvent.own : ProcessEvent → Bool
  | .work _ | .poll _ => true
  | _ => false

namespace ProxyProcess

/-- What `main` does after `run`. -/
def finish (s : ProxyProcess upstreamPath fuel) (result : Except Error Unit) :
    ProxyProcess upstreamPath fuel :=
  { s with named := false, stage := .ended result }

/-- A step of `run` that may fail. -/
def next (s : ProxyProcess upstreamPath fuel) (outcome : Except Error Unit)
    (stage : Stage upstreamPath fuel) : ProxyProcess upstreamPath fuel :=
  match outcome with
  | .ok _ => { s with stage := stage }
  | .error err => s.finish (.error err)

def parentDied (parentPid : Int) : Error :=
  .msg s!"parent {parentPid} died before proxy startup"

/-- Whatever comes for a parent has another pid. -/
def check (s : ProxyProcess upstreamPath fuel) (parentPid : Int) :
    ProxyProcess upstreamPath fuel :=
  if s.parentAlive then { s with stage := .checked } else s.finish (.error (parentDied parentPid))

def load (s : ProxyProcess upstreamPath fuel) (manifest : Except Error (Option NixRunRoots))
    (outcome : Except Error Unit) : ProxyProcess upstreamPath fuel :=
  match manifest with
  | .ok roots => s.next outcome (.serving roots (.start true))
  | .error err => s.finish (.error err)

def work (s : ProxyProcess upstreamPath fuel) (parentPid : Int)
    (manifest : Except Error (Option NixRunRoots)) (outcome : Except Error Unit) :
    Option (ProxyProcess upstreamPath fuel) :=
  match s.stage with
  | .adopted => some (s.next outcome .terminable)
  | .terminable => some (s.next outcome .handling)
  | .handling => some (s.next outcome .armed)
  | .armed => some (s.check parentPid)
  | .checked => some (s.load manifest outcome)
  | _ => none

/-- The first accept takes the name away. -/
def served (s : ProxyProcess upstreamPath fuel) (roots : Option NixRunRoots)
    (p : Proxy roots upstreamPath fuel) : ProxyProcess upstreamPath fuel :=
  { s with stage := .serving roots p, named := s.named && decide (.hook ∉ p.log) }

def poll (s : ProxyProcess upstreamPath fuel) (es : List ProxyEvent) :
    Option (ProxyProcess upstreamPath fuel) :=
  match s.stage with
  | .serving roots p => ((proxy roots upstreamPath fuel).run p es).map fun p' =>
    if s.signalled then (s.served roots p').finish (.ok ()) else s.served roots p'
  | _ => none

def signal (s : ProxyProcess upstreamPath fuel) (signal : Signal) :
    Option (ProxyProcess upstreamPath fuel) :=
  if s.stage.done then none
  else if s.stage.handles signal then some { s with signalled := true }
  else some { s with stage := .killed }

def start : ProxyProcess upstreamPath fuel := ⟨true, false, true, .adopted⟩

end ProxyProcess

def proxyProcess (upstreamPath : Bytes) (fuel : Nat) (parentPid : Int)
    (manifest : Except Error (Option NixRunRoots)) :
    Machine (ProxyProcess upstreamPath fuel) ProcessEvent where
  step s
    | .parentDies =>
      if s.parentAlive then
        some { s with parentAlive := false, signalled := s.signalled || s.stage.watching }
      else none
    | .signal signal => s.signal signal
    | .work outcome => s.work parentPid manifest outcome
    | .poll es => s.poll es

/-! ### What holds in every state -/

namespace ProxyProcess

variable {parentPid : Int} {manifest : Except Error (Option NixRunRoots)}
  {s s' : ProxyProcess upstreamPath fuel} {e : ProcessEvent}

/-- What one step can do. -/
inductive Step (parentPid : Int) (manifest : Except Error (Option NixRunRoots))
    (s : ProxyProcess upstreamPath fuel) :
    ProcessEvent → ProxyProcess upstreamPath fuel → Prop where
  | parentDies : s.parentAlive = true → Step parentPid manifest s .parentDies
      { s with parentAlive := false, signalled := s.signalled || s.stage.watching }
  | kill (signal : Signal) : s.stage.done = false → s.stage.handles signal = false →
      Step parentPid manifest s (.signal signal) { s with stage := .killed }
  | signal (signal : Signal) : s.stage.done = false → s.stage.handles signal = true →
      Step parentPid manifest s (.signal signal) { s with signalled := true }
  | terminate (outcome : Except Error Unit) : s.stage = .adopted →
      Step parentPid manifest s (.work outcome) (s.next outcome .terminable)
  | interrupt (outcome : Except Error Unit) : s.stage = .terminable →
      Step parentPid manifest s (.work outcome) (s.next outcome .handling)
  | arm (outcome : Except Error Unit) : s.stage = .handling →
      Step parentPid manifest s (.work outcome) (s.next outcome .armed)
  | check (outcome : Except Error Unit) : s.stage = .armed →
      Step parentPid manifest s (.work outcome) (s.check parentPid)
  | load (outcome : Except Error Unit) : s.stage = .checked →
      Step parentPid manifest s (.work outcome) (s.load manifest outcome)
  | stop (es : List ProxyEvent) (roots : Option NixRunRoots)
      (p p' : Proxy roots upstreamPath fuel) : s.stage = .serving roots p →
      (proxy roots upstreamPath fuel).run p es = some p' → s.signalled = true →
      Step parentPid manifest s (.poll es) ((s.served roots p').finish (.ok ()))
  | serve (es : List ProxyEvent) (roots : Option NixRunRoots)
      (p p' : Proxy roots upstreamPath fuel) : s.stage = .serving roots p →
      (proxy roots upstreamPath fuel).run p es = some p' → s.signalled = false →
      Step parentPid manifest s (.poll es) (s.served roots p')

theorem step_of (h : (proxyProcess upstreamPath fuel parentPid manifest).step s e = some s') :
    s.Step parentPid manifest e s' := by
  cases e with
  | parentDies =>
    simp only [proxyProcess, Option.ite_none_right_eq_some, Option.some.injEq] at h
    obtain ⟨ha, rfl⟩ := h
    exact .parentDies ha
  | signal signal =>
    change s.signal signal = some s' at h
    unfold ProxyProcess.signal at h
    obtain ⟨hd, h⟩ := Option.ite_none_left_eq_some.mp h
    have hd : s.stage.done = false := by simpa using hd
    split at h
    · rename_i hh
      obtain rfl := Option.some.inj h
      exact .signal signal hd hh
    · rename_i hh
      obtain rfl := Option.some.inj h
      exact .kill signal hd (by simpa using hh)
  | work outcome =>
    change s.work parentPid manifest outcome = some s' at h
    unfold ProxyProcess.work at h
    split at h
    · rename_i hst
      obtain rfl := Option.some.inj h
      exact .terminate outcome hst
    · rename_i hst
      obtain rfl := Option.some.inj h
      exact .interrupt outcome hst
    · rename_i hst
      obtain rfl := Option.some.inj h
      exact .arm outcome hst
    · rename_i hst
      obtain rfl := Option.some.inj h
      exact .check outcome hst
    · rename_i hst
      obtain rfl := Option.some.inj h
      exact .load outcome hst
    · cases h
  | poll es =>
    change s.poll es = some s' at h
    unfold ProxyProcess.poll at h
    split at h
    · rename_i roots p hst
      obtain ⟨p', hr, rfl⟩ := Option.map_eq_some_iff.mp h
      split
      · rename_i hsig
        exact .stop es roots p p' hst hr hsig
      · rename_i hsig
        exact .serve es roots p p' hst hr (by simpa using hsig)
    · cases h

/-- Once past the check, the process knows of its parent's death; it leaves no name behind, and
serves no one while there is one. -/
structure Watched (s : ProxyProcess upstreamPath fuel) : Prop where
  orphan : s.parentAlive = false → s.stage.passed = true → s.signalled = true
  ended : ∀ result, s.stage = .ended result → s.named = false
  hook : ∀ roots p, s.stage = .serving roots p →
    p.serving.HookKept true ∧ (.hook ∈ p.log → s.named = false)

theorem watched_start : (start : ProxyProcess upstreamPath fuel).Watched :=
  ⟨nofun, nofun, nofun⟩

theorem finish_watched (s : ProxyProcess upstreamPath fuel) (result : Except Error Unit) :
    (s.finish result).Watched :=
  ⟨nofun, fun _ _ => rfl, nofun⟩

/-- Steps before the check. -/
theorem next_watched (s : ProxyProcess upstreamPath fuel) (outcome : Except Error Unit)
    {stage : Stage upstreamPath fuel} (hp : stage.passed = false) (ho : stage.done = false) :
    (s.next outcome stage).Watched := by
  cases outcome with
  | error err => exact finish_watched s _
  | ok _ =>
    refine ⟨fun _ h => ?_, fun result h => ?_, fun roots p h => ?_⟩
    · exact absurd (hp.symm.trans h) nofun
    · rw [show stage = .ended result from h] at ho
      cases ho
    · rw [show stage = .serving roots p from h] at hp
      cases hp

theorem check_watched (s : ProxyProcess upstreamPath fuel) (parentPid : Int) :
    (s.check parentPid).Watched := by
  unfold check
  split
  · rename_i ha
    exact ⟨fun h => absurd (ha.symm.trans h) nofun, nofun, nofun⟩
  · exact finish_watched s _

theorem hookKept_proxyStart {roots : Option NixRunRoots} :
    (Proxy.start true : Proxy roots upstreamPath fuel).serving.HookKept true :=
  .inr (.inl ⟨rfl, rfl, nofun, nofun⟩)

theorem load_watched (h : s.Watched) (hs : s.stage = .checked)
    (manifest : Except Error (Option NixRunRoots)) (outcome : Except Error Unit) :
    (s.load manifest outcome).Watched := by
  cases manifest with
  | error err => exact finish_watched s _
  | ok roots =>
    cases outcome with
    | error err => exact finish_watched s _
    | ok _ =>
      refine ⟨fun ha _ => h.orphan ha (by rw [hs]; rfl), nofun, fun roots' p hp => ?_⟩
      cases hp
      exact ⟨hookKept_proxyStart, nofun⟩

theorem served_watched {roots : Option NixRunRoots} {p p' : Proxy roots upstreamPath fuel}
    {es : List ProxyEvent} (h : s.Watched) (hs : s.stage = .serving roots p)
    (hr : (proxy roots upstreamPath fuel).run p es = some p') : (s.served roots p').Watched := by
  refine ⟨fun ha _ => h.orphan ha (by rw [hs]; rfl), nofun, fun roots' q hq => ?_⟩
  cases hq
  refine ⟨Machine.invariant (fun _ _ _ => Serving.hookKept_step) (h.hook roots p hs).1
    (Proxy.serving_run hr), fun hm => ?_⟩
  simp [served, hm]

theorem watched_step (h : s.Watched)
    (hs : (proxyProcess upstreamPath fuel parentPid manifest).step s e = some s') :
    s'.Watched := by
  cases step_of hs with
  | parentDies ha =>
    refine ⟨fun _ hp => ?_, h.ended, h.hook⟩
    show (s.signalled || s.stage.watching) = true
    rw [show s.stage.watching = true by
      revert hp
      cases s.stage <;> simp [Stage.passed, Stage.watching], Bool.or_true]
  | kill signal hd hh => exact ⟨nofun, nofun, nofun⟩
  | signal signal hd hh => exact ⟨fun _ _ => rfl, h.ended, h.hook⟩
  | terminate outcome hst => exact next_watched s outcome rfl rfl
  | interrupt outcome hst => exact next_watched s outcome rfl rfl
  | arm outcome hst => exact next_watched s outcome rfl rfl
  | check outcome hst => exact check_watched s parentPid
  | load outcome hst => exact load_watched h hst manifest outcome
  | stop es roots p p' hst hr hsig => exact finish_watched _ _
  | serve es roots p p' hst hr hsig => exact served_watched h hst hr

/-! ### The end of an orphan -/

theorem next_left (s : ProxyProcess upstreamPath fuel) (outcome : Except Error Unit)
    (stage : Stage upstreamPath fuel) :
    (s.next outcome stage).parentAlive = s.parentAlive ∧
      (s.next outcome stage).stage.left ≤ stage.left := by
  cases outcome with
  | ok _ => exact ⟨rfl, le_refl _⟩
  | error err => exact ⟨rfl, Nat.zero_le _⟩

/-- Each step of its own brings an orphan nearer to its end, and nothing else takes it further. -/
theorem left_step (h : s.Watched) (ha : s.parentAlive = false)
    (hs : (proxyProcess upstreamPath fuel parentPid manifest).step s e = some s') :
    s'.parentAlive = false ∧ s'.stage.left + (if e.own then 1 else 0) ≤ s.stage.left := by
  cases step_of hs with
  | parentDies halive => cases ha.symm.trans halive
  | kill signal hd hh => exact ⟨ha, Nat.zero_le _⟩
  | signal signal hd hh => exact ⟨ha, le_refl _⟩
  | terminate outcome hst =>
    obtain ⟨hp, hl⟩ := next_left s outcome .terminable
    rw [hst]
    exact ⟨hp.trans ha, Nat.succ_le_succ hl⟩
  | interrupt outcome hst =>
    obtain ⟨hp, hl⟩ := next_left s outcome .handling
    rw [hst]
    exact ⟨hp.trans ha, Nat.succ_le_succ hl⟩
  | arm outcome hst =>
    obtain ⟨hp, hl⟩ := next_left s outcome .armed
    rw [hst]
    exact ⟨hp.trans ha, Nat.succ_le_succ hl⟩
  | check outcome hst =>
    rw [ProxyProcess.check, if_neg (by simp [ha]), hst]
    exact ⟨ha, le_refl _⟩
  | load outcome hst =>
    rw [hst]
    cases manifest with
    | error e => exact ⟨ha, Nat.le_succ 1⟩
    | ok roots =>
      obtain ⟨hp, hl⟩ := next_left s outcome (.serving roots (.start true))
      exact ⟨hp.trans ha, Nat.succ_le_succ hl⟩
  | stop es roots p p' hst hr hsig =>
    rw [hst]
    exact ⟨ha, le_refl _⟩
  | serve es roots p p' hst hr hsig =>
    exact absurd (hsig.symm.trans (h.orphan ha (by rw [hst]; rfl))) nofun

/-- The number of the process's own steps. -/
def ownSteps (es : List ProcessEvent) : Nat := es.countP (·.own)

theorem left_run {es : List ProcessEvent} (h : s.Watched) (ha : s.parentAlive = false)
    (hr : (proxyProcess upstreamPath fuel parentPid manifest).run s es = some s') :
    s'.stage.left + ownSteps es ≤ s.stage.left := by
  induction es generalizing s with
  | nil =>
    obtain rfl := Option.some.inj hr
    exact le_refl _
  | cons e es ih =>
    obtain ⟨u, hu, hr⟩ := Machine.run_cons_some.mp hr
    obtain ⟨hua, hul⟩ := left_step h ha hu
    have hi := ih (watched_step h hu) hua hr
    unfold ownSteps at hi ⊢
    rw [List.countP_cons]
    omega

theorem left_le (stage : Stage upstreamPath fuel) : stage.left ≤ 4 := by
  cases stage <;> simp [Stage.left]

theorem over_of_left {stage : Stage upstreamPath fuel} (h : stage.left = 0) :
    stage.done = true := by
  cases stage <;> simp_all [Stage.left, Stage.done]

/-- It never waits for anything but guests and signals. -/
theorem able (parentPid : Int) (manifest : Except Error (Option NixRunRoots))
    (h : s.stage.done = false) :
    ∃ e, e.own = true ∧
      ((proxyProcess upstreamPath fuel parentPid manifest).step s e).isSome = true := by
  obtain ⟨parentAlive, signalled, named, stage⟩ := s
  cases stage with
  | adopted => exact ⟨.work (.ok ()), rfl, rfl⟩
  | terminable => exact ⟨.work (.ok ()), rfl, rfl⟩
  | handling => exact ⟨.work (.ok ()), rfl, rfl⟩
  | armed => exact ⟨.work (.ok ()), rfl, rfl⟩
  | checked => exact ⟨.work (.ok ()), rfl, rfl⟩
  | serving roots p => exact ⟨.poll [], rfl, rfl⟩
  | ended result => cases h
  | killed => cases h

/-- As long as it is not over, each of its own steps so far has put a handler in place, until there
were two. -/
theorem handlers_step {n : Nat} (h : s.stage.done = true ∨ s.stage.handlers = min 2 n)
    (hs : (proxyProcess upstreamPath fuel parentPid manifest).step s e = some s') :
    s'.stage.done = true ∨ s'.stage.handlers = min 2 (n + if e.own then 1 else 0) := by
  have next : ∀ (outcome : Except Error Unit) (stage : Stage upstreamPath fuel),
      (s.next outcome stage).stage.done = true ∨ (s.next outcome stage).stage = stage := by
    intro outcome stage
    cases outcome with
    | ok _ => exact .inr rfl
    | error err => exact .inl rfl
  have past : ∀ {stage : Stage upstreamPath fuel}, s.stage = stage → stage.done = false →
      stage.handlers = 2 → 2 = min 2 (n + 1) := by
    rintro stage rfl hd hh
    obtain h | h := h
    · cases hd.symm.trans h
    · omega
  cases step_of hs with
  | parentDies ha => exact h
  | kill signal hd hh => exact .inl rfl
  | signal signal hd hh => exact h
  | terminate outcome hst =>
    rw [hst] at h
    have hn : min 2 n = 0 := (h.resolve_left nofun).symm
    refine (next outcome .terminable).imp id fun he => ?_
    rw [he]
    show 1 = min 2 (n + 1)
    omega
  | interrupt outcome hst =>
    rw [hst] at h
    have hn : min 2 n = 1 := (h.resolve_left nofun).symm
    refine (next outcome .handling).imp id fun he => ?_
    rw [he]
    show 2 = min 2 (n + 1)
    omega
  | arm outcome hst =>
    refine (next outcome .armed).imp id fun he => ?_
    rw [he]
    exact past hst rfl rfl
  | check outcome hst =>
    unfold ProxyProcess.check
    split
    · exact .inr (past hst rfl rfl)
    · exact .inl rfl
  | load outcome hst =>
    unfold ProxyProcess.load
    split
    · refine (next outcome _).imp id fun he => ?_
      rw [he]
      exact past hst rfl rfl
    · exact .inl rfl
  | stop es roots p p' hst hr hsig => exact .inl rfl
  | serve es roots p p' hst hr hsig => exact .inr (past hst rfl rfl)

/-- Only a signal that has no handler yet, or never, kills it. -/
theorem killed_run {es : List ProcessEvent} {n : Nat} (ha : s.stage ≠ .killed)
    (hn : s.stage.done = true ∨ s.stage.handlers = min 2 n)
    (hr : (proxyProcess upstreamPath fuel parentPid manifest).run s es = some s')
    (hk : s'.stage = .killed) :
    ∃ before signal behind, es = before ++ .signal signal :: behind ∧
      ∀ k, signal.handler = some k → n + ownSteps before < k := by
  induction es generalizing s n with
  | nil =>
    obtain rfl := Option.some.inj hr
    exact absurd hk ha
  | cons e es ih =>
    obtain ⟨u, hu, hr⟩ := Machine.run_cons_some.mp hr
    by_cases huk : u.stage = .killed
    · cases step_of hu with
      | kill signal hd hh =>
        refine ⟨[], signal, es, rfl, fun k hsk => ?_⟩
        have hn := hn.resolve_left (by simp [hd])
        have hlt : ¬ k ≤ min 2 n := by
          rw [← hn]
          simpa [Stage.handles, hsk] using hh
        have hk2 : k ≤ 2 := by
          cases signal <;> cases hsk <;> decide
        show n + 0 < k
        omega
      | parentDies _ => exact absurd huk ha
      | signal _ _ _ => exact absurd huk ha
      | terminate outcome _ => cases outcome <;> cases huk
      | interrupt outcome _ => cases outcome <;> cases huk
      | arm outcome _ => cases outcome <;> cases huk
      | check _ _ =>
        unfold ProxyProcess.check at huk
        split at huk <;> cases huk
      | load outcome _ =>
        unfold ProxyProcess.load at huk
        split at huk
        · cases outcome <;> cases huk
        · cases huk
      | stop _ _ _ _ _ _ _ => cases huk
      | serve _ _ _ _ _ _ _ => cases huk
    · obtain ⟨before, signal, behind, rfl, hb⟩ := ih huk (handlers_step hn hu) hr
      refine ⟨e :: before, signal, behind, rfl, fun k hsk => ?_⟩
      have hb := hb k hsk
      unfold ownSteps at hb ⊢
      rw [List.countP_cons]
      omega

/-- What can be said of the process at any time. -/
structure Orderly (m : Machine (ProxyProcess upstreamPath fuel) ProcessEvent)
    (s : ProxyProcess upstreamPath fuel) : Prop where
  /-- As long as it is not over, it can go on. -/
  able : s.stage.done = false → ∃ e, e.own = true ∧ (m.step s e).isSome = true
  /-- When its parent is gone, it is over after four more steps at most. -/
  orphan : s.parentAlive = false → ∀ es s', m.run s es = some s' → 4 ≤ ownSteps es →
    s'.stage.done = true
  /-- If it comes to its end, its socket has no name any more. -/
  ended : ∀ result, s.stage = .ended result → s.named = false
  /-- Nor has it when a session has been started. -/
  started : ∀ roots p, s.stage = .serving roots p → .started ∈ p.log → s.named = false

theorem Watched.orderly (h : s.Watched) :
    s.Orderly (proxyProcess upstreamPath fuel parentPid manifest) where
  able := able parentPid manifest
  orphan ha es s' hr hn := by
    have hl := left_run h ha hr
    have h4 := left_le s.stage
    exact over_of_left (by omega)
  ended := h.ended
  started roots p hs hm := by
    obtain ⟨hk, hn⟩ := h.hook roots p hs
    have hst : Mark.started ∈ p.serving.log := List.mem_filterMap.mpr ⟨.started, hm, rfl⟩
    obtain ⟨before, rest, he⟩ := List.append_of_mem hst
    have hhook : Mark.hook ∈ p.serving.log := by
      rw [he]
      exact List.mem_append_left _ (Serving.hookFirst hk he)
    obtain ⟨mark, hmark, hx⟩ := List.mem_filterMap.mp hhook
    refine hn ?_
    cases mark with
    | hook => exact hmark
    | started => cases hx
    | acceptFailed => cases hx
    | sessionFailed err => cases hx

/-- Whenever the proxy's parent dies, the proxy comes to its end and takes its socket away, unless a
signal kills it: one that never has a handler, or one that comes before its handler is there. -/
theorem process_orderly (parentPid : Int) (manifest : Except Error (Option NixRunRoots))
    (es : List ProcessEvent) : ∀ s,
    (proxyProcess upstreamPath fuel parentPid manifest).run .start es = some s →
      s.Orderly (proxyProcess upstreamPath fuel parentPid manifest) ∧
      (s.stage = .killed → ∃ before signal behind, es = before ++ .signal signal :: behind ∧
        ∀ n, signal.handler = some n → ownSteps before < n) := by
  intro s hr
  have hw : s.Watched := Machine.invariant (fun _ _ _ => watched_step) watched_start hr
  have ha : (start : ProxyProcess upstreamPath fuel).stage ≠ .killed := nofun
  refine ⟨hw.orderly, fun hk => ?_⟩
  obtain ⟨before, signal, behind, he, hb⟩ := @killed_run _ _ _ _ _ _ _ 0 ha (.inr rfl) hr hk
  refine ⟨before, signal, behind, he, fun n hn => ?_⟩
  rw [← Nat.zero_add (ownSteps before)]
  exact hb n hn

/-- A proxy that SIGINT has come to between its two handlers. -/
def interruptedSample : ProxyProcess [] 1 := ⟨false, false, true, .killed⟩

theorem process_orderly_sample :
    interruptedSample.Orderly (proxyProcess [] 1 7 (.ok none)) ∧
      (interruptedSample.stage = .killed → ∃ before signal behind,
        [.work (.ok ()), .signal .int, .parentDies] = before ++ .signal signal :: behind ∧
          ∀ n, signal.handler = some n → ownSteps before < n) :=
  process_orderly 7 (.ok none) [.work (.ok ()), .signal .int, .parentDies] interruptedSample rfl

end ProxyProcess

/-! ### What does not come back -/

def Stage.over : Stage upstreamPath fuel → Bool
  | .ended _ => true
  | _ => false

/-- `unlink` is called: for the first guest, or at the end of `main`. -/
def ProxyProcess.unlinks (s s' : ProxyProcess upstreamPath fuel) : Bool :=
  (s.named && !s'.named) || (!s.stage.over && s'.stage.over)

namespace ProxyProcess

variable {parentPid : Int} {manifest : Except Error (Option NixRunRoots)}
  {s s' : ProxyProcess upstreamPath fuel} {e : ProcessEvent}

/-- Neither its parent nor its name; and once it is over it does nothing. -/
structure Later (s s' : ProxyProcess upstreamPath fuel) : Prop where
  parent : s'.parentAlive = true → s.parentAlive = true
  named : s'.named = true → s.named = true
  done : s.stage.done = true → s'.stage = s.stage ∧ s'.named = s.named

theorem finish_later (h : s.stage.done = false) (result : Except Error Unit) :
    s.Later (s.finish result) :=
  ⟨id, nofun, fun hd => absurd (h.symm.trans hd) nofun⟩

theorem next_later (h : s.stage.done = false) (outcome : Except Error Unit)
    (stage : Stage upstreamPath fuel) : s.Later (s.next outcome stage) := by
  cases outcome with
  | ok _ => exact ⟨id, id, fun hd => absurd (h.symm.trans hd) nofun⟩
  | error err => exact finish_later h _

theorem step_later (hs : (proxyProcess upstreamPath fuel parentPid manifest).step s e = some s') :
    s.Later s' := by
  cases step_of hs with
  | parentDies ha => exact ⟨nofun, id, fun _ => ⟨rfl, rfl⟩⟩
  | kill signal hd hh => exact ⟨id, id, fun h => absurd (hd.symm.trans h) nofun⟩
  | signal signal hd hh => exact ⟨id, id, fun _ => ⟨rfl, rfl⟩⟩
  | terminate outcome hst => exact next_later (by rw [hst]; rfl) _ _
  | interrupt outcome hst => exact next_later (by rw [hst]; rfl) _ _
  | arm outcome hst => exact next_later (by rw [hst]; rfl) _ _
  | check outcome hst =>
    have hd : s.stage.done = false := by rw [hst]; rfl
    unfold ProxyProcess.check
    split
    · exact ⟨id, id, fun h => absurd (hd.symm.trans h) nofun⟩
    · exact finish_later hd _
  | load outcome hst =>
    have hd : s.stage.done = false := by rw [hst]; rfl
    unfold ProxyProcess.load
    split
    · exact next_later hd _ _
    · exact finish_later hd _
  | stop es roots p p' hst hr hsig =>
    exact ⟨id, nofun, fun h => by rw [hst] at h; cases h⟩
  | serve es roots p p' hst hr hsig =>
    exact ⟨id, fun h => (Bool.and_eq_true_iff.mp h).1, fun h => by rw [hst] at h; cases h⟩

/-- With its name the proxy gives up nothing that it still needs: a guest has come, or it is
over. -/
def Met (s : ProxyProcess upstreamPath fuel) : Prop :=
  s.named = false → match s.stage with
    | .serving _ p => .hook ∈ p.log
    | .ended _ | .killed => True
    | _ => False

theorem next_met (h : s.named = true) (outcome : Except Error Unit)
    (stage : Stage upstreamPath fuel) : (s.next outcome stage).Met := by
  cases outcome with
  | ok _ => exact fun hn => absurd (h.symm.trans hn) nofun
  | error err => exact fun _ => trivial

theorem log_run {roots : Option NixRunRoots} {p p' : Proxy roots upstreamPath fuel}
    {es : List ProxyEvent} {mark : ProxyMark}
    (hr : (proxy roots upstreamPath fuel).run p es = some p') (hm : mark ∈ p.log) :
    mark ∈ p'.log := by
  refine Machine.invariant (I := fun q => mark ∈ q.log) (fun q e q' hq hs => ?_) hm hr
  rcases Proxy.step_cases hs with ⟨-, -, -, rfl⟩ | ⟨-, -, rfl⟩ | ⟨-, -, rfl⟩ | ⟨-, -, rfl⟩ |
    ⟨_, _, _, _, -, -, -, rfl⟩ | ⟨_, _, _, -, -, -, rfl⟩
  · exact hq
  · unfold Proxy.spawn Proxy.takeHook
    split
    · exact List.mem_append_left _ (List.mem_append_left _ hq)
    · exact List.mem_append_left _ hq
  · exact List.mem_append_left _ hq
  · exact hq
  · exact hq
  · exact List.mem_append_left _ hq

theorem Met.named (h : s.Met) (hserving : ∀ roots p, s.stage ≠ .serving roots p)
    (hd : s.stage.done = false) : s.named = true := by
  rw [← Bool.not_eq_false]
  intro hn
  have hm := h hn
  split at hm
  · rename_i hst
    exact hserving _ _ hst
  · rename_i hst
    rw [hst] at hd
    cases hd
  · rename_i hst
    rw [hst] at hd
    cases hd
  · exact hm

theorem met_step (h : s.Met)
    (hs : (proxyProcess upstreamPath fuel parentPid manifest).step s e = some s') : s'.Met := by
  cases step_of hs with
  | parentDies ha => exact h
  | kill signal hd hh => exact fun _ => trivial
  | signal signal hd hh => exact h
  | terminate outcome hst => exact next_met (h.named (by simp [hst]) (by rw [hst]; rfl)) _ _
  | interrupt outcome hst => exact next_met (h.named (by simp [hst]) (by rw [hst]; rfl)) _ _
  | arm outcome hst => exact next_met (h.named (by simp [hst]) (by rw [hst]; rfl)) _ _
  | check outcome hst =>
    unfold ProxyProcess.check
    split
    · exact fun hn => absurd ((h.named (by simp [hst]) (by rw [hst]; rfl)).symm.trans hn) nofun
    · exact fun _ => trivial
  | load outcome hst =>
    unfold ProxyProcess.load
    split
    · exact next_met (h.named (by simp [hst]) (by rw [hst]; rfl)) _ _
    · exact fun _ => trivial
  | stop es roots p p' hst hr hsig => exact fun _ => trivial
  | serve es roots p p' hst hr hsig =>
    intro hn
    show .hook ∈ p'.log
    obtain hn | hn := Bool.and_eq_false_iff.mp hn
    · have hm := h hn
      rw [hst] at hm
      exact log_run hr hm
    · simpa using hn

/-- What takes a step has a parent or is not over. -/
theorem step_alive (hs : (proxyProcess upstreamPath fuel parentPid manifest).step s e = some s') :
    (s.parentAlive || !s.stage.done) = true := by
  cases step_of hs with
  | parentDies ha => rw [ha, Bool.true_or]
  | signal signal hd hh => rw [hd, Bool.not_false, Bool.or_true]
  | kill signal hd hh => rw [hd, Bool.not_false, Bool.or_true]
  | terminate outcome hst => rw [hst]; exact Bool.or_true _
  | interrupt outcome hst => rw [hst]; exact Bool.or_true _
  | arm outcome hst => rw [hst]; exact Bool.or_true _
  | check outcome hst => rw [hst]; exact Bool.or_true _
  | load outcome hst => rw [hst]; exact Bool.or_true _
  | stop es roots p p' hst hr hsig => rw [hst]; exact Bool.or_true _
  | serve es roots p p' hst hr hsig => rw [hst]; exact Bool.or_true _

/-- Only a process that goes on calls `unlink`, and then its name is gone. -/
theorem unlinks_named (hl : s.Later s') (hw : s'.Watched) (hu : s.unlinks s' = true) :
    s.stage.done = false ∧ s'.named = false := by
  have hd : s.stage.done = false := by
    rw [← Bool.not_eq_true]
    intro hd
    obtain ⟨hs, hn⟩ := hl.done hd
    simp [unlinks, hs, hn] at hu
  refine ⟨hd, ?_⟩
  obtain h | h := Bool.or_eq_true_iff.mp hu
  · simpa using (Bool.and_eq_true_iff.mp h).2
  · have ho := (Bool.and_eq_true_iff.mp h).2
    cases hst : s'.stage with
    | ended result => exact hw.ended result hst
    | _ => rw [hst] at ho; cases ho

end ProxyProcess

end Claudepod
