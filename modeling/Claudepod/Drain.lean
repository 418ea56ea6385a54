import Claudepod.Proxy
import Mathlib.Algebra.GroupWithZero.Nat

/-! Once its peers are gone, the proxy has nothing left to do: every session comes to its end and
gives its permit back, from wherever the sessions have got to, and in whichever order they are told.
A measure falls with every step, and as long as there is a session there is a step. -/

set_option autoImplicit false

namespace Claudepod
open Interaction

variable {roots : Option NixRunRoots} {upstreamPath : Bytes} {fuel : Nat}

/-- Sessions only see that their peers are gone, and end. -/
def ProxyEvent.Hangup : ProxyEvent → Prop
  | .answer _ e => SessionTask.Hangup e
  | .release _ => True
  | _ => False

theorem resolved_isSome {r : Except Stop Unit} (hp : r ≠ .error .pending)
    (hx : r ≠ .error .exhausted) : (resolved r).isSome := by
  cases r with
  | ok u => rfl
  | error s =>
    cases s with
    | failed err => rfl
    | pending => exact absurd rfl hp
    | exhausted => exact absurd rfl hx

theorem not_unanswered_of_hangup {e : IoEvent} (h : SessionTask.Hangup e) : ¬ unanswered e := by
  obtain ⟨o, r⟩ := e
  obtain rfl : r = SessionTask.hangUp o := h
  cases o with
  | read c n => cases n <;> exact id
  | write c bs => cases bs <;> exact id
  | _ => exact id

namespace SessionTask

variable {x : SessionTask roots upstreamPath fuel}

/-- Behind peers that are gone a session comes to a result. -/
theorem drains (hs : x.Sound) (hf : ¬ Fed fuel x.trace) :
    ∃ u r, Prog.Runs x.rest u r ∧ (∀ e ∈ u, Hangup e) ∧ (resolved r).isSome := by
  obtain ⟨u, r, h, hu⟩ := x.extends_run hangUp
  have hrest : Prog.Runs x.rest u r := Task.runs_iff.mp h
  refine ⟨u, r, hrest, hu, resolved_isSome ?_ ?_⟩
  · rintro rfl
    obtain ⟨w, e, hw, he, -⟩ := proxyRelay_waits h
    rcases List.eq_nil_or_concat u with rfl | ⟨v, e', rfl⟩
    · -- It has waited for ever since before.
      have ho : x.outcome = some (.error .pending) := by
        rw [Task.outcome_eq_some]
        cases hx : x.rest with
        | ret a => rw [hx] at hrest; rw [hrest.2]
        | call o k => rw [hx] at hrest; obtain ⟨_, _, hn, -⟩ := hrest; cases hn
      rcases hs with hn | hr
      · rw [hn] at ho; cases ho
      · rw [result, ho] at hr; cases hr
    · rw [List.concat_eq_append, ← List.append_assoc] at hw
      obtain ⟨-, hl⟩ := List.append_inj' hw rfl
      obtain rfl := List.singleton_inj.mp hl
      exact not_unanswered_of_hangup (hu e' (by simp)) he
  · rintro rfl
    obtain ⟨v, w, hv, c, hc⟩ := proxyRelay_fueled roots upstreamPath fuel _ h
    have hl : recvd c v ++ recvd c w = recvd c x.trace := by
      rw [← recvd_append, ← hv, recvd_append, (hangup_silent hu c).1, List.append_nil]
    refine hf ⟨c, ?_⟩
    rw [← hl, List.length_append]
    omega

/-- The calls that it still makes of peers that are gone. -/
def left (x : SessionTask roots upstreamPath fuel) : Nat := x.rest.calls hangUp

theorem fed_hangup {t : IoTrace} {e : IoEvent} (h : Hangup e) (hf : ¬ Fed fuel t) :
    ¬ Fed fuel (t ++ [e]) := by
  intro ⟨c, hc⟩
  have he : Only Hangup [e] := by simpa [Only] using h
  rw [recvd_append, (hangup_silent he c).1, List.append_nil] at hc
  exact hf ⟨c, hc⟩

/-- A session that is not over makes a call, and can see there that its peers are gone. -/
theorem hang_up (hs : x.Sound) (hf : ¬ Fed fuel x.trace) (ho : x.outcome = none) :
    ∃ e y, Hangup e ∧ x.answer e = some y := by
  obtain ⟨u, r, h, hu, hr⟩ := x.drains hs hf
  cases hx : Task.rest x with
  | ret a => cases ho.symm.trans (Task.outcome_eq_some.mpr hx)
  | call o k =>
    rw [hx] at h
    obtain ⟨a, v, rfl, h⟩ := h
    obtain rfl : a = hangUp o := hu ⟨o, a⟩ (.head _)
    obtain ⟨y, hy, -, hyr⟩ := Task.advance_of_call hx (hangUp o)
    refine ⟨⟨o, hangUp o⟩, y, rfl, answer_eq_some.mpr ⟨hy, ?_⟩⟩
    cases hyo : y.outcome with
    | none => exact .inl hyo
    | some b =>
      rw [← hyr, Task.outcome_eq_some.mp hyo] at h
      exact .inr (by rw [result, hyo, ← h.2]; exact hr)

end SessionTask

namespace Proxy

variable {s s' : Proxy roots upstreamPath fuel} {e : ProxyEvent}

/-- What is still to come of all the sessions: their calls, and their permits. -/
def left (s : Proxy roots upstreamPath fuel) : Nat := (s.tasks.map fun x => x.left + 1).sum

/-- Sessions that will come to their ends. -/
def Ready (s : Proxy roots upstreamPath fuel) : Prop :=
  ∀ x ∈ s.tasks, x.Sound ∧ ¬ Fed fuel x.trace

/-- `n` hang-ups later. -/
structure Drained (s : Proxy roots upstreamPath fuel) (n : Nat)
    (s' : Proxy roots upstreamPath fuel) : Prop where
  ready : s'.Ready
  left : s'.left + n = s.left
  loop : s'.loop = s.loop
  free : s'.free + s'.tasks.length = s.free + s.tasks.length
  ended : s'.ended.length + s'.tasks.length = s.ended.length + s.tasks.length

/-- What there is to come is that of one session, and that of the others. -/
theorem left_eq {i : Nat} (hi : i < s.tasks.length) :
    s.left = ((s.tasks.take i).map fun x => x.left + 1).sum +
      (s.tasks[i].left + 1 + ((s.tasks.drop (i + 1)).map fun x => x.left + 1).sum) := by
  unfold left
  conv_lhs => rw [← List.take_append_drop i s.tasks, List.drop_eq_getElem_cons hi]
  rw [List.map_append, List.sum_append, List.map_cons, List.sum_cons]

/-- Each event is one call less, or one session. -/
theorem drained_step (hr : s.Ready) (he : e.Hangup)
    (h : (proxy roots upstreamPath fuel).step s e = some s') : s.Drained 1 s' := by
  rcases step_cases h with ⟨rfl, -⟩ | ⟨rfl, -⟩ | ⟨rfl, -⟩ | ⟨rfl, -⟩ |
    ⟨i, ev, x, y, rfl, hx, hy, rfl⟩ | ⟨i, x, r, rfl, hx, hxr, rfl⟩
  · cases he
  · cases he
  · cases he
  · cases he
  · obtain ⟨hi, rfl⟩ := List.getElem?_eq_some_iff.mp hx
    obtain ⟨ha, hsound⟩ := SessionTask.answer_eq_some.mp hy
    have hleft : y.left + 1 = SessionTask.left s.tasks[i] := Task.calls_advance ha he
    refine ⟨fun z hz => ?_, ?_, rfl, by simp, by simp⟩
    · rcases List.mem_or_eq_of_mem_set hz with hz | rfl
      · exact hr z hz
      · refine ⟨hsound, ?_⟩
        rw [Task.advance_trace ha]
        exact SessionTask.fed_hangup he (hr _ (List.getElem_mem hi)).2
    · rw [left_eq hi]
      show ((s.tasks.set i y).map fun x => x.left + 1).sum + 1 = _
      rw [List.set_eq_take_append_cons_drop, if_pos hi, List.map_append, List.sum_append,
        List.map_cons, List.sum_cons]
      omega
  · obtain ⟨hi, rfl⟩ := List.getElem?_eq_some_iff.mp hx
    have hdone : SessionTask.left s.tasks[i] = 0 := by
      obtain ⟨b, hb, -⟩ := Option.bind_eq_some_iff.mp hxr
      rw [SessionTask.left, Task.outcome_eq_some.mp hb]
      rfl
    have hlen := List.length_eraseIdx_of_lt hi
    refine ⟨fun z hz => hr z (List.mem_of_mem_eraseIdx hz), ?_, rfl, ?_, ?_⟩
    · rw [left_eq hi]
      show ((s.tasks.eraseIdx i).map fun x => x.left + 1).sum + 1 = _
      rw [List.eraseIdx_eq_take_drop_succ, List.map_append, List.sum_append]
      omega
    · show s.free + 1 + (s.tasks.eraseIdx i).length = _
      omega
    · show (s.ended ++ [s.tasks[i]]).length + (s.tasks.eraseIdx i).length = _
      rw [List.length_append, List.length_singleton]
      omega

theorem drained_run {es : List ProxyEvent} (hr : s.Ready) (he : ∀ e ∈ es, e.Hangup)
    (h : (proxy roots upstreamPath fuel).run s es = some s') : s.Drained es.length s' := by
  induction es generalizing s with
  | nil =>
    obtain rfl := Option.some.inj h
    exact ⟨hr, rfl, rfl, rfl, rfl⟩
  | cons e es ih =>
    obtain ⟨m, hm, h⟩ := Machine.run_cons_some.mp h
    have hs := drained_step hr (he e (.head _)) hm
    obtain ⟨hready, hleft, hloop, hfree, hended⟩ := ih hs.ready (fun e he' => he e (.tail _ he')) h
    refine ⟨hready, ?_, hloop.trans hs.loop, hfree.trans hs.free, hended.trans hs.ended⟩
    rw [← hs.left, List.length_cons]
    omega

/-- As long as there is a session, one can be answered or released. -/
theorem progress (hr : s.Ready) (ht : s.tasks ≠ []) :
    ∃ e s', e.Hangup ∧ (proxy roots upstreamPath fuel).step s e = some s' := by
  obtain ⟨x, rest, ht⟩ := List.exists_cons_of_ne_nil ht
  have hx : s.tasks[0]? = some x := by simp [ht]
  obtain ⟨hs, hf⟩ := hr x (by simp [ht])
  rcases hs with ho | hres
  · obtain ⟨ev, y, hev, hy⟩ := SessionTask.hang_up (.inl ho) hf ho
    refine ⟨.answer 0 ev, { s with tasks := s.tasks.set 0 y }, hev, ?_⟩
    simp only [proxy, hx, Option.bind_some, hy, Option.map_some]
  · obtain ⟨r, hr⟩ := Option.isSome_iff_exists.mp hres
    refine ⟨.release 0, { s with
      tasks := s.tasks.eraseIdx 0
      ended := s.ended ++ [x]
      free := s.free + 1
      log := s.log ++ report r }, trivial, ?_⟩
    simp only [proxy, hx, Option.bind_some, hr, Option.map_some]

/-- So the sessions can be told until there are none. -/
theorem drain (hr : s.Ready) : ∃ es s', (∀ e ∈ es, e.Hangup) ∧
    (proxy roots upstreamPath fuel).run s es = some s' ∧ s'.tasks = [] := by
  induction hn : s.left generalizing s with
  | zero =>
    by_cases ht : s.tasks = []
    · exact ⟨[], s, nofun, rfl, ht⟩
    · obtain ⟨e, m, he, hm⟩ := progress hr ht
      have hl := (drained_step hr he hm).left
      omega
  | succ n ih =>
    by_cases ht : s.tasks = []
    · exact ⟨[], s, nofun, rfl, ht⟩
    · obtain ⟨e, m, he, hm⟩ := progress hr ht
      have hd := drained_step hr he hm
      have hl := hd.left
      obtain ⟨es, s', hes, hrun, ht'⟩ := ih hd.ready (by omega)
      exact ⟨e :: es, s', List.forall_mem_cons.mpr ⟨he, hes⟩,
        Machine.run_cons_some.mpr ⟨m, hm, hrun⟩, ht'⟩

/-- No session is running, and every permit is free or with the accept loop. -/
def Vacant (s : Proxy roots upstreamPath fuel) : Prop :=
  s.tasks = [] ∧ s.free + s.loop.permits = maxSessions

end Proxy

/-- In every state the proxy can reach, whatever its sessions wait for: once their peers are gone,
all of them come to an end, and every permit is free or with the accept loop. In whichever order
the sessions are told, there always is one that goes on, until there are none, and `bound` events
are enough. The loop bounds of the model must be large enough for what the sessions were fed. -/
theorem proxy_drains (given : Bool) (es : List ProxyEvent) {s : Proxy roots upstreamPath fuel}
    (h : (proxy roots upstreamPath fuel).run (.start given) es = some s)
    (hf : ∀ x ∈ s.tasks, ¬ Fed fuel x.trace) :
    (∃ fs s', (∀ e ∈ fs, e.Hangup) ∧ (proxy roots upstreamPath fuel).run s fs = some s' ∧
      s'.Vacant ∧ s'.ended.length = s.ended.length + s.tasks.length) ∧
    ∃ bound, ∀ fs s', (∀ e ∈ fs, e.Hangup) → (proxy roots upstreamPath fuel).run s fs = some s' →
      fs.length ≤ bound ∧
      (s'.Vacant ∧ s'.ended.length = s.ended.length + s.tasks.length ∨
        ∃ e u, e.Hangup ∧ (proxy roots upstreamPath fuel).step s' e = some u) := by
  have hk := Machine.invariant (fun _ _ _ => Proxy.kept_step) (Proxy.kept_start given) h
  have hr : s.Ready := fun x hx => ⟨hk.sound x hx, hf x hx⟩
  have hc := Proxy.serving_conserved h
  simp only [Serving.Conserved, Proxy.serving, List.length_map] at hc
  have empty : ∀ {n s'}, s.Drained n s' → s'.tasks = [] →
      s'.Vacant ∧ s'.ended.length = s.ended.length + s.tasks.length := by
    intro n s' hd ht
    have hfree := hd.free
    have hended := hd.ended
    rw [ht, List.length_nil] at hfree hended
    refine ⟨⟨ht, ?_⟩, hended⟩
    rw [hd.loop]
    omega
  constructor
  · obtain ⟨fs, s', he, hrun, ht⟩ := Proxy.drain hr
    exact ⟨fs, s', he, hrun, empty (Proxy.drained_run hr he hrun) ht⟩
  · refine ⟨s.left, fun fs s' he hrun => ?_⟩
    have hd := Proxy.drained_run hr he hrun
    refine ⟨by have := hd.left; omega, ?_⟩
    by_cases ht : s'.tasks = []
    · exact .inl (empty hd ht)
    · exact .inr (Proxy.progress hd.ready ht)

theorem proxy_drains_busy :
    (∃ fs s', (∀ e ∈ fs, e.Hangup) ∧ (proxy none [] 4).run Proxy.busy fs = some s' ∧
      s'.Vacant ∧ s'.ended.length = Proxy.busy.ended.length + Proxy.busy.tasks.length) ∧
    ∃ bound, ∀ fs s', (∀ e ∈ fs, e.Hangup) → (proxy none [] 4).run Proxy.busy fs = some s' →
      fs.length ≤ bound ∧
      (s'.Vacant ∧ s'.ended.length = Proxy.busy.ended.length + Proxy.busy.tasks.length ∨
        ∃ e u, e.Hangup ∧ (proxy none [] 4).step s' e = some u) := by
  have hfed : ∀ x ∈ Proxy.busy.tasks, ∀ c ∈ [Leg.guest, .host, .fill, .sink],
      ¬ 8 * 4 ≤ (recvd c x.trace).length := by
    decide +kernel
  refine proxy_drains true Proxy.busyEvents Proxy.busy_run fun x hx ⟨c, hc⟩ => ?_
  exact hfed x hx c (by cases c <;> decide) hc

end Claudepod
