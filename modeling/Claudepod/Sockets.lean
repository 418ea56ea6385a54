import Claudepod.Process
import Claudepod.Spawn

/-! The sockets of the proxies. A launcher binds one under its pid and hands it to the proxy that
it starts; podman mounts it by its name, and the proxy takes the name away. Other launches, past
ones and those under way, have names in the same directories. -/

set_option autoImplicit false

namespace Claudepod
open Interaction

/-- What there is under a name. -/
inductive Node (ι : Type) where
  /-- Nothing that any of the launches has made. -/
  | other
  /-- The socket of a launch. -/
  | socket (i : ι)

/-- A launch whose proxy has been started. Its launcher becomes podman. -/
structure Pod (ι : Type) (w : Spawner) (upstreamPath : Bytes) (fuel : Nat) where
  launch : SpawnTask w
  /-- What the proxy has inherited. -/
  listener : SocketPath
  proxy : ProxyProcess upstreamPath fuel
  /-- What podman has found under the name of the socket, once it has looked. -/
  mounted : Option (Option (Node ι))
  /-- The proxy could not remove the name. -/
  kept : Bool

inductive Party (ι : Type) (w : Spawner) (upstreamPath : Bytes) (fuel : Nat) where
  | absent
  | launching (x : SpawnTask w)
  /-- Without a proxy. -/
  | gone
  | running (pod : Pod ι w upstreamPath fuel)

/-- The process of the launcher, or of podman, exists. -/
def Party.holds {ι : Type} {w : Spawner} {upstreamPath : Bytes} {fuel : Nat} :
    Party ι w upstreamPath fuel → Bool
  | .launching _ => true
  | .running pod => pod.proxy.parentAlive
  | _ => false

/-- Something of the launch exists. -/
def Party.live {ι : Type} {w : Spawner} {upstreamPath : Bytes} {fuel : Nat} :
    Party ι w upstreamPath fuel → Bool
  | .launching _ => true
  | .running pod => pod.proxy.parentAlive || !pod.proxy.stage.done
  | _ => false

inductive PodEvent where
  /-- The kernel gives the launcher its pid. -/
  | start
  | call (e : SocketEvent)
  /-- Before there is a proxy. -/
  | dies
  /-- Podman looks for the socket. -/
  | mount
  /-- Something happens to the proxy; a name that it removes goes, if the system lets it. -/
  | process (e : ProcessEvent) (removed : Bool)

/-- The names in the directories, the pids in use, and how far each launch is. -/
structure HostState {ι : Type} (δ : Type) (spawner : ι → Spawner) (upstreamPath : Bytes)
    (fuel : Nat) where
  names : δ × Bytes → Option (Node ι)
  pids : Nat → Bool
  party : (i : ι) → Party ι (spawner i) upstreamPath fuel

section Launches

variable {ι δ : Type} [DecidableEq ι] [DecidableEq δ] (spawner : ι → Spawner)
  (manifest : ι → Except Error (Option NixRunRoots)) (locate : Bytes → δ) (upstreamPath : Bytes)
  (fuel : Nat)

/-- The directory that a path leads to, and the name in it. -/
def SocketPath.entry (p : SocketPath) : δ × Bytes := (locate p.dir, socketName p.pid)

/-- The answers that the directories allow. -/
def possible (names : δ × Bytes → Option (Node ι)) : SocketEvent → Bool
  | ⟨.removeFile p, .done⟩ => (names (p.entry locate)).isSome
  | ⟨.removeFile p, .notFound⟩ => (names (p.entry locate)).isNone
  | ⟨.bind p, .ok _⟩ => (names (p.entry locate)).isNone
  | _ => true

def changed (i : ι) (names : δ × Bytes → Option (Node ι)) :
    SocketEvent → δ × Bytes → Option (Node ι)
  | ⟨.removeFile p, .done⟩ => Function.update names (p.entry locate) none
  | ⟨.bind p, .ok _⟩ => Function.update names (p.entry locate) (some (.socket i))
  | _ => names

def spawned : SocketEvent → Option SocketPath
  | ⟨.spawn _ p _ _, .ok _⟩ => some p
  | _ => none

/-- The launch, a call of its launcher further. -/
def launched (i : ι) (e : SocketEvent) (y : SpawnTask (spawner i)) :
    Party ι (spawner i) upstreamPath fuel :=
  match spawned e with
  | some p => .running ⟨y, p, .start, none, false⟩
  | none => .launching y

/-- The process of the proxy. -/
abbrev proxyOf (i : ι) : Machine (ProxyProcess upstreamPath fuel) ProcessEvent :=
  proxyProcess upstreamPath fuel (spawner i).pid (manifest i)

namespace HostState

variable {spawner upstreamPath fuel} (s : HostState δ spawner upstreamPath fuel) (i : ι)

def start : Option (HostState δ spawner upstreamPath fuel) :=
  match s.party i with
  | .absent =>
    if s.pids (spawner i).pid then none
    else some { s with
      pids := Function.update s.pids (spawner i).pid true
      party := Function.update s.party i (.launching (Task.start _)) }
  | _ => none

def call (e : SocketEvent) : Option (HostState δ spawner upstreamPath fuel) :=
  match s.party i with
  | .launching x =>
    if possible locate s.names e then
      (x.advance e).map fun y => { s with
        names := changed locate i s.names e
        party := Function.update s.party i (launched spawner upstreamPath fuel i e y) }
    else none
  | _ => none

def dies : Option (HostState δ spawner upstreamPath fuel) :=
  match s.party i with
  | .launching _ => some { s with
      pids := Function.update s.pids (spawner i).pid false
      party := Function.update s.party i .gone }
  | _ => none

/-- Podman is given what `spawn_nix_proxy` returned. -/
def mount : Option (HostState δ spawner upstreamPath fuel) :=
  match s.party i with
  | .running pod =>
    match pod.launch.outcome with
    | some (.ok p) =>
      if pod.proxy.parentAlive && pod.mounted.isNone then
        let found := { pod with mounted := some (s.names (p.entry locate)) }
        some { s with party := Function.update s.party i (.running found) }
      else none
    | _ => none
  | _ => none

/-- The proxy of a launch, a step further. -/
def proceed (pod : Pod ι (spawner i) upstreamPath fuel) (removed : Bool)
    (p : ProxyProcess upstreamPath fuel) : HostState δ spawner upstreamPath fuel where
  names :=
    if pod.proxy.unlinks p && removed then Function.update s.names (pod.listener.entry locate) none
    else s.names
  pids :=
    if pod.proxy.parentAlive && !p.parentAlive then Function.update s.pids (spawner i).pid false
    else s.pids
  party := Function.update s.party i (.running { pod with
    proxy := p
    kept := pod.kept || (pod.proxy.unlinks p && !removed) })

def process (e : ProcessEvent) (removed : Bool) :
    Option (HostState δ spawner upstreamPath fuel) :=
  match s.party i with
  | .running pod =>
    ((proxyOf spawner manifest upstreamPath fuel i).step pod.proxy e).map
      (s.proceed locate i pod removed)
  | _ => none

/-- Before any of the launches, with what others have left. -/
def before (found : δ × Bytes → Bool) : HostState δ spawner upstreamPath fuel :=
  ⟨fun k => if found k then some .other else none, fun _ => false, fun _ => .absent⟩

end HostState

def launches : Machine (HostState δ spawner upstreamPath fuel) (ι × PodEvent) where
  step s
    | (i, .start) => s.start i
    | (i, .call e) => s.call locate i e
    | (i, .dies) => s.dies i
    | (i, .mount) => s.mount locate i
    | (i, .process e removed) => s.process manifest locate i e removed

end Launches

/-! ### What holds of the names -/

theorem socketName_injective {i j : Nat} (h : socketName i = socketName j) : i = j := by
  unfold socketName at h
  rw [List.append_left_inj, List.append_right_inj] at h
  exact decimal_injective h

section Names

variable {ι δ : Type} {spawner : ι → Spawner}
  {manifest : ι → Except Error (Option NixRunRoots)} {upstreamPath : Bytes} {fuel : Nat}
  (strict : Prop) (locate : Bytes → δ)

/-- The names of a launch's socket. -/
def Spawner.entry (w : Spawner) (dir : Bytes) : δ × Bytes := SocketPath.entry locate ⟨dir, w.pid⟩

/-- While it is set up, the name of the launch's socket is free, and then its own. -/
def Hold.Here (names : δ × Bytes → Option (Node ι)) (i : ι) (w : Spawner) : Hold → Prop
  | .nothing => True
  | .cleared dir => names (w.entry locate dir) = none
  | .bound dir => names (w.entry locate dir) = some (.socket i) ∨
      names (w.entry locate dir) = none ∧ ¬ strict
  | .handed _ => False

/-- The name never is another's; with `strict`, it is there as long as the proxy has not taken it
away. -/
structure Pod.Here {w : Spawner} (names : δ × Bytes → Option (Node ι)) (i : ι)
    (pod : Pod ι w upstreamPath fuel) : Prop where
  watched : pod.proxy.Watched
  met : pod.proxy.Met
  outcome : pod.launch.outcome = some (.ok pod.listener)
  pid : pod.listener.pid = w.pid
  own : pod.proxy.parentAlive = true → names (pod.listener.entry locate) = some (.socket i) ∨
    names (pod.listener.entry locate) = none
  mounted : ∀ node, pod.mounted = some (some node) → node = .socket i
  there : strict → (Party.running pod).live = true → pod.proxy.named = true →
    names (pod.listener.entry locate) = some (.socket i)
  missed : strict → pod.mounted = some none → pod.proxy.named = false

def Party.Here {w : Spawner} (names : δ × Bytes → Option (Node ι)) (i : ι) :
    Party ι w upstreamPath fuel → Prop
  | .launching x => x.hold.Here strict locate names i w
  | .running pod => pod.Here strict locate names i
  | _ => True

/-- What a launch may have left under a name. -/
def Party.Leaves {w : Spawner} (k : δ × Bytes) : Party ι w upstreamPath fuel → Prop
  | .absent => False
  | .launching x => ∃ dir, x.hold = .bound dir ∧ k = w.entry locate dir
  | .gone => ∃ dir, k = w.entry locate dir
  | .running pod => k = pod.listener.entry locate ∧
      (pod.proxy.named = true ∨ pod.kept = true)

namespace HostState

structure Sound (s : HostState δ spawner upstreamPath fuel) : Prop where
  pids : ∀ i, (s.party i).holds = true → s.pids (spawner i).pid = true
  alone : ∀ i j, (s.party i).holds = true → (s.party j).holds = true →
    (spawner i).pid = (spawner j).pid → i = j
  apart : strict → ∀ i j, (s.party i).live = true → (s.party j).live = true →
    (spawner i).pid = (spawner j).pid → i = j
  here : ∀ i, (s.party i).Here strict locate s.names i
  leaves : ∀ k i, s.names k = some (.socket i) → (s.party i).Leaves locate k

variable {strict locate} {s s' : HostState δ spawner upstreamPath fuel} {i j : ι}
  {names : δ × Bytes → Option (Node ι)} {pids : Nat → Bool}
  {q : Party ι (spawner i) upstreamPath fuel}

/-- What a launch does to names: it takes them away, or binds its own. -/
def Touches (s : HostState δ spawner upstreamPath fuel) (i : ι)
    (names : δ × Bytes → Option (Node ι)) : Prop :=
  ∀ k, names k = s.names k ∨ k.2 = socketName (spawner i).pid ∧
    (names k = none ∨ (s.party i).holds = true ∧ names k = some (.socket i))

theorem sound_before (found : δ × Bytes → Bool) :
    Sound strict locate (before found : HostState δ spawner upstreamPath fuel) where
  pids := nofun
  alone := nofun
  apart _ := nofun
  here _ := trivial
  leaves k i h := by
    change (if found k then some Node.other else none) = _ at h
    split at h <;> cases h

theorem Touches.at_entry (ht : s.Touches i names) (dir : Bytes) :
    names ((spawner j).entry locate dir) = s.names ((spawner j).entry locate dir) ∨
    (spawner j).pid = (spawner i).pid ∧ (names ((spawner j).entry locate dir) = none ∨
      (s.party i).holds = true) := by
  obtain h | ⟨hk, h⟩ := ht ((spawner j).entry locate dir)
  · exact .inl h
  · exact .inr ⟨socketName_injective hk, h.imp id And.left⟩

/-- What one launch does, the others do not notice. -/
theorem Sound.frame (h : s.Sound strict locate) (hj : j ≠ i) (hl : (s.party i).live = true)
    (ht : s.Touches i names) : (s.party j).Here strict locate names j := by
  have hh := h.here j
  -- At the entries of a launch that is under way nothing has happened, or it was taken away.
  have hold : (s.party j).holds = true → ∀ dir,
      names ((spawner j).entry locate dir) = s.names ((spawner j).entry locate dir) ∨
      names ((spawner j).entry locate dir) = none := fun hjh dir =>
    (ht.at_entry dir).imp id fun ⟨hp, hn⟩ =>
      hn.resolve_right fun hi => hj (h.alone j i hjh hi hp)
  have alive : strict → (s.party j).live = true → ∀ dir,
      names ((spawner j).entry locate dir) = s.names ((spawner j).entry locate dir) :=
    fun hs hjl dir => (ht.at_entry dir).resolve_right fun ⟨hp, _⟩ =>
      hj (h.apart hs j i hjl hl hp)
  cases hp : s.party j with
  | absent => trivial
  | gone => trivial
  | launching x =>
    rw [hp] at hh hold alive
    change x.hold.Here strict locate names j _
    change x.hold.Here strict locate s.names j _ at hh
    cases hx : x.hold with
    | nothing => trivial
    | cleared dir =>
      rw [hx] at hh
      exact (hold rfl dir).elim (fun he => he.trans hh) id
    | bound dir =>
      rw [hx] at hh
      by_cases hs : strict
      · have he := alive hs rfl dir
        exact hh.imp he.trans fun hn => absurd hs hn.2
      · obtain he | hn := hold rfl dir
        · exact hh.imp he.trans fun hn => ⟨he.trans hn.1, hn.2⟩
        · exact .inr ⟨hn, hs⟩
    | handed dir =>
      rw [hx] at hh
      exact hh
  | running pod =>
    rw [hp] at hh hold alive
    obtain ⟨hw, hmet, ho, hpid, hown, hm, hth, hmi⟩ := hh
    have he : pod.listener.entry locate = (spawner j).entry locate pod.listener.dir := by
      rw [Spawner.entry, ← hpid]
    refine ⟨hw, hmet, ho, hpid, fun hpa => ?_, hm, fun hs hlive hn => ?_, hmi⟩
    · rw [he]
      obtain h' | h' := hold hpa pod.listener.dir
      · rw [h', ← he]
        exact hown hpa
      · exact .inr h'
    · rw [he, alive hs hlive pod.listener.dir, ← he]
      exact hth hs hlive hn

theorem spawned_eq_some {e : SocketEvent} {p : SocketPath} (h : spawned e = some p) :
    ∃ program parentPid roots, e = ⟨.spawn program p parentPid roots, .ok ()⟩ := by
  obtain ⟨o, r⟩ := e
  cases o with
  | spawn program q parentPid roots =>
    cases r with
    | ok u =>
      obtain rfl := Option.some.inj h
      exact ⟨program, parentPid, roots, rfl⟩
    | error err => cases h
  | _ => cases h

section

variable [DecidableEq δ]

theorem touches_changed {e : SocketEvent} (hi : (s.party i).holds = true)
    (hal : ∀ p, (e.1 = .removeFile p ∨ e.1 = .bind p) → p.pid = (spawner i).pid) :
    s.Touches i (changed locate i s.names e) := by
  intro k
  obtain ⟨o, r⟩ := e
  cases o with
  | removeFile p =>
    cases r with
    | done =>
      by_cases hk : k = p.entry locate
      · refine .inr ⟨?_, .inl ?_⟩
        · rw [hk, SocketPath.entry, hal p (.inl rfl)]
        · rw [hk]
          exact Function.update_self ..
      · exact .inl (Function.update_of_ne hk _ _)
    | _ => exact .inl rfl
  | bind p =>
    cases r with
    | ok u =>
      by_cases hk : k = p.entry locate
      · refine .inr ⟨?_, .inr ⟨hi, ?_⟩⟩
        · rw [hk, SocketPath.entry, hal p (.inr rfl)]
        · rw [hk]
          exact Function.update_self ..
      · exact .inl (Function.update_of_ne hk _ _)
    | error err => exact .inl rfl
  | _ => exact .inl rfl

theorem hold_here {w : Spawner} {x : Hold} {e : SocketEvent}
    {names : δ × Bytes → Option (Node ι)} (hp : possible locate names e = true)
    (ha : x.Allows w.pid e) (hh : x.Here strict locate names i w) (hs : spawned e = none) :
    (x.step e).Here strict locate (changed locate i names e) i w := by
  obtain ⟨o, r⟩ := e
  cases o with
  | removeFile p =>
    obtain ⟨dir, pid⟩ := p
    obtain rfl : pid = w.pid := ha.2
    cases r with
    | done => exact Function.update_self ..
    | notFound => exact Option.isNone_iff_eq_none.mp hp
    | fault err => exact hh
  | bind p =>
    obtain ⟨dir, pid⟩ := p
    obtain rfl : pid = w.pid := ha.2
    cases r with
    | ok u => exact .inl (Function.update_self ..)
    | error err => exact hh
  | spawn program p parentPid roots =>
    cases r with
    | ok u => cases hs
    | error err => exact hh
  | _ => exact hh

theorem hold_leaves {w : Spawner} {x : Hold} {e : SocketEvent}
    {names : δ × Bytes → Option (Node ι)} {k : δ × Bytes} (ha : x.Allows w.pid e)
    (hl : ∀ k, names k = some (.socket i) → ∃ dir, x = .bound dir ∧ k = w.entry locate dir)
    (hs : spawned e = none) (hk : changed locate i names e k = some (.socket i)) :
    ∃ dir, x.step e = .bound dir ∧ k = w.entry locate dir := by
  obtain ⟨o, r⟩ := e
  cases o with
  | removeFile p =>
    have hn : names k = some (.socket i) → False := fun h => by
      obtain ⟨dir, hx, -⟩ := hl k h
      exact absurd (ha.1.symm.trans hx) nofun
    cases r with
    | done =>
      change Function.update names (p.entry locate) none k = some (.socket i) at hk
      by_cases hkp : k = p.entry locate
      · rw [hkp, Function.update_self] at hk
        cases hk
      · rw [Function.update_of_ne hkp] at hk
        exact (hn hk).elim
    | notFound => exact (hn hk).elim
    | fault err => exact (hn hk).elim
  | bind p =>
    obtain ⟨dir, pid⟩ := p
    obtain rfl : pid = w.pid := ha.2
    cases r with
    | ok u =>
      change Function.update names (w.entry locate dir) (some (.socket i)) k = _ at hk
      by_cases hkp : k = w.entry locate dir
      · exact ⟨dir, rfl, hkp⟩
      · rw [Function.update_of_ne hkp] at hk
        obtain ⟨dir', hx, -⟩ := hl k hk
        exact absurd (ha.1.symm.trans hx) nofun
    | error err => exact hl k hk
  | spawn program p parentPid roots =>
    cases r with
    | ok u => cases hs
    | error err => exact hl k hk
  | _ => exact hl k hk

end

/-- No launch is given another's socket. -/
structure Safe (locate : Bytes → δ) (s : HostState δ spawner upstreamPath fuel) : Prop where
  /-- When a launcher binds, there is nothing under the name. -/
  free : ∀ i x p k, s.party i = .launching x → x.rest = .call (.bind p) k →
    s.names (p.entry locate) = none
  /-- What podman is given is the path of the socket that the proxy has inherited. -/
  given : ∀ i pod, s.party i = .running pod → pod.launch.outcome = some (.ok pod.listener)
  own : ∀ i pod node, s.party i = .running pod → pod.proxy.parentAlive = true →
    s.names (pod.listener.entry locate) = some node → node = .socket i
  mounted : ∀ i pod node, s.party i = .running pod → pod.mounted = some (some node) →
    node = .socket i
  /-- What there still is under a name is from a launch without a proxy, or is the name of a proxy
  that has not come to remove it, or could not. -/
  leaves : ∀ k i, s.names k = some (.socket i) → (s.party i).Leaves locate k

/-- Podman finds the socket, unless the proxy has met a guest before or is over. -/
structure There (locate : Bytes → δ) (s : HostState δ spawner upstreamPath fuel) : Prop where
  named : ∀ i pod, s.party i = .running pod → (s.party i).live = true →
    pod.proxy.named = true → s.names (pod.listener.entry locate) = some (.socket i)
  missed : ∀ i pod, s.party i = .running pod → pod.mounted = some none →
    pod.proxy.named = false ∧ pod.proxy.Met

theorem Sound.safe (h : s.Sound strict locate) : s.Safe locate where
  free i x p k hp hr := by
    obtain ⟨y, hy, -, -⟩ := Task.advance_of_call hr (.ok ())
    have hh := h.here i
    rw [hp] at hh
    change x.hold.Here strict locate s.names i _ at hh
    obtain ⟨hx, hpid⟩ := SpawnTask.allowed hy
    obtain ⟨dir, pid⟩ := p
    obtain rfl : pid = (spawner i).pid := hpid
    rw [hx] at hh
    exact hh
  given i pod hp := by
    have hh := h.here i
    rw [hp] at hh
    exact Pod.Here.outcome hh
  own i pod node hp hpa hn := by
    have hh := h.here i
    rw [hp] at hh
    obtain ho | ho := Pod.Here.own hh hpa
    · exact Option.some.inj (hn.symm.trans ho)
    · exact absurd (hn.symm.trans ho) nofun
  mounted i pod node hp hm := by
    have hh := h.here i
    rw [hp] at hh
    exact Pod.Here.mounted hh node hm
  leaves := h.leaves

theorem Sound.there (h : s.Sound True locate) : s.There locate where
  named i pod hp hl hn := by
    have hh := h.here i
    rw [hp] at hh hl
    exact Pod.Here.there hh trivial hl hn
  missed i pod hp hm := by
    have hh := h.here i
    rw [hp] at hh
    exact ⟨Pod.Here.missed hh trivial hm, Pod.Here.met hh⟩

variable [DecidableEq ι]

/-- A step of one launch. -/
theorem Sound.update (h : s.Sound strict locate) (hl : (s.party i).live = true)
    (ht : s.Touches i names) (hh : q.holds = true → (s.party i).holds = true)
    (hp : pids = s.pids ∨ (s.party i).holds = true ∧ q.holds = false ∧
      pids = Function.update s.pids (spawner i).pid false)
    (hq : q.Here strict locate names i)
    (hk : ∀ k, names k = some (.socket i) → q.Leaves locate k) :
    Sound strict locate (⟨names, pids, Function.update s.party i q⟩ :
      HostState δ spawner upstreamPath fuel) := by
  have holds : ∀ j, (Function.update s.party i q j).holds = true → (s.party j).holds = true := by
    intro j hj
    by_cases hji : j = i
    · subst hji
      rw [Function.update_self] at hj
      exact hh hj
    · rwa [Function.update_of_ne hji] at hj
  have lives : ∀ j, (Function.update s.party i q j).live = true → (s.party j).live = true := by
    intro j hj
    by_cases hji : j = i
    · exact hji ▸ hl
    · rwa [Function.update_of_ne hji] at hj
  refine ⟨fun j hj => ?_, fun j k hj hk => h.alone j k (holds j hj) (holds k hk),
    fun hs j k hj hk => h.apart hs j k (lives j hj) (lives k hk), fun j => ?_, fun k j hkj => ?_⟩
  · have hpj := h.pids j (holds j hj)
    obtain hp | ⟨hi, hqf, hp⟩ := hp
    · rw [hp]
      exact hpj
    · have hne : (spawner j).pid ≠ (spawner i).pid := by
        intro he
        obtain rfl := h.alone j i (holds j hj) hi he
        change (Function.update s.party j q j).holds = true at hj
        rw [Function.update_self, hqf] at hj
        cases hj
      change pids _ = true
      rw [hp, Function.update_of_ne hne]
      exact hpj
  · change (Function.update s.party i q j).Here strict locate names j
    by_cases hji : j = i
    · subst hji
      rw [Function.update_self]
      exact hq
    · rw [Function.update_of_ne hji]
      exact h.frame hji hl ht
  · change (Function.update s.party i q j).Leaves locate k
    by_cases hji : j = i
    · subst hji
      rw [Function.update_self]
      exact hk k hkj
    · rw [Function.update_of_ne hji]
      obtain he | ⟨-, hn | ⟨-, hn⟩⟩ := ht k
      · exact h.leaves k j (he.symm.trans hkj)
      · exact absurd (hn.symm.trans hkj) nofun
      · exact absurd (hn.symm.trans hkj) fun he => hji (by cases he; rfl)

/-- No launch with this pid is under way; its last proxy is over, too. -/
def Clear (s : HostState δ spawner upstreamPath fuel) : ι × PodEvent → Prop
  | (i, .start) => ∀ j, (s.party j).live = true → (spawner j).pid ≠ (spawner i).pid
  | _ => True

theorem start_eq_some (h : s.start i = some s') :
    s.party i = .absent ∧ s.pids (spawner i).pid = false ∧
      s' = ⟨s.names, Function.update s.pids (spawner i).pid true,
        Function.update s.party i (.launching (Task.start _))⟩ := by
  unfold HostState.start at h
  split at h
  · rename_i ha
    obtain ⟨hp, h⟩ := Option.ite_none_left_eq_some.mp h
    exact ⟨ha, by simpa using hp, (Option.some.inj h).symm⟩
  · cases h

/-- With one more that shares its `f` with none of them, they still are told apart by it. -/
theorem told_apart {ν : Type} {P P' : ι → Prop} {f : ι → ν}
    (h : ∀ j k, P j → P k → f j = f k → j = k) (hP : ∀ j, j ≠ i → P' j → P j)
    (hf : ∀ j, P j → f j ≠ f i) (j k : ι) (hj : P' j) (hk : P' k) (he : f j = f k) : j = k := by
  by_cases hji : j = i
  · by_cases hki : k = i
    · exact hji.trans hki.symm
    · exact absurd (hji ▸ he.symm) (hf k (hP k hki hk))
  · by_cases hki : k = i
    · exact absurd (hki ▸ he) (hf j (hP j hji hj))
    · exact h j k (hP j hji hj) (hP k hki hk) he

theorem Sound.start (h : s.Sound strict locate) (hc : strict → s.Clear (i, .start))
    (hs : s.start i = some s') : s'.Sound strict locate := by
  obtain ⟨ha, hp, hs'⟩ := start_eq_some hs
  have other : ∀ j, j ≠ i → s'.party j = s.party j := fun j hj => by
    rw [hs']
    exact Function.update_of_ne hj _ _
  have fresh : ∀ j, (s.party j).holds = true → (spawner j).pid ≠ (spawner i).pid := by
    intro j hj he
    have hpj := h.pids j hj
    rw [he, hp] at hpj
    cases hpj
  refine ⟨fun j hj => ?_, told_apart h.alone (fun j hj => by rw [other j hj]; exact id) fresh,
    fun hst => told_apart (h.apart hst) (fun j hj => by rw [other j hj]; exact id) (hc hst),
    fun j => ?_, fun k j hkj => ?_⟩
  · rw [hs']
    by_cases hji : j = i
    · subst hji
      exact Function.update_self ..
    · rw [other j hji] at hj
      exact (Function.update_of_ne (fresh j hj) _ _).trans (h.pids j hj)
  · rw [show s'.names = s.names by rw [hs']]
    by_cases hji : j = i
    · subst hji
      rw [show s'.party j = .launching (Task.start _) by rw [hs']; exact Function.update_self ..]
      trivial
    · rw [other j hji]
      exact h.here j
  · rw [show s'.names = s.names by rw [hs']] at hkj
    have hl := h.leaves k j hkj
    by_cases hji : j = i
    · subst hji
      rw [ha] at hl
      exact hl.elim
    · rwa [other j hji]

theorem Sound.dies (h : s.Sound strict locate) (hs : s.dies i = some s') :
    s'.Sound strict locate := by
  unfold HostState.dies at hs
  split at hs
  swap
  · cases hs
  rename_i x hx
  obtain rfl := Option.some.inj hs
  refine h.update (by rw [hx]; rfl) (fun k => .inl rfl) nofun
    (.inr ⟨by rw [hx]; rfl, rfl, rfl⟩) trivial fun k hk => ?_
  have hl := h.leaves k i hk
  rw [hx] at hl
  obtain ⟨dir, -, he⟩ := hl
  exact ⟨dir, he⟩

theorem Sound.mount (h : s.Sound strict locate) (hs : s.mount locate i = some s') :
    s'.Sound strict locate := by
  unfold HostState.mount at hs
  split at hs
  swap
  · cases hs
  rename_i pod hp
  split at hs
  swap
  · cases hs
  rename_i p ho
  obtain ⟨hc, hs⟩ := Option.ite_none_right_eq_some.mp hs
  obtain rfl := Option.some.inj hs
  obtain ⟨hpa, -⟩ := Bool.and_eq_true_iff.mp hc
  have hh := h.here i
  rw [hp] at hh
  obtain ⟨hw, hmet, hout, hpid, hown, hm, hth, hmi⟩ := hh
  obtain rfl : p = pod.listener := by
    rw [ho] at hout
    exact Except.ok.inj (Option.some.inj hout)
  have hlive : (Party.running pod).live = true := by
    show (pod.proxy.parentAlive || _) = true
    rw [hpa, Bool.true_or]
  refine h.update (by rw [hp]; exact hlive) (fun k => .inl rfl) (fun _ => by rw [hp]; exact hpa)
    (.inl rfl) ⟨hw, hmet, hout, hpid, hown, fun node hn => ?_, hth, fun hst hn => ?_⟩ fun k hk => ?_
  · have hn := Option.some.inj hn
    obtain ho | ho := hown hpa
    · exact Option.some.inj (hn.symm.trans ho)
    · exact absurd (hn.symm.trans ho) nofun
  · rw [← Bool.not_eq_true]
    exact fun hnamed => absurd ((Option.some.inj hn).symm.trans (hth hst hlive hnamed)) nofun
  · have hl := h.leaves k i hk
    rw [hp] at hl
    exact hl

variable [DecidableEq δ]

theorem proceed_names (s : HostState δ spawner upstreamPath fuel) (locate : Bytes → δ)
    (pod : Pod ι (spawner i) upstreamPath fuel) (removed : Bool)
    (p : ProxyProcess upstreamPath fuel) (k : δ × Bytes) :
    (s.proceed locate i pod removed p).names k = s.names k ∨
      pod.proxy.unlinks p = true ∧ k = pod.listener.entry locate ∧
        (s.proceed locate i pod removed p).names k = none := by
  unfold proceed
  dsimp only
  split
  · rename_i hu
    by_cases hk : k = pod.listener.entry locate
    · subst hk
      exact .inr ⟨(Bool.and_eq_true_iff.mp hu).1, rfl, Function.update_self ..⟩
    · exact .inl (Function.update_of_ne hk _ _)
  · exact .inl rfl

theorem Sound.process {e : ProcessEvent} {removed : Bool} (h : s.Sound strict locate)
    (hs : s.process manifest locate i e removed = some s') : s'.Sound strict locate := by
  unfold HostState.process at hs
  split at hs
  swap
  · cases hs
  rename_i pod hp
  obtain ⟨p, hstep, rfl⟩ := Option.map_eq_some_iff.mp hs
  have hh := h.here i
  rw [hp] at hh
  obtain ⟨hw, hmet, hout, hpid, hown, hm, hth, hmi⟩ := hh
  have hl := ProxyProcess.step_later hstep
  have hw' := ProxyProcess.watched_step hw hstep
  have hlive := ProxyProcess.step_alive hstep
  refine h.update (by rw [hp]; exact hlive) (fun k => ?_) (fun hpa => ?_) ?_
    ⟨hw', ProxyProcess.met_step hmet hstep, hout, hpid, fun hpa => ?_, hm,
      fun hst _ hnamed => ?_, fun hst hmn => ?_⟩ fun k hk => ?_
  · refine (s.proceed_names locate pod removed p k).imp id fun ⟨_, hk, hn⟩ => ⟨?_, .inl hn⟩
    rw [hk, SocketPath.entry, hpid]
  · rw [hp]
    exact hl.parent hpa
  · cases hc : pod.proxy.parentAlive && !p.parentAlive with
    | false => exact .inl rfl
    | true =>
      obtain ⟨h₁, h₂⟩ := Bool.and_eq_true_iff.mp hc
      refine .inr ⟨by rw [hp]; exact h₁, ?_, rfl⟩
      show p.parentAlive = false
      simpa using h₂
  · obtain he | ⟨-, -, hn⟩ := s.proceed_names locate pod removed p (pod.listener.entry locate)
    · exact (hown (hl.parent hpa)).imp he.trans he.trans
    · exact .inr hn
  · obtain he | ⟨hu, -⟩ := s.proceed_names locate pod removed p (pod.listener.entry locate)
    · exact he.trans (hth hst hlive (hl.named hnamed))
    · exact absurd (hnamed.symm.trans (ProxyProcess.unlinks_named hl hw' hu).2) nofun
  · rw [← Bool.not_eq_true]
    exact fun hn => absurd ((hl.named hn).symm.trans (hmi hst hmn)) nofun
  · obtain he | ⟨-, -, hn⟩ := s.proceed_names locate pod removed p k
    swap
    · exact absurd (hn.symm.trans hk) nofun
    have hlv := h.leaves k i (he.symm.trans hk)
    rw [hp] at hlv
    obtain ⟨hke, hor⟩ := hlv
    refine ⟨hke, ?_⟩
    cases hn : p.named with
    | true => exact .inl rfl
    | false =>
      refine .inr ?_
      show (pod.kept || (pod.proxy.unlinks p && !removed)) = true
      obtain hnamed | hkept := hor
      · have hu : pod.proxy.unlinks p = true := by simp [ProxyProcess.unlinks, hnamed, hn]
        cases removed with
        | true =>
          simp [hke, hu] at hk
        | false => rw [hu, Bool.not_false, Bool.and_true, Bool.or_true]
      · rw [hkept, Bool.true_or]

theorem Sound.call {e : SocketEvent} (h : s.Sound strict locate)
    (hs : s.call locate i e = some s') : s'.Sound strict locate := by
  unfold HostState.call at hs
  split at hs
  swap
  · cases hs
  rename_i x hx
  obtain ⟨hposs, hs⟩ := Option.ite_none_right_eq_some.mp hs
  obtain ⟨y, hy, rfl⟩ := Option.map_eq_some_iff.mp hs
  have hh := h.here i
  rw [hx] at hh
  have hl : ∀ k, s.names k = some (.socket i) →
      ∃ dir, x.hold = .bound dir ∧ k = (spawner i).entry locate dir := fun k hk => by
    have hk := h.leaves k i hk
    rwa [hx] at hk
  have ha := SpawnTask.allowed hy
  have hhold := SpawnTask.hold_advance hy
  have hholds : (s.party i).holds = true := by rw [hx]; rfl
  have hpids : ∀ p, (e.1 = .removeFile p ∨ e.1 = .bind p) → p.pid = (spawner i).pid := by
    obtain ⟨o, r⟩ := e
    intro p hp
    obtain rfl | rfl := hp
    · exact ha.2
    · exact ha.2
  refine h.update (by rw [hx]; rfl) (touches_changed hholds hpids) (fun _ => hholds) (.inl rfl) ?_
    ?_
  · unfold launched
    split
    · rename_i p hp
      obtain ⟨program, parentPid, roots, rfl⟩ := spawned_eq_some hp
      obtain ⟨dir, pid⟩ := p
      obtain ⟨hb, hpid, -⟩ := ha
      obtain rfl : pid = (spawner i).pid := hpid
      have hout := SpawnTask.outcome_of_handed hhold
      change x.hold.Here strict locate s.names i _ at hh
      rw [show x.hold = .bound dir from hb] at hh
      exact ⟨ProxyProcess.watched_start, nofun, hout, rfl, fun _ => hh.imp id And.left, nofun,
        fun hst _ _ => hh.resolve_right fun hn => hn.2 hst, nofun⟩
    · rename_i hn
      show y.hold.Here strict locate _ i _
      rw [hhold]
      exact hold_here hposs ha hh hn
  · intro k hk
    unfold launched
    split
    · rename_i p hp
      obtain ⟨program, parentPid, roots, rfl⟩ := spawned_eq_some hp
      obtain ⟨dir, pid⟩ := p
      obtain ⟨hb, hpid, -⟩ := ha
      obtain rfl : pid = (spawner i).pid := hpid
      obtain ⟨dir', hd, he⟩ := hl k hk
      cases hb.symm.trans hd
      exact ⟨he, .inl rfl⟩
    · rename_i hn
      obtain ⟨dir, hd, he⟩ := hold_leaves ha hl hn hk
      exact ⟨dir, hhold.trans hd, he⟩

theorem Sound.step {e : ι × PodEvent} (h : s.Sound strict locate) (hc : strict → s.Clear e)
    (hs : (launches spawner manifest locate upstreamPath fuel).step s e = some s') :
    s'.Sound strict locate := by
  obtain ⟨i, e⟩ := e
  cases e with
  | start => exact h.start hc hs
  | call e => exact h.call hs
  | dies => exact h.dies hs
  | mount => exact h.mount hs
  | process e removed => exact h.process hs

/-- Where no two launches have one pid, none gets that of another. -/
theorem along_clear (hpid : ∀ i j, (spawner i).pid = (spawner j).pid → i = j)
    {es : List (ι × PodEvent)}
    (hr : (launches spawner manifest locate upstreamPath fuel).run s es = some s') :
    (launches spawner manifest locate upstreamPath fuel).Along Clear s es := by
  induction es generalizing s with
  | nil => trivial
  | cons e es ih =>
    obtain ⟨u, hu, hr⟩ := Machine.run_cons_some.mp hr
    refine ⟨?_, fun v hv => ih (Option.some.inj (hv.symm.trans hu) ▸ hr)⟩
    obtain ⟨i, e⟩ := e
    cases e with
    | start =>
      intro j hj he
      obtain rfl := hpid j i he
      rw [(start_eq_some hu).1] at hj
      cases hj
    | _ => trivial

end HostState

variable [DecidableEq ι] [DecidableEq δ]

/-- Launches side by side, whatever fails and whoever dies: the names of their sockets are their
own. If no launcher gets the pid of one whose proxy is still about, they are also there. -/
theorem sockets_apart (found : δ × Bytes → Bool) (es : List (ι × PodEvent))
    (s : HostState δ spawner upstreamPath fuel)
    (hr : (launches spawner manifest locate upstreamPath fuel).run (.before found) es = some s) :
    s.Safe locate ∧
      ((launches spawner manifest locate upstreamPath fuel).Along HostState.Clear (.before found)
        es → s.There locate) := by
  constructor
  · have hs : s.Sound False locate := Machine.invariant
      (fun _ _ _ h hs => h.step False.elim hs) (HostState.sound_before found) hr
    exact hs.safe
  · intro ha
    have hs : s.Sound True locate := Machine.along_invariant
      (fun _ _ _ h hc hs => h.step (fun _ => hc) hs) (HostState.sound_before found) ha hr
    exact hs.there

end Names

/-! ### Two launches -/

def spawnerSample (i : Bool) : Spawner := ⟨launchHost, if i then 7 else 9, none⟩

/-- The calls of a launcher whose pid was that of a proxy that crashed. -/
def spawnCalls (pid : Nat) : List SocketEvent :=
  let dir := utf8 "/run/user/1000/claudepod"
  [⟨.pathExists hostDaemonSocket, true⟩, ⟨.placeRuntimeFile (socketName pid), some dir⟩,
    ⟨.removeFile ⟨dir, pid⟩, .done⟩, ⟨.bind ⟨dir, pid⟩, .ok ()⟩,
    ⟨.setPermissions ⟨dir, pid⟩ 0o666, .ok ()⟩, ⟨.clearCloexec, .ok ()⟩,
    ⟨.currentExe, .ok (utf8 "/nix/store/c/bin/claudepod-start")⟩,
    ⟨.spawn (utf8 "/nix/store/c/bin/claudepod-nix-proxy") ⟨dir, pid⟩ pid none, .ok ()⟩]

/-- The other launch starts in between. -/
def launchesSample : List (Bool × PodEvent) :=
  [(true, .start), (false, .start)] ++ (spawnCalls 7).map (fun e => (true, .call e)) ++
    [(true, .process (.work (.ok ())) true), (true, .mount), (false, .dies)]

def stateSample : Option (HostState Bytes spawnerSample [] 1) :=
  (launches spawnerSample (fun _ => .ok none) id [] 1).run (.before fun _ => true) launchesSample

theorem stateSample_some : stateSample.isSome = true := by decide +kernel

theorem stateSample_clear :
    (launches spawnerSample (fun _ => .ok none) id [] 1).Along HostState.Clear
      (.before fun _ => true) launchesSample :=
  HostState.along_clear (by decide) (Option.some_get stateSample_some).symm

theorem sockets_apart_sample :
    (stateSample.get stateSample_some).Safe id ∧ (stateSample.get stateSample_some).There id :=
  have h := sockets_apart id (fun _ => true) launchesSample _
    (Option.some_get stateSample_some).symm
  ⟨h.1, h.2 stateSample_clear⟩

end Claudepod
