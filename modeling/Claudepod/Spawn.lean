import Claudepod.Launcher
import Claudepod.ManifestFile
import Claudepod.Tasks

/-! How a launcher starts its proxy: it binds a socket under its pid and hands it to a child. -/

set_option autoImplicit false

namespace Claudepod
open Interaction FileSystem Monitor

/-! ### The launcher -/

def hostDaemonSocket : Bytes := utf8 "/nix/var/nix/daemon-socket/socket"

def socketName (pid : Nat) : Bytes := utf8 "nix-proxy-" ++ decimal pid ++ utf8 ".sock"

/-- The path of a socket. -/
structure SocketPath where
  dir : Bytes
  pid : Nat
  deriving DecidableEq

def SocketPath.path (p : SocketPath) : Bytes := push p.dir (socketName p.pid)

inductive SocketCall where
  | pathExists (path : Bytes)
  /-- Answered by the directory the file is placed in, if there is one. -/
  | placeRuntimeFile (name : Bytes)
  | createDir (dir : Bytes) (mode : Nat)
  | removeFile (path : SocketPath)
  | bind (path : SocketPath)
  | setPermissions (path : SocketPath) (mode : Nat)
  | clearCloexec
  | currentExe
  /-- The proxy inherits the listener. -/
  | spawn (program : Bytes) (listener : SocketPath) (parentPid : Nat) (nixRunRoots : Option Bytes)
  deriving DecidableEq

def SocketAnswer : SocketCall → Type
  | .pathExists _ => Bool
  | .placeRuntimeFile _ => Option Bytes
  | .createDir _ _ => Except IoError Unit
  | .removeFile _ => Removal IoError
  | .bind _ => Except IoError Unit
  | .setPermissions _ _ => Except IoError Unit
  | .clearCloexec => Except IoError Unit
  | .currentExe => Except IoError Bytes
  | .spawn _ _ _ _ => Except IoError Unit

abbrev SocketEvent := Event SocketAnswer

abbrev Sockets (α : Type) := Comp SocketAnswer Error α

abbrev ask (o : SocketCall) : Sockets (SocketAnswer o) := Comp.perform o

/-- `.with_context(|| what)?` -/
def orFail {α : Type} (what : String) : Except IoError α → Sockets α
  | .ok a => pure a
  | .error e => throw ((Error.msg e.text).context what)

/-- A launcher about to start its proxy. -/
structure Spawner where
  host : Host
  pid : Nat
  nixRunRoots : Option Bytes

def privateRunDir (host : Host) : Sockets Bytes :=
  match stateDir host with
  | .error e => throw e
  | .ok dir => do
    let runDir := push dir (utf8 "run")
    let made ← ask (.createDir runDir 0o700)
    orFail s!"create {display runDir}" made
    pure runDir

def proxySocketPath (w : Spawner) : Sockets SocketPath :=
  ask (.placeRuntimeFile (socketName w.pid)) >>= fun (placed : Option Bytes) =>
    match placed with
    | some dir => pure ⟨dir, w.pid⟩
    | none => do
      let runDir ← privateRunDir w.host
      pure ⟨runDir, w.pid⟩

/-- Any stale socket left by a crashed proxy. -/
def removeStaleSocket (p : SocketPath) : Sockets Unit :=
  ask (.removeFile p) >>= fun (r : Removal IoError) =>
    match r with
    | .done | .notFound => pure ()
    | .fault e => throw ((Error.msg e.text).context s!"remove stale {display p.path}")

def listenOn (p : SocketPath) : Sockets Unit := do
  let bound ← ask (.bind p)
  orFail s!"listen on {display p.path}" bound
  let changed ← ask (.setPermissions p 0o666)
  orFail s!"chmod {display p.path}" changed
  let cleared ← ask .clearCloexec
  orFail "clear CLOEXEC on proxy listener" cleared

def spawnWith (w : Spawner) (p : SocketPath) : Sockets SocketPath := do
  let exe ← ask .currentExe
  let exe ← orFail "resolve own executable path" exe
  let proxyBin := withFileName exe (utf8 "claudepod-nix-proxy")
  let spawned ← ask (.spawn proxyBin p w.pid w.nixRunRoots)
  orFail s!"spawn {display proxyBin}" spawned
  pure p

def spawnNixProxy (w : Spawner) : Sockets SocketPath :=
  ask (.pathExists hostDaemonSocket) >>= fun (there : Bool) =>
    if there then do
      let p ← proxySocketPath w
      removeStaleSocket p
      listenOn p
      spawnWith w p
    else throw (.msg (s!"host nix daemon socket {display hostDaemonSocket} not found; " ++
      "is nix-daemon running?"))

/-! ### What the launcher has of its socket -/

inductive Hold where
  | nothing
  /-- There is nothing under the name. -/
  | cleared (dir : Bytes)
  | bound (dir : Bytes)
  /-- The proxy has it. -/
  | handed (dir : Bytes)

def Hold.step (s : Hold) : SocketEvent → Hold
  | ⟨.removeFile p, .done⟩ => .cleared p.dir
  | ⟨.removeFile p, .notFound⟩ => .cleared p.dir
  | ⟨.bind p, .ok _⟩ => .bound p.dir
  | ⟨.spawn _ p _ _, .ok _⟩ => .handed p.dir
  | _ => s

/-- Each call in its turn, for the launcher's own socket. -/
def Hold.Allows (pid : Nat) (s : Hold) : SocketEvent → Prop
  | ⟨.removeFile p, _⟩ => s = .nothing ∧ p.pid = pid
  | ⟨.bind p, _⟩ => s = .cleared p.dir ∧ p.pid = pid
  | ⟨.setPermissions p _, _⟩ => s = .bound p.dir ∧ p.pid = pid
  | ⟨.spawn _ p parentPid _, _⟩ => s = .bound p.dir ∧ p.pid = pid ∧ parentPid = pid
  | _ => ∀ dir, s ≠ .handed dir

def holding (pid : Nat) : Monitor SocketAnswer Hold where
  step := Hold.step
  rely _ := True
  guar := Hold.Allows pid

/-- The launcher still is what holds the socket, if any. -/
def Hold.Kept (s : Hold) : Prop := ∀ dir, s ≠ .handed dir

section Hold

variable {α : Type} {pid : Nat} {w : Spawner} {E : Hold → Prop} {p : SocketPath}

theorem orFail_triple {Q : α → Hold → Prop} (what : String) (r : Except IoError α) :
    (holding pid).Triple (Monitor.post Q E r) (orFail what r) Q E := by
  cases r with
  | ok a => exact .pure fun _ => id
  | error e => exact .throw fun _ => id

theorem privateRunDir_triple (host : Host) :
    (holding pid).Triple (· = .nothing) (privateRunDir host) (fun _ s => s = .nothing)
      Hold.Kept := by
  unfold privateRunDir
  cases stateDir host with
  | error e => exact .throw fun s hs => hs ▸ nofun
  | ok dir =>
    refine Monitor.Triple.bind (Q := Monitor.post (fun _ s => s = .nothing) Hold.Kept)
      (.perform fun s r hs _ => ?_) fun r => (orFail_triple _ r).bind fun _ => .pure fun _ => id
    subst hs
    cases r with
    | ok u => exact ⟨nofun, rfl⟩
    | error e => exact ⟨nofun, nofun⟩

theorem proxySocketPath_triple (w : Spawner) :
    (holding w.pid).Triple (· = .nothing) (proxySocketPath w)
      (fun p s => s = .nothing ∧ p.pid = w.pid) Hold.Kept := by
  refine Monitor.Triple.bind (Q := fun _ s => s = .nothing) (.perform fun s r hs _ => ?_)
    fun placed => ?_
  · subst hs
    exact ⟨nofun, rfl⟩
  · cases placed with
    | some dir => exact .pure fun s hs => ⟨hs, rfl⟩
    | none => exact (privateRunDir_triple w.host).bind fun _ => .pure fun s hs => ⟨hs, rfl⟩

theorem removeStaleSocket_triple (hp : p.pid = pid) :
    (holding pid).Triple (· = .nothing) (removeStaleSocket p) (fun _ s => s = .cleared p.dir)
      Hold.Kept := by
  refine Monitor.Triple.bind (Q := fun (r : Removal IoError) s =>
    match r with
    | .fault _ => s = .nothing
    | _ => s = .cleared p.dir) (.perform fun s r hs _ => ⟨⟨hs, hp⟩, ?_⟩) fun r => ?_
  · cases r with
    | done => rfl
    | notFound => rfl
    | fault e => exact hs
  · cases r with
    | done => exact .pure fun _ => id
    | notFound => exact .pure fun _ => id
    | fault e => exact .throw fun s hs => (show s = .nothing from hs) ▸ nofun

theorem listenOn_triple (hp : p.pid = pid) :
    (holding pid).Triple (· = .cleared p.dir) (listenOn p) (fun _ s => s = .bound p.dir)
      Hold.Kept := by
  unfold listenOn
  refine Monitor.Triple.bind (Q := Monitor.post (fun _ s => s = .bound p.dir) Hold.Kept)
    (.perform fun s r hs _ => ?_) fun r => (orFail_triple _ r).bind fun _ => ?_
  · subst hs
    cases r with
    | ok u => exact ⟨⟨rfl, hp⟩, rfl⟩
    | error e => exact ⟨⟨rfl, hp⟩, nofun⟩
  refine Monitor.Triple.bind (Q := Monitor.post (fun _ s => s = .bound p.dir) Hold.Kept)
    (.perform fun s r hs _ => ?_) fun r => (orFail_triple _ r).bind fun _ => ?_
  · subst hs
    cases r with
    | ok u => exact ⟨⟨rfl, hp⟩, rfl⟩
    | error e => exact ⟨⟨rfl, hp⟩, nofun⟩
  refine Monitor.Triple.bind (Q := Monitor.post (fun _ s => s = .bound p.dir) Hold.Kept)
    (.perform fun s r hs _ => ?_) fun r => orFail_triple _ r
  subst hs
  cases r with
  | ok u => exact ⟨nofun, rfl⟩
  | error e => exact ⟨nofun, nofun⟩

theorem spawnWith_triple (hp : p.pid = w.pid) :
    (holding w.pid).Triple (· = .bound p.dir) (spawnWith w p)
      (fun q s => q = p ∧ s = .handed p.dir) Hold.Kept := by
  unfold spawnWith
  refine Monitor.Triple.bind (Q := Monitor.post (fun _ s => s = .bound p.dir) Hold.Kept)
    (.perform fun s r hs _ => ?_) fun r => (orFail_triple _ r).bind fun exe => ?_
  · subst hs
    cases r with
    | ok u => exact ⟨nofun, rfl⟩
    | error e => exact ⟨nofun, nofun⟩
  refine Monitor.Triple.bind (Q := Monitor.post (fun _ s => s = .handed p.dir) Hold.Kept)
    (.perform fun s r hs _ => ?_) fun r => (orFail_triple _ r).bind fun _ =>
    .pure fun s hs => ⟨rfl, hs⟩
  subst hs
  cases r with
  | ok u => exact ⟨⟨rfl, hp, rfl⟩, rfl⟩
  | error e => exact ⟨⟨rfl, hp, rfl⟩, nofun⟩

/-- A launcher clears its name, binds it, and hands it over with its last call. -/
theorem spawnNixProxy_triple (w : Spawner) :
    (holding w.pid).Triple (· = .nothing) (spawnNixProxy w)
      (fun p s => p.pid = w.pid ∧ s = .handed p.dir) Hold.Kept := by
  refine Monitor.Triple.bind (Q := fun _ s => s = .nothing) (.perform fun s r hs _ => ?_)
    fun (there : Bool) => ?_
  · subst hs
    exact ⟨nofun, rfl⟩
  cases there with
  | false => exact .throw fun s hs => hs ▸ nofun
  | true =>
    refine (proxySocketPath_triple w).bind fun p s t r ⟨hs, hp⟩ hr ht => ?_
    refine ((removeStaleSocket_triple hp).bind fun _ => (listenOn_triple hp).bind fun _ =>
      (spawnWith_triple hp).conseq (fun _ => id) (fun q s hq => ?_) fun _ => id) s t r hs hr ht
    rw [hq.1]
    exact ⟨hp, hq.2⟩

end Hold

theorem Hold.allows_kept {pid : Nat} {s : Hold} {e : SocketEvent} (h : s.Allows pid e) :
    s.Kept := by
  obtain ⟨o, r⟩ := e
  cases o with
  | removeFile p => exact h.1 ▸ nofun
  | bind p => exact h.1 ▸ nofun
  | setPermissions p mode => exact h.1 ▸ nofun
  | spawn program p parentPid roots => exact h.1 ▸ nofun
  | _ => exact h

/-! ### A launcher in progress -/

abbrev SpawnTask (w : Spawner) := Task (spawnNixProxy w).run

instance : (o : SocketCall) → Inhabited (SocketAnswer o)
  | .pathExists _ => ⟨false⟩
  | .placeRuntimeFile _ => ⟨none⟩
  | .createDir _ _ => ⟨.ok ()⟩
  | .removeFile _ => ⟨.done⟩
  | .bind _ => ⟨.ok ()⟩
  | .setPermissions _ _ => ⟨.ok ()⟩
  | .clearCloexec => ⟨.ok ()⟩
  | .currentExe => ⟨.ok []⟩
  | .spawn _ _ _ _ => ⟨.ok ()⟩

namespace SpawnTask

variable {w : Spawner} {x y : SpawnTask w} {e : SocketEvent} {dir : Bytes}

def hold (x : SpawnTask w) : Hold := (holding w.pid).after .nothing x.trace

theorem hold_advance (h : x.advance e = some y) : y.hold = x.hold.step e := by
  rw [hold, Task.advance_trace h, Monitor.after_append]
  rfl

theorem meets (x : SpawnTask w) : ∃ u r, (spawnNixProxy w).Runs (x.trace ++ u) r ∧
    (holding w.pid).Meets x.hold u ∧ (holding w.pid).Meets .nothing x.trace ∧
    Monitor.post (fun p s => p.pid = w.pid ∧ s = .handed p.dir) Hold.Kept r
      ((holding w.pid).after x.hold u) := by
  obtain ⟨u, r, hr, -⟩ := x.extends_run fun _ => default
  obtain ⟨hm, hp⟩ := spawnNixProxy_triple w _ _ r rfl hr fun _ _ => trivial
  rw [Monitor.after_append] at hp
  obtain ⟨h₁, h₂⟩ := (Monitor.meets_append ..).mp hm
  exact ⟨u, r, hr, h₂, h₁, hp⟩

theorem allowed (h : x.advance e = some y) : x.hold.Allows w.pid e := by
  obtain ⟨_, _, -, -, hm, -⟩ := y.meets
  rw [Task.advance_trace h] at hm
  exact ((Monitor.meets_append ..).mp hm).2.1

/-- With its socket handed over, a launcher is done. -/
theorem outcome_of_handed (h : x.hold = .handed dir) : x.outcome = some (.ok ⟨dir, w.pid⟩) := by
  obtain ⟨u, r, hr, hm, -, hp⟩ := x.meets
  cases u with
  | cons e u => exact absurd h (Hold.allows_kept hm.1 dir)
  | nil =>
    rw [Monitor.after_nil, h] at hp
    have ho : x.outcome = some r := Task.outcome_eq_some.mpr <| by
      have hl := Prog.runs_iff_left.mp hr
      rw [List.append_nil, x.left_trace] at hl
      exact Option.some.inj hl
    cases r with
    | error err => exact absurd rfl (hp dir)
    | ok p =>
      obtain ⟨hpid, hd⟩ := hp
      obtain ⟨pdir, ppid⟩ := p
      obtain rfl : ppid = w.pid := hpid
      cases hd
      exact ho

end SpawnTask

end Claudepod
