import Claudepod.HostClient
import Claudepod.Ops

/-! Per-connection relay state machine: handshakes, post-handshake exchange, then the op
loop. -/

set_option autoImplicit false

namespace Claudepod
open Interaction

def handshakeTimeout : Nat := 60
def argsTimeout : Nat := 60

/-- What `run` is called with. The session owns both its connections, so no fill can touch
them. `fuel` bounds every loop of the model. -/
structure Setup where
  advertised : List Bytes
  nixRunRoots : Option NixRunRoots
  fill : Bytes → Async Unit
  separate : ∀ storePath, Comp.ActsIn elsewhere (fill storePath)
  fuel : Nat

def warn (message : String) : Async Unit := Comp.perform (Call.note message)

def warnOnDemandFill (storePath : Bytes) (reason : String) : Async Unit :=
  warn (s!"claudepod-nix-proxy: warning: on-demand fill for {display storePath}: " ++ reason)

def writeIsValidPathResult (valid : Bool) : Async Unit := do
  writeU64 .guest stderrLast
  writeU64 .guest (if valid then 1 else 0)

inductive Recheck where
  | valid | invalid
  | daemonError (message : String)
  deriving DecidableEq, Repr

def recheckIsValidPath (fuel : Nat) (storePath : Bytes) : Async Recheck := do
  writeU64 .host Op.isValidPath.word
  writeString .host storePath
  flush .host
  match ← context "IsValidPath re-check stderr" (drainToTerminal fuel .host) with
  | .last => do
    let word ← context "IsValidPath re-check result" (readU64 .host)
    pure (if word ≠ 0 then .valid else .invalid)
  | .error message => pure (.daemonError message)

/-- On failure nothing has been sent guestward for this op yet, so the guest still gets a
parseable synthetic error. -/
def orSyntheticError {α : Type} (name : String) (p : Async α) : Async α := do
  match ← attempt (within argsTimeout p) with
  | .ok a => pure a
  | .error err =>
    let err := err.context (name ++ " arguments")
    refuse .guest err.render err

/-- Copy an op's arguments guest-to-`dest` under the args timeout. -/
def relayArgs (op : Op) (negotiated : Negotiated) (dest : Leg) : Async Unit :=
  orSyntheticError op.name (copyArgs op negotiated .guest dest)

def relayIsValidPathArgs : Async Bytes :=
  orSyntheticError "IsValidPath" do
    let raw ← readString .guest maxGuestString
    writeString .host raw
    pure raw

/-- Whether the session may fill the path. -/
def fillable (nixRunRoots : Option NixRunRoots) (storePath : Bytes) : Bool :=
  nixRunRoots.any fun roots => roots.contains storePath

def interceptIsValidPath (setup : Setup) : Async Unit := do
  let storePath ← relayIsValidPathArgs
  flush .host
  let terminal ← context "IsValidPath stderr" (relayWithoutLast setup.fuel .host .guest)
  if terminal = .error then pure ()
  else do
    let hostValid ← context "IsValidPath result" (readU64 .host)
    if hostValid ≠ 0 then writeIsValidPathResult true
    else if ¬ fillable setup.nixRunRoots storePath then writeIsValidPathResult false
    else do
      match ← attempt (setup.fill storePath) with
      | .error err => do
        warnOnDemandFill storePath s!"fill failed: {err.render}"
        writeIsValidPathResult false
      | .ok () => do
        match ← recheckIsValidPath setup.fuel storePath with
        | .valid => writeIsValidPathResult true
        | .invalid => do
          warnOnDemandFill storePath "re-check still invalid"
          writeIsValidPathResult false
        | .daemonError message => do
          warnOnDemandFill storePath s!"re-check failed: {message}"
          writeIsValidPathResult false

def rejectedOp (word : UInt64) : String :=
  s!"rejected op {opName word} ({word}): not in the read-only allowlist"

/-- The body of the op loop, for one op word. -/
def serveOp (setup : Setup) (negotiated : Negotiated) (word : UInt64) : Async Unit :=
  match Op.allowed word with
  | none => do
    writeError .guest (rejectedOp word)
    bail (rejectedOp word)
  | some op =>
    if op = .setOptions then do
      -- Swallowed, not forwarded.
      relayArgs op negotiated .sink
      writeU64 .guest stderrLast
      flush .guest
    else do
      writeU64 .host word
      if op = .isValidPath then do
        interceptIsValidPath setup
        flush .guest
      else do
        relayArgs op negotiated .host
        flush .host
        let terminal ← context s!"{op.name} stderr" (relay setup.fuel .host .guest)
        if terminal = .last then
          context s!"{op.name} result" (copyResult op negotiated .host .guest)
        else pure ()
        flush .guest

def opLoop (setup : Setup) (negotiated : Negotiated) : Nat → Async Unit
  | 0 => throw .exhausted
  | fuel+1 => do
    match ← readU64OrEof .guest with
    | none => pure ()
    | some word => do
      serveOp setup negotiated word
      opLoop setup negotiated fuel

/-- Both handshakes; the host daemon is dialled once the guest has sent its magic. -/
def handshakes (advertised : List Bytes) : Async Negotiated := do
  context "guest handshake" (within handshakeTimeout (guestMagic .guest))
  context "dial host daemon" (dial .host)
  let negotiated ← context "host daemon handshake" (upstream advertised .host)
  context "guest handshake" (within handshakeTimeout (downstream .guest negotiated))
  pure negotiated

/-- Obsolete CPU affinity (a nonzero word is followed by the affinity value), obsolete
reserveSpace. -/
def clientFields : Async UInt64 := do
  let affinity ← copyU64 .guest .host
  if affinity ≠ 0 then do
    let _ ← copyU64 .guest .host
    copyU64 .guest .host
  else copyU64 .guest .host

def postHandshake : Async Unit := do
  let _ ← context "guest post-handshake" (within handshakeTimeout clientFields)
  flush .host

/-- Daemon handshake info (nix version string, trusted flag), then the greeting stderr
exchange. -/
def greeting (fuel : Nat) : Async Unit := do
  copyString .host .guest maxHostString
  let _ ← copyU64 .host .guest
  let _ ← context "greeting" (relay fuel .host .guest)
  flush .guest

/-- Drive one guest connection against one host daemon connection until the guest hangs up
or a protocol violation kills the session. -/
def run (setup : Setup) : Async Unit := do
  let negotiated ← handshakes setup.advertised
  postHandshake
  greeting setup.fuel
  opLoop setup negotiated setup.fuel

/-- A fill whose outcome the environment decides. -/
def anyFill (storePath : Bytes) : Async Unit :=
  Comp.perform (Call.ask storePath) >>= fun (answer : Answer Error) =>
    match answer with
    | .granted => pure ()
    | .denied e => throw (.failed e)
    | .silent => throw .pending

theorem anyFill_elsewhere (storePath : Bytes) : Comp.ActsIn elsewhere (anyFill storePath) :=
  (Comp.ActsIn.perform fun _ => trivial).bind fun answer => by
    cases answer with
    | granted => exact .pure ()
    | denied e => exact .throw _
    | silent => exact .throw _

/-- The setup of a session whose fills the environment decides. -/
def hookSetup (nixRunRoots : Option NixRunRoots) (fuel : Nat) : Setup :=
  ⟨ourFeatures, nixRunRoots, anyFill, anyFill_elsewhere, fuel⟩

/-- A guest and a host that send what they send whatever they are sent, and fills that go as
`answers` says. -/
def sessionWorld (guest host : Bytes) (answers : List (Answer Error)) : World Leg IoError Error :=
  ⟨fun c => Peer.script (if c = .guest then guest else []), [.ok (Peer.script host)], answers⟩

theorem sessionWorld_generous (guest host : Bytes) (answers : List (Answer Error)) :
    (sessionWorld guest host answers).Generous where
  peers _ := rfl
  dials p hp := by
    obtain rfl : p = Peer.script host := by simpa [sessionWorld] using hp
    rfl

/-- The setup of a proxy that fills through the daemon socket `upstreamPath`. -/
def proxySetup (nixRunRoots : Option NixRunRoots) (upstreamPath : Bytes) (fuel : Nat) : Setup :=
  ⟨ourFeatures, nixRunRoots, ensurePath ourFeatures fuel upstreamPath,
    ensurePath_elsewhere ourFeatures fuel upstreamPath, fuel⟩

/-- The session as the proxy wires it. -/
def proxyRelay (nixRunRoots : Option NixRunRoots) (upstreamPath : Bytes) (fuel : Nat) :
    Async Unit :=
  run (proxySetup nixRunRoots upstreamPath fuel)

end Claudepod
