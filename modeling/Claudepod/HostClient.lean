import Claudepod.Relay
import Claudepod.Handshake
import Claudepod.StorePath

/-! Internal host-daemon client operations used by proxy-owned fills. They run on a fresh
host daemon connection. -/

set_option autoImplicit false

namespace Claudepod
open Interaction

def opEnsurePath : UInt64 := 10

/-- A plain `Result` inside an async function. -/
def ofExcept {α : Type} : Except Error α → Async α
  | .ok a => pure a
  | .error e => throw (.failed e)

def ensurePathOnConnection (advertised : List Bytes) (fuel : Nat) (storePath : Bytes) :
    Async Unit := do
  context s!"EnsurePath target {display storePath}" (ofExcept (validateDirect storePath))
  let _ ← context "host daemon handshake" (upstream advertised .fill)
  writeU64 .fill 0
  writeU64 .fill 0
  flush .fill
  let _ ← context "daemon version" (readString .fill maxHostString)
  let _ ← context "daemon trusted flag" (readU64 .fill)
  context "daemon greeting" (drainToLast fuel .fill)
  writeU64 .fill opEnsurePath
  writeString .fill storePath
  flush .fill
  match ← attempt (drainToLast fuel .fill) with
  | .error err => bail s!"EnsurePath stderr: {err.render}"
  | .ok () => do
    let success ← context "EnsurePath result" (readU64 .fill)
    ensure (success = 1) s!"EnsurePath returned unexpected success word {success}"

/-- Fill one path over a connection to the daemon socket `upstreamPath`. -/
def ensurePath (advertised : List Bytes) (fuel : Nat) (upstreamPath storePath : Bytes) :
    Async Unit := do
  context s!"connect host daemon {display upstreamPath}" (dial .fill)
  ensurePathOnConnection advertised fuel storePath

/-! ### What it touches -/

theorem ofExcept_acts {α : Type} {S : IoEvent → Prop} (r : Except Error α) :
    Comp.ActsIn S (ofExcept r) := by
  cases r with
  | ok a => exact .pure a
  | error e => exact .throw _

/-- On the connection a fill opens. -/
def onFill (e : IoEvent) : Prop := reads .fill e ∨ puts .fill e

theorem ensurePathOnConnection_acts (advertised : List Bytes) (fuel : Nat) (storePath : Bytes) :
    Comp.ActsIn onFill (ensurePathOnConnection advertised fuel storePath) := by
  have hw : ∀ w, Comp.ActsIn onFill (writeU64 .fill w) := fun w =>
    (writeU64_emits .fill w).acts.mono fun _ => .inr
  have hf : Comp.ActsIn onFill (flush .fill) := (flush_emits .fill).acts.mono fun _ => .inr
  have hd : Comp.ActsIn onFill (drainToLast fuel .fill) :=
    (drainToLast_acts fuel .fill).mono fun _ => .inl
  have hr : Comp.ActsIn onFill (readU64 .fill) := (readU64_decodes .fill).acts.mono fun _ => .inl
  have hs : Comp.ActsIn onFill (readString .fill maxHostString) :=
    (readString_decodes .fill _).acts.mono fun _ => .inl
  refine (ofExcept_acts _).mapStop.bind fun _ => ?_
  refine (upstream_converses advertised .fill).acts.mapStop.bind fun _ => ?_
  refine (hw 0).bind fun _ => (hw 0).bind fun _ => hf.bind fun _ => ?_
  refine hs.mapStop.bind fun _ => hr.mapStop.bind fun _ => hd.mapStop.bind fun _ => ?_
  refine (hw opEnsurePath).bind fun _ => ?_
  refine ((writeString_emits .fill storePath).acts.mono fun _ => .inr).bind fun _ => ?_
  refine hf.bind fun _ => hd.attempt.bind fun
    | .error err => .throw _
    | .ok () => hr.mapStop.bind fun success => ?_
  exact (decodes_check (c := .fill)).acts.mono fun _ => .inl

theorem ensurePath_elsewhere (advertised : List Bytes) (fuel : Nat)
    (upstreamPath storePath : Bytes) :
    Comp.ActsIn elsewhere (ensurePath advertised fuel upstreamPath storePath) := by
  refine (dial_acts fun _ => ⟨by decide, by decide⟩).mapStop.bind fun _ =>
    (ensurePathOnConnection_acts advertised fuel storePath).mono fun e he => ?_
  obtain ⟨o, r⟩ := e
  cases o <;> simp_all [onFill, reads, puts, elsewhere]

end Claudepod
