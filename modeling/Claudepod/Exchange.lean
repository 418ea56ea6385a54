import Claudepod.Ops
import Claudepod.Relay

/-! Requests and replies as the guest and the host see them, apart from how the proxy moves
their bytes: what the guest may be told in answer to a request, and what is said to the
host for it. -/

set_option autoImplicit false

namespace Claudepod
open Interaction

/-- What the host sends for one request. -/
inductive Reply where
  | error (logs : List Message) (e : ErrorPayload)
  | last (logs : List Message) (result : Bytes)

namespace Reply

def logs : Reply → List Message
  | error logs _ | last logs _ => logs

/-- What comes behind the log messages. -/
def ending : Reply → Bytes
  | error _ e => (Message.error e).encode
  | last _ result => le64 stderrLast ++ result

def encode (r : Reply) : Bytes := encMessages r.logs ++ r.ending

/-- Within the caps, and with a result of the op's form. -/
def Valid (op : Op) (withPath : Bool) : Reply → Prop
  | error logs e => Logs logs ∧ e.Valid
  | last logs result => Logs logs ∧ resultFormat op withPath () result

theorem valid_word {op : Op} {withPath : Bool} {logs : List Message} {w : UInt64}
    (ho : op = .isValidPath) (h : Logs logs) : (last logs (le64 w)).Valid op withPath := by
  subst ho
  exact ⟨h, w, trivial, rfl⟩

end Reply

theorem reply_last (logs : List Message) (result : Bytes) :
    (Reply.last logs result).encode = encMessages logs ++ (le64 stderrLast ++ result) := rfl

/-! ### Telling requests and replies apart -/

section Unambiguous

variable {n : Negotiated} {u v : Bytes}

/-- Where a request ends can be told from its bytes. -/
theorem request_unambiguous {r r' : Request} (h : r.Valid n.realisationWithPath)
    (h' : r'.Valid n.realisationWithPath) (he : r.encode ++ u = r'.encode ++ v) :
    r.op = r'.op ∧ r.encode = r'.encode ∧ u = v := by
  rw [Request.encode, Request.encode, List.append_assoc, List.append_assoc] at he
  obtain ⟨hw, ha⟩ := List.append_inj he (by simp)
  have ho : r.op = r'.op := by
    have := Op.allowed_word r.op
    rw [le64_injective hw, Op.allowed_word] at this
    exact (Option.some.inj this).symm
  obtain ⟨-, hargs, hu⟩ := (copyArgs_copies r.op n .guest .host).unambiguous (a := ()) (b := ())
    ⟨r, rfl, h, rfl⟩ ⟨r', ho.symm, h', rfl⟩ ha
  exact ⟨ho, by rw [Request.encode, Request.encode, ho, hargs], hu⟩

/-- What is put to the host is read in one way. -/
theorem request_injective {withPath : Bool} {r r' : Request} (hs : r.op ≠ .setOptions)
    (h : r.Valid withPath) (h' : r'.Valid withPath) (ho : r.op = r'.op)
    (he : r.args = r'.args) : r = r' := by
  have hstring : ∀ {s s' : Bytes}, s.length ≤ maxGuestString.toNat →
      s'.length ≤ maxGuestString.toNat → encString s = encString s' → s = s' :=
    fun hl hl' he => (encString_unambiguous (u := []) (v := []) hl hl'
      (by rw [List.append_nil, List.append_nil, he])).1
  cases r with
  | isValidPath s => cases r' with
    | isValidPath s' => rw [hstring h h' he]
    | _ => cases ho
  | queryReferrers s => cases r' with
    | queryReferrers s' => rw [hstring h h' he]
    | _ => cases ho
  | setOptions scalars overrides => exact absurd rfl hs
  | queryPathInfo s => cases r' with
    | queryPathInfo s' => rw [hstring h h' he]
    | _ => cases ho
  | queryPathFromHashPart s => cases r' with
    | queryPathFromHashPart s' => rw [hstring h h' he]
    | _ => cases ho
  | queryValidPaths paths => cases r' with
    | queryValidPaths paths' =>
      have hp := (List.append_inj (List.append_cancel_right he) (by simp)).2
      rw [encStrings_injective h.2 h'.2 hp]
    | _ => cases ho
  | queryValidDerivers s => cases r' with
    | queryValidDerivers s' => rw [hstring h h' he]
    | _ => cases ho
  | queryRealisation id => cases r' with
    | queryRealisation id' => rw [encStrings_injective h.2 h'.2 he]
    | _ => cases ho

/-- Where the reply to an op ends can be told from its bytes, and it is read in one way. -/
theorem reply_unambiguous {op : Op} {q q' : Reply} (h : q.Valid op n.realisationWithPath)
    (h' : q'.Valid op n.realisationWithPath) (he : q.encode ++ u = q'.encode ++ v) :
    q = q' ∧ u = v := by
  cases q with
  | error logs e =>
    cases q' with
    | error logs' e' =>
      rw [Reply.encode, Reply.encode, List.append_assoc, List.append_assoc] at he
      obtain ⟨rfl, hm, rfl⟩ := @logs_unambiguous _ _ (.error e) (.error e') _ _ h.1 h'.1 h.2 rfl
        h'.2 rfl he
      exact ⟨by rw [Message.error.inj hm], rfl⟩
    | last logs' result =>
      rw [Reply.encode, reply_last, List.append_assoc, List.append_assoc, List.append_assoc] at he
      obtain ⟨-, hm, -⟩ := @logs_unambiguous _ _ (.error e) .last _ _ h.1 h'.1 h.2 rfl
        trivial rfl he
      cases hm
  | last logs result =>
    cases q' with
    | error logs' e' =>
      rw [reply_last, Reply.encode, List.append_assoc, List.append_assoc, List.append_assoc] at he
      obtain ⟨-, hm, -⟩ := @logs_unambiguous _ _ .last (.error e') _ _ h.1 h'.1 trivial rfl
        h'.2 rfl he
      cases hm
    | last logs' result' =>
      rw [reply_last, reply_last, List.append_assoc, List.append_assoc, List.append_assoc,
        List.append_assoc] at he
      obtain ⟨rfl, -, hr⟩ := @logs_unambiguous _ _ .last .last _ _ h.1 h'.1 trivial rfl
        trivial rfl he
      obtain ⟨-, rfl, rfl⟩ := (copyResult_copies op n .host .guest).unambiguous h.2 h'.2 hr
      exact ⟨rfl, rfl⟩

end Unambiguous

/-- The answer to `IsValidPath` as the proxy writes it. -/
def validWord (valid : Bool) : Bytes := le64 (if valid then 1 else 0)

/-- One op of the guest: what it asked, what it was sent, what was said on the host
connection meanwhile, and how a fill went if there was one. -/
structure Exchange where
  request : Request
  toGuest : Bytes
  withHost : List (Request × Reply)
  fill : Option (Except Error Unit)

namespace Exchange

def toHost (x : Exchange) : Bytes := x.withHost.flatMap fun q => q.1.encode

def fromHost (x : Exchange) : Bytes := x.withHost.flatMap fun q => q.2.encode

/-- One request, put to the host again and again. -/
theorem toHost_map (r : Request) (toGuest : Bytes) (reply : Reply) (again : List Reply)
    (fill : Option (Except Error Unit)) :
    toHost ⟨r, toGuest, (reply :: again).map (Prod.mk r), fill⟩ =
      r.encode ++ again.flatMap fun _ => r.encode := by
  simp [toHost, List.flatMap_map]

theorem fromHost_map (r : Request) (toGuest : Bytes) (reply : Reply) (again : List Reply)
    (fill : Option (Except Error Unit)) :
    fromHost ⟨r, toGuest, (reply :: again).map (Prod.mk r), fill⟩ =
      reply.encode ++ again.flatMap Reply.encode := by
  simp [fromHost, List.flatMap_map]

end Exchange

/-- How an `IsValidPath` is decided once the host has given its first word. -/
inductive Decided (may : Bytes → Bool) (path : Bytes) :
    UInt64 → List Reply → Option (Except Error Unit) → Bool → Prop
  | valid {w : UInt64} : w ≠ 0 → Decided may path w [] none true
  | unfillable : may path = false → Decided may path 0 [] none false
  | fillFailed {e : Error} : may path = true → Decided may path 0 [] (some (.error e)) false
  | refilled {logs : List Message} {w : UInt64} : may path = true → Logs logs → w ≠ 0 →
      Decided may path 0 [.last logs (le64 w)] (some (.ok ())) true
  | stillInvalid {logs : List Message} : may path = true → Logs logs →
      Decided may path 0 [.last logs (le64 0)] (some (.ok ())) false
  | recheckFailed {logs : List Message} {e : ErrorPayload} : may path = true → Logs logs →
      e.Valid → Decided may path 0 [.error logs e] (some (.ok ())) false

/-- The exchanges of a session that may fill what `may` says. -/
inductive Legal (withPath : Bool) (may : Bytes → Bool) : Exchange → Prop
  | swallowed {r : Request} : r.op = .setOptions → r.Valid withPath →
      Legal withPath may ⟨r, le64 stderrLast, [], none⟩
  | relayed {r : Request} {reply : Reply} : r.op ≠ .setOptions → r.op ≠ .isValidPath →
      r.Valid withPath → reply.Valid r.op withPath →
      Legal withPath may ⟨r, reply.encode, [(r, reply)], none⟩
  | refused {path : Bytes} {logs : List Message} {e : ErrorPayload} :
      (Request.isValidPath path).Valid withPath → Logs logs → e.Valid →
      Legal withPath may ⟨.isValidPath path, (Reply.error logs e).encode,
        [(.isValidPath path, .error logs e)], none⟩
  | decided {path : Bytes} {logs : List Message} {w : UInt64} {again : List Reply}
      {fill : Option (Except Error Unit)} {valid : Bool} :
      (Request.isValidPath path).Valid withPath → Logs logs →
      Decided may path w again fill valid →
      Legal withPath may ⟨.isValidPath path, (Reply.last logs (validWord valid)).encode,
        (.last logs (le64 w) :: again).map (Prod.mk (.isValidPath path)), fill⟩

end Claudepod
