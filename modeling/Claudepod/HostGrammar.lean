import Claudepod.Ledger
import Claudepod.Startup

/-! What a session sends the host, wherever it stops, is the beginning of a sequence of
whole requests that only ask. -/

set_option autoImplicit false

namespace Claudepod
open Interaction Monitor

/-! ### What does not write to the host -/

theorem silent_of_acts {α : Type} {c : Leg} {p : Async α} {S : IoEvent → Prop}
    (h : Comp.ActsIn S p) (hs : ∀ e, S e → ¬ writesTo c e) : Silent c p := h.mono hs

theorem flush_silent (c d : Leg) : Silent c (flush d) := flush_acts fun _ h => h

theorem refuse_silent {α : Type} (text : String) (err : Error) :
    Silent .host (refuse .guest text err : Async α) :=
  silent_of_acts (refuse_acts .guest text err) fun _ he =>
    not_writesTo (c := .guest) (.inr he) (by decide)

theorem orSyntheticError_silent {α : Type} {name : String} {p : Async α} (h : Silent .host p) :
    Silent .host (orSyntheticError name p) :=
  h.mapStop.attempt.bind fun
    | .ok a => .pure a
    | .error _ => refuse_silent _ _

theorem relay_silent (forwardLast : Bool) (fuel : Nat) :
    Silent .host (relayInner .host .guest forwardLast fuel) :=
  silent_of_acts (relayInner_acts .host .guest forwardLast fuel) fun _ he =>
    not_writesTo he (by decide)

theorem drain_silent (c : Leg) (fuel : Nat) : Silent c (drainToTerminal fuel .host) :=
  silent_of_acts (drainToTerminal_acts fuel .host) fun e he => by
    obtain ⟨o, r⟩ := e
    cases o <;> simp_all [reads, writesTo]

theorem not_writesTo_of_elsewhere {c : Leg} {e : IoEvent} (hc : c = .guest ∨ c = .host)
    (he : elsewhere e) : ¬ writesTo c e := fun hw => by
  obtain ⟨o, r⟩ := e
  cases o <;> simp_all [elsewhere, writesTo]

theorem elsewhere_silent {α : Type} {c : Leg} {p : Async α} (hc : c = .guest ∨ c = .host)
    (h : Comp.ActsIn elsewhere p) : Silent c p :=
  silent_of_acts h fun _ => not_writesTo_of_elsewhere hc

theorem warn_silent (c : Leg) (storePath : Bytes) (reason : String) :
    Silent c (warnOnDemandFill storePath reason) := Comp.ActsIn.perform fun _ h => h

theorem relayReply_silent (fuel : Nat) (op : Op) (n : Negotiated) :
    Silent .host (relayReply fuel op n) :=
  silent_of_acts (relayReply_acts fuel op n) fun _ he => not_writesTo he (by decide)

/-! ### The grammar -/

/-- The requests a session passes on. -/
def Request.Relayable (withPath : Bool) (r : Request) : Prop :=
  r.Valid withPath ∧ r.op ≠ .setOptions

/-- A sequence of whole requests. -/
def Script (withPath : Bool) (x : Bytes) : Prop :=
  ∃ rs : List Request, (∀ r ∈ rs, r.Relayable withPath) ∧ x = rs.flatMap Request.encode

/-- A beginning of one. -/
def Scripted (withPath : Bool) (x : Bytes) : Prop := ∃ y, Script withPath y ∧ x <+: y

theorem Script.nil (withPath : Bool) : Script withPath [] := ⟨[], by simp, rfl⟩

theorem Script.snoc {withPath : Bool} {x : Bytes} {r : Request} (h : Script withPath x)
    (hr : r.Relayable withPath) : Script withPath (x ++ r.encode) := by
  obtain ⟨rs, hrs, rfl⟩ := h
  refine ⟨rs ++ [r], ?_, by simp⟩
  intro q hq
  rcases List.mem_append.mp hq with hq | hq
  · exact hrs q hq
  · rwa [List.mem_singleton.mp hq]

theorem Script.scripted {withPath : Bool} {x : Bytes} (h : Script withPath x) :
    Scripted withPath x := ⟨x, h, List.prefix_rfl⟩

/-- There is a request of every op. -/
theorem argsFormat_inhabited (op : Op) (withPath : Bool) : ∃ x, argsFormat op withPath () x := by
  cases op with
  | isValidPath => exact ⟨_, .isValidPath [], rfl, Nat.zero_le _, rfl⟩
  | queryReferrers => exact ⟨_, .queryReferrers [], rfl, Nat.zero_le _, rfl⟩
  | queryPathInfo => exact ⟨_, .queryPathInfo [], rfl, Nat.zero_le _, rfl⟩
  | queryPathFromHashPart => exact ⟨_, .queryPathFromHashPart [], rfl, Nat.zero_le _, rfl⟩
  | queryValidDerivers => exact ⟨_, .queryValidDerivers [], rfl, Nat.zero_le _, rfl⟩
  | queryValidPaths => exact ⟨_, .queryValidPaths [], rfl, ⟨Nat.zero_le _, by simp⟩, rfl⟩
  | setOptions =>
    exact ⟨_, .setOptions (List.replicate 12 0) [], rfl,
      ⟨List.length_replicate, Nat.zero_le _, by simp⟩, rfl⟩
  | queryRealisation =>
    refine ⟨_, .queryRealisation (List.replicate (if withPath then 2 else 1) []), rfl,
      ⟨List.length_replicate, fun s hs => ?_⟩, rfl⟩
    rw [List.eq_of_mem_replicate hs]
    exact Nat.zero_le _

/-- A script and an op word behind it. -/
def Asking (withPath : Bool) (op : Op) (x : Bytes) : Prop :=
  ∃ y, Script withPath y ∧ x = y ++ le64 op.word

theorem Asking.scripted {withPath : Bool} {op : Op} {x z : Bytes} (hx : Asking withPath op x)
    (ho : op ≠ .setOptions) (hz : argsFormat op withPath () z) : Script withPath (x ++ z) := by
  obtain ⟨y, hy, rfl⟩ := hx
  obtain ⟨r, rfl, hr, rfl⟩ := hz
  rw [List.append_assoc]
  exact hy.snoc ⟨hr, ho⟩

variable {setup : Setup} {n : Negotiated} {op : Op}

/-- The monitor of this module. -/
abbrev hostLedger : Monitor (Resp Leg IoError Error) Bytes := ledger .host fun _ => True

theorem writeWord_script (ho : op ≠ .setOptions) :
    hostLedger.Triple (Script n.realisationWithPath) (writeU64 .host op.word)
      (fun _ => Asking n.realisationWithPath op) (Scripted n.realisationWithPath) := by
  refine ledger.of_runs fun s t r hs hr _ => ?_
  have hw := writeU64_emits .host op.word
  cases r with
  | ok u => exact ⟨s, hs, by rw [(hw.sound hr).2]⟩
  | error e =>
    obtain ⟨z, hz⟩ := argsFormat_inhabited op n.realisationWithPath
    have ha : Asking n.realisationWithPath op (s ++ le64 op.word) := ⟨s, hs, rfl⟩
    exact ⟨_, ha.scripted ho hz,
      ((List.prefix_append_right_inj s).mpr (hw.sent_part hr)).trans (List.prefix_append ..)⟩

/-- Arguments that are copied complete what came before them, or can still be completed. -/
theorem args_script {α : Type} {name : String} {p : Async α} {F : Format α}
    (hc : Copies .guest .host p F) (he : Extends .host p F)
    (ht : Comp.StopsIn Stop.Terse p) (hn : name.utf8ByteSize ≤ 900) (ho : op ≠ .setOptions)
    (hF : ∀ a x, F a x → argsFormat op n.realisationWithPath () x) :
    hostLedger.Triple (Asking n.realisationWithPath op) (orSyntheticError name p)
      (fun a s => Script n.realisationWithPath s ∧ ∃ x, F a x)
      (Scripted n.realisationWithPath) := by
  refine ledger.of_runs fun s t r hs hr _ => ?_
  rcases orSyntheticError_runs ht hn hr with ⟨a, rfl, h⟩ | ⟨e, rfl, h⟩
  · obtain ⟨hx, hsent⟩ := hc.sound h
    exact ⟨by rw [hsent]; exact hs.scripted ho (hF _ _ hx), _, hx⟩
  · obtain ⟨t₁, t₂, e₁, text, rfl, h₁, -, hg, -, -⟩ := h.split
    obtain ⟨a, x, hx, hsent⟩ := he _ _ h₁
    refine ⟨_, hs.scripted ho (hF a x hx), (List.prefix_append_right_inj s).mpr ?_⟩
    have h₂ : sent .host t₂ = [] := sent_eq_nil hg fun _ he =>
      not_writesTo (c := .guest) (.inr he) (by decide)
    rwa [sent_append, h₂, List.append_nil]

theorem silent_script {α : Type} {p : Async α} {w : Bool} (h : Silent .host p) :
    hostLedger.Triple (Script w) p (fun _ => Script w) (Scripted w) :=
  (ledger.silent h).conseq (fun _ => id) (fun _ _ => id) fun _ => Script.scripted

theorem recheck_script {path : Bytes} {fuel : Nat} {w : Bool}
    (hl : path.length ≤ maxGuestString.toNat) :
    hostLedger.Triple (Script w) (recheckIsValidPath fuel path) (fun _ => Script w)
      (Scripted w) := by
  have he := ((writeU64_emits .host Op.isValidPath.word).andThen
    (writeString_emits .host path)).of_eq (isValidPath_encode path).symm
  have hr : (Request.isValidPath path).Relayable w := ⟨hl, nofun⟩
  have hq : hostLedger.Triple (Script w)
      (writeU64 .host Op.isValidPath.word >>= fun _ => writeString .host path)
      (fun _ => Script w) (Scripted w) := by
    refine ledger.of_runs fun s t r hs' hr' _ => ?_
    cases r with
    | ok u =>
      show Script w _
      rw [(he.sound hr').2]
      exact hs'.snoc hr
    | error e => exact ⟨_, hs'.snoc hr, (List.prefix_append_right_inj s).mpr (he.sent_part hr')⟩
  unfold recheckIsValidPath
  rw [← bind_assoc]
  refine hq.bind fun _ => silent_script ?_
  refine (flush_silent .host .host).bind fun _ => (drain_silent .host fuel).mapStop.bind fun d => ?_
  cases d with
  | last => exact ((readU64_decodes .host).silent .host).mapStop.bind fun _ => .pure _
  | error message => exact .pure _

theorem intercept_script :
    hostLedger.Triple (Asking n.realisationWithPath .isValidPath) (interceptIsValidPath setup)
      (fun _ => Script n.realisationWithPath) (Scripted n.realisationWithPath) := by
  have hargs : hostLedger.Triple (Asking n.realisationWithPath .isValidPath) relayIsValidPathArgs
      (fun path s => Script n.realisationWithPath s ∧ ∃ x, stringFormat maxGuestString path x)
      (Scripted n.realisationWithPath) :=
    args_script copyPath_copies copyPath_extends copyPath_terse (by decide) (by decide)
      fun s x hx => ⟨.isValidPath s, rfl, hx.1, hx.2⟩
  have htell : ∀ valid, Silent .host (writeIsValidPathResult valid) := fun valid =>
    (writeIsValidPathResult_emits valid).silent (by decide)
  have hwarn : ∀ path reason, Silent .host (warnOnDemandFill path reason >>= fun _ =>
      writeIsValidPathResult false) := fun path reason =>
    (warn_silent .host path reason).bind fun _ => htell false
  refine hargs.bind fun path => ?_
  by_cases hl : path.length ≤ maxGuestString.toNat
  swap
  · rintro s t r ⟨-, x, hx⟩
    exact absurd hx.1 hl
  refine Triple.pre ?_ fun s hs => hs.1
  refine (silent_script (flush_silent .host .host)).bind fun _ => ?_
  refine (silent_script (relay_silent false setup.fuel).mapStop).bind fun terminal => ?_
  refine .ite (fun _ => silent_script (.pure ())) fun _ => ?_
  refine (silent_script ((readU64_decodes .host).silent .host).mapStop).bind fun hostValid => ?_
  refine .ite (fun _ => silent_script (htell true)) fun _ => ?_
  refine .ite (fun _ => silent_script (htell false)) fun _ => ?_
  refine (silent_script (elsewhere_silent (.inr rfl) (setup.separate path)).attempt).bind fun
    | .error err => silent_script (hwarn path _)
    | .ok () => (recheck_script hl).bind fun
      | .valid => silent_script (htell true)
      | .invalid => silent_script (hwarn path _)
      | .daemonError message => silent_script (hwarn path _)

/-- Serving an op adds whole requests to what the host was sent, or breaks off inside one. -/
theorem serveOp_script (word : UInt64) :
    hostLedger.Triple (Script n.realisationWithPath) (serveOp setup n word)
      (fun _ => Script n.realisationWithPath) (Scripted n.realisationWithPath) := by
  cases ho : Op.allowed word with
  | none =>
    rw [serveOp_rejected ho]
    exact silent_script (((writeError_emits .guest _).silent (by decide)).bind fun _ => .throw _)
  | some op =>
    obtain rfl := Op.word_of_allowed ho
    by_cases hs : op = .setOptions
    · subst hs
      rw [serveOp_swallowed]
      exact silent_script ((orSyntheticError_silent ((copyArgs_copies .setOptions n .guest
        .sink).silent (by decide))).bind fun _ => ((writeU64_emits .guest _).silent
        (by decide)).bind fun _ => flush_silent .host .guest)
    by_cases hv : op = .isValidPath
    · subst hv
      rw [serveOp_intercepted]
      exact (writeWord_script hs).bind fun _ => intercept_script.bind fun _ =>
        silent_script (flush_silent .host .guest)
    rw [serveOp_relayed hs hv]
    refine (writeWord_script hs).bind fun _ => Triple.bind (args_script (copyArgs_copies op n _ _)
      (copyArgs_extends op n _ _ hs) (copyArgs_terse op n _ _) (opName_size op) hs
      fun _ _ => id) fun _ => ?_
    refine (silent_script ?_).pre fun _ h => h.1
    exact (flush_silent .host .host).bind fun _ => (relayReply_silent setup.fuel op n).bind fun _ =>
      flush_silent .host .guest

theorem opLoop_script (fuel : Nat) :
    hostLedger.Triple (Script n.realisationWithPath) (opLoop setup n fuel)
      (fun _ => Script n.realisationWithPath) (Scripted n.realisationWithPath) := by
  induction fuel with
  | zero => exact .throw fun _ => Script.scripted
  | succ fuel ih =>
    refine (silent_script (p := readU64OrEof .guest) ?_).bind fun o => ?_
    · exact silent_of_acts (fun t r h => (readU64OrEof_runs h).1) fun e he => by
        obtain ⟨o, r⟩ := e
        cases o <;> simp_all [readsFrom, writesTo]
    · cases o with
      | none => exact silent_script (.pure ())
      | some word => exact (serveOp_script word).bind fun _ => ih

/-! ### A daemon at the other end -/

/-- A daemon as far as the framing of requests goes: which bytes complete a request with
which op word. It reads the requests of the protocol whole, and nothing it reads is the
beginning of something else it reads. -/
structure Daemon (withPath : Bool) where
  completes : UInt64 → Bytes → Prop
  reads : ∀ r : Request, r.Relayable withPath → completes r.op.word r.args
  prefixFree : ∀ {word x y}, completes word x → completes word y → x <+: y → x = y

/-- Out of a script a daemon reads the requests it is made of, whatever else it would read. -/
theorem Daemon.reads_script {withPath : Bool} (d : Daemon withPath)
    {ws : List (UInt64 × Bytes)} (hws : ∀ q ∈ ws, d.completes q.1 q.2) {rs : List Request}
    (hrs : ∀ r ∈ rs, r.Relayable withPath)
    (h : ws.flatMap (fun q => le64 q.1 ++ q.2) <+: rs.flatMap Request.encode) :
    ∃ rs', rs' <+: rs ∧ ws = rs'.map fun r => (r.op.word, r.args) := by
  induction ws generalizing rs with
  | nil => exact ⟨[], List.nil_prefix, rfl⟩
  | cons q ws ih =>
    obtain ⟨word, args⟩ := q
    simp only [List.forall_mem_cons] at hws
    cases rs with
    | nil =>
      have hl := h.length_le
      simp at hl
    | cons r rs =>
      simp only [List.forall_mem_cons] at hrs
      simp only [List.flatMap_cons, Request.encode, List.append_assoc] at h
      obtain ⟨hw, h'⟩ := prefix_append_inj h (by simp)
      obtain rfl := le64_injective hw
      have hargs : args = r.args := by
        have hr := d.reads r hrs.1
        rcases List.prefix_or_prefix_of_prefix ((List.prefix_append args _).trans h')
          (List.prefix_append r.args _) with hp | hp
        · exact d.prefixFree hws.1 hr hp
        · exact (d.prefixFree hr hws.1 hp).symm
      subst hargs
      obtain ⟨rs', hp, rfl⟩ := ih hws.2 hrs.2 ((List.prefix_append_right_inj _).mp h')
      exact ⟨r :: rs', (List.prefix_cons_inj r).mpr hp, rfl⟩

/-! ### The opening -/

theorem clientFormat_inhabited : ∃ a z, clientFormat a z :=
  ⟨0, _, 0, _, _, ⟨trivial, rfl⟩, ⟨trivial, rfl⟩, rfl⟩

/-- What the host has been sent when a handshake gives up, and what it has said by then. -/
theorem handshakes_stopped {advertised : List Bytes} {t : IoTrace} {s : Stop}
    (h : (handshakes advertised).Runs t (.error s)) :
    sent .host t <+: hostHello ∨
      (∃ word, Accepted word ∧ featureExchange ≤ min (Version.fromWire word) ourVersion ∧
        le64 workerMagic2 ++ le64 word <+: recvd .host t ∧
        sent .host t <+: hostHello ++ encStringList advertised) ∨
      ∃ n x y, UpstreamTalk advertised n x y ∧ recvd .host t = x ∧ sent .host t = y := by
  have hm := guestMagic_decodes .guest
  have hu := upstream_converses advertised .host
  have hmr : ∀ {t r}, (context "guest handshake" (within handshakeTimeout
      (guestMagic .guest))).Runs t r → recvd .host t = [] ∧ sent .host t = [] := fun h => by
    have hf := flow_read_guest (hm.mapStop _ |>.mapStop _) h
    exact ⟨congrArg Flow.fromHost hf, congrArg Flow.toHost hf⟩
  have hdr : ∀ {t r}, (context "dial host daemon" (dial .host)).Runs t r →
      recvd .host t = [] ∧ sent .host t = [] := fun h => by
    obtain ⟨r', hr', -⟩ := (Comp.runs_mapStop _ _).mp h
    have hf := flow_dial hr'
    exact ⟨congrArg Flow.fromHost hf, congrArg Flow.toHost hf⟩
  rcases (Comp.runs_bind _).mp h with ⟨⟨⟩, t₁, u, rfl, h₁, h⟩ | ⟨s, -, h₁⟩
  swap
  · exact .inl ((hmr h₁).2 ▸ List.nil_prefix)
  rcases (Comp.runs_bind _).mp h with ⟨⟨⟩, t₂, u, rfl, h₂, h⟩ | ⟨s, -, h₂⟩
  swap
  · left
    rw [sent_append, (hmr h₁).2, (hdr h₂).2]
    exact List.nil_prefix
  simp only [recvd_append, sent_append, (hmr h₁).1, (hmr h₁).2, (hdr h₂).1, (hdr h₂).2,
    List.nil_append]
  rcases (Comp.runs_bind _).mp h with ⟨n, t₃, u, rfl, h₃, h⟩ | ⟨s, -, h₃⟩
  swap
  · obtain ⟨s', h₃, -⟩ := (Comp.runs_mapStop_error _ _).mp h₃
    rcases upstream_stopped h₃ with h₃ | h₃
    · exact .inl h₃
    · exact .inr (.inl h₃)
  replace h₃ := (Comp.runs_mapStop_ok _ _).mp h₃
  have hd := downstream_converses .guest n
  have hu₄ : Only (fun e => reads .guest e ∨ puts .guest e) u := by
    rcases (Comp.runs_bind _).mp h with ⟨⟨⟩, t₄, t₅, rfl, h₄, h₅⟩ | ⟨s, -, h₄⟩
    · cases ((Comp.runs_pure _ _).mp h₅).2
    · exact hd.acts.mapStop.mapStop _ _ h₄
  refine .inr (.inr ⟨n, _, _, hu.sound h₃, ?_, ?_⟩)
  · rw [recvd_append, recvd_other (x := .host) hu₄ (by decide), List.append_nil]
  · rw [sent_append, sent_other (x := .host) hu₄ (by decide), List.append_nil]

theorem greeting_silent (fuel : Nat) : Silent .host (greeting fuel) := by
  rw [greeting_eq]
  exact (header_copies.silent (by decide)).bind fun _ =>
    (relay_silent true fuel).mapStop.bind fun _ => flush_silent .host .guest

/-- What the host has been sent when the opening gives up behind the handshakes. -/
theorem postHandshake_stopped {t : IoTrace} {s : Stop} (h : postHandshake.Runs t (.error s)) :
    ∃ a z, clientFormat a z ∧ sent .host t <+: z := by
  rcases (Comp.runs_bind _).mp h with ⟨a, t₁, t₂, rfl, h₁, h₂⟩ | ⟨s, -, h₁⟩
  · replace h₁ := (Comp.runs_mapStop_ok _ _).mp ((Comp.runs_mapStop_ok _ _).mp h₁)
    obtain ⟨hz, hs⟩ := clientFields_copies.sound h₁
    refine ⟨a, _, hz, ?_⟩
    rw [sent_append, (flush_silent .host .host).sent_nil h₂, List.append_nil, hs]
  · obtain ⟨s', h₁, -⟩ := (Comp.runs_mapStop_error _ _).mp h₁
    obtain ⟨s'', h₁, -⟩ := (Comp.runs_mapStop_error _ _).mp h₁
    exact clientFields_extends _ _ h₁

/-- How far an opening that fails has come with the host. -/
theorem opening_stopped {setup : Setup} {t : IoTrace} {s : Stop}
    (h : (opening setup).Runs t (.error s)) :
    sent .host t <+: hostHello ∨
      (∃ word, Accepted word ∧ featureExchange ≤ min (Version.fromWire word) ourVersion ∧
        le64 workerMagic2 ++ le64 word <+: recvd .host t ∧
        sent .host t <+: hostHello ++ encStringList setup.advertised) ∨
      ∃ n x y a z, UpstreamTalk setup.advertised n x y ∧ x <+: recvd .host t ∧
        clientFormat a z ∧ sent .host t <+: y ++ z := by
  obtain ⟨a₀, z₀, hz₀⟩ := clientFormat_inhabited
  rcases (Comp.runs_bind _).mp h with ⟨n, t₁, u, rfl, h₁, h⟩ | ⟨s, -, h₁⟩
  swap
  · rcases handshakes_stopped h₁ with h | h | ⟨n, x, y, hu, rfl, rfl⟩
    · exact .inl h
    · exact .inr (.inl h)
    · exact .inr (.inr ⟨n, _, _, a₀, z₀, hu, List.prefix_rfl, hz₀, List.prefix_append ..⟩)
  right
  right
  obtain ⟨x, y, v, w, hu, -, hf⟩ := handshakes_ok h₁
  have hx : recvd .host t₁ = x := congrArg Flow.fromHost hf
  have hy : sent .host t₁ = y := congrArg Flow.toHost hf
  simp only [recvd_append, sent_append, hx, hy]
  rcases (Comp.runs_bind _).mp h with ⟨⟨⟩, t₂, u, rfl, h₂, h⟩ | ⟨s, -, h₂⟩
  swap
  · obtain ⟨a, z, hz, hs⟩ := postHandshake_stopped h₂
    exact ⟨n, x, y, a, z, hu, List.prefix_append .., hz, (List.prefix_append_right_inj _).mpr hs⟩
  obtain ⟨a, z, hz, hf₂⟩ := postHandshake_ok h₂
  have hz₂ : sent .host t₂ = z := congrArg Flow.toHost hf₂
  have hs : sent .host u = [] := by
    rcases (Comp.runs_bind _).mp h with ⟨⟨⟩, t₃, t₄, rfl, h₃, h₄⟩ | ⟨s, -, h₃⟩
    · cases ((Comp.runs_pure _ _).mp h₄).2
    · exact (greeting_silent _).sent_nil h₃
  refine ⟨n, x, y, a, z, hu, List.prefix_append .., hz, ?_⟩
  rw [sent_append, hz₂, hs, List.append_nil]

/-! ### The session -/

/-- What the host is sent in a session that has negotiated `n`: the hello, the feature list
if the version has one, the client fields, and requests. -/
def hostScript (advertised : List Bytes) (n : Negotiated) (fields : Bytes) (rs : List Request) :
    Bytes :=
  hostHello ++ exchanged n.version advertised ++ fields ++ rs.flatMap Request.encode

/-- `sent` is the beginning of the script of a session, of the one that the host has
negotiated as far as it has said so; and a daemon reads nothing but its requests out of it. -/
structure HostGrammar (advertised : List Bytes) (received sent : Bytes) (n : Negotiated)
    (fields : Bytes) (rs : List Request) : Prop where
  whole : ∃ a, clientFormat a fields
  requests : ∀ r ∈ rs, r.Relayable n.realisationWithPath
  script : sent <+: hostScript advertised n fields rs
  version : hostHello.length < sent.length → ∃ word, Accepted word ∧
    n.version = min (Version.fromWire word) ourVersion ∧
    le64 workerMagic2 ++ le64 word <+: received
  negotiated : (hostHello ++ exchanged n.version advertised).length < sent.length →
    ∃ x, UpstreamTalk advertised n x (hostHello ++ exchanged n.version advertised) ∧ x <+: received
  daemon : ∀ (d : Daemon n.realisationWithPath) (a : UInt64) (fields' : Bytes)
    (ws : List (UInt64 × Bytes)), clientFormat a fields' → (∀ q ∈ ws, d.completes q.1 q.2) →
    hostHello ++ exchanged n.version advertised ++ fields' ++
      ws.flatMap (fun q => le64 q.1 ++ q.2) <+: sent →
    ∃ rs' : List Request, (∀ r ∈ rs', r.Relayable n.realisationWithPath) ∧
      ws = rs'.map fun r => (r.op.word, r.args)

/-- Behind the prelude a daemon reads nothing but the requests of the script. -/
theorem daemon_reads {advertised : List Bytes} {sent fields : Bytes} {n : Negotiated}
    {rs : List Request} (hf : ∃ a, clientFormat a fields)
    (hr : ∀ r ∈ rs, r.Relayable n.realisationWithPath)
    (hs : sent <+: hostScript advertised n fields rs) (d : Daemon n.realisationWithPath)
    (a : UInt64) (fields' : Bytes) (ws : List (UInt64 × Bytes)) (ha : clientFormat a fields')
    (hws : ∀ q ∈ ws, d.completes q.1 q.2)
    (h : hostHello ++ exchanged n.version advertised ++ fields' ++
      ws.flatMap (fun q => le64 q.1 ++ q.2) <+: sent) :
    ∃ rs' : List Request, (∀ r ∈ rs', r.Relayable n.realisationWithPath) ∧
      ws = rs'.map fun r => (r.op.word, r.args) := by
  have h' := h.trans hs
  rw [hostScript, List.append_assoc, List.append_assoc _ fields] at h'
  replace h' := (List.prefix_append_right_inj _).mp h'
  obtain ⟨b, hb⟩ := hf
  obtain ⟨u, hu⟩ := h'
  rw [List.append_assoc] at hu
  obtain ⟨-, rfl, he⟩ := clientFields_copies.unambiguous ha hb hu
  obtain ⟨rs', hp, rfl⟩ := d.reads_script hws hr ⟨u, he⟩
  exact ⟨rs', fun r hr' => hr r (hp.subset hr'), rfl⟩

/-- The grammar apart from what a daemon makes of it. -/
structure HostPrefix (advertised : List Bytes) (received sent : Bytes) (n : Negotiated)
    (fields : Bytes) (rs : List Request) : Prop where
  whole : ∃ a, clientFormat a fields
  requests : ∀ r ∈ rs, r.Relayable n.realisationWithPath
  script : sent <+: hostScript advertised n fields rs
  version : hostHello.length < sent.length → ∃ word, Accepted word ∧
    n.version = min (Version.fromWire word) ourVersion ∧
    le64 workerMagic2 ++ le64 word <+: received
  negotiated : (hostHello ++ exchanged n.version advertised).length < sent.length →
    ∃ x, UpstreamTalk advertised n x (hostHello ++ exchanged n.version advertised) ∧ x <+: received

theorem hostPrefix_of {advertised : List Bytes} {received sent fields x : Bytes}
    {n : Negotiated} {rs : List Request} (hf : ∃ a, clientFormat a fields)
    (hu : UpstreamTalk advertised n x (hostHello ++ exchanged n.version advertised))
    (hx : x <+: received) (hr : ∀ r ∈ rs, r.Relayable n.realisationWithPath)
    (hs : sent <+: hostScript advertised n fields rs) :
    HostPrefix advertised received sent n fields rs where
  whole := hf
  requests := hr
  script := hs
  version := fun _ => by
    obtain ⟨word, ha, hv, hw⟩ := hu.word
    exact ⟨word, ha, hv, hw.trans hx⟩
  negotiated := fun _ => ⟨x, hu, hx⟩

theorem run_hostPrefix {setup : Setup} {t : IoTrace} {r : Except Stop Unit}
    (h : (run setup).Runs t r) :
    ∃ n fields rs, HostPrefix setup.advertised (recvd .host t) (sent .host t) n fields rs := by
  obtain ⟨a₀, z₀, hz₀⟩ := clientFormat_inhabited
  rw [run_eq] at h
  rcases (Comp.runs_bind _).mp h with ⟨n, t₀, u, rfl, h₀, h₁⟩ | ⟨s, -, h₀⟩
  · obtain ⟨t₁, t₂, rfl, hh, ⟨a, z, b, g, reply, hz, -, -, hf₂⟩⟩ := opening_ok h₀
    obtain ⟨x, y, v, w, hu, -, hf₁⟩ := handshakes_ok hh
    obtain rfl := hu.hello
    have hx : recvd .host t₁ = x := congrArg Flow.fromHost hf₁
    have hs : sent .host (t₁ ++ t₂) = hostHello ++ exchanged n.version setup.advertised ++ z := by
      rw [sent_append, show sent .host t₁ = _ from congrArg Flow.toHost hf₁,
        show sent .host t₂ = z from congrArg Flow.toHost hf₂]
    obtain ⟨rs, hrs, hp⟩ : Scripted n.realisationWithPath (sent .host u) := by
      have hl := ledger.runs (opLoop_script setup.fuel) (Script.nil _) h₁ fun _ _ => trivial
      rw [List.nil_append] at hl
      cases r with
      | ok v => exact Script.scripted hl
      | error e => exact hl
    obtain ⟨rs, hrs, rfl⟩ := hrs
    refine ⟨n, z, rs, hostPrefix_of ⟨a, hz⟩ hu ?_ hrs ?_⟩
    · rw [recvd_append, recvd_append, hx, List.append_assoc]
      exact List.prefix_append ..
    · rw [sent_append, hs]
      exact (List.prefix_append_right_inj _).mpr hp
  · rcases opening_stopped h₀ with hs | ⟨word, ha, hv, hx, hs⟩ | ⟨n, x, y, a, z, hu, hx, hz, hs⟩
    · have hl := hs.length_le
      have hp : sent .host t <+: hostScript setup.advertised ⟨ourVersion, .empty⟩ z₀ [] := by
        rw [hostScript, List.append_assoc, List.append_assoc]
        exact hs.trans (List.prefix_append ..)
      refine ⟨⟨ourVersion, .empty⟩, z₀, [], ⟨a₀, hz₀⟩, by simp, hp, fun hn => ?_, fun hn => ?_⟩
      · omega
      · rw [List.length_append] at hn
        omega
    · have he : exchanged (min (Version.fromWire word) ourVersion) setup.advertised =
          encStringList setup.advertised := if_pos hv
      have hl := hs.length_le
      have hp : sent .host t <+: hostScript setup.advertised
          ⟨min (Version.fromWire word) ourVersion, .empty⟩ z₀ [] := by
        rw [hostScript, he, List.append_assoc]
        exact hs.trans (List.prefix_append ..)
      refine ⟨⟨min (Version.fromWire word) ourVersion, .empty⟩, z₀, [], ⟨a₀, hz₀⟩, by simp, hp,
        fun _ => ⟨word, ha, rfl, hx⟩, fun hn => ?_⟩
      rw [he] at hn
      omega
    · obtain rfl := hu.hello
      refine ⟨n, z, [], hostPrefix_of ⟨a, hz⟩ hu hx (by simp) ?_⟩
      rw [hostScript, List.flatMap_nil, List.append_nil]
      exact hs

/-- Wherever a session stops, the host has been sent the beginning of its script. -/
theorem run_hostGrammar {setup : Setup} {t : IoTrace} {r : Except Stop Unit}
    (h : (run setup).Runs t r) :
    ∃ n fields rs, HostGrammar setup.advertised (recvd .host t) (sent .host t) n fields rs := by
  obtain ⟨n, fields, rs, hp⟩ := run_hostPrefix h
  exact ⟨n, fields, rs, hp.whole, hp.requests, hp.script, hp.version, hp.negotiated,
    daemon_reads hp.whole hp.requests hp.script⟩

/-- A session that returns. -/
theorem run_hostGrammar_sample :
    sampleFilled.value.toBool = true ∧ ∃ n fields rs, HostGrammar sampleSetup.advertised
      (recvd .host sampleFilled.trace) (sent .host sampleFilled.trace) n fields rs :=
  ⟨by decide +kernel, run_hostGrammar sampleFilled_runs⟩

end Claudepod
