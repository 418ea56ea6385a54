import Claudepod.Opening
import Claudepod.Progress

/-! Without a manifest, and as long as the guest sets no options and the host answers
`IsValidPath` with 0 or 1, a session behind its handshakes is a pipe. -/

set_option autoImplicit false

namespace Claudepod
open Interaction

theorem Reply.Bare.valid {q : Reply} {withPath : Bool} (h : q.Bare) :
    q.Valid .setOptions withPath := by
  cases q with
  | error logs e => exact h
  | last logs result => exact ⟨h.1, rfl, h.2⟩

/-! ### What the two sides send -/

/-- The word behind `STDERR_LAST`, if there is one, is 0 or 1. -/
def Reply.Binary (q : Reply) : Prop :=
  ∀ logs result, q = .last logs result → result = le64 0 ∨ result = le64 1

/-- What a guest and a host say once the handshakes are through. -/
structure Dialogue where
  fields : Bytes
  introduction : Bytes
  greeting : Reply
  ops : List (Request × Reply)

namespace Dialogue

def guest (d : Dialogue) : Bytes := d.fields ++ d.ops.flatMap fun q => q.1.encode

def host (d : Dialogue) : Bytes :=
  d.introduction ++ (d.greeting.encode ++ d.ops.flatMap fun q => q.2.encode)

/-- Well formed, without `SetOptions`, and with every answer to `IsValidPath` 0 or 1. -/
structure Plain (withPath : Bool) (d : Dialogue) : Prop where
  fields : ∃ a, clientFormat a d.fields
  introduction : headerFormat () d.introduction
  greeting : d.greeting.Bare
  requests : ∀ q ∈ d.ops, q.1.op ≠ .setOptions ∧ q.1.Valid withPath
  replies : ∀ q ∈ d.ops, q.2.Valid q.1.op withPath ∧ (q.1.op = .isValidPath → q.2.Binary)

end Dialogue

/-- What was sent on is what was received, both ways. -/
def Pipe (f : Flow) : Prop := f.toHost = f.fromGuest ∧ f.toGuest = f.fromHost

/-! ### One exchange -/

theorem Legal.request_valid {withPath : Bool} {may : Bytes → Bool} {e : Exchange}
    (h : Legal withPath may e) : e.request.Valid withPath := by
  cases h with
  | swallowed _ hr => exact hr
  | relayed _ _ hr _ => exact hr
  | refused hr _ _ => exact hr
  | decided hr _ _ => exact hr

/-- Without a manifest an exchange is the guest's request and the host's reply to it, and the
guest is sent that reply if it is binary. -/
theorem Legal.plain {withPath : Bool} {e : Exchange} (h : Legal withPath (fun _ => false) e)
    (hs : e.request.op ≠ .setOptions) :
    ∃ reply : Reply, reply.Valid e.request.op withPath ∧ e.toHost = e.request.encode ∧
      e.fromHost = reply.encode ∧ e.fill = none ∧
      ((e.request.op = .isValidPath → reply.Binary) → e.toGuest = reply.encode) := by
  cases h with
  | swallowed ho _ => exact absurd ho hs
  | @relayed r reply _ _ hr hq =>
    exact ⟨reply, hq, List.append_nil _, List.append_nil _, rfl, fun _ => rfl⟩
  | @refused path logs e hr hl he =>
    exact ⟨.error logs e, ⟨hl, he⟩, List.append_nil _, List.append_nil _, rfl, fun _ => rfl⟩
  | @decided path logs w again fill valid hr hl hd =>
    have hq : (Reply.last logs (le64 w)).Valid .isValidPath withPath := Reply.valid_word rfl hl
    cases hd with
    | valid hw =>
      refine ⟨_, hq, List.append_nil _, List.append_nil _, rfl, fun hb => ?_⟩
      rcases hb rfl logs (le64 w) rfl with h0 | h1
      · exact absurd (le64_injective h0) hw
      · show (Reply.last logs (le64 1)).encode = (Reply.last logs (le64 w)).encode
        rw [h1]
    | unfillable _ => exact ⟨_, hq, List.append_nil _, List.append_nil _, rfl, fun _ => rfl⟩
    | fillFailed hm => cases hm
    | refilled hm _ _ => cases hm
    | stillInvalid hm _ => cases hm
    | recheckFailed hm _ _ => cases hm

/-- Exchanges over plain streams are a pipe. -/
theorem pipe_of_plain {n : Negotiated} {ops : List (Request × Reply)} {xs : List Exchange}
    {u v : Bytes} (hxs : ∀ e ∈ xs, Legal n.realisationWithPath (fun _ => false) e)
    (hr : ∀ q ∈ ops, q.1.op ≠ .setOptions ∧ q.1.Valid n.realisationWithPath)
    (hq : ∀ q ∈ ops, q.2.Valid q.1.op n.realisationWithPath ∧
      (q.1.op = .isValidPath → q.2.Binary))
    (hg : xs.flatMap (fun e => e.request.encode) <+: ops.flatMap fun q => q.1.encode)
    (hh : xs.flatMap Exchange.fromHost ++ u = ops.flatMap (fun q => q.2.encode) ++ v) :
    xs.flatMap Exchange.toHost = xs.flatMap (fun e => e.request.encode) ∧
      xs.flatMap Exchange.toGuest = xs.flatMap Exchange.fromHost := by
  induction xs generalizing ops u v with
  | nil => exact ⟨rfl, rfl⟩
  | cons e xs ih =>
    obtain ⟨he, hxs⟩ := List.forall_mem_cons.mp hxs
    cases ops with
    | nil =>
      have hl := hg.length_le
      simp [Request.encode] at hl
    | cons q ops =>
      obtain ⟨⟨hs, hv⟩, hr⟩ := List.forall_mem_cons.mp hr
      obtain ⟨⟨hv', hb⟩, hq⟩ := List.forall_mem_cons.mp hq
      obtain ⟨z, hz⟩ := hg
      rw [List.flatMap_cons, List.flatMap_cons, List.append_assoc] at hz
      obtain ⟨ho, -, hz⟩ := request_unambiguous he.request_valid hv hz
      rw [← ho] at hs hv' hb
      obtain ⟨reply, hreply, hto, hfrom, -, hguest⟩ := he.plain hs
      rw [List.flatMap_cons, List.flatMap_cons, hfrom, List.append_assoc, List.append_assoc] at hh
      obtain ⟨rfl, hh'⟩ := reply_unambiguous hreply hv' hh
      obtain ⟨ih₁, ih₂⟩ := ih hxs hr hq ⟨z, hz⟩ hh'
      simp only [List.flatMap_cons, ih₁, ih₂, hto, hfrom, hguest hb]
      exact ⟨trivial, trivial⟩

/-! ### The interception and the generic path -/

/-- With enough fuel the program can return, and have moved these bytes. -/
def Serves (p : Nat → Async Unit) (f : Flow) : Prop :=
  ∃ k, ∀ fuel, k ≤ fuel → ∃ t, (p fuel).Runs t (.ok ()) ∧ flow t = f

/-- The host's bytes are no answer to `IsValidPath` other than 0 and 1. -/
def BinaryAnswer (x : Bytes) : Prop :=
  ∀ q withPath, Reply.Valid .isValidPath withPath q → x = q.encode → q.Binary

/-- An `IsValidPath` and its reply, passed on as they are. -/
def PassesPath (f : Flow) : Prop :=
  ∃ (path : Bytes) (q : Reply), path.length ≤ maxGuestString.toNat ∧
    (∀ withPath, q.Valid .isValidPath withPath) ∧
    f = ⟨encString path, (Request.isValidPath path).encode, q.encode, q.encode, []⟩

section Paths

variable {setup : Setup} {n : Negotiated} {f : Flow}

theorem valid_isValidPath {q : Reply} {withPath : Bool} (h : q.Valid .isValidPath withPath)
    (withPath' : Bool) : q.Valid .isValidPath withPath' := by
  cases q with
  | error logs e => exact h
  | last logs result => exact h

theorem fillable_none (hm : setup.nixRunRoots = none) :
    fillable setup.nixRunRoots = fun _ => false := by
  funext path
  rw [fillable, hm]
  rfl

theorem serves_generic :
    Serves (fun fuel => relayOp fuel .isValidPath n) f ↔ PassesPath f := by
  constructor
  · intro ⟨k, hk⟩
    obtain ⟨t, ht, rfl⟩ := hk k (Nat.le_refl _)
    obtain ⟨r, q, hr, hv, hq, hf⟩ := relayOp_ok ht
    cases r with
    | isValidPath path => exact ⟨path, q, hv, valid_isValidPath hq, hf⟩
    | _ => cases hr
  · intro ⟨path, q, hl, hq, hf⟩
    obtain ⟨t, u, ht, hu, hrun⟩ := relayOp_complete (n := n) (r := .isValidPath path)
      (show (Request.isValidPath path).Valid _ from hl) (hq _)
    refine ⟨q.logs.length + 1, fun fuel hk => ⟨t ++ u, hrun fuel hk, ?_⟩⟩
    rw [flow_append, ht.flow, hu.flow, hf, Flow.append_answer, isValidPath_args]

theorem passesPath_of_intercepted (hm : setup.nixRunRoots = none) {t : IoTrace}
    (h : (serveOp setup n Op.isValidPath.word).Runs t (.ok ()))
    (hb : BinaryAnswer (flow t).fromHost) : PassesPath (flow t) := by
  obtain ⟨x, hx, ho, hs⟩ := intercepted_ok h
  rw [fillable_none hm] at hx
  have hne : x.request.op ≠ .setOptions := by
    rw [ho]
    decide
  obtain ⟨q, hq, hto, hfrom, hfill, hguest⟩ := hx.plain hne
  have hv := hx.request_valid
  have hf := hs.bytes
  rw [hs.idle hfill, hto, hfrom] at hf
  have hbin : q.Binary := by
    rw [ho] at hq
    exact hb q _ hq (by rw [hf])
  rw [hguest fun _ => hbin] at hf
  cases hr : x.request with
  | isValidPath path =>
    rw [hr] at hf hv hq
    exact ⟨path, q, hv, valid_isValidPath hq, hf⟩
  | _ => rw [hr] at ho; cases ho

/-- The answer to a path that is not filled is the host's own. -/
theorem judge_plain (hm : setup.nixRunRoots = none) {path : Bytes} {valid : Bool} :
    (judgeIsValidPath setup path (if valid then 1 else 0)).Runs [] (.ok valid) := by
  unfold judgeIsValidPath
  cases valid with
  | true =>
    rw [if_pos (by decide)]
    exact ⟨rfl, rfl⟩
  | false =>
    rw [if_neg (by decide), if_pos (by rw [fillable_none hm]; exact Bool.false_ne_true)]
    exact ⟨rfl, rfl⟩

theorem intercepted_of_passesPath (hm : setup.nixRunRoots = none) (hf : PassesPath f)
    (hb : BinaryAnswer f.fromHost) :
    ∃ t, flow t = f ∧ ∃ k, ∀ fuel, k ≤ fuel →
      (serveOp { setup with fuel := fuel } n Op.isValidPath.word).Runs t (.ok ()) := by
  obtain ⟨path, q, hl, hq, rfl⟩ := hf
  obtain ⟨t, ht, hat⟩ := askPath_complete hl
  cases q with
  | error logs e =>
    obtain ⟨hlogs, he⟩ := hq true
    obtain ⟨u, hu, hrun⟩ := hearPath_refused path hlogs he
    obtain ⟨v, hv, hc⟩ := hu.then_flush
    refine ⟨t ++ (u ++ v), ?_, logs.length + 1, fun fuel hk => ?_⟩
    · rw [flow_append, hat.flow, Answering.flow hc, Flow.append_answer]
    · rw [serveOp_path]
      refine ht.bind ((hrun fuel hk).bind ?_)
      show (pure () >>= fun _ => flush .guest : Async Unit).Runs v (.ok ())
      rw [pure_bind]
      exact hv
  | last logs result =>
    obtain ⟨hlogs, w, -, rfl⟩ := hq true
    obtain ⟨valid, rfl⟩ : ∃ valid : Bool, w = if valid then 1 else 0 := by
      rcases hb _ true (hq true) rfl logs (le64 w) rfl with h | h
      · exact ⟨false, by simpa using le64_injective h⟩
      · exact ⟨true, by simpa using le64_injective h⟩
    obtain ⟨u, hu, hrun⟩ := hearPath_answered path (if valid then 1 else 0) hlogs
    obtain ⟨v, hv, hc⟩ := tell_complete valid
    refine ⟨t ++ (u ++ v), ?_, logs.length + 1, fun fuel hk => ?_⟩
    · have hc' : Answering (Reply.last logs (validWord valid)).encode
          (Reply.last logs (validWord valid)).encode (u ++ v) := by
        have := hu.append hv
        rwa [List.append_nil] at this
      rw [flow_append, hat.flow, Answering.flow hc', Flow.append_answer]
      rfl
    · rw [serveOp_path]
      have hj : (judgeIsValidPath { setup with fuel := fuel } path
          (if valid then 1 else 0)).Runs [] (.ok valid) :=
        @judge_plain { setup with fuel := fuel } hm path valid
      refine ht.bind ((hrun fuel hk).bind ?_)
      show (((judgeIsValidPath { setup with fuel := fuel } path (if valid then 1 else 0)) >>=
        fun valid => writeIsValidPathResult valid) >>= fun _ => flush .guest).Runs v (.ok ())
      rw [bind_assoc]
      exact hj.bind hc

/-- Without a manifest the interception moves the bytes the generic path moves. -/
theorem serves_intercepted (hm : setup.nixRunRoots = none) (hb : BinaryAnswer f.fromHost) :
    Serves (fun fuel => serveOp { setup with fuel := fuel } n Op.isValidPath.word) f ↔
      PassesPath f := by
  constructor
  · intro ⟨k, hk⟩
    obtain ⟨t, ht, rfl⟩ := hk k (Nat.le_refl _)
    exact @passesPath_of_intercepted { setup with fuel := k } n hm t ht hb
  · intro hf
    obtain ⟨t, ht, k, hrun⟩ := intercepted_of_passesPath (n := n) hm hf hb
    exact ⟨k, fun fuel hk => ⟨t, hrun fuel hk, ht⟩⟩

end Paths

/-- A session that returns, without a manifest. -/
theorem run_transparent {setup : Setup} {t : IoTrace} (hm : setup.nixRunRoots = none)
    (h : (run setup).Runs t (.ok ())) :
    ∃ n t₀ t₁, t = t₀ ++ t₁ ∧ (handshakes setup.advertised).Runs t₀ (.ok n) ∧
      ∀ d x, Dialogue.Plain n.realisationWithPath d → recvd .guest t₁ <+: d.guest →
        recvd .host t₁ <+: d.host ++ x → Pipe (flow t₁) := by
  rcases run_runs h with ⟨s, hs, -⟩ | ⟨n, t₀, turns, rest, rfl, h₀, hl⟩
  · cases hs
  obtain ⟨t₁, t₂, rfl, hh, ⟨a, z, b, g, reply, hz, hg, hreply, hf⟩⟩ := opening_ok h₀
  obtain ⟨xs, hxs, hf'⟩ := hl.exchanges rfl
  rw [fillable_none hm] at hxs
  refine ⟨n, t₁, t₂ ++ (turnsTrace turns ++ rest), List.append_assoc .., hh,
    fun d x hd hguest hhost => ?_⟩
  have hflow : flow (t₂ ++ (turnsTrace turns ++ rest)) =
      ⟨z ++ xs.flatMap (fun e => e.request.encode), z ++ xs.flatMap Exchange.toHost,
        g ++ reply.encode ++ xs.flatMap Exchange.fromHost,
        g ++ reply.encode ++ xs.flatMap Exchange.toGuest,
        asks (turnsTrace turns ++ rest)⟩ := by
    rw [flow_append, hf, hf', exchangesFlow, Flow.append_mk, List.nil_append]
  have hg₁ : recvd .guest (t₂ ++ (turnsTrace turns ++ rest)) =
      z ++ xs.flatMap fun e => e.request.encode := congrArg Flow.fromGuest hflow
  have hh₁ : recvd .host (t₂ ++ (turnsTrace turns ++ rest)) =
      g ++ reply.encode ++ xs.flatMap Exchange.fromHost := congrArg Flow.fromHost hflow
  rw [hg₁] at hguest
  rw [hh₁] at hhost
  obtain ⟨y, hguest⟩ := hguest
  obtain ⟨w, hhost⟩ := hhost
  obtain ⟨a', hz'⟩ := hd.fields
  rw [Dialogue.guest, List.append_assoc] at hguest
  obtain ⟨-, -, hguest⟩ := clientFields_copies.unambiguous hz hz' hguest
  rw [Dialogue.host] at hhost
  simp only [List.append_assoc] at hhost
  obtain ⟨-, -, hhost⟩ := header_copies.unambiguous hg hd.introduction hhost
  obtain ⟨-, hhost⟩ := reply_unambiguous (n := n) (hreply.valid) hd.greeting.valid hhost
  obtain ⟨h₁, h₂⟩ := pipe_of_plain hxs hd.requests hd.replies ⟨y, hguest⟩ hhost
  rw [hflow]
  exact ⟨congrArg _ h₁, congrArg _ h₂⟩

/-- Without a manifest every session that returns is a pipe behind its handshakes, whatever a
guest without `SetOptions` and a host with binary answers have said; and the interception of
`IsValidPath` cannot be told from the generic path. -/
theorem session_transparent {setup : Setup} (hm : setup.nixRunRoots = none) :
    (∀ t, (run setup).Runs t (.ok ()) → ∃ n t₀ t₁, t = t₀ ++ t₁ ∧
      (handshakes setup.advertised).Runs t₀ (.ok n) ∧
      ∀ d x, Dialogue.Plain n.realisationWithPath d → recvd .guest t₁ <+: d.guest →
        recvd .host t₁ <+: d.host ++ x →
        sent .host t₁ = recvd .guest t₁ ∧ sent .guest t₁ = recvd .host t₁) ∧
      ∀ n f, BinaryAnswer f.fromHost →
        (Serves (fun fuel => serveOp { setup with fuel := fuel } n Op.isValidPath.word) f ↔
          Serves (fun fuel => relayOp fuel .isValidPath n) f) :=
  ⟨fun _ => run_transparent hm, fun _ _ hb => (serves_intercepted hm hb).trans serves_generic.symm⟩

/-- A path is asked for, and then its referrers, without a manifest. -/
def plainSample : Outcome (Resp Leg IoError Error) (Except Stop Unit) (World Leg IoError Error) :=
  sampleRun (hookSetup none 8) [.isValidPath samplePath, .queryReferrers samplePath]
    [.last [] (le64 1), .last [] (le64 0)] []

theorem session_transparent_sample :
    (plainSample.value = .ok () ∧ ∃ n t₀ t₁, plainSample.trace = t₀ ++ t₁ ∧
      (handshakes ourFeatures).Runs t₀ (.ok n) ∧
      ∀ d x, Dialogue.Plain n.realisationWithPath d → recvd .guest t₁ <+: d.guest →
        recvd .host t₁ <+: d.host ++ x →
        sent .host t₁ = recvd .guest t₁ ∧ sent .guest t₁ = recvd .host t₁) ∧
      ∀ n f, BinaryAnswer f.fromHost →
        (Serves (fun fuel => serveOp { hookSetup none 8 with fuel := fuel } n
            Op.isValidPath.word) f ↔
          Serves (fun fuel => relayOp fuel .isValidPath n) f) := by
  have hv : plainSample.value = .ok () := by
    have h : plainSample.value.toBool = true := by decide +kernel
    cases hr : plainSample.value with
    | ok _ => rfl
    | error s => rw [hr] at h; cases h
  have hrun : (run (hookSetup none 8)).Runs plainSample.trace (.ok ()) := by
    rw [← hv]
    exact sampleRun_runs ..
  have h := @session_transparent (hookSetup none 8) rfl
  exact ⟨⟨hv, h.1 _ hrun⟩, h.2⟩

end Claudepod
