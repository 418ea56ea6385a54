import Claudepod.Framing
import Claudepod.Verdict

/-! Where a session that fails leaves the guest: behind whole messages and whole replies, with
nothing more, with one error of the proxy's own, or within a result the host did not finish. -/

set_option autoImplicit false

namespace Claudepod
open Interaction

/-- The proxy's own parser takes the payload as the host's, and the relay passes it on as it is. -/
structure ErrorPayload.Passes (e : ErrorPayload) : Prop where
  parsed : ∀ y en, ∃ t,
    (readErrorPayload .host).exec World.step (feeding .host (e.encode ++ y) en) =
      ⟨t, .ok e, feeding .host y en⟩
  relayed : ∀ fuel y en, ∃ t, sent .guest t = (Message.error e).encode ∧
    (relay (fuel + 1) .host .guest).exec World.step
      (feeding .host ((Message.error e).encode ++ y) en) = ⟨t, .ok .error, feeding .host y en⟩

/-- What the guest is sent at the end of the trace, behind whole messages. -/
inductive LeftOff (n : Negotiated) : IoTrace → Bytes → Prop
  | nothing {t : IoTrace} : LeftOff n t []
  | refused {t : IoTrace} {text : String} : (syntheticError text).Passes →
      LeftOff n t (Message.error (syntheticError text)).encode
  /-- The host's bytes for a result do not start with one. -/
  | result {t u : IoTrace} {op : Op} {s : Stop} :
      (copyResult op n .host .guest).Runs u (.error s) → sent .guest u <+: recvd .host u →
      (∀ x, resultFormat op n.realisationWithPath () x → ¬ x <+: recvd .host u) →
      LeftOff n (t ++ u) (le64 stderrLast ++ sent .guest u)

/-- Log messages and what is left behind them. -/
def Trails (n : Negotiated) (t : IoTrace) : Prop :=
  ∃ logs tail, Logs logs ∧ LeftOff n t tail ∧ sent .guest t = encMessages logs ++ tail

/-- What the guest has been sent behind the daemon's introduction. -/
inductive Aligned (n : Negotiated) (t : IoTrace) : Prop
  | greeting : Trails n t → Aligned n t
  | ops {t₁ t₂ : IoTrace} {greeting : Reply} {replies : List (Op × Reply)} :
      t = t₁ ++ t₂ → greeting.Bare → (∀ q ∈ replies, q.2.Valid q.1 n.realisationWithPath) →
      sent .guest t₁ = greeting.encode ++ replies.flatMap (fun q => q.2.encode) → Trails n t₂ →
      Aligned n t

/-- The guest takes whatever it is sent. -/
def Taken (t : IoTrace) : Prop := Only (fun e => puts .guest e → clean e) t

theorem taken_append {t u : IoTrace} : Taken (t ++ u) ↔ Taken t ∧ Taken u := only_append

theorem syntheticError_passes {text : String} (h : text.utf8ByteSize ≤ 2048) :
    (syntheticError text).Passes where
  parsed y en := by
    have hd := readErrorPayload_decodes .host
    obtain ⟨t, ht, hc, hr⟩ := hd.complete ⟨syntheticError_valid h, rfl⟩
    refine ⟨t, Comp.exec_eq ht ?_⟩
    rw [← hr]
    exact follows_feeding (d := .guest) ((hd.only ht).mono fun _ => .inl) hc y en
  relayed fuel y en := by
    have hm : (Message.error (syntheticError text)).Valid := syntheticError_valid h
    have hnil : Logs [] := by simp [Logs]
    obtain ⟨t, hc, hr, hs, hrun⟩ := @relayInner_complete .host .guest true [] _ .error hnil hm rfl
    have ht := hrun (fuel + 1) (Nat.succ_pos _)
    rw [encMessages_nil] at hr hs
    refine ⟨t, hs, Comp.exec_eq ht ?_⟩
    rw [← hr]
    exact follows_feeding (relayInner_runs ht).only hc y en

/-! ### Programs that trail off -/

section Programs

variable {α β : Type} {n : Negotiated} {p : Async α} {f : α → Async β}

theorem Trails.of_nil {t : IoTrace} (h : sent .guest t = []) : Trails n t :=
  ⟨[], [], by simp [Logs], .nothing, by rw [h]; rfl⟩

theorem LeftOff.behind {t u : IoTrace} {x : Bytes} (h : LeftOff n u x) : LeftOff n (t ++ u) x := by
  cases h with
  | nothing => exact .nothing
  | refused h => exact .refused h
  | result h hs hn =>
    rw [← List.append_assoc]
    exact .result h hs hn

theorem Trails.behind {t u : IoTrace} (ht : sent .guest t = []) (h : Trails n u) :
    Trails n (t ++ u) := by
  obtain ⟨logs, tail, hl, hx, hs⟩ := h
  exact ⟨logs, tail, hl, hx.behind, by rw [sent_append, ht, hs, List.nil_append]⟩

/-- Wherever the program fails, the guest has been sent log messages and a tail. -/
def TrailsOff (n : Negotiated) (p : Async α) : Prop :=
  ∀ t s, p.Runs t (.error s) → Taken t → Trails n t

/-- The program fails only where the guest does not take what it is sent. -/
def Reliable (p : Async α) : Prop := ∀ t s, p.Runs t (.error s) → ¬ Taken t

/-- The program sends the guest nothing if it returns. -/
def Mute (p : Async α) : Prop := ∀ t a, p.Runs t (.ok a) → sent .guest t = []

theorem reliable_of_emits {a : α} {x : Bytes} (h : Emits .guest p a x) : Reliable p :=
  fun _ _ hr ht => (h.stopped hr).2 fun e he => ht e he (h.only hr e he)

theorem mute_of_silent (h : Silent .guest p) : Mute p := fun _ _ hr => h.sent_nil hr

namespace TrailsOff

theorem of_silent (h : Silent .guest p) : TrailsOff n p := fun _ _ hr _ => .of_nil (h.sent_nil hr)

theorem of_reliable (h : Reliable p) : TrailsOff n p := fun t s hr ht => absurd ht (h t s hr)

theorem mapStop {g : Stop → Stop} (h : TrailsOff n p) : TrailsOff n (p.mapStop g) := by
  intro t s hr ht
  obtain ⟨s', hr, -⟩ := (Comp.runs_mapStop_error _ _).mp hr
  exact h t s' hr ht

theorem bind (hp : TrailsOff n p) (hm : Mute p) (hf : ∀ a, TrailsOff n (f a)) :
    TrailsOff n (p >>= f) := by
  intro t s hr ht
  rcases (Comp.runs_bind _).mp hr with ⟨a, t₁, t₂, rfl, h₁, h₂⟩ | ⟨s', -, h₁⟩
  · exact .behind (hm t₁ a h₁) (hf a t₂ s h₂ (taken_append.mp ht).2)
  · exact hp t s' h₁ ht

/-- The last word is the guest's own failure. -/
theorem bind_reliable (hp : TrailsOff n p) (hf : ∀ a, Reliable (f a)) : TrailsOff n (p >>= f) := by
  intro t s hr ht
  rcases (Comp.runs_bind _).mp hr with ⟨a, t₁, t₂, rfl, h₁, h₂⟩ | ⟨s', -, h₁⟩
  · exact absurd (taken_append.mp ht).2 (hf a t₂ s h₂)
  · exact hp t s' h₁ ht

end TrailsOff

theorem orSyntheticError_trailsOff {name : String} (hp : Comp.StopsIn Stop.Terse p)
    (hn : name.utf8ByteSize ≤ 900) (hs : Silent .guest p) :
    TrailsOff n (orSyntheticError name p) := by
  intro t s hr ht
  rcases orSyntheticError_runs hp hn hr with ⟨a, ha, -⟩ | ⟨s', -, h⟩
  · cases ha
  obtain ⟨t₁, t₂, s₁, text, rfl, h₁, hsize, -, -, hall⟩ := h.split
  refine .behind (hs.sent_nil h₁)
    ⟨[], _, by simp [Logs], .refused (syntheticError_passes hsize), ?_⟩
  rw [hall (taken_append.mp ht).2, encMessages_nil]

theorem orSyntheticError_mute {name : String} (hp : Comp.StopsIn Stop.Terse p)
    (hn : name.utf8ByteSize ≤ 900) (hs : Silent .guest p) : Mute (orSyntheticError name p) := by
  intro t a hr
  rcases orSyntheticError_runs hp hn hr with ⟨b, -, h⟩ | ⟨s, ha, -⟩
  · exact hs.sent_nil h
  · cases ha

theorem relayInner_trailsOff (forwardLast : Bool) (fuel : Nat) :
    TrailsOff n (relayInner .host .guest forwardLast fuel) := by
  intro t s hr ht
  obtain ⟨logs, tail, hl, hs, rfl | ⟨m, err, hv, rfl⟩⟩ := (relayInner_runs hr).error ht
  · exact ⟨logs, [], hl, .nothing, hs⟩
  · have hsize := Nat.le_trans (Message.violation_size hv) (by decide : 1024 ≤ 2048)
    exact ⟨logs, _, hl, .refused (syntheticError_passes hsize), hs⟩

end Programs

/-! ### The branches of the loop -/

section Branches

variable {setup : Setup} {n : Negotiated}

/-- Behind `STDERR_LAST`, a result that fails is cut short. -/
theorem relayReply_trailsOff (fuel : Nat) (op : Op) : TrailsOff n (relayReply fuel op n) := by
  intro t s hr ht
  rcases (Comp.runs_bind _).mp hr with ⟨term, t₁, t₂, rfl, h₁, h₂⟩ | ⟨s', -, h₁⟩
  swap
  · exact (relayInner_trailsOff true fuel).mapStop t s' h₁ ht
  obtain ⟨logs, m, hl, -, hm, -, hs⟩ := (relayInner_runs ((Comp.runs_mapStop_ok _ _).mp h₁)).ok
  rcases terminal_cases hm with ⟨rfl, rfl⟩ | ⟨e, rfl, rfl⟩
  · rw [if_pos rfl] at h₂
    obtain ⟨s', h₂, -⟩ := (Comp.runs_mapStop_error _ _).mp h₂
    refine ⟨logs, _, hl, .result h₂ ((copyResult_copies op n .host .guest).stopped h₂) fun x hx =>
      copyResult_rejects h₂ (taken_append.mp ht).2 hx, ?_⟩
    rw [sent_append, hs, List.append_assoc]
    rfl
  · cases ((Comp.runs_pure _ _).mp h₂).2

theorem relayArgs_trailsOff (op : Op) (dest : Leg) (h : dest ≠ .guest) :
    TrailsOff n (relayArgs op n dest) ∧ Mute (relayArgs op n dest) := by
  have hs := (copyArgs_copies op n .guest dest).silent h.symm
  exact ⟨orSyntheticError_trailsOff (copyArgs_terse op n .guest dest) (opName_size op) hs,
    orSyntheticError_mute (copyArgs_terse op n .guest dest) (opName_size op) hs⟩

theorem writeHost_silent (w : UInt64) : Silent .guest (writeU64 .host w) :=
  (writeU64_emits .host w).silent (by decide)

theorem poseIsValidPath_trailsOff (fuel : Nat) : TrailsOff n (poseIsValidPath fuel) := by
  have hs := copyPath_copies.silent (x := .guest) (by decide)
  have hf : Silent .guest (flush .host) := flush_silent .guest .host
  unfold poseIsValidPath
  rw [relayIsValidPathArgs_eq]
  refine (orSyntheticError_trailsOff copyPath_terse (by decide) hs).bind
    (orSyntheticError_mute copyPath_terse (by decide) hs) fun path =>
    (TrailsOff.of_silent hf).bind (mute_of_silent hf) fun _ => ?_
  intro t s hr ht
  rcases (Comp.runs_bind _).mp hr with ⟨term, t₁, t₂, rfl, h₁, h₂⟩ | ⟨s', -, h₁⟩
  swap
  · exact (relayInner_trailsOff false fuel).mapStop t s' h₁ ht
  obtain ⟨logs, m, hl, -, hm, -, hsent⟩ := (relayInner_runs ((Comp.runs_mapStop_ok _ _).mp h₁)).ok
  rcases terminal_cases hm with ⟨rfl, rfl⟩ | ⟨e, rfl, rfl⟩
  · -- The host's word does not come, and `STDERR_LAST` was held back.
    have hw : sent .guest t₂ = [] :=
      Silent.sent_nil (((readU64_decodes .host).silent .guest).mapStop.bind fun _ => .pure _) h₂
    refine ⟨logs, [], hl, .nothing, ?_⟩
    rw [sent_append, hw, hsent, List.append_nil]
    rfl
  · cases ((Comp.runs_pure _ _).mp h₂).2

theorem interceptIsValidPath_trailsOff : TrailsOff n (interceptIsValidPath setup) := by
  rw [interceptIsValidPath_eq]
  intro t s hr ht
  rcases (Comp.runs_bind _).mp hr with ⟨⟨path, answer⟩, t₁, t₂, rfl, h₁, h₂⟩ | ⟨s', -, h₁⟩
  swap
  · exact poseIsValidPath_trailsOff setup.fuel t s' h₁ ht
  obtain ⟨-, hp⟩ := poseIsValidPath_ok h₁
  cases hp with
  | refused hl he hf => cases ((Comp.runs_pure _ _).mp h₂).2
  | @answered t₁ logs w hl hf =>
    have hs : sent .guest t₁ = encMessages logs := congrArg Flow.toGuest hf
    rcases (Comp.runs_bind _).mp h₂ with ⟨valid, t₃, t₄, rfl, h₃, h₄⟩ | ⟨s', -, h₃⟩
    · have ht' := (taken_append.mp (taken_append.mp ht).2).2
      exact absurd ht' (reliable_of_emits (writeIsValidPathResult_emits valid) t₄ s h₄)
    · refine ⟨logs, [], hl, .nothing, ?_⟩
      rw [sent_append, hs, (judgeIsValidPath_silent setup path w).sent_nil h₃]

theorem rejectedOp_size (word : UInt64) : (rejectedOp word).utf8ByteSize ≤ 2048 := by
  have hname : (opName word).utf8ByteSize ≤ 30 := by
    unfold opName
    split <;> decide
  have hword := decimal_size word
  have h₁ : "rejected op ".utf8ByteSize = 12 := by decide
  have h₂ : " (".utf8ByteSize = 2 := by decide
  have h₃ : "): not in the read-only allowlist".utf8ByteSize = 33 := by decide
  show ("rejected op " ++ opName word ++ " (" ++ toString word ++
    "): not in the read-only allowlist").utf8ByteSize ≤ 2048
  simp only [String.utf8ByteSize_append]
  omega

theorem serveOp_trailsOff (word : UInt64) : TrailsOff n (serveOp setup n word) := by
  have hflush : Reliable (flush .guest) := reliable_of_emits (flush_emits .guest)
  cases ho : Op.allowed word with
  | none =>
    rw [serveOp_rejected ho]
    intro t s hr ht
    have hw := writeError_emits .guest (rejectedOp word)
    rcases (Comp.runs_bind _).mp hr with ⟨⟨⟩, t₁, t₂, rfl, h₁, h₂⟩ | ⟨s', -, h₁⟩
    · obtain ⟨rfl, -⟩ := (Comp.runs_throw _ _).mp h₂
      rw [List.append_nil]
      refine ⟨[], _, by simp [Logs], .refused (syntheticError_passes (rejectedOp_size word)), ?_⟩
      rw [encMessages_nil]
      exact (hw.sound h₁).2
    · exact absurd ht (reliable_of_emits hw t s' h₁)
  | some op =>
    obtain rfl := Op.word_of_allowed ho
    by_cases hs : op = .setOptions
    · subst hs
      obtain ⟨ha, hm⟩ := relayArgs_trailsOff (n := n) .setOptions .sink (by decide)
      rw [serveOp_swallowed]
      exact ha.bind hm fun _ => .of_reliable
        (reliable_of_emits ((writeU64_emits .guest _).andThen (flush_emits .guest)))
    have hword := writeHost_silent op.word
    by_cases hv : op = .isValidPath
    · subst hv
      rw [serveOp_intercepted]
      exact (TrailsOff.of_silent hword).bind (mute_of_silent hword) fun _ =>
        interceptIsValidPath_trailsOff.bind_reliable fun _ => hflush
    · obtain ⟨ha, hm⟩ := relayArgs_trailsOff (n := n) op .host (by decide)
      have hf : Silent .guest (flush .host) := flush_silent .guest .host
      rw [serveOp_relayed hs hv]
      exact (TrailsOff.of_silent hword).bind (mute_of_silent hword) fun _ => ha.bind hm fun _ =>
        (TrailsOff.of_silent hf).bind (mute_of_silent hf) fun _ =>
        (relayReply_trailsOff setup.fuel op).bind_reliable fun _ => hflush

end Branches

/-! ### The session -/

section Session

variable {setup : Setup} {n : Negotiated}

/-- What the guest is sent for a request is one whole reply to it. -/
theorem Legal.reply {withPath : Bool} {may : Bytes → Bool} {x : Exchange}
    (h : Legal withPath may x) :
    ∃ reply : Reply, reply.Valid x.request.op withPath ∧ x.toGuest = reply.encode := by
  cases h with
  | swallowed ho _ => exact ⟨.last [] [], ⟨by simp [Logs], by rw [ho]; exact ⟨rfl, rfl⟩⟩, rfl⟩
  | @relayed r reply _ _ _ hr => exact ⟨reply, hr, rfl⟩
  | @refused path logs e _ hl he => exact ⟨.error logs e, ⟨hl, he⟩, rfl⟩
  | @decided path logs w again fill valid _ hl _ =>
    exact ⟨_, @Reply.valid_word _ withPath _ _ rfl hl, rfl⟩

theorem Turn.Of.sent_trace {x : Turn} (h : x.Of setup n) :
    sent .guest x.trace = sent .guest x.serving := by
  rw [Turn.trace, sent_append, sent_of_reads (readU64OrEof_runs h.read).1, List.nil_append]

theorem Turn.Of.replied {x : Turn} (h : x.Of setup n) (hr : x.result = .ok ()) :
    ∃ q : Op × Reply, q.2.Valid q.1 n.realisationWithPath ∧ q.1.word = x.word ∧
      sent .guest x.trace = q.2.encode := by
  have hs := h.serve
  rw [hr] at hs
  obtain ⟨y, hl, hw, hy⟩ := serveOp_ok hs
  obtain ⟨reply, hv, he⟩ := hl.reply
  refine ⟨(y.request.op, reply), hv, hw, ?_⟩
  rw [h.sent_trace, ← he]
  exact congrArg Flow.toGuest hy.bytes

/-- A loop that fails has sent whole replies and then trailed off. -/
theorem Looped.trails {turns : List Turn} {rest : IoTrace} {r : Except Stop Unit}
    (h : Looped setup n turns rest r) {s : Stop} (hr : r = .error s)
    (ht : Taken (turnsTrace turns ++ rest)) :
    ∃ (replies : List (Op × Reply)) (t₁ t₂ : IoTrace), turnsTrace turns ++ rest = t₁ ++ t₂ ∧
      (∀ q ∈ replies, q.2.Valid q.1 n.realisationWithPath) ∧
      sent .guest t₁ = replies.flatMap (fun q => q.2.encode) ∧ Trails n t₂ := by
  induction h with
  | exhausted => exact ⟨[], [], [], rfl, by simp, rfl, .of_nil rfl⟩
  | hangup h => cases hr
  | @unread t s' h =>
    exact ⟨[], [], t, rfl, by simp, rfl, .of_nil (sent_of_reads (readU64OrEof_runs h).1)⟩
  | @cut x s' hx hs =>
    have hserve := hx.serve
    rw [hs] at hserve
    refine ⟨[], [], x.trace, by simp [turnsTrace], by simp, rfl, ?_⟩
    have ht' : Taken x.trace := by simpa [turnsTrace] using ht
    exact .behind (sent_of_reads (readU64OrEof_runs hx.read).1)
      (serveOp_trailsOff x.word _ s' hserve (taken_append.mp ht').2)
  | @turn x xs t r hx hok _ ih =>
    have he : turnsTrace (x :: xs) ++ t = x.trace ++ (turnsTrace xs ++ t) := by simp [turnsTrace]
    rw [he] at ht ⊢
    obtain ⟨replies, t₁, t₂, h₁₂, hv, hs, htr⟩ := ih hr (taken_append.mp ht).2
    obtain ⟨q, hq, -, hqs⟩ := hx.replied hok
    refine ⟨q :: replies, x.trace ++ t₁, t₂, by rw [h₁₂, List.append_assoc], ?_, ?_, htr⟩
    · rw [List.forall_mem_cons]
      exact ⟨hq, hv⟩
    · rw [sent_append, hqs, hs, List.flatMap_cons]

theorem greet_trailsOff (fuel : Nat) : TrailsOff n (greet fuel) :=
  (relayInner_trailsOff true fuel).mapStop.bind_reliable fun _ =>
    reliable_of_emits (flush_emits .guest)

/-- Wherever a session fails, the guest is at the end of a message or of a reply, has been told
of the failure there, or is within a result that the host has not finished. -/
theorem guest_aligned {t : IoTrace} {s : Stop} (h : (run setup).Runs t (.error s))
    (ht : Only (fun e => puts .guest e → clean e) t) :
    (introduction setup).Runs t (.error s) ∨
      ∃ n t₀ t₁, t = t₀ ++ t₁ ∧ (introduction setup).Runs t₀ (.ok n) ∧ Aligned n t₁ := by
  have hopen : ∀ {t r}, (opening setup).Runs t r → Only (fun e => puts .guest e → clean e) t →
      (∃ s, r = .error s ∧ ((introduction setup).Runs t (.error s) ∨
        ∃ n t₀ t₁, t = t₀ ++ t₁ ∧ (introduction setup).Runs t₀ (.ok n) ∧ Trails n t₁)) ∨
      ∃ n t₀ t₁ greeting, r = .ok n ∧ t = t₀ ++ t₁ ∧ (introduction setup).Runs t₀ (.ok n) ∧
        Reply.Bare greeting ∧ sent .guest t₁ = greeting.encode := by
    intro t r h ht
    rw [opening_eq] at h
    rcases (Comp.runs_bind _).mp h with ⟨n, t₀, t₁, rfl, h₀, h₁⟩ | ⟨s, rfl, h₀⟩
    swap
    · exact .inl ⟨s, rfl, .inl h₀⟩
    rcases (Comp.runs_bind _).mp h₁ with ⟨⟨⟩, t₂, t₃, rfl, h₂, h₃⟩ | ⟨s, rfl, h₂⟩
    · obtain ⟨rfl, rfl⟩ := (Comp.runs_pure _ _).mp h₃
      obtain ⟨greeting, hg, hf⟩ := greet_ok h₂
      refine .inr ⟨n, t₀, t₂ ++ [], greeting, rfl, rfl, h₀, hg, ?_⟩
      rw [List.append_nil]
      exact congrArg Flow.toGuest hf
    · exact .inl ⟨s, rfl, .inr ⟨n, t₀, t₁, rfl, h₀,
        greet_trailsOff setup.fuel t₁ s h₂ (taken_append.mp ht).2⟩⟩
  rcases run_runs h with ⟨s', hs, h₀⟩ | ⟨n, u, turns, rest, rfl, h₀, hl⟩
  · obtain rfl := Except.error.inj hs
    rcases hopen h₀ ht with ⟨s', hs, h | ⟨n, t₀, t₁, rfl, h₀, h₁⟩⟩ | ⟨n, _, _, _, hn, -⟩
    · exact .inl (Except.error.inj hs ▸ h)
    · exact .inr ⟨n, t₀, t₁, rfl, h₀, .greeting h₁⟩
    · cases hn
  · rcases hopen h₀ (taken_append.mp ht).1 with
      ⟨s', hs, -⟩ | ⟨n', t₀, t₁, greeting, hn, rfl, h₀, hg, hs⟩
    · cases hs
    obtain rfl := Except.ok.inj hn
    obtain ⟨replies, t₂, t₃, h₂₃, hv, hr, htr⟩ := hl.trails rfl (taken_append.mp ht).2
    refine .inr ⟨n, t₀, t₁ ++ (turnsTrace turns ++ rest), List.append_assoc .., h₀, ?_⟩
    refine @Aligned.ops n _ (t₁ ++ t₂) t₃ greeting replies ?_ hg hv ?_ htr
    · rw [h₂₃, List.append_assoc]
    · rw [sent_append, hs, hr]

end Session

/-- The guest asks for an op that is not allowed. -/
def rejectedSample :
    Outcome (Resp Leg IoError Error) (Except Stop Unit) (World Leg IoError Error) :=
  (run sampleSetup).exec World.step (sessionWorld (guestSample [] ++ le64 7) (hostSample []) [])

theorem rejectedSample_value :
    rejectedSample.value = .error (.failed (.msg (rejectedOp 7))) := by decide +kernel

theorem rejectedSample_runs :
    (run sampleSetup).Runs rejectedSample.trace (.error (.failed (.msg (rejectedOp 7)))) := by
  rw [← rejectedSample_value]
  exact Comp.exec_runs ..

theorem rejectedSample_taken : Taken rejectedSample.trace :=
  follows_generous (sessionWorld_generous _ _ _) (Comp.exec_follows ..) .guest

theorem guest_aligned_sample :
    (introduction sampleSetup).Runs rejectedSample.trace
        (.error (.failed (.msg (rejectedOp 7)))) ∨
      ∃ n t₀ t₁, rejectedSample.trace = t₀ ++ t₁ ∧ (introduction sampleSetup).Runs t₀ (.ok n) ∧
        Aligned n t₁ :=
  guest_aligned rejectedSample_runs rejectedSample_taken

end Claudepod
