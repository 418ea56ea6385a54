import Claudepod.Buffers
import Claudepod.Partners
import Claudepod.Progress

/-! Among a guest that asks and hangs up and a host that answers every request it gets, a
session is one exchange after the other, each settled by the host's replies and the fills. -/

set_option autoImplicit false

namespace Claudepod
open Interaction

/-! ### What the session should come to -/

/-- A host's reply to a request, given the requests it has had before. -/
abbrev Strategy := List Request → Request → Reply

/-- What a host says to one request after the other. -/
def transcript (host : Strategy) : List Request → List Request → Bytes
  | _, [] => []
  | before, r :: rs => (host before r).encode ++ transcript host (before ++ [r]) rs

theorem transcript_append (host : Strategy) (before rs rs' : List Request) :
    transcript host before (rs ++ rs') =
      transcript host before rs ++ transcript host (before ++ rs) rs' := by
  induction rs generalizing before with
  | nil => simp [transcript]
  | cons r rs ih => simp [transcript, ih]

/-- The reply is a word that is not 0. -/
def Reply.confirms : Reply → Bool
  | .error _ _ => false
  | .last _ result => result ≠ le64 0

/-- What a path counts as, what the host was asked and said again, and how a fill went if
there was one. -/
structure Judgement where
  valid : Bool
  again : List Reply
  fill : Option (Except Error Unit)

/-- The judgement over a host's result, if a fill asked for meanwhile goes as `fill` says. -/
def judgementOf (may : Bytes → Bool) (host : Strategy) (before : List Request)
    (fill : Except Error Unit) (path result : Bytes) : Judgement :=
  if result ≠ le64 0 then ⟨true, [], none⟩
  else if ¬ may path then ⟨false, [], none⟩
  else
    match fill with
    | .error e => ⟨false, [], some (.error e)⟩
    | .ok () =>
      let again := host (before ++ [.isValidPath path]) (.isValidPath path)
      ⟨again.confirms, [again], some (.ok ())⟩

/-- The exchange a request leads to. -/
def exchangeOf (may : Bytes → Bool) (host : Strategy) (before : List Request)
    (fill : Except Error Unit) (r : Request) : Exchange :=
  match r, host before r with
  | .setOptions scalars overrides, _ => ⟨.setOptions scalars overrides, le64 stderrLast, [], none⟩
  | .isValidPath path, .last logs result =>
    let j := judgementOf may host before fill path result
    ⟨.isValidPath path, (Reply.last logs (validWord j.valid)).encode,
      (.last logs result :: j.again).map (Prod.mk (.isValidPath path)), j.fill⟩
  | r, reply => ⟨r, reply.encode, [(r, reply)], none⟩

/-- The requests put to the host. -/
def Exchange.asked (x : Exchange) : List Request := x.withHost.map Prod.fst

def answerOf : Except Error Unit → Answer Error
  | .ok () => .granted
  | .error e => .denied e

/-- The fill a judgement has asked for, and how it went. -/
def Judgement.fills (path : Bytes) (j : Judgement) : List (Bytes × Answer Error) :=
  j.fill.toList.map fun o => (path, answerOf o)

/-- The fill that was asked for, and how it went. -/
def Exchange.fills (x : Exchange) : List (Bytes × Answer Error) :=
  match x.request, x.fill with
  | .isValidPath path, some o => [(path, answerOf o)]
  | _, _ => []

/-- The exchanges of a session, whose fills go one by one as `fills` says. -/
def exchangesOf (may : Bytes → Bool) (host : Strategy) (fills : Nat → Except Error Unit) :
    List Request → Nat → List Request → List Exchange
  | _, _, [] => []
  | before, i, r :: rs =>
    let x := exchangeOf may host before (fills i) r
    x :: exchangesOf may host fills (before ++ x.asked) (i + x.fills.length) rs

/-! ### The partners of a session -/

/-- A guest that sends `guest` and hangs up, and a host that has said `host x` once it was
delivered `x`. -/
def partners (guest : Bytes) (host : Bytes → Bytes) (fills : Nat → Except Error Unit) :
    Partners Leg IoError Error where
  said
    | .guest, _ => guest
    | .host, x => host x
    | _, _ => []
  ending c := if c = .guest then .eof else .fault .silent
  hook i := answerOf (fills i)

/-- Behind `x`, for which it has said `y`, the host answers every request, as `reply` says. -/
structure Obeys (host : Bytes → Bytes) (reply : Strategy) (withPath : Bool) (x y : Bytes) :
    Prop where
  valid : ∀ before r, r.op ≠ .setOptions → r.Valid withPath →
    (reply before r).Valid r.op withPath
  replies : ∀ rs, (∀ r ∈ rs, r.op ≠ .setOptions ∧ r.Valid withPath) →
    host (x ++ rs.flatMap Request.encode) = y ++ transcript reply [] rs

/-- Between two ops: the host has had the requests `ws` and every reply to them has been read,
`i` fills were asked for, and the guest goes on with `rest`. -/
structure Settled (guest : Bytes) (reply : Strategy) (withPath : Bool) (x y : Bytes)
    (h : IoTrace) (ws : List Request) (i : Nat) (rest : Bytes) : Prop where
  guest : guest = recvd .guest h ++ rest
  flushed : held .host [] h = []
  sent : sent .host h = x ++ ws.flatMap Request.encode
  recvd : recvd .host h = y ++ transcript reply [] ws
  fills : (asks h).length = i
  asked : ∀ r ∈ ws, r.op ≠ .setOptions ∧ r.Valid withPath

section Settled

variable {guest x y : Bytes} {host : Bytes → Bytes} {fills : Nat → Except Error Unit}
  {reply : Strategy} {withPath : Bool} {h t u : IoTrace} {ws : List Request} {i j : Nat}
  {a b rest : Bytes}

theorem Settled.append (news : List Request)
    (hs : Settled guest reply withPath x y h ws i (a ++ rest))
    (hg : Interaction.recvd .guest t = a) (hh : held .host [] t = [])
    (hsent : Interaction.sent .host t = news.flatMap Request.encode)
    (hrecv : Interaction.recvd .host t = transcript reply ws news)
    (hj : (Interaction.asks t).length = j)
    (hn : ∀ r ∈ news, r.op ≠ .setOptions ∧ r.Valid withPath) :
    Settled guest reply withPath x y (h ++ t) (ws ++ news) (i + j) rest where
  guest := by rw [hs.guest, recvd_append, hg, List.append_assoc]
  flushed := by rw [held_append, hs.flushed, hh]
  sent := by rw [sent_append, hs.sent, hsent, List.flatMap_append, List.append_assoc]
  recvd := by
    rw [recvd_append, hs.recvd, hrecv, transcript_append, List.nil_append, List.append_assoc]
  fills := by rw [asks_append, List.length_append, hs.fills, hj]
  asked r hr := (List.mem_append.mp hr).elim (hs.asked r) (hn r)

/-- A stretch that concerns neither the host nor a fill. -/
theorem Settled.aside (hs : Settled guest reply withPath x y h ws i (a ++ rest))
    (hg : Interaction.recvd .guest t = a) (hh : held .host [] t = [])
    (hsent : Interaction.sent .host t = []) (hrecv : Interaction.recvd .host t = [])
    (ha : Interaction.asks t = []) : Settled guest reply withPath x y (h ++ t) ws i rest := by
  have := hs.append [] (j := 0) hg hh hsent hrecv (by rw [ha]; rfl) (by simp)
  rwa [List.append_nil] at this

/-- Everything the host has said so far was read. -/
theorem Settled.said (hs : Settled guest reply withPath x y h ws i rest)
    (ho : Obeys host reply withPath x y) :
    (partners guest host fills).said .host (delivered .host h) = Interaction.recvd .host h := by
  rw [delivered_of_flushed hs.flushed, hs.sent, hs.recvd]
  exact ho.replies ws hs.asked

theorem not_puts_of_carries {c d z : Leg} {t : IoTrace} (h : Carries c d a b t) (hz : d ≠ z) :
    Only (fun e => ¬ puts z e) t := h.only.mono fun e he hp => by
  rcases he with hr | hd
  · exact not_puts_of_readsFrom (readsFrom_of_reads hr) hp
  · exact hz (puts_eq hd hp).symm

theorem asks_of_carries {c d : Leg} {t : IoTrace} (h : Carries c d a b t) :
    Interaction.asks t = [] := asks_eq_nil (h.only.mono fun _ => onWire_of_reads_or_puts)

/-- The guest is told something. -/
theorem Settled.tell (hs : Settled guest reply withPath x y h ws i rest)
    (ho : Obeys host reply withPath x y) (ht : Answering [] b t) :
    (partners guest host fills).Goes h t ∧ Settled guest reply withPath x y (h ++ t) ws i rest := by
  refine ⟨Partners.goes_of_carries (z := []) (by decide) ht ?_, hs.aside (a := []) ?_ ?_ ?_
    ht.recvd (asks_of_carries ht)⟩
  · rw [hs.said ho, List.append_nil, List.append_nil]
  · exact recvd_other ht.only (by decide)
  · exact held_of_only (not_puts_of_carries ht (by decide))
  · exact sent_other ht.only (by decide)

/-- The guest is heard out. -/
theorem Settled.swallow (hs : Settled guest reply withPath x y h ws i (a ++ rest))
    (ht : Carries .guest .sink a a t) :
    (partners guest host fills).Goes h t ∧ Settled guest reply withPath x y (h ++ t) ws i rest :=
  ⟨Partners.goes_of_carries (by decide) ht hs.guest, hs.aside ht.recvd
    (held_of_only (not_puts_of_carries ht (by decide))) (sent_other ht.only (by decide))
    (recvd_other ht.only (by decide)) (asks_of_carries ht)⟩

/-- The host is asked, and what it replies is read. -/
theorem Settled.ask {r : Request} (hs : Settled guest reply withPath x y h ws i (a ++ rest))
    (ho : Obeys host reply withPath x y) (hr : r.op ≠ .setOptions ∧ r.Valid withPath)
    (ht : Posing a r.encode t) (hu : Answering (reply ws r).encode b u) :
    (partners guest host fills).Goes h (t ++ u) ∧
      Settled guest reply withPath x y (h ++ (t ++ u)) (ws ++ [r]) i rest := by
  have hheld : held .host [] (t ++ u) = [] := by
    rw [held_append, ht.flushed, held_of_only (not_puts_of_carries hu (by decide))]
  have hsettled : Settled guest reply withPath x y (h ++ (t ++ u)) (ws ++ [r]) i rest := by
    refine hs.append [r] (j := 0) ?_ hheld ?_ ?_ ?_ (by simpa using hr)
    · rw [recvd_append, ht.carries.recvd, recvd_other hu.only (by decide), List.append_nil]
    · rw [sent_append, ht.carries.sent, sent_other hu.only (by decide), List.append_nil,
        List.flatMap_singleton]
    · rw [recvd_append, recvd_other ht.carries.only (by decide), hu.recvd, List.nil_append,
        transcript, transcript, List.append_nil]
    · rw [asks_append, asks_of_carries ht.carries, asks_of_carries hu]
      rfl
  refine ⟨(Partners.goes_of_carries (by decide) ht.carries hs.guest).append
    (Partners.goes_of_carries (z := []) (by decide) hu ?_), hsettled⟩
  -- Behind the flush the host has the whole request.
  have hflush : held .host [] (h ++ t) = [] := by rw [held_append, hs.flushed, ht.flushed]
  have hreplies := ho.replies (ws ++ [r]) hsettled.asked
  rw [delivered_of_flushed hflush, sent_append, hs.sent, ht.carries.sent, recvd_append, hs.recvd,
    recvd_other ht.carries.only (by decide)]
  rw [List.flatMap_append, List.flatMap_singleton, transcript_append, transcript, transcript,
    List.nil_append] at hreplies
  simpa [partners] using hreplies

/-- A fill is asked for. -/
theorem Settled.fill (hs : Settled guest reply withPath x y h ws i rest) (path : Bytes) :
    (partners guest host fills).Goes h [⟨.ask path, answerOf (fills i)⟩] ∧
      Settled guest reply withPath x y (h ++ [⟨.ask path, answerOf (fills i)⟩]) ws (i + 1)
        rest := by
  refine ⟨Partners.goes_cons ?_ Partners.goes_nil, ?_⟩
  · show answerOf (fills (asks h).length) = answerOf (fills i)
    rw [hs.fills]
  · have := hs.append (a := []) (t := [⟨.ask path, answerOf (fills i)⟩]) [] (j := 1)
      rfl rfl rfl rfl rfl (by simp)
    rwa [List.append_nil] at this

theorem Settled.note (hs : Settled guest reply withPath x y h ws i rest) (text : String) :
    (partners guest host fills).Goes h [⟨.note text, ()⟩] ∧
      Settled guest reply withPath x y (h ++ [⟨.note text, ()⟩]) ws i rest :=
  ⟨Partners.goes_cons rfl Partners.goes_nil, hs.aside (a := []) rfl rfl rfl rfl rfl⟩

/-- The next op word is read. -/
theorem Settled.word {word : UInt64}
    (hs : Settled guest reply withPath x y h ws i (le64 word ++ rest)) :
    ∃ t, (readU64OrEof .guest).Runs t (.ok (some word)) ∧
      (partners guest host fills).Goes h t ∧
      Settled guest reply withPath x y (h ++ t) ws i rest ∧
      flow t = ⟨le64 word, [], [], [], []⟩ := by
  have hr : Interaction.recvd .guest
      ([⟨.readSome .guest 8, .some (le64 word) (le64_pos word)
        (Nat.le_of_eq (le64_length word))⟩] : IoTrace) = le64 word := by
    simp [recvd_cons, eventRecvd, Chunk.bytes]
  refine ⟨_, readU64OrEof_some .guest word, Partners.goes_cons ?_ Partners.goes_nil,
    hs.aside hr rfl rfl rfl rfl, ?_⟩
  · exact Partners.answer_readSome _ (by simp) (Partners.ahead_eq hs.guest)
  · rw [flow, hr]
    rfl

/-- Behind its last byte the guest has hung up. -/
theorem Settled.hangup (hs : Settled guest reply withPath x y h ws i []) :
    (partners guest host fills).Goes h [⟨.readSome .guest 8, .ended .eof⟩] := by
  refine Partners.goes_cons ?_ Partners.goes_nil
  have ha : (partners guest host fills).ahead h .guest = [] := Partners.ahead_eq hs.guest
  show (partners guest host fills).answer (.readSome .guest 8) h = .ended .eof
  simp only [Partners.answer, ha, List.take_nil, List.length_nil, Nat.lt_irrefl, ↓reduceDIte]
  rfl

/-! ### Serving one op -/

variable {roots : Option NixRunRoots} {n : Negotiated}

theorem attempt_anyFill (path : Bytes) (o : Except Error Unit) :
    (attempt (anyFill path)).Runs [⟨.ask path, answerOf o⟩] (.ok o) := by
  cases o with
  | ok _ => exact (Comp.runs_attempt _ _).mpr (.inl ⟨(), ⟨.granted, [], rfl, rfl, rfl⟩, rfl⟩)
  | error e =>
    exact (Comp.runs_attempt _ _).mpr
      (.inr (.inl ⟨.failed e, e, ⟨.denied e, [], rfl, rfl, rfl⟩, rfl, rfl⟩))

theorem warn_runs (path : Bytes) (reason : String) (b : Bool) :
    ∃ text, (warnOnDemandFill path reason >>= fun _ => pure b : Async Bool).Runs
      [⟨.note text, ()⟩] (.ok b) := by
  refine ⟨s!"claudepod-nix-proxy: warning: on-demand fill for {display path}: " ++ reason, ?_⟩
  rw [← List.append_nil [_]]
  exact Comp.Runs.bind ((Comp.runs_perform _ _).mpr ⟨(), rfl, rfl⟩) ⟨rfl, rfl⟩

theorem path_forwarded (path : Bytes) : (Request.isValidPath path).op ≠ .setOptions := nofun

theorem confirms_last (logs : List Message) (w : UInt64) :
    (Reply.last logs (le64 w)).confirms = decide (w ≠ 0) := by
  have hw : le64 w ≠ le64 0 ↔ w ≠ 0 := not_congr ⟨le64_injective, congrArg _⟩
  simp only [Reply.confirms, hw]

/-- What follows a fill that succeeded. -/
def concludePath (fuel : Nat) (path : Bytes) : Async Bool := do
  match ← recheckIsValidPath fuel path with
  | .valid => pure true
  | .invalid => do
    warnOnDemandFill path "re-check still invalid"
    pure false
  | .daemonError message => do
    warnOnDemandFill path s!"re-check failed: {message}"
    pure false

/-- The host's second reply decides. -/
theorem conclude_settles (fills : Nat → Except Error Unit) (path : Bytes)
    (hs : Settled guest reply withPath x y h ws i rest)
    (ho : Obeys host reply withPath x y) (hl : path.length ≤ maxGuestString.toNat) :
    ∃ t m, (∀ fuel, m ≤ fuel →
        (concludePath fuel path).Runs t (.ok (reply ws (.isValidPath path)).confirms)) ∧
      (partners guest host fills).Goes h t ∧
      Settled guest reply withPath x y (h ++ t) (ws ++ [.isValidPath path]) i rest ∧
      flow t = ⟨[], (Request.isValidPath path).encode, (reply ws (.isValidPath path)).encode, [],
        []⟩ := by
  have hv : (Request.isValidPath path).Valid withPath := hl
  have hvalid := ho.valid ws _ (path_forwarded path) hv
  obtain ⟨t₁, h₁, hask⟩ := askAgain_complete path
  obtain ⟨t₂, again, hc₂, hr, hrun⟩ := hearAgain_complete hvalid
  have hs₁ : (partners guest host fills).Goes h (t₁ ++ t₂) ∧ _ :=
    Settled.ask (a := []) hs ho ⟨path_forwarded path, hv⟩ hask hc₂
  have hf : flow (t₁ ++ t₂) = ⟨[], (Request.isValidPath path).encode,
      (reply ws (.isValidPath path)).encode, [], []⟩ := by
    rw [flow_append, hask.flow, Answering.flow hc₂, Flow.append_answer]
  have hrecheck : ∀ fuel, (reply ws (.isValidPath path)).logs.length < fuel →
      (recheckIsValidPath fuel path).Runs (t₁ ++ t₂) (.ok again) := fun fuel hk => by
    rw [recheckIsValidPath_eq]
    exact h₁.bind (hrun fuel hk)
  -- A note at the end of the trace.
  have hnoted : ∀ text, (partners guest host fills).Goes h (t₁ ++ t₂ ++ [⟨.note text, ()⟩]) ∧
      Settled guest reply withPath x y (h ++ (t₁ ++ t₂ ++ [⟨.note text, ()⟩]))
        (ws ++ [.isValidPath path]) i rest ∧
      flow (t₁ ++ t₂ ++ [⟨.note text, ()⟩]) = ⟨[], (Request.isValidPath path).encode,
        (reply ws (.isValidPath path)).encode, [], []⟩ := fun text => by
    have hn : (partners guest host fills).Goes _ _ ∧ _ := hs₁.2.note text
    refine ⟨hs₁.1.append hn.1, ?_, ?_⟩
    · rw [← List.append_assoc h]
      exact hn.2
    · rw [flow_append, hf]
      exact Flow.append_nil _
  generalize hq : reply ws (.isValidPath path) = q at *
  cases hr with
  | @valid logs w _ hw =>
    refine ⟨t₁ ++ t₂, logs.length + 1, fun fuel hk => ?_, hs₁.1, hs₁.2, hf⟩
    rw [← List.append_nil (t₁ ++ t₂), confirms_last, decide_eq_true hw]
    exact (hrecheck fuel hk).bind ⟨rfl, rfl⟩
  | @invalid logs _ =>
    obtain ⟨text, hn⟩ := warn_runs path "re-check still invalid" false
    refine ⟨_, logs.length + 1, fun fuel hk => ?_, hnoted text⟩
    rw [confirms_last, decide_eq_false (by decide)]
    exact (hrecheck fuel hk).bind hn
  | @daemonError logs e message _ _ =>
    obtain ⟨text, hn⟩ := warn_runs path s!"re-check failed: {message}" false
    exact ⟨_, logs.length + 1, fun fuel hk => (hrecheck fuel hk).bind hn, hnoted text⟩

/-- The path is judged as it should be. -/
theorem judge_settles (roots : Option NixRunRoots) (fills : Nat → Except Error Unit)
    {path : Bytes} {w : UInt64}
    (hs : Settled guest reply withPath x y h (ws ++ [.isValidPath path]) i rest)
    (ho : Obeys host reply withPath x y) (hl : path.length ≤ maxGuestString.toNat) :
    let j := judgementOf (fillable roots) reply ws (fills i) path (le64 w)
    ∃ t m, (∀ fuel, m ≤ fuel →
        (judgeIsValidPath (hookSetup roots fuel) path w).Runs t (.ok j.valid)) ∧
      (partners guest host fills).Goes h t ∧
      Settled guest reply withPath x y (h ++ t)
        (ws ++ [.isValidPath path] ++ j.again.map fun _ => .isValidPath path)
        (i + (j.fills path).length) rest ∧
      flow t = ⟨[], j.again.flatMap fun _ => (Request.isValidPath path).encode,
        j.again.flatMap Reply.encode, [], j.fills path⟩ := by
  have hw : le64 w ≠ le64 0 ↔ w ≠ 0 := not_congr ⟨le64_injective, congrArg _⟩
  have hm' : ∀ fuel, fillable (hookSetup roots fuel).nixRunRoots path = fillable roots path :=
    fun _ => rfl
  unfold judgementOf
  by_cases hw0 : w ≠ 0
  · rw [if_pos (hw.mpr hw0)]
    refine ⟨[], 0, fun fuel _ => ?_, Partners.goes_nil, ?_, rfl⟩
    · rw [judgeIsValidPath, if_pos hw0]
      exact ⟨rfl, rfl⟩
    · rw [List.append_nil, List.map_nil, List.append_nil]
      exact hs
  rw [if_neg fun h => hw0 (hw.mp h)]
  by_cases hm : ¬ fillable roots path
  · rw [if_pos hm]
    refine ⟨[], 0, fun fuel _ => ?_, Partners.goes_nil, ?_, rfl⟩
    · rw [judgeIsValidPath, if_neg hw0, hm', if_pos hm]
      exact ⟨rfl, rfl⟩
    · rw [List.append_nil, List.map_nil, List.append_nil]
      exact hs
  rw [if_neg hm]
  obtain ⟨hgoes, hs₁⟩ : (partners guest host fills).Goes h _ ∧ _ := hs.fill path
  have ha := attempt_anyFill path (fills i)
  cases hf : fills i with
  | error e =>
    rw [hf] at hgoes hs₁ ha
    obtain ⟨text, hn⟩ := warn_runs path s!"fill failed: {e.render}" false
    obtain ⟨hgoes', hs₂⟩ : (partners guest host fills).Goes _ _ ∧ _ := hs₁.note text
    refine ⟨_, 0, fun fuel _ => ?_, hgoes.append hgoes', ?_, rfl⟩
    · rw [judgeIsValidPath, if_neg hw0, hm', if_neg hm]
      exact ha.bind hn
    · rw [List.map_nil, List.append_nil, ← List.append_assoc]
      exact hs₂
  | ok _ =>
    rw [hf] at hgoes hs₁ ha
    obtain ⟨t, m, hrun, hgoes', hs₂, hflow⟩ :=
      conclude_settles fills path hs₁ ho hl
    refine ⟨_, m, fun fuel hk => ?_, hgoes.append hgoes', ?_, ?_⟩
    · rw [judgeIsValidPath, if_neg hw0, hm', if_neg hm]
      exact ha.bind (hrun fuel hk)
    · rw [← List.append_assoc]
      exact hs₂
    · rw [flow_append, hflow, List.flatMap_singleton, List.flatMap_singleton]
      rfl

/-- Serving a request comes to the exchange `e`. -/
def Settles (guest : Bytes) (host : Bytes → Bytes) (fills : Nat → Except Error Unit)
    (reply : Strategy) (roots : Option NixRunRoots) (n : Negotiated) (x y : Bytes) (h : IoTrace)
    (ws : List Request) (i : Nat) (rest : Bytes) (e : Exchange) : Prop :=
  ∃ t m, (∀ fuel, m ≤ fuel →
      (serveOp (hookSetup roots fuel) n e.request.op.word).Runs t (.ok ())) ∧
    (partners guest host fills).Goes h t ∧
    Settled guest reply n.realisationWithPath x y (h ++ t) (ws ++ e.asked)
      (i + e.fills.length) rest ∧
    flow t = ⟨e.request.args, e.toHost, e.fromHost, e.toGuest, e.fills⟩

theorem swallowed_settles {r : Request} (ho : Obeys host reply n.realisationWithPath x y)
    (hr : r.op = .setOptions) (hv : r.Valid n.realisationWithPath)
    (hs : Settled guest reply n.realisationWithPath x y h ws i (r.args ++ rest)) :
    Settles guest host fills reply roots n x y h ws i rest ⟨r, le64 stderrLast, [], none⟩ := by
  obtain ⟨t, u, hc₁, hc₂, -, hrun⟩ := swallowed_complete hr hv
  obtain ⟨hg₁, hs₁⟩ : (partners guest host fills).Goes h _ ∧ _ := hs.swallow hc₁
  obtain ⟨hg₂, hs₂⟩ : (partners guest host fills).Goes _ _ ∧ _ := hs₁.tell ho hc₂
  have hfills : Exchange.fills ⟨r, le64 stderrLast, [], none⟩ = [] := by
    cases r <;> rfl
  refine ⟨t ++ u, 0, fun fuel _ => hrun _, hg₁.append hg₂, ?_, ?_⟩
  · rw [hfills, show Exchange.asked ⟨r, le64 stderrLast, [], none⟩ = [] from rfl, List.append_nil,
      ← List.append_assoc]
    exact hs₂
  · rw [hfills, flow_append, flow_sink hc₁.only, hc₁.recvd, Answering.flow hc₂, Flow.append_answer]
    rfl

theorem exchange_plain (r : Request) (q : Reply) :
    Exchange.asked ⟨r, q.encode, [(r, q)], none⟩ = [r] ∧
      Exchange.fills ⟨r, q.encode, [(r, q)], none⟩ = [] ∧
      Exchange.toHost ⟨r, q.encode, [(r, q)], none⟩ = r.encode ∧
      Exchange.fromHost ⟨r, q.encode, [(r, q)], none⟩ = q.encode := by
  refine ⟨rfl, ?_, List.append_nil _, List.append_nil _⟩
  cases r <;> rfl

/-- A stretch of questions and the stretch of the reply are a plain exchange. -/
theorem plain_settles (roots : Option NixRunRoots) (fills : Nat → Except Error Unit)
    {r : Request} {t u : IoTrace} {m : Nat}
    (ho : Obeys host reply n.realisationWithPath x y)
    (hr : r.op ≠ .setOptions ∧ r.Valid n.realisationWithPath)
    (hs : Settled guest reply n.realisationWithPath x y h ws i (r.args ++ rest))
    (ht : Posing r.args r.encode t) (hu : Answering (reply ws r).encode (reply ws r).encode u)
    (hrun : ∀ fuel, m ≤ fuel →
      (serveOp (hookSetup roots fuel) n r.op.word).Runs (t ++ u) (.ok ())) :
    Settles guest host fills reply roots n x y h ws i rest
      ⟨r, (reply ws r).encode, [(r, reply ws r)], none⟩ := by
  obtain ⟨hg, hs'⟩ : (partners guest host fills).Goes h _ ∧ _ := hs.ask ho hr ht hu
  obtain ⟨ha, hf, hto, hfrom⟩ := exchange_plain r (reply ws r)
  refine ⟨t ++ u, m, hrun, hg, ?_, ?_⟩
  · rw [ha, hf]
    exact hs'
  · rw [hto, hfrom, hf, flow_append, ht.flow, Answering.flow hu, Flow.append_answer]

theorem relayed_settles {r : Request} (ho : Obeys host reply n.realisationWithPath x y)
    (hne : r.op ≠ .setOptions) (hnp : r.op ≠ .isValidPath) (hv : r.Valid n.realisationWithPath)
    (hs : Settled guest reply n.realisationWithPath x y h ws i (r.args ++ rest)) :
    Settles guest host fills reply roots n x y h ws i rest
      ⟨r, (reply ws r).encode, [(r, reply ws r)], none⟩ := by
  obtain ⟨t, u, ht, hu, hrun⟩ := relayOp_complete hv (ho.valid ws r hne hv)
  refine plain_settles roots fills (m := (reply ws r).logs.length + 1) ho ⟨hne, hv⟩ hs ht hu
    fun fuel hk => ?_
  rw [serveOp_relayed hne hnp]
  exact hrun fuel hk

theorem asked_map (r : Request) (told : Bytes) (qs : List Reply)
    (fill : Option (Except Error Unit)) :
    Exchange.asked ⟨r, told, qs.map (Prod.mk r), fill⟩ = qs.map fun _ => r := by
  simp [Exchange.asked, Function.comp_def]

theorem fills_pathExchange (path : Bytes) (told : Bytes) (qs : List (Request × Reply))
    (j : Judgement) : Exchange.fills ⟨.isValidPath path, told, qs, j.fill⟩ = j.fills path := by
  obtain ⟨valid, again, fill⟩ := j
  cases fill <;> rfl

/-- The stretches of an `IsValidPath` that got a word, put together. -/
theorem pathExchange_settles {path : Bytes} {logs : List Message} {w : UInt64} {j : Judgement}
    {t u t' v : IoTrace} (ht : Posing (encString path) (Request.isValidPath path).encode t)
    (hu : Answering (Reply.last logs (le64 w)).encode (encMessages logs) u)
    (hf : flow t' = ⟨[], j.again.flatMap fun _ => (Request.isValidPath path).encode,
      j.again.flatMap Reply.encode, [], j.fills path⟩)
    (hv : Answering [] (le64 stderrLast ++ validWord j.valid) v)
    (hs : Settled guest reply n.realisationWithPath x y (h ++ (t ++ u) ++ t' ++ v)
      (ws ++ [.isValidPath path] ++ j.again.map fun _ => .isValidPath path)
      (i + (j.fills path).length) rest) :
    let e : Exchange := ⟨.isValidPath path, (Reply.last logs (validWord j.valid)).encode,
      (.last logs (le64 w) :: j.again).map (Prod.mk (.isValidPath path)), j.fill⟩
    Settled guest reply n.realisationWithPath x y (h ++ (t ++ (u ++ (t' ++ v)))) (ws ++ e.asked)
      (i + e.fills.length) rest ∧
      flow (t ++ (u ++ (t' ++ v))) =
        ⟨e.request.args, e.toHost, e.fromHost, e.toGuest, e.fills⟩ := by
  have hh : h ++ (t ++ u) ++ t' ++ v = h ++ (t ++ (u ++ (t' ++ v))) := by
    simp only [List.append_assoc]
  refine ⟨?_, ?_⟩
  · rw [asked_map, fills_pathExchange, List.map_cons, List.append_cons, ← hh]
    exact hs
  · rw [fills_pathExchange, Exchange.toHost_map, Exchange.fromHost_map, flow_append, flow_append,
      flow_append, ht.flow, Answering.flow hu, hf, Answering.flow hv, Flow.append_judged,
      isValidPath_args, reply_last logs (validWord j.valid)]

theorem intercepted_settles {path : Bytes} (ho : Obeys host reply n.realisationWithPath x y)
    (hl : path.length ≤ maxGuestString.toNat)
    (hs : Settled guest reply n.realisationWithPath x y h ws i (encString path ++ rest)) :
    Settles guest host fills reply roots n x y h ws i rest
      (exchangeOf (fillable roots) reply ws (fills i) (.isValidPath path)) := by
  have hv : (Request.isValidPath path).Valid n.realisationWithPath := hl
  have hq := ho.valid ws _ (path_forwarded path) hv
  obtain ⟨t, ht, hask⟩ := askPath_complete hl
  unfold exchangeOf
  cases hr : reply ws (.isValidPath path) with
  | error logs e =>
    rw [hr] at hq
    obtain ⟨hlogs, he⟩ := hq
    obtain ⟨u, hu, hrun⟩ := hearPath_refused path hlogs he
    obtain ⟨v, hv', hc⟩ := hu.then_flush
    have h := plain_settles roots fills (m := logs.length + 1) ho
      ⟨path_forwarded path, hv⟩ hs hask (hr.symm ▸ hc) fun fuel hk => by
        show (serveOp _ n Op.isValidPath.word).Runs _ _
        rw [serveOp_path]
        refine ht.bind ((hrun fuel hk).bind ?_)
        show (pure () >>= fun _ => flush .guest : Async Unit).Runs v (.ok ())
        rw [pure_bind]
        exact hv'
    rw [hr] at h
    exact h
  | last logs result =>
    rw [hr] at hq
    obtain ⟨hlogs, w, -, rfl⟩ := hq
    obtain ⟨u, hu, hrun⟩ := hearPath_answered path w hlogs
    obtain ⟨hg₁, hs₁⟩ : (partners guest host fills).Goes h (t ++ u) ∧ _ :=
      hs.ask ho ⟨path_forwarded path, hv⟩ hask (hr.symm ▸ hu)
    obtain ⟨t', m, hjudge, hg₂, hs₂, hf⟩ :=
      judge_settles roots fills (w := w) hs₁ ho hl
    obtain ⟨v, hv', htell⟩ :=
      tell_complete (judgementOf (fillable roots) reply ws (fills i) path (le64 w)).valid
    obtain ⟨hg₃, hs₃⟩ : (partners guest host fills).Goes _ _ ∧ _ := hs₂.tell ho hv'
    have hsettled := pathExchange_settles hask hu hf hv' hs₃
    refine ⟨_, max m (logs.length + 1), fun fuel hk => ?_, ?_, hsettled⟩
    · show (serveOp _ n Op.isValidPath.word).Runs _ _
      rw [serveOp_path]
      refine ht.bind ((hrun fuel (by omega)).bind ?_)
      show ((judgeIsValidPath (hookSetup roots fuel) path w >>= fun valid =>
        writeIsValidPathResult valid) >>= fun _ => flush .guest).Runs (t' ++ v) (.ok ())
      rw [bind_assoc]
      exact (hjudge fuel (by omega)).bind htell
    · rw [← List.append_assoc]
      exact hg₁.append (hg₂.append hg₃)

/-- Every request is settled by the exchange it leads to. -/
theorem serveOp_settles (fills : Nat → Except Error Unit) (roots : Option NixRunRoots)
    {r : Request} (ho : Obeys host reply n.realisationWithPath x y)
    (hv : r.Valid n.realisationWithPath)
    (hs : Settled guest reply n.realisationWithPath x y h ws i (r.args ++ rest)) :
    Settles guest host fills reply roots n x y h ws i rest
      (exchangeOf (fillable roots) reply ws (fills i) r) := by
  cases r with
  | setOptions scalars overrides => exact swallowed_settles ho rfl hv hs
  | isValidPath path => exact intercepted_settles ho hv hs
  | _ => exact relayed_settles ho nofun nofun hv hs

end Settled

end Claudepod
