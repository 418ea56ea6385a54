import Claudepod.Alignment
import Claudepod.Correspondence
import Claudepod.Termination

/-! A guest that asks and hangs up is served to its end: every request has got one response,
the host every request it was to get, and no reply of the host is left. -/

set_option autoImplicit false

namespace Claudepod
open Interaction

/-! ### The exchanges of a session -/

section Exchanges

variable {may : Bytes → Bool} {host : Strategy} {before : List Request}
  {fill : Except Error Unit} {r : Request}

theorem exchangeOf_request : (exchangeOf may host before fill r).request = r := by
  unfold exchangeOf
  split <;> rfl

theorem exchangesOf_request (may : Bytes → Bool) (host : Strategy)
    (fills : Nat → Except Error Unit) (before : List Request) (i : Nat) (rs : List Request) :
    (exchangesOf may host fills before i rs).map Exchange.request = rs := by
  induction rs generalizing before i with
  | nil => rfl
  | cons r rs ih => rw [exchangesOf, List.map_cons, exchangeOf_request, ih]

/-- The judgement is a decision over the host's second reply. -/
theorem judgementOf_decided {withPath : Bool} {path : Bytes} {w : UInt64}
    (hq : ∀ before, (host before (.isValidPath path)).Valid .isValidPath withPath) :
    Decided may path w (judgementOf may host before fill path (le64 w)).again
      (judgementOf may host before fill path (le64 w)).fill
      (judgementOf may host before fill path (le64 w)).valid := by
  have hw : le64 w ≠ le64 0 ↔ w ≠ 0 := not_congr ⟨le64_injective, congrArg _⟩
  unfold judgementOf
  by_cases hw0 : w ≠ 0
  · rw [if_pos (hw.mpr hw0)]
    exact .valid hw0
  rw [if_neg fun h => hw0 (hw.mp h)]
  obtain rfl := not_not.mp hw0
  by_cases hm : may path
  · rw [if_neg (not_not.mpr hm)]
    cases fill with
    | error e => exact .fillFailed hm
    | ok _ =>
      show Decided may path 0 [host _ _] (some (.ok ())) (Reply.confirms (host _ _))
      have hv := hq (before ++ [.isValidPath path])
      generalize host (before ++ [.isValidPath path]) (.isValidPath path) = q at hv
      cases q with
      | error logs e => exact .recheckFailed hm hv.1 hv.2
      | last logs result =>
        obtain ⟨hl, w, -, rfl⟩ := hv
        rw [confirms_last]
        by_cases h0 : w = 0
        · subst h0
          exact .stillInvalid hm hl
        · rw [decide_eq_true h0]
          exact .refilled hm hl h0
  · rw [if_pos hm]
    exact .unfillable (Bool.eq_false_iff.mpr hm)

theorem exchangeOf_legal {withPath : Bool} (hr : r.Valid withPath)
    (hq : ∀ before, r.op ≠ .setOptions → (host before r).Valid r.op withPath) :
    Legal withPath may (exchangeOf may host before fill r) := by
  cases r with
  | setOptions scalars overrides => exact .swallowed rfl hr
  | isValidPath path =>
    have hv := fun before => hq before (path_forwarded path)
    unfold exchangeOf
    have hv₀ := hv before
    generalize host before (.isValidPath path) = q at hv₀
    cases q with
    | error logs e => exact .refused hr hv₀.1 hv₀.2
    | last logs result =>
      obtain ⟨hl, w, -, rfl⟩ := hv₀
      exact .decided hr hl (judgementOf_decided hv)
  | _ => exact .relayed nofun nofun hr (hq before nofun)

end Exchanges

/-! ### The loop -/

section Loop

variable {guest x y rest : Bytes} {host : Bytes → Bytes} {fills : Nat → Except Error Unit}
  {reply : Strategy} {roots : Option NixRunRoots} {n : Negotiated} {h : IoTrace}
  {ws : List Request} {i : Nat} {r : Request} {rs : List Request}

/-- The op word is read and the request settled. -/
theorem turn_settles (fills : Nat → Except Error Unit) (roots : Option NixRunRoots)
    (ho : Obeys host reply n.realisationWithPath x y) (hv : r.Valid n.realisationWithPath)
    (hs : Settled guest reply n.realisationWithPath x y h ws i (r.encode ++ rest)) :
    let e := exchangeOf (fillable roots) reply ws (fills i) r
    ∃ t u m, (readU64OrEof .guest).Runs t (.ok (some r.op.word)) ∧
      (∀ fuel, m ≤ fuel → (serveOp (hookSetup roots fuel) n r.op.word).Runs u (.ok ())) ∧
      (partners guest host fills).Goes h (t ++ u) ∧
      Settled guest reply n.realisationWithPath x y (h ++ (t ++ u)) (ws ++ e.asked)
        (i + e.fills.length) rest ∧
      flow (t ++ u) = exchangesFlow [e] e.fills := by
  rw [Request.encode, List.append_assoc] at hs
  obtain ⟨t, ht, hg, hs₁, hf⟩ : ∃ t, _ ∧ (partners guest host fills).Goes h t ∧ _ := hs.word
  obtain ⟨u, m, hrun, hg₂, hs₂, hf₂⟩ :=
    serveOp_settles fills roots ho hv hs₁
  rw [exchangeOf_request] at hrun hf₂
  refine ⟨t, u, m, ht, hrun, hg.append hg₂, ?_, ?_⟩
  · rw [← List.append_assoc]
    exact hs₂
  · rw [flow_append, hf, hf₂, Flow.append_mk, exchangesFlow]
    simp only [List.flatMap_singleton, exchangeOf_request, Request.encode, List.nil_append]

/-- As long as the guest goes on, its requests are settled one after the other. -/
theorem opLoop_settles (fills : Nat → Except Error Unit) (roots : Option NixRunRoots)
    (ho : Obeys host reply n.realisationWithPath x y)
    (hv : ∀ r ∈ rs, r.Valid n.realisationWithPath)
    (hs : Settled guest reply n.realisationWithPath x y h ws i (rs.flatMap Request.encode)) :
    let xs := exchangesOf (fillable roots) reply fills ws i rs
    ∃ t m, (∀ fuel k, m ≤ fuel → rs.length < k →
        (opLoop (hookSetup roots fuel) n k).Runs t (.ok ())) ∧
      (partners guest host fills).Goes h t ∧
      Settled guest reply n.realisationWithPath x y (h ++ t) (ws ++ xs.flatMap Exchange.asked)
        (i + (xs.flatMap Exchange.fills).length) [] ∧
      flow t = exchangesFlow xs (xs.flatMap Exchange.fills) := by
  induction rs generalizing h ws i with
  | nil =>
    have hend : Settled guest reply n.realisationWithPath x y
        (h ++ [⟨.readSome .guest 8, .ended .eof⟩]) ws i [] :=
      Settled.aside (a := []) hs rfl rfl rfl rfl rfl
    refine ⟨_, 0, fun fuel k _ hk => ?_, hs.hangup, ?_, rfl⟩
    · obtain ⟨k, rfl⟩ : ∃ l, k = l + 1 := ⟨k - 1, by simp at hk; omega⟩
      exact (readU64OrEof_none .guest).bind (u := []) ⟨rfl, rfl⟩
    · rw [exchangesOf, List.flatMap_nil, List.append_nil]
      exact hend
  | cons r rs ih =>
    obtain ⟨hr, hrs⟩ := List.forall_mem_cons.mp hv
    rw [List.flatMap_cons] at hs
    obtain ⟨t, u, m, ht, hrun, hg, hs₁, hf⟩ := turn_settles fills roots ho hr hs
    obtain ⟨v, m', hrun', hg', hs₂, hf'⟩ := ih hrs hs₁
    refine ⟨t ++ u ++ v, max m m', fun fuel k hm hk => ?_, hg.append hg', ?_, ?_⟩
    · obtain ⟨k, rfl⟩ : ∃ l, k = l + 1 := ⟨k - 1, by simp at hk; omega⟩
      rw [List.append_assoc]
      exact ht.bind ((hrun fuel (by omega)).bind (hrun' fuel k (by omega) (by simpa using hk)))
    · rw [← List.append_assoc h, exchangesOf, List.flatMap_cons, List.flatMap_cons,
        List.length_append, ← Nat.add_assoc, ← List.append_assoc ws]
      exact hs₂
    · rw [flow_append, hf, hf', exchangesFlow_append]
      rfl

end Loop

/-! ### The opening -/

theorem opening_more {roots : Option NixRunRoots} {fuel fuel' : Nat} {n : Negotiated}
    {t : IoTrace} (h : (opening (hookSetup roots fuel)).Runs t (.ok n)) (hf : fuel ≤ fuel') :
    (opening (hookSetup roots fuel')).Runs t (.ok n) := by
  have hs : (hookSetup roots fuel).Extended (hookSetup roots fuel') :=
    ⟨rfl, rfl, fun _ => .refl _, hf⟩
  exact hs.opening_covers t _ h nofun

theorem opening_asks {setup : Setup} {n : Negotiated} {t : IoTrace}
    (h : (opening setup).Runs t (.ok n)) : asks t = [] := by
  obtain ⟨t₀, t₁, rfl, h₀, ⟨a, z, b, g, q, -, -, -, hf⟩⟩ := opening_ok h
  obtain ⟨x, y, u, v, -, -, hf₀⟩ := handshakes_ok h₀
  rw [asks_append, asks_of_flow hf₀, asks_of_flow hf]
  rfl

/-- An opening leaves everything settled. -/
theorem opening_settled {guest : Bytes} {reply : Strategy} {withPath : Bool} {setup : Setup}
    {n : Negotiated} {t : IoTrace} {rest : Bytes} (h : (opening setup).Runs t (.ok n))
    (hg : guest = recvd .guest t ++ rest) :
    Settled guest reply withPath (sent .host t) (recvd .host t) t [] 0 rest where
  guest := hg
  flushed := (opening_waits setup).held_nil h (by decide)
  sent := (List.append_nil _).symm
  recvd := (List.append_nil _).symm
  fills := by rw [opening_asks h]; rfl
  asked := by simp

/-! ### The session -/

/-- The requests the host has to answer for one of the guest's. -/
def Exchange.due (x : Exchange) : List Request :=
  if x.request.op = .setOptions then []
  else
    match x.fill with
    | some (.ok _) => [x.request, x.request]
    | _ => [x.request]

theorem Legal.asked {withPath : Bool} {may : Bytes → Bool} {x : Exchange}
    (h : Legal withPath may x) : x.asked = x.due := by
  cases h with
  | swallowed ho _ => simp [Exchange.asked, Exchange.due, ho]
  | relayed ho _ _ _ => simp [Exchange.asked, Exchange.due, ho]
  | refused _ _ _ => rfl
  | decided _ _ hd =>
    rw [asked_map]
    cases hd <;> rfl

/-- One valid reply to each of the requests, and nothing else; no other replies read so. -/
def Responses (withPath : Bool) (rs : List Request) (bs : Bytes) : Prop :=
  ∃ qs : List Reply, List.Forall₂ (fun r q => q.Valid r.op withPath) rs qs ∧
    bs = qs.flatMap Reply.encode ∧
    ∀ qs' z, List.Forall₂ (fun r q => Reply.Valid r.op withPath q) rs qs' →
      bs = qs'.flatMap Reply.encode ++ z → qs' = qs ∧ z = []

theorem replies_unambiguous {n : Negotiated} {rs : List Request} {qs qs' : List Reply}
    {u v : Bytes} (h : List.Forall₂ (fun r q => Reply.Valid r.op n.realisationWithPath q) rs qs)
    (h' : List.Forall₂ (fun r q => Reply.Valid r.op n.realisationWithPath q) rs qs')
    (he : qs.flatMap Reply.encode ++ u = qs'.flatMap Reply.encode ++ v) : qs = qs' ∧ u = v := by
  induction h generalizing qs' with
  | nil =>
    cases h'
    exact ⟨rfl, he⟩
  | cons hq _ ih =>
    obtain ⟨hq', hrest⟩ | ⟨hq', hrest⟩ := h'
    rw [List.flatMap_cons, List.flatMap_cons, List.append_assoc, List.append_assoc] at he
    obtain ⟨rfl, hqs⟩ := reply_unambiguous hq hq' he
    obtain ⟨rfl, huv⟩ := ih hrest hqs
    exact ⟨rfl, huv⟩

theorem responses_of_legal {n : Negotiated} {may : Bytes → Bool} {xs : List Exchange}
    (h : ∀ x ∈ xs, Legal n.realisationWithPath may x) :
    Responses n.realisationWithPath (xs.map Exchange.request) (xs.flatMap Exchange.toGuest) := by
  obtain ⟨qs, hv, he⟩ : ∃ qs : List Reply,
      List.Forall₂ (fun r q => Reply.Valid r.op n.realisationWithPath q)
        (xs.map Exchange.request) qs ∧
      xs.flatMap Exchange.toGuest = qs.flatMap Reply.encode := by
    induction xs with
    | nil => exact ⟨[], .nil, rfl⟩
    | cons x xs ih =>
      obtain ⟨hx, hxs⟩ := List.forall_mem_cons.mp h
      obtain ⟨q, hq, he⟩ := hx.reply
      obtain ⟨qs, hqs, hes⟩ := ih hxs
      exact ⟨q :: qs, .cons hq hqs, by rw [List.flatMap_cons, List.flatMap_cons, he, hes]⟩
  refine ⟨qs, hv, he, fun qs' z hv' he' => ?_⟩
  obtain ⟨rfl, hz⟩ := replies_unambiguous (u := []) hv hv'
    (by rw [List.append_nil, ← he, he'])
  exact ⟨rfl, hz.symm⟩

/-- Behind its opening `t₀`, the session with these exchanges does `t`. -/
structure InStep (roots : Option NixRunRoots) (host : Bytes → Bytes) (withPath : Bool)
    (rs : List Request) (xs : List Exchange) (t₀ t : IoTrace) : Prop where
  heard : recvd .guest t = rs.flatMap Request.encode
  requests : xs.map Exchange.request = rs
  legal : ∀ x ∈ xs, Legal withPath (fillable roots) x
  told : sent .guest t = xs.flatMap Exchange.toGuest
  responses : Responses withPath rs (sent .guest t)
  asked : sent .host t = (xs.flatMap Exchange.due).flatMap Request.encode
  delivered : delivered .host (t₀ ++ t) = sent .host t₀ ++ sent .host t
  consumed : recvd .host (t₀ ++ t) = host (sent .host t₀ ++ sent .host t)
  filled : asks t = xs.flatMap Exchange.fills

theorem flatMap_toHost {xs : List Exchange} (h : ∀ x ∈ xs, x.asked = x.due) :
    xs.flatMap Exchange.toHost = (xs.flatMap Exchange.due).flatMap Request.encode := by
  induction xs with
  | nil => rfl
  | cons x xs ih =>
    obtain ⟨hx, hxs⟩ := List.forall_mem_cons.mp h
    rw [List.flatMap_cons, List.flatMap_cons, List.flatMap_append, ih hxs, ← hx]
    simp [Exchange.toHost, Exchange.asked, List.flatMap_map]

theorem exchangesOf_legal (may : Bytes → Bool) (fills : Nat → Except Error Unit)
    {reply : Strategy} {withPath : Bool} {rs : List Request}
    (hr : ∀ r ∈ rs, r.Valid withPath)
    (hq : ∀ before r, r.op ≠ .setOptions → r.Valid withPath →
      (reply before r).Valid r.op withPath) (before : List Request) (i : Nat) :
    ∀ x ∈ exchangesOf may reply fills before i rs, Legal withPath may x := by
  induction rs generalizing before i with
  | nil => simp [exchangesOf]
  | cons r rs ih =>
    obtain ⟨hr, hrs⟩ := List.forall_mem_cons.mp hr
    rw [exchangesOf]
    refine List.forall_mem_cons.mpr ⟨?_, ih hrs _ _⟩
    exact exchangeOf_legal hr fun before ho => hq before r ho hr

/-- Among a guest that asks `rs` and hangs up and a host that answers whatever it gets, a
session returns: each request has got its response, and each reply was read. -/
theorem session_in_step {roots : Option NixRunRoots} {guest : Bytes} {host : Bytes → Bytes}
    {fills : Nat → Except Error Unit} {reply : Strategy} {fuel₀ : Nat} {n : Negotiated}
    {t₀ : IoTrace} {rs : List Request}
    (h₀ : (opening (hookSetup roots fuel₀)).exec (partners guest host fills).step [] =
      ⟨t₀, .ok n, t₀⟩)
    (hg : guest = recvd .guest t₀ ++ rs.flatMap Request.encode)
    (hr : ∀ r ∈ rs, r.Valid n.realisationWithPath)
    (ho : Obeys host reply n.realisationWithPath (sent .host t₀) (recvd .host t₀)) :
    ∃ t k, (∀ fuel, k ≤ fuel →
        (run (hookSetup roots fuel)).exec (partners guest host fills).step [] =
          ⟨t₀ ++ t, .ok (), t₀ ++ t⟩) ∧
      InStep roots host n.realisationWithPath rs
        (exchangesOf (fillable roots) reply fills [] 0 rs) t₀ t := by
  have hrun₀ := Comp.exec_runs (partners guest host fills).step (opening (hookSetup roots fuel₀)) []
  have hgo₀ := Partners.exec_goes (k := partners guest host fills)
    (opening (hookSetup roots fuel₀)) []
  rw [h₀] at hrun₀ hgo₀
  obtain ⟨t, m, hrun, hgo, hs, hf⟩ :=
    opLoop_settles fills roots ho hr (opening_settled hrun₀ hg)
  have hlegal := exchangesOf_legal (fillable roots) fills hr ho.valid [] 0
  have hreq := exchangesOf_request (fillable roots) reply fills [] 0 rs
  generalize exchangesOf (fillable roots) reply fills [] 0 rs = xs at hs hf hlegal hreq ⊢
  have htold : sent .guest t = _ := congrArg Flow.toGuest hf
  have hheard : recvd .guest t = _ := congrArg Flow.fromGuest hf
  have hsent : sent .host t = _ := congrArg Flow.toHost hf
  have hflushed : held .host [] (t₀ ++ t) = [] := hs.flushed
  refine ⟨t, max (max fuel₀ m) (rs.length + 1), fun fuel hk => ?_, ?_⟩
  · rw [run_eq]
    exact Partners.exec_of_goes ((opening_more hrun₀ (by omega)).bind
      (hrun fuel fuel (by omega) (by omega))) (hgo₀.append hgo)
  · refine ⟨?_, hreq, hlegal, htold, ?_, ?_, ?_, ?_, congrArg Flow.fills hf⟩
    · rw [hheard, ← hreq, List.flatMap_map]
      rfl
    · rw [htold, ← hreq]
      exact responses_of_legal hlegal
    · rw [hsent, ← flatMap_toHost fun x hx => (hlegal x hx).asked]
      rfl
    · rw [delivered_of_flushed hflushed, sent_append]
    · rw [← sent_append, hs.sent, hs.recvd]
      exact (ho.replies _ hs.asked).symm

/-! ### A host for every strategy -/

section Host

variable {n : Negotiated} {x y z : Bytes} {reply : Strategy} {rs rs' : List Request}

theorem requests_unambiguous
    (h : ∀ r ∈ rs, r.op ≠ .setOptions ∧ r.Valid n.realisationWithPath)
    (h' : ∀ r ∈ rs', r.op ≠ .setOptions ∧ r.Valid n.realisationWithPath)
    (he : rs.flatMap Request.encode = rs'.flatMap Request.encode) : rs = rs' := by
  induction rs generalizing rs' with
  | nil =>
    cases rs' with
    | nil => rfl
    | cons r' rs' =>
      have hl := congrArg List.length he.symm
      simp [Request.encode] at hl
  | cons r rs ih =>
    cases rs' with
    | nil =>
      have hl := congrArg List.length he
      simp [Request.encode] at hl
    | cons r' rs' =>
      obtain ⟨⟨hs, hv⟩, hrs⟩ := List.forall_mem_cons.mp h
      obtain ⟨⟨-, hv'⟩, hrs'⟩ := List.forall_mem_cons.mp h'
      rw [List.flatMap_cons, List.flatMap_cons] at he
      obtain ⟨ho, hr, hrest⟩ := request_unambiguous hv hv' he
      rw [Request.encode, Request.encode, ho] at hr
      rw [request_injective hs hv hv' ho (List.append_cancel_left hr), ih hrs hrs' hrest]

open Classical in
/-- A host that has said `y` from the first and answers what it gets behind `x`. -/
noncomputable def answering (reply : Strategy) (withPath : Bool) (x y z : Bytes) : Bytes :=
  if h : ∃ rs : List Request, (∀ r ∈ rs, r.op ≠ .setOptions ∧ r.Valid withPath) ∧
      z = x ++ rs.flatMap Request.encode then y ++ transcript reply [] h.choose
  else y

theorem answering_requests
    (h : ∀ r ∈ rs, r.op ≠ .setOptions ∧ r.Valid n.realisationWithPath) :
    answering reply n.realisationWithPath x y (x ++ rs.flatMap Request.encode) =
      y ++ transcript reply [] rs := by
  have hex : ∃ rs' : List Request,
      (∀ r ∈ rs', r.op ≠ .setOptions ∧ r.Valid n.realisationWithPath) ∧
      x ++ rs.flatMap Request.encode = x ++ rs'.flatMap Request.encode := ⟨rs, h, rfl⟩
  rw [answering, dif_pos hex]
  obtain ⟨hv, he⟩ := hex.choose_spec
  rw [← requests_unambiguous h hv (List.append_cancel_left he)]

theorem answering_before (h : z <+: x) : answering reply n.realisationWithPath x y z = y := by
  by_cases hx : z = x
  · subst hx
    have := @answering_requests n z y reply [] (by simp)
    simpa [transcript] using this
  · rw [answering, dif_neg]
    rintro ⟨rs, -, rfl⟩
    exact hx (List.IsPrefix.eq_of_length h (le_antisymm h.length_le (by simp)))

theorem answering_obeys (hq : ∀ before r, r.op ≠ .setOptions → r.Valid n.realisationWithPath →
      (reply before r).Valid r.op n.realisationWithPath) :
    Obeys (answering reply n.realisationWithPath x y) reply n.realisationWithPath x y :=
  ⟨hq, fun _ => answering_requests⟩

end Host

/-! ### A path that is filled, among other requests -/

def stepRequests : List Request :=
  [.isValidPath samplePath, .setOptions (List.replicate 12 7) [], .queryReferrers samplePath]

/-- No path is valid until it was asked for, and nothing has referrers. -/
def stepReply : Strategy := fun before r =>
  .last [] (if r.op = .isValidPath ∧ before ≠ [] then le64 1 else le64 0)

def stepRoots : Option NixRunRoots := some ⟨[samplePath]⟩

/-- The same guest and a host that says no more than its greeting. -/
def stepScript : Partners Leg IoError Error :=
  partners (guestSample stepRequests) (fun _ => hostSample []) fun _ => .ok ()

def stepOpening :
    Outcome (Resp Leg IoError Error) (Except Stop Negotiated) (Trace Leg IoError Error) :=
  (opening (hookSetup stepRoots 8)).exec stepScript.step []

noncomputable def stepHost (n : Negotiated) : Bytes → Bytes :=
  answering stepReply n.realisationWithPath (sent .host stepOpening.trace)
    (recvd .host stepOpening.trace)

noncomputable def stepPartners (n : Negotiated) : Partners Leg IoError Error :=
  partners (guestSample stepRequests) (stepHost n) fun _ => .ok ()

/-- The word 0 is a result of every op that has one. -/
theorem idle_valid {op : Op} {withPath : Bool} (ho : op ≠ .setOptions) :
    (Reply.last [] (le64 0)).Valid op withPath := by
  have hstrings : (stringListFormat maxCount maxHostString).erase () (le64 0) :=
    ⟨[], ⟨by simp, by simp⟩, (List.append_nil _).symm⟩
  have hstring : (stringFormat maxHostString).erase () (le64 0) :=
    ⟨[], by simp [stringFormat, Format.canonical, encString, padding]⟩
  have htag : ∀ {G : UInt64 → Format Unit}, G 0 () [] → wordFormat.bind G () (le64 0) :=
    fun h => ⟨0, le64 0, [], ⟨trivial, rfl⟩, h, (List.append_nil _).symm⟩
  refine ⟨by simp [Logs], ?_⟩
  cases op with
  | setOptions => exact absurd rfl ho
  | isValidPath => exact ⟨0, trivial, rfl⟩
  | queryReferrers => exact hstrings
  | queryValidPaths => exact hstrings
  | queryValidDerivers => exact hstrings
  | queryPathFromHashPart => exact hstring
  | queryPathInfo => exact htag ⟨rfl, rfl⟩
  | queryRealisation =>
    cases withPath with
    | false => exact hstrings
    | true => exact htag ⟨by decide, rfl, rfl⟩

theorem stepReply_valid {withPath : Bool} (before : List Request) (r : Request)
    (ho : r.op ≠ .setOptions) : (stepReply before r).Valid r.op withPath := by
  by_cases h : r.op = .isValidPath ∧ before ≠ []
  · rw [stepReply, if_pos h, h.1]
    exact Reply.valid_word rfl (by simp [Logs])
  · rw [stepReply, if_neg h]
    exact idle_valid ho

theorem stepOpening_said (n : Negotiated) (c : Leg) (z : Bytes)
    (hz : z <+: sent c ([] ++ stepOpening.trace)) :
    (stepPartners n).said c z = stepScript.said c z := by
  cases c with
  | host =>
    have hy : recvd .host stepOpening.trace = hostSample [] := by decide +kernel
    exact (answering_before hz).trans hy
  | _ => rfl

theorem stepOpening_eq : ∃ n, (opening (hookSetup stepRoots 8)).exec (stepPartners n).step [] =
    ⟨stepOpening.trace, .ok n, stepOpening.trace⟩ := by
  have hv : stepOpening.value.toBool = true := by decide +kernel
  have hr : (opening (hookSetup stepRoots 8)).Runs stepOpening.trace stepOpening.value :=
    Comp.exec_runs ..
  have hg : stepScript.Goes [] stepOpening.trace :=
    Partners.exec_goes (opening (hookSetup stepRoots 8)) []
  cases ho : stepOpening.value with
  | error s => rw [ho] at hv; cases hv
  | ok n =>
    rw [ho] at hr
    have hg' : (stepPartners n).Goes [] stepOpening.trace :=
      Partners.Goes.congr (k := stepScript) rfl rfl (stepOpening_said n) hg
    exact ⟨n, Partners.exec_of_goes hr hg'⟩

theorem session_in_step_sample : ∃ n t k,
    (∀ fuel, k ≤ fuel →
      (run (hookSetup stepRoots fuel)).exec (stepPartners n).step [] =
        ⟨stepOpening.trace ++ t, .ok (), stepOpening.trace ++ t⟩) ∧
      InStep stepRoots (stepHost n) n.realisationWithPath stepRequests
        (exchangesOf (fillable stepRoots) stepReply (fun _ => .ok ()) [] 0 stepRequests)
        stepOpening.trace t := by
  obtain ⟨n, h₀⟩ := stepOpening_eq
  have hr : ∀ r ∈ stepRequests, r.Valid n.realisationWithPath := by
    intro r hr
    rcases List.mem_cons.mp hr with rfl | hr
    · show samplePath.length ≤ maxGuestString.toNat
      decide
    rcases List.mem_cons.mp hr with rfl | hr
    · exact ⟨by simp, by simp, by simp⟩
    obtain rfl := List.mem_singleton.mp hr
    show samplePath.length ≤ maxGuestString.toNat
    decide
  have hg : guestSample stepRequests =
      recvd .guest stepOpening.trace ++ stepRequests.flatMap Request.encode := by decide +kernel
  exact ⟨n, session_in_step h₀ hg hr
    (answering_obeys fun before r ho _ => stepReply_valid before r ho)⟩

end Claudepod
