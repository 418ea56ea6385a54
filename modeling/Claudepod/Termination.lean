import Claudepod.Opening

/-! No session goes on without being fed. A loop bound is reached only when some peer has sent
eight bytes for each unit of it, and larger bounds change nothing short of that; so in every
world a session comes to one outcome once its bounds are large enough. -/

set_option autoImplicit false
set_option linter.constructorNameAsVariable false

namespace Claudepod
open Interaction

/-- Some peer has sent so many words. -/
def Fed (fuel : Nat) (t : IoTrace) : Prop := ∃ c : Leg, 8 * fuel ≤ (recvd c t).length

/-- A loop bound of `p` is reached only by a run that was fed. -/
abbrev Fueled {α : Type} (fuel : Nat) (p : Async α) : Prop := Comp.Owes .exhausted (Fed fuel) p

section Steps

variable {α : Type} {fuel : Nat} {p : Async α}

theorem context_fueled {s : String} (h : Fueled fuel p) : Fueled fuel (context s p) :=
  h.mapStop fun e he => by
    cases e with
    | failed e => cases he
    | pending => cases he
    | exhausted => rfl

theorem within_fueled {secs : Nat} (h : Fueled fuel p) : Fueled fuel (within secs p) :=
  h.mapStop fun e he => by
    cases e with
    | failed e => cases he
    | pending => cases he
    | exhausted => rfl

theorem terse_fueled (h : Comp.StopsIn Stop.Terse p) : Fueled fuel p :=
  .of_stopsIn (h.mono fun _ => Stop.Terse.ne_exhausted)

theorem ensure_fueled {P : Prop} [Decidable P] {s : String} : Fueled fuel (ensure P s) :=
  .of_stopsIn (Proc.stopsIn_require (by simp))

theorem bail_fueled {s : String} : Fueled fuel (bail s : Async α) := .throw (by simp)

theorem orSyntheticError_fueled {name : String} (hp : Comp.StopsIn Stop.Terse p)
    (hn : name.utf8ByteSize ≤ 900) : Fueled fuel (orSyntheticError name p) := by
  refine .of_stopsIn fun t s h => ?_
  rcases orSyntheticError_runs hp hn h with ⟨a, ha, -⟩ | ⟨s', hs, hr⟩
  · cases ha
  · rw [Except.error.inj hs]
    exact hr.bounded

/-- The relay loop. -/
theorem relayInner_fueled (host guest : Leg) (forwardLast : Bool) :
    Fueled fuel (relayInner host guest forwardLast fuel) :=
  fun t h => ⟨[], t, rfl, host, relayInner_fuel h⟩

/-- The drain loop. -/
theorem drainToTerminal_fueled (host : Leg) : Fueled fuel (drainToTerminal fuel host) :=
  fun t h => ⟨[], t, rfl, host, drainFrom_fuel h⟩

theorem drainToLast_fueled (host : Leg) : Fueled fuel (drainToLast fuel host) :=
  (drainToTerminal_fueled host).bind fun
    | .last => .pure ()
    | .error _ => bail_fueled

end Steps

/-! ### The opening -/

section Opening

variable {fuel : Nat}

theorem checkUtf8_fueled (fs : List Bytes) : Fueled fuel (checkUtf8 fs) := by
  induction fs with
  | nil => exact .pure ()
  | cons f fs ih => exact (context_fueled ensure_fueled).bind fun _ => ih

theorem checkFeatures_fueled (features : Features) (fs : List Bytes) :
    Fueled fuel (checkFeatures features fs) := by
  induction fs with
  | nil => exact .pure ()
  | cons f fs ih => exact ensure_fueled.bind fun _ => ih

theorem readFeatures_fueled (r : Leg) : Fueled fuel (readFeatures r) := by
  have hitems : ∀ n, Fueled fuel (Proc.readMany (readString r maxGuestString) n) := fun n =>
    terse_fueled (Proc.stopsIn_readMany (readString_terse r _) n)
  have hlist : Fueled fuel (readStringList r maxFeatures maxGuestString) :=
    (terse_fueled (readU64_terse r)).bind fun _ => ensure_fueled.bind fun _ => hitems _
  exact hlist.bind fun items => (checkUtf8_fueled items).bind fun _ => .pure _

theorem writeStringList_fueled (w : Leg) (ss : List Bytes) :
    Fueled fuel (writeStringList w ss) :=
  terse_fueled (writeCounted_terse (writeString_terse w) ss)

theorem upstream_fueled (advertised : List Bytes) (host : Leg) :
    Fueled fuel (upstream advertised host) := by
  have hw : ∀ v, Fueled fuel (writeU64 host v) := fun v => terse_fueled (writeU64_terse host v)
  have hr : Fueled fuel (readU64 host) := terse_fueled (readU64_terse host)
  have hf : Fueled fuel (flush host) := terse_fueled (flush_terse host)
  refine (hw _).bind fun _ => (hw _).bind fun _ => hf.bind fun _ => hr.bind fun _ => ?_
  refine ensure_fueled.bind fun _ => hr.bind fun _ => ensure_fueled.bind fun _ =>
    ensure_fueled.bind fun _ => .ite ?_ (.pure _)
  exact (writeStringList_fueled host advertised).bind fun _ => hf.bind fun _ =>
    (readFeatures_fueled host).bind fun _ => .pure _

theorem downstream_fueled (guest : Leg) (n : Negotiated) : Fueled fuel (downstream guest n) := by
  have hw : ∀ v, Fueled fuel (writeU64 guest v) := fun v => terse_fueled (writeU64_terse guest v)
  have hr : Fueled fuel (readU64 guest) := terse_fueled (readU64_terse guest)
  have hf : Fueled fuel (flush guest) := terse_fueled (flush_terse guest)
  refine (hw _).bind fun _ => (hw _).bind fun _ => hf.bind fun _ => hr.bind fun _ => ?_
  refine ensure_fueled.bind fun _ => .ite ?_ (.pure ())
  exact (readFeatures_fueled guest).bind fun _ => (writeStringList_fueled guest _).bind fun _ =>
    hf.bind fun _ => checkFeatures_fueled _ _

theorem handshakes_fueled (advertised : List Bytes) : Fueled fuel (handshakes advertised) := by
  have hmagic : Fueled fuel (guestMagic .guest) :=
    (terse_fueled (readU64_terse .guest)).bind fun _ => ensure_fueled
  exact (context_fueled (within_fueled hmagic)).bind fun _ =>
    (context_fueled (terse_fueled (dial_terse .host))).bind fun _ =>
    (context_fueled (upstream_fueled advertised .host)).bind fun n =>
    (context_fueled (within_fueled (downstream_fueled .guest n))).bind fun _ => .pure n

theorem postHandshake_fueled : Fueled fuel postHandshake := by
  have hc : Fueled fuel (copyU64 .guest .host) := terse_fueled (copyU64_terse .guest .host)
  have hfields : Fueled fuel clientFields := hc.bind fun _ => .ite (hc.bind fun _ => hc) hc
  exact (context_fueled (within_fueled hfields)).bind fun _ => terse_fueled (flush_terse .host)

theorem greeting_fueled : Fueled fuel (greeting fuel) :=
  (terse_fueled (copyString_terse .host .guest _)).bind fun _ =>
    (terse_fueled (copyU64_terse .host .guest)).bind fun _ =>
    (context_fueled (relayInner_fueled .host .guest true)).bind fun _ =>
    terse_fueled (flush_terse .guest)

theorem opening_fueled (setup : Setup) : Fueled setup.fuel (opening setup) :=
  (handshakes_fueled setup.advertised).bind fun n => postHandshake_fueled.bind fun _ =>
    greeting_fueled.bind fun _ => .pure n

end Opening

/-! ### The loop -/

section Serving

variable {setup : Setup} {fuel : Nat}

theorem copyResult_fueled (op : Op) (n : Negotiated) (host guest : Leg) :
    Fueled fuel (copyResult op n host guest) := by
  have hs : Fueled fuel (copyString host guest maxHostString) :=
    terse_fueled (copyString_terse host guest _)
  have hl : Fueled fuel (copyStringList host guest maxHostString) :=
    terse_fueled (copyStringList_terse host guest _)
  have hw : Fueled fuel (copyU64 host guest) := terse_fueled (copyU64_terse host guest)
  cases op with
  | setOptions => exact .pure ()
  | isValidPath => exact hw.bind fun _ => .pure ()
  | queryReferrers => exact hl
  | queryValidPaths => exact hl
  | queryValidDerivers => exact hl
  | queryPathFromHashPart => exact hs
  | queryPathInfo =>
    exact hw.bind fun valid => .ite (context_fueled (hs.bind fun _ => hs.bind fun _ =>
      hl.bind fun _ => hw.bind fun _ => hw.bind fun _ => hw.bind fun _ => hl.bind fun _ => hs))
      (.pure ())
  | queryRealisation =>
    exact .ite (hw.bind fun tag => ensure_fueled.bind fun _ =>
      .ite (hs.bind fun _ => hl) (.pure ())) hl

theorem relayArgs_fueled (op : Op) (n : Negotiated) (dest : Leg) :
    Fueled fuel (relayArgs op n dest) :=
  orSyntheticError_fueled (copyArgs_terse op n .guest dest) (opName_size op)

theorem relayOp_fueled (op : Op) (n : Negotiated) : Fueled fuel (relayOp fuel op n) :=
  (terse_fueled (writeU64_terse .host op.word)).bind fun _ =>
    (relayArgs_fueled op n .host).bind fun _ =>
    (terse_fueled (flush_terse .host)).bind fun _ =>
    ((context_fueled (relayInner_fueled .host .guest true)).bind fun _ =>
      .ite (context_fueled (copyResult_fueled op n .host .guest)) (.pure ())).bind fun _ =>
    terse_fueled (flush_terse .guest)

theorem writeIsValidPathResult_fueled (valid : Bool) :
    Fueled fuel (writeIsValidPathResult valid) :=
  (terse_fueled (writeU64_terse .guest _)).bind fun _ => terse_fueled (writeU64_terse .guest _)

theorem recheckIsValidPath_fueled (path : Bytes) : Fueled fuel (recheckIsValidPath fuel path) :=
  (terse_fueled (writeU64_terse .host _)).bind fun _ =>
    (terse_fueled (writeString_terse .host path)).bind fun _ =>
    (terse_fueled (flush_terse .host)).bind fun _ =>
    (context_fueled (drainToTerminal_fueled .host)).bind fun
      | .last => (context_fueled (terse_fueled (readU64_terse .host))).bind fun _ => .pure _
      | .error _ => .pure _

theorem poseIsValidPath_fueled : Fueled fuel (poseIsValidPath fuel) := by
  have hargs : Fueled fuel relayIsValidPathArgs := by
    rw [relayIsValidPathArgs_eq]
    exact orSyntheticError_fueled copyPath_terse (by decide)
  exact hargs.bind fun path => (terse_fueled (flush_terse .host)).bind fun _ =>
    (context_fueled (relayInner_fueled .host .guest false)).bind fun _ =>
      .ite (.pure _) ((context_fueled (terse_fueled (readU64_terse .host))).bind fun _ => .pure _)

theorem judgeIsValidPath_fueled (hfill : ∀ path, Fueled setup.fuel (setup.fill path))
    (path : Bytes) (w : UInt64) : Fueled setup.fuel (judgeIsValidPath setup path w) := by
  have hwarn : ∀ reason b, Fueled setup.fuel
      (warnOnDemandFill path reason >>= fun _ => (pure b : Async Bool)) := fun reason b =>
    (Comp.Owes.of_stopsIn (.perform _)).bind fun _ => .pure b
  refine .ite (.pure _) (.ite (.pure _) ?_)
  exact (hfill path).attempt.bind fun
    | .error err => hwarn _ _
    | .ok () => (recheckIsValidPath_fueled path).bind fun
      | .valid => .pure _
      | .invalid => hwarn _ _
      | .daemonError message => hwarn _ _

theorem serveOp_fueled (hfill : ∀ path, Fueled setup.fuel (setup.fill path)) (n : Negotiated)
    (word : UInt64) : Fueled setup.fuel (serveOp setup n word) := by
  cases ha : Op.allowed word with
  | none =>
    rw [serveOp_rejected ha]
    exact (terse_fueled (writeError_terse .guest _)).bind fun _ => bail_fueled
  | some op =>
    obtain rfl := Op.word_of_allowed ha
    by_cases hs : op = .setOptions
    · subst hs
      rw [serveOp_swallowed]
      exact (relayArgs_fueled _ n _).bind fun _ => (terse_fueled (writeU64_terse .guest _)).bind
        fun _ => terse_fueled (flush_terse .guest)
    by_cases hv : op = .isValidPath
    · subst hv
      rw [serveOp_intercepted, interceptIsValidPath_eq]
      refine (terse_fueled (writeU64_terse .host _)).bind fun _ => .bind ?_ fun _ =>
        terse_fueled (flush_terse .guest)
      exact poseIsValidPath_fueled.bind fun
        | (_, none) => .pure ()
        | (path, some w) => (judgeIsValidPath_fueled hfill path w).bind fun valid =>
          writeIsValidPathResult_fueled valid
    · rw [serveOp_relayed hs hv]
      exact relayOp_fueled op n

/-- Every turn of the loop reads a word of the guest. -/
theorem opLoop_fueled (hfill : ∀ path, Fueled setup.fuel (setup.fill path)) (n : Negotiated)
    (k : Nat) :
    Comp.Owes .exhausted (fun t => Fed setup.fuel t ∨ 8 * k ≤ (recvd .guest t).length)
      (opLoop setup n k) := by
  induction k with
  | zero => exact fun t _ => ⟨[], t, rfl, .inr (by simp)⟩
  | succ k ih =>
    intro t h
    rcases (Comp.runs_bind _).mp h with ⟨o, t₁, u, rfl, h₁, h⟩ | ⟨s, hs, h₁⟩
    · have hword := (readU64OrEof_runs h₁).2
      cases o with
      | none => cases ((Comp.runs_pure _ _).mp h).2
      | some word =>
        rcases (Comp.runs_bind _).mp h with ⟨⟨⟩, t₂, t₃, rfl, h₂, h₃⟩ | ⟨s, hs, h₂⟩
        · obtain ⟨u, v, rfl, hv | hv⟩ := ih t₃ h₃
          · exact ⟨t₁ ++ (t₂ ++ u), v, by simp, .inl hv⟩
          · refine ⟨[], t₁ ++ (t₂ ++ (u ++ v)), rfl, .inr ?_⟩
            replace hword : recvd .guest t₁ = le64 word := hword
            rw [recvd_append, recvd_append, recvd_append, hword]
            simp only [List.length_append, le64_length]
            omega
        · obtain rfl := Except.error.inj hs
          obtain ⟨u', v, rfl, hv⟩ := serveOp_fueled hfill n word u h₂
          exact ⟨t₁ ++ u', v, by simp, .inl hv⟩
    · exact absurd (Except.error.inj hs).symm (readU64OrEof_runs h₁).2

end Serving

/-! ### The session -/

theorem run_fueled {setup : Setup} (hfill : ∀ path, Fueled setup.fuel (setup.fill path)) :
    Fueled setup.fuel (run setup) := by
  rw [run_eq]
  refine (opening_fueled setup).bind fun n t h => ?_
  obtain ⟨u, v, rfl, hv | hv⟩ := opLoop_fueled hfill n setup.fuel t h
  · exact ⟨u, v, rfl, hv⟩
  · exact ⟨u, v, rfl, .guest, hv⟩

theorem ensurePath_fueled (advertised : List Bytes) (fuel : Nat) (upstreamPath path : Bytes) :
    Fueled fuel (ensurePath advertised fuel upstreamPath path) := by
  have hw : ∀ v, Fueled fuel (writeU64 .fill v) := fun v => terse_fueled (writeU64_terse .fill v)
  have hr : Fueled fuel (readU64 .fill) := terse_fueled (readU64_terse .fill)
  have hf : Fueled fuel (flush .fill) := terse_fueled (flush_terse .fill)
  have hchecked : Fueled fuel (ofExcept (validateDirect path)) := by
    cases validateDirect path with
    | ok u => exact .pure u
    | error e => exact .throw (by simp)
  refine (context_fueled (terse_fueled (dial_terse .fill))).bind fun _ =>
    (context_fueled hchecked).bind fun _ =>
    (context_fueled (upstream_fueled advertised .fill)).bind fun _ => ?_
  refine (hw _).bind fun _ => (hw _).bind fun _ => hf.bind fun _ =>
    (context_fueled (terse_fueled (readString_terse .fill _))).bind fun _ =>
    (context_fueled hr).bind fun _ => (context_fueled (drainToLast_fueled .fill)).bind fun _ => ?_
  refine (hw _).bind fun _ => (terse_fueled (writeString_terse .fill path)).bind fun _ =>
    hf.bind fun _ => (drainToLast_fueled .fill).attempt.bind fun
      | .error err => bail_fueled
      | .ok () => (context_fueled hr).bind fun _ => ensure_fueled

/-- The proxy goes on only while it is fed. -/
theorem proxyRelay_fueled (roots : Option NixRunRoots) (upstreamPath : Bytes) (fuel : Nat) :
    Fueled fuel (proxyRelay roots upstreamPath fuel) := by
  have hfill : ∀ path, Fueled fuel ((proxySetup roots upstreamPath fuel).fill path) :=
    ensurePath_fueled ourFeatures fuel upstreamPath
  exact run_fueled hfill

/-! ### Larger bounds -/

section More

variable {fuel fuel' : Nat}

/-- `q` comes to what `p` comes to, if `p` comes to anything within its bounds. -/
abbrev Covers {α : Type} (p q : Async α) : Prop := Comp.Approximates Stop.exhausted p q

theorem context_covers {α : Type} {p q : Async α} {s : String} (h : Covers p q) :
    Covers (context s p) (context s q) := h.mapStop rfl

theorem drainToLast_covers (host : Leg) (hf : fuel ≤ fuel') :
    Covers (drainToLast fuel host) (drainToLast fuel' host) :=
  .bind (drainFrom_approximates [] hf) fun _ => .refl _

theorem greeting_covers (hf : fuel ≤ fuel') : Covers (greeting fuel) (greeting fuel') :=
  .bind (.refl _) fun _ => .bind (.refl _) fun _ =>
    .bind (context_covers (relayInner_approximates hf)) fun _ => .refl _

theorem relayReply_covers (hf : fuel ≤ fuel') (op : Op) (n : Negotiated) :
    Covers (relayReply fuel op n) (relayReply fuel' op n) :=
  .bind (context_covers (relayInner_approximates hf)) fun _ => .refl _

theorem recheckIsValidPath_covers (hf : fuel ≤ fuel') (path : Bytes) :
    Covers (recheckIsValidPath fuel path) (recheckIsValidPath fuel' path) :=
  .bind (.refl _) fun _ => .bind (.refl _) fun _ => .bind (.refl _) fun _ =>
    .bind (context_covers (drainFrom_approximates [] hf)) fun _ => .refl _

theorem poseIsValidPath_covers (hf : fuel ≤ fuel') :
    Covers (poseIsValidPath fuel) (poseIsValidPath fuel') :=
  .bind (.refl _) fun _ => .bind (.refl _) fun _ =>
    .bind (context_covers (relayInner_approximates hf)) fun _ => .refl _

theorem ensurePath_covers (advertised : List Bytes) (hf : fuel ≤ fuel')
    (upstreamPath path : Bytes) :
    Covers (ensurePath advertised fuel upstreamPath path)
      (ensurePath advertised fuel' upstreamPath path) := by
  have hd := drainToLast_covers .fill hf
  refine .bind (.refl _) fun _ => .bind (.refl _) fun _ => .bind (.refl _) fun _ => ?_
  refine .bind (.refl _) fun _ => .bind (.refl _) fun _ => .bind (.refl _) fun _ => ?_
  refine .bind (.refl _) fun _ => .bind (.refl _) fun _ => .bind (context_covers hd) fun _ => ?_
  refine .bind (.refl _) fun _ => .bind (.refl _) fun _ => .bind (.refl _) fun _ => ?_
  exact .bind (hd.attempt rfl) fun _ => .refl _

/-- The same session with larger bounds. -/
structure Setup.Extended (setup setup' : Setup) : Prop where
  advertised : setup'.advertised = setup.advertised
  roots : setup'.nixRunRoots = setup.nixRunRoots
  fill : ∀ path, Covers (setup.fill path) (setup'.fill path)
  fuel : setup.fuel ≤ setup'.fuel

namespace Setup.Extended

variable {setup setup' : Setup}

theorem opening_covers (h : setup.Extended setup') : Covers (opening setup) (opening setup') := by
  unfold opening
  rw [h.advertised]
  exact .bind (.refl _) fun _ => .bind (.refl _) fun _ =>
    .bind (greeting_covers h.fuel) fun _ => .refl _

theorem judge_covers (h : setup.Extended setup') (path : Bytes) (w : UInt64) :
    Covers (judgeIsValidPath setup path w) (judgeIsValidPath setup' path w) := by
  unfold judgeIsValidPath
  rw [h.roots]
  refine .ite (.refl _) (.ite (.refl _) ?_)
  refine .bind ((h.fill path).attempt rfl) fun
    | .error err => .refl _
    | .ok () => .bind (recheckIsValidPath_covers h.fuel path) fun _ => .refl _

theorem serveOp_covers (h : setup.Extended setup') (n : Negotiated) (word : UInt64) :
    Covers (serveOp setup n word) (serveOp setup' n word) := by
  cases ha : Op.allowed word with
  | none =>
    rw [serveOp_rejected ha, serveOp_rejected ha]
    exact .refl _
  | some op =>
    obtain rfl := Op.word_of_allowed ha
    by_cases hs : op = .setOptions
    · subst hs
      exact .refl _
    by_cases hv : op = .isValidPath
    · subst hv
      rw [serveOp_intercepted, serveOp_intercepted, interceptIsValidPath_eq,
        interceptIsValidPath_eq]
      refine .bind (.refl _) fun _ => .bind ?_ fun _ => .refl _
      exact .bind (poseIsValidPath_covers h.fuel) fun
        | (_, none) => .refl _
        | (path, some w) => .bind (h.judge_covers path w) fun _ => .refl _
    · rw [serveOp_relayed hs hv, serveOp_relayed hs hv]
      exact .bind (.refl _) fun _ => .bind (.refl _) fun _ => .bind (.refl _) fun _ =>
        .bind (relayReply_covers h.fuel op n) fun _ => .refl _

theorem opLoop_covers (h : setup.Extended setup') (n : Negotiated) {k k' : Nat} (hk : k ≤ k') :
    Covers (opLoop setup n k) (opLoop setup' n k') := by
  induction k generalizing k' with
  | zero => exact .throw _
  | succ k ih =>
    obtain ⟨j, rfl⟩ : ∃ j, k' = j + 1 := ⟨k' - 1, by omega⟩
    exact .bind (.refl _) fun
      | none => .refl _
      | some word => .bind (h.serveOp_covers n word) fun _ => ih (by omega)

theorem run_covers (h : setup.Extended setup') : Covers (run setup) (run setup') := by
  rw [run_eq, run_eq]
  exact .bind h.opening_covers fun n => h.opLoop_covers n h.fuel

end Setup.Extended

theorem proxyRelay_covers (roots : Option NixRunRoots) (upstreamPath : Bytes)
    (hf : fuel ≤ fuel') :
    Covers (proxyRelay roots upstreamPath fuel) (proxyRelay roots upstreamPath fuel') := by
  have hs : (proxySetup roots upstreamPath fuel).Extended (proxySetup roots upstreamPath fuel') :=
    ⟨rfl, rfl, ensurePath_covers ourFeatures hf upstreamPath, hf⟩
  exact hs.run_covers

end More

/-- No run in a world is fed more than the world has to give. -/
theorem exec_fuel {α : Type} {fuel : Nat} {p : Async α} (hp : Fueled fuel p)
    (w : World Leg IoError Error) (hw : ∀ c, w.supply c < 8 * fuel) :
    (p.exec World.step w).value ≠ .error .exhausted := by
  intro hx
  have hr := Comp.exec_runs World.step p w
  rw [hx] at hr
  obtain ⟨u, v, hv, c, hc⟩ := hp _ hr
  have hs := follows_supply c (Comp.exec_follows World.step p w)
  rw [hv, recvd_append, List.length_append] at hs
  have := hw c
  omega

/-- In every world a session of the proxy comes to the same, whatever its bounds, if they are large
enough: to its end, or to wait for ever for a peer that says nothing more. No bound is reached. -/
theorem proxyRelay_ends (roots : Option NixRunRoots) (upstreamPath : Bytes)
    (w : World Leg IoError Error) :
    ∃ o, o.value ≠ .error .exhausted ∧ ∃ k, ∀ fuel, k ≤ fuel →
      (proxyRelay roots upstreamPath fuel).exec World.step w = o := by
  obtain ⟨k, hk⟩ : ∃ k, ∀ c : Leg, w.supply c < 8 * k := by
    refine ⟨w.supply .guest + w.supply .host + w.supply .fill + w.supply .sink + 1, fun c => ?_⟩
    cases c <;> omega
  have hend := exec_fuel (proxyRelay_fueled roots upstreamPath k) w hk
  exact ⟨_, hend, k, fun fuel hf => (proxyRelay_covers roots upstreamPath hf).exec_eq _ _ hend⟩

end Claudepod
