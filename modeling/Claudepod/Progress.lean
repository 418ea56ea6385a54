import Claudepod.Turn

/-! What serving an op can come to when nothing fails: for a valid request and the host's
replies to it there is a run that carries them, in stretches from the guest to the host
and back. -/

set_option autoImplicit false

namespace Claudepod
open Interaction

/-- A stretch from the guest to the host that leaves nothing in the host's buffer. -/
structure Posing (x y : Bytes) (t : IoTrace) : Prop where
  carries : Carries .guest .host x y t
  flushed : ∀ buf, held .host buf t = []

abbrev Answering (x y : Bytes) (t : IoTrace) : Prop := Carries .host .guest x y t

theorem Posing.flow {x y : Bytes} {t : IoTrace} (h : Posing x y t) :
    flow t = ⟨x, y, [], [], []⟩ := by
  rw [flow_up h.carries.only, h.carries.recvd, h.carries.sent]

theorem Answering.flow {x y : Bytes} {t : IoTrace} (h : Answering x y t) :
    flow t = ⟨[], [], x, y, []⟩ := by
  rw [flow_down h.only, h.recvd, h.sent]

/-- A flush at the end of a stretch. -/
theorem Posing.of_flush {x y : Bytes} {t : IoTrace} (h : Carries .guest .host x y t) :
    ∃ u, (flush .host).Runs u (.ok ()) ∧ Posing x y (t ++ u) := by
  obtain ⟨u, hu, hc⟩ := (flush_emits .host).carries .guest
  refine ⟨u, hu, ?_, fun buf => ?_⟩
  · have := h.append hc
    rwa [List.append_nil, List.append_nil] at this
  · rw [held_append, flush_held hu]

theorem orSyntheticError_carries {α : Type} {p : Async α} {F : Format α} {a : α} {c d : Leg}
    {x : Bytes} (name : String) (h : Copies c d p F) (hx : F a x) :
    ∃ t, (orSyntheticError name p).Runs t (.ok a) ∧ Carries c d x x t := by
  obtain ⟨t, ht, hc⟩ := h.carries hx
  exact ⟨t, orSyntheticError_complete ht, hc⟩

/-- The log messages of a reply and its terminal message, passed on. -/
theorem relayInner_carries {ms : List Message} {m : Message} {term : Terminal}
    (forwardLast : Bool) (hms : Logs ms) (hm : m.Valid) (ht : m.terminal = some term) :
    ∃ t, Answering (encMessages ms ++ m.encode) (encMessages ms ++ m.shown forwardLast) t ∧
      ∀ fuel, ms.length < fuel → (relayInner .host .guest forwardLast fuel).Runs t (.ok term) := by
  obtain ⟨t, hc, hr, hs, hrun⟩ := relayInner_complete hms hm ht
  exact ⟨t, ⟨(relayInner_runs (hrun _ (Nat.lt_succ_self _))).only, hc, hr, hs⟩, hrun⟩

/-! ### The generic path -/

section Generic

variable {fuel : Nat} {op : Op} {n : Negotiated}

/-- What asks the host for an op. -/
def askHost (op : Op) (negotiated : Negotiated) : Async Unit := do
  writeU64 .host op.word
  relayArgs op negotiated .host
  flush .host

theorem relayOp_eq (fuel : Nat) (op : Op) (n : Negotiated) :
    relayOp fuel op n = askHost op n >>= fun _ => relayReply fuel op n >>= fun _ =>
      flush .guest := by
  simp only [relayOp, askHost, bind_assoc]

theorem askHost_complete {r : Request} (h : r.Valid n.realisationWithPath) :
    ∃ t, (askHost r.op n).Runs t (.ok ()) ∧ Posing r.args r.encode t := by
  obtain ⟨t₁, h₁, hc₁⟩ := (writeU64_emits .host r.op.word).carries .guest
  obtain ⟨t₂, h₂, hc₂⟩ := orSyntheticError_carries r.op.name
    (copyArgs_copies r.op n .guest .host) (a := ()) ⟨r, rfl, h, rfl⟩
  obtain ⟨t₃, h₃, hc₃⟩ := Posing.of_flush (hc₁.append hc₂)
  refine ⟨_, ?_, hc₃⟩
  rw [List.append_assoc]
  exact h₁.bind (h₂.bind h₃)

theorem relayReply_complete {reply : Reply} (h : reply.Valid op n.realisationWithPath) :
    ∃ t, Answering reply.encode reply.encode t ∧
      ∀ fuel, reply.logs.length < fuel → (relayReply fuel op n).Runs t (.ok ()) := by
  cases reply with
  | error logs e =>
    obtain ⟨hl, he⟩ := h
    obtain ⟨t, hc, hrun⟩ := relayInner_carries (m := .error e) true hl he rfl
    refine ⟨t, hc, fun fuel hf => ?_⟩
    rw [← List.append_nil t]
    exact ((Comp.runs_mapStop_ok _ _).mpr (hrun fuel hf)).bind ⟨rfl, rfl⟩
  | last logs result =>
    obtain ⟨hl, hr⟩ := h
    obtain ⟨t₁, hc₁, hrun⟩ := relayInner_carries (m := .last) true hl trivial rfl
    obtain ⟨t₂, h₂, hc₂⟩ := (copyResult_copies op n .host .guest).carries hr
    refine ⟨t₁ ++ t₂, ?_, fun fuel hf => ?_⟩
    · have := hc₁.append hc₂
      rwa [List.append_assoc, List.append_assoc] at this
    · refine ((Comp.runs_mapStop_ok _ _).mpr (hrun fuel hf)).bind ?_
      rw [if_pos rfl]
      exact (Comp.runs_mapStop_ok _ _).mpr h₂

/-- Behind a flush the guest has seen no more. -/
theorem Answering.then_flush {x y : Bytes} {t : IoTrace} (h : Answering x y t) :
    ∃ u, (flush .guest).Runs u (.ok ()) ∧ Answering x y (t ++ u) := by
  obtain ⟨u, hu, hc⟩ := (flush_emits .guest).carries .host
  refine ⟨u, hu, ?_⟩
  have := h.append hc
  rwa [List.append_nil, List.append_nil] at this

theorem relayOp_complete {r : Request} {reply : Reply} (hr : r.Valid n.realisationWithPath)
    (hq : reply.Valid r.op n.realisationWithPath) :
    ∃ t u, Posing r.args r.encode t ∧ Answering reply.encode reply.encode u ∧
      ∀ fuel, reply.logs.length < fuel → (relayOp fuel r.op n).Runs (t ++ u) (.ok ()) := by
  obtain ⟨t, ht, ha⟩ := askHost_complete hr
  obtain ⟨u, hu, hrun⟩ := relayReply_complete hq
  obtain ⟨v, hv, hw⟩ := hu.then_flush
  refine ⟨t, u ++ v, ha, hw, fun fuel hf => ?_⟩
  rw [relayOp_eq]
  exact ht.bind ((hrun fuel hf).bind hv)

end Generic

/-! ### The op that is swallowed -/

theorem swallowed_complete {n : Negotiated} {r : Request}
    (ho : r.op = .setOptions) (hv : r.Valid n.realisationWithPath) :
    ∃ t u, Carries .guest .sink r.args r.args t ∧ Answering [] (le64 stderrLast) u ∧
      Only (puts .guest) u ∧
      ∀ setup, (serveOp setup n r.op.word).Runs (t ++ u) (.ok ()) := by
  obtain ⟨t₁, h₁, hc₁⟩ := orSyntheticError_carries Op.setOptions.name
    (copyArgs_copies .setOptions n .guest .sink) (a := ()) ⟨r, ho, hv, rfl⟩
  have hw := writeU64_emits .guest stderrLast
  obtain ⟨t₂, h₂, hc₂⟩ := hw.carries .host
  obtain ⟨t₃, h₃, hc₃⟩ := Answering.then_flush hc₂
  refine ⟨t₁, t₂ ++ t₃, hc₁, hc₃,
    only_append.mpr ⟨hw.only h₂, (flush_emits .guest).only h₃⟩, fun setup => ?_⟩
  rw [ho, serveOp_swallowed]
  exact h₁.bind (h₂.bind h₃)

/-! ### The interception -/

section Intercepted

variable {setup : Setup} {n : Negotiated} {path : Bytes}

/-- What asks the host for the validity of the guest's path. -/
def askPath : Async Bytes := do
  writeU64 .host Op.isValidPath.word
  let path ← relayIsValidPathArgs
  flush .host
  pure path

/-- What hears the host's first reply to that. -/
def hearPath (fuel : Nat) (path : Bytes) : Async (Bytes × Option UInt64) := do
  let terminal ← context "IsValidPath stderr" (relayWithoutLast fuel .host .guest)
  if terminal = .error then pure (path, none)
  else do
    let hostValid ← context "IsValidPath result" (readU64 .host)
    pure (path, some hostValid)

theorem serveOp_path (setup : Setup) (n : Negotiated) :
    serveOp setup n Op.isValidPath.word = askPath >>= fun path => hearPath setup.fuel path >>=
      fun answer => tellIsValidPath setup answer >>= fun _ => flush .guest := by
  rw [serveOp_intercepted, interceptIsValidPath_eq]
  simp only [askPath, hearPath, poseIsValidPath, bind_assoc, pure_bind]

theorem askPath_complete (h : path.length ≤ maxGuestString.toNat) :
    ∃ t, askPath.Runs t (.ok path) ∧
      Posing (encString path) (Request.isValidPath path).encode t := by
  obtain ⟨t₁, h₁, hc₁⟩ := (writeU64_emits .host Op.isValidPath.word).carries .guest
  obtain ⟨t₂, h₂, hc₂⟩ := orSyntheticError_carries "IsValidPath" copyPath_copies
    (a := path) ⟨h, rfl⟩
  obtain ⟨t₃, h₃, hc₃⟩ := Posing.of_flush (hc₁.append hc₂)
  refine ⟨_, ?_, hc₃⟩
  rw [List.append_assoc, ← List.append_nil t₃]
  exact h₁.bind (h₂.bind (h₃.bind ⟨rfl, rfl⟩))

theorem hearPath_refused (path : Bytes) {logs : List Message} {e : ErrorPayload}
    (hl : Logs logs) (he : e.Valid) :
    ∃ t, Answering (Reply.error logs e).encode (Reply.error logs e).encode t ∧
      ∀ fuel, logs.length < fuel → (hearPath fuel path).Runs t (.ok (path, none)) := by
  obtain ⟨t, hc, hrun⟩ := relayInner_carries (m := .error e) false hl he rfl
  refine ⟨t, hc, fun fuel hf => ?_⟩
  rw [← List.append_nil t]
  exact ((Comp.runs_mapStop_ok _ _).mpr (hrun fuel hf)).bind ⟨rfl, rfl⟩

theorem hearPath_answered (path : Bytes) {logs : List Message} (w : UInt64) (hl : Logs logs) :
    ∃ t, Answering (Reply.last logs (le64 w)).encode (encMessages logs) t ∧
      ∀ fuel, logs.length < fuel → (hearPath fuel path).Runs t (.ok (path, some w)) := by
  obtain ⟨t₁, hc₁, hrun⟩ := relayInner_carries (m := .last) false hl trivial rfl
  obtain ⟨t₂, h₂, hc₂⟩ := (readU64_decodes .host).carries (x := le64 w) ⟨trivial, rfl⟩ .guest
  refine ⟨t₁ ++ (t₂ ++ []), ?_, fun fuel hf => ?_⟩
  · have hc := hc₁.append hc₂
    rw [List.append_assoc, List.append_nil, show Message.shown false .last = [] from rfl,
      List.append_nil] at hc
    rw [List.append_nil]
    exact hc
  · exact ((Comp.runs_mapStop_ok _ _).mpr (hrun fuel hf)).bind
      (((Comp.runs_mapStop_ok _ _).mpr h₂).bind ⟨rfl, rfl⟩)

/-- The answer to the guest. -/
theorem tell_complete (valid : Bool) :
    ∃ t, Answering [] (le64 stderrLast ++ validWord valid) t ∧
      (writeIsValidPathResult valid >>= fun _ => flush .guest : Async Unit).Runs t (.ok ()) := by
  obtain ⟨t₁, h₁, hc₁⟩ := (writeIsValidPathResult_emits valid).carries .host
  obtain ⟨t₂, h₂, hc₂⟩ := Answering.then_flush hc₁
  exact ⟨_, hc₂, h₁.bind h₂⟩

/-! ### The re-check -/

def askAgain (path : Bytes) : Async Unit := do
  writeU64 .host Op.isValidPath.word
  writeString .host path
  flush .host

def hearAgain (fuel : Nat) : Async Recheck := do
  match ← context "IsValidPath re-check stderr" (drainToTerminal fuel .host) with
  | .last => do
    let word ← context "IsValidPath re-check result" (readU64 .host)
    pure (if word ≠ 0 then .valid else .invalid)
  | .error message => pure (.daemonError message)

theorem recheckIsValidPath_eq (fuel : Nat) (path : Bytes) :
    recheckIsValidPath fuel path = askAgain path >>= fun _ => hearAgain fuel := by
  have h : (askAgain path >>= fun _ => hearAgain fuel) =
      writeU64 .host Op.isValidPath.word >>= fun _ => writeString .host path >>= fun _ =>
        flush .host >>= fun _ => hearAgain fuel := by
    simp only [askAgain, bind_assoc]
  rw [h]
  rfl

theorem askAgain_complete (path : Bytes) :
    ∃ t, (askAgain path).Runs t (.ok ()) ∧ Posing [] (Request.isValidPath path).encode t := by
  obtain ⟨t₁, h₁, hc₁⟩ := (writeU64_emits .host Op.isValidPath.word).carries .guest
  obtain ⟨t₂, h₂, hc₂⟩ := (writeString_emits .host path).carries .guest
  obtain ⟨t₃, h₃, hc₃⟩ := Posing.of_flush (hc₁.append hc₂)
  refine ⟨_, ?_, hc₃⟩
  rw [List.append_assoc]
  exact h₁.bind (h₂.bind h₃)

theorem hearAgain_complete {reply : Reply} {withPath : Bool}
    (h : reply.Valid .isValidPath withPath) :
    ∃ t again, Answering reply.encode [] t ∧ Rechecked again reply ∧
      ∀ fuel, reply.logs.length < fuel → (hearAgain fuel).Runs t (.ok again) := by
  have hcarry : ∀ {ms : List Message} {m : Message} {d : Drained}, Logs ms → m.Valid →
      m.drained (ms.foldl pushMessage []) = some d →
      ∃ t, Answering (encMessages ms ++ m.encode) [] t ∧
        ∀ fuel, ms.length < fuel → (drainToTerminal fuel .host).Runs t (.ok d) := by
    intro ms m d hms hm hd
    obtain ⟨t, hc, hr, hrun⟩ := drainFrom_complete hms hm hd
    have ho := (drainFrom_runs (hrun _ (Nat.lt_succ_self _))).1
    exact ⟨t, ⟨ho.mono fun _ => .inl, hc, hr, sent_of_reads (ho.mono fun _ => readsFrom_of_reads)⟩,
      hrun⟩
  cases reply with
  | error logs e =>
    obtain ⟨hl, he⟩ := h
    obtain ⟨t, hc, hrun⟩ := hcarry (m := .error e) hl he rfl
    refine ⟨t, .daemonError (drainedError (logs.foldl pushMessage []) e), hc,
      .daemonError hl he, fun fuel hf => ?_⟩
    rw [← List.append_nil t]
    exact ((Comp.runs_mapStop_ok _ _).mpr (hrun fuel hf)).bind ⟨rfl, rfl⟩
  | last logs result =>
    obtain ⟨hl, w, -, rfl⟩ := h
    obtain ⟨t₁, hc₁, hrun⟩ := hcarry (m := .last) hl trivial rfl
    obtain ⟨t₂, h₂, hc₂⟩ := (readU64_decodes .host).carries (x := le64 w) ⟨trivial, rfl⟩ .guest
    refine ⟨t₁ ++ (t₂ ++ []), if w ≠ 0 then .valid else .invalid, ?_, ?_, fun fuel hf => ?_⟩
    · have hc := hc₁.append hc₂
      rw [List.append_assoc] at hc
      rw [List.append_nil]
      exact hc
    · by_cases hw : w ≠ 0
      · rw [if_pos hw]
        exact .valid hl hw
      · rw [if_neg hw, not_not.mp hw]
        exact .invalid hl
    · exact ((Comp.runs_mapStop_ok _ _).mpr (hrun fuel hf)).bind
        (((Comp.runs_mapStop_ok _ _).mpr h₂).bind ⟨rfl, rfl⟩)

end Intercepted

end Claudepod
