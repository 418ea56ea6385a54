import Claudepod.Ops

/-! Payload relay as framing. A copier that is fed any stream passes on exactly one frame of
its format and leaves the rest, or finds that the stream starts with no frame. -/

set_option autoImplicit false
set_option linter.constructorNameAsVariable false

namespace Interaction

variable {ι ε δ ς : Type} [DecidableEq ι]

/-- A world that sends `x` on `c`, then ends so, and takes whatever is written. -/
def feeding (c : ι) (x : Bytes) (e : Ending ε) : World ι ε δ :=
  ⟨Function.update (fun _ => Peer.script []) c { Peer.script x with ending := e }, [], []⟩

theorem feeding_peer (c : ι) (x : Bytes) (e : Ending ε) :
    ((feeding c x e : World ι ε δ).peers c).incoming = x := by
  simp [feeding, Peer.script]

theorem feeding_other {c d : ι} (x : Bytes) (e : Ending ε) (h : d ≠ c) :
    ((feeding c x e : World ι ε δ).peers d).incoming = [] := by
  simp [feeding, Peer.script, h]

theorem feeding_left (c : ι) (x y : Bytes) (e : Ending ε) :
    (feeding c x e : World ι ε δ).left (Function.update (fun _ => []) c y) [] = feeding c y e := by
  simp only [feeding, World.left, World.mk.injEq, and_true]
  funext d
  by_cases hd : d = c
  · subst hd
    simp [Peer.script]
  · simp [Peer.script, hd]

theorem follows_feeding {c d : ι} {t : Trace ι ε δ} (h : Only (fun e => reads c e ∨ puts d e) t)
    (hc : Only clean t) (y : Bytes) (e : Ending ε) :
    Follows World.step (feeding c (recvd c t ++ y) e) t (feeding c y e) := by
  rw [← feeding_left c (recvd c t ++ y) y e]
  refine follows_of_clean hc (fun x => ?_) (fun x => ?_) ?_
  · by_cases hx : x = c
    · subst hx
      simp [feeding_peer]
    · simp [feeding_other _ _ hx, hx, recvd_other h hx]
  · by_cases hx : x = c
    · subst hx
      simp [feeding, Peer.script]
    · simp [feeding, Peer.script, hx]
  · rw [answered_eq_nil (h.mono fun _ => onWire_of_reads_or_puts)]
    rfl

/-- `p` relays frames of `F` from `c` to `d`. -/
structure Framed (c d : ι) (p : Proc ι ε δ ς Unit) (F : Format Unit) : Prop where
  /-- Whatever the connections do: a relay that succeeds has passed on one frame. -/
  verbatim : ∀ t, p.Runs t (.ok ()) → F () (recvd c t) ∧ sent d t = recvd c t
  /-- Whatever the connections do: a relay that fails has passed on part of what it read. -/
  cut : ∀ t s, p.Runs t (.error s) → sent d t <+: recvd c t
  /-- A frame is relayed in one way, whatever follows it, and what follows is left. -/
  relayed : ∀ x, F () x → ∃ t, recvd c t = x ∧ sent d t = x ∧
    ∀ y e, p.exec World.step (feeding c (x ++ y) e) = ⟨t, .ok (), feeding c y e⟩
  /-- A relay that fails has written a part of the stream. -/
  written : ∀ z e s, (p.exec World.step (feeding c z e)).value = .error s →
    sent d (p.exec World.step (feeding c z e)).trace <+: z
  /-- It fails exactly on the streams that do not start with a frame. -/
  fails : ∀ z e, (∃ s, (p.exec World.step (feeding c z e)).value = .error s) ↔
    ∀ x, x <+: z → ¬ F () x

omit [DecidableEq ι] in
theorem not_dials_of_reads_or_puts {c d x : ι} {e : Event (Resp ι ε δ)} (h : reads c e ∨ puts d e) :
    ¬ dials x e := by
  obtain ⟨o, r⟩ := e
  cases o <;> simp_all [reads, puts, dials]

namespace Copies

variable {c d : ι} {p : Proc ι ε δ ς Unit} {F : Format Unit}

theorem exec_frame (h : Copies c d p F) {x : Bytes} (hx : F () x) :
    ∃ t, recvd c t = x ∧ sent d t = x ∧
      ∀ y e, p.exec World.step (feeding c (x ++ y) e) = ⟨t, .ok (), feeding c y e⟩ := by
  obtain ⟨t, ht, hc, hr⟩ := h.complete hx
  subst hr
  exact ⟨t, rfl, (h.sound ht).2, fun y e =>
    Comp.exec_eq ht (follows_feeding (h.only ht) hc y e)⟩

/-- What has been read is where the stream started. -/
theorem exec_recvd (h : Copies c d p F) (z : Bytes) (e : Ending ε) :
    recvd c (p.exec World.step (feeding c z e)).trace <+: z := by
  have hf := follows_recvd c (Comp.exec_follows World.step p (feeding c z e))
    ((h.only (Comp.exec_runs World.step p (feeding c z e))).mono
      fun _ => not_dials_of_reads_or_puts)
  rw [feeding_peer] at hf
  exact ⟨_, hf.symm⟩

theorem framed (h : Copies c d p F) : Framed c d p F where
  verbatim _ ht := h.sound ht
  cut _ _ ht := h.stopped ht
  relayed _ hx := h.exec_frame hx
  written z e s hv := by
    have hr := Comp.exec_runs World.step p (feeding c z e)
    rw [hv] at hr
    exact (h.stopped hr).trans (h.exec_recvd z e)
  fails z e := by
    constructor
    · intro ⟨s, hs⟩ x ⟨y, hy⟩ hx
      obtain ⟨t, -, -, he⟩ := h.exec_frame hx
      rw [← hy, he y e] at hs
      cases hs
    · intro hno
      have hr := Comp.exec_runs World.step p (feeding c z e)
      cases hv : (p.exec World.step (feeding c z e)).value with
      | error s => exact ⟨s, rfl⟩
      | ok u =>
        rw [hv] at hr
        exact absurd (h.sound hr).1 (hno _ (h.exec_recvd z e))

end Copies

end Interaction

namespace Claudepod
open Interaction

/-! ### Results -/

/-- What the daemon tells about a valid path. -/
structure PathInfo where
  deriver : Bytes
  narHash : Bytes
  references : List Bytes
  registrationTime : UInt64
  narSize : UInt64
  ultimate : UInt64
  sigs : List Bytes
  ca : Bytes
  deriving DecidableEq, Repr

def HostString (s : Bytes) : Prop := s.length ≤ maxHostString.toNat

def HostStrings (ss : List Bytes) : Prop := ss.length ≤ maxCount.toNat ∧ ∀ s ∈ ss, HostString s

structure PathInfo.Valid (i : PathInfo) : Prop where
  deriver : HostString i.deriver
  narHash : HostString i.narHash
  references : HostStrings i.references
  sigs : HostStrings i.sigs
  ca : HostString i.ca

def PathInfo.encode (i : PathInfo) : Bytes :=
  encString i.deriver ++ (encString i.narHash ++ (encStringList i.references ++
    (le64 i.registrationTime ++ (le64 i.narSize ++ (le64 i.ultimate ++
      (encStringList i.sigs ++ encString i.ca))))))

/-- The results a daemon may return. -/
inductive Payload where
  | empty
  | word (w : UInt64)
  | strings (ss : List Bytes)
  | string (s : Bytes)
  | unknownPath
  | pathInfo (valid : UInt64) (info : PathInfo)
  | noRealisation
  | realisation (outPath : Bytes) (signatures : List Bytes)
  deriving DecidableEq, Repr

namespace Payload

def encode : Payload → Bytes
  | empty => []
  | word w => le64 w
  | strings ss => encStringList ss
  | string s => encString s
  | unknownPath => le64 0
  | pathInfo valid info => le64 valid ++ info.encode
  | noRealisation => le64 0
  | realisation outPath signatures => le64 1 ++ (encString outPath ++ encStringList signatures)

/-- The payload answers the op in the negotiated shape, within the caps. -/
def Answers (withPath : Bool) : Op → Payload → Prop
  | .setOptions, empty => True
  | .isValidPath, word _ => True
  | .queryReferrers, strings ss | .queryValidPaths, strings ss | .queryValidDerivers, strings ss =>
    HostStrings ss
  | .queryPathFromHashPart, string s => HostString s
  | .queryPathInfo, unknownPath => True
  | .queryPathInfo, pathInfo valid info => valid ≠ 0 ∧ info.Valid
  | .queryRealisation, strings ss => withPath = false ∧ HostStrings ss
  | .queryRealisation, noRealisation => withPath = true
  | .queryRealisation, realisation outPath signatures =>
    withPath = true ∧ HostString outPath ∧ HostStrings signatures
  | _, _ => False

end Payload

/-- The result grammar of each op. -/
def payloadFormat (op : Op) (withPath : Bool) : Format Unit :=
  fun _ x => ∃ y : Payload, y.Answers withPath op ∧ x = y.encode

theorem pathInfo_format (u : Unit) (x : Bytes) :
    pathInfoFormat u x ↔ ∃ i : PathInfo, i.Valid ∧ x = i.encode := by
  constructor
  · intro ⟨_, _, _, ⟨s, hs, h₁⟩, ⟨_, _, _, ⟨n, hn, h₂⟩, ⟨_, _, _, ⟨rs, hrs, h₃⟩,
      ⟨rt, _, _, ⟨_, h₄⟩, ⟨ns, _, _, ⟨_, h₅⟩, ⟨ul, _, _, ⟨_, h₆⟩, ⟨_, _, _, ⟨sg, hsg, h₇⟩,
      ⟨ca, hca, h₈⟩, e₇⟩, e₆⟩, e₅⟩, e₄⟩, e₃⟩, e₂⟩, e₁⟩
    subst h₁ h₂ h₃ h₄ h₅ h₆ h₇ h₈ e₇ e₆ e₅ e₄ e₃ e₂ e₁
    exact ⟨⟨s, n, rs, rt, ns, ul, sg, ca⟩, ⟨hs, hn, hrs, hsg, hca⟩, rfl⟩
  · intro ⟨i, hi, hx⟩
    subst hx
    exact ⟨(), _, _, ⟨_, hi.deriver, rfl⟩, ⟨(), _, _, ⟨_, hi.narHash, rfl⟩,
      ⟨(), _, _, ⟨_, hi.references, rfl⟩, ⟨_, _, _, ⟨trivial, rfl⟩, ⟨_, _, _, ⟨trivial, rfl⟩,
      ⟨_, _, _, ⟨trivial, rfl⟩, ⟨(), _, _, ⟨_, hi.sigs, rfl⟩, ⟨_, hi.ca, rfl⟩,
      rfl⟩, rfl⟩, rfl⟩, rfl⟩, rfl⟩, rfl⟩, rfl⟩

/-- An op whose payloads are the values of one format. -/
theorem shape_payload {α : Type} {F : Format α} {op : Op} {withPath : Bool} (mk : α → Payload)
    (hf : ∀ a x, F a x ↔ (mk a).Answers withPath op ∧ x = (mk a).encode)
    (hm : ∀ y : Payload, y.Answers withPath op → ∃ a, mk a = y) (x : Bytes) :
    F.erase () x ↔ payloadFormat op withPath () x := by
  constructor
  · intro ⟨a, ha⟩
    exact ⟨mk a, (hf a x).mp ha⟩
  · intro ⟨y, hy, hx⟩
    obtain ⟨a, rfl⟩ := hm y hy
    exact ⟨a, (hf a x).mpr ⟨hy, hx⟩⟩

theorem empty_payload (withPath : Bool) (x : Bytes) :
    Format.pure () () x ↔ payloadFormat .setOptions withPath () x := by
  constructor
  · intro ⟨_, hx⟩
    exact ⟨.empty, trivial, hx⟩
  · intro ⟨y, hy, hx⟩
    cases y with
    | empty => exact ⟨rfl, hx⟩
    | _ => exact hy.elim

theorem word_payload (withPath : Bool) (x : Bytes) :
    wordFormat.erase () x ↔ payloadFormat .isValidPath withPath () x := by
  refine @shape_payload _ wordFormat _ _ .word (fun _ _ => Iff.rfl) (fun y hy => ?_) x
  cases y with
  | word w => exact ⟨w, rfl⟩
  | _ => exact hy.elim

theorem string_payload (withPath : Bool) (x : Bytes) :
    (stringFormat maxHostString).erase () x ↔
      payloadFormat .queryPathFromHashPart withPath () x := by
  refine @shape_payload _ (stringFormat maxHostString) _ _ .string (fun _ _ => Iff.rfl)
    (fun y hy => ?_) x
  cases y with
  | string s => exact ⟨s, rfl⟩
  | _ => exact hy.elim

theorem strings_payload {op : Op} {withPath : Bool}
    (h : ∀ ss, (Payload.strings ss).Answers withPath op ↔ HostStrings ss)
    (hm : ∀ y : Payload, y.Answers withPath op → ∃ ss, Payload.strings ss = y) (x : Bytes) :
    (stringListFormat maxCount maxHostString).erase () x ↔ payloadFormat op withPath () x :=
  shape_payload .strings (fun ss _ => and_congr_left' (h ss).symm) hm x

theorem info_payload (withPath : Bool) (x : Bytes) :
    (wordFormat.bind fun valid => if valid ≠ 0 then pathInfoFormat else Format.pure ()) () x ↔
      payloadFormat .queryPathInfo withPath () x := by
  constructor
  · intro ⟨valid, _, z, ⟨_, hv⟩, hz, hx⟩
    subst hv hx
    dsimp only at hz
    by_cases h : valid = 0
    · rw [if_neg (not_not.mpr h)] at hz
      obtain ⟨-, rfl⟩ := hz
      exact ⟨.unknownPath, trivial, by rw [h, List.append_nil]; rfl⟩
    · rw [if_pos h] at hz
      obtain ⟨i, hi, rfl⟩ := (pathInfo_format _ _).mp hz
      exact ⟨.pathInfo valid i, ⟨h, hi⟩, rfl⟩
  · intro ⟨y, hy, hx⟩
    subst hx
    cases y with
    | unknownPath => exact ⟨0, _, [], ⟨trivial, rfl⟩, ⟨rfl, rfl⟩, (List.append_nil _).symm⟩
    | pathInfo valid i =>
      refine ⟨valid, _, i.encode, ⟨trivial, rfl⟩, ?_, rfl⟩
      dsimp only
      rw [if_pos hy.1]
      exact (pathInfo_format _ _).mpr ⟨i, hy.2, rfl⟩
    | _ => exact hy.elim

theorem realisation_payload (x : Bytes) :
    (wordFormat.bind fun tag => Format.guard (tag ≤ 1) <|
      if tag = 1 then (stringFormat maxHostString).erase.bind fun _ =>
        (stringListFormat maxCount maxHostString).erase
      else Format.pure ()) () x ↔ payloadFormat .queryRealisation true () x := by
  constructor
  · intro ⟨tag, _, z, ⟨_, ht⟩, ⟨hle, hz⟩, hx⟩
    subst ht hx
    by_cases h : tag = 1
    · rw [if_pos h] at hz
      obtain ⟨-, x, y, ⟨s, hs, rfl⟩, ⟨ss, hss, rfl⟩, rfl⟩ := hz
      subst h
      exact ⟨.realisation s ss, ⟨rfl, hs, hss⟩, rfl⟩
    · rw [if_neg h] at hz
      obtain ⟨-, rfl⟩ := hz
      have h0 : tag = 0 := by
        rw [UInt64.le_iff_toNat_le] at hle
        rw [← UInt64.toNat_inj] at h ⊢
        simp at hle h ⊢
        omega
      exact ⟨.noRealisation, rfl, by rw [h0, List.append_nil]; rfl⟩
  · intro ⟨y, hy, hx⟩
    subst hx
    cases y with
    | strings ss => exact absurd hy.1 (by simp)
    | noRealisation =>
      exact ⟨0, _, [], ⟨trivial, rfl⟩, ⟨by decide, ⟨rfl, rfl⟩⟩, (List.append_nil _).symm⟩
    | realisation s ss =>
      exact ⟨1, _, _, ⟨trivial, rfl⟩, ⟨by decide, (), _, _, ⟨s, hy.2.1, rfl⟩,
        ⟨ss, hy.2.2, rfl⟩, rfl⟩, rfl⟩
    | _ => exact hy.elim

/-- The format the result copier is built from spells exactly the payloads of the op. -/
theorem resultFormat_iff (op : Op) (withPath : Bool) (u : Unit) (x : Bytes) :
    resultFormat op withPath u x ↔ payloadFormat op withPath u x := by
  cases op with
  | setOptions => exact empty_payload withPath x
  | isValidPath => exact word_payload withPath x
  | queryReferrers =>
    refine strings_payload (fun _ => Iff.rfl) (fun y hy => ?_) x
    cases y with
    | strings ss => exact ⟨ss, rfl⟩
    | _ => exact hy.elim
  | queryValidPaths =>
    refine strings_payload (fun _ => Iff.rfl) (fun y hy => ?_) x
    cases y with
    | strings ss => exact ⟨ss, rfl⟩
    | _ => exact hy.elim
  | queryValidDerivers =>
    refine strings_payload (fun _ => Iff.rfl) (fun y hy => ?_) x
    cases y with
    | strings ss => exact ⟨ss, rfl⟩
    | _ => exact hy.elim
  | queryPathFromHashPart => exact string_payload withPath x
  | queryPathInfo => exact info_payload withPath x
  | queryRealisation =>
    cases withPath with
    | false =>
      refine @strings_payload .queryRealisation false (fun _ => and_iff_right rfl)
        (fun y hy => ?_) x
      cases y with
      | strings ss => exact ⟨ss, rfl⟩
      | noRealisation => cases hy
      | realisation outPath signatures => cases hy.1
      | _ => exact hy.elim
    | true => exact realisation_payload x

/-- Arguments and results of every op are relayed frame by frame, verbatim. -/
theorem payloads_framed (op : Op) (n : Negotiated) (guest host : Leg) :
    Framed guest host (copyArgs op n guest host) (argsFormat op n.realisationWithPath) ∧
      Framed host guest (copyResult op n host guest) (payloadFormat op n.realisationWithPath) :=
  ⟨(copyArgs_copies op n guest host).framed,
    ((copyResult_copies op n host guest).congr (resultFormat_iff op _)).framed⟩

end Claudepod
