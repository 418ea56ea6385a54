import Claudepod.Startup

/-! What the two handshakes agree on. The relay does not translate, so host daemon, proxy
and guest must go on with one version and one set of features. -/

set_option autoImplicit false

namespace Claudepod
open Interaction

/-- The version a peer goes on with: the lower of its own and the one it is sent. -/
def effectiveVersion (own sent : UInt64) : Version := min (.fromWire own) (.fromWire sent)

/-- The features a peer goes on with, where the version has an exchange of them: those of
its own that it is sent. -/
def effectiveFeatures (version : Version) (own sent : List Bytes) : Set Bytes :=
  {f | featureExchange ≤ version ∧ f ∈ own ∧ f ∈ sent}

/-- The legs of a session, one after the other. -/
def legs (advertised : List Bytes) : Async Negotiated := do
  let negotiated ← upstream advertised .host
  downstream .guest negotiated
  pure negotiated

/-- The version a daemon's word makes the proxy negotiate. -/
def offered (daemonWord : UInt64) : Version := min (.fromWire daemonWord) ourVersion

/-- The stream of a daemon that sends its word and, if the version both have calls for it,
its features. -/
def daemonStream (word : UInt64) (features : List Bytes) : Bytes :=
  le64 workerMagic2 ++ (le64 word ++ exchanged (effectiveVersion word ourVersion.toWire) features)

/-- The stream of a guest that is sent `version`. -/
def guestStream (version : Version) (word : UInt64) (features : List Bytes) : Bytes :=
  le64 word ++ exchanged (effectiveVersion word version.toWire) features

/-- What keeps the legs from agreeing. -/
inductive Mismatch (advertised : List Bytes) (daemonWord : UInt64) (daemonFeatures : List Bytes)
    (guestWord : UInt64) (guestFeatures : List Bytes) : Prop
  | major : (Version.fromWire daemonWord).major ≠ 1 → Mismatch advertised _ _ _ _
  | floor : ¬ versionFloor ≤ offered daemonWord → Mismatch advertised _ _ _ _
  | lower : ¬ offered daemonWord ≤ effectiveVersion guestWord (offered daemonWord).toWire →
      Mismatch advertised _ _ _ _
  | missing {f : Bytes} : f ∈ agreed (offered daemonWord) advertised daemonFeatures →
      f ∉ guestFeatures → Mismatch advertised _ _ _ _

theorem effectiveVersion_toWire (word : UInt64) (version : Version) :
    effectiveVersion word version.toWire = min (.fromWire word) version := by
  rw [effectiveVersion, Version.fromWire_toWire]

theorem mem_agreed {version : Version} {advertised features : List Bytes} {f : Bytes} :
    f ∈ agreed version advertised features ↔
      featureExchange ≤ version ∧ f ∈ features ∧ f ∈ advertised := by
  unfold agreed common
  split
  · rename_i h
    simp [h, and_comm]
  · rename_i h
    simp [h]

theorem offered_major {word : UInt64} (h : (Version.fromWire word).major = 1) :
    (offered word).major = 1 := by
  rw [offered, Version.min_eq]
  split
  · exact h
  · rfl

theorem effectiveVersion_of_le {word : UInt64} {version : Version}
    (h : version ≤ .fromWire word) : effectiveVersion word version.toWire = version := by
  rw [effectiveVersion_toWire, Version.min_eq_right h]

/-- A guest whose effective version is not lower is itself of no lower version. -/
theorem le_of_le_effectiveVersion {word : UInt64} {version : Version}
    (h : version ≤ effectiveVersion word version.toWire) : version ≤ .fromWire word := by
  rw [effectiveVersion_toWire, Version.min_eq] at h
  split at h
  · exact h
  · rcases Version.le_total version (.fromWire word) with hv | hv
    · exact hv
    · exact absurd hv ‹_›

theorem legs_ok {advertised : List Bytes} {n : Negotiated} {t : IoTrace}
    (h : (legs advertised).Runs t (.ok n)) :
    UpstreamTalk advertised n (recvd .host t) (sent .host t) ∧
      DownstreamTalk n (recvd .guest t) (sent .guest t) := by
  obtain ⟨n', t₁, u, rfl, h₁, h⟩ := (Comp.runs_bind_ok _).mp h
  obtain ⟨⟨⟩, t₂, t₃, rfl, h₂, h₃⟩ := (Comp.runs_bind_ok _).mp h
  obtain ⟨rfl, hn⟩ := (Comp.runs_pure _ _).mp h₃
  obtain rfl := Except.ok.inj hn
  have hu := upstream_converses advertised .host
  have hd := downstream_converses .guest n
  have h₁' := hu.only h₁
  have h₂' := hd.only h₂
  rw [List.append_nil, recvd_append, recvd_append, sent_append, sent_append,
    recvd_other (x := .host) h₂' (by decide), sent_other (x := .host) h₂' (by decide),
    recvd_other (x := .guest) h₁' (by decide), sent_other (x := .guest) h₁' (by decide),
    List.append_nil, List.append_nil, List.nil_append, List.nil_append]
  exact ⟨hu.sound h₁, hd.sound h₂⟩

theorem legs_complete {advertised : List Bytes} {n : Negotiated} {x y u v : Bytes}
    (hu : UpstreamTalk advertised n x y) (hd : DownstreamTalk n u v) :
    ∃ t, (legs advertised).Runs t (.ok n) ∧ Only clean t ∧ recvd .host t = x ∧
      recvd .guest t = u := by
  obtain ⟨t₁, h₁, hc₁, rfl, -⟩ := (upstream_converses advertised .host).complete hu
  obtain ⟨t₂, h₂, hc₂, rfl, -⟩ := (downstream_converses .guest n).complete (a := ()) hd
  refine ⟨t₁ ++ (t₂ ++ []), h₁.bind (h₂.bind ⟨rfl, rfl⟩), by simp [hc₁, hc₂], ?_, ?_⟩
  · rw [List.append_nil, recvd_append, recvd_other (x := .host)
      ((downstream_converses .guest n).only h₂) (by decide), List.append_nil]
  · rw [List.append_nil, recvd_append, recvd_other (x := .guest)
      ((upstream_converses advertised .host).only h₁) (by decide), List.nil_append]

/-- The daemon and the guest go on with what the proxy negotiated. -/
structure Agreement (advertised : List Bytes) (n : Negotiated) (daemonWord : UInt64)
    (daemonFeatures : List Bytes) (guestWord : UInt64) (guestFeatures : List Bytes) : Prop where
  daemonVersion : effectiveVersion daemonWord ourVersion.toWire = n.version
  guestVersion : effectiveVersion guestWord n.version.toWire = n.version
  floor : versionFloor ≤ n.version
  ceiling : n.version ≤ ourVersion
  major : n.version.major = 1
  daemonFeatures : effectiveFeatures n.version daemonFeatures advertised = {f | f ∈ n.features}
  guestFeatures : effectiveFeatures n.version guestFeatures n.features.items =
    {f | f ∈ n.features}

/-- What passes on each leg: the hellos, and feature lists on both legs or on neither. -/
structure LegBytes (advertised : List Bytes) (n : Negotiated) (daemonWord : UInt64)
    (daemonFeatures : List Bytes) (guestWord : UInt64) (guestFeatures : List Bytes)
    (t : IoTrace) : Prop where
  fromHost : recvd .host t =
    le64 workerMagic2 ++ (le64 daemonWord ++ exchanged n.version daemonFeatures)
  toHost : sent .host t =
    le64 workerMagic1 ++ (le64 ourVersion.toWire ++ exchanged n.version advertised)
  fromGuest : recvd .guest t = le64 guestWord ++ exchanged n.version guestFeatures
  toGuest : sent .guest t =
    le64 workerMagic2 ++ (le64 n.version.toWire ++ exchanged n.version n.features.items)

theorem agreement {advertised : List Bytes} {n : Negotiated} {word guestWord : UInt64}
    {fs gs : List Bytes} (ha : Accepted word)
    (hn : n = ⟨offered word, agreed (offered word) advertised fs⟩)
    (hv : n.version ≤ .fromWire guestWord)
    (hg : featureExchange ≤ n.version → FeatureList gs ∧ ∀ f ∈ n.features, f ∈ gs) :
    Agreement advertised n word fs guestWord gs := by
  subst hn
  refine ⟨effectiveVersion_toWire .., effectiveVersion_of_le hv, ha.floor,
    Version.min_le_right .., offered_major ha.major, ?_, ?_⟩
  · ext f
    exact mem_agreed.symm
  · ext f
    constructor
    · rintro ⟨-, -, hf⟩
      exact hf
    · intro hf
      have he := (mem_agreed.mp hf).1
      exact ⟨he, (hg he).2 f hf, hf⟩

/-- The words and lists on the wire, read back off well-formed streams. -/
theorem UpstreamTalk.of_stream {advertised fs : List Bytes} {n : Negotiated} {x y u : Bytes}
    {word : UInt64} (h : UpstreamTalk advertised n x y) (hf : FeatureList fs)
    (hx : x <+: daemonStream word fs ++ u) :
    Accepted word ∧ n = ⟨offered word, agreed (offered word) advertised fs⟩ := by
  obtain ⟨word', fs', ha, hfs, rfl, rfl, -⟩ := h
  rw [daemonStream, List.append_assoc, List.append_assoc] at hx
  obtain ⟨-, hx⟩ := prefix_append_inj hx rfl
  obtain ⟨hw, hx⟩ := prefix_append_inj hx (by simp)
  obtain rfl := le64_injective hw
  refine ⟨ha, ?_⟩
  by_cases he : featureExchange ≤ offered word'
  · obtain ⟨v, hv⟩ := hx
    rw [effectiveVersion_toWire] at hv
    rw [exchanged_unambiguous he (hfs he) hf hv]
    rfl
  · have ho : ∀ gs, agreed (offered word') advertised gs = .empty := fun gs => if_neg he
    rw [ho fs]
    exact congrArg (Negotiated.mk (offered word')) (ho fs')

theorem DownstreamTalk.of_stream {gs : List Bytes} {n : Negotiated} {x y u : Bytes}
    {word : UInt64} (h : DownstreamTalk n x y) (hg : FeatureList gs)
    (hx : x <+: guestStream n.version word gs ++ u) :
    n.version ≤ .fromWire word ∧ (featureExchange ≤ n.version → ∀ f ∈ n.features, f ∈ gs) := by
  obtain ⟨word', gs', hv, hgs, rfl, -⟩ := h
  rw [guestStream, List.append_assoc] at hx
  obtain ⟨hw, hx⟩ := prefix_append_inj hx (by simp)
  obtain rfl := le64_injective hw
  refine ⟨hv, fun he => ?_⟩
  obtain ⟨v, hx⟩ := hx
  rw [effectiveVersion_of_le hv] at hx
  rw [← exchanged_unambiguous he (hgs he).1 hg hx]
  exact (hgs he).2

/-- Both legs agree or the session is over: when both handshakes succeed, daemon, proxy and
guest have one version and one set of features, feature lists were exchanged on both legs
or on neither, and nothing else was read; when the peers cannot agree, no run on their
streams succeeds, and when they can, one does. -/
theorem legs_agree (advertised : List Bytes) :
    (∀ (n : Negotiated) (t : IoTrace), (legs advertised).Runs t (.ok n) →
      ∃ daemonWord daemonFeatures guestWord guestFeatures,
        Agreement advertised n daemonWord daemonFeatures guestWord guestFeatures ∧
        LegBytes advertised n daemonWord daemonFeatures guestWord guestFeatures t) ∧
    ∀ (daemonWord : UInt64) (daemonFeatures : List Bytes) (guestWord : UInt64)
      (guestFeatures : List Bytes), FeatureList daemonFeatures → FeatureList guestFeatures →
      (Mismatch advertised daemonWord daemonFeatures guestWord guestFeatures →
        ∀ (t : IoTrace) (r : Except Stop Negotiated) (u v : Bytes), (legs advertised).Runs t r →
          recvd .host t <+: daemonStream daemonWord daemonFeatures ++ u →
          recvd .guest t <+: guestStream (offered daemonWord) guestWord guestFeatures ++ v →
          ∃ s, r = .error s) ∧
      (¬ Mismatch advertised daemonWord daemonFeatures guestWord guestFeatures →
        ∃ t n, (legs advertised).Runs t (.ok n) ∧ Only clean t ∧
          recvd .host t = daemonStream daemonWord daemonFeatures ∧
          recvd .guest t = guestStream (offered daemonWord) guestWord guestFeatures) := by
  refine ⟨fun n t h => ?_, fun wd fd wg fg hfd hfg => ⟨fun hm t r u v h hx hy => ?_, fun hm => ?_⟩⟩
  · obtain ⟨⟨word, fs, ha, -, hn, hx, hy⟩, wg, gs, hv, hg, hu, hw⟩ := legs_ok h
    exact ⟨word, fs, wg, gs, agreement ha hn hv hg, hx, hy, hu, hw⟩
  · cases r with
    | error s => exact ⟨s, rfl⟩
    | ok n =>
      obtain ⟨hu, hd⟩ := legs_ok h
      obtain ⟨ha, rfl⟩ := hu.of_stream hfd hx
      obtain ⟨hv, hg⟩ := hd.of_stream hfg hy
      exfalso
      cases hm with
      | major h => exact h ha.major
      | floor h => exact h ha.floor
      | lower h =>
        refine h ?_
        rw [effectiveVersion_of_le hv]
        exact Version.le_iff.mpr (.inr ⟨rfl, Nat.le_refl _⟩)
      | missing hf hn => exact hn (hg (mem_agreed.mp hf).1 _ hf)
  · have hacc : Accepted wd :=
      ⟨not_not.mp fun h => hm (.major h), not_not.mp fun h => hm (.floor h)⟩
    have hv : offered wd ≤ .fromWire wg :=
      le_of_le_effectiveVersion (not_not.mp fun h => hm (.lower h))
    have hup : UpstreamTalk advertised ⟨offered wd, agreed (offered wd) advertised fd⟩ _ _ :=
      ⟨wd, fd, hacc, fun _ => hfd, rfl, rfl, rfl⟩
    obtain ⟨t, ht, hc, hx, hy⟩ := legs_complete (u := guestStream (offered wd) wg fg) hup
      ⟨wg, fg, hv, fun _ => ⟨hfg, fun f hf => not_not.mp fun hn => hm (.missing hf hn)⟩,
        by rw [guestStream, effectiveVersion_of_le hv], rfl⟩
    refine ⟨t, _, ht, hc, ?_, hy⟩
    rw [hx, daemonStream, effectiveVersion_toWire]
    rfl

end Claudepod
