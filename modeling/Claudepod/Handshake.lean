import Claudepod.Wire
import Claudepod.SortedSet

/-! Both legs of the daemon handshake. The upstream (host daemon) handshake runs first, and
the resulting version and feature set are advertised verbatim to the guest. -/

set_option autoImplicit false
set_option linter.constructorNameAsVariable false

namespace Claudepod
open Interaction

def workerMagic1 : UInt64 := 0x6e697863
def workerMagic2 : UInt64 := 0x6478696f

structure Version where
  major : UInt8
  minor : UInt8
  deriving DecidableEq, Repr

namespace Version

def fromWire (v : UInt64) : Version := ⟨(v >>> 8).toUInt8, v.toUInt8⟩

def toWire (v : Version) : UInt64 := (v.major.toUInt64 <<< 8) ||| v.minor.toUInt64

/-- Major first, then minor. -/
protected def le (a b : Version) : Prop :=
  a.major < b.major ∨ (a.major = b.major ∧ a.minor ≤ b.minor)

instance : LE Version := ⟨Version.le⟩

instance (a b : Version) : Decidable (a ≤ b) :=
  inferInstanceAs (Decidable (a.major < b.major ∨ (a.major = b.major ∧ a.minor ≤ b.minor)))

instance : Min Version := ⟨fun a b => if a ≤ b then a else b⟩

instance : ToString Version := ⟨fun v => s!"{v.major}.{v.minor}"⟩

theorem le_iff {a b : Version} :
    a ≤ b ↔ a.major.toNat < b.major.toNat ∨
      (a.major.toNat = b.major.toNat ∧ a.minor.toNat ≤ b.minor.toNat) := by
  show a.major < b.major ∨ (a.major = b.major ∧ a.minor ≤ b.minor) ↔ _
  rw [UInt8.lt_iff_toNat_lt, UInt8.le_iff_toNat_le, ← UInt8.toNat_inj]

theorem ext_toNat {a b : Version} (h₁ : a.major.toNat = b.major.toNat)
    (h₂ : a.minor.toNat = b.minor.toNat) : a = b := by
  cases a
  cases b
  simp only [UInt8.toNat_inj] at h₁ h₂
  simp [h₁, h₂]

theorem min_eq {a b : Version} : min a b = if a ≤ b then a else b := rfl

theorem le_total (a b : Version) : a ≤ b ∨ b ≤ a := by
  rw [le_iff, le_iff]
  omega

theorem min_le_right (a b : Version) : min a b ≤ b := by
  rw [min_eq]
  split
  · assumption
  · rw [le_iff]
    omega

theorem min_comm (a b : Version) : min a b = min b a := by
  rw [min_eq, min_eq]
  split <;> split
  · rename_i h h'
    rw [le_iff] at h h'
    exact ext_toNat (by omega) (by omega)
  · rfl
  · rfl
  · exact absurd (le_total a b) (by tauto)

theorem min_eq_right {a b : Version} (h : b ≤ a) : min a b = b := by
  rw [min_comm, min_eq, if_pos h]

/-- The wire word of a version reads back as that version. -/
@[simp] theorem fromWire_toWire (v : Version) : fromWire v.toWire = v := by
  have h₁ := v.major.toNat_lt
  have h₂ := v.minor.toNat_lt
  have h : v.toWire.toNat = v.major.toNat * 256 + v.minor.toNat := by
    rw [toWire, UInt64.toNat_or, UInt64.toNat_shiftLeft]
    simp only [UInt8.toNat_toUInt64, UInt64.reduceToNat, Nat.reduceMod]
    rw [Nat.mod_eq_of_lt (by rw [Nat.shiftLeft_eq]; omega),
      ← Nat.shiftLeft_add_eq_or_of_lt (i := 8) (by omega), Nat.shiftLeft_eq]
  apply ext_toNat
  · simp [fromWire, h, Nat.shiftRight_eq_div_pow]
    omega
  · simp [fromWire, h]

end Version

/-- Highest protocol version this proxy understands. -/
def ourVersion : Version := ⟨1, 38⟩
/-- Oldest host daemon we accept. -/
def versionFloor : Version := ⟨1, 35⟩
/-- Protocol features we advertise upstream. -/
def ourFeatures : List Bytes := []
def featureRealisationWithPath : Bytes := utf8 "realisation-with-path"
/-- The feature exchange exists from protocol 1.38. -/
def featureExchange : Version := ⟨1, 38⟩
/-- Cap on an advertised feature list. -/
def maxFeatures : UInt64 := 256

/-- A `BTreeSet<String>`; a string is its UTF-8 bytes. -/
abbrev Features := SortedSet Bytes

/-- Version and feature set shared by both legs of a session. -/
structure Negotiated where
  version : Version
  features : Features

/-- Gates the `QueryRealisation` wire format. -/
def Negotiated.realisationWithPath (n : Negotiated) : Bool :=
  decide (featureRealisationWithPath ∈ n.features)

/-- `String::from_utf8` on every item, up to the first that fails. -/
def checkUtf8 : List Bytes → Async Unit
  | [] => pure ()
  | f :: fs => do
    context "protocol feature name is not UTF-8" (ensure (isUtf8 f = true) (utf8Error f))
    checkUtf8 fs

def readFeatures (r : Leg) : Async Features := do
  let items ← readStringList r maxFeatures maxGuestString
  checkUtf8 items
  pure (SortedSet.ofList items)

/-- The features of both sides. -/
def common (advertised : List Bytes) (features : Features) : Features :=
  SortedSet.ofList (advertised.filter (· ∈ features))

/-- Client-side handshake toward the host daemon, offering the features `advertised`. -/
def upstream (advertised : List Bytes) (host : Leg) : Async Negotiated := do
  writeU64 host workerMagic1
  writeU64 host ourVersion.toWire
  flush host
  let magic ← readU64 host
  ensure (magic = workerMagic2) s!"host daemon sent bad magic {hex magic}"
  let word ← readU64 host
  let daemon := Version.fromWire word
  ensure (daemon.major = 1) s!"unsupported host daemon protocol version {daemon}"
  let version := min daemon ourVersion
  ensure (versionFloor ≤ version)
    s!"host daemon protocol version {daemon} is older than the supported floor {versionFloor}"
  if featureExchange ≤ version then do
    writeStringList host advertised
    flush host
    let daemonFeatures ← readFeatures host
    pure ⟨version, common advertised daemonFeatures⟩
  else pure ⟨version, .empty⟩

/-- Read and validate the guest's opening magic. -/
def guestMagic (guest : Leg) : Async Unit := do
  let magic ← readU64 guest
  ensure (magic = workerMagic1) s!"guest sent bad magic {hex magic}"

/-- Every negotiated feature must be among the client's. -/
def checkFeatures (clientFeatures : Features) : List Bytes → Async Unit
  | [] => pure ()
  | f :: fs => do
    ensure (f ∈ clientFeatures)
      s!"guest lacks protocol feature '{fromUtf8Lossy f}' negotiated with the host daemon"
    checkFeatures clientFeatures fs

/-- Server-side handshake toward the guest (after `guestMagic`), advertising exactly the
upstream-negotiated version and features. -/
def downstream (guest : Leg) (negotiated : Negotiated) : Async Unit := do
  writeU64 guest workerMagic2
  writeU64 guest negotiated.version.toWire
  flush guest
  let word ← readU64 guest
  let client := Version.fromWire word
  ensure (negotiated.version ≤ client)
    (s!"guest protocol version {client} is older than the host daemon's {negotiated.version}; " ++
      "the proxy does not translate between versions")
  if featureExchange ≤ negotiated.version then do
    let clientFeatures ← readFeatures guest
    writeStringList guest negotiated.features.items
    flush guest
    checkFeatures clientFeatures negotiated.features.items
  else pure ()

/-! ### The two legs as dialogues -/

/-- A feature list either side accepts. -/
structure FeatureList (fs : List Bytes) : Prop where
  count : fs.length ≤ maxFeatures.toNat
  lengths : ∀ f ∈ fs, f.length ≤ maxGuestString.toNat
  utf8 : ∀ f ∈ fs, isUtf8 f = true

def featuresFormat : Format Features :=
  fun s x => ∃ fs, FeatureList fs ∧ s = SortedSet.ofList fs ∧ x = encStringList fs

theorem checkUtf8_decodes (c : Leg) (fs : List Bytes) :
    Decodes c (checkUtf8 fs) ((Format.pure ()).guard (∀ f ∈ fs, isUtf8 f = true)) := by
  induction fs with
  | nil => exact (Decodes.pure ()).congr fun u x => by simp [Format.guard]
  | cons f fs ih =>
    refine (decodes_check.mapStop _ |>.bind fun _ => ih).congr fun u x => ?_
    constructor
    · rintro ⟨v, x, y, ⟨h, -, rfl⟩, ⟨h', -, rfl⟩, rfl⟩
      exact ⟨by simpa using ⟨h, h'⟩, rfl, rfl⟩
    · rintro ⟨h, -, rfl⟩
      rw [List.forall_mem_cons] at h
      exact ⟨(), [], [], ⟨h.1, rfl, rfl⟩, ⟨h.2, rfl, rfl⟩, rfl⟩

theorem readFeatures_decodes (r : Leg) : Decodes r (readFeatures r) featuresFormat := by
  refine ((readStringList_decodes r maxFeatures maxGuestString).bind fun items =>
    (checkUtf8_decodes r items).bind fun _ =>
    .pure (SortedSet.ofList items)).congr fun s x => ?_
  constructor
  · rintro ⟨fs, x, y, ⟨⟨hn, hl⟩, rfl⟩, ⟨u, x', y', ⟨hu, -, rfl⟩, ⟨rfl, rfl⟩, rfl⟩, rfl⟩
    exact ⟨fs, ⟨hn, hl, hu⟩, rfl, by simp⟩
  · rintro ⟨fs, hfs, rfl, rfl⟩
    exact ⟨fs, encStringList fs, [], ⟨⟨hfs.count, hfs.lengths⟩, rfl⟩,
      ⟨(), [], [], ⟨hfs.utf8, rfl, rfl⟩, ⟨rfl, rfl⟩, rfl⟩, by simp⟩

/-- What the host daemon's hello says: its version, capped at ours. -/
def daemonVersion (host : Leg) : Async Version := do
  let magic ← readU64 host
  ensure (magic = workerMagic2) s!"host daemon sent bad magic {hex magic}"
  let word ← readU64 host
  let daemon := Version.fromWire word
  ensure (daemon.major = 1) s!"unsupported host daemon protocol version {daemon}"
  let version := min daemon ourVersion
  ensure (versionFloor ≤ version)
    s!"host daemon protocol version {daemon} is older than the supported floor {versionFloor}"
  pure version

/-- The feature exchange of the upstream leg. -/
def offerFeatures (advertised : List Bytes) (host : Leg) (version : Version) :
    Async Negotiated :=
  if featureExchange ≤ version then do
    writeStringList host advertised
    flush host
    let daemonFeatures ← readFeatures host
    pure ⟨version, common advertised daemonFeatures⟩
  else pure ⟨version, .empty⟩

/-- The hello of either side. -/
def hello (c : Leg) (magic : UInt64) (version : Version) : Async Unit := do
  writeU64 c magic
  writeU64 c version.toWire
  flush c

theorem hello_emits (c : Leg) (magic : UInt64) (version : Version) :
    Emits c (hello c magic version) () (le64 magic ++ le64 version.toWire) :=
  ((writeU64_emits c magic).andThen <| (writeU64_emits c version.toWire).andThen
    (flush_emits c)).of_eq (by simp)

theorem upstream_eq (advertised : List Bytes) (host : Leg) :
    upstream advertised host = (do
      hello host workerMagic1 ourVersion
      let version ← daemonVersion host
      offerFeatures advertised host version) := by
  simp only [upstream, hello, daemonVersion, offerFeatures, bind_assoc, pure_bind]

/-- The daemon version words the proxy goes on with. -/
structure Accepted (word : UInt64) : Prop where
  major : (Version.fromWire word).major = 1
  floor : versionFloor ≤ min (Version.fromWire word) ourVersion

theorem daemonVersion_decodes (host : Leg) :
    Decodes host (daemonVersion host) (fun v x => ∃ word, Accepted word ∧
      v = min (Version.fromWire word) ourVersion ∧ x = le64 workerMagic2 ++ le64 word) := by
  refine ((readU64_decodes host).bind fun magic => decodes_ensure <|
    (readU64_decodes host).bind fun word => decodes_ensure <| decodes_ensure <|
    .pure (min (Version.fromWire word) ourVersion)).congr fun v x => ?_
  constructor
  · rintro ⟨magic, x, y, ⟨-, rfl⟩, ⟨rfl, word, x', y', ⟨-, rfl⟩, ⟨hm, hf, rfl, rfl⟩, rfl⟩, rfl⟩
    exact ⟨word, ⟨hm, hf⟩, rfl, by simp⟩
  · rintro ⟨word, ⟨hm, hf⟩, rfl, rfl⟩
    exact ⟨workerMagic2, _, le64 word, ⟨trivial, rfl⟩, ⟨rfl, word, le64 word, [], ⟨trivial, rfl⟩,
      ⟨hm, hf, rfl, rfl⟩, by simp⟩, rfl⟩

/-- The bytes of a feature list at the given version. -/
def exchanged (version : Version) (fs : List Bytes) : Bytes :=
  if featureExchange ≤ version then encStringList fs else []

/-- The features a client offering `advertised` shares with a daemon that has `fs`. -/
def agreed (version : Version) (advertised fs : List Bytes) : Features :=
  if featureExchange ≤ version then common advertised (SortedSet.ofList fs) else .empty

theorem offerFeatures_converses (advertised : List Bytes) (host : Leg) (version : Version) :
    Converses host host (offerFeatures advertised host version) (fun n x y => ∃ fs,
      (featureExchange ≤ version → FeatureList fs) ∧ n = ⟨version, agreed version advertised fs⟩ ∧
        x = exchanged version fs ∧ y = exchanged version advertised) := by
  unfold offerFeatures exchanged agreed
  split
  · rename_i he
    refine ((Converses.of_emits (writeStringList_emits host advertised)).bind fun _ =>
      (Converses.of_emits (flush_emits host)).bind fun _ =>
      (Converses.of_decodes (readFeatures_decodes host)).bind fun fs =>
      Converses.of_emits (.pure (Negotiated.mk version (common advertised fs)))).congr
      fun n x y => ?_
    constructor
    · rintro ⟨-, -, x, -, v, ⟨-, rfl, rfl⟩, ⟨-, -, x', -, v', ⟨-, rfl, rfl⟩, ⟨s, x'', y'', u'', v'',
        ⟨⟨fs, hfs, rfl, rfl⟩, rfl⟩, ⟨rfl, rfl, rfl⟩, rfl, rfl⟩, rfl, rfl⟩, rfl, rfl⟩
      exact ⟨fs, fun _ => hfs, rfl, by simp, by simp⟩
    · rintro ⟨fs, hfs, rfl, rfl, rfl⟩
      exact ⟨(), [], encStringList fs, encStringList advertised, [], ⟨rfl, rfl, rfl⟩,
        ⟨(), [], encStringList fs, [], [], ⟨rfl, rfl, rfl⟩, ⟨_, encStringList fs, [], [], [],
        ⟨⟨fs, hfs he, rfl, rfl⟩, rfl⟩, ⟨rfl, rfl, rfl⟩, by simp, rfl⟩, rfl, rfl⟩, rfl, by simp⟩
  · rename_i he
    refine (Converses.of_emits (.pure (Negotiated.mk version .empty))).congr fun n x y => ?_
    constructor
    · rintro ⟨rfl, rfl, rfl⟩
      exact ⟨[], fun h => absurd h he, rfl, rfl, rfl⟩
    · rintro ⟨fs, -, rfl, rfl, rfl⟩
      exact ⟨rfl, rfl, rfl⟩

/-- What passes on the upstream leg before it agrees on `n`. -/
def UpstreamTalk (advertised : List Bytes) (n : Negotiated) (x y : Bytes) : Prop :=
  ∃ word fs, Accepted word ∧ (featureExchange ≤ n.version → FeatureList fs) ∧
    n = ⟨min (Version.fromWire word) ourVersion,
      agreed (min (Version.fromWire word) ourVersion) advertised fs⟩ ∧
    x = le64 workerMagic2 ++ (le64 word ++ exchanged n.version fs) ∧
    y = le64 workerMagic1 ++ (le64 ourVersion.toWire ++ exchanged n.version advertised)

theorem upstream_converses (advertised : List Bytes) (host : Leg) :
    Converses host host (upstream advertised host) (UpstreamTalk advertised) := by
  rw [upstream_eq]
  refine ((Converses.of_emits (hello_emits host workerMagic1 ourVersion)).bind fun _ =>
    (Converses.of_decodes (daemonVersion_decodes host)).bind fun version =>
    offerFeatures_converses advertised host version).congr fun n x y => ?_
  constructor
  · rintro ⟨-, -, x, -, v, ⟨-, rfl, rfl⟩, ⟨version, x', y', -, v', ⟨⟨word, ha, rfl, rfl⟩, rfl⟩,
      ⟨fs, hfs, rfl, rfl, rfl⟩, rfl, rfl⟩, rfl, rfl⟩
    refine ⟨word, fs, ha, hfs, rfl, ?_, ?_⟩
    · rw [List.nil_append, List.append_assoc]
    · rw [List.nil_append, List.append_assoc]
  · rintro ⟨word, fs, ha, hfs, rfl, rfl, rfl⟩
    refine ⟨(), [], _, _, _, ⟨rfl, rfl, rfl⟩, ⟨_, _, _, [], _, ⟨⟨word, ha, rfl, rfl⟩, rfl⟩,
      ⟨fs, hfs, rfl, rfl, rfl⟩, rfl, rfl⟩, ?_, ?_⟩
    · rw [List.nil_append, List.append_assoc]
    · rw [List.nil_append, List.append_assoc]

theorem guestMagic_decodes (guest : Leg) :
    Decodes guest (guestMagic guest) (fun _ x => x = le64 workerMagic1) := by
  refine ((readU64_decodes guest).bind fun magic => decodes_check).congr fun u x => ?_
  constructor
  · rintro ⟨magic, x, y, ⟨-, rfl⟩, ⟨rfl, -, rfl⟩, rfl⟩
    simp
  · rintro rfl
    exact ⟨workerMagic1, _, [], ⟨trivial, rfl⟩, ⟨rfl, rfl, rfl⟩, by simp⟩

theorem checkFeatures_decodes (guest : Leg) (clientFeatures : Features) (fs : List Bytes) :
    Decodes guest (checkFeatures clientFeatures fs)
      ((Format.pure ()).guard (∀ f ∈ fs, f ∈ clientFeatures)) := by
  induction fs with
  | nil => exact (Decodes.pure ()).congr fun u x => by simp [Format.guard]
  | cons f fs ih =>
    refine (decodes_ensure ih).congr fun u x => ?_
    simp only [Format.guard, List.forall_mem_cons, and_assoc]

/-- The feature exchange of the downstream leg. -/
def answerFeatures (guest : Leg) (negotiated : Negotiated) : Async Unit :=
  if featureExchange ≤ negotiated.version then do
    let clientFeatures ← readFeatures guest
    writeStringList guest negotiated.features.items
    flush guest
    checkFeatures clientFeatures negotiated.features.items
  else pure ()

theorem answerFeatures_converses (guest : Leg) (n : Negotiated) :
    Converses guest guest (answerFeatures guest n) (fun _ x y => ∃ fs,
      (featureExchange ≤ n.version → FeatureList fs ∧ ∀ f ∈ n.features, f ∈ fs) ∧
        x = exchanged n.version fs ∧ y = exchanged n.version n.features.items) := by
  unfold answerFeatures exchanged
  split
  · rename_i he
    refine ((Converses.of_decodes (readFeatures_decodes guest)).bind fun s =>
      (Converses.of_emits (writeStringList_emits guest n.features.items)).bind fun _ =>
      (Converses.of_emits (flush_emits guest)).bind fun _ =>
      Converses.of_decodes (checkFeatures_decodes guest s n.features.items)).congr
      fun u x y => ?_
    constructor
    · rintro ⟨s, x, y, -, v, ⟨⟨fs, hfs, rfl, rfl⟩, rfl⟩,
        ⟨-, -, y', -, v', ⟨-, rfl, rfl⟩, ⟨-, -, y'', -, v'', ⟨-, rfl, rfl⟩,
          ⟨⟨hn, -, rfl⟩, rfl⟩, rfl, rfl⟩, rfl, rfl⟩, rfl, rfl⟩
      exact ⟨fs, fun _ => ⟨hfs, fun f hf => by simpa using hn f hf⟩, by simp, by simp⟩
    · rintro ⟨fs, hfs, rfl, rfl⟩
      exact ⟨_, encStringList fs, [], [], encStringList n.features.items,
        ⟨⟨fs, (hfs he).1, rfl, rfl⟩, rfl⟩, ⟨(), [], [], encStringList n.features.items, [],
        ⟨rfl, rfl, rfl⟩, ⟨(), [], [], [], [], ⟨rfl, rfl, rfl⟩,
        ⟨⟨fun f hf => by simpa using (hfs he).2 f hf, rfl, rfl⟩, rfl⟩, rfl, rfl⟩, rfl, by simp⟩,
        by simp, by simp⟩
  · rename_i he
    refine (Converses.of_emits (.pure ())).congr fun u x y => ?_
    constructor
    · rintro ⟨-, rfl, rfl⟩
      exact ⟨[], fun h => absurd h he, rfl, rfl⟩
    · rintro ⟨fs, -, rfl, rfl⟩
      exact ⟨rfl, rfl, rfl⟩

/-- The version word of the guest's hello. -/
def clientVersion (guest : Leg) (negotiated : Negotiated) : Async Unit := do
  let word ← readU64 guest
  let client := Version.fromWire word
  ensure (negotiated.version ≤ client)
    (s!"guest protocol version {client} is older than the host daemon's {negotiated.version}; " ++
      "the proxy does not translate between versions")

theorem clientVersion_decodes (guest : Leg) (n : Negotiated) :
    Decodes guest (clientVersion guest n)
      (fun _ x => ∃ word, n.version ≤ Version.fromWire word ∧ x = le64 word) := by
  refine ((readU64_decodes guest).bind fun word => decodes_check).congr fun u x => ?_
  constructor
  · rintro ⟨word, x, y, ⟨-, rfl⟩, ⟨h, -, rfl⟩, rfl⟩
    exact ⟨word, h, by simp⟩
  · rintro ⟨word, h, rfl⟩
    exact ⟨word, _, [], ⟨trivial, rfl⟩, ⟨h, rfl, rfl⟩, by simp⟩

theorem downstream_eq (guest : Leg) (n : Negotiated) :
    downstream guest n = (do
      hello guest workerMagic2 n.version
      clientVersion guest n
      answerFeatures guest n) := by
  simp only [downstream, hello, clientVersion, answerFeatures, bind_assoc]

/-- What passes on the downstream leg before the guest is accepted. -/
def DownstreamTalk (n : Negotiated) (x y : Bytes) : Prop :=
  ∃ word fs, n.version ≤ Version.fromWire word ∧
    (featureExchange ≤ n.version → FeatureList fs ∧ ∀ f ∈ n.features, f ∈ fs) ∧
    x = le64 word ++ exchanged n.version fs ∧
    y = le64 workerMagic2 ++ (le64 n.version.toWire ++ exchanged n.version n.features.items)

theorem downstream_converses (guest : Leg) (n : Negotiated) :
    Converses guest guest (downstream guest n) (fun _ => DownstreamTalk n) := by
  rw [downstream_eq]
  refine ((Converses.of_emits (hello_emits guest workerMagic2 n.version)).bind fun _ =>
    (Converses.of_decodes (clientVersion_decodes guest n)).bind fun _ =>
    answerFeatures_converses guest n).congr fun u x y => ?_
  constructor
  · rintro ⟨-, -, x, -, v, ⟨-, rfl, rfl⟩, ⟨-, x', y', -, v', ⟨⟨word, hv, rfl⟩, rfl⟩,
      ⟨fs, hfs, rfl, rfl⟩, rfl, rfl⟩, rfl, rfl⟩
    refine ⟨word, fs, hv, hfs, ?_, ?_⟩
    · rw [List.nil_append]
    · rw [List.nil_append, List.append_assoc]
  · rintro ⟨word, fs, hv, hfs, rfl, rfl⟩
    refine ⟨(), [], _, _, _, ⟨rfl, rfl, rfl⟩, ⟨(), _, _, [], _, ⟨⟨word, hv, rfl⟩, rfl⟩,
      ⟨fs, hfs, rfl, rfl⟩, rfl, rfl⟩, ?_, ?_⟩
    · rw [List.nil_append]
    · rw [List.nil_append, List.append_assoc]

end Claudepod
