import Claudepod.Utf8
import Claudepod.Numeral
import Claudepod.Fields

/-! Port forwardings: as the user writes them, and as pasta and podman are told of them. -/

set_option autoImplicit false

namespace Claudepod
open Interaction

inductive Proto where
  | tcp | udp
  deriving DecidableEq, Repr

structure PortMap where
  left : UInt16
  right : UInt16
  proto : Proto
  deriving DecidableEq, Repr

/-- What `from_str` says about a spec that it refuses; the texts quote the part they name. -/
inductive PortError where
  | proto (raw : Text)
  | shape
  | port (raw : Text)
  | zero
  deriving DecidableEq, Repr

/-- `str::split_once`. -/
def splitOnce (sep : Char) (s : Text) : Option (Text × Text) :=
  (s.findIdx? (· == sep)).map fun i => (s.take i, s.drop (i + 1))

def parsePort (raw : Text) : Except PortError UInt16 :=
  match Numeral.fromStr 16 raw with
  | .error _ => .error (.port raw)
  | .ok port => if port = 0 then .error .zero else .ok (UInt16.ofNat port)

/-- The spec without its suffix. -/
def splitProto (spec : Text) : Except PortError (Text × Proto) :=
  match splitOnce '/' spec with
  | none => .ok (spec, .tcp)
  | some (spec, proto) =>
    if proto = "tcp".toList then .ok (spec, .tcp)
    else if proto = "udp".toList then .ok (spec, .udp)
    else .error (.proto proto)

/-- `PORT` or `LEFT:RIGHT`. -/
def parsePair (spec : Text) (proto : Proto) : Except PortError PortMap :=
  match splitOnce ':' spec with
  | some (left, right) =>
    if ':' ∈ right then .error .shape
    else do
      let left ← parsePort left
      let right ← parsePort right
      pure ⟨left, right, proto⟩
  | none => do
    let port ← parsePort spec
    pure ⟨port, port, proto⟩

def PortMap.fromStr (spec : Text) : Except PortError PortMap := do
  let (spec, proto) ← splitProto spec
  parsePair spec proto

def portMapSpec (port : PortMap) : Text :=
  if port.left = port.right then Numeral.decimal port.left.toNat
  else Numeral.decimal port.left.toNat ++ ':' :: Numeral.decimal port.right.toNat

def PortMap.flag (port : PortMap) : Text :=
  match port.proto with
  | .tcp => "-T".toList
  | .udp => "-U".toList

def pastaOptions (hostPorts : List PortMap) (publishing : Bool) : List Text :=
  "-4".toList :: ((if publishing then ["--host-lo-to-ns-lo".toList] else []) ++
    hostPorts.flatMap fun port => [port.flag, portMapSpec port])

def pastaNetworkArg (hostPorts : List PortMap) (publishing : Bool) : Option Text :=
  if hostPorts = [] ∧ publishing = false then none
  else some ("pasta:".toList ++ [','].intercalate (pastaOptions hostPorts publishing))

def publishArg (port : PortMap) : Text :=
  "127.0.0.1:".toList ++ (Numeral.decimal port.left.toNat ++ ':' ::
    (Numeral.decimal port.right.toNat ++ match port.proto with
      | .tcp => []
      | .udp => "/udp".toList))

/-- What `main` passes on for the two lists of the command line. -/
def networkArg (hostPorts publish : List PortMap) : Option Text :=
  pastaNetworkArg hostPorts (!publish.isEmpty)

/-! ### How the arguments are read -/

/-- A port of the guest and the port of the host that it stands for. -/
structure Forward where
  proto : Proto
  guest : Nat
  host : Nat
  deriving DecidableEq, Repr

/-- The two sides of an argument, or the one. -/
def readPorts (arg : Text) : Option (Nat × Nat) :=
  match (arg.splitOn ':').map fun raw => (Numeral.fromStr 16 raw).toOption with
  | [some port] => some (port, port)
  | [some left, some right] => some (left, right)
  | _ => none

/-- `-T` and `-U` forward a port of the guest to one of the host; other options have no
argument. -/
def readFlags : List Text → Option (List Forward)
  | [] => some []
  | [flag] => if flag = "-T".toList ∨ flag = "-U".toList then none else some []
  | flag :: arg :: rest =>
    if flag = "-T".toList then
      (readPorts arg).bind fun p => (readFlags rest).map (⟨.tcp, p.1, p.2⟩ :: ·)
    else if flag = "-U".toList then
      (readPorts arg).bind fun p => (readFlags rest).map (⟨.udp, p.1, p.2⟩ :: ·)
    else readFlags (arg :: rest)

def readPasta (arg : Text) : Option (List Forward) :=
  match "pasta:".toList.isPrefixOf? arg with
  | some options => readFlags (options.splitOn ',')
  | none => none

/-- `IP:HOST:GUEST`. -/
def readAddress (proto : Proto) (arg : Text) : Option (Text × Forward) :=
  match arg.splitOn ':' with
  | [ip, host, guest] => do
    let host ← (Numeral.fromStr 16 host).toOption
    let guest ← (Numeral.fromStr 16 guest).toOption
    pure (ip, ⟨proto, guest, host⟩)
  | _ => none

/-- An address with the protocol behind a slash, if it is not TCP. -/
def readPublish (arg : Text) : Option (Text × Forward) :=
  match splitOnce '/' arg with
  | none => readAddress .tcp arg
  | some (arg, proto) =>
    if proto = "udp".toList then readAddress .udp arg
    else if proto = "tcp".toList then readAddress .tcp arg
    else none

example : readPasta "pasta:-4,-T,15432:5432,-U,53".toList =
    some [⟨.tcp, 15432, 5432⟩, ⟨.udp, 53, 53⟩] := by decide +kernel

/-! ### Texts -/

theorem splitOnce_none {sep : Char} {s : Text} (h : sep ∉ s) : splitOnce sep s = none := by
  rw [splitOnce, Fields.find_none h]
  rfl

theorem splitOnce_first {sep : Char} {s rest : Text} (h : sep ∉ s) :
    splitOnce sep (s ++ sep :: rest) = some (s, rest) := by
  rw [splitOnce, Fields.find_first h]
  simp

/-- A number that can be a port. -/
def PortText (raw : Text) (port : UInt16) : Prop := Numeral.Spells raw port.toNat ∧ port ≠ 0

theorem parsePort_ok {raw : Text} {port : UInt16} :
    parsePort raw = .ok port ↔ PortText raw port := by
  unfold parsePort PortText
  constructor
  · intro h
    split at h
    · cases h
    · rename_i n hn
      obtain ⟨hs, hb⟩ := Numeral.fromStr_ok.mp hn
      split at h
      · cases h
      · rename_i hz
        obtain rfl := Except.ok.inj h
        have ht : (UInt16.ofNat n).toNat = n := UInt16.toNat_ofNat_of_lt hb
        refine ⟨by rwa [ht], fun h0 => hz ?_⟩
        rw [← ht, h0]
        rfl
  · intro ⟨hs, hz⟩
    have hb : port.toNat < 2 ^ 16 := port.toNat_lt
    have hn : port.toNat ≠ 0 := fun h0 => hz (UInt16.toNat_inj.mp h0)
    rw [Numeral.fromStr_ok.mpr ⟨hs, hb⟩]
    simp [hn]

theorem spells_notMem {raw : Text} {n : Nat} (h : Numeral.Spells raw n) {c : Char}
    (hd : c.isDigit = false) (hp : c ≠ '+') : c ∉ raw := by
  obtain ⟨digits, hs, -, hall, -⟩ := h
  have hc : c ∉ digits := by
    intro hm
    exact absurd (hall c hm) (by simp [hd])
  rcases hs with rfl | rfl
  · exact hc
  · simp [hc, hp]

theorem portText_decimal {port : UInt16} (h : port ≠ 0) :
    PortText (Numeral.decimal port.toNat) port :=
  ⟨Numeral.spells_decimal _, h⟩

/-! ### What is accepted -/

/-- One port for both sides, or two. -/
def PairText (ports : Text) (left right : UInt16) : Prop :=
  (PortText ports left ∧ right = left) ∨
    ∃ l r : Text, ports = l ++ ':' :: r ∧ PortText l left ∧ PortText r right

def Suffix : Proto → Text → Prop
  | .tcp, suffix => suffix = [] ∨ suffix = "/tcp".toList
  | .udp, suffix => suffix = "/udp".toList

def Spelling (spec : Text) (port : PortMap) : Prop :=
  ∃ ports suffix : Text, spec = ports ++ suffix ∧ PairText ports port.left port.right ∧
    Suffix port.proto suffix

theorem PairText.slash_notMem {ports : Text} {left right : UInt16}
    (h : PairText ports left right) : '/' ∉ ports := by
  rcases h with ⟨h, -⟩ | ⟨l, r, rfl, hl, hr⟩
  · exact spells_notMem h.1 (by decide) (by decide)
  · have h₁ := spells_notMem hl.1 (c := '/') (by decide) (by decide)
    have h₂ := spells_notMem hr.1 (c := '/') (by decide) (by decide)
    simp [h₁, h₂]

theorem splitProto_ok {spec ports : Text} {proto : Proto} :
    splitProto spec = .ok (ports, proto) → ∃ suffix, spec = ports ++ suffix ∧
      Suffix proto suffix := by
  intro h
  unfold splitProto at h
  by_cases hm : '/' ∈ spec
  · obtain ⟨xs, ys, rfl, hx⟩ := List.eq_append_cons_of_mem hm
    rw [splitOnce_first hx] at h
    dsimp only at h
    split at h
    · rename_i hy
      obtain ⟨rfl, rfl⟩ := Prod.mk.inj (Except.ok.inj h)
      exact ⟨'/' :: ys, rfl, .inr (by rw [hy]; rfl)⟩
    · split at h
      · rename_i hy
        obtain ⟨rfl, rfl⟩ := Prod.mk.inj (Except.ok.inj h)
        exact ⟨'/' :: ys, rfl, by rw [hy]; rfl⟩
      · cases h
  · rw [splitOnce_none hm] at h
    obtain ⟨rfl, rfl⟩ := Prod.mk.inj (Except.ok.inj h)
    exact ⟨[], (List.append_nil _).symm, .inl rfl⟩

theorem splitProto_suffix {ports suffix : Text} {proto : Proto} (hs : '/' ∉ ports)
    (h : Suffix proto suffix) : splitProto (ports ++ suffix) = .ok (ports, proto) := by
  unfold splitProto
  cases proto with
  | tcp =>
    rcases h with rfl | rfl
    · rw [List.append_nil, splitOnce_none hs]
    · rw [show "/tcp".toList = '/' :: "tcp".toList from rfl, splitOnce_first hs]
      rfl
  | udp =>
    obtain rfl := h
    rw [show "/udp".toList = '/' :: "udp".toList from rfl, splitOnce_first hs]
    rfl

theorem parsePair_ok {ports : Text} {port : PortMap} {proto : Proto} :
    parsePair ports proto = .ok port ↔
      PairText ports port.left port.right ∧ port.proto = proto := by
  obtain ⟨left, right, proto'⟩ := port
  unfold parsePair PairText
  dsimp only
  constructor
  · intro h
    by_cases hm : ':' ∈ ports
    · obtain ⟨xs, ys, rfl, hx⟩ := List.eq_append_cons_of_mem hm
      rw [splitOnce_first hx] at h
      dsimp only at h
      split at h
      · cases h
      · obtain ⟨l, hl, h⟩ := bind_eq_ok h
        obtain ⟨r, hr, h⟩ := bind_eq_ok h
        obtain ⟨rfl, rfl, rfl⟩ := PortMap.mk.inj (Except.ok.inj h)
        exact ⟨.inr ⟨xs, ys, rfl, parsePort_ok.mp hl, parsePort_ok.mp hr⟩, rfl⟩
    · rw [splitOnce_none hm] at h
      obtain ⟨l, hl, h⟩ := bind_eq_ok h
      obtain ⟨rfl, rfl, rfl⟩ := PortMap.mk.inj (Except.ok.inj h)
      exact ⟨.inl ⟨parsePort_ok.mp hl, rfl⟩, rfl⟩
  · intro ⟨h, hp⟩
    subst hp
    rcases h with ⟨h, rfl⟩ | ⟨l, r, rfl, hl, hr⟩
    · rw [splitOnce_none (spells_notMem h.1 (by decide) (by decide)), parsePort_ok.mpr h]
      rfl
    · have hr' : ':' ∉ r := spells_notMem hr.1 (by decide) (by decide)
      rw [splitOnce_first (spells_notMem hl.1 (by decide) (by decide))]
      dsimp only
      rw [if_neg hr', parsePort_ok.mpr hl, parsePort_ok.mpr hr]
      rfl

/-- A spec is accepted exactly if it spells the port map. -/
theorem fromStr_spelling {spec : Text} {port : PortMap} :
    PortMap.fromStr spec = .ok port ↔ Spelling spec port := by
  unfold PortMap.fromStr Spelling
  constructor
  · intro h
    obtain ⟨⟨ports, proto⟩, hp, h⟩ := bind_eq_ok h
    obtain ⟨suffix, hs, hsuf⟩ := splitProto_ok hp
    obtain ⟨hpair, rfl⟩ := parsePair_ok.mp h
    exact ⟨ports, suffix, hs, hpair, hsuf⟩
  · intro ⟨ports, suffix, hs, hpair, hsuf⟩
    rw [hs, splitProto_suffix hpair.slash_notMem hsuf]
    exact parsePair_ok.mpr ⟨hpair, rfl⟩

/-- `LEFT:RIGHT`, also where the two are the same. -/
def PortMap.pair (port : PortMap) : Text :=
  Numeral.decimal port.left.toNat ++ ':' :: Numeral.decimal port.right.toNat

theorem pairText_pair {port : PortMap} (hl : port.left ≠ 0) (hr : port.right ≠ 0) :
    PairText port.pair port.left port.right :=
  .inr ⟨_, _, rfl, portText_decimal hl, portText_decimal hr⟩

theorem pairText_portMapSpec {port : PortMap} (hl : port.left ≠ 0) (hr : port.right ≠ 0) :
    PairText (portMapSpec port) port.left port.right := by
  unfold portMapSpec
  split
  · rename_i he
    exact .inl ⟨portText_decimal hl, he.symm⟩
  · exact pairText_pair hl hr

/-- Texts that are no port maps. -/
inductive Malformed : Text → Prop
  | proto {ports proto : Text} : '/' ∉ ports → proto ≠ "tcp".toList → proto ≠ "udp".toList →
      Malformed (ports ++ '/' :: proto)
  | slashes {spec : Text} : 2 ≤ spec.count '/' → Malformed spec
  | colons {spec : Text} : 2 ≤ spec.count ':' → Malformed spec

theorem Suffix.counts {proto : Proto} {suffix : Text} (h : Suffix proto suffix) :
    suffix.count '/' ≤ 1 ∧ suffix.count ':' = 0 := by
  cases proto with
  | tcp =>
    rcases h with rfl | rfl
    · decide
    · decide
  | udp =>
    obtain rfl := h
    decide

theorem PairText.counts {ports : Text} {left right : UInt16} (h : PairText ports left right) :
    ports.count ':' ≤ 1 := by
  have hz : ∀ {raw : Text} {port : UInt16}, PortText raw port → raw.count ':' = 0 := fun h =>
    List.count_eq_zero.mpr (spells_notMem h.1 (by decide) (by decide))
  rcases h with ⟨h, -⟩ | ⟨l, r, rfl, hl, hr⟩
  · have h₁ := hz h
    omega
  · have h₁ := hz hl
    have h₂ := hz hr
    rw [List.count_append, List.count_cons_self]
    omega

theorem Malformed.not_spelling {spec : Text} (h : Malformed spec) (port : PortMap) :
    ¬ Spelling spec port := by
  intro ⟨ports, suffix, hs, hpair, hsuf⟩
  have hslash := List.count_eq_zero.mpr hpair.slash_notMem
  have hcolon := hpair.counts
  obtain ⟨h₁, h₂⟩ := hsuf.counts
  cases h with
  | slashes hc =>
    rw [hs, List.count_append] at hc
    omega
  | colons hc =>
    rw [hs, List.count_append] at hc
    omega
  | @proto xs proto hx ht hu =>
    have he := splitProto_suffix hpair.slash_notMem hsuf
    rw [← hs, splitProto, splitOnce_first hx] at he
    dsimp only at he
    rw [if_neg ht, if_neg hu] at he
    cases he

/-! ### What is read -/

theorem readPorts_portMapSpec (port : PortMap) :
    readPorts (portMapSpec port) = some (port.left.toNat, port.right.toNat) := by
  have hn : ∀ n, ':' ∉ Numeral.decimal n := Numeral.notMem_decimal (by decide)
  have hf : ∀ p : UInt16, (Numeral.fromStr 16 (Numeral.decimal p.toNat)).toOption = some p.toNat :=
    fun p => by rw [Numeral.fromStr_decimal p.toNat_lt]; rfl
  unfold readPorts portMapSpec
  by_cases he : port.left = port.right
  · rw [if_pos he, List.splitOn_eq_singleton (hn _), List.map_singleton, hf, he]
  · rw [if_neg he, List.splitOn_append_cons_self_of_not_mem (hn _),
      List.splitOn_eq_singleton (hn _), List.map_cons, List.map_singleton, hf, hf]

def PortMap.forward (port : PortMap) : Forward := ⟨port.proto, port.left.toNat, port.right.toNat⟩

theorem readFlags_flags (hostPorts : List PortMap) :
    readFlags (hostPorts.flatMap fun port => [port.flag, portMapSpec port]) =
      some (hostPorts.map PortMap.forward) := by
  induction hostPorts with
  | nil => rfl
  | cons port hostPorts ih =>
    rw [List.flatMap_cons, List.cons_append, List.singleton_append, readFlags,
      readPorts_portMapSpec, ih]
    obtain ⟨left, right, proto⟩ := port
    cases proto <;> rfl

theorem readFlags_other {flag : Text} {rest : List Text} (ht : flag ≠ "-T".toList)
    (hu : flag ≠ "-U".toList) : readFlags (flag :: rest) = readFlags rest := by
  cases rest with
  | nil => exact if_neg (not_or.mpr ⟨ht, hu⟩)
  | cons arg rest => rw [readFlags, if_neg ht, if_neg hu]

theorem readFlags_options (hostPorts : List PortMap) (publishing : Bool) :
    readFlags (pastaOptions hostPorts publishing) = some (hostPorts.map PortMap.forward) := by
  unfold pastaOptions
  rw [readFlags_other (by decide) (by decide)]
  cases publishing with
  | false => exact readFlags_flags hostPorts
  | true =>
    rw [if_pos rfl, List.singleton_append, readFlags_other (by decide) (by decide)]
    exact readFlags_flags hostPorts

theorem comma_notMem_options {hostPorts : List PortMap} {publishing : Bool} {option : Text}
    (h : option ∈ pastaOptions hostPorts publishing) : ',' ∉ option := by
  have hn : ∀ n, ',' ∉ Numeral.decimal n := Numeral.notMem_decimal (by decide)
  unfold pastaOptions at h
  rcases List.mem_cons.mp h with rfl | h
  · decide
  rcases List.mem_append.mp h with h | h
  · cases publishing with
    | false => cases h
    | true =>
      obtain rfl := List.mem_singleton.mp h
      decide
  · obtain ⟨port, -, h⟩ := List.mem_flatMap.mp h
    rcases List.mem_cons.mp h with rfl | h
    · unfold PortMap.flag
      cases port.proto <;> decide
    · obtain rfl := List.mem_singleton.mp h
      unfold portMapSpec
      split
      · exact hn _
      · simp [hn]

theorem readPasta_arg (hostPorts : List PortMap) (publishing : Bool) :
    readPasta ("pasta:".toList ++ [','].intercalate (pastaOptions hostPorts publishing)) =
      some (hostPorts.map PortMap.forward) := by
  have hp : ∀ x : Text, "pasta:".toList.isPrefixOf? ("pasta:".toList ++ x) = some x := fun _ => rfl
  unfold readPasta
  rw [hp]
  dsimp only
  rw [List.splitOn_intercalate _ (fun _ h => comma_notMem_options h) (List.cons_ne_nil _ _),
    readFlags_options]

theorem readPublish_arg (port : PortMap) :
    readPublish (publishArg port) =
      some ("127.0.0.1".toList, ⟨port.proto, port.right.toNat, port.left.toNat⟩) := by
  have hn : ∀ {c : Char}, c.isDigit = false → ∀ n, c ∉ Numeral.decimal n := Numeral.notMem_decimal
  have hf : ∀ p : UInt16, Numeral.fromStr 16 (Numeral.decimal p.toNat) = .ok p.toNat :=
    fun p => Numeral.fromStr_decimal p.toNat_lt
  have ha : ∀ proto : Proto, readAddress proto ("127.0.0.1:".toList ++
      (Numeral.decimal port.left.toNat ++ ':' :: Numeral.decimal port.right.toNat)) =
      some ("127.0.0.1".toList, ⟨proto, port.right.toNat, port.left.toNat⟩) := by
    intro proto
    have hs : ("127.0.0.1:".toList ++ (Numeral.decimal port.left.toNat ++ ':' ::
        Numeral.decimal port.right.toNat)).splitOn ':' = ["127.0.0.1".toList,
        Numeral.decimal port.left.toNat, Numeral.decimal port.right.toNat] := by
      rw [show "127.0.0.1:".toList = "127.0.0.1".toList ++ [':'] from rfl, List.append_assoc,
        List.singleton_append, List.splitOn_append_cons_self_of_not_mem (by decide),
        List.splitOn_append_cons_self_of_not_mem (hn (by decide) _),
        List.splitOn_eq_singleton (hn (by decide) _)]
    unfold readAddress
    rw [hs]
    dsimp only
    rw [hf, hf]
    rfl
  have hslash : '/' ∉ "127.0.0.1:".toList ++ (Numeral.decimal port.left.toNat ++ ':' ::
      Numeral.decimal port.right.toNat) := by
    have h₁ : '/' ∉ "127.0.0.1:".toList := by decide
    simp only [List.mem_append, List.mem_cons, not_or]
    exact ⟨h₁, hn (by decide) _, by decide, hn (by decide) _⟩
  obtain ⟨left, right, proto⟩ := port
  unfold readPublish publishArg
  cases proto with
  | tcp =>
    dsimp only at ha hslash ⊢
    rw [List.append_nil, splitOnce_none hslash]
    exact ha .tcp
  | udp =>
    dsimp only at ha hslash ⊢
    have hsuf : "127.0.0.1:".toList ++ (Numeral.decimal left.toNat ++ ':' ::
        (Numeral.decimal right.toNat ++ "/udp".toList)) = ("127.0.0.1:".toList ++
          (Numeral.decimal left.toNat ++ ':' :: Numeral.decimal right.toNat)) ++
            '/' :: "udp".toList := by simp
    rw [hsuf, splitOnce_first hslash]
    exact ha .udp

/-- Both lists are read as they were given; what is left is the guest's port for pasta and the
host's for podman. -/
structure PortsKept (hostPorts publish : List PortMap) : Prop where
  absent : networkArg hostPorts publish = none ↔ hostPorts = [] ∧ publish = []
  hostPorts : ∀ arg, networkArg hostPorts publish = some arg →
    readPasta arg = some (hostPorts.map fun port =>
      ⟨port.proto, port.left.toNat, port.right.toNat⟩)
  publish : publish.map (fun port => readPublish (publishArg port)) = publish.map fun port =>
    some ("127.0.0.1".toList, ⟨port.proto, port.right.toNat, port.left.toNat⟩)

theorem portsKept (hostPorts publish : List PortMap) : PortsKept hostPorts publish where
  absent := by
    unfold networkArg pastaNetworkArg
    cases publish <;> simp
  hostPorts arg h := by
    unfold networkArg pastaNetworkArg at h
    split at h
    · cases h
    · rw [← Option.some.inj h]
      exact readPasta_arg hostPorts _
  publish := List.map_congr_left fun port _ => readPublish_arg port

/-- Forwardings reach pasta and podman as the user has spelt them, and no other spellings are
accepted. -/
theorem ports_unchanged :
    (∀ hostPorts publish, PortsKept hostPorts publish) ∧
    (∀ spec port, PortMap.fromStr spec = .ok port ↔ Spelling spec port) ∧
    (∀ port : PortMap, port.left ≠ 0 → port.right ≠ 0 → ∀ suffix, Suffix port.proto suffix →
      PortMap.fromStr (port.pair ++ suffix) = .ok port ∧
        PortMap.fromStr (portMapSpec port ++ suffix) = .ok port) ∧
    (∀ spec, Malformed spec → ∀ port, PortMap.fromStr spec ≠ .ok port) ∧
    ∀ raw n, Numeral.Spells raw n → n = 0 ∨ 65535 < n → ∀ port, ¬ PortText raw port := by
  refine ⟨portsKept, fun _ _ => fromStr_spelling, fun port hl hr suffix hs => ⟨?_, ?_⟩,
    fun spec hm port h => hm.not_spelling port (fromStr_spelling.mp h), ?_⟩
  · exact fromStr_spelling.mpr ⟨_, _, rfl, pairText_pair hl hr, hs⟩
  · exact fromStr_spelling.mpr ⟨_, _, rfl, pairText_portMapSpec hl hr, hs⟩
  · intro raw n hn hz port ⟨hp, hne⟩
    have he := hp.unique hn
    have hlt := port.toNat_lt
    rcases hz with rfl | hz
    · exact hne (UInt16.toNat_inj.mp he)
    · omega

theorem ports_unchanged_sample :
    PortsKept [⟨15432, 5432, .tcp⟩, ⟨53, 53, .udp⟩] [⟨8080, 80, .tcp⟩] ∧
      (PortMap.fromStr ("53:53".toList ++ "/udp".toList) = .ok ⟨53, 53, .udp⟩ ∧
        PortMap.fromStr ("53".toList ++ "/udp".toList) = .ok ⟨53, 53, .udp⟩) :=
  ⟨ports_unchanged.1 _ _,
    ports_unchanged.2.2.1 ⟨53, 53, .udp⟩ (by decide) (by decide) "/udp".toList rfl⟩

end Claudepod
