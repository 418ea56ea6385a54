import Claudepod.Async

/-! Nix daemon wire primitives: u64 little-endian, length-prefixed strings zero-padded to
8 bytes, and counted string lists. Read functions take explicit caps. -/

set_option autoImplicit false

namespace Claudepod
open Interaction

/-- Cap on a single string from the guest. -/
def maxGuestString : UInt64 := 65536

/-- Cap on a single string from the host daemon. -/
def maxHostString : UInt64 := 16777216

/-- Cap on collection counts. -/
def maxCount : UInt64 := 1048576

/-! ### Encodings -/

/-- The zeros behind a string of length `n`. -/
def padding (n : Nat) : Bytes := if n % 8 = 0 then [] else List.replicate (8 - n % 8) 0

def encString (s : Bytes) : Bytes := le64 (UInt64.ofNat s.length) ++ s ++ padding s.length

def encCounted {α : Type} (enc : α → Bytes) (as : List α) : Bytes :=
  le64 (UInt64.ofNat as.length) ++ as.flatMap enc

abbrev encStringList : List Bytes → Bytes := encCounted encString

def wordFormat : Format UInt64 := Format.canonical (fun _ => True) le64

/-- One given word. -/
def literal (w : UInt64) : Format Unit := fun _ x => x = le64 w

def stringFormat (cap : UInt64) : Format Bytes :=
  Format.canonical (fun s => s.length ≤ cap.toNat) encString

/-- A count within the cap and that many valid items. -/
def countedFormat {α : Type} (cap : UInt64) (valid : α → Prop) (enc : α → Bytes) :
    Format (List α) :=
  Format.canonical (fun as => as.length ≤ cap.toNat ∧ ∀ a ∈ as, valid a) (encCounted enc)

abbrev stringListFormat (maxCount maxLen : UInt64) : Format (List Bytes) :=
  countedFormat maxCount (fun s => s.length ≤ maxLen.toNat) encString

/-! ### Reading -/

def readU64 (r : Leg) : Async UInt64 := do
  let bs ← readExact r 8 "unexpected end of file"
  pure (ofLe64 bs)

/-- `r.read(&mut buf)`: at least one byte, or none at the end. -/
def readSome (r : Leg) (n : Nat) : Async Bytes :=
  Comp.perform (.readSome r n) >>= fun (chunk : Chunk IoError n) =>
    match chunk with
    | .some bs _ _ => pure bs
    | .ended .eof => pure []
    | .ended (.fault f) => throw (stopOf f)

/-- The loop of `read_u64_or_eof`. -/
def fillU64 (r : Leg) : Nat → Bytes → Async (Option UInt64)
  | 0, _ => throw .exhausted
  | fuel+1, buf =>
    if buf.length < 8 then do
      let bs ← readSome r (8 - buf.length)
      if bs = [] then
        if buf = [] then pure none else bail "eof in the middle of a u64"
      else fillU64 r fuel (buf ++ bs)
    else pure (some (ofLe64 buf))

/-- Like `readU64`, but a clean EOF before the first byte returns `none`. -/
def readU64OrEof (r : Leg) : Async (Option UInt64) := fillU64 r 9 []

def readPadding (r : Leg) (len : Nat) : Async Unit :=
  if len % 8 = 0 then pure ()
  else do
    let pad ← readExact r (8 - len % 8) "early eof"
    ensure (pad = List.replicate (8 - len % 8) 0) "non-zero string padding"

def readString (r : Leg) (maxLen : UInt64) : Async Bytes := do
  let len ← readU64 r
  ensure (len ≤ maxLen) s!"string length {len} exceeds limit {maxLen}"
  let buf ← readExact r len.toNat "early eof"
  readPadding r len.toNat
  pure buf

/-- A count, checked against its cap, and that many items. -/
def readCounted {α : Type} (r : Leg) (cap : UInt64) (excess : UInt64 → String) (item : Async α) :
    Async (List α) := do
  let count ← readU64 r
  ensure (count ≤ cap) (excess count)
  Proc.readMany item count.toNat

def readStringList (r : Leg) (maxCount maxLen : UInt64) : Async (List Bytes) :=
  readCounted r maxCount (fun count => s!"string count {count} exceeds limit {maxCount}")
    (readString r maxLen)

/-! ### Writing -/

def writeU64 (w : Leg) (v : UInt64) : Async Unit := writeAll w (le64 v)

def writeString (w : Leg) (s : Bytes) : Async Unit := do
  writeU64 w (UInt64.ofNat s.length)
  writeAll w s
  if s.length % 8 = 0 then pure () else writeAll w (List.replicate (8 - s.length % 8) 0)

def writeCounted {α : Type} (w : Leg) (item : α → Async Unit) (items : List α) : Async Unit := do
  writeU64 w (UInt64.ofNat items.length)
  Proc.forEach item items

def writeStringList (w : Leg) (items : List Bytes) : Async Unit :=
  writeCounted w (writeString w) items

/-! ### Copying -/

def copyU64 (r w : Leg) : Async UInt64 := do
  let v ← readU64 r
  writeU64 w v
  pure v

def copyString (r w : Leg) (maxLen : UInt64) : Async Unit := do
  let s ← readString r maxLen
  writeString w s

def copyStringList (r w : Leg) (maxLen : UInt64) : Async Unit := do
  let count ← readU64 r
  ensure (count ≤ maxCount) s!"string count {count} exceeds limit"
  writeU64 w count
  Proc.times (copyString r w maxLen) count.toNat

/-! ### What the readers accept -/

theorem le64_ofNat_le {n : Nat} {cap : UInt64} (h : n ≤ cap.toNat) :
    (UInt64.ofNat n).toNat = n ∧ UInt64.ofNat n ≤ cap := by
  have hc := cap.toNat_lt
  have hn : (UInt64.ofNat n).toNat = n := by
    rw [UInt64.toNat_ofNat']
    exact Nat.mod_eq_of_lt (by omega)
  exact ⟨hn, UInt64.le_iff_toNat_le.mpr (by rw [hn]; exact h)⟩

theorem decodes_ensure {α : Type} {c : Leg} {p : Async α} {F : Format α} {P : Prop} [Decidable P]
    {s : String} (h : Decodes c p F) : Decodes c (ensure P s >>= fun _ => p) (F.guard P) :=
  h.require

theorem decodes_check {c : Leg} {P : Prop} [Decidable P] {s : String} :
    Decodes c (ensure P s) ((Format.pure ()).guard P) := by
  have h := decodes_ensure (P := P) (s := s) (Decodes.pure (c := c) ())
  rwa [bind_pure_unit] at h

theorem copies_ensure {α : Type} {c d : Leg} {p : Async α} {F : Format α} {P : Prop}
    [Decidable P] {s : String} (h : Copies c d p F) :
    Copies c d (ensure P s >>= fun _ => p) (F.guard P) := h.require

theorem readU64_decodes (r : Leg) : Decodes r (readU64 r) wordFormat := by
  refine ((readExact_decodes r 8 _).bind fun bs => .pure (ofLe64 bs)).congr fun v x => ?_
  constructor
  · rintro ⟨bs, x, y, ⟨hl, rfl⟩, ⟨rfl, rfl⟩, rfl⟩
    exact ⟨trivial, by rw [le64_ofLe64 hl, List.append_nil]⟩
  · rintro ⟨-, rfl⟩
    exact ⟨le64 v, le64 v, [], ⟨le64_length v, rfl⟩, ⟨(ofLe64_le64 v).symm, rfl⟩, by simp⟩

theorem readPadding_decodes (r : Leg) (n : Nat) :
    Decodes r (readPadding r n) (Format.canonical (fun _ => True) (fun _ => padding n)) := by
  unfold readPadding padding
  split
  · exact (Decodes.pure ()).congr fun u x => by simp [Format.pure, Format.canonical]
  · refine ((readExact_decodes r _ _).bind (fun pad => decodes_check)).congr fun u x => ?_
    constructor
    · rintro ⟨bs, x, y, ⟨-, rfl⟩, ⟨rfl, -, rfl⟩, rfl⟩
      exact ⟨trivial, by simp⟩
    · rintro ⟨-, rfl⟩
      exact ⟨_, _, [], ⟨by simp, rfl⟩, ⟨rfl, rfl, rfl⟩, by simp⟩

theorem readString_decodes (r : Leg) (cap : UInt64) :
    Decodes r (readString r cap) (stringFormat cap) := by
  refine ((readU64_decodes r).bind (fun len => decodes_ensure
    ((readExact_decodes r len.toNat "early eof").bind (fun buf =>
      (readPadding_decodes r len.toNat).bind (fun _ => .pure buf))))).congr fun s x => ?_
  constructor
  · rintro ⟨len, x, y, ⟨-, rfl⟩, ⟨hle, buf, x', y', ⟨hl, rfl⟩, ⟨u, x'', y'', ⟨-, rfl⟩, ⟨rfl, rfl⟩,
      rfl⟩, rfl⟩, rfl⟩
    have hlen : UInt64.ofNat s.length = len := by rw [hl]; exact UInt64.ofNat_toNat
    refine ⟨Nat.le_trans (Nat.le_of_eq hl) (UInt64.le_iff_toNat_le.mp hle), ?_⟩
    rw [encString, hlen, ← hl]
    simp
  · rintro ⟨hs, rfl⟩
    obtain ⟨hn, hle⟩ := le64_ofNat_le hs
    refine ⟨UInt64.ofNat s.length, _, s ++ padding s.length, ⟨trivial, rfl⟩, ⟨hle, s, s,
      padding s.length, ⟨hn.symm, rfl⟩, ⟨(), padding s.length, [], ⟨trivial, by rw [hn]⟩,
      ⟨rfl, rfl⟩, by simp⟩, rfl⟩, by simp [encString]⟩

theorem readCounted_decodes {α : Type} {r : Leg} {cap : UInt64} {item : Async α}
    {valid : α → Prop} {enc : α → Bytes} (excess : UInt64 → String)
    (h : Decodes r item (Format.canonical valid enc)) :
    Decodes r (readCounted r cap excess item) (countedFormat cap valid enc) := by
  refine ((readU64_decodes r).bind (fun n => decodes_ensure
    (h.readMany n.toNat))).congr fun as x => ?_
  constructor
  · rintro ⟨n, x, y, ⟨-, rfl⟩, ⟨hle, hm⟩, rfl⟩
    obtain ⟨hl, hv, rfl⟩ := (Format.many_canonical _ _ _ _ _).mp hm
    have hn : UInt64.ofNat as.length = n := by rw [hl]; exact UInt64.ofNat_toNat
    exact ⟨⟨hl ▸ UInt64.le_iff_toNat_le.mp hle, hv⟩, by rw [encCounted, hn]⟩
  · rintro ⟨⟨hl, hv⟩, rfl⟩
    obtain ⟨hn, hle⟩ := le64_ofNat_le hl
    exact ⟨UInt64.ofNat as.length, _, as.flatMap enc, ⟨trivial, rfl⟩,
      ⟨hle, (Format.many_canonical _ _ _ _ _).mpr ⟨hn.symm, hv, rfl⟩⟩, rfl⟩

theorem readStringList_decodes (r : Leg) (n len : UInt64) :
    Decodes r (readStringList r n len) (stringListFormat n len) :=
  readCounted_decodes _ (readString_decodes r len)

/-- Where a string within the cap ends can be told from its bytes. -/
theorem encString_unambiguous {cap : UInt64} {s s' u v : Bytes} (h : s.length ≤ cap.toNat)
    (h' : s'.length ≤ cap.toNat) (he : encString s ++ u = encString s' ++ v) :
    s = s' ∧ u = v := by
  have hf : ∀ {s : Bytes}, s.length ≤ cap.toNat → stringFormat cap s (encString s) :=
    fun hs => ⟨hs, rfl⟩
  obtain ⟨hs, -, hu⟩ := (readString_decodes .guest cap).unambiguous (hf h) (hf h') he
  exact ⟨hs, hu⟩

theorem encStrings_injective {cap : UInt64} {ss ss' : List Bytes}
    (h : ∀ s ∈ ss, s.length ≤ cap.toNat) (h' : ∀ s ∈ ss', s.length ≤ cap.toNat)
    (he : ss.flatMap encString = ss'.flatMap encString) : ss = ss' := by
  induction ss generalizing ss' with
  | nil =>
    cases ss' with
    | nil => rfl
    | cons s' ss' =>
      have hl := congrArg List.length he.symm
      simp [encString] at hl
  | cons s ss ih =>
    cases ss' with
    | nil =>
      have hl := congrArg List.length he
      simp [encString] at hl
    | cons s' ss' =>
      obtain ⟨hs, hss⟩ := List.forall_mem_cons.mp h
      obtain ⟨hs', hss'⟩ := List.forall_mem_cons.mp h'
      obtain ⟨rfl, hrest⟩ := encString_unambiguous hs hs' he
      rw [ih hss hss' hrest]

/-! ### The word between two requests -/

theorem readSome_runs {r : Leg} {n : Nat} {t : IoTrace} {res : Except Stop Bytes} :
    (readSome r n).Runs t res ↔
      (∃ bs, ∃ h : 0 < bs.length, ∃ h' : bs.length ≤ n,
        t = [⟨.readSome r n, .some bs h h'⟩] ∧ res = .ok bs) ∨
      (t = [⟨.readSome r n, .ended .eof⟩] ∧ res = .ok []) ∨
      (∃ f, t = [⟨.readSome r n, .ended (.fault f)⟩] ∧ res = .error (stopOf f)) := by
  rw [readSome, Comp.runs_perform_bind]
  constructor
  · rintro ⟨g, u, rfl, h⟩
    rcases g with ⟨bs, hb, hn⟩ | _ | f
    · obtain ⟨rfl, rfl⟩ := (Comp.runs_pure _ _).mp h
      exact .inl ⟨bs, hb, hn, rfl, rfl⟩
    · obtain ⟨rfl, rfl⟩ := (Comp.runs_pure _ _).mp h
      exact .inr (.inl ⟨rfl, rfl⟩)
    · obtain ⟨rfl, rfl⟩ := (Comp.runs_throw _ _).mp h
      exact .inr (.inr ⟨f, rfl, rfl⟩)
  · rintro (⟨bs, hb, hn, rfl, rfl⟩ | ⟨rfl, rfl⟩ | ⟨f, rfl, rfl⟩)
    · exact ⟨.some bs hb hn, [], rfl, (Comp.runs_pure _ _).mpr ⟨rfl, rfl⟩⟩
    · exact ⟨.ended .eof, [], rfl, (Comp.runs_pure _ _).mpr ⟨rfl, rfl⟩⟩
    · exact ⟨.ended (.fault f), [], rfl, (Comp.runs_throw _ _).mpr ⟨rfl, rfl⟩⟩

theorem stopOf_ne_exhausted (f : Fault IoError) : stopOf f ≠ .exhausted := by
  cases f <;> simp [stopOf]

/-- What reading on from `buf` can come to. -/
def FilledU64 (r : Leg) (buf : Bytes) (t : IoTrace) : Except Stop (Option UInt64) → Prop
  | .ok (some v) => buf ++ recvd r t = le64 v
  | .ok none => buf = [] ∧ t = [⟨.readSome r 8, .ended .eof⟩]
  | .error s => s ≠ .exhausted

theorem fillU64_runs {r : Leg} {fuel : Nat} {buf : Bytes} {t : IoTrace}
    {res : Except Stop (Option UInt64)} (h : (fillU64 r fuel buf).Runs t res)
    (hb : buf.length ≤ 8) (hf : 8 < fuel + buf.length) :
    Only (readsFrom r) t ∧ FilledU64 r buf t res := by
  induction fuel generalizing buf t with
  | zero => omega
  | succ fuel ih =>
    unfold fillU64 at h
    split at h
    · rename_i hl
      rcases (Comp.runs_bind _).mp h with ⟨bs, t₁, t₂, rfl, h₁, h₂⟩ | ⟨e, rfl, h₁⟩
      · rcases readSome_runs.mp h₁ with ⟨bs', hp, hn, rfl, hbs⟩ | ⟨rfl, hbs⟩ | ⟨f, rfl, hbs⟩
        · obtain rfl := Except.ok.inj hbs
          rw [if_neg (List.ne_nil_of_length_pos hp)] at h₂
          obtain ⟨ho, hr⟩ := ih h₂ (by rw [List.length_append]; omega)
            (by rw [List.length_append]; omega)
          refine ⟨by simp [readsFrom, ho], ?_⟩
          rcases res with s | _ | v
          · exact hr
          · exact absurd (List.append_eq_nil_iff.mp hr.1).2 (List.ne_nil_of_length_pos hp)
          · simpa [FilledU64, recvd_cons, eventRecvd, Chunk.bytes] using hr
        · obtain rfl := Except.ok.inj hbs
          rw [if_pos rfl] at h₂
          split at h₂
          · rename_i he
            obtain ⟨rfl, rfl⟩ := (Comp.runs_pure _ _).mp h₂
            exact ⟨by simp [readsFrom], he, by rw [he]; rfl⟩
          · obtain ⟨rfl, rfl⟩ := (Comp.runs_throw _ _).mp h₂
            exact ⟨by simp [readsFrom], by simp [FilledU64]⟩
        · cases hbs
      · rcases readSome_runs.mp h₁ with ⟨bs', hp, hn, -, hbs⟩ | ⟨-, hbs⟩ | ⟨f, rfl, hbs⟩
        · cases hbs
        · cases hbs
        · obtain rfl := Except.error.inj hbs
          exact ⟨by simp [readsFrom], stopOf_ne_exhausted f⟩
    · obtain ⟨rfl, rfl⟩ := (Comp.runs_pure _ _).mp h
      exact ⟨by simp, by simp [FilledU64, le64_ofLe64 (show buf.length = 8 by omega)]⟩

/-- A word, nothing at all, or an error of the connection. -/
theorem readU64OrEof_runs {r : Leg} {t : IoTrace} {res : Except Stop (Option UInt64)}
    (h : (readU64OrEof r).Runs t res) : Only (readsFrom r) t ∧ FilledU64 r [] t res :=
  fillU64_runs h (by simp) (by simp)

theorem readU64OrEof_some (r : Leg) (v : UInt64) :
    (readU64OrEof r).Runs
      [⟨.readSome r 8, .some (le64 v) (le64_pos v) (Nat.le_of_eq (le64_length v))⟩]
      (.ok (some v)) := by
  have h : (readSome r 8).Runs
      [⟨.readSome r 8, .some (le64 v) (le64_pos v) (Nat.le_of_eq (le64_length v))⟩]
      (.ok (le64 v)) :=
    readSome_runs.mpr (.inl ⟨le64 v, le64_pos v, Nat.le_of_eq (le64_length v), rfl, rfl⟩)
  refine h.bind (u := []) ?_
  rw [if_neg (List.ne_nil_of_length_pos (by simp))]
  unfold fillU64
  rw [if_neg (by simp), List.nil_append, ofLe64_le64]
  exact ⟨rfl, rfl⟩

theorem readU64OrEof_none (r : Leg) :
    (readU64OrEof r).Runs [⟨.readSome r 8, .ended .eof⟩] (.ok none) :=
  Comp.Runs.bind (u := []) (readSome_runs.mpr (.inr (.inl ⟨rfl, rfl⟩))) ⟨rfl, rfl⟩

/-! ### What the writers put out -/

theorem writeU64_emits (w : Leg) (v : UInt64) : Emits w (writeU64 w v) () (le64 v) :=
  writeAll_emits w (le64 v)

theorem writeString_emits (w : Leg) (s : Bytes) : Emits w (writeString w s) () (encString s) := by
  have hp : Emits w (if s.length % 8 = 0 then pure ()
      else writeAll w (List.replicate (8 - s.length % 8) 0)) () (padding s.length) := by
    unfold padding
    split
    · exact .pure ()
    · exact writeAll_emits w _
  rw [encString, List.append_assoc]
  exact (writeU64_emits w _).bind ((writeAll_emits w s).bind hp)

theorem writeCounted_emits {α : Type} {w : Leg} {item : α → Async Unit} {enc : α → Bytes}
    (h : ∀ a, Emits w (item a) () (enc a)) (as : List α) :
    Emits w (writeCounted w item as) () (encCounted enc as) :=
  (writeU64_emits w _).bind (Emits.forEach h as)

theorem writeStringList_emits (w : Leg) (items : List Bytes) :
    Emits w (writeStringList w items) () (encStringList items) :=
  writeCounted_emits (writeString_emits w) items

/-! ### What the copiers pass on -/

theorem bind_pure_format {α : Type} (F : Format α) (a : α) (x : Bytes) :
    F.bind (fun b => Format.pure b) a x ↔ F a x := by
  constructor
  · rintro ⟨b, x, y, hx, ⟨rfl, rfl⟩, rfl⟩
    rwa [List.append_nil]
  · exact fun hx => ⟨a, x, [], hx, ⟨rfl, rfl⟩, by simp⟩

theorem bind_unit_format {α : Type} (F : Format α) (u : Unit) (x : Bytes) :
    F.bind (fun _ => Format.pure ()) u x ↔ F.erase u x := by
  constructor
  · rintro ⟨b, x, y, hx, ⟨-, rfl⟩, rfl⟩
    exact ⟨b, by rwa [List.append_nil]⟩
  · exact fun ⟨a, hx⟩ => ⟨a, x, [], hx, ⟨rfl, rfl⟩, by simp⟩

theorem copyU64_copies (r w : Leg) : Copies r w (copyU64 r w) wordFormat :=
  (Copies.relay (readU64_decodes r) (writeU64_emits w) (fun v => .pure v)).congr
    (bind_pure_format wordFormat)

theorem copyString_eq (r w : Leg) (cap : UInt64) :
    copyString r w cap =
      (readString r cap >>= fun s => writeString w s >>= fun _ => pure ()) := by
  simp [copyString]

theorem copyString_copies (r w : Leg) (cap : UInt64) :
    Copies r w (copyString r w cap) (stringFormat cap).erase := by
  rw [copyString_eq]
  exact (Copies.relay (readString_decodes r cap) (writeString_emits w)
    (fun _ => .pure ())).congr (bind_unit_format _)

/-- A count that is checked before it is used. -/
def readCount (r : Leg) (cap : UInt64) (excess : UInt64 → String) : Async UInt64 := do
  let count ← readU64 r
  ensure (count ≤ cap) (excess count)
  pure count

theorem readCount_decodes (r : Leg) (cap : UInt64) (excess : UInt64 → String) :
    Decodes r (readCount r cap excess) (Format.canonical (· ≤ cap) le64) := by
  refine ((readU64_decodes r).bind (fun n => decodes_ensure (.pure n))).congr fun n x => ?_
  constructor
  · rintro ⟨m, x, y, ⟨-, rfl⟩, ⟨hle, rfl, rfl⟩, rfl⟩
    exact ⟨hle, by simp⟩
  · rintro ⟨hle, rfl⟩
    exact ⟨n, le64 n, [], ⟨trivial, rfl⟩, ⟨hle, rfl, rfl⟩, by simp⟩

theorem copyStringList_eq (r w : Leg) (cap : UInt64) :
    copyStringList r w cap =
      (readCount r maxCount (fun count => s!"string count {count} exceeds limit") >>= fun count =>
        writeU64 w count >>= fun _ => Proc.times (copyString r w cap) count.toNat) := by
  simp [copyStringList, readCount]

/-- A count and then that many items, one at a time, spell a counted list. -/
theorem counted_times {α : Type} (cap : UInt64) (valid : α → Prop) (enc : α → Bytes) (u : Unit)
    (x : Bytes) :
    (Format.canonical (· ≤ cap) le64).bind
        (fun n => (Format.canonical valid enc).erase.times n.toNat) u x ↔
      (countedFormat cap valid enc).erase u x := by
  constructor
  · rintro ⟨n, x, y, ⟨hle, rfl⟩, hy, rfl⟩
    obtain ⟨as, hm⟩ := (Format.times_erase _ _ _ _).mp hy
    obtain ⟨hl, hv, rfl⟩ := (Format.many_canonical _ _ _ _ _).mp hm
    have hn : UInt64.ofNat as.length = n := by rw [hl]; exact UInt64.ofNat_toNat
    exact ⟨as, ⟨by rw [hl]; exact UInt64.le_iff_toNat_le.mp hle, hv⟩, by rw [encCounted, hn]⟩
  · rintro ⟨as, ⟨hl, hv⟩, rfl⟩
    obtain ⟨hn, hle⟩ := le64_ofNat_le hl
    exact ⟨UInt64.ofNat as.length, _, as.flatMap enc, ⟨hle, rfl⟩,
      (Format.times_erase _ _ _ _).mpr ⟨as, (Format.many_canonical _ _ _ _ _).mpr
        ⟨hn.symm, hv, rfl⟩⟩, rfl⟩

/-- Copying a count and that many strings one by one passes on a string list. -/
theorem copyStringList_copies (r w : Leg) (cap : UInt64) :
    Copies r w (copyStringList r w cap) (stringListFormat maxCount cap).erase := by
  rw [copyStringList_eq]
  exact (Copies.relay (readCount_decodes r _ _) (writeU64_emits w)
    (fun n => (copyString_copies r w cap).times n.toNat)).congr
    (counted_times maxCount _ encString)

/-! ### Why the primitives stop -/

theorem readU64_terse (r : Leg) : Comp.StopsIn Stop.Terse (readU64 r) :=
  (readExact_terse r 8 (by decide)).bind fun _ => .pure _

theorem readPadding_terse (r : Leg) (n : Nat) : Comp.StopsIn Stop.Terse (readPadding r n) := by
  unfold readPadding
  split
  · exact .pure ()
  · exact (readExact_terse r _ (by decide)).bind fun _ => ensure_terse (by decide)

theorem readString_terse (r : Leg) (cap : UInt64) :
    Comp.StopsIn Stop.Terse (readString r cap) := by
  refine (readU64_terse r).bind fun len => (ensure_terse ?_).bind fun _ =>
    (readExact_terse r _ (by decide)).bind fun _ => (readPadding_terse r _).bind fun _ => .pure _
  have h : "string length ".utf8ByteSize + " exceeds limit ".utf8ByteSize ≤ 800 := by decide
  have hl := decimal_size len
  have hc := decimal_size cap
  simp only [String.utf8ByteSize_append]
  show "string length ".utf8ByteSize + _ + " exceeds limit ".utf8ByteSize + _ ≤ 1024
  omega

theorem readCounted_terse {α : Type} {r : Leg} {cap : UInt64} {excess : UInt64 → String}
    {item : Async α} (ho : ∀ n, (excess n).utf8ByteSize ≤ 1024)
    (h : Comp.StopsIn Stop.Terse item) : Comp.StopsIn Stop.Terse (readCounted r cap excess item) :=
  (readU64_terse r).bind fun n => (ensure_terse (ho n)).bind fun _ => Proc.stopsIn_readMany h _

theorem writeU64_terse (w : Leg) (v : UInt64) : Comp.StopsIn Stop.Terse (writeU64 w v) :=
  writeAll_terse w _

theorem writeString_terse (w : Leg) (s : Bytes) : Comp.StopsIn Stop.Terse (writeString w s) := by
  refine (writeU64_terse w _).bind fun _ => (writeAll_terse w s).bind fun _ => ?_
  split
  · exact .pure ()
  · exact writeAll_terse w _

theorem writeCounted_terse {α : Type} {w : Leg} {item : α → Async Unit}
    (h : ∀ a, Comp.StopsIn Stop.Terse (item a)) (as : List α) :
    Comp.StopsIn Stop.Terse (writeCounted w item as) :=
  (writeU64_terse w _).bind fun _ => Proc.stopsIn_forEach h as

theorem copyU64_terse (r w : Leg) : Comp.StopsIn Stop.Terse (copyU64 r w) :=
  (readU64_terse r).bind fun v => (writeU64_terse w v).bind fun _ => .pure v

theorem copyString_terse (r w : Leg) (cap : UInt64) :
    Comp.StopsIn Stop.Terse (copyString r w cap) :=
  (readString_terse r cap).bind fun s => writeString_terse w s

theorem copyStringList_terse (r w : Leg) (cap : UInt64) :
    Comp.StopsIn Stop.Terse (copyStringList r w cap) :=
  (readU64_terse r).bind fun count =>
    (ensure_terse (labelled_size "string count " " exceeds limit" (by decide)
      count)).bind fun _ =>
    (writeU64_terse w count).bind fun _ => Proc.stopsIn_times (copyString_terse r w cap) _

/-! ### Nothing goes on behind a failed call -/

theorem readU64_halts (r : Leg) : Comp.HaltsAt spoiled (readU64 r) :=
  (readExact_halts r 8 _).bind fun _ => .pure _

theorem readPadding_halts (r : Leg) (n : Nat) : Comp.HaltsAt spoiled (readPadding r n) := by
  unfold readPadding
  split
  · exact .pure ()
  · exact (readExact_halts r _ _).bind fun _ => ensure_halts

theorem readString_halts (r : Leg) (cap : UInt64) : Comp.HaltsAt spoiled (readString r cap) :=
  (readU64_halts r).bind fun _ => ensure_halts.bind fun _ => (readExact_halts r _ _).bind fun _ =>
    (readPadding_halts r _).bind fun _ => .pure _

theorem writeString_halts (w : Leg) (s : Bytes) : Comp.HaltsAt spoiled (writeString w s) := by
  refine (writeAll_halts w _).bind fun _ => (writeAll_halts w s).bind fun _ => ?_
  split
  · exact .pure ()
  · exact writeAll_halts w _

theorem copyU64_halts (r w : Leg) : Comp.HaltsAt spoiled (copyU64 r w) :=
  (readU64_halts r).bind fun _ => (writeAll_halts w _).bind fun _ => .pure _

theorem copyString_halts (r w : Leg) (cap : UInt64) : Comp.HaltsAt spoiled (copyString r w cap) :=
  (readString_halts r cap).bind fun s => writeString_halts w s

theorem copyStringList_halts (r w : Leg) (cap : UInt64) :
    Comp.HaltsAt spoiled (copyStringList r w cap) :=
  (readU64_halts r).bind fun _ => ensure_halts.bind fun _ => (writeAll_halts w _).bind fun _ =>
    Proc.haltsAt_times (copyString_halts r w cap) _

/-! ### What a copier leaves behind when it stops -/

theorem erase_inhabited {α : Type} {F : Format α} (h : ∃ a x, F a x) : ∃ x, F.erase () x := by
  obtain ⟨a, x, hx⟩ := h
  exact ⟨x, a, hx⟩

theorem stringFormat_inhabited (cap : UInt64) : ∃ s x, stringFormat cap s x :=
  ⟨[], encString [], Nat.zero_le _, rfl⟩

theorem copyU64_extends (r w : Leg) : Extends w (copyU64 r w) wordFormat :=
  (Extends.relay (readU64_decodes r) ⟨0, trivial⟩ (writeU64_emits w)
    (fun v => Extends.pure v (Format.pure v)) (fun v _ _ => ⟨v, [], rfl, rfl⟩)).congr
    (bind_pure_format wordFormat)

theorem copyString_extends (r w : Leg) (cap : UInt64) :
    Extends w (copyString r w cap) (stringFormat cap).erase := by
  rw [copyString_eq]
  exact (Extends.relay (readString_decodes r cap) ⟨[], Nat.zero_le _⟩ (writeString_emits w)
    (fun _ => Extends.pure () (Format.pure ()))
    (fun _ _ _ => ⟨(), [], rfl, rfl⟩)).congr (bind_unit_format _)

/-- A copy that stops inside a string list can still be completed to one. -/
theorem copyStringList_extends (r w : Leg) (cap : UInt64) :
    Extends w (copyStringList r w cap) (stringListFormat maxCount cap).erase := by
  have hi : ∃ x, (stringFormat cap).erase () x := erase_inhabited (stringFormat_inhabited cap)
  rw [copyStringList_eq]
  exact (Extends.relay (readCount_decodes r maxCount _) ⟨0, by decide⟩ (writeU64_emits w)
    (fun n => Extends.times (copyString_extends r w cap) (copyString_copies r w cap) hi n.toNat)
    (fun n _ _ => Format.times_inhabited hi n.toNat)).congr
    (counted_times maxCount _ encString)

end Claudepod
