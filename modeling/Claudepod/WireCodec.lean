import Claudepod.Framing

/-! The codec as a whole. A writer and a reader of one spelling undo each other on every
stream, the reader takes nothing else, and a copier does what reading and writing would. -/

set_option autoImplicit false

namespace Interaction

variable {ι ε δ ς α : Type} [DecidableEq ι] {c d : ι}

/-- What `p` puts out on `d` when everything is taken. -/
def output (d : ι) (p : Proc ι ε δ ς Unit) : Bytes :=
  sent d (p.exec World.step (⟨fun _ => Peer.script [], [], []⟩ : World ι ε δ)).trace

omit [DecidableEq ι] in
theorem not_reads_of_puts {d c : ι} {e : Event (Resp ι ε δ)} (h : puts d e) : ¬ readsFrom c e := by
  obtain ⟨o, r⟩ := e
  cases o <;> simp_all [puts, readsFrom]

/-- A writer whose bytes are taken leaves the world as it was. -/
theorem Emits.exec_taken {p : Proc ι ε δ ς Unit} {x : Bytes} (h : Emits d p () x)
    (W : World ι ε δ) (hW : ∀ e, (W.peers e).credit = none) :
    ∃ t, p.exec World.step W = ⟨t, .ok (), W⟩ ∧ sent d t = x := by
  obtain ⟨t, ht, hc⟩ := h.complete
  have hr : ∀ e, recvd e t = [] := fun e =>
    recvd_eq_nil (h.only ht) fun _ => not_reads_of_puts
  have ha : answered t = [] := answered_eq_nil ((h.only ht).mono fun e he => by
    obtain ⟨o, r⟩ := e
    cases o <;> simp_all [puts, onWire])
  have hf : Follows World.step W t (W.left (fun e => (W.peers e).incoming) W.answers) :=
    follows_of_clean hc (fun e => by rw [hr e, List.nil_append]) hW (by rw [ha]; rfl)
  rw [← eq_left (fun _ => rfl) rfl] at hf
  exact ⟨t, Comp.exec_eq ht hf, (h.sound ht).2⟩

theorem Emits.output_eq {p : Proc ι ε δ ς Unit} {x : Bytes} (h : Emits d p () x) :
    output d p = x := by
  obtain ⟨t, ht, hx⟩ := h.exec_taken ⟨fun _ => Peer.script [], [], []⟩ (fun _ => rfl)
  rw [output, ht, hx]

/-- `write` puts out one spelling of each value and `read` takes exactly those of `valid`. -/
structure Codec (c d : ι) (read : Proc ι ε δ ς α) (write : α → Proc ι ε δ ς Unit)
    (valid : α → Prop) : Prop where
  /-- A writer whose bytes are taken succeeds and changes nothing else. -/
  writes : ∀ a W, (∀ e, (W.peers e).credit = none) →
    ∃ t, (write a).exec World.step W = ⟨t, .ok (), W⟩ ∧ sent d t = output d (write a)
  /-- Whatever the connections do: a writer that succeeds has put out the spelling. -/
  written : ∀ t a, (write a).Runs t (.ok ()) → sent d t = output d (write a)
  /-- What was written is read back, whatever follows it, and what follows is left. -/
  restores : ∀ a, valid a → ∃ t, recvd c t = output d (write a) ∧ ∀ y e,
    read.exec World.step (feeding c (output d (write a) ++ y) e) = ⟨t, .ok a, feeding c y e⟩
  /-- Whatever the connections do: what was read is what writing it again would put out. -/
  reencodes : ∀ t a, read.Runs t (.ok a) → valid a ∧ recvd c t = output d (write a)
  /-- Of any stream, a reader that succeeds leaves all but the spelling. -/
  consumes : ∀ z e a, (read.exec World.step (feeding c z e)).value = .ok a →
    ∃ y, z = output d (write a) ++ y ∧
      (read.exec World.step (feeding c z e)).state = feeding c y e
  prefixFree : ∀ a b, valid a → valid b → output d (write a) <+: output d (write b) → a = b
  /-- It fails exactly on the streams that do not start with a spelling. -/
  refuses : ∀ z e, (∃ s, (read.exec World.step (feeding c z e)).value = .error s) ↔
    ∀ a, valid a → ¬ output d (write a) <+: z

namespace Decodes

variable {p : Proc ι ε δ ς α} {F : Format α}

theorem exec_spelling (h : Decodes c p F) {a : α} {x : Bytes} (hx : F a x) :
    ∃ t, recvd c t = x ∧
      ∀ y e, p.exec World.step (feeding c (x ++ y) e) = ⟨t, .ok a, feeding c y e⟩ := by
  obtain ⟨t, ht, hc, hr⟩ := h.complete hx
  subst hr
  exact ⟨t, rfl, fun y e =>
    Comp.exec_eq ht (follows_feeding (d := c) ((h.only ht).mono fun _ => .inl) hc y e)⟩

/-- What has been read is where the stream started. -/
theorem exec_recvd (h : Decodes c p F) (z : Bytes) (e : Ending ε) :
    recvd c (p.exec World.step (feeding c z e)).trace <+: z := by
  have hf := follows_recvd c (Comp.exec_follows World.step p (feeding c z e))
    ((h.only (Comp.exec_runs World.step p (feeding c z e))).mono
      fun _ he => not_dials_of_reads_or_puts (d := c) (.inl he))
  rw [feeding_peer] at hf
  exact ⟨_, hf.symm⟩

/-- A reader succeeds on what starts with a spelling, and on nothing else. -/
theorem exec_ok_iff (h : Decodes c p F) (z : Bytes) (e : Ending ε) (a : α) :
    (p.exec World.step (feeding c z e)).value = .ok a ↔ ∃ x, F a x ∧ x <+: z := by
  constructor
  · intro hv
    have hr := Comp.exec_runs World.step p (feeding c z e)
    rw [hv] at hr
    exact ⟨_, h.sound hr, h.exec_recvd z e⟩
  · intro ⟨x, hx, y, hy⟩
    obtain ⟨t, -, ht⟩ := h.exec_spelling hx
    rw [← hy, ht y e]

theorem exec_error_iff (h : Decodes c p F) (z : Bytes) (e : Ending ε) :
    (∃ s, (p.exec World.step (feeding c z e)).value = .error s) ↔
      ∀ a x, F a x → ¬ x <+: z := by
  constructor
  · intro ⟨s, hs⟩ a x hx hp
    rw [(h.exec_ok_iff z e a).mpr ⟨x, hx, hp⟩] at hs
    cases hs
  · intro hno
    cases hv : (p.exec World.step (feeding c z e)).value with
    | error s => exact ⟨s, rfl⟩
    | ok a =>
      obtain ⟨x, hx, hp⟩ := (h.exec_ok_iff z e a).mp hv
      exact absurd hp (hno a x hx)

theorem codec {valid : α → Prop} {enc : α → Bytes} {write : α → Proc ι ε δ ς Unit}
    (h : Decodes c p (Format.canonical valid enc)) (hw : ∀ a, Emits d (write a) () (enc a)) :
    Codec c d p write valid where
  writes a W hW := by
    rw [(hw a).output_eq]
    exact (hw a).exec_taken W hW
  written t a ht := by rw [(hw a).output_eq, ((hw a).sound ht).2]
  restores a ha := by
    rw [(hw a).output_eq]
    exact h.exec_spelling ⟨ha, rfl⟩
  reencodes t a ht := by
    rw [(hw a).output_eq]
    exact h.sound ht
  consumes z e a hv := by
    rw [(hw a).output_eq]
    obtain ⟨x, hx, y, hy⟩ := (h.exec_ok_iff z e a).mp hv
    obtain ⟨t, -, ht⟩ := h.exec_spelling hx
    refine ⟨y, by rw [← hx.2, hy], ?_⟩
    rw [← hy, ht y e]
  prefixFree a b ha hb hp := by
    rw [(hw a).output_eq, (hw b).output_eq] at hp
    obtain ⟨y, hy⟩ := hp
    exact (h.unambiguous ⟨ha, rfl⟩ ⟨hb, rfl⟩ (hy.trans (List.append_nil _).symm)).1
  refuses z e := by
    rw [h.exec_error_iff]
    constructor
    · intro hno a ha
      rw [(hw a).output_eq]
      exact hno a _ ⟨ha, rfl⟩
    · intro hno a x ⟨ha, hx⟩
      rw [hx, ← (hw a).output_eq]
      exact hno a ha

end Decodes

/-- Two relays from `c` to `d` cannot be told apart by what they pass on when they succeed. -/
structure Agree (c d : ι) (p q : Proc ι ε δ ς Unit) : Prop where
  /-- Whatever the connections do: where one succeeds the other can, over the same bytes. -/
  runs : ∀ t, p.Runs t (.ok ()) →
    ∃ u, q.Runs u (.ok ()) ∧ recvd c u = recvd c t ∧ sent d u = sent d t
  /-- They succeed on the same streams. -/
  succeed : ∀ z e, (p.exec World.step (feeding c z e)).value = .ok () ↔
    (q.exec World.step (feeding c z e)).value = .ok ()
  /-- There they read and write the same bytes and leave the same behind. -/
  same : ∀ z e, (p.exec World.step (feeding c z e)).value = .ok () →
    recvd c (q.exec World.step (feeding c z e)).trace =
        recvd c (p.exec World.step (feeding c z e)).trace ∧
      sent d (q.exec World.step (feeding c z e)).trace =
        sent d (p.exec World.step (feeding c z e)).trace ∧
      (q.exec World.step (feeding c z e)).state = (p.exec World.step (feeding c z e)).state

namespace Copies

variable {p q : Proc ι ε δ ς Unit} {F : Format Unit}

theorem exec_ok (h : Copies c d p F) {z : Bytes} {e : Ending ε}
    (hv : (p.exec World.step (feeding c z e)).value = .ok ()) : ∃ x, F () x ∧ x <+: z := by
  have hr := Comp.exec_runs World.step p (feeding c z e)
  rw [hv] at hr
  exact ⟨_, (h.sound hr).1, h.exec_recvd z e⟩

theorem agree (hp : Copies c d p F) (hq : Copies c d q F) : Agree c d p q where
  runs t ht := by
    obtain ⟨hF, hs⟩ := hp.sound ht
    obtain ⟨u, hu, -, hr⟩ := hq.complete hF
    exact ⟨u, hu, hr, by rw [(hq.sound hu).2, hr, hs]⟩
  succeed z e := by
    constructor
    · intro hv
      obtain ⟨x, hx, y, hy⟩ := hp.exec_ok hv
      obtain ⟨t, -, -, ht⟩ := hq.exec_frame hx
      rw [← hy, ht y e]
    · intro hv
      obtain ⟨x, hx, y, hy⟩ := hq.exec_ok hv
      obtain ⟨t, -, -, ht⟩ := hp.exec_frame hx
      rw [← hy, ht y e]
  same z e hv := by
    obtain ⟨x, hx, y, hy⟩ := hp.exec_ok hv
    obtain ⟨t, hr, hs, ht⟩ := hp.exec_frame hx
    obtain ⟨u, hr', hs', hu⟩ := hq.exec_frame hx
    rw [← hy, ht y e, hu y e]
    exact ⟨hr'.trans hr.symm, hs'.trans hs.symm, rfl⟩

end Copies

end Interaction

namespace Claudepod
open Interaction

/-! ### Padding -/

/-- The padding arithmetic for a length of 64 bits. -/
structure PaddingInRange (len : UInt64) : Prop where
  /-- `8 - len % 8` does not wrap. -/
  sub : len % 8 ≤ 8 ∧ (8 - len % 8).toNat = 8 - len.toNat % 8
  /-- The slices `[..8 - len % 8]` stay inside their eight bytes. -/
  slice : (8 - len % 8).toNat ≤ 8
  /-- The bytes a slice leaves alone are zero, so the whole buffer tells what was read. -/
  buffer : len.toNat % 8 ≠ 0 → ∀ pad : Bytes, pad.length = (8 - len % 8).toNat →
    (pad ++ List.replicate (8 - pad.length) 0 = List.replicate 8 0 ↔ pad = padding len.toNat)

theorem padding_eq {n : Nat} (h : n % 8 ≠ 0) : padding n = List.replicate (8 - n % 8) 0 := by
  simp [padding, h]

theorem padding_length (n : Nat) : (n + (padding n).length) % 8 = 0 ∧ (padding n).length < 8 := by
  unfold padding
  split
  · simp
    omega
  · simp
    omega

theorem paddingInRange (len : UInt64) : PaddingInRange len := by
  have hm : (len % 8).toNat = len.toNat % 8 := by simp
  have hle : len % 8 ≤ 8 := by
    rw [UInt64.le_iff_toNat_le, hm]
    simp
    omega
  have hsub : (8 - len % 8).toNat = 8 - len.toNat % 8 := by
    rw [UInt64.toNat_sub_of_le _ _ hle, hm]
    simp
  refine ⟨⟨hle, hsub⟩, by omega, fun hne pad hl => ?_⟩
  rw [hsub] at hl
  rw [padding_eq hne, ← hl]
  have h8 : List.replicate 8 (0 : UInt8) =
      List.replicate pad.length 0 ++ List.replicate (8 - pad.length) 0 := by
    rw [List.replicate_append_replicate]
    congr 1
    omega
  rw [h8, List.append_left_inj]

/-! ### Streams that start with no spelling -/

/-- Why a stream starts with no string within the cap. -/
inductive StringFault (cap : UInt64) : Bytes → Prop
  | noLength {z : Bytes} : z.length < 8 → StringFault cap z
  | long {len : UInt64} {y : Bytes} : cap < len → StringFault cap (le64 len ++ y)
  | cut {len : UInt64} {y : Bytes} : y.length < len.toNat + (padding len.toNat).length →
      StringFault cap (le64 len ++ y)
  | stuffed {len : UInt64} {s pad y : Bytes} : s.length = len.toNat →
      pad.length = (padding len.toNat).length → pad ≠ padding len.toNat →
      StringFault cap (le64 len ++ (s ++ (pad ++ y)))

/-- Why a stream starts with no list of strings within the caps. -/
inductive ListFault (maxItems cap : UInt64) : Bytes → Prop
  | noCount {z : Bytes} : z.length < 8 → ListFault maxItems cap z
  | many {count : UInt64} {y : Bytes} : maxItems < count → ListFault maxItems cap (le64 count ++ y)
  | item {count : UInt64} {ss : List Bytes} {y : Bytes} : ss.length < count.toNat →
      (∀ s ∈ ss, s.length ≤ cap.toNat) → StringFault cap y →
      ListFault maxItems cap (le64 count ++ (ss.flatMap encString ++ y))

theorem toNat_ofNat_le {n : Nat} {cap len : UInt64} (h : n ≤ cap.toNat)
    (he : UInt64.ofNat n = len) : len.toNat = n ∧ len ≤ cap := by
  subst he
  exact le64_ofNat_le h

/-- A string at the head of a stream behind a given length. -/
theorem encString_prefix {cap len : UInt64} {s y : Bytes} (hs : s.length ≤ cap.toNat)
    (h : encString s <+: le64 len ++ y) :
    s.length = len.toNat ∧ len ≤ cap ∧ s ++ padding len.toNat <+: y := by
  rw [encString, List.append_assoc] at h
  obtain ⟨hl, hp⟩ := prefix_append_inj h (by simp)
  obtain ⟨hn, hle⟩ := toNat_ofNat_le hs (le64_injective hl)
  rw [← hn] at hp
  exact ⟨hn.symm, hle, hp⟩

theorem StringFault.not_prefix {cap : UInt64} {z : Bytes} (h : StringFault cap z) {s : Bytes}
    (hs : s.length ≤ cap.toNat) : ¬ encString s <+: z := by
  intro hp
  cases h with
  | noLength hl =>
    have := hp.length_le
    simp [encString] at this
    omega
  | long hc =>
    obtain ⟨-, hle, -⟩ := encString_prefix hs hp
    rw [UInt64.lt_iff_toNat_lt] at hc
    rw [UInt64.le_iff_toNat_le] at hle
    omega
  | cut hl =>
    obtain ⟨hn, -, hp⟩ := encString_prefix hs hp
    have := hp.length_le
    simp at this
    omega
  | stuffed hl hpad hne =>
    obtain ⟨hn, -, hp⟩ := encString_prefix hs hp
    obtain ⟨-, hp⟩ := prefix_append_inj hp (hn.trans hl.symm)
    rw [← List.append_nil (padding _)] at hp
    exact hne (prefix_append_inj hp hpad.symm).1.symm

/-- The word at the head of a stream. -/
theorem word_or_short (z : Bytes) : z.length < 8 ∨ ∃ w y, z = le64 w ++ y := by
  by_cases h : z.length < 8
  · exact .inl h
  · have hl : (z.take 8).length = 8 := by simp; omega
    exact .inr ⟨ofLe64 (z.take 8), z.drop 8, by rw [le64_ofLe64 hl, List.take_append_drop]⟩

theorem stringFault_or (cap : UInt64) (z : Bytes) :
    StringFault cap z ∨ ∃ s, s.length ≤ cap.toNat ∧ encString s <+: z := by
  obtain hz | ⟨len, y, rfl⟩ := word_or_short z
  · exact .inl (.noLength hz)
  by_cases hc : cap < len
  · exact .inl (.long hc)
  by_cases hy : y.length < len.toNat + (padding len.toNat).length
  · exact .inl (.cut hy)
  -- the text and the padding are both there
  have hs : (y.take len.toNat).length = len.toNat := by
    rw [List.length_take]
    omega
  have hpad : ((y.drop len.toNat).take (padding len.toNat).length).length =
      (padding len.toNat).length := by
    rw [List.length_take, List.length_drop]
    omega
  have hsplit : y = y.take len.toNat ++ ((y.drop len.toNat).take (padding len.toNat).length ++
      (y.drop len.toNat).drop (padding len.toNat).length) := by
    rw [List.take_append_drop, List.take_append_drop]
  by_cases hp : (y.drop len.toNat).take (padding len.toNat).length = padding len.toNat
  · refine .inr ⟨y.take len.toNat, ?_, (y.drop len.toNat).drop (padding len.toNat).length, ?_⟩
    · rw [hs, ← UInt64.le_iff_toNat_le]
      exact UInt64.not_lt.mp hc
    · rw [hp] at hsplit
      conv_rhs => rw [hsplit]
      rw [encString, hs, UInt64.ofNat_toNat, List.append_assoc, List.append_assoc]
  · rw [hsplit]
    exact .inl (.stuffed hs hpad hp)

theorem stringFault_iff (cap : UInt64) (z : Bytes) :
    StringFault cap z ↔ ∀ s : Bytes, s.length ≤ cap.toNat → ¬ encString s <+: z := by
  constructor
  · intro h s hs
    exact h.not_prefix hs
  · intro h
    obtain hz | ⟨s, hs, hp⟩ := stringFault_or cap z
    · exact hz
    · exact absurd hp (h s hs)

/-- A stream starts with `n` strings, or with fewer and then with none. -/
theorem items_or_fault (cap : UInt64) (n : Nat) (z : Bytes) :
    (∃ ss : List Bytes, ss.length = n ∧ (∀ s ∈ ss, s.length ≤ cap.toNat) ∧
      ss.flatMap encString <+: z) ∨
    ∃ (ss : List Bytes) (y : Bytes), ss.length < n ∧ (∀ s ∈ ss, s.length ≤ cap.toNat) ∧
      z = ss.flatMap encString ++ y ∧ StringFault cap y := by
  induction n generalizing z with
  | zero => exact .inl ⟨[], by simp⟩
  | succ n ih =>
    obtain hz | ⟨s, hs, z', rfl⟩ := stringFault_or cap z
    · exact .inr ⟨[], z, by simp [hz]⟩
    · obtain ⟨ss, hl, hv, hp⟩ | ⟨ss, y, hl, hv, rfl, hy⟩ := ih z'
      · refine .inl ⟨s :: ss, by simp [hl], by simpa using ⟨hs, hv⟩, ?_⟩
        rw [List.flatMap_cons, List.prefix_append_right_inj]
        exact hp
      · exact .inr ⟨s :: ss, y, by simp [hl], by simpa using ⟨hs, hv⟩, by simp, hy⟩

/-- More strings than there are lead into what follows them. -/
theorem items_past {cap : UInt64} {ss rs : List Bytes} {y : Bytes}
    (hs : ∀ s ∈ ss, s.length ≤ cap.toNat) (hr : ∀ s ∈ rs, s.length ≤ cap.toNat)
    (hl : ss.length < rs.length) (h : rs.flatMap encString <+: ss.flatMap encString ++ y) :
    ∃ s : Bytes, s.length ≤ cap.toNat ∧ encString s <+: y := by
  induction ss generalizing rs with
  | nil =>
    cases rs with
    | nil => simp at hl
    | cons r rs =>
      rw [List.flatMap_cons] at h
      exact ⟨r, hr r (by simp), (List.prefix_append ..).trans h⟩
  | cons s ss ih =>
    cases rs with
    | nil => simp at hl
    | cons r rs =>
      rw [List.flatMap_cons, List.flatMap_cons, List.append_assoc] at h
      obtain ⟨z, hz⟩ := h
      rw [List.append_assoc] at hz
      obtain ⟨-, -, hz⟩ := (readString_decodes .guest cap).unambiguous
        ⟨hr r (by simp), rfl⟩ ⟨hs s (by simp), rfl⟩ hz
      exact ih (fun a ha => hs a (by simp [ha])) (fun a ha => hr a (by simp [ha]))
        (by simpa using hl) ⟨z, hz⟩

theorem listFault_iff (maxItems cap : UInt64) (z : Bytes) :
    ListFault maxItems cap z ↔ ∀ ss : List Bytes,
      (ss.length ≤ maxItems.toNat ∧ ∀ s ∈ ss, s.length ≤ cap.toNat) → ¬ encStringList ss <+: z := by
  constructor
  · intro h ss hss hp
    cases h with
    | noCount hl =>
      have := hp.length_le
      simp [encCounted] at this
      omega
    | many hc =>
      obtain ⟨hw, -⟩ := prefix_append_inj hp (by simp)
      obtain ⟨hn, hle⟩ := toNat_ofNat_le hss.1 (le64_injective hw)
      rw [UInt64.lt_iff_toNat_lt] at hc
      rw [UInt64.le_iff_toNat_le] at hle
      omega
    | item hl hv hy =>
      obtain ⟨hw, hp⟩ := prefix_append_inj hp (by simp)
      obtain ⟨hn, -⟩ := toNat_ofNat_le hss.1 (le64_injective hw)
      obtain ⟨s, hs, hp⟩ := items_past hv hss.2 (hn ▸ hl) hp
      exact hy.not_prefix hs hp
  · intro h
    obtain hz | ⟨count, y, rfl⟩ := word_or_short z
    · exact .noCount hz
    by_cases hc : maxItems < count
    · exact .many hc
    obtain ⟨ss, hl, hv, hp⟩ | ⟨ss, y, hl, hv, rfl, hy⟩ := items_or_fault cap count.toNat y
    · refine absurd ?_ (h ss ⟨?_, hv⟩)
      · rw [encStringList, encCounted, hl, UInt64.ofNat_toNat, List.prefix_append_right_inj]
        exact hp
      · rw [hl, ← UInt64.le_iff_toNat_le]
        exact UInt64.not_lt.mp hc
    · exact .item hl hv hy

/-! ### The codec -/

/-- Reading a value and writing it again is copying it. -/
theorem readWrite_copies {α : Type} {r w : Leg} {read : Async α} {write : α → Async Unit}
    {valid : α → Prop} {enc : α → Bytes} (hr : Decodes r read (Format.canonical valid enc))
    (hw : ∀ a, Emits w (write a) () (enc a)) :
    Copies r w (read >>= write) (Format.canonical valid enc).erase := by
  have h := (Copies.relay hr hw (fun _ => .pure ())).congr (bind_unit_format _)
  have he : (fun a => write a >>= fun _ => pure ()) = write := by
    funext a
    exact bind_pure_unit
  rwa [he] at h

theorem encString_aligned (s : Bytes) : (encString s).length % 8 = 0 := by
  have h := (padding_length s.length).1
  simp [encString]
  omega

theorem encStringList_aligned (ss : List Bytes) : (encStringList ss).length % 8 = 0 := by
  rw [encStringList, encCounted, List.length_append, le64_length]
  induction ss with
  | nil => simp
  | cons s ss ih =>
    have h := encString_aligned s
    rw [List.flatMap_cons, List.length_append]
    omega

/-- Strings and lists of strings have one spelling each, within the caps; readers take the
spellings and nothing else, copiers read and write at once, and no length leaves the range. -/
theorem codec_canonical (r w : Leg) (maxItems cap : UInt64) :
    Codec r w (readString r cap) (writeString w) (fun s => s.length ≤ cap.toNat) ∧
    Codec r w (readStringList r maxItems cap) (writeStringList w)
      (fun ss => ss.length ≤ maxItems.toNat ∧ ∀ s ∈ ss, s.length ≤ cap.toNat) ∧
    (∀ z e, (∃ s, ((readString r cap).exec World.step (feeding r z e)).value = .error s) ↔
      StringFault cap z) ∧
    (∀ z e, (∃ s, ((readStringList r maxItems cap).exec World.step (feeding r z e)).value =
      .error s) ↔ ListFault maxItems cap z) ∧
    Agree r w (copyString r w cap) (readString r cap >>= writeString w) ∧
    Agree r w (copyStringList r w cap) (readStringList r maxCount cap >>= writeStringList w) ∧
    (∀ s : Bytes, s.length ≤ cap.toNat → (UInt64.ofNat s.length).toNat = s.length) ∧
    (∀ s, (output w (writeString w s)).length % 8 = 0) ∧
    (∀ ss, (output w (writeStringList w ss)).length % 8 = 0) ∧
    ∀ len, PaddingInRange len := by
  have hs := readString_decodes r cap
  have hl := readStringList_decodes r maxItems cap
  refine ⟨hs.codec (writeString_emits w), hl.codec (writeStringList_emits w), ?_, ?_,
    (copyString_copies r w cap).agree (readWrite_copies hs (writeString_emits w)),
    (copyStringList_copies r w cap).agree
      (readWrite_copies (readStringList_decodes r maxCount cap) (writeStringList_emits w)),
    fun s h => (le64_ofNat_le h).1, ?_, ?_, paddingInRange⟩
  · intro z e
    rw [(hs.codec (writeString_emits w)).refuses, stringFault_iff]
    simp only [(writeString_emits w _).output_eq]
  · intro z e
    rw [(hl.codec (writeStringList_emits w)).refuses, listFault_iff]
    simp only [(writeStringList_emits w _).output_eq]
  · intro s
    rw [(writeString_emits w s).output_eq, encString_aligned]
  · intro ss
    rw [(writeStringList_emits w ss).output_eq, encStringList_aligned]

end Claudepod
