import Claudepod.ByteStream
import Mathlib.Algebra.Group.Nat.Defs
import Mathlib.Tactic.Common
import Mathlib.Data.List.Infix

/-! Formats and the programs that read, write and copy them. A format relates values
to byte strings and is written with the same `bind` as the program that parses it, so
each fact about a parser is one application of a rule below.

`Decodes` ties a reader to its format in both directions, `Emits` says a writer puts out
one fixed byte string or a prefix of it, `Copies` is a reader that puts out what it reads. -/

set_option autoImplicit false

namespace Interaction

/-! ### Little-endian words -/

/-- The low `k` base-256 digits, least significant first. -/
def leBytes : Nat → Nat → Bytes
  | 0, _ => []
  | k+1, n => UInt8.ofNat (n % 256) :: leBytes k (n / 256)

def leValue : Bytes → Nat
  | [] => 0
  | b :: bs => b.toNat + 256 * leValue bs

@[simp] theorem leBytes_length (k n : Nat) : (leBytes k n).length = k := by
  induction k generalizing n with
  | zero => rfl
  | succ k ih => simp [leBytes, ih]

theorem leValue_leBytes (k n : Nat) (h : n < 256 ^ k) : leValue (leBytes k n) = n := by
  induction k generalizing n with
  | zero => simp at h; simp [leBytes, leValue, h]
  | succ k ih =>
    have hd : n / 256 < 256 ^ k := by rw [Nat.pow_succ] at h; omega
    have hm : n % 256 < 256 := Nat.mod_lt _ (by decide)
    simp only [leBytes, leValue, ih _ hd, UInt8.toNat_ofNat', Nat.reducePow]
    omega

theorem leBytes_leValue (bs : Bytes) : leBytes bs.length (leValue bs) = bs := by
  induction bs with
  | nil => rfl
  | cons b bs ih =>
    have hb : b.toNat < 256 := b.toNat_lt
    have hm : (b.toNat + 256 * leValue bs) % 256 = b.toNat := by omega
    have hd : (b.toNat + 256 * leValue bs) / 256 = leValue bs := by omega
    simp only [List.length_cons, leValue, leBytes, hm, hd, ih, UInt8.ofNat_toNat]

theorem leValue_lt (bs : Bytes) : leValue bs < 256 ^ bs.length := by
  induction bs with
  | nil => simp [leValue]
  | cons b bs ih =>
    have hb : b.toNat < 256 := b.toNat_lt
    simp only [leValue, List.length_cons, Nat.pow_succ]
    omega

/-- `u64::to_le_bytes`. -/
def le64 (v : UInt64) : Bytes := leBytes 8 v.toNat

/-- `u64::from_le_bytes`. -/
def ofLe64 (bs : Bytes) : UInt64 := UInt64.ofNat (leValue bs)

@[simp] theorem le64_length (v : UInt64) : (le64 v).length = 8 := leBytes_length ..

theorem le64_pos (v : UInt64) : 0 < (le64 v).length := by simp

@[simp] theorem ofLe64_le64 (v : UInt64) : ofLe64 (le64 v) = v := by
  rw [ofLe64, le64, leValue_leBytes 8 v.toNat v.toNat_lt, UInt64.ofNat_toNat]

theorem le64_ofLe64 {bs : Bytes} (h : bs.length = 8) : le64 (ofLe64 bs) = bs := by
  have hv := leValue_lt bs
  rw [h] at hv
  rw [le64, ofLe64, UInt64.toNat_ofNat', Nat.mod_eq_of_lt (by simpa using hv), ← h]
  exact leBytes_leValue bs

theorem le64_injective {v w : UInt64} (h : le64 v = le64 w) : v = w := by
  rw [← ofLe64_le64 v, h, ofLe64_le64]

/-! ### Formats -/

/-- Which byte strings spell which value. -/
abbrev Format (α : Type) := α → Bytes → Prop

namespace Format

variable {α β : Type}

protected def pure (a : α) : Format α := fun b x => b = a ∧ x = []

/-- The spelling of an `α` followed by that of a `β` that may depend on it. -/
protected def bind (F : Format α) (G : α → Format β) : Format β :=
  fun b z => ∃ a x y, F a x ∧ G a b y ∧ z = x ++ y

def guard (P : Prop) (F : Format α) : Format α := fun a x => P ∧ F a x

/-- `n` values one after the other. -/
def many (F : Format α) : Nat → Format (List α)
  | 0 => Format.pure []
  | n+1 => F.bind (fun a => (many F n).bind (fun as => Format.pure (a :: as)))

/-- `n` repetitions whose values are dropped. -/
def times (F : Format Unit) : Nat → Format Unit
  | 0 => Format.pure ()
  | n+1 => F.bind (fun _ => times F n)

theorem times_inhabited {F : Format Unit} (h : ∃ x, F () x) (n : Nat) :
    ∃ u x, F.times n u x := by
  induction n with
  | zero => exact ⟨(), [], rfl, rfl⟩
  | succ n ih =>
    obtain ⟨x, hx⟩ := h
    obtain ⟨u, y, hy⟩ := ih
    exact ⟨u, x ++ y, (), x, y, hx, hy, rfl⟩

/-- The format that spells each valid value in exactly one way. -/
def canonical (valid : α → Prop) (enc : α → Bytes) : Format α := fun a x => valid a ∧ x = enc a

theorem many_canonical (valid : α → Prop) (enc : α → Bytes) (n : Nat) (as : List α) (x : Bytes) :
    many (canonical valid enc) n as x ↔
      as.length = n ∧ (∀ a ∈ as, valid a) ∧ x = as.flatMap enc := by
  induction n generalizing as x with
  | zero =>
    constructor
    · rintro ⟨rfl, rfl⟩
      exact ⟨rfl, by simp, rfl⟩
    · rintro ⟨h, -, rfl⟩
      obtain rfl := List.length_eq_zero_iff.mp h
      exact ⟨rfl, rfl⟩
  | succ n ih =>
    constructor
    · rintro ⟨a, x, y, ⟨hv, rfl⟩, ⟨as', x', y', h, ⟨rfl, rfl⟩, rfl⟩, rfl⟩
      obtain ⟨hl, hvs, rfl⟩ := (ih as' x').mp h
      exact ⟨by simp [hl], by simpa using ⟨hv, hvs⟩, by simp⟩
    · rintro ⟨hl, hvs, rfl⟩
      cases as with
      | nil => simp at hl
      | cons a as =>
        simp only [List.mem_cons, forall_eq_or_imp] at hvs
        exact ⟨a, enc a, as.flatMap enc, ⟨hvs.1, rfl⟩, ⟨as, as.flatMap enc, [],
          (ih as _).mpr ⟨by simpa using hl, hvs.2, rfl⟩, ⟨rfl, rfl⟩, by simp⟩, by simp⟩

/-- The spellings alone. -/
def erase (F : Format α) : Format Unit := fun _ x => ∃ a, F a x

theorem bind_canonical {valid : α → Prop} {enc : α → Bytes} {G : α → Format β} {b : β}
    {z : Bytes} :
    (canonical valid enc).bind G b z ↔ ∃ a y, valid a ∧ G a b y ∧ z = enc a ++ y := by
  constructor
  · rintro ⟨a, x, y, ⟨hv, rfl⟩, hy, rfl⟩
    exact ⟨a, y, hv, hy, rfl⟩
  · rintro ⟨a, y, hv, hy, rfl⟩
    exact ⟨a, enc a, y, ⟨hv, rfl⟩, hy, rfl⟩

theorem times_erase (F : Format α) (n : Nat) (u : Unit) (x : Bytes) :
    F.erase.times n u x ↔ ∃ as, F.many n as x := by
  induction n generalizing u x with
  | zero =>
    constructor
    · rintro ⟨-, rfl⟩
      exact ⟨[], rfl, rfl⟩
    · rintro ⟨as, -, rfl⟩
      exact ⟨rfl, rfl⟩
  | succ n ih =>
    constructor
    · rintro ⟨v, x, y, ⟨a, ha⟩, hy, rfl⟩
      obtain ⟨as, has⟩ := (ih v y).mp hy
      exact ⟨a :: as, a, x, y, ha, ⟨as, y, [], has, ⟨rfl, rfl⟩, by simp⟩, rfl⟩
    · rintro ⟨as', a, x, y, ha, ⟨as, y', z, has, ⟨-, rfl⟩, rfl⟩, rfl⟩
      exact ⟨(), x, y' ++ [], ⟨a, ha⟩, (ih () _).mpr ⟨as, by rw [List.append_nil]; exact has⟩, rfl⟩

end Format

/-- Prefixes of equal length are equal. -/
theorem prefix_append_inj {a b x y : Bytes} (h : a ++ x <+: b ++ y) (hl : a.length = b.length) :
    a = b ∧ x <+: y := by
  obtain ⟨z, hz⟩ := h
  rw [List.append_assoc] at hz
  obtain ⟨rfl, rfl⟩ := List.append_inj hz hl
  exact ⟨rfl, List.prefix_append ..⟩

/-! ### Programs over byte streams -/

variable {ι ε δ ς α β : Type}

/-- A program over the connections `ι` that stops with a `ς`. -/
abbrev Proc (ι ε δ ς α : Type) := Comp (Resp ι ε δ) ς α

namespace Proc

/-- Go on only if `P`. -/
def require (P : Prop) [Decidable P] (s : ς) : Proc ι ε δ ς Unit := if P then pure () else throw s

theorem runs_require {P : Prop} [Decidable P] {s : ς} {t : Trace ι ε δ} {r : Except ς Unit} :
    Comp.Runs (require P s : Proc ι ε δ ς Unit) t r ↔
      t = [] ∧ (P ∧ r = .ok () ∨ ¬ P ∧ r = .error s) := by
  unfold require
  split <;> simp_all

def readMany (p : Proc ι ε δ ς α) : Nat → Proc ι ε δ ς (List α)
  | 0 => pure []
  | n+1 => do
    let a ← p
    let as ← readMany p n
    pure (a :: as)

def times (p : Proc ι ε δ ς Unit) : Nat → Proc ι ε δ ς Unit
  | 0 => pure ()
  | n+1 => do
    p
    times p n

def forEach (w : α → Proc ι ε δ ς Unit) : List α → Proc ι ε δ ς Unit
  | [] => pure ()
  | a :: as => do
    w a
    forEach w as

/-! Loops stop only for the reasons of their bodies. -/

variable {S : ς → Prop}

theorem stopsIn_require {P : Prop} [Decidable P] {s : ς} (h : S s) :
    Comp.StopsIn S (require P s : Proc ι ε δ ς Unit) := by
  unfold require
  split
  · exact .pure ()
  · exact .throw h

theorem stopsIn_readMany {p : Proc ι ε δ ς α} (h : Comp.StopsIn S p) (n : Nat) :
    Comp.StopsIn S (readMany p n) := by
  induction n with
  | zero => exact .pure []
  | succ n ih => exact h.bind fun a => ih.bind fun as => .pure (a :: as)

theorem stopsIn_times {p : Proc ι ε δ ς Unit} (h : Comp.StopsIn S p) (n : Nat) :
    Comp.StopsIn S (times p n) := by
  induction n with
  | zero => exact .pure ()
  | succ n ih => exact h.bind fun _ => ih

theorem stopsIn_forEach {w : α → Proc ι ε δ ς Unit} (h : ∀ a, Comp.StopsIn S (w a))
    (as : List α) : Comp.StopsIn S (forEach w as) := by
  induction as with
  | nil => exact .pure ()
  | cons a as ih => exact (h a).bind fun _ => ih

variable {K : Event (Resp ι ε δ) → Prop}

theorem haltsAt_require {P : Prop} [Decidable P] {s : ς} :
    Comp.HaltsAt K (require P s : Proc ι ε δ ς Unit) := .ite (.pure ()) (.throw s)

theorem haltsAt_times {p : Proc ι ε δ ς Unit} (h : Comp.HaltsAt K p) (n : Nat) :
    Comp.HaltsAt K (times p n) := by
  induction n with
  | zero => exact .pure ()
  | succ n ih => exact h.bind fun _ => ih

end Proc

variable [DecidableEq ι]

open Interaction.Comp Interaction.Proc

/-! ### Readers -/

/-- `p` reads from `c` and nothing else; it succeeds on exactly the spellings of `F`. -/
structure Decodes (c : ι) (p : Proc ι ε δ ς α) (F : Format α) : Prop where
  only : ∀ {t r}, p.Runs t r → Only (reads c) t
  sound : ∀ {t a}, p.Runs t (.ok a) → F a (recvd c t)
  complete : ∀ {a x}, F a x → ∃ t, p.Runs t (.ok a) ∧ Only clean t ∧ recvd c t = x

namespace Decodes

variable {c : ι} {p : Proc ι ε δ ς α} {f : α → Proc ι ε δ ς β} {F F' : Format α}
  {G : α → Format β}

theorem congr (h : Decodes c p F) (hF : ∀ a x, F a x ↔ F' a x) : Decodes c p F' where
  only := h.only
  sound hr := (hF _ _).mp (h.sound hr)
  complete hx := h.complete ((hF _ _).mpr hx)

theorem pure (a : α) : Decodes c (Pure.pure a : Proc ι ε δ ς α) (Format.pure a) where
  only := by rintro t r ⟨rfl, -⟩; simp
  sound := by rintro t b ⟨rfl, hb⟩; exact ⟨Except.ok.inj hb, rfl⟩
  complete := by rintro b x ⟨rfl, rfl⟩; exact ⟨[], ⟨rfl, rfl⟩, by simp, rfl⟩

theorem bind (hp : Decodes c p F) (hf : ∀ a, Decodes c (f a) (G a)) :
    Decodes c (p >>= f) (F.bind G) where
  only hr := by
    rcases (runs_bind _).mp hr with ⟨a, t₁, t₂, rfl, h₁, h₂⟩ | ⟨e, rfl, h⟩
    · exact only_append.mpr ⟨hp.only h₁, (hf a).only h₂⟩
    · exact hp.only h
  sound hr := by
    obtain ⟨a, t₁, t₂, rfl, h₁, h₂⟩ := (runs_bind_ok _).mp hr
    exact ⟨a, _, _, hp.sound h₁, (hf a).sound h₂, recvd_append ..⟩
  complete := by
    rintro b z ⟨a, x, y, hx, hy, rfl⟩
    obtain ⟨t₁, h₁, hc₁, rfl⟩ := hp.complete hx
    obtain ⟨t₂, h₂, hc₂, rfl⟩ := (hf a).complete hy
    exact ⟨t₁ ++ t₂, h₁.bind h₂, only_append.mpr ⟨hc₁, hc₂⟩, recvd_append ..⟩

theorem require {P : Prop} [Decidable P] {s : ς} (h : Decodes c p F) :
    Decodes c (Proc.require P s >>= fun _ => p) (F.guard P) where
  only hr := by
    rcases (runs_bind _).mp hr with ⟨a, t₁, t₂, rfl, h₁, h₂⟩ | ⟨e, rfl, h'⟩
    · obtain ⟨rfl, -⟩ := runs_require.mp h₁
      exact h.only h₂
    · obtain ⟨rfl, -⟩ := runs_require.mp h'
      simp
  sound hr := by
    obtain ⟨a, t₁, t₂, rfl, h₁, h₂⟩ := (runs_bind_ok _).mp hr
    obtain ⟨rfl, ⟨hP, -⟩ | ⟨-, h'⟩⟩ := runs_require.mp h₁
    · exact ⟨hP, h.sound h₂⟩
    · cases h'
  complete := by
    rintro a x ⟨hP, hx⟩
    obtain ⟨t, ht, hc, rfl⟩ := h.complete hx
    exact ⟨[] ++ t, (runs_require.mpr ⟨rfl, .inl ⟨hP, rfl⟩⟩ : Comp.Runs _ [] _).bind ht, hc, rfl⟩

theorem throw (s : ς) : Decodes c (throw s : Proc ι ε δ ς α) (fun _ _ => False) where
  only := by rintro t r ⟨rfl, -⟩; simp
  sound := by rintro t b ⟨-, h⟩; cases h
  complete h := h.elim

theorem ite {P : Prop} [Decidable P] {q : Proc ι ε δ ς α} (hp : Decodes c p F)
    (hq : Decodes c q F') :
    Decodes c (if P then p else q) (fun a x => if P then F a x else F' a x) := by
  split
  · exact hp
  · exact hq

theorem mapStop {ζ : Type} (g : ς → ζ) (h : Decodes c p F) : Decodes c (p.mapStop g) F where
  only hr := by
    obtain ⟨r', hr', -⟩ := (runs_mapStop _ _).mp hr
    exact h.only hr'
  sound hr := h.sound ((runs_mapStop_ok _ _).mp hr)
  complete hx := by
    obtain ⟨t, ht, hc, hx⟩ := h.complete hx
    exact ⟨t, (runs_mapStop_ok _ _).mpr ht, hc, hx⟩

theorem readMany (h : Decodes c p F) (n : Nat) : Decodes c (Proc.readMany p n) (F.many n) := by
  induction n with
  | zero => exact .pure []
  | succ n ih => exact h.bind fun a => ih.bind fun as => .pure (a :: as)

end Decodes

theorem Decodes.acts {c : ι} {p : Proc ι ε δ ς α} {F : Format α} (h : Decodes c p F) :
    ActsIn (reads c) p := fun _ _ => h.only

theorem Decodes.sent_nil {c d : ι} {p : Proc ι ε δ ς α} {F : Format α} {t : Trace ι ε δ}
    {r : Except ς α} (h : Decodes c p F) (hr : p.Runs t r) : sent d t = [] :=
  sent_of_reads ((h.only hr).mono fun _ => readsFrom_of_reads)

/-- A world that sends `x` on `c` and takes whatever is written. -/
def streaming (c : ι) (x : Bytes) : World ι ε δ :=
  ⟨Function.update (fun _ => Peer.script []) c (Peer.script x), [], []⟩

theorem follows_streaming {c : ι} {t : Trace ι ε δ} {x : Bytes} (hc : Only clean t)
    (ho : ∀ d, d ≠ c → recvd d t = []) (ha : answered t = []) :
    Follows World.step (streaming c (recvd c t ++ x)) t
      ((streaming c (recvd c t ++ x)).left (Function.update (fun _ => []) c x) []) := by
  refine follows_of_clean hc (fun d => ?_) (fun d => ?_) (by simp [streaming, ha])
  · by_cases hd : d = c
    · subst hd; simp [streaming, Peer.script]
    · simp [streaming, hd, ho d hd, Peer.script]
  · by_cases hd : d = c
    · subst hd; simp [streaming, Peer.script]
    · simp [streaming, hd, Peer.script]

theorem Decodes.follows_streaming {c : ι} {p : Proc ι ε δ ς α} {F : Format α}
    {t : Trace ι ε δ} {r : Except ς α} (h : Decodes c p F) (ht : p.Runs t r)
    (hc : Only clean t) (x : Bytes) :
    Follows World.step (streaming c (recvd c t ++ x)) t
      ((streaming c (recvd c t ++ x)).left (Function.update (fun _ => []) c x) []) := by
  refine Interaction.follows_streaming hc (fun d hd => ?_) ?_
  · refine recvd_eq_nil (h.only ht) fun e he => ?_
    obtain ⟨o, r⟩ := e
    cases o <;> simp_all [reads, readsFrom]
    all_goals exact fun hn => hd hn.symm
  · refine answered_eq_nil ((h.only ht).mono fun e he => ?_)
    obtain ⟨o, r⟩ := e
    cases o <;> simp_all [reads, onWire]

/-- A format that some program can decode is prefix-free, and its values are unique: the
program is deterministic and stops reading where a spelling ends. -/
theorem Decodes.unambiguous {c : ι} {p : Proc ι ε δ ς α} {F : Format α} (h : Decodes c p F)
    {a b : α} {x y u v : Bytes} (hx : F a x) (hy : F b y) (he : x ++ u = y ++ v) :
    a = b ∧ x = y ∧ u = v := by
  obtain ⟨t, ht, hc, rfl⟩ := h.complete hx
  obtain ⟨t', ht', hc', rfl⟩ := h.complete hy
  have e := exec_eq ht (h.follows_streaming ht hc u)
  have e' := exec_eq ht' (h.follows_streaming ht' hc' v)
  rw [he, e'] at e
  simp only [Outcome.mk.injEq, Except.ok.injEq] at e
  obtain ⟨rfl, rfl, -⟩ := e
  exact ⟨rfl, rfl, List.append_cancel_left he⟩

/-! ### Writers -/

/-- `p` writes `x` to `d`, flushes at most that, and returns `a`; it stops only where the
connection fails, and has then written a prefix. -/
structure Emits (d : ι) (p : Proc ι ε δ ς α) (a : α) (x : Bytes) : Prop where
  only : ∀ {t r}, p.Runs t r → Only (puts d) t
  sound : ∀ {t b}, p.Runs t (.ok b) → b = a ∧ sent d t = x
  stopped : ∀ {t s}, p.Runs t (.error s) → sent d t <+: x ∧ ¬ Only clean t
  complete : ∃ t, p.Runs t (.ok a) ∧ Only clean t

namespace Emits

variable {d : ι} {p : Proc ι ε δ ς α} {q : α → Proc ι ε δ ς β} {a : α} {b : β} {x y : Bytes}

theorem pure (a : α) : Emits d (Pure.pure a : Proc ι ε δ ς α) a [] where
  only := by rintro t r ⟨rfl, -⟩; simp
  sound := by rintro t b ⟨rfl, hb⟩; exact ⟨Except.ok.inj hb, rfl⟩
  stopped := by rintro t s ⟨-, h⟩; cases h
  complete := ⟨[], ⟨rfl, rfl⟩, by simp⟩

theorem bind (hp : Emits d p a x) (hq : Emits d (q a) b y) : Emits d (p >>= q) b (x ++ y) where
  only hr := by
    rcases (runs_bind _).mp hr with ⟨a', t₁, t₂, rfl, h₁, h₂⟩ | ⟨e, rfl, h⟩
    · obtain ⟨rfl, -⟩ := hp.sound h₁
      exact only_append.mpr ⟨hp.only h₁, hq.only h₂⟩
    · exact hp.only h
  sound hr := by
    obtain ⟨a', t₁, t₂, rfl, h₁, h₂⟩ := (runs_bind_ok _).mp hr
    obtain ⟨rfl, hx⟩ := hp.sound h₁
    obtain ⟨rfl, hy⟩ := hq.sound h₂
    exact ⟨rfl, by rw [sent_append, hx, hy]⟩
  stopped hr := by
    rcases (runs_bind _).mp hr with ⟨a', t₁, t₂, rfl, h₁, h₂⟩ | ⟨e, -, h⟩
    · obtain ⟨rfl, hx⟩ := hp.sound h₁
      obtain ⟨hs, hn⟩ := hq.stopped h₂
      rw [sent_append, hx, only_append]
      exact ⟨(List.prefix_append_right_inj _).mpr hs, fun h => hn h.2⟩
    · obtain ⟨hs, hn⟩ := hp.stopped h
      exact ⟨hs.trans (List.prefix_append ..), hn⟩
  complete := by
    obtain ⟨t₁, h₁, hc₁⟩ := hp.complete
    obtain ⟨t₂, h₂, hc₂⟩ := hq.complete
    exact ⟨t₁ ++ t₂, h₁.bind h₂, only_append.mpr ⟨hc₁, hc₂⟩⟩

theorem andThen {p : Proc ι ε δ ς Unit} {q : Proc ι ε δ ς β} (hp : Emits d p () x)
    (hq : Emits d q b y) : Emits d (p >>= fun _ => q) b (x ++ y) := hp.bind hq

theorem of_eq (h : Emits d p a x) (hx : x = y) : Emits d p a y := hx ▸ h

theorem forEach {w : α → Proc ι ε δ ς Unit} {enc : α → Bytes}
    (h : ∀ a, Emits d (w a) () (enc a)) (as : List α) :
    Emits d (Proc.forEach w as) () (as.flatMap enc) := by
  induction as with
  | nil => exact .pure ()
  | cons a as ih => exact (h a).bind ih

theorem acts (h : Emits d p a x) : ActsIn (puts d) p := fun _ _ => h.only

theorem sent_part (h : Emits d p a x) {t : Trace ι ε δ} {r : Except ς α} (hr : p.Runs t r) :
    sent d t <+: x := by
  cases r with
  | ok b => exact (h.sound hr).2 ▸ List.prefix_rfl
  | error s => exact (h.stopped hr).1

end Emits

/-! ### Copiers -/

/-- `p` reads a spelling of `F` from `c` and writes what it reads to `d`. However it
ends, it has written only a prefix of what it read. -/
structure Copies (c d : ι) (p : Proc ι ε δ ς α) (F : Format α) : Prop where
  only : ∀ {t r}, p.Runs t r → Only (fun e => reads c e ∨ puts d e) t
  sound : ∀ {t a}, p.Runs t (.ok a) → F a (recvd c t) ∧ sent d t = recvd c t
  stopped : ∀ {t s}, p.Runs t (.error s) → sent d t <+: recvd c t
  complete : ∀ {a x}, F a x → ∃ t, p.Runs t (.ok a) ∧ Only clean t ∧ recvd c t = x

namespace Copies

variable {c d : ι} {p : Proc ι ε δ ς α} {f : α → Proc ι ε δ ς β} {F F' : Format α}
  {G : α → Format β}

theorem acts (h : Copies c d p F) : ActsIn (fun e => reads c e ∨ puts d e) p := fun _ _ => h.only

theorem congr (h : Copies c d p F) (hF : ∀ a x, F a x ↔ F' a x) : Copies c d p F' where
  only := h.only
  sound hr := ⟨(hF _ _).mp (h.sound hr).1, (h.sound hr).2⟩
  stopped := h.stopped
  complete hx := h.complete ((hF _ _).mpr hx)

theorem pure (a : α) : Copies c d (Pure.pure a : Proc ι ε δ ς α) (Format.pure a) where
  only := by rintro t r ⟨rfl, -⟩; simp
  sound := by rintro t b ⟨rfl, hb⟩; exact ⟨⟨Except.ok.inj hb, rfl⟩, rfl⟩
  stopped := by rintro t s ⟨-, h⟩; cases h
  complete := by rintro b x ⟨rfl, rfl⟩; exact ⟨[], ⟨rfl, rfl⟩, by simp, rfl⟩

theorem bind (hp : Copies c d p F) (hf : ∀ a, Copies c d (f a) (G a)) :
    Copies c d (p >>= f) (F.bind G) where
  only hr := by
    rcases (runs_bind _).mp hr with ⟨a, t₁, t₂, rfl, h₁, h₂⟩ | ⟨e, rfl, h⟩
    · exact only_append.mpr ⟨hp.only h₁, (hf a).only h₂⟩
    · exact hp.only h
  sound hr := by
    obtain ⟨a, t₁, t₂, rfl, h₁, h₂⟩ := (runs_bind_ok _).mp hr
    obtain ⟨hx, hs⟩ := hp.sound h₁
    obtain ⟨hy, hs'⟩ := (hf a).sound h₂
    exact ⟨⟨a, _, _, hx, hy, recvd_append ..⟩, by rw [sent_append, recvd_append, hs, hs']⟩
  stopped hr := by
    rcases (runs_bind _).mp hr with ⟨a, t₁, t₂, rfl, h₁, h₂⟩ | ⟨e, -, h⟩
    · rw [sent_append, recvd_append, (hp.sound h₁).2]
      exact (List.prefix_append_right_inj _).mpr ((hf a).stopped h₂)
    · exact hp.stopped h
  complete := by
    rintro b z ⟨a, x, y, hx, hy, rfl⟩
    obtain ⟨t₁, h₁, hc₁, rfl⟩ := hp.complete hx
    obtain ⟨t₂, h₂, hc₂, rfl⟩ := (hf a).complete hy
    exact ⟨t₁ ++ t₂, h₁.bind h₂, only_append.mpr ⟨hc₁, hc₂⟩, recvd_append ..⟩

theorem require {P : Prop} [Decidable P] {s : ς} (h : Copies c d p F) :
    Copies c d (Proc.require P s >>= fun _ => p) (F.guard P) where
  only hr := by
    rcases (runs_bind _).mp hr with ⟨a, t₁, t₂, rfl, h₁, h₂⟩ | ⟨e, rfl, h'⟩
    · obtain ⟨rfl, -⟩ := runs_require.mp h₁
      exact h.only h₂
    · obtain ⟨rfl, -⟩ := runs_require.mp h'
      simp
  sound hr := by
    obtain ⟨a, t₁, t₂, rfl, h₁, h₂⟩ := (runs_bind_ok _).mp hr
    obtain ⟨rfl, ⟨hP, -⟩ | ⟨-, h'⟩⟩ := runs_require.mp h₁
    · exact ⟨⟨hP, (h.sound h₂).1⟩, (h.sound h₂).2⟩
    · cases h'
  stopped hr := by
    rcases (runs_bind _).mp hr with ⟨a, t₁, t₂, rfl, h₁, h₂⟩ | ⟨e, -, h'⟩
    · obtain ⟨rfl, -⟩ := runs_require.mp h₁
      exact h.stopped h₂
    · obtain ⟨rfl, -⟩ := runs_require.mp h'
      simp
  complete := by
    rintro a x ⟨hP, hx⟩
    obtain ⟨t, ht, hc, rfl⟩ := h.complete hx
    exact ⟨[] ++ t, (runs_require.mpr ⟨rfl, .inl ⟨hP, rfl⟩⟩ : Comp.Runs _ [] _).bind ht, hc, rfl⟩

theorem ite {P : Prop} [Decidable P] {q : Proc ι ε δ ς α} (hp : Copies c d p F)
    (hq : Copies c d q F') : Copies c d (if P then p else q) (if P then F else F') := by
  split
  · exact hp
  · exact hq

theorem mapStop {ζ : Type} (g : ς → ζ) (h : Copies c d p F) : Copies c d (p.mapStop g) F where
  only hr := by
    obtain ⟨r', hr', -⟩ := (runs_mapStop _ _).mp hr
    exact h.only hr'
  sound hr := h.sound ((runs_mapStop_ok _ _).mp hr)
  stopped hr := by
    obtain ⟨e, he, -⟩ := (runs_mapStop_error _ _).mp hr
    exact h.stopped he
  complete hx := by
    obtain ⟨t, ht, hc, hx⟩ := h.complete hx
    exact ⟨t, (runs_mapStop_ok _ _).mpr ht, hc, hx⟩

/-- Reading one spelling, writing it, and then going on copying. -/
theorem relay {w : α → Proc ι ε δ ς Unit} {V : α → Prop} {enc : α → Bytes}
    (hp : Decodes c p (Format.canonical V enc)) (hw : ∀ a, Emits d (w a) () (enc a))
    (hf : ∀ a, Copies c d (f a) (G a)) :
    Copies c d (p >>= fun a => w a >>= fun _ => f a) ((Format.canonical V enc).bind G) := by
  have hpw : Copies c d (p >>= fun a => w a >>= fun _ => Pure.pure a) (Format.canonical V enc) :=
    { only := fun hr => by
        rcases (runs_bind _).mp hr with ⟨a, t₁, t₂, rfl, h₁, h₂⟩ | ⟨e, rfl, h⟩
        · refine only_append.mpr ⟨(hp.only h₁).mono fun _ => .inl, ?_⟩
          rcases (runs_bind _).mp h₂ with ⟨u, t₃, t₄, rfl, h₃, rfl, -⟩ | ⟨e, -, h⟩
          · simpa using ((hw a).only h₃).mono fun _ => .inr
          · exact ((hw a).only h).mono fun _ => .inr
        · exact (hp.only h).mono fun _ => .inl
      sound := fun hr => by
        obtain ⟨a, t₁, t₂, rfl, h₁, h₂⟩ := (runs_bind_ok _).mp hr
        obtain ⟨⟨⟩, t₃, t₄, rfl, h₃, rfl, hb⟩ := (runs_bind_ok _).mp h₂
        obtain ⟨hV, he⟩ := hp.sound h₁
        obtain rfl := Except.ok.inj hb
        simp only [recvd_append, sent_append, recvd_of_puts ((hw _).only h₃),
          hp.sent_nil h₁, List.append_nil, List.nil_append, ((hw _).sound h₃).2]
        exact ⟨⟨hV, he⟩, he.symm⟩
      stopped := fun hr => by
        rcases (runs_bind _).mp hr with ⟨a, t₁, t₂, rfl, h₁, h₂⟩ | ⟨e, -, h⟩
        · rcases (runs_bind _).mp h₂ with ⟨u, t₃, t₄, rfl, h₃, rfl, h'⟩ | ⟨e, -, h⟩
          · cases h'
          · rw [sent_append, hp.sent_nil h₁, recvd_append, (hp.sound h₁).2]
            exact ((hw a).stopped h).1.trans (List.prefix_append ..)
        · rw [hp.sent_nil h]
          exact List.nil_prefix
      complete := by
        rintro a x hx
        obtain ⟨t, ht, hc, hx⟩ := hp.complete hx
        obtain ⟨u, hu, hc'⟩ := (hw a).complete
        refine ⟨t ++ (u ++ []), ht.bind (hu.bind ⟨rfl, rfl⟩), by simp [hc, hc'], ?_⟩
        simp [recvd_of_puts ((hw a).only hu), hx] }
  simpa only [bind_assoc, pure_bind] using hpw.bind hf

theorem times {p : Proc ι ε δ ς Unit} {F : Format Unit} (h : Copies c d p F) (n : Nat) :
    Copies c d (Proc.times p n) (F.times n) := by
  induction n with
  | zero => exact .pure ()
  | succ n ih => exact h.bind fun _ => ih

/-- What can be copied is prefix-free too. -/
theorem unambiguous (h : Copies c d p F) {a b : α} {x y u v : Bytes} (hx : F a x) (hy : F b y)
    (he : x ++ u = y ++ v) : a = b ∧ x = y ∧ u = v := by
  have hf : ∀ {t r}, p.Runs t r → Only clean t → ∀ z, Follows World.step
      (streaming c (recvd c t ++ z)) t
      ((streaming c (recvd c t ++ z)).left (Function.update (fun _ => []) c z) []) :=
    fun hr hc z => follows_streaming hc (fun x hx => recvd_other (h.only hr) hx)
      (answered_eq_nil ((h.only hr).mono fun _ => onWire_of_reads_or_puts))
  obtain ⟨t, ht, hc, rfl⟩ := h.complete hx
  obtain ⟨t', ht', hc', rfl⟩ := h.complete hy
  have e := exec_eq ht (hf ht hc u)
  have e' := exec_eq ht' (hf ht' hc' v)
  rw [he, e'] at e
  simp only [Outcome.mk.injEq, Except.ok.injEq] at e
  obtain ⟨rfl, rfl, -⟩ := e
  exact ⟨rfl, rfl, List.append_cancel_left he⟩

/-- A copier that halts at the first thing to go wrong, and whose writer takes everything,
fails only where no spelling starts what it has read. -/
theorem rejects (h : Copies c d p F) (hh : Comp.HaltsAt (fun e => ¬ clean e) p) {t : Trace ι ε δ}
    {s : ς} (hr : p.Runs t (.error s)) (hd : Only (fun e => puts d e → clean e) t) {a : α}
    {x : Bytes} (hx : F a x) : ¬ x <+: recvd c t := by
  intro hp
  obtain ⟨u, hu, hc, rfl⟩ := h.complete hx
  -- The run over the spelling parts from this one at an answer.
  rcases Prog.Runs.diverge hr hu with ⟨-, hv⟩ | ⟨w, o, r, r', t', u', rfl, rfl, hne⟩
  · cases hv
  have ho := h.only hr ⟨o, r⟩ (by simp)
  have hcr : clean ⟨o, r'⟩ := hc _ (by simp)
  rw [recvd_append, recvd_append, List.prefix_append_right_inj, recvd_cons, recvd_cons] at hp
  cases o with
  | read c' n =>
    obtain rfl : c' = c := by
      rcases ho with ho | ho
      · exact ho
      · exact ho.elim
    cases r' with
    | short bs hb e => exact hcr
    | full bs' hb' =>
      cases r with
      | full bs hb =>
        simp only [eventRecvd, if_pos, Got.bytes] at hp
        obtain ⟨rfl, -⟩ := prefix_append_inj hp (hb'.trans hb.symm)
        exact hne rfl
      | short bs hb e =>
        obtain ⟨rfl, -⟩ := hh _ _ hr w _ t' rfl id
        have hl := hp.length_le
        simp only [eventRecvd, if_pos, Got.bytes, recvd_nil, List.length_append,
          List.length_nil] at hl
        omega
  | write d' bs =>
    have hcl : clean ⟨.write d' bs, r⟩ := hd _ (by simp) (ho.resolve_left id)
    cases r with
    | cut k hk f => exact hcl
    | done =>
      cases r' with
      | cut k hk f => exact hcr
      | done => exact hne rfl
  | flush d' =>
    have hcl : clean ⟨.flush d', r⟩ := hd _ (by simp) (ho.resolve_left id)
    cases r with
    | fault f => exact hcl
    | done =>
      cases r' with
      | fault f => exact hcr
      | done => exact hne rfl
  | readSome c' n => exact ho.elim id id
  | dial c' => exact ho.elim id id
  | ask q => exact ho.elim id id
  | note s => exact ho.elim id id

end Copies

/-- What `p` has written to `d` when it stops can still be completed to a spelling of `F`. -/
def Extends (d : ι) (p : Proc ι ε δ ς α) (F : Format α) : Prop :=
  ∀ t s, p.Runs t (.error s) → ∃ a x, F a x ∧ sent d t <+: x

/-- Whatever value comes first, the rest has a spelling. -/
def Format.Continues (F : Format α) (G : α → Format β) : Prop := ∀ a x, F a x → ∃ b y, G a b y

namespace Extends

variable {c d : ι} {p : Proc ι ε δ ς α} {f : α → Proc ι ε δ ς β} {F F' : Format α}
  {G : α → Format β}

theorem pure (a : α) (F : Format α) : Extends d (Pure.pure a : Proc ι ε δ ς α) F := by
  rintro t s ⟨-, h⟩
  cases h

theorem congr (h : Extends d p F) (hF : ∀ a x, F a x ↔ F' a x) : Extends d p F' := by
  intro t s hr
  obtain ⟨a, x, hx, hs⟩ := h t s hr
  exact ⟨a, x, (hF a x).mp hx, hs⟩

theorem ite {P : Prop} [Decidable P] {q : Proc ι ε δ ς α} (hp : Extends d p F)
    (hq : Extends d q F') : Extends d (if P then p else q) (if P then F else F') := by
  split
  · exact hp
  · exact hq

theorem bind (hp : Extends d p F) (hc : Copies c d p F) (hf : ∀ a, Extends d (f a) (G a))
    (hn : F.Continues G) : Extends d (p >>= f) (F.bind G) := by
  intro t s hr
  rcases (runs_bind _).mp hr with ⟨a, t₁, t₂, rfl, h₁, h₂⟩ | ⟨e, -, h⟩
  · obtain ⟨hx, hs⟩ := hc.sound h₁
    obtain ⟨b, y, hy, hs'⟩ := hf a _ _ h₂
    refine ⟨b, recvd c t₁ ++ y, ⟨a, _, y, hx, hy, rfl⟩, ?_⟩
    rw [sent_append, hs]
    exact (List.prefix_append_right_inj _).mpr hs'
  · obtain ⟨a, x, hx, hs⟩ := hp _ _ h
    obtain ⟨b, y, hy⟩ := hn a x hx
    exact ⟨b, x ++ y, ⟨a, x, y, hx, hy, rfl⟩, hs.trans (List.prefix_append ..)⟩

theorem relay {p : Proc ι ε δ ς α} {w : α → Proc ι ε δ ς Unit} {V : α → Prop} {enc : α → Bytes}
    (hp : Decodes c p (Format.canonical V enc)) (hne : ∃ a, V a)
    (hw : ∀ a, Emits d (w a) () (enc a)) (hf : ∀ a, Extends d (f a) (G a))
    (hn : (Format.canonical V enc).Continues G) :
    Extends d (p >>= fun a => w a >>= fun _ => f a) ((Format.canonical V enc).bind G) := by
  intro t s hr
  rcases (runs_bind _).mp hr with ⟨a, t₁, t₂, rfl, h₁, h₂⟩ | ⟨e, -, h⟩
  · obtain ⟨hV, -⟩ := hp.sound h₁
    rw [sent_append, hp.sent_nil h₁, List.nil_append]
    rcases (runs_bind _).mp h₂ with ⟨u, t₃, t₄, rfl, h₃, h₄⟩ | ⟨e, -, h⟩
    · obtain ⟨b, y, hy, hs⟩ := hf a _ _ h₄
      refine ⟨b, enc a ++ y, ⟨a, _, y, ⟨hV, rfl⟩, hy, rfl⟩, ?_⟩
      rw [sent_append, ((hw a).sound h₃).2]
      exact (List.prefix_append_right_inj _).mpr hs
    · obtain ⟨b, y, hy⟩ := hn a (enc a) ⟨hV, rfl⟩
      exact ⟨b, enc a ++ y, ⟨a, _, y, ⟨hV, rfl⟩, hy, rfl⟩,
        ((hw a).stopped h).1.trans (List.prefix_append ..)⟩
  · obtain ⟨a, hV⟩ := hne
    obtain ⟨b, y, hy⟩ := hn a (enc a) ⟨hV, rfl⟩
    refine ⟨b, enc a ++ y, ⟨a, _, y, ⟨hV, rfl⟩, hy, rfl⟩, ?_⟩
    rw [hp.sent_nil h]
    exact List.nil_prefix

theorem times {p : Proc ι ε δ ς Unit} {F : Format Unit} (h : Extends d p F)
    (hc : Copies c d p F) (hne : ∃ x, F () x) (n : Nat) :
    Extends d (Proc.times p n) (F.times n) := by
  induction n with
  | zero => rintro t s ⟨-, h⟩; cases h
  | succ n ih => exact h.bind hc (fun _ => ih) fun _ _ _ => Format.times_inhabited hne n

end Extends

/-! ### Dialogues -/

/-- `p` reads from `c` and writes to `d`, which may be the two directions of one connection;
`R` relates what it returns, what it has read and what it has written. -/
structure Converses (c d : ι) (p : Proc ι ε δ ς α) (R : α → Bytes → Bytes → Prop) : Prop where
  only : ∀ {t r}, p.Runs t r → Only (fun e => reads c e ∨ puts d e) t
  sound : ∀ {t a}, p.Runs t (.ok a) → R a (recvd c t) (sent d t)
  complete : ∀ {a x y}, R a x y →
    ∃ t, p.Runs t (.ok a) ∧ Only clean t ∧ recvd c t = x ∧ sent d t = y

namespace Converses

variable {c d : ι} {p : Proc ι ε δ ς α} {f : α → Proc ι ε δ ς β} {R R' : α → Bytes → Bytes → Prop}
  {Q : α → β → Bytes → Bytes → Prop} {F : Format α}

theorem acts (h : Converses c d p R) : ActsIn (fun e => reads c e ∨ puts d e) p :=
  fun _ _ => h.only

theorem congr (h : Converses c d p R) (hR : ∀ a x y, R a x y ↔ R' a x y) :
    Converses c d p R' where
  only := h.only
  sound hr := (hR _ _ _).mp (h.sound hr)
  complete hx := h.complete ((hR _ _ _).mpr hx)

theorem bind (hp : Converses c d p R) (hf : ∀ a, Converses c d (f a) (Q a)) :
    Converses c d (p >>= f) (fun b z w =>
      ∃ a x y u v, R a x u ∧ Q a b y v ∧ z = x ++ y ∧ w = u ++ v) where
  only hr := by
    rcases (runs_bind _).mp hr with ⟨a, t₁, t₂, rfl, h₁, h₂⟩ | ⟨e, rfl, h⟩
    · exact only_append.mpr ⟨hp.only h₁, (hf a).only h₂⟩
    · exact hp.only h
  sound hr := by
    obtain ⟨a, t₁, t₂, rfl, h₁, h₂⟩ := (runs_bind_ok _).mp hr
    exact ⟨a, _, _, _, _, hp.sound h₁, (hf a).sound h₂, recvd_append .., sent_append ..⟩
  complete := by
    rintro b z w ⟨a, x, y, u, v, hx, hy, rfl, rfl⟩
    obtain ⟨t₁, h₁, hc₁, rfl, rfl⟩ := hp.complete hx
    obtain ⟨t₂, h₂, hc₂, rfl, rfl⟩ := (hf a).complete hy
    exact ⟨t₁ ++ t₂, h₁.bind h₂, only_append.mpr ⟨hc₁, hc₂⟩, recvd_append .., sent_append ..⟩

theorem of_decodes (h : Decodes c p F) :
    Converses c d p (fun a x y => F a x ∧ y = []) where
  only hr := (h.only hr).mono fun _ => .inl
  sound hr := ⟨h.sound hr, h.sent_nil hr⟩
  complete := by
    rintro a x y ⟨hx, rfl⟩
    obtain ⟨t, ht, hc, hx⟩ := h.complete hx
    exact ⟨t, ht, hc, hx, h.sent_nil ht⟩

theorem of_emits {a : α} {out : Bytes} (h : Emits d p a out) :
    Converses c d p (fun b x y => b = a ∧ x = [] ∧ y = out) where
  only hr := (h.only hr).mono fun _ => .inr
  sound hr := ⟨(h.sound hr).1, recvd_of_puts (h.only hr), (h.sound hr).2⟩
  complete := by
    rintro b x y ⟨rfl, rfl, rfl⟩
    obtain ⟨t, ht, hc⟩ := h.complete
    exact ⟨t, ht, hc, recvd_of_puts (h.only ht), (h.sound ht).2⟩

theorem ite {P : Prop} [Decidable P] {q : Proc ι ε δ ς α} (hp : Converses c d p R)
    (hq : Converses c d q R') :
    Converses c d (if P then p else q) (fun a x y => if P then R a x y else R' a x y) := by
  split
  · exact hp
  · exact hq

end Converses

/-! ### Stretches that run smoothly -/

/-- Nothing fails, and the bytes `x` are taken from `c` and `y` given to `d`. -/
structure Carries (c d : ι) (x y : Bytes) (t : Trace ι ε δ) : Prop where
  only : Only (fun e => reads c e ∨ puts d e) t
  clean : Only clean t
  recvd : recvd c t = x
  sent : sent d t = y

namespace Carries

variable {c d : ι} {x x' y y' : Bytes} {t t' : Trace ι ε δ}

theorem append (h : Carries c d x y t) (h' : Carries c d x' y' t') :
    Carries c d (x ++ x') (y ++ y') (t ++ t') where
  only := only_append.mpr ⟨h.only, h'.only⟩
  clean := only_append.mpr ⟨h.clean, h'.clean⟩
  recvd := by rw [recvd_append, h.recvd, h'.recvd]
  sent := by rw [sent_append, h.sent, h'.sent]

end Carries

section Carries

variable {c d : ι} {p : Proc ι ε δ ς α} {F : Format α} {a : α} {x y : Bytes}

theorem Copies.carries (h : Copies c d p F) (hx : F a x) :
    ∃ t, p.Runs t (.ok a) ∧ Carries c d x x t := by
  obtain ⟨t, ht, hc, hr⟩ := h.complete hx
  exact ⟨t, ht, h.only ht, hc, hr, (h.sound ht).2.trans hr⟩

theorem Decodes.carries (h : Decodes c p F) (hx : F a x) (d : ι) :
    ∃ t, p.Runs t (.ok a) ∧ Carries c d x [] t := by
  obtain ⟨t, ht, hc, hr⟩ := h.complete hx
  exact ⟨t, ht, (h.only ht).mono fun _ => .inl, hc, hr, h.sent_nil ht⟩

theorem Emits.carries (h : Emits d p a y) (c : ι) :
    ∃ t, p.Runs t (.ok a) ∧ Carries c d [] y t := by
  obtain ⟨t, ht, hc⟩ := h.complete
  exact ⟨t, ht, (h.only ht).mono fun _ => .inr, hc, recvd_of_puts (h.only ht), (h.sound ht).2⟩

end Carries

/-! ### Programs that do not write to a connection -/

def Silent (c : ι) (p : Proc ι ε δ ς α) : Prop := ActsIn (fun e => ¬ writesTo c e) p

theorem Silent.sent_nil {c : ι} {p : Proc ι ε δ ς α} {t : Trace ι ε δ} {r : Except ς α}
    (h : Silent c p) (hr : p.Runs t r) : sent c t = [] := sent_eq_nil (h t r hr) fun _ => id

theorem Decodes.silent {c : ι} {p : Proc ι ε δ ς α} {F : Format α} (h : Decodes c p F) (x : ι) :
    Silent x p := h.acts.mono fun e he => by
  obtain ⟨o, r⟩ := e
  cases o <;> simp_all [reads, writesTo]

theorem Emits.silent {d x : ι} {p : Proc ι ε δ ς α} {a : α} {y : Bytes} (h : Emits d p a y)
    (hx : x ≠ d) : Silent x p := h.acts.mono fun _ he => not_writesTo (c := d) (.inr he) hx

theorem Copies.silent {c d x : ι} {p : Proc ι ε δ ς α} {F : Format α} (h : Copies c d p F)
    (hx : x ≠ d) : Silent x p := h.acts.mono fun _ he => not_writesTo he hx

theorem Converses.silent {c d x : ι} {p : Proc ι ε δ ς α} {R : α → Bytes → Bytes → Prop}
    (h : Converses c d p R) (hx : x ≠ d) : Silent x p := h.acts.mono fun _ he => not_writesTo he hx

end Interaction
