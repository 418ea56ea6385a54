import Claudepod.Codec
import Claudepod.Utf8

/-! The setting of the proxy's async functions: the connections a session holds, `anyhow`
errors, and what awaiting, `?`, `.context` and `timeout` do. -/

set_option autoImplicit false

namespace Claudepod
open Interaction

/-- The guest's connection, the relayed host connection, the connection a fill opens, and
`tokio::io::sink()`. -/
inductive Leg where
  | guest | host | fill | sink
  deriving DecidableEq, Repr

/-- An `anyhow::Error`: its contexts, outermost first, then the root cause. -/
structure Error where
  chain : List String
  deriving DecidableEq, Repr

def Error.msg (s : String) : Error := ⟨[s]⟩

def Error.context (s : String) (e : Error) : Error := ⟨s :: e.chain⟩

/-- `format!("{err:#}")`. -/
def Error.render (e : Error) : String := String.intercalate ": " e.chain

/-- `format!("{n:#x}")`. -/
def hex (n : UInt64) : String := "0x" ++ String.ofList (Nat.toDigits 16 n.toNat)

/-- An error of the operating system. Its text is a phrase of `strerror`. -/
structure IoError where
  text : String
  short : text.utf8ByteSize ≤ 1024

/-- Neither of the connections a session relays between. -/
def elsewhere : Event (Resp Leg IoError Error) → Prop
  | ⟨.read c _, _⟩ | ⟨.readSome c _, _⟩ | ⟨.write c _, _⟩ | ⟨.flush c, _⟩ | ⟨.dial c, _⟩ =>
    c ≠ .guest ∧ c ≠ .host
  | ⟨.ask _, _⟩ | ⟨.note _, _⟩ => True

/-- Why an async function does not return a value: it returned an error, it waits forever,
or a loop bound of the model was reached. -/
inductive Stop where
  | failed : Error → Stop
  | pending : Stop
  | exhausted : Stop
  deriving DecidableEq, Repr

abbrev IoEvent := Event (Resp Leg IoError Error)

abbrev IoTrace := Trace Leg IoError Error

/-- An `async fn` returning `Result<α>`. -/
abbrev Async (α : Type) := Proc Leg IoError Error Stop α

def bail {α : Type} (s : String) : Async α := throw (.failed (.msg s))

def ensure (P : Prop) [Decidable P] (s : String) : Async Unit :=
  Proc.require P (.failed (.msg s))

def Stop.context (s : String) : Stop → Stop
  | .failed e => .failed (e.context s)
  | .pending => .pending
  | .exhausted => .exhausted

/-- `.await.context(s)`. -/
def context {α : Type} (s : String) (p : Async α) : Async α := p.mapStop (Stop.context s)

def Stop.elapsed (secs : Nat) : Stop → Stop
  | .failed e => .failed e
  | .pending => .failed (.msg s!"timed out after {secs}s")
  | .exhausted => .exhausted

/-- `within`: a future that never completes is dropped when the limit is reached. A reader
that stalls after any byte stands for a limit reached at that byte. -/
def within {α : Type} (secs : Nat) (p : Async α) : Async α := p.mapStop (Stop.elapsed secs)

def Stop.failure : Stop → Option Error
  | .failed e => some e
  | .pending => none
  | .exhausted => none

/-- The `Result` of a call, for callers that look at it instead of using `?`. -/
def attempt {α : Type} (p : Async α) : Async (Except Error α) := p.attempt Stop.failure

def stopOf : Fault IoError → Stop
  | .broken e => .failed (.msg e.text)
  | .silent => .pending

/-! ### Short texts -/

theorem ofList_size (cs : List Char) : (String.ofList cs).utf8ByteSize ≤ 4 * cs.length := by
  induction cs with
  | nil => simp
  | cons c cs ih =>
    have hc := c.utf8Size_le_four
    rw [← List.singleton_append, String.ofList_append, String.utf8ByteSize_append,
      ← String.singleton_eq_ofList, String.utf8ByteSize_singleton, List.length_append]
    simp only [List.length_singleton]
    omega

theorem decimal_size (n : UInt64) : (toString n).utf8ByteSize ≤ 80 := by
  have h : (Nat.toDigits 10 n.toNat).length ≤ 20 :=
    (Nat.length_toDigits_le_iff (by decide) (by decide)).mpr
      (Nat.lt_trans n.toNat_lt (by decide))
  have hs := ofList_size (Nat.toDigits 10 n.toNat)
  rw [show toString n = String.ofList (Nat.toDigits 10 n.toNat) from Nat.repr_eq_ofList_toDigits]
  omega

theorem prefixed_size (pre : String) (h : pre.utf8ByteSize ≤ 900) (n : UInt64) :
    (pre ++ toString n).utf8ByteSize ≤ 1024 := by
  have hn := decimal_size n
  rw [String.utf8ByteSize_append]
  omega

theorem labelled_size (pre post : String) (h : pre.utf8ByteSize + post.utf8ByteSize ≤ 900)
    (n : UInt64) : (pre ++ toString n ++ post).utf8ByteSize ≤ 1024 := by
  have hn := decimal_size n
  simp only [String.utf8ByteSize_append]
  omega

theorem hex_size (n : UInt64) : (hex n).utf8ByteSize ≤ 66 := by
  have h : (Nat.toDigits 16 n.toNat).length ≤ 16 :=
    (Nat.length_toDigits_le_iff (by decide) (by decide)).mpr n.toNat_lt
  have hs := ofList_size (Nat.toDigits 16 n.toNat)
  have h0 : ("0x" : String).utf8ByteSize = 2 := by decide
  rw [hex, String.utf8ByteSize_append]
  omega

/-- Not a loop bound of the model and, if an error, one line that is not long. -/
def Stop.Terse : Stop → Prop
  | .failed e => ∃ s, e = .msg s ∧ s.utf8ByteSize ≤ 1024
  | .pending => True
  | .exhausted => False

theorem Stop.Terse.ne_exhausted {s : Stop} (h : s.Terse) : s ≠ .exhausted := by
  rintro rfl
  exact h

theorem stopOf_terse (f : Fault IoError) : (stopOf f).Terse := by
  cases f with
  | broken e => exact ⟨e.text, rfl, e.short⟩
  | silent => trivial

theorem bail_terse {α : Type} {s : String} (h : s.utf8ByteSize ≤ 1024) :
    Comp.StopsIn Stop.Terse (bail s : Async α) := .throw ⟨s, rfl, h⟩

theorem ensure_terse {P : Prop} [Decidable P] {s : String} (h : s.utf8ByteSize ≤ 1024) :
    Comp.StopsIn Stop.Terse (ensure P s) := Proc.stopsIn_require ⟨s, rfl, h⟩

theorem within_terse {α : Type} {p : Async α} (h : Comp.StopsIn Stop.Terse p) :
    Comp.StopsIn Stop.Terse (within 60 p) := by
  refine h.mapStop fun s hs => ?_
  cases s with
  | failed e => exact hs
  | pending => exact ⟨_, rfl, by decide⟩
  | exhausted => exact hs

/-! ### Reads and writes -/

/-- `read_exact`; `eof` is the text of the error at a premature end. -/
def readExact (c : Leg) (n : Nat) (eof : String) : Async Bytes :=
  Comp.perform (.read c n) >>= fun (got : Got IoError n) =>
    match got with
    | .full bs _ => pure bs
    | .short _ _ .eof => bail eof
    | .short _ _ (.fault f) => throw (stopOf f)

/-- `write_all` into the connection's `BufWriter`. -/
def writeAll (c : Leg) (bs : Bytes) : Async Unit :=
  Comp.perform (.write c bs) >>= fun (put : Put IoError bs.length) =>
    match put with
    | .done => pure ()
    | .cut _ _ f => throw (stopOf f)

def acknowledged : Ack IoError → Async Unit
  | .done => pure ()
  | .fault f => throw (stopOf f)

def flush (c : Leg) : Async Unit := Comp.perform (.flush c) >>= acknowledged

/-- Open the connection `c`. -/
def dial (c : Leg) : Async Unit := Comp.perform (.dial c) >>= acknowledged

/-- Bytes of a fixed length, spelled by themselves. -/
def rawFormat (n : Nat) : Format Bytes := Format.canonical (fun bs => bs.length = n) id

theorem readExact_runs {c : Leg} {n : Nat} {eof : String} {t : IoTrace} {r : Except Stop Bytes} :
    (readExact c n eof).Runs t r ↔
      (∃ bs, ∃ h : bs.length = n, t = [⟨.read c n, .full bs h⟩] ∧ r = .ok bs) ∨
      (∃ bs, ∃ h : bs.length < n, t = [⟨.read c n, .short bs h .eof⟩] ∧
        r = .error (.failed (.msg eof))) ∨
      (∃ bs f, ∃ h : bs.length < n, t = [⟨.read c n, .short bs h (.fault f)⟩] ∧
        r = .error (stopOf f)) := by
  rw [readExact, Comp.runs_perform_bind]
  constructor
  · rintro ⟨g, u, rfl, h⟩
    rcases g with ⟨bs, hb⟩ | ⟨bs, hb, _ | f⟩
    · obtain ⟨rfl, rfl⟩ := (Comp.runs_pure _ _).mp h
      exact .inl ⟨bs, hb, rfl, rfl⟩
    · obtain ⟨rfl, rfl⟩ := (Comp.runs_throw _ _).mp h
      exact .inr (.inl ⟨bs, hb, rfl, rfl⟩)
    · obtain ⟨rfl, rfl⟩ := (Comp.runs_throw _ _).mp h
      exact .inr (.inr ⟨bs, f, hb, rfl, rfl⟩)
  · rintro (⟨bs, hb, rfl, rfl⟩ | ⟨bs, hb, rfl, rfl⟩ | ⟨bs, f, hb, rfl, rfl⟩)
    · exact ⟨.full bs hb, [], rfl, (Comp.runs_pure _ _).mpr ⟨rfl, rfl⟩⟩
    · exact ⟨.short bs hb .eof, [], rfl, (Comp.runs_throw _ _).mpr ⟨rfl, rfl⟩⟩
    · exact ⟨.short bs hb (.fault f), [], rfl, (Comp.runs_throw _ _).mpr ⟨rfl, rfl⟩⟩

theorem writeAll_runs {c : Leg} {bs : Bytes} {t : IoTrace} {r : Except Stop Unit} :
    (writeAll c bs).Runs t r ↔
      (t = [⟨.write c bs, .done⟩] ∧ r = .ok ()) ∨
      (∃ k f, ∃ h : k < bs.length, t = [⟨.write c bs, .cut k h f⟩] ∧ r = .error (stopOf f)) := by
  rw [writeAll, Comp.runs_perform_bind]
  constructor
  · rintro ⟨g, u, rfl, h⟩
    rcases g with _ | ⟨k, hk, f⟩
    · obtain ⟨rfl, rfl⟩ := (Comp.runs_pure _ _).mp h
      exact .inl ⟨rfl, rfl⟩
    · obtain ⟨rfl, rfl⟩ := (Comp.runs_throw _ _).mp h
      exact .inr ⟨k, f, hk, rfl, rfl⟩
  · rintro (⟨rfl, rfl⟩ | ⟨k, f, hk, rfl, rfl⟩)
    · exact ⟨.done, [], rfl, (Comp.runs_pure _ _).mpr ⟨rfl, rfl⟩⟩
    · exact ⟨.cut k hk f, [], rfl, (Comp.runs_throw _ _).mpr ⟨rfl, rfl⟩⟩

/-- A call that is only acknowledged: a flush or a dial. -/
theorem acknowledged_runs {a : Ack IoError} {t : IoTrace} {r : Except Stop Unit} :
    (acknowledged a).Runs t r ↔
      t = [] ∧ ((a = .done ∧ r = .ok ()) ∨ ∃ f, a = .fault f ∧ r = .error (stopOf f)) := by
  cases a <;> simp [acknowledged]

theorem flush_runs {c : Leg} {t : IoTrace} {r : Except Stop Unit} :
    (flush c).Runs t r ↔
      (t = [⟨.flush c, .done⟩] ∧ r = .ok ()) ∨
      (∃ f, t = [⟨.flush c, .fault f⟩] ∧ r = .error (stopOf f)) := by
  rw [flush, Comp.runs_perform_bind]
  constructor
  · rintro ⟨a, u, rfl, h⟩
    obtain ⟨rfl, ⟨rfl, rfl⟩ | ⟨f, rfl, rfl⟩⟩ := acknowledged_runs.mp h
    · exact .inl ⟨rfl, rfl⟩
    · exact .inr ⟨f, rfl, rfl⟩
  · rintro (⟨rfl, rfl⟩ | ⟨f, rfl, rfl⟩)
    · exact ⟨.done, [], rfl, acknowledged_runs.mpr ⟨rfl, .inl ⟨rfl, rfl⟩⟩⟩
    · exact ⟨.fault f, [], rfl, acknowledged_runs.mpr ⟨rfl, .inr ⟨f, rfl, rfl⟩⟩⟩

theorem dial_runs {c : Leg} {t : IoTrace} {r : Except Stop Unit} :
    (dial c).Runs t r ↔
      (t = [⟨.dial c, .done⟩] ∧ r = .ok ()) ∨
      (∃ f, t = [⟨.dial c, .fault f⟩] ∧ r = .error (stopOf f)) := by
  rw [dial, Comp.runs_perform_bind]
  constructor
  · rintro ⟨a, u, rfl, h⟩
    obtain ⟨rfl, ⟨rfl, rfl⟩ | ⟨f, rfl, rfl⟩⟩ := acknowledged_runs.mp h
    · exact .inl ⟨rfl, rfl⟩
    · exact .inr ⟨f, rfl, rfl⟩
  · rintro (⟨rfl, rfl⟩ | ⟨f, rfl, rfl⟩)
    · exact ⟨.done, [], rfl, acknowledged_runs.mpr ⟨rfl, .inl ⟨rfl, rfl⟩⟩⟩
    · exact ⟨.fault f, [], rfl, acknowledged_runs.mpr ⟨rfl, .inr ⟨f, rfl, rfl⟩⟩⟩

theorem dial_acts {S : IoEvent → Prop} {c : Leg} (h : ∀ a, S ⟨.dial c, a⟩) :
    Comp.ActsIn S (dial c) :=
  (Comp.ActsIn.perform h).bind fun a => by
    cases a with
    | done => exact .pure ()
    | fault f => exact .throw _

theorem flush_acts {S : IoEvent → Prop} {c : Leg} (h : ∀ a, S ⟨.flush c, a⟩) :
    Comp.ActsIn S (flush c) :=
  (Comp.ActsIn.perform h).bind fun a => by
    cases a with
    | done => exact .pure ()
    | fault f => exact .throw _

theorem readExact_terse (c : Leg) (n : Nat) {eof : String} (h : eof.utf8ByteSize ≤ 1024) :
    Comp.StopsIn Stop.Terse (readExact c n eof) :=
  (Comp.StopsIn.perform _).bind fun got => by
    rcases got with _ | ⟨_, _, _ | f⟩
    · exact .pure _
    · exact bail_terse h
    · exact .throw (stopOf_terse f)

theorem writeAll_terse (c : Leg) (bs : Bytes) : Comp.StopsIn Stop.Terse (writeAll c bs) :=
  (Comp.StopsIn.perform _).bind fun put => by
    rcases put with _ | ⟨_, _, f⟩
    · exact .pure ()
    · exact .throw (stopOf_terse f)

theorem acknowledged_terse (a : Ack IoError) : Comp.StopsIn Stop.Terse (acknowledged a) := by
  cases a with
  | done => exact .pure ()
  | fault f => exact .throw (stopOf_terse f)

theorem flush_terse (c : Leg) : Comp.StopsIn Stop.Terse (flush c) :=
  (Comp.StopsIn.perform _).bind acknowledged_terse

theorem dial_terse (c : Leg) : Comp.StopsIn Stop.Terse (dial c) :=
  (Comp.StopsIn.perform _).bind acknowledged_terse

/-- The event failed or stopped short. -/
def spoiled (e : IoEvent) : Prop := ¬ clean e

theorem ensure_halts {P : Prop} [Decidable P] {s : String} : Comp.HaltsAt spoiled (ensure P s) :=
  Proc.haltsAt_require

theorem readExact_halts (c : Leg) (n : Nat) (eof : String) :
    Comp.HaltsAt spoiled (readExact c n eof) :=
  Comp.HaltsAt.perform_bind fun got t r h => by
    rcases got with ⟨bs, hb⟩ | ⟨bs, hb, _ | f⟩
    · exact ⟨h.1, fun hs => absurd trivial hs⟩
    · exact ⟨h.1, fun _ => ⟨_, h.2⟩⟩
    · exact ⟨h.1, fun _ => ⟨_, h.2⟩⟩

theorem writeAll_halts (c : Leg) (bs : Bytes) : Comp.HaltsAt spoiled (writeAll c bs) :=
  Comp.HaltsAt.perform_bind fun put t r h => by
    rcases put with _ | ⟨k, hk, f⟩
    · exact ⟨h.1, fun hs => absurd trivial hs⟩
    · exact ⟨h.1, fun _ => ⟨_, h.2⟩⟩

theorem readExact_decodes (c : Leg) (n : Nat) (eof : String) :
    Decodes c (readExact c n eof) (rawFormat n) where
  only hr := by
    rcases readExact_runs.mp hr with ⟨bs, hb, rfl, rfl⟩ | ⟨bs, hb, rfl, rfl⟩ | ⟨bs, f, hb, rfl, rfl⟩
    all_goals simp [reads]
  sound hr := by
    rcases readExact_runs.mp hr with ⟨bs, hb, rfl, h⟩ | ⟨bs, hb, rfl, h⟩ | ⟨bs, f, hb, rfl, h⟩
    · obtain rfl := Except.ok.inj h
      exact ⟨hb, by simp [recvd_cons, eventRecvd, Got.bytes]⟩
    · cases h
    · cases h
  complete := by
    rintro a x ⟨hl, rfl⟩
    exact ⟨_, readExact_runs.mpr (.inl ⟨x, hl, rfl, rfl⟩), by simp [clean],
      by simp [recvd_cons, eventRecvd, Got.bytes]⟩

theorem writeAll_emits (c : Leg) (bs : Bytes) : Emits c (writeAll c bs) () bs where
  only hr := by
    rcases writeAll_runs.mp hr with ⟨rfl, -⟩ | ⟨k, f, hk, rfl, -⟩
    all_goals simp [puts]
  sound hr := by
    rcases writeAll_runs.mp hr with ⟨rfl, -⟩ | ⟨k, f, hk, rfl, h⟩
    · simp [sent_cons, eventSent, Put.taken]
    · cases h
  stopped hr := by
    rcases writeAll_runs.mp hr with ⟨rfl, h⟩ | ⟨k, f, hk, rfl, -⟩
    · cases h
    · simp [sent_cons, eventSent, Put.taken, List.take_prefix, clean]
  complete := ⟨_, writeAll_runs.mpr (.inl ⟨rfl, rfl⟩), by simp [clean]⟩

theorem flush_held {c : Leg} {t : IoTrace} (h : (flush c).Runs t (.ok ())) (buf : Bytes) :
    held c buf t = [] := by
  rcases flush_runs.mp h with ⟨rfl, -⟩ | ⟨f, -, h⟩
  · simp [held, hold]
  · cases h

theorem flush_emits (c : Leg) : Emits c (flush c) () [] where
  only hr := by
    rcases flush_runs.mp hr with ⟨rfl, -⟩ | ⟨f, rfl, -⟩
    all_goals simp [puts]
  sound hr := by
    rcases flush_runs.mp hr with ⟨rfl, -⟩ | ⟨f, rfl, h⟩
    · simp [sent_cons, eventSent]
    · cases h
  stopped hr := by
    rcases flush_runs.mp hr with ⟨rfl, h⟩ | ⟨f, rfl, -⟩
    · cases h
    · simp [sent_cons, eventSent, clean]
  complete := ⟨_, flush_runs.mpr (.inl ⟨rfl, rfl⟩), by simp [clean]⟩

end Claudepod
