import Claudepod.Program
import Mathlib.Logic.Function.Basic

/-! Buffered byte-stream connections as an interaction signature. The names of the
connections, the I/O errors and the failures of the one hook are parameters.

Answers carry what they promise in their types: a full read has the length asked
for, a failed write stopped strictly inside the data. -/

set_option autoImplicit false

namespace Interaction

abbrev Bytes := List UInt8

/-- How a connection can let an operation down: an I/O error, or nothing ever happens. -/
inductive Fault (ε : Type) where
  | broken : ε → Fault ε
  | silent : Fault ε

/-- What a reader meets behind the last byte. -/
inductive Ending (ε : Type) where
  | eof : Ending ε
  | fault : Fault ε → Ending ε

/-- Answer to an exact read of `n` bytes. A short read has consumed what there was. -/
inductive Got (ε : Type) (n : Nat) where
  | full : (bs : Bytes) → bs.length = n → Got ε n
  | short : (bs : Bytes) → bs.length < n → Ending ε → Got ε n

/-- Answer to a single read of at most `n` bytes. -/
inductive Chunk (ε : Type) (n : Nat) where
  | some : (bs : Bytes) → 0 < bs.length → bs.length ≤ n → Chunk ε n
  | ended : Ending ε → Chunk ε n

/-- Answer to a write of `n` bytes into a buffered writer. -/
inductive Put (ε : Type) (n : Nat) where
  | done : Put ε n
  | cut : (k : Nat) → k < n → Fault ε → Put ε n

/-- Answer to a flush or to opening a connection. -/
inductive Ack (ε : Type) where
  | done : Ack ε
  | fault : Fault ε → Ack ε

/-- Answer of the hook. -/
inductive Answer (δ : Type) where
  | granted : Answer δ
  | denied : δ → Answer δ
  | silent : Answer δ

inductive Call (ι : Type) where
  | read : ι → Nat → Call ι
  | readSome : ι → Nat → Call ι
  | write : ι → Bytes → Call ι
  | flush : ι → Call ι
  | dial : ι → Call ι
  | ask : Bytes → Call ι
  | note : String → Call ι

/-- Answers, by operation. -/
@[reducible] def Resp (ι ε δ : Type) : Call ι → Type
  | .read _ n => Got ε n
  | .readSome _ n => Chunk ε n
  | .write _ bs => Put ε bs.length
  | .flush _ => Ack ε
  | .dial _ => Ack ε
  | .ask _ => Answer δ
  | .note _ => Unit

abbrev Trace (ι ε δ : Type) := List (Event (Resp ι ε δ))

variable {ι ε δ : Type}

def Got.bytes {n : Nat} : Got ε n → Bytes
  | .full bs _ => bs
  | .short bs _ _ => bs

def Chunk.bytes {n : Nat} : Chunk ε n → Bytes
  | .some bs _ _ => bs
  | .ended _ => []

def Put.taken {n : Nat} (bs : Bytes) : Put ε n → Bytes
  | .done => bs
  | .cut k _ _ => bs.take k

/-! ### Kinds of events -/

/-- An exact read. -/
def reads (c : ι) : Event (Resp ι ε δ) → Prop
  | ⟨.read c' _, _⟩ => c' = c
  | _ => False

def readsFrom (c : ι) : Event (Resp ι ε δ) → Prop
  | ⟨.read c' _, _⟩ => c' = c
  | ⟨.readSome c' _, _⟩ => c' = c
  | _ => False

instance [DecidableEq ι] (c : ι) : DecidablePred (readsFrom c : Event (Resp ι ε δ) → Prop)
  | ⟨.read c' _, _⟩ => inferInstanceAs (Decidable (c' = c))
  | ⟨.readSome c' _, _⟩ => inferInstanceAs (Decidable (c' = c))
  | ⟨.write _ _, _⟩ | ⟨.flush _, _⟩ | ⟨.dial _, _⟩ | ⟨.ask _, _⟩ | ⟨.note _, _⟩ => isFalse id

def writesTo (c : ι) : Event (Resp ι ε δ) → Prop
  | ⟨.write c' _, _⟩ => c' = c
  | _ => False

/-- The event is of the writer of `c`. -/
def puts (c : ι) : Event (Resp ι ε δ) → Prop
  | ⟨.write c' _, _⟩ => c' = c
  | ⟨.flush c', _⟩ => c' = c
  | _ => False

theorem readsFrom_of_reads {c : ι} {e : Event (Resp ι ε δ)} (h : reads c e) : readsFrom c e := by
  obtain ⟨o, r⟩ := e
  cases o <;> simp_all [reads, readsFrom]

theorem readsFrom_eq {c x : ι} {e : Event (Resp ι ε δ)} (h : reads c e) (hx : readsFrom x e) :
    x = c := by
  obtain ⟨o, r⟩ := e
  cases o with
  | read d n => exact hx.symm.trans h
  | _ => exact h.elim

theorem puts_eq {d x : ι} {e : Event (Resp ι ε δ)} (h : puts d e) (hx : puts x e) : x = d := by
  obtain ⟨o, r⟩ := e
  cases o with
  | write c bs => exact hx.symm.trans h
  | flush c => exact hx.symm.trans h
  | _ => exact h.elim

theorem not_puts_of_readsFrom {c d : ι} {e : Event (Resp ι ε δ)} (h : readsFrom c e) :
    ¬ puts d e := by
  obtain ⟨o, r⟩ := e
  cases o <;> simp_all [readsFrom, puts]

theorem not_writesTo {c d x : ι} {e : Event (Resp ι ε δ)} (h : reads c e ∨ puts d e)
    (hx : x ≠ d) : ¬ writesTo x e := by
  obtain ⟨o, r⟩ := e
  cases o <;> simp_all [reads, puts, writesTo]
  exact fun he => hx he.symm

/-- Every event of the trace is of the kind `S`. -/
def Only (S : Event (Resp ι ε δ) → Prop) (t : Trace ι ε δ) : Prop := ∀ e ∈ t, S e

instance (S : Event (Resp ι ε δ) → Prop) [DecidablePred S] (t : Trace ι ε δ) :
    Decidable (Only S t) := inferInstanceAs (Decidable (∀ e ∈ t, S e))

section Only

variable {S S' : Event (Resp ι ε δ) → Prop} {t u : Trace ι ε δ}

@[simp] theorem only_nil : Only S ([] : Trace ι ε δ) := by simp [Only]

@[simp] theorem only_append : Only S (t ++ u) ↔ Only S t ∧ Only S u := by
  simp only [Only, List.mem_append]
  exact ⟨fun h => ⟨fun e he => h e (.inl he), fun e he => h e (.inr he)⟩,
    fun h e he => he.elim (h.1 e) (h.2 e)⟩

@[simp] theorem only_cons {e : Event (Resp ι ε δ)} : Only S (e :: t) ↔ S e ∧ Only S t := by
  simp [Only]

theorem Only.mono (h : Only S t) (hs : ∀ e, S e → S' e) : Only S' t := fun e he => hs e (h e he)

end Only

/-! ### What a trace says about one connection -/

section Streams

variable [DecidableEq ι]

def eventRecvd (c : ι) : Event (Resp ι ε δ) → Bytes
  | ⟨.read c' _, g⟩ => if c' = c then g.bytes else []
  | ⟨.readSome c' _, g⟩ => if c' = c then g.bytes else []
  | _ => []

def eventSent (c : ι) : Event (Resp ι ε δ) → Bytes
  | ⟨.write c' bs, g⟩ => if c' = c then g.taken bs else []
  | _ => []

/-- Bytes consumed from `c`. -/
def recvd (c : ι) (t : Trace ι ε δ) : Bytes := t.flatMap (eventRecvd c)

/-- Bytes the writer of `c` has accepted, delivered or not. -/
def sent (c : ι) (t : Trace ι ε δ) : Bytes := t.flatMap (eventSent c)

@[simp] theorem recvd_nil (c : ι) : recvd c ([] : Trace ι ε δ) = [] := rfl
@[simp] theorem sent_nil (c : ι) : sent c ([] : Trace ι ε δ) = [] := rfl

@[simp] theorem recvd_append (c : ι) (t u : Trace ι ε δ) :
    recvd c (t ++ u) = recvd c t ++ recvd c u := List.flatMap_append

@[simp] theorem sent_append (c : ι) (t u : Trace ι ε δ) :
    sent c (t ++ u) = sent c t ++ sent c u := List.flatMap_append

theorem recvd_cons (c : ι) (e : Event (Resp ι ε δ)) (t : Trace ι ε δ) :
    recvd c (e :: t) = eventRecvd c e ++ recvd c t := List.flatMap_cons

theorem sent_cons (c : ι) (e : Event (Resp ι ε δ)) (t : Trace ι ε δ) :
    sent c (e :: t) = eventSent c e ++ sent c t := List.flatMap_cons

/-- Kinds that leave the bytes of `c` alone. -/
theorem recvd_eq_nil {S : Event (Resp ι ε δ) → Prop} {t : Trace ι ε δ} {c : ι} (h : Only S t)
    (hs : ∀ e, S e → ¬ readsFrom c e) : recvd c t = [] := by
  refine List.flatMap_eq_nil_iff.mpr fun e he => ?_
  have hn := hs e (h e he)
  obtain ⟨o, r⟩ := e
  cases o with
  | read c' n => exact if_neg hn
  | readSome c' n => exact if_neg hn
  | _ => rfl

theorem sent_eq_nil {S : Event (Resp ι ε δ) → Prop} {t : Trace ι ε δ} {c : ι} (h : Only S t)
    (hs : ∀ e, S e → ¬ writesTo c e) : sent c t = [] := by
  refine List.flatMap_eq_nil_iff.mpr fun e he => ?_
  have hn := hs e (h e he)
  obtain ⟨o, r⟩ := e
  cases o with
  | write c' bs => exact if_neg hn
  | _ => rfl

theorem recvd_of_puts {t : Trace ι ε δ} {c d : ι} (h : Only (puts d) t) : recvd c t = [] :=
  recvd_eq_nil h (by rintro ⟨o, r⟩ he hn; cases o <;> simp_all [readsFrom, puts])

theorem sent_of_reads {t : Trace ι ε δ} {c d : ι} (h : Only (readsFrom c) t) : sent d t = [] :=
  sent_eq_nil h (by rintro ⟨o, r⟩ he hn; cases o <;> simp_all [readsFrom, writesTo])

/-- Reading one connection and writing another leaves the others alone. -/
theorem recvd_other {t : Trace ι ε δ} {c d x : ι} (h : Only (fun e => reads c e ∨ puts d e) t)
    (hx : x ≠ c) : recvd x t = [] := by
  refine recvd_eq_nil h ?_
  rintro ⟨o, r⟩ he hn
  cases o <;> simp_all [reads, puts, readsFrom]

theorem sent_other {t : Trace ι ε δ} {c d x : ι} (h : Only (fun e => reads c e ∨ puts d e) t)
    (hx : x ≠ d) : sent x t = [] := by
  refine sent_eq_nil h ?_
  rintro ⟨o, r⟩ he hn
  cases o <;> simp_all [reads, puts, writesTo]

end Streams

/-! ### What a writer still holds -/

section Buffers

variable [DecidableEq ι]

/-- The buffer of the writer of `c` after one more event: only a flush is sure to empty it. -/
def hold (c : ι) (buf : Bytes) : Event (Resp ι ε δ) → Bytes
  | ⟨.write c' bs, g⟩ => if c' = c then buf ++ g.taken bs else buf
  | ⟨.flush c', .done⟩ => if c' = c then [] else buf
  | _ => buf

def held (c : ι) (buf : Bytes) (t : Trace ι ε δ) : Bytes := t.foldl (hold c) buf

/-- Whenever an event of the kind `S` comes up, the buffer of `c` is empty. -/
def Quiet (S : Event (Resp ι ε δ) → Prop) (c : ι) : Bytes → Trace ι ε δ → Prop
  | _, [] => True
  | buf, e :: t => (S e → buf = []) ∧ Quiet S c (hold c buf e) t

variable {S : Event (Resp ι ε δ) → Prop} {c : ι} {buf : Bytes} {t u : Trace ι ε δ}

@[simp] theorem held_nil : held c buf ([] : Trace ι ε δ) = buf := rfl

@[simp] theorem held_append : held c buf (t ++ u) = held c (held c buf t) u := List.foldl_append

@[simp] theorem quiet_append :
    Quiet S c buf (t ++ u) ↔ Quiet S c buf t ∧ Quiet S c (held c buf t) u := by
  induction t generalizing buf with
  | nil => simp [Quiet]
  | cons e t ih => simp [Quiet, ih, and_assoc, held]

theorem held_of_only (h : Only (fun e => ¬ puts c e) t) : held c buf t = buf := by
  induction t generalizing buf with
  | nil => rfl
  | cons e t ih =>
    rw [only_cons] at h
    have he : hold c buf e = buf := by
      obtain ⟨o, r⟩ := e
      cases o with
      | write d bs => exact if_neg h.1
      | flush d =>
        cases r with
        | done => exact if_neg h.1
        | fault f => rfl
      | _ => rfl
    show held c (hold c buf e) t = buf
    rw [he, ih h.2]

theorem quiet_of_only (h : Only (fun e => ¬ S e) t) : Quiet S c buf t := by
  induction t generalizing buf with
  | nil => trivial
  | cons e t ih =>
    rw [only_cons] at h
    exact ⟨fun he => absurd he h.1, ih h.2⟩

/-- As long as nothing is written, an empty buffer stays empty. -/
theorem quiet_nil_of_only (h : Only (fun e => ¬ puts c e) t) : Quiet S c [] t := by
  induction t with
  | nil => trivial
  | cons e t ih =>
    rw [only_cons] at h
    refine ⟨fun _ => rfl, ?_⟩
    rw [show hold c [] e = [] from
      held_of_only (t := [e]) (by rw [only_cons]; exact ⟨h.1, only_nil⟩)]
    exact ih h.2

theorem Quiet.mono {S' : Event (Resp ι ε δ) → Prop} (h : Quiet S c buf t)
    (hs : ∀ e, S' e → S e) : Quiet S' c buf t := by
  induction t generalizing buf with
  | nil => trivial
  | cons e t ih => exact ⟨fun he => h.1 (hs e he), ih h.2⟩

end Buffers

/-! ### What a trace says about the hook -/

/-- What the hook was asked, in order. -/
def asked (t : Trace ι ε δ) : List Bytes :=
  t.filterMap (fun | ⟨.ask q, _⟩ => Option.some q | _ => none)

/-- The questions with their answers. -/
def asks (t : Trace ι ε δ) : List (Bytes × Answer δ) :=
  t.filterMap (fun | ⟨.ask q, a⟩ => Option.some (q, a) | _ => none)

@[simp] theorem asks_nil : asks ([] : Trace ι ε δ) = [] := rfl

@[simp] theorem asks_append (t u : Trace ι ε δ) : asks (t ++ u) = asks t ++ asks u :=
  List.filterMap_append

/-- What the hook answered, in order. -/
def answered (t : Trace ι ε δ) : List (Answer δ) :=
  t.filterMap (fun | ⟨.ask _, a⟩ => Option.some a | _ => none)

theorem answered_eq (t : Trace ι ε δ) : answered t = (asks t).map Prod.snd := by
  rw [answered, asks, List.map_filterMap]
  congr 1
  funext e
  obtain ⟨o, r⟩ := e
  cases o <;> rfl

@[simp] theorem asked_nil : asked ([] : Trace ι ε δ) = [] := rfl
@[simp] theorem answered_nil : answered ([] : Trace ι ε δ) = [] := rfl

@[simp] theorem asked_append (t u : Trace ι ε δ) : asked (t ++ u) = asked t ++ asked u :=
  List.filterMap_append

@[simp] theorem answered_append (t u : Trace ι ε δ) :
    answered (t ++ u) = answered t ++ answered u := List.filterMap_append

/-- Events of connections, none of the hook. -/
def onWire : Event (Resp ι ε δ) → Prop
  | ⟨.read _ _, _⟩ | ⟨.readSome _ _, _⟩ | ⟨.write _ _, _⟩ | ⟨.flush _, _⟩ => True
  | _ => False

theorem asks_eq_nil {t : Trace ι ε δ} (h : Only onWire t) : asks t = [] := by
  refine List.filterMap_eq_nil_iff.mpr fun e he => ?_
  have hn := h e he
  obtain ⟨o, r⟩ := e
  cases o with
  | ask q => exact hn.elim
  | _ => rfl

theorem onWire_of_reads_or_puts {c d : ι} {e : Event (Resp ι ε δ)} (h : reads c e ∨ puts d e) :
    onWire e := by
  obtain ⟨o, r⟩ := e
  cases o <;> simp_all [reads, puts, onWire]

theorem answered_eq_nil {t : Trace ι ε δ} (h : Only onWire t) : answered t = [] := by
  rw [answered_eq, asks_eq_nil h, List.map_nil]

/-! ### The world behind the calls -/

/-- One side of a connection: what it will send, how that ends, and how much it takes
(a unit per byte written and per flush) before it lets the writer down. -/
structure Peer (ε : Type) where
  incoming : Bytes
  ending : Ending ε
  credit : Option Nat
  refusal : Fault ε

/-- A peer that sends `bs`, then closes, and takes everything. -/
def Peer.script (bs : Bytes) : Peer ε := ⟨bs, .eof, none, .silent⟩

structure World (ι ε δ : Type) where
  peers : ι → Peer ε
  dials : List (Except (Fault ε) (Peer ε))
  answers : List (Answer δ)

namespace World

variable [DecidableEq ι]

def setPeer (w : World ι ε δ) (c : ι) (p : Peer ε) : World ι ε δ :=
  { w with peers := Function.update w.peers c p }

/-- Take `k` units of credit from `c`. -/
def spend (w : World ι ε δ) (c : ι) (left : Nat) : World ι ε δ :=
  w.setPeer c { w.peers c with credit := Option.some left }

/-- How the world answers. A dial or a question it has no answer for never completes. -/
def step : Env (Resp ι ε δ) (World ι ε δ)
  | .read c n, w =>
    let p := w.peers c
    if h : n ≤ p.incoming.length then
      (.full (p.incoming.take n) (by rw [List.length_take]; omega),
        w.setPeer c { p with incoming := p.incoming.drop n })
    else (.short p.incoming (by omega) p.ending, w.setPeer c { p with incoming := [] })
  | .readSome c n, w =>
    let p := w.peers c
    if h : 0 < (p.incoming.take n).length then
      (.some (p.incoming.take n) h (List.length_take_le ..),
        w.setPeer c { p with incoming := p.incoming.drop n })
    else (.ended p.ending, w)
  | .write c bs, w =>
    match (w.peers c).credit with
    | none => (.done, w)
    | Option.some k =>
      if h : k < bs.length then (.cut k h (w.peers c).refusal, w.spend c 0)
      else (.done, w.spend c (k - bs.length))
  | .flush c, w =>
    match (w.peers c).credit with
    | none => (.done, w)
    | Option.some 0 => (.fault (w.peers c).refusal, w)
    | Option.some (k+1) => (.done, w.spend c k)
  | .dial c, w =>
    match w.dials with
    | [] => (.fault .silent, w)
    | .error f :: ds => (.fault f, { w with dials := ds })
    | .ok p :: ds => (.done, { w.setPeer c p with dials := ds })
  | .ask _, w =>
    match w.answers with
    | [] => (.silent, w)
    | a :: as => (a, { w with answers := as })
  | .note _, w => ((), w)

theorem setPeer_peers (w : World ι ε δ) (c d : ι) (p : Peer ε) :
    (w.setPeer c p).peers d = if d = c then p else w.peers d := by
  simp [setPeer, Function.update_apply]

@[simp] theorem setPeer_answers (w : World ι ε δ) (c : ι) (p : Peer ε) :
    (w.setPeer c p).answers = w.answers := rfl

end World

/-- The event neither failed nor stopped short. Opening a connection does not count:
it replaces the peer. -/
def clean : Event (Resp ι ε δ) → Prop
  | ⟨.read _ _, .full _ _⟩ => True
  | ⟨.readSome _ n, .some bs _ _⟩ => bs.length = n
  | ⟨.write _ _, .done⟩ => True
  | ⟨.flush _, .done⟩ => True
  | ⟨.ask _, _⟩ => True
  | ⟨.note _, _⟩ => True
  | _ => False

instance : DecidablePred (clean : Event (Resp ι ε δ) → Prop)
  | ⟨.read _ _, .full _ _⟩ => isTrue trivial
  | ⟨.read _ _, .short _ _ _⟩ => isFalse id
  | ⟨.readSome _ n, .some bs _ _⟩ => inferInstanceAs (Decidable (bs.length = n))
  | ⟨.readSome _ _, .ended _⟩ => isFalse id
  | ⟨.write _ _, .done⟩ => isTrue trivial
  | ⟨.write _ _, .cut _ _ _⟩ => isFalse id
  | ⟨.flush _, .done⟩ => isTrue trivial
  | ⟨.flush _, .fault _⟩ => isFalse id
  | ⟨.dial _, _⟩ => isFalse id
  | ⟨.ask _, _⟩ => isTrue trivial
  | ⟨.note _, _⟩ => isTrue trivial

/-- The event replaces the peer of `c`. -/
def dials (c : ι) : Event (Resp ι ε δ) → Prop
  | ⟨.dial c', _⟩ => c' = c
  | _ => False

section World

variable [DecidableEq ι]

open World

theorem step_incoming (w : World ι ε δ) (o : Call ι) (c : ι)
    (hd : ¬ dials c ⟨o, (step o w).1⟩) :
    (w.peers c).incoming = eventRecvd c ⟨o, (step o w).1⟩ ++ ((step o w).2.peers c).incoming := by
  cases o with
  | read d n =>
    by_cases h : n ≤ (w.peers d).incoming.length <;> by_cases hc : c = d
    · subst hc; simp [step, eventRecvd, h, Got.bytes, setPeer_peers]
    · simp [step, eventRecvd, h, setPeer_peers, hc, Ne.symm hc]
    · subst hc; simp [step, eventRecvd, h, Got.bytes, setPeer_peers]
    · simp [step, eventRecvd, h, setPeer_peers, hc, Ne.symm hc]
  | readSome d n =>
    by_cases h : 0 < ((w.peers d).incoming.take n).length <;> by_cases hc : c = d
    · subst hc; simp only [step, h, ↓reduceDIte, eventRecvd, Chunk.bytes, setPeer_peers]; simp
    · simp only [step, h, ↓reduceDIte, eventRecvd, setPeer_peers]; simp [hc, Ne.symm hc]
    · simp only [step, h, ↓reduceDIte, eventRecvd, Chunk.bytes]; simp
    · simp only [step, h, ↓reduceDIte, eventRecvd, Chunk.bytes]; simp
  | write d bs =>
    simp only [step, eventRecvd, List.nil_append]
    split
    · rfl
    · split <;> simp only [spend, setPeer_peers] <;> split <;> simp_all
  | flush d =>
    simp only [step, eventRecvd, List.nil_append]
    split <;> simp only [spend, setPeer_peers]
    split <;> simp_all
  | dial d =>
    simp only [step, eventRecvd, List.nil_append]
    split
    · rfl
    · rfl
    · have hcd : c ≠ d := fun h => hd h.symm
      simp [setPeer_peers, hcd]
  | ask q => simp only [step, eventRecvd, List.nil_append]; split <;> rfl
  | note s => rfl

/-- Every byte a reader has lost was received in the trace. -/
theorem follows_recvd {w w' : World ι ε δ} {t : Trace ι ε δ} (c : ι) (h : Follows step w t w')
    (hd : Only (fun e => ¬ dials c e) t) :
    (w.peers c).incoming = recvd c t ++ (w'.peers c).incoming := by
  induction t generalizing w with
  | nil => simp [Follows] at h; simp [h]
  | cons e t ih =>
    obtain ⟨o, r⟩ := e
    obtain ⟨hr, hf⟩ := h
    change (step o w).1 = r at hr
    subst hr
    rw [only_cons] at hd
    rw [step_incoming w o c hd.1, recvd_cons, ih hf hd.2, List.append_assoc]

/-- How much the peers still to be dialled would send. -/
def dialSupply : List (Except (Fault ε) (Peer ε)) → Nat
  | [] => 0
  | .ok p :: ds => p.incoming.length + dialSupply ds
  | .error _ :: ds => dialSupply ds

/-- How much can ever come from peers of `c`. -/
def World.supply (w : World ι ε δ) (c : ι) : Nat :=
  (w.peers c).incoming.length + dialSupply w.dials

theorem step_dials (w : World ι ε δ) (o : Call ι) :
    dialSupply (step o w).2.dials ≤ dialSupply w.dials := by
  cases o with
  | dial d =>
    simp only [step]
    split
    · exact Nat.le_refl _
    · rename_i h
      rw [h]
      exact Nat.le_refl _
    · rename_i h
      rw [h]
      exact Nat.le_add_left ..
  | read d n =>
    simp only [step]
    split <;> exact Nat.le_refl _
  | readSome d n =>
    simp only [step]
    split <;> exact Nat.le_refl _
  | write d bs =>
    simp only [step]
    split
    · exact Nat.le_refl _
    · split <;> exact Nat.le_refl _
  | flush d =>
    simp only [step]
    split <;> exact Nat.le_refl _
  | ask q =>
    simp only [step]
    split <;> exact Nat.le_refl _
  | note s => exact Nat.le_refl _

theorem step_supply (w : World ι ε δ) (o : Call ι) (c : ι) :
    (eventRecvd c ⟨o, (step o w).1⟩).length + (step o w).2.supply c ≤ w.supply c := by
  by_cases hd : dials c ⟨o, (step o w).1⟩
  · cases o with
    | dial d =>
      obtain rfl : d = c := hd
      simp only [step, eventRecvd, supply]
      split
      · simp
      · simp [*, dialSupply]
      · simp [*, dialSupply, setPeer_peers]
    | read d n => exact hd.elim
    | readSome d n => exact hd.elim
    | write d bs => exact hd.elim
    | flush d => exact hd.elim
    | ask q => exact hd.elim
    | note s => exact hd.elim
  · have hin := congrArg List.length (step_incoming w o c hd)
    have hds := step_dials w o
    rw [List.length_append] at hin
    simp only [supply]
    omega

/-- What is received on `c` and what is still to come are no more than there was. -/
theorem follows_supply {w w' : World ι ε δ} {t : Trace ι ε δ} (c : ι) (h : Follows step w t w') :
    (recvd c t).length + w'.supply c ≤ w.supply c := by
  induction t generalizing w with
  | nil =>
    obtain rfl : w' = w := h
    simp
  | cons e t ih =>
    obtain ⟨o, r⟩ := e
    obtain ⟨hr, hf⟩ := h
    change (step o w).1 = r at hr
    change Follows step (step o w).2 t w' at hf
    subst hr
    have hs := step_supply w o c
    have ht := ih hf
    rw [recvd_cons, List.length_append]
    omega

/-- The world with what is still to come replaced. -/
def World.left (w : World ι ε δ) (rest : ι → Bytes) (as : List (Answer δ)) : World ι ε δ :=
  { w with peers := fun c => { w.peers c with incoming := rest c }, answers := as }

omit [DecidableEq ι] in
theorem eq_left {w : World ι ε δ} {rest : ι → Bytes} {as : List (Answer δ)}
    (h : ∀ c, (w.peers c).incoming = rest c) (ha : w.answers = as) : w = w.left rest as := by
  obtain ⟨ps, ds, an⟩ := w
  subst ha
  simp only [World.left]
  congr 1
  funext c
  rw [← h c]

theorem setPeer_eq_left {w : World ι ε δ} {d : ι} {rest : ι → Bytes} {as : List (Answer δ)}
    (h : ∀ c, c ≠ d → (w.peers c).incoming = rest c) (ha : w.answers = as) :
    w.setPeer d { w.peers d with incoming := rest d } = w.left rest as := by
  obtain ⟨ps, ds, an⟩ := w
  subst ha
  simp only [setPeer, World.left]
  congr 1
  funext c
  by_cases hc : c = d
  · subst hc; simp
  · rw [Function.update_of_ne hc, ← h c hc]

theorem step_clean {w : World ι ε δ} {e : Event (Resp ι ε δ)} {rest : ι → Bytes}
    {as : List (Answer δ)} (hc : clean e)
    (hin : ∀ c, (w.peers c).incoming = eventRecvd c e ++ rest c)
    (hcr : ∀ c, (w.peers c).credit = none) (ha : w.answers = answered [e] ++ as) :
    step e.1 w = (e.2, w.left rest as) := by
  obtain ⟨o, r⟩ := e
  cases o with
  | read d n =>
    cases r with
    | short bs hb en => exact hc.elim
    | full bs hb =>
      have hd : (w.peers d).incoming = bs ++ rest d := by simpa [eventRecvd, Got.bytes] using hin d
      have ho : ∀ c, c ≠ d → (w.peers c).incoming = rest c := fun c h => by
        simpa [eventRecvd, Ne.symm h] using hin c
      change w.answers = as at ha
      clear hc hin
      obtain rfl : n = bs.length := hb.symm
      simp only [step, hd, List.length_append, Nat.le_add_right, ↓reduceDIte, List.take_left,
        List.drop_left]
      exact Prod.ext rfl (setPeer_eq_left ho ha)
  | readSome d n =>
    cases r with
    | ended en => exact hc.elim
    | some bs hb hn =>
      change bs.length = n at hc
      have hd : (w.peers d).incoming = bs ++ rest d := by
        simpa [eventRecvd, Chunk.bytes] using hin d
      have ho : ∀ c, c ≠ d → (w.peers c).incoming = rest c := fun c h => by
        simpa [eventRecvd, Ne.symm h] using hin c
      change w.answers = as at ha
      clear hin
      subst hc
      simp only [step, hd, List.take_left, List.drop_left, hb, ↓reduceDIte]
      exact Prod.ext rfl (setPeer_eq_left ho ha)
  | write d bs =>
    cases r with
    | cut k hk f => exact hc.elim
    | done =>
      simp only [step, hcr d]
      exact Prod.ext rfl (eq_left hin ha)
  | flush d =>
    cases r with
    | fault f => exact hc.elim
    | done =>
      simp only [step, hcr d]
      exact Prod.ext rfl (eq_left hin ha)
  | dial d => exact hc.elim
  | ask q =>
    change w.answers = r :: as at ha
    simp only [step, ha]
    refine Prod.ext rfl ?_
    exact eq_left (w := { w with answers := as }) hin rfl
  | note s => exact Prod.ext rfl (eq_left hin ha)

/-- A world whose connections take everything answers along any clean trace it has the
bytes and the hook's answers for. -/
theorem follows_of_clean {w : World ι ε δ} {t : Trace ι ε δ} {rest : ι → Bytes}
    {as : List (Answer δ)} (hc : Only clean t)
    (hin : ∀ c, (w.peers c).incoming = recvd c t ++ rest c)
    (hcr : ∀ c, (w.peers c).credit = none) (ha : w.answers = answered t ++ as) :
    Follows step w t (w.left rest as) := by
  induction t generalizing w with
  | nil =>
    obtain ⟨ps, ds, an⟩ := w
    simp only [Follows, World.left, recvd_nil, List.nil_append, answered_nil] at *
    subst ha
    congr 1
    funext c
    rw [← hin c]
  | cons e t ih =>
    rw [only_cons] at hc
    have hs : step e.1 w = (e.2, w.left (fun c => recvd c t ++ rest c) (answered t ++ as)) :=
      step_clean hc.1 (fun c => by rw [hin c, recvd_cons, List.append_assoc]) hcr
        (by rw [ha, ← List.append_assoc, ← answered_append]; rfl)
    refine ⟨by rw [hs], ?_⟩
    rw [hs]
    exact ih (w := w.left _ _) hc.2 (fun _ => rfl) hcr rfl

/-- Every peer, and every peer that can be dialled, takes whatever it is sent. -/
structure World.Generous (w : World ι ε δ) : Prop where
  peers : ∀ c, (w.peers c).credit = none
  dials : ∀ p, .ok p ∈ w.dials → p.credit = none

theorem World.Generous.setPeer {w : World ι ε δ} (h : w.Generous) (c : ι) {p : Peer ε}
    (hp : p.credit = none) : (w.setPeer c p).Generous where
  peers d := by
    rw [setPeer_peers]
    split
    · exact hp
    · exact h.peers d
  dials := h.dials

theorem step_generous {w : World ι ε δ} (h : w.Generous) (o : Call ι) :
    (step o w).2.Generous ∧ ∀ c, puts c ⟨o, (step o w).1⟩ → clean ⟨o, (step o w).1⟩ := by
  cases o with
  | read c n =>
    refine ⟨?_, fun d hd => hd.elim⟩
    unfold step
    dsimp only
    split
    · exact h.setPeer c (h.peers c)
    · exact h.setPeer c (h.peers c)
  | readSome c n =>
    refine ⟨?_, fun d hd => hd.elim⟩
    unfold step
    dsimp only
    split
    · exact h.setPeer c (h.peers c)
    · exact h
  | write c bs =>
    simp only [step, h.peers c]
    exact ⟨h, fun _ _ => trivial⟩
  | flush c =>
    simp only [step, h.peers c]
    exact ⟨h, fun _ _ => trivial⟩
  | dial c =>
    refine ⟨?_, fun d hd => hd.elim⟩
    simp only [step]
    split
    · exact h
    · rename_i f ds hd
      exact ⟨h.peers, fun p hp => h.dials p (by rw [hd]; exact .tail _ hp)⟩
    · rename_i p ds hd
      have hp : p.credit = none := h.dials p (by rw [hd]; exact .head _)
      exact ⟨(h.setPeer c hp).peers, fun q hq => h.dials q (by rw [hd]; exact .tail _ hq)⟩
  | ask q =>
    refine ⟨?_, fun d hd => hd.elim⟩
    simp only [step]
    split
    · exact h
    · exact ⟨h.peers, h.dials⟩
  | note s => exact ⟨h, fun d hd => hd.elim⟩

/-- In such a world no write and no flush fails. -/
theorem follows_generous {w w' : World ι ε δ} {t : Trace ι ε δ} (h : w.Generous)
    (hf : Follows step w t w') (c : ι) : Only (fun e => puts c e → clean e) t := by
  induction t generalizing w with
  | nil => simp
  | cons e t ih =>
    obtain ⟨o, r⟩ := e
    obtain ⟨hr, hf⟩ := hf
    change (step o w).1 = r at hr
    subst hr
    obtain ⟨hg, hc⟩ := step_generous h o
    rw [only_cons]
    exact ⟨hc c, ih hg hf⟩

end World

end Interaction
