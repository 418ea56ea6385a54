import Claudepod.Monitor
import Claudepod.Opening

/-! No request and no reply is left in a write buffer while the proxy waits: whenever it
reads from a peer, everything written to that peer has been flushed. -/

set_option autoImplicit false

namespace Claudepod
open Interaction Monitor

/-- The buffers of the writers. -/
abbrev Buffers := Leg → Bytes

/-- Waiting for the next op word. -/
def awaitsOp : IoEvent → Prop
  | ⟨.readSome c _, _⟩ => c = .guest
  | _ => False

instance : DecidablePred awaitsOp
  | ⟨.readSome c _, _⟩ => inferInstanceAs (Decidable (c = .guest))
  | ⟨.read _ _, _⟩ | ⟨.write _ _, _⟩ | ⟨.flush _, _⟩ | ⟨.dial _, _⟩ | ⟨.ask _, _⟩ | ⟨.note _, _⟩ =>
    isFalse id

/-- Demands that a reader of `watched` waits only with an empty buffer of its writer, and
that the next op word is awaited with nothing unflushed on either side. -/
def bufferMonitor (watched : List Leg) : Monitor (Resp Leg IoError Error) Buffers where
  step b e := fun c => hold c (b c) e
  rely _ := True
  guar b e := (∀ c ∈ watched, readsFrom c e → b c = []) ∧
    (awaitsOp e → b .guest = [] ∧ b .host = [])

/-- The listed buffers are empty. -/
def Flushed (legs : List Leg) (b : Buffers) : Prop := ∀ c ∈ legs, b c = []

theorem Flushed.mono {l l' : List Leg} {b : Buffers} (h : Flushed l b) (hl : l' ⊆ l) :
    Flushed l' b := fun c hc => h c (hl hc)

theorem hold_of_not_puts {c : Leg} {e : IoEvent} (h : ¬ puts c e) (buf : Bytes) :
    hold c buf e = buf := held_of_only (t := [e]) (by simpa using h)

/-- Reading where it is flushed and writing elsewhere. -/
structure Tidy (watched legs : List Leg) (e : IoEvent) : Prop where
  read : ∀ c ∈ watched, readsFrom c e → c ∈ legs
  write : ∀ c ∈ legs, ¬ puts c e
  op : ¬ awaitsOp e

/-- Run with the buffers of `before` empty, `p` waits as demanded and leaves those of
`after` empty. -/
def Waits (watched before : List Leg) {α : Type} (p : Async α) (after : List Leg) : Prop :=
  (bufferMonitor watched).Triple (Flushed before) p (fun _ => Flushed after) (fun _ => True)

namespace Waits

variable {watched l l' m : List Leg} {α β : Type} {p : Async α} {f : α → Async β}
  {F : Format α}

theorem bind (hp : Waits watched l p m) (hf : ∀ a, Waits watched m (f a) l') :
    Waits watched l (p >>= f) l' := Triple.bind hp hf

theorem mapStop {g : Stop → Stop} (hp : Waits watched l p l') :
    Waits watched l (Comp.mapStop g p) l' := Triple.mapStop hp

theorem ite {P : Prop} [Decidable P] {q : Async α} (hp : Waits watched l p l')
    (hq : Waits watched l q l') : Waits watched l (if P then p else q) l' :=
  Triple.ite (fun _ => hp) fun _ => hq

theorem pure (a : α) : Waits watched l (Pure.pure a : Async α) l := Triple.pure fun _ => id

theorem throw (e : Stop) : Waits watched l (throw e : Async α) l' := Triple.throw fun _ _ => trivial

/-- Fewer buffers are known to be empty than are. -/
theorem pre (h : Waits watched m p l') (hl : m ⊆ l) : Waits watched l p l' :=
  Triple.pre h fun _ hb => hb.mono hl

theorem of_tidy (h : Comp.ActsIn (Tidy watched l) p) : Waits watched l p l :=
  Triple.conseq (Triple.of_acts h fun b e hb he _ =>
    ⟨⟨fun c hc hr => hb c (he.read c hc hr), fun ho => absurd ho he.op⟩,
      fun c hc => by rw [show (bufferMonitor watched).step b e c = hold c (b c) e from rfl,
        hold_of_not_puts (he.write c hc), hb c hc]⟩) (fun _ => id) (fun _ _ => id)
    fun _ _ => trivial

theorem tidy_of_reads {c : Leg} {e : IoEvent} (h : reads c e) (hc : c ∈ l) :
    Tidy watched l e where
  read x _ hx := readsFrom_eq h hx ▸ hc
  write _ _ := not_puts_of_readsFrom (readsFrom_of_reads h)
  op ho := by
    obtain ⟨o, r⟩ := e
    cases o with
    | readSome c n => exact h.elim
    | _ => exact ho.elim

theorem tidy_of_puts {d : Leg} {e : IoEvent} (h : puts d e) (hd : d ∉ l) : Tidy watched l e where
  read x _ hx := absurd h (not_puts_of_readsFrom hx)
  write x hx hp := hd (puts_eq h hp ▸ hx)
  op ho := by
    obtain ⟨o, r⟩ := e
    cases o with
    | readSome c n => exact h.elim
    | _ => exact ho.elim

theorem of_reads_or_puts {c d : Leg} (h : Comp.ActsIn (fun e => reads c e ∨ puts d e) p)
    (hc : c ∈ l) (hd : d ∉ l) : Waits watched l p l :=
  of_tidy (h.mono fun _ he => he.elim (fun h => tidy_of_reads h hc) fun h => tidy_of_puts h hd)

theorem of_reads {c : Leg} (h : Comp.ActsIn (reads c) p) (hc : c ∈ l) : Waits watched l p l :=
  of_tidy (h.mono fun _ he => tidy_of_reads he hc)

theorem of_puts {d : Leg} (h : Comp.ActsIn (puts d) p) (hd : d ∉ l) : Waits watched l p l :=
  of_tidy (h.mono fun _ he => tidy_of_puts he hd)

/-- A flush empties a buffer. -/
theorem flush {k : List Leg} (c : Leg) (hl : ∀ x ∈ k, x ≠ c → x ∈ l) :
    Waits watched l (flush c) k := by
  refine Triple.bind (Triple.perform (Q := fun a b => a = .done → Flushed k b)
    fun b a hb _ => ⟨⟨fun x _ hr => hr.elim, nofun⟩, ?_⟩) fun a => ?_
  · rintro rfl x hx
    show hold x (b x) (⟨.flush c, .done⟩ : IoEvent) = []
    by_cases hxc : c = x
    · exact if_pos hxc
    · exact (if_neg hxc).trans (hb x (hl x hx fun h => hxc h.symm))
  · cases a with
    | done => exact .pure fun b hb => hb rfl
    | fault f => exact .throw fun _ _ => trivial

end Waits

/-! ### The handshakes -/

section Handshakes

variable {watched l : List Leg} {c : Leg}

theorem writeU64_waits (hc : c ∉ l) (w : UInt64) : Waits watched l (writeU64 c w) l :=
  .of_puts (writeU64_emits c w).acts hc

theorem hello_waits (hc : c ∉ l) (magic : UInt64) (version : Version) :
    Waits watched l (hello c magic version) (c :: l) :=
  (writeU64_waits hc magic).bind fun _ => (writeU64_waits hc _).bind fun _ =>
    .flush c (by simp +contextual)

theorem upstream_waits (hc : c ∉ l) (advertised : List Bytes) :
    Waits watched (c :: l) (upstream advertised c) (c :: l) := by
  rw [upstream_eq]
  refine ((hello_waits hc _ _).pre (List.subset_cons_self ..)).bind fun _ => ?_
  refine (Waits.of_reads (daemonVersion_decodes c).acts (.head _)).bind fun version => ?_
  refine .ite ?_ (.pure _)
  refine ((Waits.of_puts (writeStringList_emits c advertised).acts hc).pre
    (List.subset_cons_self ..)).bind fun _ => ?_
  refine (Waits.flush (k := c :: l) c (by simp +contextual)).bind fun _ => ?_
  exact (Waits.of_reads (readFeatures_decodes c).acts (.head _)).bind fun _ => .pure _

theorem downstream_waits (hc : c ∉ l) (n : Negotiated) :
    Waits watched (c :: l) (downstream c n) (c :: l) := by
  rw [downstream_eq]
  refine ((hello_waits hc _ _).pre (List.subset_cons_self ..)).bind fun _ => ?_
  refine (Waits.of_reads (clientVersion_decodes c n).acts (.head _)).bind fun _ => ?_
  refine .ite ?_ (.pure _)
  refine (Waits.of_reads (readFeatures_decodes c).acts (.head _)).bind fun features => ?_
  refine ((Waits.of_puts (writeStringList_emits c n.features.items).acts hc).pre
    (List.subset_cons_self ..)).bind fun _ => ?_
  refine (Waits.flush (k := c :: l) c (by simp +contextual)).bind fun _ => ?_
  exact .of_reads (checkFeatures_decodes c features _).acts (.head _)

end Handshakes

/-! ### The session -/

/-- The peers of a session. -/
abbrev bothLegs : List Leg := [.guest, .host]

theorem refuse_waits {α : Type} {l l' : List Leg} (text : String) (err : Error) :
    Waits bothLegs l (refuse .guest text err : Async α) l' :=
  ((Waits.of_puts (l := []) (writeError_emits .guest text).acts.attempt (by simp)).pre
    (List.nil_subset _)).bind fun _ => .throw _

theorem orSyntheticError_waits {α : Type} {l : List Leg} {name : String} {p : Async α}
    (h : Comp.ActsIn (Tidy bothLegs l) p) : Waits bothLegs l (orSyntheticError name p) l :=
  (Waits.of_tidy h.mapStop.attempt).bind fun
    | .ok a => .pure a
    | .error _ => refuse_waits _ _

theorem handshakes_waits (advertised : List Bytes) :
    Waits bothLegs bothLegs (handshakes advertised) bothLegs := by
  refine (Waits.of_reads (guestMagic_decodes .guest).acts (.head _)).mapStop.mapStop.bind
    fun _ => ?_
  refine (Waits.of_tidy (dial_acts fun _ => ⟨fun _ _ h => h.elim, fun _ _ h => h,
    nofun⟩)).mapStop.bind fun _ => ?_
  refine Waits.bind (m := [.host, .guest]) ?_ fun n => ?_
  · exact ((upstream_waits (l := [.guest]) (by decide) advertised).pre (by decide)).mapStop
  refine Waits.bind (m := [.guest, .host]) ?_ fun _ => .pure _
  exact ((downstream_waits (l := [.host]) (by decide) n).pre (by decide)).mapStop.mapStop

theorem postHandshake_waits : Waits bothLegs bothLegs postHandshake bothLegs :=
  ((Waits.of_reads_or_puts (l := [.guest]) clientFields_copies.acts (by decide)
    (by decide)).pre (by decide)).mapStop.mapStop.bind fun _ => .flush .host (by decide)

theorem greeting_waits (fuel : Nat) : Waits bothLegs bothLegs (greeting fuel) bothLegs := by
  rw [greeting_eq]
  refine ((Waits.of_reads_or_puts (l := [.host]) header_copies.acts (by decide)
    (by decide)).pre (by decide)).bind fun _ => ?_
  exact (Waits.of_reads_or_puts (relayInner_acts .host .guest true fuel) (by decide)
    (by decide)).mapStop.bind fun _ => .flush .guest (by decide)

theorem elsewhere_waits {α : Type} {l : List Leg} (hl : l ⊆ bothLegs) {p : Async α}
    (h : Comp.ActsIn elsewhere p) : Waits bothLegs l p l := by
  have hb : ∀ {c : Leg}, c ∈ bothLegs → ¬ (c ≠ .guest ∧ c ≠ .host) := by decide
  refine .of_tidy (h.mono fun e he => ⟨fun c hc hr => ?_, fun c hc hp => ?_, fun ho => ?_⟩)
  · obtain ⟨o, r⟩ := e
    cases o with
    | read d n => exact absurd (hr ▸ he) (hb hc)
    | readSome d n => exact absurd (hr ▸ he) (hb hc)
    | _ => exact hr.elim
  · obtain ⟨o, r⟩ := e
    cases o with
    | write d bs => exact absurd (hp ▸ he) (hb (hl hc))
    | flush d => exact absurd (hp ▸ he) (hb (hl hc))
    | _ => exact hp.elim
  · obtain ⟨o, r⟩ := e
    cases o with
    | readSome d n => exact he.1 ho
    | _ => exact ho.elim

theorem warn_elsewhere (path : Bytes) (reason : String) :
    Comp.ActsIn elsewhere (warnOnDemandFill path reason) :=
  Comp.ActsIn.perform (o := Call.note _) fun _ => trivial

theorem recheck_waits (fuel : Nat) (path : Bytes) :
    Waits bothLegs [.host] (recheckIsValidPath fuel path) [.host] := by
  refine ((writeU64_waits (by decide) _).pre (List.nil_subset _)).bind fun _ => ?_
  refine (Waits.of_puts (writeString_emits .host path).acts (by decide)).bind fun _ => ?_
  refine (Waits.flush (k := [.host]) .host (by decide)).bind fun _ => ?_
  refine (Waits.of_reads (drainToTerminal_acts fuel .host) (.head _)).mapStop.bind fun
    | .last => ?_
    | .error _ => .pure _
  exact (Waits.of_reads (readU64_decodes .host).acts (.head _)).mapStop.bind fun _ => .pure _

theorem intercept_waits (setup : Setup) :
    Waits bothLegs [.guest] (interceptIsValidPath setup) [.host] := by
  have htell : ∀ valid, Waits bothLegs [.host] (writeIsValidPathResult valid) [.host] :=
    fun valid => .of_puts (writeIsValidPathResult_emits valid).acts (by decide)
  have hwarn : ∀ path reason, Waits bothLegs [.host] (warnOnDemandFill path reason >>= fun _ =>
      writeIsValidPathResult false) [.host] := fun path reason =>
    (elsewhere_waits (by decide) (warn_elsewhere path reason)).bind fun _ => htell false
  have hargs : Comp.ActsIn (Tidy bothLegs [.guest]) copyPath :=
    copyPath_copies.acts.mono fun _ he =>
      he.elim (fun h => Waits.tidy_of_reads h (.head _)) fun h => Waits.tidy_of_puts h (by decide)
  refine (orSyntheticError_waits hargs).bind fun path => ?_
  refine (Waits.flush (k := [.host]) .host (by decide)).bind fun _ => ?_
  refine (Waits.of_reads_or_puts (relayInner_acts .host .guest false setup.fuel) (by decide)
    (by decide)).mapStop.bind fun terminal => ?_
  refine .ite (.pure _) ?_
  refine (Waits.of_reads (readU64_decodes .host).acts (.head _)).mapStop.bind fun hostValid => ?_
  refine .ite (htell true) (.ite (htell false) ?_)
  refine (elsewhere_waits (by decide) (setup.separate path).attempt).bind fun
    | .error err => hwarn path _
    | .ok () => (recheck_waits setup.fuel path).bind fun
      | .valid => htell true
      | .invalid => hwarn path _
      | .daemonError message => hwarn path _

theorem relayReply_waits (fuel : Nat) (op : Op) (n : Negotiated) :
    Waits bothLegs [.host] (relayReply fuel op n) [.host] :=
  (Waits.of_reads_or_puts (relayInner_acts .host .guest true fuel) (by decide)
    (by decide)).mapStop.bind fun _ => .ite (Waits.of_reads_or_puts
      (copyResult_copies op n .host .guest).acts (by decide) (by decide)).mapStop (.pure _)

theorem serveOp_waits (setup : Setup) (n : Negotiated) (word : UInt64) :
    Waits bothLegs bothLegs (serveOp setup n word) bothLegs := by
  cases ho : Op.allowed word with
  | none =>
    rw [serveOp_rejected ho]
    exact ((Waits.of_puts (l := []) (writeError_emits .guest _).acts (by decide)).pre
      (List.nil_subset _)).bind fun _ => .throw _
  | some op =>
    obtain rfl := Op.word_of_allowed ho
    by_cases hs : op = .setOptions
    · subst hs
      rw [serveOp_swallowed]
      refine (orSyntheticError_waits ((copyArgs_copies .setOptions n .guest .sink).acts.mono
        fun _ he => he.elim (fun h => Waits.tidy_of_reads h (.head _))
          fun h => Waits.tidy_of_puts h (by decide))).bind fun _ => ?_
      exact ((writeU64_waits (l := [.host]) (by decide) _).pre (by decide)).bind fun _ =>
        .flush .guest (by decide)
    have hw : Waits bothLegs bothLegs (writeU64 .host op.word) [.guest] :=
      (writeU64_waits (by decide) _).pre (by decide)
    by_cases hv : op = .isValidPath
    · subst hv
      rw [serveOp_intercepted]
      exact hw.bind fun _ => (intercept_waits setup).bind fun _ => .flush .guest (by decide)
    rw [serveOp_relayed hs hv]
    refine hw.bind fun _ => (orSyntheticError_waits ((copyArgs_copies op n .guest .host).acts.mono
      fun _ he => he.elim (fun h => Waits.tidy_of_reads h (.head _))
        fun h => Waits.tidy_of_puts h (by decide))).bind fun _ => ?_
    refine (Waits.flush (k := [.host]) .host (by decide)).bind fun _ => ?_
    exact (relayReply_waits setup.fuel op n).bind fun _ => .flush .guest (by decide)

/-- The next op word is awaited with both buffers empty. -/
theorem readOp_waits : Waits bothLegs bothLegs (readU64OrEof .guest) bothLegs := by
  have hr : Comp.ActsIn (readsFrom .guest) (readU64OrEof .guest) :=
    fun _ _ h => (readU64OrEof_runs h).1
  refine Triple.conseq (Triple.of_acts hr fun b e hb he _ => ⟨⟨fun c hc _ => hb c hc, fun _ =>
    ⟨hb _ (by decide), hb _ (by decide)⟩⟩, fun c hc => ?_⟩) (fun _ => id) (fun _ _ => id)
    fun _ _ => trivial
  exact (hold_of_not_puts (not_puts_of_readsFrom he) _).trans (hb c hc)

theorem opLoop_waits (setup : Setup) (n : Negotiated) (fuel : Nat) :
    Waits bothLegs bothLegs (opLoop setup n fuel) bothLegs := by
  induction fuel with
  | zero => exact .throw _
  | succ fuel ih =>
    refine readOp_waits.bind fun
      | none => .pure _
      | some word => (serveOp_waits setup n word).bind fun _ => ih

theorem opening_waits (setup : Setup) : Waits bothLegs bothLegs (opening setup) bothLegs :=
  (handshakes_waits setup.advertised).bind fun _ => postHandshake_waits.bind fun _ =>
    (greeting_waits setup.fuel).bind fun _ => .pure _

theorem run_waits (setup : Setup) : Waits bothLegs bothLegs (run setup) bothLegs := by
  rw [run_eq]
  exact (opening_waits setup).bind fun n => opLoop_waits setup n setup.fuel

theorem ensurePathOnConnection_waits (advertised : List Bytes) (fuel : Nat) (path : Bytes) :
    Waits [.fill] [.fill] (ensurePathOnConnection advertised fuel path) [.fill] := by
  have hdrain : Waits [.fill] [.fill] (drainToLast fuel .fill) [.fill] :=
    .of_reads (drainToLast_acts fuel .fill) (.head _)
  refine (Waits.of_tidy (ofExcept_acts _)).mapStop.bind fun _ => ?_
  refine (upstream_waits (l := []) (by decide) advertised).mapStop.bind fun _ => ?_
  refine ((writeU64_waits (l := []) (by decide) 0).pre (List.nil_subset _)).bind fun _ => ?_
  refine (writeU64_waits (by decide) 0).bind fun _ => ?_
  refine (Waits.flush (k := [.fill]) .fill (by decide)).bind fun _ => ?_
  refine (Waits.of_reads (readString_decodes .fill _).acts (.head _)).mapStop.bind fun _ => ?_
  refine (Waits.of_reads (readU64_decodes .fill).acts (.head _)).mapStop.bind fun _ => ?_
  refine hdrain.mapStop.bind fun _ => ?_
  refine ((writeU64_waits (l := []) (by decide) _).pre (List.nil_subset _)).bind fun _ => ?_
  refine (Waits.of_puts (writeString_emits .fill path).acts (by decide)).bind fun _ => ?_
  refine (Waits.flush (k := [.fill]) .fill (by decide)).bind fun _ => ?_
  refine (Triple.attempt hdrain).bind fun
    | .error err => .throw fun _ _ => trivial
    | .ok () => ?_
  refine Waits.bind (m := [.fill]) ?_ fun success => ?_
  · exact (Waits.of_reads (readU64_decodes .fill).acts (.head _)).mapStop
  · exact .of_reads (decodes_check (c := .fill)).acts (.head _)

/-! ### At every point -/

/-- A wait within a trace: what came before it, and the event that waits. -/
def At (t : IoTrace) (before : IoTrace) (e : IoEvent) : Prop := ∃ after, t = before ++ e :: after

theorem after_held (watched : List Leg) (b : Buffers) (t : IoTrace) :
    (bufferMonitor watched).after b t = fun c => held c (b c) t := by
  induction t generalizing b with
  | nil => rfl
  | cons e t ih => exact ih _

/-- What a run that returns leaves flushed. -/
theorem Waits.held_nil {watched before after : List Leg} {α : Type} {p : Async α} {t : IoTrace}
    {a : α} (hp : Waits watched before p after) (h : p.Runs t (.ok a)) {c : Leg}
    (hc : c ∈ after) : held c [] t = [] := by
  have hf : Flushed after _ := (hp (fun _ => []) t _ (fun _ _ => rfl) h fun _ _ => trivial).2
  rw [after_held] at hf
  exact hf c hc

theorem meets_at {watched : List Leg} {b : Buffers} {t before : IoTrace} {e : IoEvent}
    (h : (bufferMonitor watched).Meets b t) (ha : At t before e) :
    (bufferMonitor watched).guar (fun c => held c (b c) before) e := by
  obtain ⟨after, rfl⟩ := ha
  rw [← after_held watched b before]
  exact ((meets_append _ _ _ _).mp h).2.1

/-- Nothing is stranded: in every run of a session and of a fill, whenever a peer is waited
for, its own buffer is empty, and both are when the next op word is; and in an exchange of
stderr messages, whatever was passed on has been flushed before the next message is
awaited. -/
theorem nothing_stranded :
    (∀ (setup : Setup) (t : IoTrace) (r : Except Stop Unit), (run setup).Runs t r →
      ∀ before e, At t before e →
        (readsFrom .host e → held .host [] before = []) ∧
        (readsFrom .guest e → held .guest [] before = []) ∧
        (awaitsOp e → held .guest [] before = [] ∧ held .host [] before = [])) ∧
    (∀ (advertised : List Bytes) (fuel : Nat) (path : Bytes) (t : IoTrace)
      (r : Except Stop Unit), (ensurePathOnConnection advertised fuel path).Runs t r →
      ∀ before e, At t before e → readsFrom .fill e → held .fill [] before = []) ∧
    (∀ (forwardLast : Bool) (fuel : Nat) (t : IoTrace) (r : Except Stop Terminal),
      (relayInner .host .guest forwardLast fuel).Runs t r →
      ∀ before e, At t before e → readsFrom .host e → held .guest [] before = []) := by
  refine ⟨fun setup t r h before e ha => ?_, fun advertised fuel path t r h before e ha hr => ?_,
    fun forwardLast fuel t r h before e ha hr => ?_⟩
  · have hm := (run_waits setup (fun _ => []) t r (fun _ _ => rfl) h fun _ _ => trivial).1
    obtain ⟨hw, ho⟩ := meets_at hm ha
    exact ⟨hw .host (by decide), hw .guest (by decide), ho⟩
  · have hm := (ensurePathOnConnection_waits advertised fuel path (fun _ => []) t r
      (fun _ _ => rfl) h fun _ _ => trivial).1
    exact (meets_at hm ha).1 .fill (by decide) hr
  · obtain ⟨after, rfl⟩ := ha
    exact (quiet_append.mp (relayInner_runs h).quiet).2.1 hr

/-- The world of one connection, on which `x` arrives. -/
def wireSample (c : Leg) (x : Bytes) : World Leg IoError Error :=
  ⟨fun d => Peer.script (if d = c then x else []), [], []⟩

def fillTrace : IoTrace :=
  ((ensurePathOnConnection ourFeatures 8 samplePath).exec World.step
    (wireSample .fill (hostSample [.last [] (le64 1)]))).trace

def relayTrace : IoTrace :=
  ((relayInner .host .guest true 8).exec World.step
    (wireSample .host (encMessages [.next (utf8 "copying")] ++ Message.last.encode))).trace

theorem at_getElem {t : IoTrace} {n : Nat} (h : n < t.length) : At t (t.take n) t[n] :=
  ⟨t.drop (n + 1), by rw [← List.drop_eq_getElem_cons h, List.take_append_drop]⟩

/-- A session that waits for the host's second answer, then for the second op word, a fill that
waits for its result, and a relay that waits behind a message. -/
theorem nothing_stranded_sample :
    (∃ before e, At sampleFilled.trace before e ∧ readsFrom .host e ∧ sent .host before ≠ [] ∧
      held .host [] before = []) ∧
    (∃ before e, At sampleFilled.trace before e ∧ awaitsOp e ∧ sent .guest before ≠ [] ∧
      held .guest [] before = [] ∧ held .host [] before = []) ∧
    (∃ before e, At fillTrace before e ∧ readsFrom .fill e ∧ sent .fill before ≠ [] ∧
      held .fill [] before = []) ∧
    ∃ before e, At relayTrace before e ∧ readsFrom .host e ∧ sent .guest before ≠ [] ∧
      held .guest [] before = [] := by
  obtain ⟨session, fill, relay⟩ := nothing_stranded
  have hhost : At sampleFilled.trace _ _ := @at_getElem _ 44 (by decide +kernel)
  have hop : At sampleFilled.trace _ _ := @at_getElem _ 49 (by decide +kernel)
  have hfill : At fillTrace _ _ := @at_getElem _ 18 (by decide +kernel)
  have hrelay : At relayTrace _ _ := @at_getElem _ 9 (by decide +kernel)
  have whost := session sampleSetup _ _ sampleFilled_runs _ _ hhost
  have wop := session sampleSetup _ _ sampleFilled_runs _ _ hop
  have wfill := fill _ _ _ _ _ (Comp.exec_runs ..) _ _ hfill
  have wrelay := relay _ _ _ _ (Comp.exec_runs ..) _ _ hrelay
  exact ⟨⟨_, _, hhost, by decide +kernel, by decide +kernel, whost.1 (by decide +kernel)⟩,
    ⟨_, _, hop, by decide +kernel, by decide +kernel, wop.2.2 (by decide +kernel)⟩,
    ⟨_, _, hfill, by decide +kernel, by decide +kernel, wfill (by decide +kernel)⟩,
    ⟨_, _, hrelay, by decide +kernel, by decide +kernel, wrelay (by decide +kernel)⟩⟩

end Claudepod
