import Claudepod.Serve
import Claudepod.Turn
import Claudepod.Loop
import Claudepod.Fill

/-! What a peer can make a session do. Nobody makes it read more at once than the cap for his
strings, and a guest that stops in the middle of what it began cannot make it wait for ever. -/

set_option autoImplicit false
set_option linter.constructorNameAsVariable false

namespace Claudepod
open Interaction

/-- Cap on the strings of a peer. -/
def stringCap : Leg → UInt64
  | .guest => maxGuestString
  | _ => maxHostString

/-- No read is for more than a string of the peer, no single read for more than a word. -/
def capped : IoEvent → Prop
  | ⟨.read c n, _⟩ => n ≤ (stringCap c).toNat
  | ⟨.readSome _ n, _⟩ => n ≤ 8
  | _ => True

/-- The call that is never answered. -/
def unanswered : IoEvent → Prop
  | ⟨.read _ _, .short _ _ (.fault .silent)⟩ | ⟨.readSome _ _, .ended (.fault .silent)⟩
  | ⟨.write _ _, .cut _ _ .silent⟩ | ⟨.flush _, .fault .silent⟩ | ⟨.dial _, .fault .silent⟩
  | ⟨.ask _, .silent⟩ => True
  | _ => False

/-- A session waits here for ever; where it reads exactly, `b` allows to wait for the peer. -/
structure Hangs (b : Leg → Prop) (e : IoEvent) : Prop where
  unanswered : unanswered e
  allowed : ∀ c n, e.1 = .read c n → b c

/-- Reads within the caps, and waits for ever only as `b` allows. -/
structure Modest (b : Leg → Prop) {α : Type} (p : Async α) : Prop where
  acts : Comp.ActsIn capped p
  waits : Comp.Owes .pending (fun v => ∃ e, v = [e] ∧ Hangs b e) p

namespace Modest

variable {α β : Type} {b b' : Leg → Prop} {p : Async α} {f : α → Async β}

theorem pure (a : α) : Modest b (Pure.pure a : Async α) := ⟨.pure a, .pure a⟩

theorem throw {s : Stop} (h : s ≠ .pending) : Modest b (throw s : Async α) :=
  ⟨.throw s, .throw h⟩

theorem bail (s : String) : Modest b (bail s : Async α) := .throw (by simp)

theorem bind (hp : Modest b p) (hf : ∀ a, Modest b (f a)) : Modest b (p >>= f) :=
  ⟨hp.acts.bind fun a => (hf a).acts, hp.waits.bind fun a => (hf a).waits⟩

/-- What comes behind a check may use it. -/
theorem check {P : Prop} [Decidable P] {s : String} {q : Async β} (hq : P → Modest b q) :
    Modest b (ensure P s >>= fun _ => q) := by
  by_cases hP : P
  · rw [ensure, Proc.require, if_pos hP]
    exact hq hP
  · rw [ensure, Proc.require, if_neg hP]
    exact .throw (by simp)

theorem ensure {P : Prop} [Decidable P] {s : String} : Modest b (ensure P s) :=
  ⟨.ite (.pure ()) (.throw _), .ite (.pure ()) (.throw (by simp))⟩

theorem context {s : String} (h : Modest b p) : Modest b (context s p) where
  acts := h.acts.mapStop
  waits := h.waits.mapStop fun e he => by
    cases e with
    | failed e => cases he
    | pending => rfl
    | exhausted => cases he

/-- Under a deadline nothing is waited for for ever. -/
theorem within {secs : Nat} (h : Modest b' p) : Modest b (within secs p) where
  acts := h.acts.mapStop
  waits t ht := by
    obtain ⟨s, -, hs⟩ := (Comp.runs_mapStop_error _ _).mp ht
    cases s with
    | failed e => cases hs
    | pending => cases hs
    | exhausted => cases hs

theorem attempt (h : Modest b p) : Modest b (attempt p) := ⟨h.acts.attempt, h.waits.attempt⟩

theorem ite {P : Prop} [Decidable P] {q : Async α} (hp : Modest b p) (hq : Modest b q) :
    Modest b (if P then p else q) := ⟨.ite hp.acts hq.acts, .ite hp.waits hq.waits⟩

theorem readMany (h : Modest b p) (n : Nat) : Modest b (Proc.readMany p n) := by
  induction n with
  | zero => exact .pure []
  | succ n ih => exact h.bind fun a => ih.bind fun as => .pure (a :: as)

theorem times {p : Async Unit} (h : Modest b p) (n : Nat) : Modest b (Proc.times p n) := by
  induction n with
  | zero => exact .pure ()
  | succ n ih => exact h.bind fun _ => ih

theorem forEach {w : α → Async Unit} (h : ∀ a, Modest b (w a)) (as : List α) :
    Modest b (Proc.forEach w as) := by
  induction as with
  | nil => exact .pure ()
  | cons a as ih => exact (h a).bind fun _ => ih

end Modest

section Primitives

variable {b : Leg → Prop} {r w : Leg}

/-! ### Single calls -/

theorem readExact_modest {n : Nat} {eof : String} (hr : b r) (hn : n ≤ (stringCap r).toNat) :
    Modest b (readExact r n eof) where
  acts := (Comp.ActsIn.perform fun _ => hn).bind fun got => by
    rcases got with _ | ⟨_, _, _ | f⟩
    · exact .pure _
    · exact .throw _
    · exact .throw _
  waits t ht := by
    rcases readExact_runs.mp ht with ⟨bs, h, -, hs⟩ | ⟨bs, h, -, hs⟩ | ⟨bs, f, h, rfl, hs⟩
    · cases hs
    · cases hs
    · cases f with
      | broken e => cases hs
      | silent =>
        refine ⟨[], _, rfl, _, rfl, trivial, fun c m hm => ?_⟩
        cases hm
        exact hr

theorem writeAll_modest (bs : Bytes) : Modest b (writeAll w bs) where
  acts := (Comp.ActsIn.perform fun _ => trivial).bind fun put => by
    rcases put with _ | ⟨_, _, f⟩
    · exact .pure _
    · exact .throw _
  waits t ht := by
    rcases writeAll_runs.mp ht with ⟨-, hs⟩ | ⟨k, f, h, rfl, hs⟩
    · cases hs
    · cases f with
      | broken e => cases hs
      | silent => exact ⟨[], _, rfl, _, rfl, trivial, nofun⟩

theorem flush_modest : Modest b (flush w) where
  acts := flush_acts fun _ => trivial
  waits t ht := by
    rcases flush_runs.mp ht with ⟨-, hs⟩ | ⟨f, rfl, hs⟩
    · cases hs
    · cases f with
      | broken e => cases hs
      | silent => exact ⟨[], _, rfl, _, rfl, trivial, nofun⟩

theorem dial_modest : Modest b (dial w) where
  acts := dial_acts fun _ => trivial
  waits t ht := by
    rcases dial_runs.mp ht with ⟨-, hs⟩ | ⟨f, rfl, hs⟩
    · cases hs
    · cases f with
      | broken e => cases hs
      | silent => exact ⟨[], _, rfl, _, rfl, trivial, nofun⟩

theorem readSome_modest {n : Nat} (hn : n ≤ 8) : Modest b (readSome r n) where
  acts := (Comp.ActsIn.perform fun _ => hn).bind fun chunk => by
    rcases chunk with _ | _ | f
    · exact .pure _
    · exact .pure _
    · exact .throw _
  waits t ht := by
    obtain ⟨chunk, u, rfl, h⟩ := (Comp.runs_perform_bind _).mp ht
    rcases chunk with _ | _ | _ | _
    · cases ((Comp.runs_pure _ _).mp h).2
    · cases ((Comp.runs_pure _ _).mp h).2
    · cases ((Comp.runs_throw _ _).mp h).2
    · obtain ⟨rfl, -⟩ := (Comp.runs_throw _ _).mp h
      exact ⟨[], _, rfl, _, rfl, trivial, nofun⟩

theorem fillU64_modest (fuel : Nat) (buf : Bytes) : Modest b (fillU64 r fuel buf) := by
  induction fuel generalizing buf with
  | zero => exact .throw (by simp)
  | succ fuel ih =>
    refine .ite ((readSome_modest (Nat.sub_le ..)).bind fun bs => ?_) (.pure _)
    exact .ite (.ite (.pure _) (.bail _)) (ih _)

/-! ### The wire -/

theorem readU64_modest (hr : b r) : Modest b (readU64 r) :=
  (readExact_modest hr (by cases r <;> decide)).bind fun _ => .pure _

theorem readString_modest {cap : UInt64} (hr : b r) (hc : cap ≤ stringCap r) :
    Modest b (readString r cap) := by
  refine (readU64_modest hr).bind fun len => .check fun hl => ?_
  have hn : len.toNat ≤ (stringCap r).toNat := UInt64.le_iff_toNat_le.mp (UInt64.le_trans hl hc)
  have h8 : 8 ≤ (stringCap r).toNat := by cases r <;> decide
  refine (readExact_modest hr hn).bind fun buf => .bind ?_ fun _ => .pure buf
  exact .ite (.pure ()) ((readExact_modest hr (by omega)).bind fun _ => .ensure)

theorem readCounted_modest {α : Type} {cap : UInt64} {excess : UInt64 → String} {item : Async α}
    (hr : b r) (h : Modest b item) : Modest b (readCounted r cap excess item) :=
  (readU64_modest hr).bind fun _ => .check fun _ => h.readMany _

theorem writeU64_modest (v : UInt64) : Modest b (writeU64 w v) := writeAll_modest _

theorem writeString_modest (s : Bytes) : Modest b (writeString w s) :=
  (writeU64_modest _).bind fun _ => (writeAll_modest s).bind fun _ =>
    .ite (.pure ()) (writeAll_modest _)

theorem writeCounted_modest {α : Type} {item : α → Async Unit} (h : ∀ a, Modest b (item a))
    (as : List α) : Modest b (writeCounted w item as) :=
  (writeU64_modest _).bind fun _ => .forEach h as

theorem copyU64_modest (hr : b r) : Modest b (copyU64 r w) :=
  (readU64_modest hr).bind fun v => (writeU64_modest v).bind fun _ => .pure v

theorem copyString_modest {cap : UInt64} (hr : b r) (hc : cap ≤ stringCap r) :
    Modest b (copyString r w cap) :=
  (readString_modest hr hc).bind fun s => writeString_modest s

theorem copyStringList_modest {cap : UInt64} (hr : b r) (hc : cap ≤ stringCap r) :
    Modest b (copyStringList r w cap) :=
  (readU64_modest hr).bind fun count => .check fun _ => (writeU64_modest count).bind fun _ =>
    .times (copyString_modest hr hc) _

/-! ### Stderr messages -/

theorem writeError_modest (msg : String) : Modest b (writeError w msg) :=
  (writeU64_modest _).bind fun _ => (writeString_modest _).bind fun _ =>
    (writeU64_modest _).bind fun _ => (writeString_modest _).bind fun _ =>
    (writeString_modest _).bind fun _ => (writeU64_modest _).bind fun _ =>
    (writeU64_modest _).bind fun _ => flush_modest

theorem refuse_modest {α : Type} (text : String) (err : Error) :
    Modest b (refuse w text err : Async α) :=
  (writeError_modest text).attempt.bind fun _ => .throw (by simp)

theorem readFields_modest (hr : b r) (hc : maxHostString ≤ stringCap r) :
    Modest b (readFields r) := by
  refine readCounted_modest hr ((readU64_modest hr).bind fun tag => ?_)
  exact .ite ((readU64_modest hr).bind fun _ => .pure _)
    (.ite ((readString_modest hr hc).bind fun _ => .pure _) (.bail _))

theorem readErrorPayload_modest (hr : b r) (hc : maxHostString ≤ stringCap r) :
    Modest b (readErrorPayload r) := by
  have hs := readString_modest hr hc
  have hu := readU64_modest hr
  refine hs.bind fun _ => hu.bind fun _ => hs.bind fun _ => hs.bind fun _ => hu.bind fun _ =>
    .check fun _ => .bind ?_ fun _ => .pure _
  exact readCounted_modest hr (hu.bind fun _ => .check fun _ => hs)

theorem readMessage_modest (hr : b r) (hc : maxHostString ≤ stringCap r) :
    Modest b (readMessage r) := by
  have hs := readString_modest hr hc
  have hu := readU64_modest hr
  have hf := readFields_modest hr hc
  refine hu.bind fun msg => .ite (.pure _) ?_
  refine .ite ((readErrorPayload_modest hr hc).bind fun _ => .pure _) ?_
  refine .ite (hs.bind fun _ => .pure _) ?_
  refine .ite (hu.bind fun _ => hu.bind fun _ => hu.bind fun _ => hs.bind fun _ =>
    hf.bind fun _ => hu.bind fun _ => .pure _) ?_
  refine .ite (hu.bind fun _ => .pure _) ?_
  exact .ite (hu.bind fun _ => hu.bind fun _ => hf.bind fun _ => .pure _)
    (.ite (.pure _) (.pure _))

theorem writeFields_modest (fields : List Field) : Modest b (writeFields w fields) :=
  writeCounted_modest (fun field => by
    cases field with
    | int v => exact (writeU64_modest _).bind fun _ => writeU64_modest _
    | string s => exact (writeU64_modest _).bind fun _ => writeString_modest _) fields

theorem writeErrorPayload_modest (e : ErrorPayload) : Modest b (writeErrorPayload w e) :=
  (writeString_modest _).bind fun _ => (writeU64_modest _).bind fun _ =>
    (writeString_modest _).bind fun _ => (writeString_modest _).bind fun _ =>
    (writeU64_modest _).bind fun _ => writeCounted_modest
      (fun _ => (writeU64_modest _).bind fun _ => writeString_modest _) _

theorem relayMessage_modest (forwardLast : Bool) (m : Message) :
    Modest b (relayMessage w forwardLast m) := by
  have hu : ∀ v, Modest b (writeU64 w v) := writeU64_modest
  cases m with
  | last =>
    cases forwardLast with
    | false => exact .pure _
    | true => exact (hu _).bind fun _ => .pure _
  | error e => exact (hu _).bind fun _ => (writeErrorPayload_modest e).bind fun _ => .pure _
  | next text => exact (hu _).bind fun _ => (writeString_modest _).bind fun _ => .pure _
  | startActivity id verbosity activityType text fields parent =>
    exact (hu _).bind fun _ => (hu _).bind fun _ => (hu _).bind fun _ => (hu _).bind fun _ =>
      (writeString_modest _).bind fun _ => (writeFields_modest _).bind fun _ =>
      (hu _).bind fun _ => .pure _
  | stopActivity id => exact (hu _).bind fun _ => (hu _).bind fun _ => .pure _
  | result id resultType fields =>
    exact (hu _).bind fun _ => (hu _).bind fun _ => (hu _).bind fun _ =>
      (writeFields_modest _).bind fun _ => .pure _
  | streaming msg => exact refuse_modest _ _
  | unknown msg => exact refuse_modest _ _

theorem relayInner_modest (forwardLast : Bool) (hr : b r) (hc : maxHostString ≤ stringCap r)
    (fuel : Nat) : Modest b (relayInner r w forwardLast fuel) := by
  induction fuel with
  | zero => exact .throw (by simp)
  | succ fuel ih =>
    exact (readMessage_modest hr hc).bind fun m => (relayMessage_modest forwardLast m).bind fun
      | some terminal => .pure _
      | none => flush_modest.bind fun _ => ih

theorem drainFrom_modest (hr : b r) (hc : maxHostString ≤ stringCap r) (fuel : Nat)
    (logs : List String) : Modest b (drainFrom r fuel logs) := by
  induction fuel generalizing logs with
  | zero => exact .throw (by simp)
  | succ fuel ih =>
    refine (readMessage_modest hr hc).bind fun m => ?_
    cases m with
    | last => exact .pure _
    | error e => exact .pure _
    | next text => exact ih _
    | startActivity id verbosity activityType text fields parent => exact ih _
    | stopActivity id => exact ih _
    | result id resultType fields => exact ih _
    | streaming msg => exact .bail _
    | unknown msg => exact .bail _

theorem drainToLast_modest (hr : b r) (hc : maxHostString ≤ stringCap r) (fuel : Nat) :
    Modest b (drainToLast fuel r) :=
  (drainFrom_modest hr hc fuel []).bind fun
    | .last => .pure ()
    | .error _ => .bail _

/-! ### Handshakes and payloads -/

theorem readFeatures_modest (hr : b r) : Modest b (readFeatures r) := by
  have hs : Modest b (readString r maxGuestString) :=
    readString_modest hr (by cases r <;> decide)
  have hu : ∀ fs, Modest b (checkUtf8 fs) := fun fs => by
    induction fs with
    | nil => exact .pure ()
    | cons f fs ih => exact .bind (.context .ensure) fun _ => ih
  exact (readCounted_modest hr hs).bind fun items => (hu items).bind fun _ => .pure _

theorem writeStringList_modest (ss : List Bytes) : Modest b (writeStringList w ss) :=
  writeCounted_modest writeString_modest ss

theorem upstream_modest (advertised : List Bytes) (hr : b r) :
    Modest b (upstream advertised r) := by
  have hu := readU64_modest hr
  refine (writeU64_modest _).bind fun _ => (writeU64_modest _).bind fun _ =>
    flush_modest.bind fun _ => hu.bind fun _ => .check fun _ => hu.bind fun _ =>
    .check fun _ => .check fun _ => .ite ?_ (.pure _)
  exact (writeStringList_modest advertised).bind fun _ => flush_modest.bind fun _ =>
    (readFeatures_modest hr).bind fun _ => .pure _

theorem downstream_modest (n : Negotiated) (hr : b r) : Modest b (downstream r n) := by
  have hc : ∀ features fs, Modest b (checkFeatures features fs) := fun features fs => by
    induction fs with
    | nil => exact .pure ()
    | cons f fs ih => exact Modest.ensure.bind fun _ => ih
  refine (writeU64_modest _).bind fun _ => (writeU64_modest _).bind fun _ =>
    flush_modest.bind fun _ => (readU64_modest hr).bind fun _ => .check fun _ => .ite ?_ (.pure _)
  exact (readFeatures_modest hr).bind fun _ => (writeStringList_modest _).bind fun _ =>
    flush_modest.bind fun _ => hc _ _

end Primitives

/-- Anything but what the guest is in the middle of. -/
def patient (c : Leg) : Prop := c ≠ .guest

section Ops

variable {d : Leg}

theorem copyArgs_modest (op : Op) (n : Negotiated) :
    Modest (fun _ => True) (copyArgs op n .guest d) := by
  have hs : Modest (fun _ => True) (copyString .guest d maxGuestString) :=
    copyString_modest trivial (UInt64.le_refl _)
  have hl : Modest (fun _ => True) (copyStringList .guest d maxGuestString) :=
    copyStringList_modest trivial (UInt64.le_refl _)
  have hw : Modest (fun _ => True) (copyU64 .guest d) := copyU64_modest trivial
  cases op with
  | isValidPath => exact hs
  | queryReferrers => exact hs
  | queryPathInfo => exact hs
  | queryValidDerivers => exact hs
  | queryPathFromHashPart => exact hs
  | queryValidPaths =>
    exact hl.bind fun _ => (readU64_modest trivial).bind fun _ => .check fun _ =>
      writeU64_modest 0
  | setOptions =>
    exact (Modest.times (hw.bind fun _ => .pure ()) 12).bind fun _ => hw.bind fun _ =>
      .check fun _ => .times (hs.bind fun _ => hs) _
  | queryRealisation => exact .ite (hs.bind fun _ => hs) hs

theorem copyResult_modest (op : Op) (n : Negotiated) :
    Modest patient (copyResult op n .host d) := by
  have hp : patient .host := by simp [patient]
  have hs : Modest patient (copyString .host d maxHostString) :=
    copyString_modest hp (UInt64.le_refl _)
  have hl : Modest patient (copyStringList .host d maxHostString) :=
    copyStringList_modest hp (UInt64.le_refl _)
  have hw : Modest patient (copyU64 .host d) := copyU64_modest hp
  cases op with
  | setOptions => exact .pure ()
  | isValidPath => exact hw.bind fun _ => .pure ()
  | queryReferrers => exact hl
  | queryValidPaths => exact hl
  | queryValidDerivers => exact hl
  | queryPathFromHashPart => exact hs
  | queryPathInfo =>
    exact hw.bind fun valid => .ite (.context (hs.bind fun _ => hs.bind fun _ =>
      hl.bind fun _ => hw.bind fun _ => hw.bind fun _ => hw.bind fun _ => hl.bind fun _ => hs))
      (.pure ())
  | queryRealisation =>
    exact .ite (hw.bind fun tag => .check fun _ =>
      .ite (hs.bind fun _ => hl) (.pure ())) hl

/-- The arguments of an op are read under a deadline. -/
theorem orSyntheticError_modest {α : Type} {name : String} {p : Async α} {b : Leg → Prop}
    (hp : Modest b p) : Modest patient (orSyntheticError name p) :=
  (Modest.attempt (.within hp)).bind fun
    | .ok a => .pure a
    | .error _ => refuse_modest _ _

variable {setup : Setup}

theorem serveOp_modest (hfill : ∀ path, Modest patient (setup.fill path)) (n : Negotiated)
    (word : UInt64) : Modest patient (serveOp setup n word) := by
  have hp : patient .host := by simp [patient]
  have hc : maxHostString ≤ stringCap .host := UInt64.le_refl _
  have hu : Modest patient (readU64 .host) := readU64_modest hp
  have hargs : ∀ op d, Modest patient (relayArgs op n d) := fun op d =>
    orSyntheticError_modest (copyArgs_modest op n)
  have hwarn : ∀ path reason (v : Bool), Modest patient
      (warnOnDemandFill path reason >>= fun _ => (pure v : Async Bool)) := fun path reason v =>
    ⟨(Comp.ActsIn.perform (o := Call.note _) fun _ => trivial).bind fun _ => .pure v,
      (Comp.Owes.of_stopsIn (.perform _)).bind fun _ => .pure v⟩
  cases ha : Op.allowed word with
  | none =>
    rw [serveOp_rejected ha]
    exact (writeError_modest _).bind fun _ => .bail _
  | some op =>
    obtain rfl := Op.word_of_allowed ha
    by_cases hs : op = .setOptions
    · subst hs
      rw [serveOp_swallowed]
      exact (hargs _ _).bind fun _ => (writeU64_modest _).bind fun _ => flush_modest
    by_cases hv : op = .isValidPath
    · subst hv
      have hrecheck : ∀ path, Modest patient (recheckIsValidPath setup.fuel path) := fun path =>
        (writeU64_modest _).bind fun _ => (writeString_modest _).bind fun _ =>
          flush_modest.bind fun _ =>
          (drainFrom_modest hp hc setup.fuel []).context.bind fun
            | .last => hu.context.bind fun _ => .pure _
            | .error _ => .pure _
      have hjudge : ∀ path w, Modest patient (judgeIsValidPath setup path w) := fun path w =>
        .ite (.pure _) (.ite (.pure _) ((hfill path).attempt.bind fun
          | .error err => hwarn _ _ _
          | .ok () => (hrecheck path).bind fun
            | .valid => .pure _
            | .invalid => hwarn _ _ _
            | .daemonError message => hwarn _ _ _))
      have hpose : Modest patient (poseIsValidPath setup.fuel) := by
        have hcopy : Modest (fun _ => True) copyPath :=
          (readString_modest trivial (UInt64.le_refl _)).bind fun _ =>
            (writeString_modest _).bind fun _ => .pure _
        refine (orSyntheticError_modest hcopy).bind fun path => flush_modest.bind fun _ =>
          (relayInner_modest false hp hc setup.fuel).context.bind fun terminal => ?_
        exact .ite (.pure _) (hu.context.bind fun _ => .pure _)
      rw [serveOp_intercepted, interceptIsValidPath_eq]
      refine (writeU64_modest _).bind fun _ => .bind ?_ fun _ => flush_modest
      exact hpose.bind fun
        | (_, none) => .pure ()
        | (path, some w) => (hjudge path w).bind fun valid =>
          (writeU64_modest _).bind fun _ => writeU64_modest _
    · rw [serveOp_relayed hs hv]
      have hreply : Modest patient (relayReply setup.fuel op n) :=
        (relayInner_modest true hp hc setup.fuel).context.bind fun terminal =>
          .ite (copyResult_modest op n).context (.pure ())
      exact (writeU64_modest _).bind fun _ => (hargs op .host).bind fun _ =>
        flush_modest.bind fun _ => hreply.bind fun _ => flush_modest

theorem opLoop_modest (hfill : ∀ path, Modest patient (setup.fill path)) (n : Negotiated)
    (k : Nat) : Modest patient (opLoop setup n k) := by
  induction k with
  | zero => exact .throw (by simp)
  | succ k ih =>
    exact (fillU64_modest 9 []).bind fun
      | none => .pure ()
      | some word => (serveOp_modest hfill n word).bind fun _ => ih

theorem opening_modest (setup : Setup) : Modest patient (opening setup) := by
  have hp : patient .host := by simp [patient]
  have hguest : Modest (fun _ => True) (readU64 .guest) := readU64_modest trivial
  have hcopy : Modest (fun _ => True) (copyU64 .guest .host) := copyU64_modest trivial
  refine .bind ?_ fun n => .bind ?_ fun _ => .bind ?_ fun _ => .pure n
  · exact (Modest.within (hguest.bind fun _ => .ensure)).context.bind fun _ =>
      dial_modest.context.bind fun _ => (upstream_modest _ hp).context.bind fun n =>
      (Modest.within (downstream_modest (b := fun _ => True) n trivial)).context.bind fun _ =>
      .pure n
  · exact (Modest.within (hcopy.bind fun _ => .ite (hcopy.bind fun _ => hcopy) hcopy)).context.bind
      fun _ => flush_modest
  · exact (copyString_modest hp (UInt64.le_refl _)).bind fun _ => (copyU64_modest hp).bind fun _ =>
      (relayInner_modest true hp (UInt64.le_refl _) setup.fuel).context.bind fun _ => flush_modest

theorem run_modest (hfill : ∀ path, Modest patient (setup.fill path)) :
    Modest patient (run setup) := by
  rw [run_eq]
  exact (opening_modest setup).bind fun n => opLoop_modest hfill n setup.fuel

end Ops

theorem ensurePath_modest (advertised : List Bytes) (fuel : Nat) (upstreamPath path : Bytes) :
    Modest patient (ensurePath advertised fuel upstreamPath path) := by
  have hp : patient .fill := by simp [patient]
  have hc : maxHostString ≤ stringCap .fill := UInt64.le_refl _
  have hu : Modest patient (readU64 .fill) := readU64_modest hp
  have hw : ∀ v, Modest patient (writeU64 .fill v) := writeU64_modest
  have hd := drainToLast_modest hp hc fuel
  have hchecked : Modest patient (ofExcept (validateDirect path)) := by
    cases validateDirect path with
    | ok u => exact .pure u
    | error e => exact .throw (by simp)
  refine dial_modest.context.bind fun _ => hchecked.context.bind fun _ =>
    (upstream_modest advertised hp).context.bind fun _ => ?_
  refine (hw _).bind fun _ => (hw _).bind fun _ => flush_modest.bind fun _ =>
    (readString_modest hp hc).context.bind fun _ => hu.context.bind fun _ =>
    hd.context.bind fun _ => ?_
  exact (hw _).bind fun _ => (writeString_modest path).bind fun _ => flush_modest.bind fun _ =>
    hd.attempt.bind fun
      | .error err => .bail _
      | .ok () => hu.context.bind fun _ => .ensure

theorem proxyRelay_modest (roots : Option NixRunRoots) (upstreamPath : Bytes) (fuel : Nat) :
    Modest patient (proxyRelay roots upstreamPath fuel) := by
  have hfill : ∀ path, Modest patient ((proxySetup roots upstreamPath fuel).fill path) :=
    ensurePath_modest ourFeatures fuel upstreamPath
  exact run_modest hfill

/-- Whatever its peers send, a session reads no more at once than the cap for the strings of the
peer it reads from. -/
theorem proxyRelay_capped {roots : Option NixRunRoots} {upstreamPath : Bytes} {fuel : Nat}
    {t : IoTrace} {r : Except Stop Unit} (h : (proxyRelay roots upstreamPath fuel).Runs t r) :
    Only capped t := (proxyRelay_modest roots upstreamPath fuel).acts t r h

theorem proxyRelay_capped_sample : Only capped proxySample.trace :=
  proxyRelay_capped (Comp.exec_runs World.step _ _)

/-- A session that waits for ever waits at its last call, and not for the rest of something the
guest has begun to send: for a host daemon, for room to write, or for the guest's next op. -/
theorem proxyRelay_waits {roots : Option NixRunRoots} {upstreamPath : Bytes} {fuel : Nat}
    {t : IoTrace} (h : (proxyRelay roots upstreamPath fuel).Runs t (.error .pending)) :
    ∃ u e, t = u ++ [e] ∧ unanswered e ∧ ∀ n, e.1 ≠ .read .guest n := by
  obtain ⟨u, v, rfl, e, rfl, he⟩ := (proxyRelay_modest roots upstreamPath fuel).waits t h
  exact ⟨u, e, rfl, he.unanswered, fun n hn => he.allowed _ _ hn rfl⟩

/-- The guest has sent its magic, and the daemon socket does not answer. -/
def stalledSample : Outcome (Resp Leg IoError Error) (Except Stop Unit) (World Leg IoError Error) :=
  (proxyRelay none [] 1).exec World.step
    { sessionWorld (le64 workerMagic1) [] [] with dials := [.error .silent] }

theorem proxyRelay_waits_stalled :
    ∃ u e, stalledSample.trace = u ++ [e] ∧ unanswered e ∧ ∀ n, e.1 ≠ .read .guest n := by
  have hv : stalledSample.value = .error .pending := by decide +kernel
  have hr : (proxyRelay none [] 1).Runs stalledSample.trace stalledSample.value :=
    Comp.exec_runs World.step _ _
  rw [hv] at hr
  exact proxyRelay_waits hr

end Claudepod
