import Claudepod.Feed
import Claudepod.Fill
import Claudepod.Progress

/-! The options a guest sets change nothing but the word they are answered with: sessions whose
guests ask the same apart from `SetOptions` take the same turns apart from those. -/

set_option autoImplicit false

namespace Claudepod
open Interaction World

/-! ### What does not hear the guest -/

def unheard (e : IoEvent) : Prop := ¬ readsFrom .guest e ∧ ¬ Interaction.dials .guest e

theorem unheard_of_reads_or_puts {c d : Leg} {e : IoEvent} (hc : c ≠ .guest)
    (h : reads c e ∨ puts d e) : unheard e := by
  obtain ⟨o, r⟩ := e
  cases o <;> simp_all [unheard, reads, puts, readsFrom, Interaction.dials]

theorem unheard_of_elsewhere {e : IoEvent} (h : elsewhere e) : unheard e := by
  obtain ⟨o, r⟩ := e
  cases o <;> simp_all [unheard, elsewhere, readsFrom, Interaction.dials]

theorem relayReply_unheard (fuel : Nat) (op : Op) (n : Negotiated) :
    Comp.ActsIn unheard (relayReply fuel op n) :=
  (relayReply_acts fuel op n).mono fun _ => unheard_of_reads_or_puts (by decide)

theorem flush_unheard (c : Leg) : Comp.ActsIn unheard (flush c) := flush_acts fun _ => ⟨id, id⟩

theorem hearPath_unheard (fuel : Nat) (path : Bytes) :
    Comp.ActsIn unheard (hearPath fuel path) :=
  ((relayInner_acts .host .guest false fuel).mono fun _ =>
    unheard_of_reads_or_puts (by decide)).mapStop.bind fun _ => .ite (.pure _)
    (((readU64_decodes .host).acts.mono fun _ he =>
      unheard_of_reads_or_puts (d := .host) (by decide) (.inl he)).mapStop.bind fun _ => .pure _)

theorem tellIsValidPath_unheard (setup : Setup) (answer : Bytes × Option UInt64) :
    Comp.ActsIn unheard (tellIsValidPath setup answer) := by
  obtain ⟨path, w⟩ := answer
  cases w with
  | none => exact .pure ()
  | some w =>
    exact ((judgeIsValidPath_acts setup path w).mono fun _ he => he.elim unheard_of_elsewhere
      (unheard_of_reads_or_puts (by decide))).bind fun valid =>
      (writeIsValidPathResult_emits valid).acts.mono fun _ he =>
        unheard_of_reads_or_puts (c := .host) (by decide) (.inr he)

section Serving

variable {setup : Setup} {n : Negotiated} {r : Request}

/-- Serving what is not swallowed: the request is passed on whole, and then the guest is not
heard any more. -/
theorem serveOp_poses (setup : Setup) (hs : r.op ≠ .setOptions)
    (hv : r.Valid n.realisationWithPath) :
    ∃ (t : IoTrace) (p : Async Unit), Posing r.args r.encode t ∧ Comp.ActsIn unheard p ∧
      ∀ u v, p.Runs u v → (serveOp setup n r.op.word).Runs (t ++ u) v := by
  by_cases hp : r.op = .isValidPath
  · cases r with
    | isValidPath path =>
      obtain ⟨t, ht, hc⟩ := @askPath_complete path hv
      refine ⟨t, _, hc, (hearPath_unheard setup.fuel path).bind fun answer =>
        (tellIsValidPath_unheard setup answer).bind fun _ => flush_unheard .guest,
        fun u v hu => ?_⟩
      show (serveOp setup n Op.isValidPath.word).Runs _ _
      rw [serveOp_path]
      exact ht.bind hu
    | _ => cases hp
  · obtain ⟨t, ht, hc⟩ := askHost_complete hv
    refine ⟨t, _, hc, (relayReply_unheard setup.fuel r.op n).bind fun _ => flush_unheard .guest,
      fun u v hu => ?_⟩
    rw [serveOp_relayed hs hp, relayOp_eq]
    exact ht.bind hu

/-! ### One turn -/

/-- An event of the host's connection, of a fill or of the log. -/
def offGuest : IoEvent → Bool
  | ⟨.read c _, _⟩ | ⟨.readSome c _, _⟩ | ⟨.write c _, _⟩ | ⟨.flush c, _⟩ | ⟨.dial c, _⟩ =>
    c = .host ∨ c = .fill
  | ⟨.ask _, _⟩ | ⟨.note _, _⟩ => true

theorem offGuest_eq_false {c d : Leg} {e : IoEvent} (hc : c = .guest ∨ c = .sink)
    (hd : d = .guest ∨ d = .sink) (h : readsFrom c e ∨ puts d e) : offGuest e = false := by
  obtain ⟨o, r⟩ := e
  rcases hc with rfl | rfl <;> rcases hd with rfl | rfl <;> cases o <;>
    simp_all [offGuest, readsFrom, puts]

/-- The turn that the request `r` leads to, whatever the guest sends behind it. -/
structure TurnFor (setup : Setup) (n : Negotiated) (w : World Leg IoError Error) (r : Request)
    (x : Turn) (w' : World Leg IoError Error) : Prop where
  of : x.Of setup n
  word : x.word = r.op.word
  heard : recvd .guest x.trace = r.encode
  follows : ∀ rest, Follows step (w.feed .guest (r.encode ++ rest)) x.trace (w'.feed .guest rest)

/-- A turn that was answered with the one word, and seen by nobody else. -/
structure Turn.Quiet (x : Turn) : Prop where
  served : x.result = .ok ()
  answered : sent .guest x.trace = le64 stderrLast
  unseen : x.trace.filter offGuest = []

/-- The event of reading an op word. -/
def wordRead (word : UInt64) : IoEvent :=
  ⟨.readSome .guest 8, .some (le64 word) (le64_pos word) (Nat.le_of_eq (le64_length word))⟩

theorem turnFor_of {w w' : World Leg IoError Error} {t : IoTrace} {v : Except Stop Unit}
    (ht : (serveOp setup n r.op.word).Runs t v) (hr : recvd .guest t = r.args)
    (hf : ∀ rest, Follows step (w.feed .guest (r.args ++ rest)) t (w'.feed .guest rest)) :
    TurnFor setup n w r ⟨r.op.word, [wordRead r.op.word], t, v⟩ w' where
  of := ⟨readU64OrEof_some .guest _, ht⟩
  word := rfl
  heard := by
    rw [Turn.trace, recvd_append, hr, Request.encode]
    simp [wordRead, recvd_cons, eventRecvd, Chunk.bytes]
  follows rest := by
    have hs := step_readSome (w := w) (c := .guest) (le64_pos r.op.word) (le64_length r.op.word)
      (r.args ++ rest)
    rw [← List.append_assoc, ← Request.encode] at hs
    refine ⟨congrArg Prod.fst hs, ?_⟩
    rw [show (wordRead r.op.word).1 = .readSome .guest 8 from rfl, hs]
    exact hf rest

theorem recvd_unheard {t : IoTrace} (h : Only unheard t) : recvd .guest t = [] :=
  recvd_eq_nil h fun _ he hr => he.1 hr

/-- A request that is not swallowed leads to one turn. -/
theorem turn_forwarded (setup : Setup) {w : World Leg IoError Error} (hw : w.Generous)
    (hs : r.op ≠ .setOptions) (hv : r.Valid n.realisationWithPath) :
    ∃ x w', TurnFor setup n w r x w' ∧ w'.Generous := by
  obtain ⟨t, p, hc, hp, hrun⟩ := serveOp_poses setup hs hv
  have hu := Comp.exec_runs step p (w.feed .guest [])
  have hf := Comp.exec_follows step p (w.feed .guest [])
  generalize p.exec step (w.feed .guest []) = o at hu hf
  have ho : Only unheard o.trace := hp _ _ hu
  refine ⟨_, o.state, turnFor_of (hrun _ _ hu) ?_ fun rest => ?_,
    (hw.feed .guest []).follows hf⟩
  · rw [recvd_append, hc.carries.recvd, recvd_unheard ho, List.append_nil]
  · have hf' := follows_feed hf (ho.mono fun _ he => ⟨fun hr => absurd hr he.1, he.2⟩) rest
    rw [recvd_unheard ho, List.nil_append, feed_feed] at hf'
    exact (follows_append ..).mpr ⟨_, follows_carries hw hc.carries rest, hf'⟩

/-- `SetOptions` leads to a quiet one, and leaves the world as it was. -/
theorem turn_swallowed (setup : Setup) {w : World Leg IoError Error} (hw : w.Generous)
    (ho : r.op = .setOptions) (hv : r.Valid n.realisationWithPath) :
    ∃ x, TurnFor setup n w r x w ∧ x.Quiet := by
  obtain ⟨t, u, ht, hu, hp, hrun⟩ := swallowed_complete ho hv
  have hquiet : Only (fun e => offGuest e = false) (wordRead r.op.word :: (t ++ u)) := by
    refine only_cons.mpr ⟨rfl, only_append.mpr ⟨ht.only.mono fun e he => ?_,
      hp.mono fun e he => ?_⟩⟩
    · exact offGuest_eq_false (.inl rfl) (.inr rfl) (he.imp_left readsFrom_of_reads)
    · exact offGuest_eq_false (c := .guest) (.inl rfl) (.inl rfl) (.inr he)
  refine ⟨_, turnFor_of (hrun setup) ?_ fun rest => ?_, ⟨rfl, ?_, ?_⟩⟩
  · rw [recvd_append, ht.recvd, recvd_of_puts hp, List.append_nil]
  · have hf := follows_carries (hw.feed .guest rest) hu
      ((w.feed .guest rest).peers .host).incoming
    rw [List.nil_append, feed_self rfl] at hf
    exact (follows_append ..).mpr ⟨_, follows_carries hw ht rest, hf⟩
  · rw [Turn.trace, sent_append, sent_append, hu.sent, sent_other ht.only (by decide)]
    rfl
  · exact List.filter_eq_nil_iff.mpr fun e he => by simp [hquiet e he]

/-! ### The turns of a session -/

def Turn.forwards (x : Turn) : Bool := x.word ≠ Op.setOptions.word

/-- Not swallowed. -/
def Request.forwards (r : Request) : Bool := r.op ≠ .setOptions

/-- A session over `rs` takes the turns `xs`, of which `ys` are what is not swallowed. -/
structure Muted (setup : Setup) (n : Negotiated) (rs : List Request) (ys xs : List Turn)
    (v : Except Stop Unit) : Prop where
  of : ∀ x ∈ xs, x.Of setup n
  each : List.Forall₂ (fun r x => x.word = r.op.word ∧ recvd .guest x.trace = r.encode)
    (rs.take xs.length) xs
  whole : v = .ok () → xs.length = rs.length
  forwarded : xs.filter Turn.forwards = ys
  swallowed : ∀ x ∈ xs, x.forwards = false → x.Quiet

/-- From `w` on, a guest that asks `rs` and says no more gets these turns. -/
def Mutes (setup : Setup) (n : Negotiated) (w : World Leg IoError Error) (ys : List Turn)
    (v : Except Stop Unit) (rest : IoTrace) (rs : List Request) : Prop :=
  ∃ xs w', Muted setup n rs ys xs v ∧
    (∀ k, rs.length < k → (opLoop setup n k).Runs (turnsTrace xs ++ rest) v) ∧
    Follows step (w.feed .guest (rs.flatMap Request.encode)) (turnsTrace xs ++ rest) w'

variable {w w' : World Leg IoError Error} {x : Turn} {ys : List Turn} {v : Except Stop Unit}
  {rest : IoTrace} {rs : List Request}

theorem TurnFor.muted (hx : TurnFor setup n w r x w') {xs : List Turn}
    (hm : Muted setup n rs ys xs v) (hq : x.forwards = false → x.Quiet) :
    Muted setup n (r :: rs) ((x :: xs).filter Turn.forwards) (x :: xs) v where
  of := List.forall_mem_cons.mpr ⟨hx.of, hm.of⟩
  each := .cons ⟨hx.word, hx.heard⟩ hm.each
  whole hv := congrArg (· + 1) (hm.whole hv)
  forwarded := rfl
  swallowed := List.forall_mem_cons.mpr ⟨hq, hm.swallowed⟩

/-- A turn that returns, and then the rest. -/
theorem TurnFor.goes_on (hx : TurnFor setup n w r x w') (hok : x.result = .ok ())
    (hq : x.forwards = false → x.Quiet) (h : Mutes setup n w' ys v rest rs) :
    Mutes setup n w ([x].filter Turn.forwards ++ ys) v rest (r :: rs) := by
  obtain ⟨xs, w'', hm, hrun, hf⟩ := h
  refine ⟨x :: xs, w'', ?_, fun k hk => ?_, ?_⟩
  · have := hx.muted hm hq
    rwa [show x :: xs = [x] ++ xs from rfl, List.filter_append, hm.forwarded] at this
  · obtain ⟨k, rfl⟩ : ∃ l, k = l + 1 := ⟨k - 1, by simp at hk; omega⟩
    have hs := hx.of.serve
    rw [hok] at hs
    rw [turnsTrace, List.flatMap_cons, Turn.trace, List.append_assoc, List.append_assoc]
    exact hx.of.read.bind (hs.bind (hrun k (by simpa using hk)))
  · rw [turnsTrace, List.flatMap_cons, List.flatMap_cons, List.append_assoc]
    exact (follows_append ..).mpr ⟨_, hx.follows _, hf⟩

/-- A turn that fails is the last. -/
theorem TurnFor.ends {s : Stop} (hx : TurnFor setup n w r x w') (herr : x.result = .error s)
    (hw : x.forwards = true) (rs : List Request) :
    Mutes setup n w [x] (.error s) [] (r :: rs) := by
  refine ⟨[x], w'.feed .guest (rs.flatMap Request.encode), ⟨?_, ?_, nofun, ?_, ?_⟩,
    fun k hk => ?_, ?_⟩
  · simpa using hx.of
  · exact .cons ⟨hx.word, hx.heard⟩ .nil
  · rw [List.filter_cons_of_pos hw, List.filter_nil]
  · simp [hw]
  · obtain ⟨k, rfl⟩ : ∃ l, k = l + 1 := ⟨k - 1, by simp at hk; omega⟩
    have hs := hx.of.serve
    rw [herr] at hs
    rw [turnsTrace, List.flatMap_singleton, List.append_nil]
    exact hx.of.read.bind ((Comp.runs_bind _).mpr (.inr ⟨s, rfl, hs⟩))
  · rw [turnsTrace, List.flatMap_singleton, List.append_nil, List.flatMap_cons]
    exact hx.follows _

/-- A guest that says no more is not asked again. -/
theorem mutes_nil (setup : Setup) (n : Negotiated) (w : World Leg IoError Error) :
    ∃ v rest, Mutes setup n w [] v rest [] := by
  have hr := Comp.exec_runs step (readU64OrEof .guest) (w.feed .guest [])
  have hf := Comp.exec_follows step (readU64OrEof .guest) (w.feed .guest [])
  generalize (readU64OrEof .guest).exec step (w.feed .guest []) = o at hr hf
  obtain ⟨ho, hword⟩ := readU64OrEof_runs hr
  have hdry : recvd .guest o.trace = [] := by
    have h := follows_recvd .guest hf (ho.mono fun e he => by
      obtain ⟨c, a⟩ := e
      cases c <;> simp_all [readsFrom, Interaction.dials])
    rw [feed_peers_self] at h
    exact (List.append_eq_nil_iff.mp h.symm).1
  have hloop : ∀ v, (∀ k, (opLoop setup n (k + 1)).Runs o.trace v) →
      Mutes setup n w [] v o.trace [] := fun v hrun => by
    refine ⟨[], o.state, ⟨by simp, .nil, fun _ => rfl, rfl, by simp⟩, fun k hk => ?_, hf⟩
    obtain ⟨k, rfl⟩ : ∃ l, k = l + 1 := ⟨k - 1, by simp at hk; omega⟩
    exact hrun k
  cases hv : o.value with
  | error s =>
    rw [hv] at hr
    exact ⟨_, _, hloop (.error s) fun k => (Comp.runs_bind _).mpr (.inr ⟨s, rfl, hr⟩)⟩
  | ok word =>
    rw [hv] at hr hword
    cases word with
    | none =>
      refine ⟨_, _, hloop (.ok ()) fun k => ?_⟩
      rw [← List.append_nil o.trace]
      exact hr.bind ⟨rfl, rfl⟩
    | some word =>
      change [] ++ recvd .guest o.trace = le64 word at hword
      rw [hdry] at hword
      have hl := congrArg List.length hword
      simp at hl

theorem TurnFor.forwards (hx : TurnFor setup n w r x w') : x.forwards = r.forwards := by
  have h : x.word = Op.setOptions.word ↔ r.op = .setOptions := by
    rw [hx.word]
    refine ⟨fun h => ?_, congrArg _⟩
    have := Op.allowed_word r.op
    rw [h, Op.allowed_word] at this
    exact (Option.some.inj this).symm
  simp only [Turn.forwards, Request.forwards, ne_eq, h]

theorem mutes_swallow (hw : w.Generous) (ho : r.op = .setOptions)
    (hv : r.Valid n.realisationWithPath) (h : Mutes setup n w ys v rest rs) :
    Mutes setup n w ys v rest (r :: rs) := by
  obtain ⟨x, hx, hq⟩ := turn_swallowed setup hw ho hv
  have hn : x.forwards = false := by
    rw [hx.forwards]
    simp [Request.forwards, ho]
  have := hx.goes_on hq.served (fun _ => hq) h
  rwa [List.filter_cons_of_neg (by rw [hn]; decide), List.filter_nil, List.nil_append] at this

/-- What comes first of what is swallowed makes no difference. -/
theorem mutes_of_head {ks : List Request} (hw : w.Generous)
    (h : ∀ rs, (∀ r ∈ rs, r.Valid n.realisationWithPath) → rs.filter Request.forwards = ks →
      (∀ r ∈ rs.head?, r.forwards = true) → Mutes setup n w ys v rest rs)
    (hrs : ∀ r ∈ rs, r.Valid n.realisationWithPath)
    (hf : rs.filter Request.forwards = ks) : Mutes setup n w ys v rest rs := by
  induction rs with
  | nil => exact h [] hrs hf (by simp)
  | cons r rs ih =>
    by_cases hr : r.forwards = true
    · exact h _ hrs hf (by simpa using hr)
    · obtain ⟨hv, hrs⟩ := List.forall_mem_cons.mp hrs
      rw [List.filter_cons_of_neg hr] at hf
      exact mutes_swallow hw (by simpa [Request.forwards] using hr) hv (ih hrs hf)

/-- The turns that are not swallowed, and how the session goes on behind them, are the same for
all guests that ask `ks` and may set options in between. -/
theorem mutes_filter (setup : Setup) (ks : List Request)
    (hk : ∀ r ∈ ks, r.op ≠ .setOptions ∧ r.Valid n.realisationWithPath) (hw : w.Generous) :
    ∃ ys v rest, ∀ rs, (∀ r ∈ rs, r.Valid n.realisationWithPath) →
      rs.filter Request.forwards = ks → Mutes setup n w ys v rest rs := by
  induction ks generalizing w with
  | nil =>
    obtain ⟨v, rest, hnil⟩ := mutes_nil setup n w
    refine ⟨[], v, rest, fun rs hrs hf => mutes_of_head hw (fun rs _ hf hh => ?_) hrs hf⟩
    cases rs with
    | nil => exact hnil
    | cons r rs =>
      rw [List.filter_cons_of_pos (hh r rfl)] at hf
      cases hf
  | cons k ks ih =>
    obtain ⟨⟨hs, hv⟩, hks⟩ := List.forall_mem_cons.mp hk
    obtain ⟨x, w', hx, hw'⟩ := turn_forwarded setup hw hs hv
    have hfw : x.forwards = true := by
      rw [hx.forwards]
      simpa [Request.forwards] using hs
    have hhead : ∀ {rs : List Request}, rs.filter Request.forwards = k :: ks →
        (∀ r ∈ rs.head?, r.forwards = true) →
        ∃ rs', rs = k :: rs' ∧ rs'.filter Request.forwards = ks := by
      intro rs hf hh
      cases rs with
      | nil => cases hf
      | cons r rs =>
        rw [List.filter_cons_of_pos (hh r rfl)] at hf
        obtain ⟨rfl, rfl⟩ := List.cons.inj hf
        exact ⟨rs, rfl, rfl⟩
    cases hres : x.result with
    | error s =>
      refine ⟨[x], .error s, [], fun rs hrs hf => mutes_of_head hw (fun rs _ hf hh => ?_) hrs hf⟩
      obtain ⟨rs', rfl, -⟩ := hhead hf hh
      exact hx.ends hres hfw rs'
    | ok _ =>
      obtain ⟨ys, v, rest, hmutes⟩ := ih hks hw'
      refine ⟨x :: ys, v, rest, fun rs hrs hf =>
        mutes_of_head hw (fun rs hrs hf hh => ?_) hrs hf⟩
      obtain ⟨rs', rfl, hf'⟩ := hhead hf hh
      have := hx.goes_on hres (fun h => by rw [hfw] at h; cases h)
        (hmutes rs' (List.forall_mem_cons.mp hrs).2 hf')
      rwa [List.filter_cons_of_pos hfw] at this

end Serving

/-! ### What is seen off the guest -/

theorem sent_offGuest (t : IoTrace) : sent .host (t.filter offGuest) = sent .host t := by
  induction t with
  | nil => rfl
  | cons e t ih =>
    by_cases h : offGuest e = true
    · rw [List.filter_cons_of_pos h, sent_cons, sent_cons, ih]
    · rw [List.filter_cons_of_neg h, sent_cons, ih]
      obtain ⟨o, r⟩ := e
      cases o <;> simp_all [offGuest, eventSent]

theorem asks_offGuest (t : IoTrace) : asks (t.filter offGuest) = asks t := by
  induction t with
  | nil => rfl
  | cons e t ih =>
    have hc : ∀ u : IoTrace, asks (e :: u) = asks [e] ++ asks u := fun u => asks_append [e] u
    by_cases h : offGuest e = true
    · rw [List.filter_cons_of_pos h, hc, hc t, ih]
    · rw [List.filter_cons_of_neg h, hc, ih]
      obtain ⟨o, r⟩ := e
      cases o <;> simp_all [offGuest, asks]

theorem Muted.unseen {setup : Setup} {n : Negotiated} {rs : List Request} {ys xs : List Turn}
    {v : Except Stop Unit} (h : Muted setup n rs ys xs v) :
    (turnsTrace xs).filter offGuest = (turnsTrace ys).filter offGuest := by
  rw [← h.forwarded]
  have hs := h.swallowed
  clear h
  induction xs with
  | nil => rfl
  | cons x xs ih =>
    obtain ⟨hx, hxs⟩ := List.forall_mem_cons.mp hs
    rw [turnsTrace, List.flatMap_cons, List.filter_append]
    by_cases hf : x.forwards = true
    · rw [List.filter_cons_of_pos hf, turnsTrace, List.flatMap_cons, List.filter_append]
      exact congrArg _ (ih hxs)
    · rw [List.filter_cons_of_neg hf, (hx (by simpa using hf)).unseen, List.nil_append]
      exact ih hxs

/-! ### The session -/

/-- What a guest says up to its first op: the opening wants no byte behind it, and has read all
of it if it succeeds. -/
structure Greets (setup : Setup) (w : World Leg IoError Error) (hello : Bytes) : Prop where
  full : Only (fun e => readsFrom .guest e → clean e)
    ((opening setup).exec step (w.feed .guest hello)).trace
  whole : ∀ n, ((opening setup).exec step (w.feed .guest hello)).value = .ok n →
    recvd .guest ((opening setup).exec step (w.feed .guest hello)).trace = hello

theorem opening_undialled (setup : Setup) :
    Comp.ActsIn (fun e => ¬ Interaction.dials .guest e) (opening setup) :=
  opening_acts (fun e he hd => by
    obtain ⟨o, r⟩ := e
    cases o <;> simp_all [steady, Interaction.dials]) (fun _ h => by cases h) setup

section Session

variable {setup : Setup} {w : World Leg IoError Error} {hello : Bytes}

/-- The opening is the same whatever the guest says behind its greeting. -/
theorem Greets.opens (hg : Greets setup w hello) :
    ∃ (w₀ : World Leg IoError Error) (left : Bytes),
      (∀ n, ((opening setup).exec step (w.feed .guest hello)).value = .ok n → left = []) ∧
      (w.Generous → w₀.Generous) ∧
      ∀ y, Follows step (w.feed .guest (hello ++ y))
        ((opening setup).exec step (w.feed .guest hello)).trace (w₀.feed .guest (left ++ y)) := by
  have hr := Comp.exec_runs step (opening setup) (w.feed .guest hello)
  have hf := Comp.exec_follows step (opening setup) (w.feed .guest hello)
  have hwhole := hg.whole
  have hfull := hg.full
  generalize (opening setup).exec step (w.feed .guest hello) = o at hr hf hwhole hfull
  have hd : Only (fun e => ¬ Interaction.dials .guest e) o.trace := opening_undialled setup _ _ hr
  have hleft := follows_recvd .guest hf hd
  rw [feed_peers_self] at hleft
  refine ⟨o.state, (o.state.peers .guest).incoming, fun n hn => ?_,
    fun hw => (hw.feed .guest _).follows hf, fun y => ?_⟩
  · rw [hwhole n hn] at hleft
    exact List.append_cancel_left (hleft.symm.trans (List.append_nil _).symm)
  · have h := follows_feed hf (fun e he => ⟨hfull e he, hd e he⟩)
      ((o.state.peers .guest).incoming ++ y)
    rwa [← List.append_assoc, ← hleft, feed_feed] at h

end Session

/-! ### Handshakes that are well formed -/

section Handshake

variable {α β : Type} {setup : Setup} {w : World Leg IoError Error} {d : Leg}
  {x y out rest : Bytes} {p : Async α} {f : α → Async β} {t : IoTrace}

/-- All reads from the guest are full, and if the program returns they have taken `x`. -/
def Hears (w : World Leg IoError Error) (x : Bytes) (p : Async α) : Prop :=
  Only (fun e => readsFrom .guest e → clean e) (p.exec step w).trace ∧
    ∀ a, (p.exec step w).value = .ok a → recvd .guest (p.exec step w).trace = x

theorem hears_unheard (hp : Comp.ActsIn unheard p) : Hears w [] p := by
  have ho : Only unheard (p.exec step w).trace := hp _ _ (Comp.exec_runs step p w)
  exact ⟨ho.mono fun _ he hr => absurd hr he.1, fun _ _ => recvd_unheard ho⟩

/-- A smooth stretch first. -/
theorem hears_carries {a : α} (hw : w.Generous) (ht : p.Runs t (.ok a))
    (hc : Carries .guest d x out t) (hf : Hears (w.feed .guest rest) y (f a)) :
    Hears (w.feed .guest (x ++ rest)) (x ++ y) (p >>= f) := by
  rw [Hears, Comp.exec_bind_ok ht (follows_carries hw hc rest)]
  refine ⟨only_append.mpr ⟨hc.clean.mono fun _ he _ => he, hf.1⟩, fun b hb => ?_⟩
  change recvd .guest (t ++ _) = _
  rw [recvd_append, hc.recvd, hf.2 b hb]

/-- Something first that does not hear the guest. -/
theorem hears_bind (hw : w.Generous) (hp : Comp.ActsIn unheard p)
    (hf : ∀ a (w' : World Leg IoError Error), (p.exec step (w.feed .guest x)).value = .ok a →
      w'.Generous → Hears (w'.feed .guest x) y (f a)) : Hears (w.feed .guest x) y (p >>= f) := by
  have hr := Comp.exec_runs step p (w.feed .guest x)
  have hfol := Comp.exec_follows step p (w.feed .guest x)
  cases hv : (p.exec step (w.feed .guest x)).value with
  | error s =>
    rw [Hears, Comp.exec_bind_error hv]
    exact ⟨(hears_unheard hp).1, nofun⟩
  | ok a =>
    generalize p.exec step (w.feed .guest x) = o at hr hfol hv hf
    rw [hv] at hr
    have ho : Only unheard o.trace := hp _ _ hr
    have hleft := follows_recvd .guest hfol (ho.mono fun _ he => he.2)
    rw [feed_peers_self, recvd_unheard ho, List.nil_append] at hleft
    have hs : o.state.feed .guest x = o.state := feed_self hleft.symm
    have h := hf a o.state hv ((hw.feed .guest x).follows hfol)
    rw [hs] at h
    rw [Hears, Comp.exec_bind_ok hr hfol]
    refine ⟨only_append.mpr ⟨ho.mono fun _ he hr => absurd hr he.1, h.1⟩, fun b hb => ?_⟩
    change recvd .guest (o.trace ++ _) = _
    rw [recvd_append, recvd_unheard ho, h.2 b hb, List.nil_append]

/-- The host's side of the handshakes. -/
def hostHandshake (advertised : List Bytes) : Async Negotiated := do
  context "dial host daemon" (dial .host)
  context "host daemon handshake" (upstream advertised .host)

theorem hostHandshake_unheard (advertised : List Bytes) :
    Comp.ActsIn unheard (hostHandshake advertised) :=
  (dial_acts fun _ => ⟨id, nofun⟩ : Comp.ActsIn unheard (dial .host)).mapStop.bind fun _ =>
    ((upstream_converses advertised .host).acts.mono fun _ =>
      unheard_of_reads_or_puts (by decide)).mapStop

theorem greeting_unheard (fuel : Nat) : Comp.ActsIn unheard (greeting fuel) := by
  rw [greeting_eq]
  exact (header_copies.acts.mono fun _ => unheard_of_reads_or_puts (by decide)).bind fun _ =>
    ((relayInner_acts .host .guest true fuel).mono fun _ =>
      unheard_of_reads_or_puts (by decide)).mapStop.bind fun _ => flush_unheard .guest

theorem opening_steps (setup : Setup) : opening setup =
    context "guest handshake" (within handshakeTimeout (guestMagic .guest)) >>= fun _ =>
      hostHandshake setup.advertised >>= fun n =>
        context "guest handshake" (within handshakeTimeout (downstream .guest n)) >>= fun _ =>
          postHandshake >>= fun _ => greeting setup.fuel >>= fun _ => pure n := by
  simp only [opening, handshakes, hostHandshake, bind_assoc, pure_bind]

/-- Magic, the handshake that goes with what the host negotiates, and the words behind it. -/
theorem greets_of_handshake {a : UInt64} {z : Bytes} (hw : w.Generous)
    (hx : ∀ n, ((hostHandshake setup.advertised).exec step (w.feed .guest (x ++ z))).value =
      .ok n → ∃ y, DownstreamTalk n x y) (hz : clientFormat a z) :
    Greets setup w (le64 workerMagic1 ++ (x ++ z)) := by
  have h : Hears (w.feed .guest (le64 workerMagic1 ++ (x ++ z)))
      (le64 workerMagic1 ++ (x ++ z)) (opening setup) := by
    rw [opening_steps]
    obtain ⟨t₁, h₁, hc₁⟩ := (guestMagic_decodes .guest).carries (a := ()) rfl .host
    refine hears_carries hw ((Comp.runs_mapStop_ok _ _).mpr ((Comp.runs_mapStop_ok _ _).mpr h₁))
      hc₁ (hears_bind hw (hostHandshake_unheard _) fun n w' hn hw' => ?_)
    obtain ⟨y, htalk⟩ := hx n hn
    obtain ⟨t₂, h₂, hc₂, hr₂, hs₂⟩ := (downstream_converses .guest n).complete (a := ()) htalk
    refine hears_carries hw'
      ((Comp.runs_mapStop_ok _ _).mpr ((Comp.runs_mapStop_ok _ _).mpr h₂))
      ⟨(downstream_converses .guest n).only h₂, hc₂, hr₂, hs₂⟩ ?_
    obtain ⟨t₃, h₃, hc₃⟩ := clientFields_copies.carries hz
    obtain ⟨t₄, h₄, hc₄⟩ := Posing.of_flush hc₃
    have hpost : postHandshake.Runs (t₃ ++ t₄) (.ok ()) :=
      ((Comp.runs_mapStop_ok _ _).mpr ((Comp.runs_mapStop_ok _ _).mpr h₃)).bind h₄
    have hend : Hears (w'.feed .guest (z ++ [])) (z ++ []) (postHandshake >>= fun _ =>
        greeting setup.fuel >>= fun _ => (pure n : Async Negotiated)) :=
      hears_carries hw' hpost hc₄.carries
        (hears_unheard ((greeting_unheard setup.fuel).bind fun _ => .pure n))
    rwa [List.append_nil] at hend
  exact ⟨h.1, h.2⟩

end Handshake

section Session

variable {setup : Setup} {w : World Leg IoError Error} {hello : Bytes}

/-- A session over `rs`: the opening, the turns, of which `ys` are what is not swallowed, and
what follows the last. -/
def Agrees (setup : Setup) (n : Negotiated) (t₀ rest : IoTrace) (ys : List Turn)
    (v : Except Stop Unit) (rs : List Request) (t : IoTrace) : Prop :=
  ∃ xs, t = t₀ ++ (turnsTrace xs ++ rest) ∧ Muted setup n rs ys xs v

theorem Agrees.unseen {n : Negotiated} {t₀ rest t t' : IoTrace} {ys : List Turn}
    {v : Except Stop Unit} {rs rs' : List Request} (h : Agrees setup n t₀ rest ys v rs t)
    (h' : Agrees setup n t₀ rest ys v rs' t') : t.filter offGuest = t'.filter offGuest := by
  obtain ⟨xs, rfl, hm⟩ := h
  obtain ⟨xs', rfl, hm'⟩ := h'
  simp only [List.filter_append, hm.unseen, hm'.unseen]

/-- What a guest asks besides setting options decides everything but the answers to those. -/
theorem setOptions_noninterference {rs rs' : List Request} (hw : w.Generous)
    (hg : Greets setup w hello)
    (hv : ∀ n, ((opening setup).exec step (w.feed .guest hello)).value = .ok n →
      ∀ r, r ∈ rs ∨ r ∈ rs' → r.Valid n.realisationWithPath)
    (hfuel : rs.length < setup.fuel ∧ rs'.length < setup.fuel)
    (hrs : rs.filter Request.forwards = rs'.filter Request.forwards) :
    let o := (run setup).exec step (w.feed .guest (hello ++ rs.flatMap Request.encode))
    let o' := (run setup).exec step (w.feed .guest (hello ++ rs'.flatMap Request.encode))
    o.value = o'.value ∧ sent .host o.trace = sent .host o'.trace ∧
      asks o.trace = asks o'.trace ∧ o.trace.filter offGuest = o'.trace.filter offGuest ∧
      (o.trace = o'.trace ∧ (∃ s, o.value = .error s ∧ (opening setup).Runs o.trace (.error s)) ∨
        ∃ n t₀ rest ys, (opening setup).Runs t₀ (.ok n) ∧
          Agrees setup n t₀ rest ys o.value rs o.trace ∧
          Agrees setup n t₀ rest ys o.value rs' o'.trace) := by
  obtain ⟨w₀, left, hleft, hw₀, hfol⟩ := hg.opens
  have h₀ := Comp.exec_runs step (opening setup) (w.feed .guest hello)
  generalize (opening setup).exec step (w.feed .guest hello) = o₀ at hv hleft hfol h₀
  intro o o'
  cases hres : o₀.value with
  | error s =>
    rw [hres] at h₀
    have hrun : (run setup).Runs o₀.trace (.error s) := by
      rw [run_eq]
      exact (Comp.runs_bind _).mpr (.inr ⟨s, rfl, h₀⟩)
    have ho : o = _ := Comp.exec_eq hrun (hfol _)
    have ho' : o' = _ := Comp.exec_eq hrun (hfol _)
    rw [ho, ho']
    exact ⟨rfl, rfl, rfl, rfl, .inl ⟨rfl, s, rfl, h₀⟩⟩
  | ok n =>
    rw [hres] at h₀
    obtain rfl := hleft n hres
    have hvalid := hv n hres
    obtain ⟨ys, v, rest, hmutes⟩ := mutes_filter setup (rs.filter Request.forwards)
      (fun r hr => by
        obtain ⟨hr, hf⟩ := List.mem_filter.mp hr
        exact ⟨by simpa [Request.forwards] using hf, hvalid r (.inl hr)⟩) (hw₀ hw)
    -- Either guest gets what `mutes_filter` says.
    have hsession : ∀ rs', (∀ r ∈ rs', r.Valid n.realisationWithPath) →
        rs'.length < setup.fuel → rs'.filter Request.forwards = rs.filter Request.forwards →
        ∃ t w', (run setup).exec step (w.feed .guest (hello ++ rs'.flatMap Request.encode)) =
          ⟨t, v, w'⟩ ∧ Agrees setup n o₀.trace rest ys v rs' t := by
      intro rs' hv' hf' he
      obtain ⟨xs, w', hm, hrun, hf⟩ := hmutes rs' hv' he
      have hr : (run setup).Runs (o₀.trace ++ (turnsTrace xs ++ rest)) v := by
        rw [run_eq]
        exact h₀.bind (hrun setup.fuel hf')
      have hfollows : Follows step (w.feed .guest (hello ++ rs'.flatMap Request.encode))
          (o₀.trace ++ (turnsTrace xs ++ rest)) w' := (follows_append ..).mpr ⟨_, hfol _, hf⟩
      exact ⟨_, w', Comp.exec_eq hr hfollows, xs, rfl, hm⟩
    obtain ⟨t, w₁, ho, ha⟩ := hsession rs (fun r hr => hvalid r (.inl hr)) hfuel.1 rfl
    obtain ⟨t', w₂, ho', ha'⟩ := hsession rs' (fun r hr => hvalid r (.inr hr)) hfuel.2 hrs.symm
    replace ho : o = _ := ho
    replace ho' : o' = _ := ho'
    have hoff := ha.unseen ha'
    rw [ho, ho']
    refine ⟨rfl, ?_, ?_, hoff, .inr ⟨n, o₀.trace, rest, ys, h₀, ha, ha'⟩⟩
    · rw [← sent_offGuest t, hoff, sent_offGuest]
    · rw [← asks_offGuest t, hoff, asks_offGuest]

end Session

/-! ### A path that is filled, with options and without -/

/-- A host that knows the path once it was filled. -/
def mutedWorld : World Leg IoError Error :=
  sessionWorld [] (hostSample [.last [] (le64 0), .last [] (le64 1)]) [.granted]

def optionsSample : Request := .setOptions (List.replicate 12 7) [(utf8 "max-jobs", utf8 "9")]

theorem mutedWorld_greets : Greets sampleSetup mutedWorld (guestSample []) := by
  change Greets _ _ (le64 workerMagic1 ++ (le64 0x125 ++ (le64 0 ++ (le64 0 ++ []))))
  refine greets_of_handshake (sessionWorld_generous _ _ _) (fun n hn => ?_)
    (⟨0, _, _, ⟨trivial, rfl⟩, ⟨trivial, rfl⟩, rfl⟩ : clientFormat 0 _)
  have hversion : ((hostHandshake sampleSetup.advertised).exec step (mutedWorld.feed .guest
      (le64 0x125 ++ (le64 0 ++ (le64 0 ++ []))))).value.map (·.version) = .ok ⟨1, 37⟩ := by
    decide +kernel
  rw [hn] at hversion
  obtain ⟨version, features⟩ := n
  obtain rfl : version = ⟨1, 37⟩ := Except.ok.inj hversion
  have hold : ¬ featureExchange ≤ (⟨1, 37⟩ : Version) := by decide
  exact ⟨_, 0x125, [], (by decide : (⟨1, 37⟩ : Version) ≤ Version.fromWire 0x125),
    fun h => absurd h hold, rfl, rfl⟩

theorem setOptions_noninterference_sample :
    let o := (run sampleSetup).exec step (mutedWorld.feed .guest
      (guestSample [] ++ [optionsSample, .isValidPath samplePath].flatMap Request.encode))
    let o' := (run sampleSetup).exec step (mutedWorld.feed .guest
      (guestSample [] ++ [.isValidPath samplePath].flatMap Request.encode))
    o.value = o'.value ∧ sent .host o.trace = sent .host o'.trace ∧
      asks o.trace = asks o'.trace := by
  have hv : ∀ n, ((opening sampleSetup).exec step (mutedWorld.feed .guest (guestSample []))).value =
      .ok n → ∀ r, r ∈ [optionsSample, .isValidPath samplePath] ∨ r ∈ [.isValidPath samplePath] →
      r.Valid n.realisationWithPath := by
    have hpath : samplePath.length ≤ maxGuestString.toNat := by decide
    rintro n - r (hr | hr)
    · rcases List.mem_cons.mp hr with rfl | hr
      · exact ⟨by simp, by decide, by decide⟩
      · obtain rfl := List.mem_singleton.mp hr
        exact hpath
    · obtain rfl := List.mem_singleton.mp hr
      exact hpath
  have h := setOptions_noninterference (sessionWorld_generous _ _ _) mutedWorld_greets hv
    ⟨by decide, by decide⟩ rfl
  exact ⟨h.1, h.2.1, h.2.2.1⟩

end Claudepod
