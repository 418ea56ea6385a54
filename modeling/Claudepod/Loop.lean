import Claudepod.Turn

/-! The op loop as a list of turns, and the whole session as an opening and the loop. -/

set_option autoImplicit false

namespace Claudepod
open Interaction

/-- One pass through the loop: the op word was read and the op served, however that went. -/
structure Turn where
  word : UInt64
  reading : IoTrace
  serving : IoTrace
  result : Except Stop Unit

namespace Turn

def trace (x : Turn) : IoTrace := x.reading ++ x.serving

structure Of (setup : Setup) (n : Negotiated) (x : Turn) : Prop where
  read : (readU64OrEof .guest).Runs x.reading (.ok (some x.word))
  serve : (serveOp setup n x.word).Runs x.serving x.result

end Turn

def turnsTrace (turns : List Turn) : IoTrace := turns.flatMap Turn.trace

/-- The turns of a loop, and what it did behind the last one. Only the last turn can fail. -/
inductive Looped (setup : Setup) (n : Negotiated) :
    List Turn → IoTrace → Except Stop Unit → Prop
  | exhausted : Looped setup n [] [] (.error .exhausted)
  | hangup {t : IoTrace} : (readU64OrEof .guest).Runs t (.ok none) → Looped setup n [] t (.ok ())
  | unread {t : IoTrace} {s : Stop} : (readU64OrEof .guest).Runs t (.error s) →
      Looped setup n [] t (.error s)
  | cut {x : Turn} {s : Stop} : x.Of setup n → x.result = .error s →
      Looped setup n [x] [] (.error s)
  | turn {x : Turn} {xs : List Turn} {t : IoTrace} {r : Except Stop Unit} : x.Of setup n →
      x.result = .ok () → Looped setup n xs t r → Looped setup n (x :: xs) t r

theorem opLoop_runs {setup : Setup} {n : Negotiated} {fuel : Nat} {t : IoTrace}
    {r : Except Stop Unit} (h : (opLoop setup n fuel).Runs t r) :
    ∃ turns rest, t = turnsTrace turns ++ rest ∧ Looped setup n turns rest r := by
  induction fuel generalizing t with
  | zero =>
    obtain ⟨rfl, rfl⟩ := (Comp.runs_throw _ _).mp h
    exact ⟨[], [], rfl, .exhausted⟩
  | succ fuel ih =>
    rcases (Comp.runs_bind _).mp h with ⟨o, t₁, u, rfl, h₁, h⟩ | ⟨s, rfl, h₁⟩
    · cases o with
      | none =>
        obtain ⟨rfl, rfl⟩ := (Comp.runs_pure _ _).mp h
        exact ⟨[], t₁, by simp [turnsTrace], .hangup h₁⟩
      | some word =>
        rcases (Comp.runs_bind _).mp h with ⟨⟨⟩, t₂, t₃, rfl, h₂, h₃⟩ | ⟨s, rfl, h₂⟩
        · obtain ⟨turns, rest, rfl, hl⟩ := ih h₃
          refine ⟨⟨word, t₁, t₂, .ok ()⟩ :: turns, rest, ?_, .turn ⟨h₁, h₂⟩ rfl hl⟩
          simp [turnsTrace, Turn.trace]
        · refine ⟨[⟨word, t₁, u, .error s⟩], [], ?_, .cut ⟨h₁, h₂⟩ rfl⟩
          simp [turnsTrace, Turn.trace]
    · exact ⟨[], t, by simp [turnsTrace], .unread h₁⟩

namespace Looped

variable {setup : Setup} {n : Negotiated} {turns : List Turn} {rest : IoTrace}
  {r : Except Stop Unit}

theorem of (h : Looped setup n turns rest r) : ∀ x ∈ turns, x.Of setup n := by
  induction h with
  | exhausted => simp
  | hangup _ => simp
  | unread _ => simp
  | cut hx _ => simpa using hx
  | turn hx _ _ ih => simpa using ⟨hx, ih⟩

theorem rest_only (h : Looped setup n turns rest r) : Only (readsFrom .guest) rest := by
  induction h with
  | exhausted => simp
  | hangup h => exact (readU64OrEof_runs h).1
  | unread h => exact (readU64OrEof_runs h).1
  | cut _ _ => simp
  | turn _ _ _ ih => exact ih

/-- A loop that returns has served every op to its end and then met the end of the stream. -/
theorem ok (h : Looped setup n turns rest (.ok ())) :
    (∀ x ∈ turns, x.result = .ok ()) ∧ rest = [⟨.readSome .guest 8, .ended .eof⟩] := by
  generalize hr : Except.ok () = r at h
  induction h with
  | exhausted => cases hr
  | hangup h => exact ⟨by simp, (readU64OrEof_runs h).2.2⟩
  | unread _ => cases hr
  | cut _ _ => cases hr
  | turn _ hok _ ih =>
    obtain ⟨hall, hrest⟩ := ih hr
    subst hr
    exact ⟨by simpa using ⟨hok, hall⟩, hrest⟩

end Looped

/-- What passes in the exchanges, one behind the other, with the fills asked for. -/
def exchangesFlow (xs : List Exchange) (fills : List (Bytes × Answer Error)) : Flow :=
  ⟨xs.flatMap fun x => x.request.encode, xs.flatMap Exchange.toHost,
    xs.flatMap Exchange.fromHost, xs.flatMap Exchange.toGuest, fills⟩

/-- A turn that returns is a legal exchange. -/
theorem Turn.Of.exchange {setup : Setup} {n : Negotiated} {x : Turn} (h : x.Of setup n)
    (hr : x.result = .ok ()) :
    ∃ e : Exchange, Legal n.realisationWithPath (fillable setup.nixRunRoots) e ∧
      e.Shows setup x.serving ∧ flow x.trace = exchangesFlow [e] (asks x.trace) := by
  have hs := h.serve
  rw [hr] at hs
  obtain ⟨e, hl, hw, hx⟩ := serveOp_ok hs
  obtain ⟨ho, hword⟩ := readU64OrEof_runs h.read
  change [] ++ recvd .guest x.reading = le64 x.word at hword
  rw [List.nil_append] at hword
  have hread : flow x.reading = ⟨le64 x.word, [], [], [], asks x.reading⟩ := by
    rw [flow, hword, sent_of_reads ho, sent_of_reads ho, recvd_eq_nil (c := .host) ho]
    rintro ⟨o, r⟩ he hn
    cases o <;> simp_all [readsFrom]
  refine ⟨e, hl, hx, ?_⟩
  rw [Turn.trace, flow_append, hread, hx.bytes, Flow.append_mk, ← hw, asks_append]
  simp [exchangesFlow, Request.encode]

theorem exchangesFlow_append (xs ys : List Exchange) (f g : List (Bytes × Answer Error)) :
    exchangesFlow xs f ++ exchangesFlow ys g = exchangesFlow (xs ++ ys) (f ++ g) := by
  simp [exchangesFlow]

/-- A loop that returns is a list of legal exchanges. -/
theorem Looped.exchanges {setup : Setup} {n : Negotiated} {turns : List Turn} {rest : IoTrace}
    {r : Except Stop Unit} (h : Looped setup n turns rest r) (hr : r = .ok ()) :
    ∃ xs : List Exchange,
      (∀ e ∈ xs, Legal n.realisationWithPath (fillable setup.nixRunRoots) e) ∧
      flow (turnsTrace turns ++ rest) = exchangesFlow xs (asks (turnsTrace turns ++ rest)) := by
  induction h with
  | exhausted => cases hr
  | hangup h =>
    refine ⟨[], by simp, ?_⟩
    rw [show turnsTrace [] = [] from rfl, List.nil_append, (readU64OrEof_runs h).2.2]
    rfl
  | unread _ => cases hr
  | cut _ _ => cases hr
  | @turn x xs t r hx hok _ ih =>
    obtain ⟨es, hes, hf⟩ := ih hr
    obtain ⟨e, he, -, hx⟩ := hx.exchange hok
    refine ⟨e :: es, by simpa using ⟨he, hes⟩, ?_⟩
    rw [show turnsTrace (x :: xs) = x.trace ++ turnsTrace xs from List.flatMap_cons,
      List.append_assoc, flow_append, hx, hf, exchangesFlow_append, asks_append x.trace]
    rfl

/-- Everything before the op loop. -/
def opening (setup : Setup) : Async Negotiated := do
  let negotiated ← handshakes setup.advertised
  postHandshake
  greeting setup.fuel
  pure negotiated

theorem run_eq (setup : Setup) :
    run setup = opening setup >>= fun n => opLoop setup n setup.fuel := by
  simp only [run, opening, bind_assoc, pure_bind]

/-- A session either fails in its opening or is an opening and a loop. -/
theorem run_runs {setup : Setup} {t : IoTrace} {r : Except Stop Unit}
    (h : (run setup).Runs t r) :
    (∃ s, r = .error s ∧ (opening setup).Runs t (.error s)) ∨
      ∃ n t₀ turns rest, t = t₀ ++ (turnsTrace turns ++ rest) ∧
        (opening setup).Runs t₀ (.ok n) ∧ Looped setup n turns rest r := by
  rw [run_eq] at h
  rcases (Comp.runs_bind _).mp h with ⟨n, t₀, u, rfl, h₀, h⟩ | ⟨s, rfl, h₀⟩
  · obtain ⟨turns, rest, rfl, hl⟩ := opLoop_runs h
    exact .inr ⟨n, t₀, turns, rest, rfl, h₀, hl⟩
  · exact .inl ⟨s, rfl, h₀⟩

/-! ### A session over version 1.37, without features -/

def guestSample (rs : List Request) : Bytes :=
  le64 workerMagic1 ++ (le64 0x125 ++ (le64 0 ++ (le64 0 ++ rs.flatMap Request.encode)))

def hostSample (qs : List Reply) : Bytes :=
  le64 workerMagic2 ++ (le64 0x125 ++ (encString (utf8 "2.18") ++ (le64 1 ++
    (le64 stderrLast ++ qs.flatMap Reply.encode))))

def sampleRun (setup : Setup) (rs : List Request) (qs : List Reply)
    (answers : List (Answer Error)) :
    Outcome (Resp Leg IoError Error) (Except Stop Unit) (World Leg IoError Error) :=
  (run setup).exec World.step (sessionWorld (guestSample rs) (hostSample qs) answers)

def samplePath : Bytes := utf8 "/nix/store/a-b"

def sampleSetup : Setup := hookSetup (some ⟨[samplePath]⟩) 8

/-- The host knows the path only once it was filled. -/
def sampleFilled : Outcome (Resp Leg IoError Error) (Except Stop Unit) (World Leg IoError Error) :=
  sampleRun sampleSetup [.isValidPath samplePath] [.last [] (le64 0), .last [] (le64 1)] [.granted]

theorem sampleRun_runs (setup : Setup) (rs : List Request) (qs : List Reply)
    (answers : List (Answer Error)) :
    (run setup).Runs (sampleRun setup rs qs answers).trace (sampleRun setup rs qs answers).value :=
  Comp.exec_runs ..

theorem sampleFilled_runs : (run sampleSetup).Runs sampleFilled.trace sampleFilled.value :=
  sampleRun_runs ..

end Claudepod
