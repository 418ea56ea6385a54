import Claudepod.Monitor
import Claudepod.Codec

/-! The monitor that remembers the bytes a connection has been sent. -/

set_option autoImplicit false

namespace Interaction

variable {ι ε δ ς α β : Type} [DecidableEq ι] {c : ι}

/-- The bytes accepted by the writer of `c`; the environment keeps `rely`. -/
def ledger (c : ι) (rely : Event (Resp ι ε δ) → Prop) : Monitor (Resp ι ε δ) Bytes where
  step s e := s ++ eventSent c e
  rely := rely
  guar _ _ := True

namespace ledger

variable {rely : Event (Resp ι ε δ) → Prop} {P E : Bytes → Prop} {p : Proc ι ε δ ς α}
  {Q : α → Bytes → Prop}

theorem after_eq (s : Bytes) (t : Trace ι ε δ) : (ledger c rely).after s t = s ++ sent c t := by
  induction t generalizing s with
  | nil => simp
  | cons e t ih =>
    show (ledger c rely).after (s ++ eventSent c e) t = _
    rw [ih, sent_cons, List.append_assoc]

theorem meets (s : Bytes) (t : Trace ι ε δ) : (ledger c rely).Meets s t := by
  induction t generalizing s with
  | nil => trivial
  | cons e t ih => exact ⟨trivial, ih _⟩

/-- A triple from what the runs of the program send. -/
theorem of_runs (h : ∀ s t r, P s → p.Runs t r → Only rely t → Monitor.post Q E r (s ++ sent c t)) :
    (ledger c rely).Triple P p Q E := fun s t r hs hr ht =>
  ⟨meets s t, by rw [after_eq]; exact h s t r hs hr ht⟩

/-- What a triple says of one run. -/
theorem runs (h : (ledger c rely).Triple P p Q E) {s : Bytes} {t : Trace ι ε δ}
    {r : Except ς α} (hs : P s) (hr : p.Runs t r) (ht : Only rely t) :
    Monitor.post Q E r (s ++ sent c t) := by
  have ha := (h s t r hs hr ht).2
  rwa [after_eq] at ha

theorem silent (h : Silent c p) : (ledger c rely).Triple P p (fun _ => P) P :=
  of_runs fun s t r hs hr _ => by
    rw [h.sent_nil hr, List.append_nil]
    cases r with
    | ok a => exact hs
    | error e => exact hs

end ledger

end Interaction
