import Claudepod.Codec

/-! Peers that react. What a peer has said is a function of the bytes it was delivered, so the
whole environment is a function of the trace so far. -/

set_option autoImplicit false

namespace Interaction

variable {ι ε δ : Type} [DecidableEq ι]

/-- What the peer of `c` has been sent and the writer does not hold any more. -/
def delivered (c : ι) (t : Trace ι ε δ) : Bytes :=
  (sent c t).take ((sent c t).length - (held c [] t).length)

theorem delivered_of_flushed {c : ι} {t : Trace ι ε δ} (h : held c [] t = []) :
    delivered c t = sent c t := by
  simp [delivered, h]

theorem sent_of_only {c : ι} {t : Trace ι ε δ} (h : Only (fun e => ¬ puts c e) t) :
    sent c t = [] :=
  sent_eq_nil h fun e hn hw => hn (by
    obtain ⟨o, r⟩ := e
    cases o <;> simp_all [writesTo, puts])

/-- Reading and writing elsewhere delivers nothing. -/
theorem delivered_append {c : ι} {t u : Trace ι ε δ} (h : Only (fun e => ¬ puts c e) u) :
    delivered c (t ++ u) = delivered c t := by
  simp [delivered, sent_of_only h, held_of_only h]

/-- What the peers say, how their streams end and what the hook answers, question by question.
They take everything they are sent and can always be dialled. -/
structure Partners (ι ε δ : Type) where
  said : ι → Bytes → Bytes
  ending : ι → Ending ε
  hook : Nat → Answer δ

namespace Partners

variable {k : Partners ι ε δ} {c d : ι} {h t u : Trace ι ε δ} {x y z : Bytes}

/-- What the peer of `c` has said and was not read yet. -/
def ahead (k : Partners ι ε δ) (h : Trace ι ε δ) (c : ι) : Bytes :=
  (k.said c (delivered c h)).drop (recvd c h).length

def answer (k : Partners ι ε δ) : (o : Call ι) → Trace ι ε δ → Resp ι ε δ o
  | .read c n, h =>
    if hn : n ≤ (k.ahead h c).length then
      .full ((k.ahead h c).take n) (by rw [List.length_take]; omega)
    else .short (k.ahead h c) (by omega) (k.ending c)
  | .readSome c n, h =>
    if hn : 0 < ((k.ahead h c).take n).length then
      .some ((k.ahead h c).take n) hn (List.length_take_le ..)
    else .ended (k.ending c)
  | .write _ _, _ => .done
  | .flush _, _ => .done
  | .dial _, _ => .done
  | .ask _, h => k.hook (asks h).length
  | .note _, _ => ()

def step (k : Partners ι ε δ) : Env (Resp ι ε δ) (Trace ι ε δ) := fun o h =>
  (k.answer o h, h ++ [⟨o, k.answer o h⟩])

/-- Behind `h`, the partners answer along `t`. -/
def Goes (k : Partners ι ε δ) (h t : Trace ι ε δ) : Prop := Follows k.step h t (h ++ t)

theorem follows_state {h' : Trace ι ε δ} (hf : Follows k.step h t h') : h' = h ++ t := by
  induction t generalizing h with
  | nil => rw [List.append_nil]; exact hf
  | cons e t ih =>
    obtain ⟨o, r⟩ := e
    obtain ⟨hr, hf⟩ := hf
    change k.answer o h = r at hr
    rw [ih hf]
    simp [step, hr]

theorem goes_nil : k.Goes h [] := List.append_nil h

theorem Goes.append (ht : k.Goes h t) (hu : k.Goes (h ++ t) u) : k.Goes h (t ++ u) := by
  rw [Goes, follows_append, ← List.append_assoc]
  exact ⟨h ++ t, ht, hu⟩

theorem goes_cons {e : Event (Resp ι ε δ)} (he : k.answer e.1 h = e.2)
    (ht : k.Goes (h ++ [e]) t) : k.Goes h (e :: t) := by
  obtain ⟨o, r⟩ := e
  change k.answer o h = r at he
  subst he
  refine ⟨rfl, ?_⟩
  rw [Goes, List.append_assoc] at ht
  exact ht

theorem ahead_eq (hs : k.said c (delivered c h) = recvd c h ++ x) : k.ahead h c = x := by
  rw [ahead, hs, List.drop_left]

theorem answer_read {n : Nat} {bs : Bytes} (hb : bs.length = n) (ha : k.ahead h c = bs ++ x) :
    k.answer (.read c n) h = .full bs hb := by
  subst hb
  simp [answer, ha]

theorem answer_readSome {n : Nat} {bs : Bytes} (hb : 0 < bs.length) (hn : bs.length = n)
    (ha : k.ahead h c = bs ++ x) :
    k.answer (.readSome c n) h = .some bs hb (Nat.le_of_eq hn) := by
  subst hn
  simp only [answer, ha, List.take_left, hb, ↓reduceDIte]

/-- The partners go along with a smooth stretch if the peer that is read has said what is read. -/
theorem goes_of_carries (hcd : d ≠ c) (ht : Carries c d x y t)
    (hs : k.said c (delivered c h) = recvd c h ++ (x ++ z)) : k.Goes h t := by
  induction t generalizing h x y with
  | nil => exact goes_nil
  | cons e t ih =>
    obtain ⟨ho, hc, hx, -⟩ := ht
    rw [only_cons] at ho hc
    rw [recvd_cons] at hx
    have hput : ¬ puts c e := by
      obtain ⟨o, r⟩ := e
      rcases ho.1 with hr | hp
      · exact not_puts_of_readsFrom (readsFrom_of_reads hr)
      · exact fun hp' => hcd (puts_eq hp hp').symm
    have hquiet : Only (fun e => ¬ puts c e) [e] := only_cons.mpr ⟨hput, only_nil⟩
    have hrest : k.said c (delivered c (h ++ [e])) = recvd c (h ++ [e]) ++ (recvd c t ++ z) := by
      rw [delivered_append hquiet, hs, ← hx, recvd_append, recvd_cons, recvd_nil]
      simp
    refine goes_cons ?_ (ih ⟨ho.2, hc.2, rfl, rfl⟩ hrest)
    have ha := ahead_eq hs
    obtain ⟨o, r⟩ := e
    cases o with
    | read c' n =>
      cases r with
      | short bs hb en => exact hc.1.elim
      | full bs hb =>
        obtain rfl : c' = c := ho.1.resolve_right id
        simp only [eventRecvd, if_pos, Got.bytes] at hx
        rw [← hx, List.append_assoc] at ha
        exact answer_read hb ha
    | write d' bs =>
      cases r with
      | done => rfl
      | cut k' hk f => exact hc.1.elim
    | flush d' =>
      cases r with
      | done => rfl
      | fault f => exact hc.1.elim
    | readSome c' n => exact (ho.1.elim id id).elim
    | dial c' => exact (ho.1.elim id id).elim
    | ask q => exact (ho.1.elim id id).elim
    | note s => exact (ho.1.elim id id).elim

/-- A run the partners go along with is what executing the program among them comes to. -/
theorem exec_of_goes {ς α : Type} {p : Proc ι ε δ ς α} {r : Except ς α} (hr : p.Runs t r)
    (ht : k.Goes h t) : p.exec k.step h = ⟨t, r, h ++ t⟩ := Comp.exec_eq hr ht

theorem exec_goes {ς α : Type} (p : Proc ι ε δ ς α) (h : Trace ι ε δ) :
    k.Goes h (p.exec k.step h).trace := by
  have hf := Comp.exec_follows k.step p h
  have := follows_state hf
  rw [this] at hf
  exact hf

/-- Partners that say the same to what is sent along a trace go along with the same trace. -/
theorem Goes.congr {k' : Partners ι ε δ} (he : k'.ending = k.ending) (hq : k'.hook = k.hook)
    (hs : ∀ c z, z <+: sent c (h ++ t) → k'.said c z = k.said c z) (ht : k.Goes h t) :
    k'.Goes h t := by
  induction t generalizing h with
  | nil => exact goes_nil
  | cons e t ih =>
    have hst : ∀ o, k.answer o h = k'.answer o h := fun o => by
      have ha : ∀ c, k'.ahead h c = k.ahead h c := fun c => by
        have hp : delivered c h <+: sent c (h ++ e :: t) := by
          rw [sent_append]
          exact (List.take_prefix ..).trans (List.prefix_append ..)
        rw [ahead, ahead, hs c _ hp]
      cases o <;> simp only [answer, ha, he, hq]
    obtain ⟨o, r⟩ := e
    obtain ⟨hr, hf⟩ := ht
    change k.answer o h = r at hr
    have hf' : k.Goes (h ++ [⟨o, r⟩]) t := by
      rw [Goes, List.append_assoc, List.singleton_append, ← hr]
      rw [← hr] at hf
      exact hf
    refine goes_cons (by rw [← hr]; exact (hst o).symm) (ih (fun c z hz => hs c z ?_) hf')
    rwa [List.append_assoc, List.singleton_append] at hz

end Partners

end Interaction
