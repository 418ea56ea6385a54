import Claudepod.Session

/-! The bytes a stretch of a session moves between the guest and the relayed host
connection, and the fills it asks for. -/

set_option autoImplicit false

namespace Claudepod
open Interaction

@[ext] structure Flow where
  fromGuest : Bytes
  toHost : Bytes
  fromHost : Bytes
  toGuest : Bytes
  fills : List (Bytes × Answer Error)

namespace Flow

instance : Append Flow := ⟨fun a b => ⟨a.fromGuest ++ b.fromGuest, a.toHost ++ b.toHost,
  a.fromHost ++ b.fromHost, a.toGuest ++ b.toGuest, a.fills ++ b.fills⟩⟩

@[simp] theorem append_mk (g h r s g' h' r' s' : Bytes) (f f' : List (Bytes × Answer Error)) :
    (⟨g, h, r, s, f⟩ ++ ⟨g', h', r', s', f'⟩ : Flow) =
      ⟨g ++ g', h ++ h', r ++ r', s ++ s', f ++ f'⟩ := rfl

theorem append_assoc (a b c : Flow) : a ++ b ++ c = a ++ (b ++ c) := by
  cases a
  cases b
  cases c
  simp

@[simp] theorem append_nil (a : Flow) : a ++ ⟨[], [], [], [], []⟩ = a := by
  cases a
  simp

@[simp] theorem nil_append (a : Flow) : ⟨[], [], [], [], []⟩ ++ a = a := rfl

/-- Bytes for the host in front. -/
theorem toHost_append (w g h r s : Bytes) (f : List (Bytes × Answer Error)) :
    (⟨[], w, [], [], []⟩ ++ ⟨g, h, r, s, f⟩ : Flow) = ⟨g, w ++ h, r, s, f⟩ := rfl

/-- A question passed on and an answer passed back. -/
theorem append_answer (q p r a : Bytes) :
    (⟨q, p, [], [], []⟩ ++ ⟨[], [], r, a, []⟩ : Flow) = ⟨q, p, r, a, []⟩ := by
  simp

/-- A question, the reply to it, an aside with the host and an answer. -/
theorem append_judged (q p r l a b v : Bytes) (f : List (Bytes × Answer Error)) :
    (⟨q, p, [], [], []⟩ ++
        (⟨[], [], r, l, []⟩ ++ (⟨[], a, b, [], f⟩ ++ ⟨[], [], [], v, []⟩)) : Flow) =
      ⟨q, p ++ a, r ++ b, l ++ v, f⟩ := by
  simp

/-- A question passed on, an aside with the host, and an answer. -/
theorem append_aside (w q r l a b v : Bytes) (f : List (Bytes × Answer Error)) :
    (⟨[], w, [], [], []⟩ ++
        (⟨q, q, r, l, []⟩ ++ (⟨[], a, b, [], f⟩ ++ ⟨[], [], [], v, []⟩)) : Flow) =
      ⟨q, (w ++ q) ++ a, r ++ b, l ++ v, f⟩ := by
  simp

end Flow

def flow (t : IoTrace) : Flow :=
  ⟨recvd .guest t, sent .host t, recvd .host t, sent .guest t, asks t⟩

@[simp] theorem flow_nil : flow [] = ⟨[], [], [], [], []⟩ := rfl

theorem asks_of_flow {g h r s : Bytes} {f : List (Bytes × Answer Error)} {t : IoTrace}
    (ht : flow t = ⟨g, h, r, s, f⟩) : asks t = f := congrArg Flow.fills ht

theorem flow_append (t u : IoTrace) : flow (t ++ u) = flow t ++ flow u := by
  simp [flow]

variable {α : Type} {p : Async α} {F : Format α} {t : IoTrace} {r : Except Stop α} {a : α}
  {x : Bytes}

/-- Between guest and host. -/
theorem flow_up (h : Only (fun e => reads .guest e ∨ puts .host e) t) :
    flow t = ⟨recvd .guest t, sent .host t, [], [], []⟩ := by
  rw [flow, recvd_other (x := .host) h (by decide), sent_other (x := .guest) h (by decide),
    asks_eq_nil (h.mono fun _ => onWire_of_reads_or_puts)]

/-- Between host and guest. -/
theorem flow_down (h : Only (fun e => reads .host e ∨ puts .guest e) t) :
    flow t = ⟨[], [], recvd .host t, sent .guest t, []⟩ := by
  rw [flow, recvd_other (x := .guest) h (by decide), sent_other (x := .host) h (by decide),
    asks_eq_nil (h.mono fun _ => onWire_of_reads_or_puts)]

/-- Between the guest and nowhere. -/
theorem flow_sink (h : Only (fun e => reads .guest e ∨ puts .sink e) t) :
    flow t = ⟨recvd .guest t, [], [], [], []⟩ := by
  rw [flow, sent_other (x := .host) h (by decide), recvd_other (x := .host) h (by decide),
    sent_other (x := .guest) h (by decide), asks_eq_nil (h.mono fun _ => onWire_of_reads_or_puts)]

/-- On the host connection alone. -/
theorem flow_host (h : Only (fun e => reads .host e ∨ puts .host e) t) :
    flow t = ⟨[], sent .host t, recvd .host t, [], []⟩ := by
  rw [flow, recvd_other (x := .guest) h (by decide), sent_other (x := .guest) h (by decide),
    asks_eq_nil (h.mono fun _ => onWire_of_reads_or_puts)]

theorem flow_read_guest (h : Decodes .guest p F) (hr : p.Runs t r) :
    flow t = ⟨recvd .guest t, [], [], [], []⟩ := by
  rw [flow_up ((h.only hr).mono fun _ => .inl), h.sent_nil hr]

theorem flow_read_host (h : Decodes .host p F) (hr : p.Runs t r) :
    flow t = ⟨[], [], recvd .host t, [], []⟩ := by
  rw [flow_down ((h.only hr).mono fun _ => .inl), h.sent_nil hr]

theorem flow_write_host (h : Emits .host p a x) (hr : p.Runs t r) :
    flow t = ⟨[], sent .host t, [], [], []⟩ := by
  rw [flow_up ((h.only hr).mono fun _ => .inr), recvd_of_puts (h.only hr)]

theorem flow_write_guest (h : Emits .guest p a x) (hr : p.Runs t r) :
    flow t = ⟨[], [], [], sent .guest t, []⟩ := by
  rw [flow_down ((h.only hr).mono fun _ => .inr), recvd_of_puts (h.only hr)]

theorem flow_elsewhere (h : Only elsewhere t) : flow t = ⟨[], [], [], [], asks t⟩ := by
  have hr : ∀ c, c = .guest ∨ c = .host → recvd c t = [] := fun c hc => recvd_eq_nil h (by
    rintro ⟨o, r⟩ he hn
    cases o <;> simp_all [elsewhere, readsFrom])
  have hs : ∀ c, c = .guest ∨ c = .host → sent c t = [] := fun c hc => sent_eq_nil h (by
    rintro ⟨o, r⟩ he hn
    cases o <;> simp_all [elsewhere, writesTo])
  rw [flow, hr _ (.inl rfl), hr _ (.inr rfl), hs _ (.inl rfl), hs _ (.inr rfl)]

end Claudepod
