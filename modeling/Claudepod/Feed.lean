import Claudepod.Codec

/-! What a peer would send behind the bytes that are read does not matter: a world answers along
the same trace whatever comes after them. -/

set_option autoImplicit false

namespace Interaction

variable {ι ε δ : Type} [DecidableEq ι]

namespace World

variable {w w' : World ι ε δ} {c d : ι} {x y z : Bytes} {t : Trace ι ε δ}

/-- The world in which the peer of `c` has these bytes to send. -/
def feed (w : World ι ε δ) (c : ι) (x : Bytes) : World ι ε δ :=
  w.setPeer c { w.peers c with incoming := x }

theorem feed_peers_self : (w.feed c x).peers c = { w.peers c with incoming := x } := by
  rw [feed, setPeer_peers, if_pos rfl]

theorem feed_peers_ne (h : d ≠ c) : (w.feed c x).peers d = w.peers d := by
  rw [feed, setPeer_peers, if_neg h]

theorem setPeer_setPeer (p q : Peer ε) : (w.setPeer c p).setPeer c q = w.setPeer c q := by
  simp [setPeer]

theorem setPeer_comm (h : d ≠ c) (p q : Peer ε) :
    (w.setPeer c p).setPeer d q = (w.setPeer d q).setPeer c p := by
  simp only [setPeer, Function.update_comm h]

theorem feed_feed : (w.feed c x).feed c y = w.feed c y := by
  rw [feed, feed_peers_self, feed, setPeer_setPeer, feed]

theorem feed_self (h : (w.peers c).incoming = x) : w.feed c x = w := by
  subst h
  simp [feed, setPeer]

theorem Generous.feed (h : w.Generous) (c : ι) (x : Bytes) : (w.feed c x).Generous :=
  h.setPeer c (h.peers c)

theorem Generous.follows (h : w.Generous) (hf : Follows step w t w') : w'.Generous := by
  induction t generalizing w with
  | nil =>
    obtain rfl : w' = w := hf
    exact h
  | cons e t ih => exact ih (step_generous h e.1).1 hf.2

/-- The event takes no more from the peer of `c` than was asked for, and no other peer. -/
def fullOn (c : ι) (e : Event (Resp ι ε δ)) : Prop :=
  (readsFrom c e → clean e) ∧ ¬ Interaction.dials c e

theorem feed_credit : ((w.feed c x).peers d).credit = (w.peers d).credit := by
  by_cases h : d = c
  · subst h
    rw [feed_peers_self]
  · rw [feed_peers_ne h]

theorem feed_refusal : ((w.feed c x).peers d).refusal = (w.peers d).refusal := by
  by_cases h : d = c
  · subst h
    rw [feed_peers_self]
  · rw [feed_peers_ne h]

theorem feed_spend (k : Nat) : (w.feed c x).spend d k = (w.spend d k).feed c x := by
  by_cases h : d = c
  · subst h
    simp only [spend, feed, setPeer_peers, if_pos, setPeer_setPeer]
  · simp only [spend, feed, setPeer_peers, if_neg h, if_neg (Ne.symm h)]
    exact setPeer_comm h ..

/-- A call that hears nothing of the peer of `c`. -/
theorem step_elsewhere {o : Call ι} (hr : ¬ readsFrom c ⟨o, (step o w).1⟩)
    (hd : ¬ Interaction.dials c ⟨o, (step o w).1⟩) (y : Bytes) :
    step o (w.feed c y) = ((step o w).1, (step o w).2.feed c y) := by
  cases o with
  | read d n =>
    have h : d ≠ c := hr
    simp only [step, feed_peers_ne h]
    split
    · exact Prod.ext rfl (by simp only [feed, setPeer_peers, if_neg (Ne.symm h), setPeer_comm h])
    · exact Prod.ext rfl (by simp only [feed, setPeer_peers, if_neg (Ne.symm h), setPeer_comm h])
  | readSome d n =>
    have h : d ≠ c := hr
    simp only [step, feed_peers_ne h]
    split
    · exact Prod.ext rfl (by simp only [feed, setPeer_peers, if_neg (Ne.symm h), setPeer_comm h])
    · rfl
  | write d bs =>
    simp only [step, feed_credit, feed_refusal, feed_spend]
    split
    · rfl
    · split <;> rfl
  | flush d =>
    simp only [step, feed_credit, feed_refusal, feed_spend]
    split <;> rfl
  | dial d =>
    have h : d ≠ c := hd
    simp only [step, show (w.feed c y).dials = w.dials from rfl]
    split
    · rfl
    · rfl
    · refine Prod.ext rfl ?_
      simp only [feed, setPeer_peers, if_neg (Ne.symm h), setPeer_comm h]
      rfl
  | ask q =>
    simp only [step, show (w.feed c y).answers = w.answers from rfl]
    split <;> rfl
  | note s => rfl

theorem step_read {n : Nat} (hn : x.length = n) (y : Bytes) :
    step (.read c n) (w.feed c (x ++ y)) = (.full x hn, w.feed c y) := by
  subst hn
  simp only [step, feed_peers_self, List.length_append, Nat.le_add_right, ↓reduceDIte,
    List.take_left, List.drop_left]
  exact Prod.ext rfl (by simp only [feed, setPeer_setPeer])

theorem step_readSome {n : Nat} (h : 0 < x.length) (hn : x.length = n) (y : Bytes) :
    step (.readSome c n) (w.feed c (x ++ y)) = (.some x h (Nat.le_of_eq hn), w.feed c y) := by
  subst hn
  simp only [step, feed_peers_self, List.take_left, List.drop_left, h, ↓reduceDIte]
  exact Prod.ext rfl (by simp only [feed, setPeer_setPeer])

theorem step_feed {o : Call ι} (h : fullOn c ⟨o, (step o w).1⟩) (y : Bytes) :
    step o (w.feed c (eventRecvd c ⟨o, (step o w).1⟩ ++ y)) =
      ((step o w).1, (step o w).2.feed c y) := by
  by_cases hr : readsFrom c ⟨o, (step o w).1⟩
  · have hc := h.1 hr
    -- A full read takes the first bytes.
    have hsplit : ∀ n, n ≤ (w.peers c).incoming.length →
        ∃ x z, w.feed c (x ++ z) = w ∧ x.length = n := fun n hn =>
      ⟨(w.peers c).incoming.take n, (w.peers c).incoming.drop n,
        feed_self (List.take_append_drop ..).symm, by rw [List.length_take]; omega⟩
    cases o with
    | read d n =>
      obtain rfl : d = c := hr
      obtain ⟨x, z, hw, hx⟩ := hsplit n (by
        by_contra hn
        simp [step, hn, clean] at hc)
      have hs : step (.read d n) w = (.full x hx, w.feed d z) := by
        rw [← step_read hx z, hw]
      have he : eventRecvd d (⟨.read d n, .full x hx⟩ : Event (Resp ι ε δ)) = x := by
        simp [eventRecvd, Got.bytes]
      rw [hs, he, step_read hx, feed_feed]
    | readSome d n =>
      obtain rfl : d = c := hr
      have hn : 0 < n ∧ n ≤ (w.peers d).incoming.length := by
        unfold step at hc
        dsimp only at hc
        by_cases h0 : 0 < ((w.peers d).incoming.take n).length
        · rw [dif_pos h0] at hc
          change ((w.peers d).incoming.take n).length = n at hc
          rw [List.length_take] at h0 hc
          omega
        · rw [dif_neg h0] at hc
          exact hc.elim
      obtain ⟨x, z, hw, hx⟩ := hsplit n hn.2
      have h0 : 0 < x.length := by rw [hx]; exact hn.1
      have hs : step (.readSome d n) w = (.some x h0 (Nat.le_of_eq hx), w.feed d z) := by
        rw [← step_readSome h0 hx z, hw]
      have he : eventRecvd d
          (⟨.readSome d n, .some x h0 (Nat.le_of_eq hx)⟩ : Event (Resp ι ε δ)) = x := by
        simp [eventRecvd, Chunk.bytes]
      rw [hs, he, step_readSome h0 hx, feed_feed]
    | _ => exact hr.elim
  · have hn : eventRecvd c ⟨o, (step o w).1⟩ = [] := by
      cases o <;> simp_all [eventRecvd, readsFrom]
    rw [hn, List.nil_append]
    exact step_elsewhere hr h.2 y

/-- A trace that takes full reads only from the peer of `c` is the same whatever that peer
sends behind them. -/
theorem follows_feed (hf : Follows step w t w') (h : Only (fullOn c) t) (y : Bytes) :
    Follows step (w.feed c (recvd c t ++ y)) t (w'.feed c y) := by
  induction t generalizing w with
  | nil =>
    obtain rfl : w' = w := hf
    exact rfl
  | cons e t ih =>
    obtain ⟨o, r⟩ := e
    obtain ⟨hr, hf⟩ := hf
    change (step o w).1 = r at hr
    subst hr
    rw [only_cons] at h
    have hs := step_feed h.1 (recvd c t ++ y)
    rw [← List.append_assoc, ← recvd_cons] at hs
    refine ⟨by rw [hs], ?_⟩
    rw [hs]
    exact ih hf h.2

theorem left_feed (rest : ι → Bytes) (as : List (Answer δ)) :
    (w.feed c x).left rest as = w.left rest as := by
  simp only [World.left, show (w.feed c x).dials = w.dials from rfl]
  congr 1
  funext d
  by_cases h : d = c
  · subst h
    rw [feed_peers_self]
  · rw [feed_peers_ne h]

/-- A smooth stretch takes what it reads and changes nothing else. -/
theorem follows_carries (hg : w.Generous) (h : Carries c d x y t) (z : Bytes) :
    Follows step (w.feed c (x ++ z)) t (w.feed c z) := by
  have hleft : (w.feed c (x ++ z)).left (fun a => ((w.feed c z).peers a).incoming) w.answers =
      w.feed c z := by
    rw [left_feed, ← left_feed (c := c) (x := z)]
    exact (eq_left (fun _ => rfl) rfl).symm
  rw [← hleft]
  refine follows_of_clean h.clean (fun a => ?_) (hg.feed c _).peers ?_
  · by_cases ha : a = c
    · subst ha
      simp only [feed_peers_self, h.recvd]
    · simp only [feed_peers_ne ha, recvd_other h.only ha, List.nil_append]
  · rw [answered_eq_nil (h.only.mono fun _ => onWire_of_reads_or_puts)]
    rfl

end World

end Interaction
