import Claudepod.ByteStream

/-! Readers that deliver a stream of bytes in pieces, a call at a time. -/

set_option autoImplicit false

namespace Interaction

variable {ι ε δ σ : Type}

/-- A reader on `c` has the bytes `ahead` and then the end: a single read takes some of them off
the front, an exact one as many as were asked for. -/
structure Delivers (c : ι) (env : Env (Resp ι ε δ) σ) (ahead : σ → Bytes) : Prop where
  ends : ∀ s n, 0 < n → ahead s = [] → (env (.readSome c n) s).1 = .ended .eof
  readSome : ∀ s n, 0 < n → ahead s ≠ [] → ∃ bs h h',
    (env (.readSome c n) s).1 = .some bs h h' ∧ ahead s = bs ++ ahead (env (.readSome c n) s).2
  read : ∀ s n, n ≤ (ahead s).length → ∃ h,
    (env (.read c n) s).1 = .full ((ahead s).take n) h ∧
      ahead (env (.read c n) s).2 = (ahead s).drop n
  short : ∀ s n, (ahead s).length < n → ∃ h,
    (env (.read c n) s).1 = .short (ahead s) h .eof

/-! ### Given pieces -/

/-- The pieces without their first `n` bytes. -/
def dropPieces : Nat → List Bytes → List Bytes
  | _, [] => []
  | n, p :: ps => if n < p.length then p.drop n :: ps else dropPieces (n - p.length) ps

theorem flatten_dropPieces (n : Nat) (ps : List Bytes) :
    (dropPieces n ps).flatten = ps.flatten.drop n := by
  induction ps generalizing n with
  | nil => simp [dropPieces]
  | cons p ps ih =>
    rw [dropPieces, List.flatten_cons]
    by_cases hn : n < p.length
    · rw [if_pos hn, List.flatten_cons, List.drop_append_of_le_length (by omega)]
    · have hp : p.drop n = [] := List.drop_eq_nil_of_le (by omega)
      rw [if_neg hn, ih, List.drop_append, hp, List.nil_append]

theorem dropPieces_nonempty {ps : List Bytes} (h : ∀ p ∈ ps, p ≠ []) (n : Nat) :
    ∀ p ∈ dropPieces n ps, p ≠ [] := by
  induction ps generalizing n with
  | nil => simp [dropPieces]
  | cons p ps ih =>
    obtain ⟨-, hps⟩ := List.forall_mem_cons.mp h
    rw [dropPieces]
    split
    · refine List.forall_mem_cons.mpr ⟨fun hd => ?_, hps⟩
      have := List.drop_eq_nil_iff.mp hd
      omega
    · exact ih hps _

/-- Pieces, none of them empty. -/
structure Chunks where
  pieces : List Bytes
  nonempty : ∀ p ∈ pieces, p ≠ []

namespace Chunks

def bytes (cs : Chunks) : Bytes := cs.pieces.flatten

/-- What one read can get. -/
def first (cs : Chunks) : Bytes := cs.pieces.head?.getD []

def drop (n : Nat) (cs : Chunks) : Chunks :=
  ⟨dropPieces n cs.pieces, dropPieces_nonempty cs.nonempty n⟩

theorem bytes_drop (n : Nat) (cs : Chunks) : (cs.drop n).bytes = cs.bytes.drop n :=
  flatten_dropPieces n cs.pieces

/-- A single read gets no more than the first piece, which is cut where it is too long. -/
def step : Env (Resp ι ε δ) Chunks
  | .read _ n, cs =>
    if h : n ≤ cs.bytes.length then
      (.full (cs.bytes.take n) (by rw [List.length_take]; omega), cs.drop n)
    else (.short cs.bytes (by omega) .eof, cs.drop n)
  | .readSome _ n, cs =>
    if h : 0 < (cs.first.take n).length then
      (.some (cs.first.take n) h (List.length_take_le ..), cs.drop (cs.first.take n).length)
    else (.ended .eof, cs)
  | .write _ _, cs => (.done, cs)
  | .flush _, cs => (.done, cs)
  | .dial _, cs => (.done, cs)
  | .ask _, cs => (.silent, cs)
  | .note _, cs => ((), cs)

theorem first_prefix (cs : Chunks) : cs.first <+: cs.bytes := by
  obtain ⟨_ | ⟨p, ps⟩, h⟩ := cs
  · exact List.nil_prefix
  · exact List.prefix_append p ps.flatten

theorem first_ne_nil {cs : Chunks} (h : cs.bytes ≠ []) : cs.first ≠ [] := by
  obtain ⟨_ | ⟨p, ps⟩, hne⟩ := cs
  · exact absurd rfl h
  · exact hne p (.head _)

/-- Whatever the pieces are, they are delivered. -/
theorem delivers (c : ι) : Delivers c (step : Env (Resp ι ε δ) Chunks) bytes where
  ends cs n _ hs := by
    have hf : cs.first = [] := List.prefix_nil.mp (hs ▸ cs.first_prefix)
    simp [step, hf]
  readSome cs n hn hs := by
    have hf := List.length_pos_of_ne_nil (first_ne_nil hs)
    have h0 : 0 < (cs.first.take n).length := by
      rw [List.length_take]
      omega
    refine ⟨cs.first.take n, h0, List.length_take_le .., ?_, ?_⟩
    · simp only [step, h0, ↓reduceDIte]
    · simp only [step, h0, ↓reduceDIte, bytes_drop]
      obtain ⟨z, hz⟩ := (List.take_prefix n _).trans cs.first_prefix
      rw [← hz, List.drop_left]
  read cs n hn := by
    refine ⟨by rw [List.length_take]; omega, ?_, ?_⟩
    · simp only [step, hn, ↓reduceDIte]
    · simp only [step, hn, ↓reduceDIte, bytes_drop]
  short cs n hn := ⟨hn, by simp only [step, Nat.not_le_of_lt hn, ↓reduceDIte]⟩

end Chunks

end Interaction
