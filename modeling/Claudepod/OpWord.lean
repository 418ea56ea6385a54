import Claudepod.Chunks
import Claudepod.Wire

/-! The op word: the loop of `read_u64_or_eof` over its buffer, among readers that deliver the
stream in pieces. -/

set_option autoImplicit false

namespace Claudepod
open Interaction

/-! ### The loop over the buffer -/

/-- The length of `buf[filled..]`, or `none` where that is out of range. -/
def sliceFrom (buf : Bytes) (filled : Nat) : Option Nat :=
  if filled ≤ buf.length then some (buf.length - filled) else none

/-- The buffer behind a read of `bs` into `buf[filled..]`. -/
def overwrite (buf : Bytes) (filled : Nat) (bs : Bytes) : Bytes :=
  buf.take filled ++ bs ++ buf.drop (filled + bs.length)

/-- `while filled < 8`, with `none` for a panic. -/
def fillBuffer (r : Leg) : Nat → Bytes → Nat → Async (Option (Option UInt64))
  | 0, _, _ => throw .exhausted
  | fuel+1, buf, filled =>
    if filled < 8 then
      match sliceFrom buf filled with
      | none => pure none
      | some len => do
        let bs ← readSome r len
        if bs.length = 0 then
          if filled = 0 then pure (some none) else bail "eof in the middle of a u64"
        else fillBuffer r fuel (overwrite buf filled bs) (filled + bs.length)
    else pure (some (some (ofLe64 buf)))

/-- `[0u8; 8]`, of which nothing is filled. -/
def readU64OrEofBuffer (r : Leg) (fuel : Nat) : Async (Option (Option UInt64)) :=
  fillBuffer r fuel (List.replicate 8 0) 0

/-- What is done with a read needs to be known for what can be read only. -/
theorem readSome_congr {α : Type} {r : Leg} {n : Nat} {f g : Bytes → Async α}
    (h : ∀ bs, bs.length ≤ n → f bs = g bs) : readSome r n >>= f = readSome r n >>= g := by
  rw [readSome, bind_assoc, bind_assoc]
  congr 1
  funext chunk
  rcases chunk with ⟨bs, hb, hn⟩ | _ | f
  · rw [pure_bind, pure_bind]
    exact h bs hn
  · rw [pure_bind, pure_bind]
    exact h [] (Nat.zero_le n)
  · rfl

/-- The loop fills its buffer from the front and does not leave it. -/
theorem fillBuffer_eq (r : Leg) (fuel : Nat) {buf : Bytes} {filled : Nat} (hb : buf.length = 8)
    (hf : filled ≤ 8) : fillBuffer r fuel buf filled =
      fillU64 r fuel (buf.take filled) >>= fun word => pure (some word) := by
  induction fuel generalizing buf filled with
  | zero => rfl
  | succ fuel ih =>
    have hl : (buf.take filled).length = filled := by
      rw [List.length_take]
      omega
    unfold fillBuffer fillU64
    rw [hl]
    by_cases h8 : filled < 8
    · rw [if_pos h8, if_pos h8, sliceFrom, if_pos (by omega), hb, bind_assoc]
      refine readSome_congr fun bs hbs => ?_
      by_cases h0 : bs = []
      · have hn : buf.take filled = [] ↔ filled = 0 := by
          rw [← List.length_eq_zero_iff, hl]
        rw [if_pos (by rw [h0]; rfl), if_pos h0]
        simp only [hn]
        split
        · rfl
        · rfl
      · rw [if_neg (fun h => h0 (List.length_eq_zero_iff.mp h)), if_neg h0,
          ih (by simp only [overwrite, List.length_append, List.length_drop, hl]; omega)
            (by omega)]
        have ht : (overwrite buf filled bs).take (filled + bs.length) = buf.take filled ++ bs := by
          rw [overwrite]
          exact List.take_left' (by rw [List.length_append, hl])
        rw [ht]
    · obtain rfl : filled = 8 := by omega
      rw [if_neg h8, if_neg h8, List.take_of_length_le (by omega)]
      rfl

/-! ### Reading what is delivered -/

/-- What reading an op word off `bs` comes to. -/
def opWord (bs : Bytes) : Except Stop (Option UInt64) :=
  if bs = [] then .ok none
  else if bs.length < 8 then .error (.failed (.msg "eof in the middle of a u64"))
  else .ok (some (ofLe64 (bs.take 8)))

theorem opWord_cases (bs : Bytes) :
    (bs = [] ∧ opWord bs = .ok none) ∨
      (0 < bs.length ∧ bs.length < 8 ∧
        opWord bs = .error (.failed (.msg "eof in the middle of a u64"))) ∨
      (8 ≤ bs.length ∧ opWord bs = .ok (some (ofLe64 (bs.take 8)))) := by
  unfold opWord
  by_cases hn : bs = []
  · exact .inl ⟨hn, if_pos hn⟩
  rw [if_neg hn]
  by_cases h8 : bs.length < 8
  · exact .inr (.inl ⟨List.length_pos_of_ne_nil hn, h8, if_pos h8⟩)
  · exact .inr (.inr ⟨by omega, if_neg h8⟩)

section Delivered

variable {σ : Type} {r : Leg} {env : Interaction.Env (Resp Leg IoError Error) σ} {ahead : σ → Bytes}
  {s s' : σ} {t : IoTrace}

/-- Of a read: some bytes, or none at the end. -/
theorem readSome_delivered {n : Nat} {res : Except Stop Bytes} (hd : Delivers r env ahead)
    (hn : 0 < n) (h : (readSome r n).Runs t res) (hf : Follows env s t s') :
    (ahead s = [] ∧ res = .ok []) ∨
      ∃ bs, bs ≠ [] ∧ bs.length ≤ n ∧ res = .ok bs ∧ ahead s = bs ++ ahead s' := by
  by_cases hs : ahead s = []
  · have he := hd.ends s n hn hs
    rcases readSome_runs.mp h with ⟨bs, hp, hl, rfl, rfl⟩ | ⟨rfl, rfl⟩ | ⟨f, rfl, rfl⟩
    · cases he.symm.trans hf.1
    · exact .inl ⟨hs, rfl⟩
    · cases he.symm.trans hf.1
  · obtain ⟨bs, hp, hl, he, ha⟩ := hd.readSome s n hn hs
    rcases readSome_runs.mp h with ⟨bs', hp', hl', rfl, rfl⟩ | ⟨rfl, rfl⟩ | ⟨f, rfl, rfl⟩
    · obtain rfl := (Chunk.some.inj (he.symm.trans hf.1))
      obtain rfl : s' = (env (.readSome r n) s).2 := hf.2
      exact .inr ⟨bs, List.ne_nil_of_length_pos hp, hl, rfl, ha⟩
    · cases he.symm.trans hf.1
    · cases he.symm.trans hf.1

/-- The loop ends, with the word its bytes make together with those ahead. -/
theorem fillU64_delivered {fuel : Nat} {buf : Bytes} {res : Except Stop (Option UInt64)}
    (hd : Delivers r env ahead) (h : (fillU64 r fuel buf).Runs t res) (hf : Follows env s t s')
    (hb : buf.length ≤ 8) (hfuel : 8 < fuel + buf.length) :
    res = opWord (buf ++ ahead s) ∧
      (8 ≤ (buf ++ ahead s).length → ahead s' = (buf ++ ahead s).drop 8) := by
  induction fuel generalizing buf s t with
  | zero => omega
  | succ fuel ih =>
    unfold fillU64 at h
    by_cases h8 : buf.length < 8
    · rw [if_pos h8] at h
      have hn : 0 < 8 - buf.length := by omega
      rcases (Comp.runs_bind _).mp h with ⟨bs, t₁, t₂, rfl, h₁, h₂⟩ | ⟨e, rfl, h₁⟩
      · obtain ⟨m, hf₁, hf₂⟩ := (follows_append ..).mp hf
        rcases readSome_delivered hd hn h₁ hf₁ with ⟨hs, hres⟩ | ⟨bs', hne, hl, hres, hs⟩
        · obtain rfl := Except.ok.inj hres
          rw [hs, List.append_nil, opWord]
          refine ⟨?_, fun hlen => absurd hlen (by omega)⟩
          rw [if_pos rfl] at h₂
          split at h₂
          · rename_i he
            rw [if_pos he]
            exact ((Comp.runs_pure _ _).mp h₂).2
          · rename_i he
            rw [if_neg he, if_pos h8]
            exact ((Comp.runs_throw _ _).mp h₂).2
        · obtain rfl := Except.ok.inj hres
          rw [if_neg hne] at h₂
          rw [hs, ← List.append_assoc]
          exact ih h₂ hf₂ (by rw [List.length_append]; omega)
            (by have := List.length_pos_of_ne_nil hne; rw [List.length_append]; omega)
      · rcases readSome_delivered hd hn h₁ hf with ⟨-, hres⟩ | ⟨bs', -, -, hres, -⟩
        · cases hres
        · cases hres
    · have hlen : buf.length = 8 := by omega
      rw [if_neg h8] at h
      obtain ⟨rfl, rfl⟩ := (Comp.runs_pure _ _).mp h
      obtain rfl : s' = s := hf
      have hne : ¬ buf ++ ahead s' = [] := fun he => by
        rw [(List.append_eq_nil_iff.mp he).1] at hlen
        cases hlen
      rw [opWord, if_neg hne, if_neg (by rw [List.length_append]; omega),
        List.take_append_of_le_length (by omega), List.take_of_length_le (by omega)]
      refine ⟨rfl, fun _ => ?_⟩
      rw [← hlen, List.drop_left]

/-- What the loop over the buffer comes to among a reader that delivers. -/
theorem readU64OrEofBuffer_exec (hd : Delivers r env ahead) (s : σ) {fuel : Nat} (hf : 8 < fuel) :
    ((readU64OrEofBuffer r fuel).exec env s).value = (opWord (ahead s)).map some ∧
      (8 ≤ (ahead s).length →
        ahead ((readU64OrEofBuffer r fuel).exec env s).state = (ahead s).drop 8) := by
  have hr := Comp.exec_runs env (readU64OrEofBuffer r fuel) s
  have hfol := Comp.exec_follows env (readU64OrEofBuffer r fuel) s
  generalize (readU64OrEofBuffer r fuel).exec env s = o at hr hfol
  rw [readU64OrEofBuffer, fillBuffer_eq r fuel (by simp) (by omega), List.take_zero] at hr
  rcases (Comp.runs_bind _).mp hr with ⟨word, t, u, ht, h₁, h₂⟩ | ⟨e, hv, h₁⟩
  · obtain ⟨rfl, hv⟩ := (Comp.runs_pure _ _).mp h₂
    rw [ht, List.append_nil] at hfol
    obtain ⟨hw, hrest⟩ := fillU64_delivered hd h₁ hfol (by simp) (by simpa using hf)
    rw [List.nil_append] at hw hrest
    exact ⟨by rw [hv, ← hw]; rfl, hrest⟩
  · obtain ⟨hw, hrest⟩ := fillU64_delivered hd h₁ hfol (by simp) (by simpa using hf)
    rw [List.nil_append] at hw hrest
    exact ⟨by rw [hv, ← hw]; rfl, hrest⟩

/-- The reader of the library gets the same eight bytes. -/
theorem readU64_exec (hd : Delivers r env ahead) (s : σ) (hl : 8 ≤ (ahead s).length) :
    ((readU64 r).exec env s).value = .ok (ofLe64 ((ahead s).take 8)) ∧
      ahead ((readU64 r).exec env s).state = (ahead s).drop 8 := by
  obtain ⟨h, hv, ha⟩ := hd.read s 8 hl
  have hrun : (readU64 r).Runs [⟨.read r 8, .full ((ahead s).take 8) h⟩]
      (.ok (ofLe64 ((ahead s).take 8))) :=
    Comp.Runs.bind (u := []) (readExact_runs.mpr (.inl ⟨_, h, rfl, rfl⟩)) ⟨rfl, rfl⟩
  have hf : Follows env s [⟨.read r 8, .full ((ahead s).take 8) h⟩] (env (.read r 8) s).2 :=
    ⟨hv, rfl⟩
  rw [Comp.exec_eq hrun hf]
  exact ⟨rfl, ha⟩

/-- However the stream is cut into reads, the loop stays within its buffer and ends: with
nothing on an empty stream, with an error on one of less than eight bytes, and otherwise with
the word the library reads. It is the op word of a session. -/
theorem readU64OrEof_chunking (hd : Delivers r env ahead) (s : σ) {fuel : Nat} (hf : 8 < fuel) :
    let o := (readU64OrEofBuffer r fuel).exec env s
    o.value ≠ .ok none ∧
      (o.value = .ok (some none) ↔ ahead s = []) ∧
      ((∃ e, o.value = .error e) ↔ 0 < (ahead s).length ∧ (ahead s).length < 8) ∧
      (∀ e, o.value = .error e → e = .failed (.msg "eof in the middle of a u64")) ∧
      (8 ≤ (ahead s).length → ∃ word, word = ofLe64 ((ahead s).take 8) ∧
        o.value = .ok (some (some word)) ∧ ahead o.state = (ahead s).drop 8 ∧
        ((readU64 r).exec env s).value = .ok word ∧
        ahead ((readU64 r).exec env s).state = (ahead s).drop 8) ∧
      readU64OrEofBuffer r 9 = readU64OrEof r >>= fun word => pure (some word) := by
  intro o
  obtain ⟨hv, hrest⟩ : o.value = _ ∧ _ := readU64OrEofBuffer_exec hd s hf
  have heq : readU64OrEofBuffer r 9 = readU64OrEof r >>= fun word => pure (some word) :=
    fillBuffer_eq r 9 (by simp) (Nat.zero_le 8)
  rcases opWord_cases (ahead s) with ⟨hs, hw⟩ | ⟨h0, h8, hw⟩ | ⟨h8, hw⟩
  · rw [hw] at hv
    rw [hv, hs]
    exact ⟨nofun, ⟨fun _ => rfl, fun _ => rfl⟩, ⟨nofun, fun h => absurd h.1 (by simp)⟩, nofun,
      fun h => absurd h (by simp), heq⟩
  · have hne : ahead s ≠ [] := List.ne_nil_of_length_pos h0
    rw [hw] at hv
    rw [hv]
    exact ⟨nofun, ⟨nofun, fun h => absurd h hne⟩, ⟨fun _ => ⟨h0, h8⟩, fun _ => ⟨_, rfl⟩⟩,
      fun _ he => (Except.error.inj he).symm, fun h => absurd h (by omega), heq⟩
  · have hne : ahead s ≠ [] := fun h => by
      rw [h] at h8
      cases h8
    rw [hw] at hv
    rw [hv]
    exact ⟨nofun, ⟨nofun, fun h => absurd h hne⟩, ⟨nofun, fun h => absurd h8 (by omega)⟩, nofun,
      fun h => ⟨_, rfl, rfl, hrest h, readU64_exec hd s h⟩, heq⟩

end Delivered

/-- A word in three pieces, and the beginning of the next. -/
def piecesSample : Chunks := ⟨[[1], [2, 3], [4, 5, 6, 7, 8, 9]], by decide⟩

theorem readU64OrEof_chunking_sample :
    ((readU64OrEofBuffer .guest 9).exec Chunks.step piecesSample).value =
        .ok (some (some 0x0807060504030201)) ∧
      ((readU64 .guest).exec Chunks.step piecesSample).value = .ok 0x0807060504030201 := by
  have h := readU64OrEof_chunking (Chunks.delivers .guest) piecesSample (by decide : 8 < 9)
  obtain ⟨word, hw, hv, -, hv', -⟩ := h.2.2.2.2.1 (by decide)
  have h0 : ofLe64 (piecesSample.bytes.take 8) = 0x0807060504030201 := by decide
  rw [hw, h0] at hv hv'
  exact ⟨hv, hv'⟩

end Claudepod
