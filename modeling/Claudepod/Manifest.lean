import Claudepod.Fill
import Claudepod.Paths

/-! What a manifest of run roots may look like, and which paths count as one of its lines. -/

set_option autoImplicit false

namespace Claudepod
open Interaction

/-! ### The grammar -/

/-- `HashSet::insert`: a path that is equal to one of the set is not put in. -/
def insertPath (set : List Bytes) (path : Bytes) : List Bytes :=
  if set.any fun p => components p == components path then set else set ++ [path]

def NixRunRoots.set (roots : NixRunRoots) : List Bytes := roots.paths.foldl insertPath []

/-- The lines joined with newlines, with or without one at the end. -/
def Joined (lines : List Bytes) (raw : Bytes) : Prop :=
  raw = [newline].intercalate lines ∨ lines ≠ [] ∧ raw = [newline].intercalate lines ++ [newline]

def Manifest (lines : List Bytes) (raw : Bytes) : Prop :=
  (∀ line ∈ lines, Direct line ∧ newline ∉ line) ∧ Joined lines raw

theorem Direct.ne_nil {path : Bytes} (h : Direct path) : path ≠ [] := by
  obtain ⟨hash, name, rfl, -⟩ := h
  simp

theorem parseLines_cons {n : Nat} {line : Bytes} {rest : List Bytes} (h : Direct line) :
    parseLines n (line :: rest) = (parseLines (n + 1) rest).map (line :: ·) := by
  rw [parseLines, if_neg h.ne_nil, validateDirect_ok.mpr h]

theorem parseLines_lines {lines : List Bytes} (h : ∀ line ∈ lines, Direct line) (n : Nat) :
    parseLines n lines = .ok lines ∧ parseLines n (lines ++ [[]]) = .ok lines := by
  induction lines generalizing n with
  | nil => exact ⟨rfl, rfl⟩
  | cons line lines ih =>
    obtain ⟨hd, hds⟩ := List.forall_mem_cons.mp h
    obtain ⟨h₁, h₂⟩ := ih hds (n + 1)
    rw [List.cons_append, parseLines_cons hd, parseLines_cons hd, h₁, h₂]
    exact ⟨rfl, rfl⟩

/-- Only the last field may be empty, and then it is no line. -/
theorem parseLines_fields {n : Nat} {fields lines : List Bytes}
    (h : parseLines n fields = .ok lines) : fields = lines ∨ fields = lines ++ [[]] := by
  induction fields generalizing n lines with
  | nil =>
    obtain rfl := Except.ok.inj h
    exact .inl rfl
  | cons field rest ih =>
    unfold parseLines at h
    split at h
    · rename_i hf
      subst hf
      split at h
      · rename_i hr
        obtain rfl := Except.ok.inj h
        exact .inr (by rw [hr, List.nil_append])
      · cases h
    · split at h
      · cases h
      · cases hr : parseLines (n + 1) rest with
        | error e => simp [hr, Except.map] at h
        | ok ls =>
          rw [hr] at h
          obtain rfl := Except.ok.inj h
          rcases ih hr with rfl | rfl
          · exact .inl rfl
          · exact .inr rfl

theorem parseLines_iff (n : Nat) (fields lines : List Bytes) :
    parseLines n fields = .ok lines ↔
      (∀ line ∈ lines, Direct line) ∧ (fields = lines ∨ fields = lines ++ [[]]) := by
  constructor
  · intro h
    exact ⟨fun line hl => (parseLines_ok h line hl).1, parseLines_fields h⟩
  · intro ⟨hd, h⟩
    obtain ⟨h₁, h₂⟩ := parseLines_lines hd n
    rcases h with rfl | rfl
    · exact h₁
    · exact h₂

/-- Cut at the newlines, the lines are what they were, with an empty field behind the last
newline. -/
theorem splitOn_joined {lines : List Bytes} {raw : Bytes} (hl : ∀ line ∈ lines, newline ∉ line)
    (h : Joined lines raw) :
    raw.splitOn newline = lines ∨ raw.splitOn newline = lines ++ [[]] := by
  rcases h with rfl | ⟨hne, rfl⟩
  · by_cases hn : lines = []
    · subst hn
      exact .inr rfl
    · exact .inl (List.splitOn_intercalate _ hl hn)
  · right
    rw [List.splitOn_append_cons_self, List.splitOn_intercalate _ hl hne]
    rfl

theorem joined_of_splitOn {lines : List Bytes} {raw : Bytes}
    (h : raw.splitOn newline = lines ∨ raw.splitOn newline = lines ++ [[]]) :
    (∀ line ∈ lines, newline ∉ line) ∧ Joined lines raw := by
  have hr := @List.intercalate_splitOn _ raw _ _ newline
  have hmem : ∀ line ∈ lines, newline ∉ line := by
    intro line hl
    have hf : line ∈ raw.splitOn newline := by
      rcases h with h | h <;> simp [h, hl]
    exact Fields.sep_notMem_field hf
  refine ⟨hmem, ?_⟩
  rcases h with h | h
  · exact .inl (by rw [← h, hr])
  · rw [h] at hr
    by_cases hn : lines = []
    · subst hn
      exact .inl hr.symm
    · refine .inr ⟨hn, ?_⟩
      rw [← hr, Fields.intercalate_concat hn]

/-! ### The set -/

theorem components_direct_iff {line path : Bytes} (h : Direct line) :
    components line = components path ↔ canonical path = line := by
  obtain ⟨hash, name, rfl, hh, hn, -, hhs, hns⟩ := h
  have hname : Name (hash ++ hyphen :: name) := by
    refine ⟨?_, by simp [hhs, hns, show slash ≠ hyphen by decide]⟩
    obtain ⟨b, hash, rfl⟩ := List.exists_cons_of_ne_nil hh
    simp [Skipped]
  have hnames : ∀ x ∈ [utf8 "nix", utf8 "store", hash ++ hyphen :: name], Name x := by
    have h₁ : Name (utf8 "nix") := ⟨by decide, by decide⟩
    have h₂ : Name (utf8 "store") := ⟨by decide, by decide⟩
    simp [h₁, h₂, hname]
  have hr : storePrefix ++ (hash ++ hyphen :: name) =
      rooted [utf8 "nix", utf8 "store", hash ++ hyphen :: name] := by
    have hp : storePrefix = rooted [utf8 "nix", utf8 "store"] ++ [slash] := by decide
    rw [hp, List.append_assoc]
    simp [rooted]
  rw [hr, components_eq_iff rfl, segments_rooted hnames]
  constructor
  · intro h
    obtain ⟨ha, hs⟩ := h
    unfold canonical
    rw [if_neg (by simp [ha]), if_neg (by simp [← hs]), hs]
  · intro hc
    unfold canonical at hc
    split at hc
    · rename_i ha
      rw [hc] at ha
      exact absurd rfl ha
    · rename_i ha
      split at hc
      · cases hc
      · refine ⟨by simpa using ha, ?_⟩
        have he := congrArg segments hc
        rw [segments_rooted fun x hx => mem_segments hx, segments_rooted hnames] at he
        exact he.symm

theorem Direct.canonical_eq {path : Bytes} (h : Direct path) : canonical path = path :=
  (components_direct_iff h).mp rfl

theorem insertPath_direct {set : List Bytes} {path : Bytes} (hs : ∀ p ∈ set, Direct p)
    (hd : Direct path) (hn : set.Nodup) :
    (insertPath set path).Nodup ∧ ∀ p, p ∈ insertPath set path ↔ p ∈ set ∨ p = path := by
  unfold insertPath
  split
  · rename_i hany
    obtain ⟨q, hq, he⟩ := List.any_eq_true.mp hany
    obtain rfl := (hs q hq).eq_of_components hd (beq_iff_eq.mp he)
    refine ⟨hn, fun p => ?_⟩
    constructor
    · exact .inl
    · intro h
      rcases h with h | rfl
      · exact h
      · exact hq
  · rename_i hany
    have hm : path ∉ set := fun hm => hany (List.any_eq_true.mpr ⟨path, hm, by simp⟩)
    refine ⟨?_, by simp⟩
    rw [List.nodup_append]
    refine ⟨hn, by simp, fun p hp q hq => ?_⟩
    rw [List.mem_singleton.mp hq]
    intro he
    exact hm (he ▸ hp)

theorem foldl_insertPath {lines set : List Bytes} (hl : ∀ line ∈ lines, Direct line)
    (hs : ∀ p ∈ set, Direct p) (hn : set.Nodup) :
    (lines.foldl insertPath set).Nodup ∧
      ∀ p, p ∈ lines.foldl insertPath set ↔ p ∈ set ∨ p ∈ lines := by
  induction lines generalizing set with
  | nil => simp [hn]
  | cons line lines ih =>
    obtain ⟨hd, hds⟩ := List.forall_mem_cons.mp hl
    obtain ⟨hn', hm⟩ := insertPath_direct hs hd hn
    have hs' : ∀ p ∈ insertPath set line, Direct p := by
      intro p hp
      rcases (hm p).mp hp with hp | rfl
      · exact hs p hp
      · exact hd
    obtain ⟨h₁, h₂⟩ := ih hds hs' hn'
    refine ⟨h₁, fun p => ?_⟩
    rw [List.foldl_cons, h₂, hm, List.mem_cons, or_assoc]

/-- The set of the lines, of which no two are equal. -/
theorem set_members {lines : List Bytes} (h : ∀ line ∈ lines, Direct line) :
    (NixRunRoots.mk lines).set.Nodup ∧ ∀ p, p ∈ (NixRunRoots.mk lines).set ↔ p ∈ lines := by
  obtain ⟨h₁, h₂⟩ := @foldl_insertPath lines [] h (by simp) List.nodup_nil
  refine ⟨h₁, fun p => ?_⟩
  rw [NixRunRoots.set, h₂]
  simp

theorem parseManifest_iff (raw : Bytes) (lines : List Bytes) :
    parseManifest raw = .ok ⟨lines⟩ ↔ Manifest lines raw := by
  have hp : parseManifest raw = .ok ⟨lines⟩ ↔ parseLines 1 (raw.splitOn newline) = .ok lines := by
    unfold parseManifest
    cases parseLines 1 (raw.splitOn newline) <;> simp [Except.map]
  rw [hp, parseLines_iff]
  constructor
  · intro ⟨hd, hs⟩
    obtain ⟨hn, hj⟩ := joined_of_splitOn hs
    exact ⟨fun line hl => ⟨hd line hl, hn line hl⟩, hj⟩
  · intro ⟨hl, hj⟩
    exact ⟨fun line hm => (hl line hm).1, splitOn_joined (fun line hm => (hl line hm).2) hj⟩

/-- A manifest is accepted exactly if it consists of direct paths, one a line, and then it
stands for these. -/
theorem parseManifest_grammar (raw : Bytes) (lines : List Bytes) :
    (parseManifest raw = .ok ⟨lines⟩ ↔ Manifest lines raw) ∧
      (Manifest lines raw → (NixRunRoots.mk lines).set.Nodup ∧
        ∀ path, path ∈ (NixRunRoots.mk lines).set ↔ path ∈ lines) :=
  ⟨parseManifest_iff raw lines, fun h => set_members fun line hl => (h.1 line hl).1⟩

/-- No lines and a final newline are not a manifest. -/
theorem parseManifest_newline :
    ¬ ∀ lines : List Bytes, (∀ line ∈ lines, Direct line ∧ newline ∉ line) →
      ∃ roots, parseManifest ([newline].intercalate lines ++ [newline]) = .ok roots := by
  intro h
  obtain ⟨roots, hr⟩ := h [] (by simp)
  cases hr

/-! ### Membership -/

/-- A line of the manifest, byte for byte. -/
def IsLine (raw path : Bytes) : Prop := path ≠ [] ∧ path ∈ raw.splitOn newline

theorem isLine_iff {raw path : Bytes} {roots : NixRunRoots} (h : parseManifest raw = .ok roots) :
    IsLine raw path ↔ path ∈ roots.paths := by
  obtain ⟨hl, hj⟩ := (parseManifest_iff raw roots.paths).mp h
  unfold IsLine
  constructor
  · intro ⟨hn, hp⟩
    rcases splitOn_joined (fun line hm => (hl line hm).2) hj with hs | hs
    · rwa [hs] at hp
    · rw [hs] at hp
      rcases List.mem_append.mp hp with hp | hp
      · exact hp
      · exact absurd (List.mem_singleton.mp hp) hn
  · intro hp
    refine ⟨(hl path hp).1.ne_nil, ?_⟩
    rcases splitOn_joined (fun line hm => (hl line hm).2) hj with hs | hs
    · rwa [hs]
    · simp [hs, hp]

theorem contains_iff {raw path : Bytes} {roots : NixRunRoots} (h : parseManifest raw = .ok roots) :
    roots.contains path = true ↔ IsLine raw (canonical path) := by
  obtain ⟨hl, -⟩ := (parseManifest_iff raw roots.paths).mp h
  rw [isLine_iff h]
  unfold NixRunRoots.contains
  rw [List.any_eq_true]
  constructor
  · intro ⟨line, hm, he⟩
    rwa [(components_direct_iff (hl line hm).1).mp (beq_iff_eq.mp he)]
  · intro hm
    exact ⟨_, hm, beq_iff_eq.mpr ((components_direct_iff (hl _ hm).1).mpr rfl)⟩

theorem IsLine.canonical_eq {raw path : Bytes} {roots : NixRunRoots}
    (h : parseManifest raw = .ok roots) (hp : IsLine raw path) : canonical path = path := by
  obtain ⟨hl, -⟩ := (parseManifest_iff raw roots.paths).mp h
  exact (hl path ((isLine_iff h).mp hp)).1.canonical_eq

/-! ### The fill hook -/

theorem asked_of_steady {t : IoTrace} (h : Only steady t) : asked t = [] := by
  refine List.filterMap_eq_nil_iff.mpr fun e he => ?_
  have hs := h e he
  obtain ⟨o, r⟩ := e
  cases o <;> first | rfl | exact hs.elim

theorem anyFill_asked {path : Bytes} {t : IoTrace} {r : Except Stop Unit}
    (h : (anyFill path).Runs t r) : asked t = [path] := by
  obtain ⟨answer, u, rfl, hu⟩ := (Comp.runs_perform_bind _).mp h
  cases answer with
  | granted =>
    obtain ⟨rfl, -⟩ := (Comp.runs_pure _ _).mp hu
    rfl
  | denied e =>
    obtain ⟨rfl, -⟩ := (Comp.runs_throw _ _).mp hu
    rfl
  | silent =>
    obtain ⟨rfl, -⟩ := (Comp.runs_throw _ _).mp hu
    rfl

/-- The hook is asked at most once, for the path that the guest has sent. -/
theorem intercept_asked {roots : Option NixRunRoots} {fuel : Nat} {t : IoTrace}
    {r : Except Stop Unit} (h : (interceptIsValidPath (hookSetup roots fuel)).Runs t r) :
    asked t = [] ∨ ∃ path, encString path <+: recvd .guest t ∧
      path.length ≤ maxGuestString.toNat ∧ fillable roots path = true ∧ asked t = [path] := by
  have hpose := poseIsValidPath_steady fuel
  have htell : ∀ valid, Comp.ActsIn steady (writeIsValidPathResult valid) := fun valid =>
    emits_steady (writeIsValidPathResult_emits valid) (by decide)
  have hnone : ∀ {path : Bytes} {w : UInt64} {t : IoTrace} {r : Except Stop Unit},
      (judgeIsValidPath (hookSetup roots fuel) path w >>= writeIsValidPathResult).Runs t r →
      asked t = [] ∨ fillable roots path = true ∧ asked t = [path] := by
    intro path w t r h
    have hjudge : ∀ {t r}, (judgeIsValidPath (hookSetup roots fuel) path w).Runs t r →
        asked t = [] ∨ fillable roots path = true ∧ asked t = [path] := by
      intro t r h
      rcases judgeIsValidPath_fill h with ho | ⟨t₁, t₂, s, rfl, -, hf, hr, ho⟩
      · exact .inl (asked_of_steady ho)
      · refine .inr ⟨hf, ?_⟩
        rw [asked_append, anyFill_asked hr, asked_of_steady ho]
        rfl
    rcases (Comp.runs_bind _).mp h with ⟨valid, t₁, t₂, rfl, h₁, h₂⟩ | ⟨s, -, h₁⟩
    · rw [asked_append, asked_of_steady (htell valid _ _ h₂), List.append_nil]
      exact hjudge h₁
    · exact hjudge h₁
  rw [interceptIsValidPath_eq] at h
  rcases (Comp.runs_bind _).mp h with ⟨⟨path, answer⟩, t₁, t₂, rfl, h₁, h₂⟩ | ⟨s, -, h₁⟩
  swap
  · exact .inl (asked_of_steady (hpose _ _ h₁))
  rw [asked_append, asked_of_steady (hpose _ _ h₁), List.nil_append]
  obtain ⟨hl, hp⟩ := poseIsValidPath_ok h₁
  cases hp with
  | refused _ _ _ =>
    obtain ⟨rfl, -⟩ := (Comp.runs_pure _ _).mp h₂
    exact .inl rfl
  | @answered t₁ logs w _ hf =>
    rcases hnone h₂ with ha | ⟨hfill, ha⟩
    · exact .inl ha
    · have hr : recvd .guest t₁ = encString path := congrArg Flow.fromGuest hf
      refine .inr ⟨path, ?_, hl, hfill, ha⟩
      rw [recvd_append, hr]
      exact List.prefix_append _ _

/-- Nothing but the manifest keeps the hook from being asked. -/
theorem intercept_asks {roots : Option NixRunRoots} {path : Bytes}
    (hl : path.length ≤ maxGuestString.toNat) (hf : fillable roots path = true) :
    ∃ t, (interceptIsValidPath (hookSetup roots 1)).Runs t (.error .pending) ∧
      encString path <+: recvd .guest t ∧ path ∈ asked t := by
  have hs : stringFormat maxGuestString path (encString path) := ⟨hl, rfl⟩
  obtain ⟨t₁, h₁, -, hr₁⟩ := copyPath_copies.complete hs
  have h₂ : (flush .host).Runs [⟨.flush .host, .done⟩] (.ok ()) := flush_runs.mpr (.inl ⟨rfl, rfl⟩)
  have hnil : Logs [] := by simp [Logs]
  obtain ⟨t₃, -, -, -, h₃⟩ :=
    @relayInner_complete .host .guest false [] .last .last hnil trivial rfl
  replace h₃ := h₃ 1 (Nat.succ_pos _)
  have hw : wordFormat 0 (le64 0) := ⟨trivial, rfl⟩
  obtain ⟨t₄, h₄, -⟩ := (readU64_decodes .host).complete hw
  have h₅ : (judgeIsValidPath (hookSetup roots 1) path 0).Runs [⟨.ask path, .silent⟩]
      (.error .pending) := by
    have ha : (attempt (anyFill path)).Runs [⟨.ask path, .silent⟩] (.error .pending) :=
      (Comp.runs_attempt _ _).mpr (.inr (.inr ⟨.pending, ⟨.silent, [], rfl, rfl, rfl⟩, rfl, rfl⟩))
    unfold judgeIsValidPath
    rw [if_neg (by simp), if_neg fun hn => hn hf]
    exact (Comp.runs_bind _).mpr (.inr ⟨.pending, rfl, ha⟩)
  have hpose : (poseIsValidPath 1).Runs (t₁ ++ ([⟨.flush .host, .done⟩] ++ (t₃ ++ (t₄ ++ []))))
      (.ok (path, some 0)) := by
    refine (orSyntheticError_complete h₁).bind (h₂.bind
      (((Comp.runs_mapStop_ok _ _).mpr h₃).bind ?_))
    exact ((Comp.runs_mapStop_ok _ _).mpr h₄).bind ((Comp.runs_pure _ _).mpr ⟨rfl, rfl⟩)
  refine ⟨t₁ ++ ([⟨.flush .host, .done⟩] ++ (t₃ ++ (t₄ ++ []))) ++ [⟨.ask path, .silent⟩],
    ?_, ?_, ?_⟩
  · rw [interceptIsValidPath_eq]
    exact hpose.bind ((Comp.runs_bind _).mpr (.inr ⟨.pending, rfl, h₅⟩))
  · rw [recvd_append, recvd_append, hr₁, List.append_assoc]
    exact List.prefix_append _ _
  · rw [asked_append]
    simp [asked]

/-- A path counts as a line exactly if it is one, and is asked for only then, unless it is
another spelling of a line. -/
theorem contains_exact {raw : Bytes} {roots : NixRunRoots} (h : parseManifest raw = .ok roots)
    (path : Bytes) :
    ((roots.contains path = true ↔ IsLine raw path) ↔
      (IsLine raw (canonical path) → canonical path = path)) ∧
    (path.length ≤ maxGuestString.toNat →
      ((∀ fuel t r, (interceptIsValidPath (hookSetup (some roots) fuel)).Runs t r →
          encString path <+: recvd .guest t → ∀ q ∈ asked t, IsLine raw q) ↔
        (IsLine raw (canonical path) → canonical path = path))) := by
  have hline : (IsLine raw (canonical path) → canonical path = path) ↔
      (IsLine raw (canonical path) → IsLine raw path) := by
    constructor
    · intro hc hl
      rwa [← hc hl]
    · intro hc hl
      exact (hc hl).canonical_eq h
  refine ⟨?_, fun hlen => ?_⟩
  · rw [contains_iff h, hline]
    constructor
    · exact fun hi => hi.mp
    · intro hc
      refine ⟨hc, fun hp => ?_⟩
      rwa [hp.canonical_eq h]
  · rw [hline]
    constructor
    · intro hall hl
      obtain ⟨t, ht, hr, ha⟩ := @intercept_asks (some roots) _ hlen ((contains_iff h).mpr hl)
      exact hall 1 t _ ht hr path ha
    · intro hc fuel t r ht hr q hq
      rcases intercept_asked ht with ha | ⟨p, hp, hpl, hf, ha⟩
      · simp [ha] at hq
      · obtain rfl : q = p := by simpa [ha] using hq
        obtain ⟨u, hu⟩ := hp
        obtain ⟨v, hv⟩ := hr
        obtain ⟨rfl, -⟩ := encString_unambiguous hpl hlen (hu.trans hv.symm)
        exact hc ((contains_iff h).mp hf)

theorem contains_exact_sample :
    (((NixRunRoots.mk [samplePath]).contains samplePath = true ↔
        IsLine (samplePath ++ [newline]) samplePath) ↔
      (IsLine (samplePath ++ [newline]) (canonical samplePath) →
        canonical samplePath = samplePath)) ∧
    (samplePath.length ≤ maxGuestString.toNat →
      ((∀ fuel t r, (interceptIsValidPath (hookSetup (some ⟨[samplePath]⟩) fuel)).Runs t r →
          encString samplePath <+: recvd .guest t →
            ∀ q ∈ asked t, IsLine (samplePath ++ [newline]) q) ↔
        (IsLine (samplePath ++ [newline]) (canonical samplePath) →
          canonical samplePath = samplePath))) :=
  contains_exact rfl samplePath

/-- The guest asks for a line with a slash behind it. -/
def respeltSample : Outcome (Resp Leg IoError Error) (Except Stop Unit) (World Leg IoError Error) :=
  (run (hookSetup (some ⟨[samplePath]⟩) 8)).exec World.step
    (sessionWorld (guestSample [.isValidPath (samplePath ++ [slash])])
      (hostSample [.last [] (le64 0), .last [] (le64 1)]) [.granted])

theorem contains_exact_fails :
    parseManifest (samplePath ++ [newline]) = .ok ⟨[samplePath]⟩ ∧
      (NixRunRoots.mk [samplePath]).contains (samplePath ++ [slash]) = true ∧
      ¬ IsLine (samplePath ++ [newline]) (samplePath ++ [slash]) ∧
      asked respeltSample.trace = [samplePath ++ [slash]] :=
  ⟨rfl, by decide, fun h => absurd h.2 (by decide), by decide +kernel⟩

end Claudepod
