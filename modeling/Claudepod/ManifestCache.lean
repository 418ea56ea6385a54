import Claudepod.ManifestSearch

/-! The cache of manifests, when many launchers look for manifests and have them made at once. -/

set_option autoImplicit false

namespace Claudepod
open Interaction FileSystem

/-! ### Launchers side by side -/

/-- What the other answers say about the disk. -/
def tells (d : Disk Key UInt8 List.dropLast) : Event Query.Answer → Prop
  | ⟨.tryExists p, .ok found⟩ => found = true ↔ d.files p ≠ none ∨ d.dirs p
  | _ => True

section Launchers

variable {ι : Type} (input : ι → Surroundings) (file : Key)

/-- The launchers that keep their manifest in this file. -/
abbrev Users := { i : ι // (manifestOf (input i)).map key = some file }

/-- The launcher, if it drafts this file with its call. -/
def author (i : ι) (e : Act Key UInt8 IoError) : Option (Users input file) :=
  if h : (manifestOf (input i)).map key = some file ∧ looksAt file e = false then some ⟨i, h.1⟩
  else none

/-- What happens to files, under the names of the launchers that draft this one. -/
def tagged (es : List (ι × SysEvent)) : List (Option (Users input file) × Act Key UInt8 IoError) :=
  es.filterMap fun x => (inlOf x.2).map fun e => (author input file x.1 e, e)

variable {input file} {es : List (ι × SysEvent)} {e : Act Key UInt8 IoError}

theorem author_looks (i : ι) (h : looksAt file e = true) : author input file i e = none :=
  dif_neg (by simp [h])

theorem author_user (i : Users input file) (h : looksAt file e = false) :
    author input file i.1 e = some i := dif_pos ⟨i.2, h⟩

theorem author_eq_some {i : ι} {j : Users input file} (h : author input file i e = some j) :
    i = j.1 ∧ looksAt file e = false := by
  unfold author at h
  split at h
  · rename_i hl
    exact ⟨congrArg Subtype.val (Option.some.inj h), hl.2⟩
  · cases h

theorem tagged_events (es : List (ι × SysEvent)) :
    (tagged input file es).map (·.2) = (es.map (·.2)).filterMap inlOf := by
  rw [tagged, List.map_filterMap, List.filterMap_map]
  congr 1
  funext x
  rw [Option.map_map]
  exact congrFun Option.map_id _

theorem tagged_cons_none {i : ι} {x : SysEvent} (h : inlOf x = none) :
    tagged input file ((i, x) :: es) = tagged input file es :=
  List.filterMap_cons_none (by rw [h]; rfl)

theorem tagged_cons_some {i : ι} {x : SysEvent} (h : inlOf x = some e) :
    tagged input file ((i, x) :: es) = (author input file i e, e) :: tagged input file es :=
  List.filterMap_cons_some (by rw [h]; rfl)

theorem tagged_append (es fs : List (ι × SysEvent)) :
    tagged input file (es ++ fs) = tagged input file es ++ tagged input file fs :=
  List.filterMap_append

theorem mem_tagged {o : Option (Users input file)} :
    (o, e) ∈ tagged input file es ↔ ∃ i, (i, inlEvent e) ∈ es ∧ author input file i e = o := by
  constructor
  · intro h
    obtain ⟨⟨i, x⟩, hx, ht⟩ := List.mem_filterMap.mp h
    obtain ⟨e', he, ht⟩ := Option.map_eq_some_iff.mp ht
    obtain ⟨ho, rfl⟩ := Prod.mk.inj ht
    obtain rfl := inlOf_eq_some he
    exact ⟨i, hx, ho⟩
  · intro ⟨i, hi, ho⟩
    exact List.mem_filterMap.mpr ⟨(i, inlEvent e), hi, by rw [← ho]; rfl⟩

variable [DecidableEq ι]

theorem own_tagged (i : Users input file) (es : List (ι × SysEvent)) :
    own (some i) (tagged input file es) = drafted file (own i.1 es) := by
  induction es with
  | nil => rfl
  | cons x es ih =>
    obtain ⟨j, x⟩ := x
    cases hx : inlOf x with
    | none =>
      rw [tagged_cons_none hx, ih]
      by_cases hj : j = i.1
      · subst hj
        rw [own_self, drafted, drafted, List.filterMap_cons_none hx]
      · rw [own_other hj]
    | some e =>
      rw [tagged_cons_some hx]
      by_cases hj : j = i.1
      · subst hj
        rw [own_self, drafted, List.filterMap_cons_some hx]
        cases hl : looksAt file e with
        | true =>
          rw [author_looks i.1 hl, own_other (by simp), ih, List.filter_cons_of_neg (by simp [hl])]
          rfl
        | false =>
          rw [author_user i hl, own_self, ih, List.filter_cons_of_pos (by simp [hl])]
          rfl
      · rw [own_other hj, own_other fun h => hj (author_eq_some h).1, ih]

variable {build : ι → Bool} {i : ι} {path : Bytes} {d d' m : Disk Key UInt8 List.dropLast}

theorem launcher_drafts (hes : Alongside (fun i => nixRunRootsManifest (input i) (build i)) es)
    (hm : manifestOf (input i) = some path) :
    ∃ contents, Drafts (input i) (build i) path (own i es) contents := by
  obtain ⟨rest, r, hr⟩ := hes i
  obtain ⟨path', hp, hs⟩ | ⟨hn, -⟩ := nixRunRootsManifest_cases hr
  · obtain rfl := Option.some.inj (hm.symm.trans hp)
    exact hs.drafts hm
  · exact ⟨[], .idle (by rw [(List.append_eq_nil_iff.mp hn).1]; rfl)⟩

/-- A launcher reads its manifest and drafts it, and has nothing else to do with files. -/
theorem launcher_acts (hes : Alongside (fun i => nixRunRootsManifest (input i) (build i)) es)
    (he : (i, inlEvent e) ∈ es) : ∃ path contents, manifestOf (input i) = some path ∧
      Drafts (input i) (build i) path (own i es) contents ∧
      (looksAt (key path) e = true ∨ e ∈ drafted (key path) (own i es)) := by
  obtain ⟨rest, r, hr⟩ := hes i
  obtain ⟨path, hp, -⟩ | ⟨hn, -⟩ := nixRunRootsManifest_cases hr
  · obtain ⟨contents, hd⟩ := launcher_drafts hes hp
    refine ⟨path, contents, hp, hd, ?_⟩
    cases hl : looksAt (key path) e with
    | true => exact .inl rfl
    | false =>
      refine .inr (List.mem_filter.mpr ⟨?_, by simp [hl]⟩)
      exact List.mem_filterMap.mpr ⟨_, mem_own.mpr he, rfl⟩
  · have hm := mem_own.mpr he
    rw [(List.append_eq_nil_iff.mp hn).1] at hm
    cases hm

omit [DecidableEq ι] in
theorem effect_looks (h : looksAt file e = true) (files : Key → Option Bytes) :
    effect files e = files := by
  obtain ⟨o, r⟩ := e
  cases o with
  | read p => rfl
  | _ => cases h

omit [DecidableEq ι] in
theorem Users.manifest (j : Users input file) :
    ∃ path, manifestOf (input j.1) = some path ∧ key path = file :=
  Option.map_eq_some_iff.mp j.2

/-- Launchers with other manifests leave this one and its drafts alone. -/
theorem launcher_frame (hes : Alongside (fun i => nixRunRootsManifest (input i) (build i)) es)
    (hpid : ∀ i j, (input i).pid = (input j).pid → i = j) (he : (i, inlEvent e) ∈ es)
    (hi : author input file i e = none) (j : Users input file) (files : Key → Option Bytes) :
    effect files e file = files file ∧
      effect files e (draftOf (input j.1)) = files (draftOf (input j.1)) := by
  obtain ⟨path, _, hp, hd, hl | he⟩ := launcher_acts hes he
  · rw [effect_looks hl]
    exact ⟨rfl, rfl⟩
  have ho := hd.acts e he
  obtain ⟨path', hp', rfl⟩ := j.manifest
  have hne : key path ≠ key path' := by
    intro hk
    have ha := author_user ⟨i, by rw [hp]; exact congrArg some hk⟩
      (looksAt_own (draftOf_ne hp hp') (hk ▸ ho))
    exact absurd (hi.symm.trans ha) nofun
  refine ⟨effect_frame files ho (draftOf_ne hp hp').symm hne.symm, effect_frame files ho ?_
    (draftOf_ne hp' hp)⟩
  intro hd
  refine hne ?_
  obtain rfl := hpid _ _ (draftOf_pid hp' hp hd)
  rw [Option.some.inj (hp.symm.trans hp')]

theorem launchers_among (hes : Alongside (fun i => nixRunRootsManifest (input i) (build i)) es)
    (hpid : ∀ i j, (input i).pid = (input j).pid → i = j) (j : Users input file) :
    ∀ x ∈ tagged input file es,
      Among List.dropLast (fun j : Users input file => draftOf (input j.1)) file x := by
  intro ⟨o, e⟩ hx
  obtain ⟨i, hi, ho⟩ := mem_tagged.mp hx
  constructor
  · intro k hk
    obtain ⟨rfl, hl⟩ := author_eq_some (ho.trans hk)
    obtain ⟨path, hp, rfl⟩ := k.manifest
    obtain ⟨path', _, hp', hd, ha⟩ := launcher_acts hes hi
    obtain rfl := Option.some.inj (hp.symm.trans hp')
    exact hd.acts e (ha.resolve_left (by simp [hl]))
  · intro hn files
    exact ⟨(launcher_frame hes hpid hi (ho.trans hn) j files).1,
      fun k => (launcher_frame hes hpid hi (ho.trans hn) k files).2⟩

omit [DecidableEq ι] in
theorem launchers_apart (hpid : ∀ i j, (input i).pid = (input j).pid → i = j) :
    Apart (fun j : Users input file => draftOf (input j.1)) file where
  drafts j k h := by
    obtain ⟨path, hp, -⟩ := j.manifest
    obtain ⟨path', hp', -⟩ := k.manifest
    exact Subtype.ext (hpid _ _ (draftOf_pid hp hp' h))
  target j := by
    obtain ⟨path, hp, rfl⟩ := j.manifest
    exact draftOf_ne hp hp

/-- Nix has printed all of this when one of the launchers asked it for the packages of `s`. -/
def Printed (s : Surroundings) (es : List (ι × SysEvent)) (raw : Bytes) : Prop :=
  ∃ (j : ι) (inputs : NixRunRootsBuildInputs) (command : NixCommand) (out : Output),
    SamePackages s inputs ∧ nixRunRootsCommand inputs = .ok command ∧
    (j, ⟨.inr (.output command), .ok out⟩) ∈ es ∧ out.success = true ∧ out.stdout = raw

omit [DecidableEq ι] in
theorem Printed.mono {s : Surroundings} {es fs : List (ι × SysEvent)} {raw : Bytes}
    (h : Printed s es raw) (hs : es ⊆ fs) : Printed s fs raw := by
  obtain ⟨j, inputs, command, out, hi, hc, hm, ho⟩ := h
  exact ⟨j, inputs, command, out, hi, hc, hs hm, ho⟩

/-- From any moment on, the manifest stays as it was, or becomes all of what nix has printed. -/
theorem manifest_step {es₁ es₂ : List (ι × SysEvent)} (j : Users input file)
    (hes : Alongside (fun i => nixRunRootsManifest (input i) (build i)) (es₁ ++ es₂))
    (hpid : ∀ i j, (input i).pid = (input j).pid → i = j)
    (h₁ : Observes tells d (es₁.map (·.2)) m) (h₂ : Observes tells m (es₂.map (·.2)) d') :
    (d'.files file = m.files file ∧ ∀ k e, (some k, e) ∈ tagged input file es₂ → ¬ Renames e) ∨
      ∃ raw, d'.files file = some raw ∧ Loadable raw ∧ Printed (input j.1) (es₁ ++ es₂) raw := by
  have hd : ∀ k : Users input file, ∃ contents,
      (∀ c, (writing contents).Meets (Draft.fresh c)
        (own (some k) (tagged input file (es₁ ++ es₂)))) ∧
      (own (some k) (tagged input file (es₁ ++ es₂)) ≠ [] →
        Printed (input j.1) (es₁ ++ es₂) contents) := by
    intro k
    obtain ⟨path, hp, rfl⟩ := k.manifest
    obtain ⟨path', hp', hk⟩ := j.manifest
    obtain ⟨contents, hd⟩ := launcher_drafts hes hp
    rw [own_tagged]
    refine ⟨contents, hd.meets, fun hn => ?_⟩
    obtain ⟨inputs, command, out, hu, hc, hm, ho⟩ := hd.made hn
    exact ⟨k.1, inputs, command, out, manifestOf_packages hp' hp hk hu, hc, mem_own.mp hm, ho⟩
  choose contents hmeets hprinted using hd
  have hx := launchers_among hes hpid j
  rw [tagged_append] at hx hmeets hprinted
  have hs₁ := h₁.steps
  have hs₂ := h₂.steps
  rw [← @tagged_events _ input file] at hs₁ hs₂
  have ht := tracks_among (launchers_apart hpid) (fun x h => hx x (List.mem_append_left _ h))
    (fun k => Tracks.fresh (draftOf (input k.1)) d) hs₁
  have hm : ∀ k, (writing (contents k)).Meets
      ((own (some k) (tagged input file es₁)).foldl Draft.step
        (Draft.fresh (d.files (draftOf (input k.1))))) (own (some k) (tagged input file es₂)) := by
    intro k
    have h := hmeets k (d.files (draftOf (input k.1)))
    rw [own_append] at h
    exact ((Monitor.meets_append ..).mp h).2
  obtain hsame | ⟨k, ⟨e, he⟩, hf, hl⟩ := target_among (launchers_apart hpid)
    (fun x h => hx x (List.mem_append_right _ h)) ht hm hs₂
  · exact .inl hsame
  · refine .inr ⟨contents k, hf, hl, hprinted k fun hn => ?_⟩
    have hown := mem_own.mpr (List.mem_append_right (tagged input file es₁) he)
    rw [hn] at hown
    cases hown

theorem manifest_whole (hes : Alongside (fun i => nixRunRootsManifest (input i) (build i)) es)
    (hpid : ∀ i j, (input i).pid = (input j).pid → i = j)
    (hs : Observes tells d (es.map (·.2)) d')
    (hr : (nixRunRootsManifest (input i) (build i)).Runs (own i es) (.ok (some path))) :
    ∃ raw, d'.files (key path) = some raw ∧ Loadable raw ∧
      (d.files (key path) = some raw ∨ Printed (input i) es raw) := by
  obtain ⟨_, hp, hsearch⟩ | ⟨-, hn⟩ := nixRunRootsManifest_cases hr
  swap
  · cases hn _ rfl
  have hserved := hsearch.served hp
  obtain ⟨rfl, hread | ⟨e, he, hren⟩⟩ := hserved
  · obtain ⟨raw, hm, hl⟩ := hread
    obtain ⟨es₁, es₂, rfl⟩ := List.append_of_mem (mem_own.mp hm)
    rw [List.map_append] at hs
    obtain ⟨m, h₁, h₂⟩ := observes_append.mp hs
    have hraw : m.files (key path) = some raw := by
      obtain ⟨_, hstep, -⟩ := h₂
      exact hstep.honest
    obtain ⟨hsame, -⟩ | hnew := manifest_step ⟨i, by rw [hp]; rfl⟩ hes hpid h₁ h₂
    · refine ⟨raw, hsame.trans hraw, hl, ?_⟩
      have h := @manifest_step _ input _ _ _ _ _ _ [] _ ⟨i, by rw [hp]; rfl⟩ hes.of_append hpid
        rfl h₁
      obtain ⟨hold, -⟩ | ⟨raw', hf, -, hprinted⟩ := h
      · exact .inl (hold.symm.trans hraw)
      · obtain rfl := Option.some.inj (hf.symm.trans hraw)
        exact .inr (hprinted.mono (List.subset_append_left _ _))
    · obtain ⟨raw', hf, hl', hprinted⟩ := hnew
      exact ⟨raw', hf, hl', .inr hprinted⟩
  · obtain ⟨-, hno⟩ | ⟨raw, hf, hl, hprinted⟩ :=
      @manifest_step _ input _ _ _ _ _ _ [] _ ⟨i, by rw [hp]; rfl⟩ hes hpid rfl hs
    · refine absurd hren (hno ⟨i, by rw [hp]; rfl⟩ e ?_)
      rw [← mem_own, own_tagged]
      exact he
    · exact ⟨raw, hf, hl, .inr hprinted⟩

/-- However many launchers look for manifests and have them made at once, and whatever fails: a
launcher that has got a manifest keeps it. At any time from then on there is a whole manifest,
the one that was there before or one that nix has printed since for the same packages, and a proxy
that can read it has its roots. -/
theorem manifest_served (hes : Alongside (fun i => nixRunRootsManifest (input i) (build i)) es)
    (hpid : ∀ i j, (input i).pid = (input j).pid → i = j)
    (hs : Observes tells d (es.map (·.2)) d')
    (hr : (nixRunRootsManifest (input i) (build i)).Runs (own i es) (.ok (some path))) :
    ∃ raw roots, d'.files (key path) = some raw ∧ parseManifest raw = .ok roots ∧
      (d.files (key path) = some raw ∨ Printed (input i) es raw) ∧
      ∀ read, Honest d' (⟨.read (key path), .ok read⟩ : Act Key UInt8 IoError) →
        (loadManifest path).Runs [⟨.read (key path), .ok read⟩] (.ok roots) := by
  obtain ⟨raw, hf, ⟨roots, hp⟩, horigin⟩ := manifest_whole hes hpid hs hr
  refine ⟨raw, roots, hf, hp, horigin, fun read hread => ?_⟩
  obtain rfl := Option.some.inj (hf.symm.trans hread)
  exact loadManifest_runs hp

theorem manifest_there (hes : Alongside (fun i => nixRunRootsManifest (input i) (build i)) es)
    (hs : Observes tells d (es.map (·.2)) d') (hm : manifestOf (input i) = some path) {raw : Bytes}
    (h : d.files (key path) = some raw) : d'.files (key path) = some raw := by
  suffices hk : d'.files (key path) = some raw ∧
      ∀ j, (j, ⟨.inr (.tryExists (key path)), .ok false⟩) ∉ es from hk.1
  induction es using List.reverseRecOn generalizing d' with
  | nil =>
    obtain rfl := hs
    exact ⟨h, nofun⟩
  | append_singleton es x ih =>
    obtain ⟨j, x⟩ := x
    rw [List.map_append] at hs
    obtain ⟨m, h₁, h₂⟩ := observes_append.mp hs
    obtain ⟨hraw, hno⟩ := ih hes.of_append h₁
    have hlast : ∀ e : Act Key UInt8 IoError, x = inlEvent e → effect m.files e (key path) =
        m.files (key path) := by
      rintro e rfl
      obtain ⟨path', _, hp, hd, hl | he⟩ := launcher_acts hes (List.mem_append_right es (.head _))
      · rw [effect_looks hl]
      · by_cases hk : key path' = key path
        · have hmiss := mem_own.mp (hd.missing (List.ne_nil_of_mem he))
          rw [hk] at hmiss
          obtain hmiss | hmiss := List.mem_append.mp hmiss
          · exact absurd hmiss (hno j)
          · cases (Prod.mk.inj (List.mem_singleton.mp hmiss)).2
        · exact effect_frame m.files (hd.acts e he) (draftOf_ne hp hm).symm (Ne.symm hk)
    obtain ⟨o, r⟩ := x
    cases o with
    | inl o =>
      obtain ⟨m', hstep, rfl⟩ := h₂
      refine ⟨by rw [hstep.files, hlast ⟨o, r⟩ rfl, hraw], fun k hk => ?_⟩
      obtain hk | hk := List.mem_append.mp hk
      · exact hno k hk
      · cases List.mem_singleton.mp hk
    | inr o =>
      obtain ⟨htells, rfl⟩ := h₂
      refine ⟨hraw, fun k hk => ?_⟩
      obtain hk | hk := List.mem_append.mp hk
      · exact hno k hk
      · cases List.mem_singleton.mp hk
        exact absurd (htells.mpr (.inl (by simp [hraw]))) nofun

theorem files_unbuilt (hes : Alongside (fun i => nixRunRootsManifest (input i) (build i)) es)
    (hs : Observes tells d (es.map (·.2)) d') (hb : ∀ i, build i = false) : d'.files = d.files := by
  have hlooks : ∀ i e, (i, inlEvent e) ∈ es → ∀ files, effect files e = files := by
    intro i e he
    obtain ⟨path, _, -, hd, hl | he⟩ := launcher_acts hes he
    · exact effect_looks hl
    · exact absurd ((hb i).symm.trans (hd.told (List.ne_nil_of_mem he))) nofun
  clear hes
  induction es generalizing d with
  | nil => rw [show d' = d from hs]
  | cons x es ih =>
    obtain ⟨i, o, r⟩ := x
    have hes := fun j e he => hlooks j e (.tail _ he)
    cases o with
    | inl o =>
      obtain ⟨m, hm, hs⟩ := hs
      rw [ih hs hes, hm.files, hlooks i ⟨o, r⟩ (.head _)]
    | inr o => exact ih hs.2 hes

/-- A manifest that is there before any of the launchers looks is never replaced, removed or
changed, whatever they are told to build; one that comes in later may be. Launchers that are told
to build nothing change no file at all. -/
theorem manifest_kept (hes : Alongside (fun i => nixRunRootsManifest (input i) (build i)) es)
    (hs : Observes tells d (es.map (·.2)) d') :
    (∀ i path raw, manifestOf (input i) = some path → d.files (key path) = some raw →
      d'.files (key path) = some raw) ∧
    ((∀ i, build i = false) → d'.files = d.files) :=
  ⟨fun _ _ _ hm h => manifest_there hes hs hm h, files_unbuilt hes hs⟩

end Launchers

/-! ### Three launchers -/

/-- No file is below `file`. -/
def Beside (file : Key) (files : Key → Option Bytes) : Prop :=
  ∀ p, files p ≠ none → p.dropLast ≠ file

/-- A disk with all directories but `file`. -/
def diskBeside {file : Key} {files : Key → Option Bytes} (h : Beside file files) :
    Disk Key UInt8 List.dropLast := ⟨files, fun p => p ≠ file, h⟩

/-- A writer stays beside its target. -/
theorem steps_beside {file q : Key} {files : Key → Option Bytes}
    {t : List (Act Key UInt8 IoError)} (h : Beside file files) (hq : q.dropLast ≠ file)
    (hf : file.dropLast ≠ file) (ho : ∀ e ∈ t, Own List.dropLast q file e) (ht : Fine files t) :
    ∃ h' : Beside file (t.foldl effect files), Steps (diskBeside h) t (diskBeside h') := by
  induction t generalizing files with
  | nil => exact ⟨h, rfl⟩
  | cons e t ih =>
    obtain ⟨he, hes⟩ := List.forall_mem_cons.mp ho
    have h' : Beside file (effect files e) := by
      intro p hp
      by_cases hpq : p = q
      · rwa [hpq]
      · by_cases hpf : p = file
        · rwa [hpf]
        · rw [effect_frame files he hpq hpf] at hp
          exact h p hp
    have honest : Honest (diskBeside h) e := by
      obtain ⟨o, r⟩ := e
      cases o with
      | createDirAll dir =>
        cases r with
        | ok u => trivial
        | error err => exact absurd trivial ht.1
      | _ => cases r <;> exact ht.1
    obtain ⟨hlast, hs⟩ := ih h' hes ht.2
    exact ⟨hlast, diskBeside h', ⟨honest, rfl, fun _ => id⟩, hs⟩

/-- Launchers for two package universes: one for the first, two for the second. -/
def cacheSample (i : Fin 3) : Surroundings where
  vars name :=
    if name = guestSystemEnv then some (utf8 "x86_64-linux")
    else if name = nixpkgsEnv then
      some (if i = 0 then utf8 "/nix/store/h-nixpkgs" else utf8 "/nix/store/k-nixpkgs")
    else if name = nixEnv then some (utf8 "nix")
    else none
  cacheHome := some (utf8 "/home/u/.cache")
  pid := 7 + i

def foundPath : Bytes := utf8 "/home/u/.cache/claudepod/nix-run-roots/v1/x86_64-linux/h.txt"

def builtPath : Bytes := utf8 "/home/u/.cache/claudepod/nix-run-roots/v1/x86_64-linux/k.txt"

/-- What is there at the start, and what nix prints for the second and for the third launcher. -/
def rawSample (i : Fin 3) : Bytes :=
  if i = 0 then utf8 "/nix/store/a-b\n" else if i = 1 then utf8 "/nix/store/a-c\n"
  else utf8 "/nix/store/a-d\n"

def commandSample : NixCommand where
  program := utf8 "nix"
  env := [(guestSystemEnv, utf8 "x86_64-linux"), (nixpkgsEnv, utf8 "/nix/store/k-nixpkgs")]
  args := ["--extra-experimental-features", "nix-command", "eval", "--impure", "--raw",
    "--expr"].map utf8 ++ [nixRunRootsExpr]

def outputSample (i : Fin 3) : Output := ⟨true, "exit status: 0", rawSample i, []⟩

def filesSample : Key → Option Bytes := fun p =>
  if p = key foundPath then some (rawSample 0) else none

def firstWrite : List (Act Key UInt8 IoError) :=
  smoothWrite filesSample builtPath (utf8 "k.txt") (rawSample 1) 8

/-- After the first of the two has written its manifest. -/
def filesBetween : Key → Option Bytes := firstWrite.foldl effect filesSample

def secondWrite : List (Act Key UInt8 IoError) :=
  smoothWrite filesBetween builtPath (utf8 "k.txt") (rawSample 2) 9

/-- The second and the third launcher both find nothing, and ask nix. -/
def lookSample : List (Fin 3 × SysEvent) :=
  [(0, ⟨.inr (.tryExists (key foundPath)), .ok true⟩),
    (1, ⟨.inr (.tryExists (key builtPath)), .ok false⟩),
    (2, ⟨.inr (.tryExists (key builtPath)), .ok false⟩),
    (2, ⟨.inr (.output commandSample), .ok (outputSample 2)⟩),
    (1, ⟨.inr (.output commandSample), .ok (outputSample 1)⟩)]

/-- The first launcher reads its manifest while the others write theirs; the third replaces what
the second has written. -/
def cacheTrace : List (Fin 3 × SysEvent) :=
  lookSample ++ firstWrite.map (fun e => (1, inlEvent e)) ++
  [(0, ⟨.inl (.read (key foundPath)), .ok (rawSample 0)⟩)] ++
  secondWrite.map (fun e => (2, inlEvent e))

theorem own_cacheTrace :
    own 0 cacheTrace = [⟨.inr (.tryExists (key foundPath)), .ok true⟩,
      ⟨.inl (.read (key foundPath)), .ok (rawSample 0)⟩] ∧
    own 1 cacheTrace = ⟨.inr (.tryExists (key builtPath)), .ok false⟩ ::
      ⟨.inr (.output commandSample), .ok (outputSample 1)⟩ :: firstWrite.map inlEvent ∧
    own 2 cacheTrace = ⟨.inr (.tryExists (key builtPath)), .ok false⟩ ::
      ⟨.inr (.output commandSample), .ok (outputSample 2)⟩ :: secondWrite.map inlEvent := by
  refine ⟨?_, ?_, ?_⟩ <;> unfold cacheTrace <;> rw [own_append, own_append, own_append]
  · rw [own_map_other (by decide), own_map_other (by decide)]
    rfl
  · rw [own_map_self, own_map_other (by decide), List.append_nil]
    exact List.append_nil _
  · rw [own_map_other (by decide), own_map_self, List.append_nil]
    rfl

theorem packageSet_sample :
    packageSet (cacheSample 0) = some (utf8 "x86_64-linux", utf8 "/nix/store/h-nixpkgs") ∧
    packageSet (cacheSample 1) = some (utf8 "x86_64-linux", utf8 "/nix/store/k-nixpkgs") ∧
    packageSet (cacheSample 2) = some (utf8 "x86_64-linux", utf8 "/nix/store/k-nixpkgs") ∧
    nixRunRootsManifestPath (some (utf8 "/home/u/.cache")) (utf8 "x86_64-linux")
      (utf8 "/nix/store/h-nixpkgs") = .ok foundPath ∧
    nixRunRootsManifestPath (some (utf8 "/home/u/.cache")) (utf8 "x86_64-linux")
      (utf8 "/nix/store/k-nixpkgs") = .ok builtPath ∧
    requiredEnvBytes (cacheSample 1).vars nixEnv = .ok (utf8 "nix") ∧
    fileName builtPath = some (utf8 "k.txt") := by
  decide +kernel

theorem commandSample_ok : nixRunRootsCommand
    ⟨utf8 "x86_64-linux", utf8 "/nix/store/k-nixpkgs", utf8 "nix"⟩ = .ok commandSample := by
  have hv : validateNixRunRootsInputs
      ⟨utf8 "x86_64-linux", utf8 "/nix/store/k-nixpkgs", utf8 "nix"⟩ = .ok () := by decide +kernel
  rw [nixRunRootsCommand, hv]
  rfl

theorem rawSample_loadable (i : Fin 3) : Loadable (rawSample i) := by
  have hl : ∀ i : Fin 3, (parseLines 1 ((rawSample i).splitOn newline)).isOk = true := by
    decide +kernel
  have hi := hl i
  cases hp : parseLines 1 ((rawSample i).splitOn newline) with
  | ok paths => exact ⟨_, by rw [parseManifest, hp]; rfl⟩
  | error e =>
    rw [hp] at hi
    cases hi

theorem cacheTrace_runs (i : Fin 3) :
    (nixRunRootsManifest (cacheSample i) true).Runs (own i cacheTrace)
      (.ok (some (if i = 0 then foundPath else builtPath))) := by
  obtain ⟨h₀, h₁, h₂, hfound, hbuilt, hnix, hname⟩ := packageSet_sample
  obtain ⟨ho₀, ho₁, ho₂⟩ := own_cacheTrace
  match i with
  | 0 =>
    rw [ho₀]
    obtain ⟨roots, hp⟩ := rawSample_loadable 0
    exact nixRunRootsManifest_finds h₀ hfound hp
  | 1 =>
    rw [ho₁]
    exact nixRunRootsManifest_makes h₁ hbuilt hnix commandSample_ok rfl
      (smoothWrite_runs _ 8 hname (rawSample_loadable 1))
  | 2 =>
    rw [ho₂]
    exact nixRunRootsManifest_makes h₂ hbuilt hnix commandSample_ok rfl
      (smoothWrite_runs _ 9 hname (rawSample_loadable 2))

theorem cacheTrace_alongside :
    Alongside (fun i => nixRunRootsManifest (cacheSample i) true) cacheTrace :=
  fun i => ⟨[], _, by rw [List.append_nil]; exact cacheTrace_runs i⟩

theorem beside_sample : Beside (key builtPath) filesSample := by
  intro p hp
  have he : p = key foundPath := by
    by_contra hne
    exact hp (if_neg hne)
  rw [he]
  decide +kernel

/-- A disk on which the first launcher's manifest is all there is. -/
def diskSample : Disk Key UInt8 List.dropLast := diskBeside beside_sample

/-- Each launcher's calls are possible where the others have left the disk. -/
theorem cacheTrace_observes :
    ∃ h, Observes tells diskSample (cacheTrace.map (·.2))
      (@diskBeside (key builtPath) (secondWrite.foldl effect filesBetween) h) := by
  obtain ⟨-, -, -, -, -, -, hname⟩ := packageSet_sample
  have hq : ∀ pid, (draftKey builtPath (utf8 "k.txt") pid).dropLast ≠ key builtPath := fun pid => by
    rw [draftKey_eq builtPath pid (fileName_whole hname), List.dropLast_concat]
    decide +kernel
  have hf : (key builtPath).dropLast ≠ key builtPath := by decide +kernel
  have write : ∀ {files} (h : Beside (key builtPath) files) (i : Fin 3) (pid : Nat),
      ∃ h', Steps (diskBeside h) (smoothWrite files builtPath (utf8 "k.txt") (rawSample i) pid)
        (@diskBeside _ ((smoothWrite files builtPath (utf8 "k.txt") (rawSample i) pid).foldl effect
          files) h') := fun h i pid =>
    steps_beside h (hq pid) hf (write_acts _ pid hname _ _ (smoothWrite_runs _ pid hname
      (rawSample_loadable i))) (smoothWrite_fine _ _ _ _ _)
  obtain ⟨h₁, hs₁⟩ := write beside_sample 1 8
  obtain ⟨h₂, hs₂⟩ := write h₁ 2 9
  have hread : filesBetween (key foundPath) = some (rawSample 0) := by decide +kernel
  have hlook : Observes tells diskSample (lookSample.map (·.2)) diskSample := by
    have hfound : filesSample (key foundPath) ≠ none := by decide +kernel
    have hmiss : filesSample (key builtPath) = none := by decide +kernel
    have hno : false = true ↔ diskSample.files (key builtPath) ≠ none ∨
        diskSample.dirs (key builtPath) := by
      simp [diskSample, diskBeside, hmiss]
    exact ⟨⟨fun _ => .inl hfound, fun _ => rfl⟩, hno, hno, trivial, trivial, rfl⟩
  refine ⟨h₂, ?_⟩
  rw [cacheTrace, List.map_append, List.map_append, List.map_append, List.map_map, List.map_map]
  refine observes_append.mpr ⟨diskBeside h₁, observes_append.mpr ⟨diskBeside h₁,
    observes_append.mpr ⟨diskSample, hlook, observes_calls.mpr hs₁⟩, ?_⟩, observes_calls.mpr hs₂⟩
  exact ⟨_, ⟨hread, rfl, fun _ => id⟩, rfl⟩

/-- What the launchers leave. -/
def diskAfter : Disk Key UInt8 List.dropLast := diskBeside cacheTrace_observes.choose

theorem diskAfter_observed : Observes tells diskSample (cacheTrace.map (·.2)) diskAfter :=
  cacheTrace_observes.choose_spec

theorem pid_sample (i j : Fin 3) (h : (cacheSample i).pid = (cacheSample j).pid) : i = j :=
  Fin.ext (Nat.add_left_cancel h)

/-- The second launcher's manifest is replaced by the third's. -/
theorem manifest_served_sample :
    ∃ raw roots, diskAfter.files (key builtPath) = some raw ∧ parseManifest raw = .ok roots ∧
      (diskSample.files (key builtPath) = some raw ∨ Printed (cacheSample 1) cacheTrace raw) ∧
      ∀ read, Honest diskAfter (⟨.read (key builtPath), .ok read⟩ : Act Key UInt8 IoError) →
        (loadManifest builtPath).Runs [⟨.read (key builtPath), .ok read⟩] (.ok roots) :=
  @manifest_served (Fin 3) cacheSample cacheTrace _ (fun _ => true) 1 builtPath _ _
    cacheTrace_alongside pid_sample diskAfter_observed (cacheTrace_runs 1)

/-- The first launcher's is kept. -/
theorem manifest_kept_sample :
    (∀ (i : Fin 3) path raw, manifestOf (cacheSample i) = some path →
      diskSample.files (key path) = some raw → diskAfter.files (key path) = some raw) ∧
    ((∀ _ : Fin 3, true = false) → diskAfter.files = diskSample.files) :=
  @manifest_kept (Fin 3) cacheSample cacheTrace _ (fun _ => true) _ _ cacheTrace_alongside
    diskAfter_observed

end Claudepod
