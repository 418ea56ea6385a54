import Claudepod.FileSystem
import Claudepod.Paths
import Claudepod.StoreLayers

/-! How the manifest of run roots is replaced: drafted next to it, read back, and renamed over
it. -/

set_option autoImplicit false

namespace Claudepod
open Interaction FileSystem

/-! ### The writer -/

/-- What tells files apart. A leading `.` does not. -/
abbrev Key := List Component

def key (path : Bytes) : Key := (components path).filter fun c => c ≠ .curDir

abbrev Fs (α : Type) := Comp (Answer IoError : Call Key UInt8 → Type) Error α

/-- `.with_context(|| what)?` -/
def expect {α : Type} (what : String) : Except IoError α → Fs α
  | .ok a => pure a
  | .error e => throw ((Error.msg e.text).context what)

/-- `path.parent()`, and `.` where that is empty or there is none. -/
def manifestDir (path : Bytes) : Bytes :=
  match (components path).getLast? with
  | none | some .rootDir => [dot]
  | some _ =>
    let names := ((path.splitOn slash).rdropWhile fun name => Skipped name).dropLast.rdropWhile
      fun name => Skipped name
    if names ≠ [] then [slash].intercalate names
    else if isAbsolute path then [slash] else [dot]

def tmpName (fileName : Bytes) (pid : Nat) : Bytes :=
  dot :: fileName ++ dot :: decimal pid ++ utf8 ".tmp"

/-- Any stale temp file left by a crashed run under the same pid. -/
def removeStale (tmpPath : Bytes) : Fs Unit :=
  Comp.perform (.removeFile (key tmpPath)) >>= fun (r : Removal IoError) =>
    match r with
    | .done | .notFound => pure ()
    | .fault e => throw ((Error.msg e.text).context s!"remove stale {display tmpPath}")

def createManifestTempFile (dir path : Bytes) (pid : Nat) : Fs Bytes :=
  match fileName path with
  | none => throw (.msg s!"manifest path has no file name: {display path}")
  | some name => do
    let tmpPath := push dir (tmpName name pid)
    removeStale tmpPath
    let created ← Comp.perform (.createNew (key tmpPath))
    expect s!"create {display tmpPath}" created
    pure tmpPath

/-- `Write::write_all`. -/
def writeAllTo (path : Key) (what : String) (data : Bytes) : Fs Unit :=
  if data = [] then pure ()
  else
    Comp.perform (.write path data) >>= fun (r : Except IoError (Fin (data.length + 1))) =>
      match r with
      | .error e => throw ((Error.msg e.text).context what)
      | .ok k =>
        if k.val = 0 then throw ((Error.msg "failed to write whole buffer").context what)
        else writeAllTo path what (data.drop k)
termination_by data.length
decreasing_by
  have := List.length_pos_iff.mpr ‹data ≠ []›
  rw [List.length_drop]
  omega

/-- `NixRunRoots::load`. -/
def loadManifest (path : Bytes) : Fs NixRunRoots := do
  let read ← Comp.perform (.read (key path))
  let raw ← expect s!"read nix run roots manifest {display path}" read
  match parseManifest raw with
  | .ok roots => pure roots
  | .error e => throw (e.context s!"parse nix run roots manifest {display path}")

def fsyncDirBestEffort (dir : Bytes) : Fs Unit :=
  Comp.perform (.openDir (key dir)) >>= fun (r : Except IoError Unit) =>
    match r with
    | .ok _ => Comp.perform (.syncAll (key dir)) >>= fun _ => pure ()
    | .error _ => pure ()

/-- What has to go well once there is a temp file. -/
def replaceManifest (dir path tmpPath contents : Bytes) : Fs Unit := do
  writeAllTo (key tmpPath) s!"write {display tmpPath}" contents
  let synced ← Comp.perform (.syncAll (key tmpPath))
  expect s!"fsync {display tmpPath}" synced
  let _ ← loadManifest tmpPath
  let renamed ← Comp.perform (.rename (key tmpPath) (key path))
  expect s!"rename {display tmpPath} to {display path}" renamed
  fsyncDirBestEffort dir

def writeNixRunRootsManifestAtomic (path contents : Bytes) (pid : Nat) : Fs Unit := do
  let dir := manifestDir path
  let made ← Comp.perform (.createDirAll (key dir))
  expect s!"create {display dir}" made
  let tmpPath ← createManifestTempFile dir path pid
  let result ← Comp.attempt some (replaceManifest dir path tmpPath contents)
  match result with
  | .ok _ => pure ()
  | .error e => do
    let _ ← Comp.perform (.removeFile (key tmpPath))
    throw e

/-! ### The draft along a run -/

def Loadable (raw : Bytes) : Prop := ∃ roots, parseManifest raw = .ok roots

/-- What a failed run leaves: the target as it was, and a draft only where removing it failed. -/
def Withdrawn (s : Draft UInt8) : Prop := s.replaced = none ∧ (s.kept = true ∨ s.content = none)

/-- What a successful run leaves. -/
def Replaced (contents : Bytes) (s : Draft UInt8) : Prop :=
  s.replaced = some contents ∧ ∃ raw, (some contents, raw) ∈ s.reads ∧ Loadable raw

/-- `done` is in the draft and nothing has been replaced. -/
def Drafted (done : Bytes) (s : Draft UInt8) : Prop := s.replaced = none ∧ s.content = some done

def Untouched (s : Draft UInt8) : Prop := s.replaced = none

abbrev writing (contents : Bytes) :
    Monitor (Answer IoError : Call Key UInt8 → Type) (Draft UInt8) := drafting Loadable contents

section

variable {contents : Bytes} {P E : Draft UInt8 → Prop}

theorem expect_triple {α : Type} {Q : α → Draft UInt8 → Prop} (what : String)
    (r : Except IoError α) :
    (writing contents).Triple (Monitor.post Q E r) (expect what r) Q E := by
  cases r with
  | ok a => exact .pure fun _ => id
  | error e => exact .throw fun _ => id

theorem removeStale_triple (tmpPath : Bytes) :
    (writing contents).Triple Untouched (removeStale tmpPath)
      (fun _ s => s.replaced = none ∧ s.content = none) Withdrawn := by
  refine Monitor.Triple.bind (Q := fun (r : Removal IoError) s => s.replaced = none ∧
    match r with
    | .fault _ => s.kept = true
    | _ => s.content = none) (.perform fun s r hs _ => ⟨trivial, ?_⟩) fun r => ?_
  · cases r <;> exact ⟨hs, rfl⟩
  · cases r with
    | done => exact .pure fun _ => id
    | notFound => exact .pure fun _ => id
    | fault e => exact .throw fun _ hs => ⟨hs.1, .inl hs.2⟩

theorem createManifestTempFile_triple (dir path : Bytes) (pid : Nat)
    (hn : fileName path ≠ none) :
    (writing contents).Triple Untouched (createManifestTempFile dir path pid)
      (fun _ => Drafted []) Withdrawn := by
  unfold createManifestTempFile
  cases hf : fileName path with
  | none => exact absurd hf hn
  | some name =>
    refine (removeStale_triple _).bind fun _ => Monitor.Triple.bind
      (Q := Monitor.post (fun _ => Drafted []) Withdrawn) (.perform fun s r hs _ => ⟨trivial, ?_⟩)
      fun r => (expect_triple _ r).bind fun _ => .pure fun _ => id
    cases r with
    | ok u => exact ⟨hs.1, rfl⟩
    | error e => exact ⟨hs.1, .inr hs.2⟩

theorem writeAllTo_triple (path : Key) (what : String) (data done : Bytes) :
    (writing contents).Triple (Drafted done) (writeAllTo path what data)
      (fun _ => Drafted (done ++ data)) Untouched := by
  induction hl : data.length using Nat.strong_induction_on generalizing data done with
  | _ n ih =>
    rw [writeAllTo]
    split
    · rename_i hd
      exact .pure fun s hs => by simpa [hd] using hs
    · rename_i hd
      refine Monitor.Triple.bind (Q := fun (r : Except IoError (Fin (data.length + 1))) s =>
        s.replaced = none ∧ ∀ k, r = .ok k → s.content = some (done ++ data.take k))
        (.perform fun s r hs _ => ⟨trivial, ?_⟩) fun r => ?_
      · cases r with
        | ok k =>
          refine ⟨hs.1, fun j hj => ?_⟩
          obtain rfl := Except.ok.inj hj
          show Option.map _ s.content = _
          rw [hs.2]
          rfl
        | error e => exact ⟨hs.1, fun k hk => by cases hk⟩
      · cases r with
        | error e => exact .throw fun _ hs => hs.1
        | ok k =>
          dsimp only
          split
          · exact .throw fun _ hs => hs.1
          · rename_i hk
            have hpos := List.length_pos_iff.mpr hd
            have hlt : (data.drop k).length < n := by
              rw [List.length_drop]
              omega
            have h := ih _ hlt (data.drop k) (done ++ data.take k) rfl
            rw [List.append_assoc, List.take_append_drop] at h
            exact h.pre fun s hs => ⟨hs.1, hs.2 k rfl⟩

/-- Reading the draft back tells what it was read as. -/
theorem loadManifest_triple (path : Bytes) :
    (writing contents).Triple (Drafted contents) (loadManifest path)
      (fun _ s => s.replaced = none ∧ s.Ready Loadable contents) Untouched := by
  unfold loadManifest
  refine Monitor.Triple.bind (Q := Monitor.post (fun raw s =>
      Drafted contents s ∧ (some contents, raw) ∈ s.reads) Untouched)
    (.perform fun s r hs _ => ⟨trivial, ?_⟩) fun r => (expect_triple _ r).bind fun raw => ?_
  · cases r with
    | ok raw => exact ⟨hs, by simp [writing, drafting, Draft.step, hs.2]⟩
    | error e => exact hs.1
  · cases hp : parseManifest raw with
    | ok roots => exact .pure fun s hs => ⟨hs.1.1, hs.1.2, raw, hs.2, roots, hp⟩
    | error e => exact .throw fun s hs => hs.1.1

theorem fsyncDirBestEffort_triple (dir : Bytes) :
    (writing contents).Triple (Replaced contents) (fsyncDirBestEffort dir)
      (fun _ => Replaced contents) E := by
  refine Monitor.Triple.bind (Q := fun _ => Replaced contents)
    (.perform fun s r hs _ => ⟨trivial, ?_⟩) fun r => ?_
  · cases r <;> exact hs
  · cases r with
    | error e => exact .pure fun _ => id
    | ok u =>
      refine Monitor.Triple.bind (Q := fun _ => Replaced contents)
        (.perform fun s r hs _ => ⟨trivial, ?_⟩) fun _ => .pure fun _ => id
      cases r <;> exact hs

theorem replaceManifest_triple (dir path tmpPath : Bytes) :
    (writing contents).Triple (Drafted []) (replaceManifest dir path tmpPath contents)
      (fun _ => Replaced contents) Untouched := by
  unfold replaceManifest
  refine (writeAllTo_triple _ _ contents []).bind fun _ => ?_
  refine Monitor.Triple.bind (Q := Monitor.post (fun _ => Drafted contents) Untouched)
    (.perform fun s r hs _ => ⟨trivial, ?_⟩) fun r => (expect_triple _ r).bind fun _ =>
    (loadManifest_triple tmpPath).bind fun _ => ?_
  · cases r with
    | ok u => exact hs
    | error e => exact hs.1
  refine Monitor.Triple.bind (Q := Monitor.post (fun _ => Replaced contents) Untouched)
    (.perform fun s r hs _ => ?_) fun r => (expect_triple _ r).bind fun _ =>
    fsyncDirBestEffort_triple dir
  cases r with
  | ok u => exact ⟨hs.2, hs.2.1, hs.2.2⟩
  | error e => exact ⟨trivial, hs.1⟩

/-- A run replaces the target by a draft that was read back, or withdraws. -/
theorem write_triple (path : Bytes) (pid : Nat) (hn : fileName path ≠ none) :
    (writing contents).Triple Untouched (writeNixRunRootsManifestAtomic path contents pid)
      (fun _ => Replaced contents) Withdrawn := by
  unfold writeNixRunRootsManifestAtomic
  refine Monitor.Triple.bind (Q := Monitor.post (fun _ => Untouched) Withdrawn)
    (.perform fun s r hs _ => ⟨trivial, ?_⟩) fun r => (expect_triple _ r).bind fun _ =>
    (createManifestTempFile_triple _ path pid hn).bind fun tmpPath =>
    (replaceManifest_triple _ path tmpPath).attempt_all.bind fun result => ?_
  · cases r with
    | ok u => exact hs
    | error e => exact ⟨hs, .inr rfl⟩
  · cases result with
    | ok u => exact .pure fun _ => id
    | error e =>
      refine Monitor.Triple.bind (Q := fun _ => Withdrawn) (.perform fun s r hs _ =>
        ⟨trivial, ?_⟩) fun _ => .throw fun _ => id
      cases r with
      | done => exact ⟨hs, .inr rfl⟩
      | notFound => exact ⟨hs, .inr rfl⟩
      | fault e => exact ⟨hs, .inl rfl⟩

end

/-! ### The names of the files -/

theorem fileName_some {path name : Bytes} (h : fileName path = some name) :
    (components path).getLast? = some (.normal name) := by
  unfold fileName at h
  split at h
  · rename_i n hn
    rw [hn, Option.some.inj h]
  · cases h

theorem fileName_whole {path name : Bytes} (h : fileName path = some name) : slash ∉ name := by
  have hm := List.mem_of_getLast? (fileName_some h)
  obtain ⟨hc, -⟩ | ⟨hc, -⟩ | ⟨hf, -⟩ := mem_components hm
  · cases hc
  · cases hc
  · exact Fields.sep_notMem_field hf

theorem tmpName_name {name : Bytes} (pid : Nat) (h : slash ∉ name) : Name (tmpName name pid) := by
  have hd : slash ∉ decimal pid := by
    intro hm
    exact absurd (mem_decimal hm) (by decide)
  have ht : slash ∉ utf8 ".tmp" := by decide
  have hdot : slash ≠ dot := by decide
  refine ⟨?_, by simp [tmpName, h, hd, ht, hdot]⟩
  simp [Skipped, tmpName]

theorem tmpName_ne {name : Bytes} (pid : Nat) :
    tmpName name pid ≠ name ∧ tmpName name pid ≠ [dot, dot] := by
  have ht : (utf8 ".tmp").length = 4 := by decide
  constructor
  · intro h
    have hl := congrArg List.length h
    simp [tmpName, ht] at hl
    omega
  · intro h
    have hl := congrArg List.length h
    simp [tmpName, ht] at hl
    omega

theorem tmpName_injective {name : Bytes} {i j : Nat} (h : tmpName name i = tmpName name j) :
    i = j := by
  unfold tmpName at h
  rw [List.append_left_inj] at h
  simp only [List.cons_append, List.cons.injEq, true_and, List.append_cancel_left_eq] at h
  exact decimal_injective h

/-- Where the contents are drafted. -/
abbrev draftKey (path name : Bytes) (pid : Nat) : Key :=
  key (push (manifestDir path) (tmpName name pid))

/-- The draft is in the manifest's directory, under a name of its own. -/
theorem draftKey_eq {name : Bytes} (path : Bytes) (pid : Nat) (h : slash ∉ name) :
    draftKey path name pid = key (manifestDir path) ++ [.normal (tmpName name pid)] := by
  have hn := tmpName_name pid h
  obtain ⟨ha, hf⟩ := front_name hn []
  rw [List.append_nil] at ha hf
  rw [draftKey, key, components_push ha hf, segments_name hn, List.filter_append, key,
    List.map_singleton, ofSegment_normal (tmpName_ne pid).2]
  rfl

theorem draftKey_injective {path name : Bytes} {i j : Nat} (hn : slash ∉ name)
    (h : draftKey path name i = draftKey path name j) : i = j := by
  rw [draftKey_eq path i hn, draftKey_eq path j hn] at h
  have ht := List.append_cancel_left h
  simp only [List.cons.injEq, Component.normal.injEq, and_true] at ht
  exact tmpName_injective ht

theorem key_last {path name : Bytes} (h : fileName path = some name) :
    (key path).getLast? = some (.normal name) := by
  obtain ⟨init, hi⟩ := List.getLast?_eq_some_iff.mp (fileName_some h)
  rw [key, hi, List.filter_append]
  simp

theorem draftKey_ne {path name : Bytes} (pid : Nat) (h : fileName path = some name) :
    draftKey path name pid ≠ key path := by
  intro he
  have hl := key_last h
  rw [← he, draftKey_eq path pid (fileName_whole h)] at hl
  simp only [List.getLast?_concat, Option.some.injEq, Component.normal.injEq] at hl
  exact (tmpName_ne pid).1 hl

/-! ### Its calls -/

section

variable {S : Act Key UInt8 IoError → Prop} {path : Bytes}

theorem expect_acts {α : Type} (what : String) (r : Except IoError α) :
    Comp.ActsIn S (expect what r) := by
  cases r with
  | ok a => exact .pure a
  | error e => exact .throw _

theorem writeAllTo_acts (p : Key) (what : String) (h : ∀ data x, S ⟨.write p data, x⟩)
    (data : Bytes) : Comp.ActsIn S (writeAllTo p what data) := by
  induction hl : data.length using Nat.strong_induction_on generalizing data with
  | _ n ih =>
    rw [writeAllTo]
    split
    · exact .pure ()
    · rename_i hd
      refine (Comp.ActsIn.perform fun x => h data x).bind fun r => ?_
      cases r with
      | error e => exact .throw _
      | ok k =>
        dsimp only
        split
        · exact .throw _
        · rename_i hk
          have hpos := List.length_pos_iff.mpr hd
          exact ih _ (by rw [List.length_drop]; omega) _ rfl

theorem replaceManifest_acts (dir tmpPath contents : Bytes) :
    Comp.ActsIn (Own List.dropLast (key tmpPath) (key path))
      (replaceManifest dir path tmpPath contents) := by
  refine (writeAllTo_acts _ _ (fun _ _ => rfl) _).bind fun _ =>
    (Comp.ActsIn.perform fun _ => trivial).bind fun r => (expect_acts _ r).bind fun _ =>
    Comp.ActsIn.bind ?_ fun _ => (Comp.ActsIn.perform fun _ => ⟨rfl, rfl⟩).bind fun r =>
    (expect_acts _ r).bind fun _ => ?_
  · refine (Comp.ActsIn.perform fun _ => rfl).bind fun r => (expect_acts _ r).bind fun raw => ?_
    cases parseManifest raw with
    | ok roots => exact .pure roots
    | error e => exact .throw _
  · refine (Comp.ActsIn.perform fun _ => trivial).bind fun r => ?_
    cases r with
    | error e => exact .pure ()
    | ok u => exact (Comp.ActsIn.perform fun _ => trivial).bind fun _ => .pure ()

end

/-- The temp file is made under the name that the rest of the run uses. -/
theorem createManifestTempFile_bind {α : Type} {path name : Bytes} (dir : Bytes) (pid : Nat)
    (h : fileName path = some name) (k : Bytes → Fs α) :
    createManifestTempFile dir path pid >>= k =
      removeStale (push dir (tmpName name pid)) >>= fun _ =>
        Comp.perform (.createNew (key (push dir (tmpName name pid)))) >>= fun created =>
          expect s!"create {display (push dir (tmpName name pid))}" created >>= fun _ =>
            k (push dir (tmpName name pid)) := by
  unfold createManifestTempFile
  rw [h]
  simp only [bind_assoc, pure_bind]

/-- A writer keeps to its temp file and the manifest. -/
theorem write_acts {path name : Bytes} (contents : Bytes) (pid : Nat)
    (h : fileName path = some name) :
    Comp.ActsIn (Own List.dropLast (draftKey path name pid) (key path))
      (writeNixRunRootsManifestAtomic path contents pid) := by
  have hdir : key (manifestDir path) =
      (draftKey path name pid).dropLast := by
    rw [draftKey_eq path pid (fileName_whole h), List.dropLast_concat]
  unfold writeNixRunRootsManifestAtomic
  dsimp only
  refine (Comp.ActsIn.perform fun _ => hdir).bind fun r => (expect_acts _ r).bind fun _ => ?_
  rw [createManifestTempFile_bind _ pid h]
  refine Comp.ActsIn.bind ?_ fun _ => (Comp.ActsIn.perform fun _ => rfl).bind fun r =>
    (expect_acts _ r).bind fun _ => (replaceManifest_acts _ _ contents).attempt.bind fun r => ?_
  · refine (Comp.ActsIn.perform fun _ => rfl).bind fun r => ?_
    cases r with
    | done => exact .pure ()
    | notFound => exact .pure ()
    | fault e => exact .throw _
  · cases r with
    | ok u => exact .pure ()
    | error e => exact (Comp.ActsIn.perform fun _ => rfl).bind fun _ => .throw _

/-- With no file name there is nothing but the directory. -/
theorem write_nameless {path : Bytes} (contents : Bytes) (pid : Nat) (h : fileName path = none)
    {t : List (Act Key UInt8 IoError)} {r : Except Error Unit}
    (hr : (writeNixRunRootsManifestAtomic path contents pid).Runs t r) :
    (∀ e ∈ t, ∃ dir x, e = ⟨.createDirAll dir, x⟩) ∧ ∃ e, r = .error e := by
  unfold writeNixRunRootsManifestAtomic at hr
  obtain ⟨x, u, rfl, hu⟩ := (Comp.runs_perform_bind r).mp hr
  have hend : u = [] ∧ ∃ e, r = .error e := by
    cases x with
    | error e =>
      obtain ⟨hn, he⟩ := (Comp.runs_throw _ r).mp hu
      exact ⟨hn, _, he⟩
    | ok v =>
      unfold createManifestTempFile at hu
      rw [h] at hu
      obtain ⟨hn, he⟩ := (Comp.runs_throw _ r).mp hu
      exact ⟨hn, _, he⟩
  obtain ⟨rfl, he⟩ := hend
  exact ⟨fun e hm => ⟨_, x, List.mem_singleton.mp hm⟩, he⟩

/-! ### The manifest -/

/-- Replacing the manifest is atomic. -/
structure ManifestAtomic (path : Bytes) : Prop where
  /-- A run that succeeds has put all the contents there, and they are a manifest. -/
  written : ∀ (contents : Bytes) (pid : Nat) (d d' : Disk Key UInt8 List.dropLast)
    (t : List (Act Key UInt8 IoError)),
    (writeNixRunRootsManifestAtomic path contents pid).Runs t (.ok ()) → Steps d t d' →
    d'.files (key path) = some contents ∧ Loadable contents
  /-- A run that fails leaves what was there, and no temp file if no removal failed. -/
  failed : ∀ (contents : Bytes) (pid : Nat) (d d' : Disk Key UInt8 List.dropLast)
    (t : List (Act Key UInt8 IoError)) (e : Error),
    (writeNixRunRootsManifestAtomic path contents pid).Runs t (.error e) → Steps d t d' →
    d'.files (key path) = d.files (key path) ∧
      ∀ name, fileName path = some name → (∀ p x, ⟨.removeFile p, .fault x⟩ ∉ t) →
        d'.files (draftKey path name pid) = none
  /-- At every moment, whoever writes and wherever they are cut off. -/
  moments : ∀ (ι : Type) [DecidableEq ι] (contents : ι → Bytes) (pid : ι → Nat)
    (d d' : Disk Key UInt8 List.dropLast) (es : List (ι × Act Key UInt8 IoError)),
    (∀ i j, pid i = pid j → i = j) →
    Interleaved (fun i => writeNixRunRootsManifestAtomic path (contents i) (pid i)) es →
    Steps d (es.map (·.2)) d' →
    (d'.files (key path) = d.files (key path) ∨
      ∃ i, d'.files (key path) = some (contents i) ∧ Loadable (contents i)) ∧
    ((∀ raw, d.files (key path) = some raw → Loadable raw) →
      ∀ raw, d'.files (key path) = some raw → Loadable raw)

theorem steps_nameless {t : List (Act Key UInt8 IoError)}
    {d d' : Disk Key UInt8 List.dropLast} (h : ∀ e ∈ t, ∃ dir x, e = ⟨.createDirAll dir, x⟩)
    (hs : Steps d t d') : d'.files = d.files := by
  induction t generalizing d with
  | nil =>
    obtain rfl := hs
    rfl
  | cons e t ih =>
    obtain ⟨m, hm, hs⟩ := hs
    obtain ⟨⟨dir, x, he⟩, ht⟩ := List.forall_mem_cons.mp h
    rw [ih ht hs, hm.files, he]
    cases x <;> rfl

/-- One run of one writer. -/
theorem write_run {path name contents : Bytes} {pid : Nat}
    {d d' : Disk Key UInt8 List.dropLast} {t : List (Act Key UInt8 IoError)}
    {r : Except Error Unit} (h : fileName path = some name)
    (hr : (writeNixRunRootsManifestAtomic path contents pid).Runs t r) (hs : Steps d t d') :
    ∃ s : Draft UInt8, Tracks (draftKey path name pid) s d' ∧
      d'.files (key path) = (s.replaced <|> d.files (key path)) ∧
      Monitor.post (fun _ => Replaced contents) Withdrawn r s ∧
      (s.kept = true → ∃ p x, (⟨.removeFile p, .fault x⟩ : Act Key UInt8 IoError) ∈ t) := by
  obtain ⟨-, hp⟩ := write_triple path pid (by simp [h])
    (Draft.fresh (d.files (draftKey path name pid))) t r rfl hr
    (fun _ _ => trivial)
  obtain ⟨ht, hf⟩ := Tracks.run (d.files (key path)) (Tracks.fresh _ d)
    (write_acts contents pid h t r hr) (draftKey_ne pid h) rfl hs
  refine ⟨_, ht, hf, hp, fun hk => ?_⟩
  obtain hk | hk := kept_run hk
  · cases hk
  · exact hk

theorem manifest_atomic (path : Bytes) : ManifestAtomic path where
  written contents pid d d' t hr hs := by
    cases hf : fileName path with
    | none =>
      obtain ⟨-, e, he⟩ := write_nameless contents pid hf hr
      cases he
    | some name =>
      obtain ⟨s, ht, htarget, ⟨hrep, raw, hraw, ha⟩, -⟩ := write_run hf hr hs
      have he : some contents = some raw := ht.reads _ hraw
      rw [htarget, hrep]
      exact ⟨rfl, Option.some.inj he ▸ ha⟩
  failed contents pid d d' t e hr hs := by
    cases hf : fileName path with
    | none =>
      obtain ⟨ht, -⟩ := write_nameless contents pid hf hr
      rw [steps_nameless ht hs]
      exact ⟨rfl, fun name hn => by cases hn⟩
    | some name =>
      obtain ⟨s, ht, htarget, ⟨hrep, hc⟩, hk⟩ := write_run hf hr hs
      refine ⟨by rw [htarget, hrep]; rfl, fun n hn hno => ?_⟩
      obtain rfl := Option.some.inj hn
      rw [← ht.content]
      obtain hc | hc := hc
      · obtain ⟨p, x, hm⟩ := hk hc
        exact absurd hm (hno p x)
      · exact hc
  moments ι _ contents pid d d' es hpid hes hs := by
    have hwhole : d'.files (key path) = d.files (key path) ∨
        ∃ i, d'.files (key path) = some (contents i) ∧ Loadable (contents i) := by
      cases hf : fileName path with
      | none =>
        refine .inl (congrFun (steps_nameless (fun e he => ?_) hs) _)
        obtain ⟨⟨i, e'⟩, hm, rfl⟩ := List.mem_map.mp he
        obtain ⟨rest, r, hr⟩ := hes i
        exact (write_nameless _ _ hf hr).1 _ (List.mem_append_left _ (mem_calls hm))
      | some name =>
        refine target_whole (q := fun i => draftKey path name (pid i))
          (s := fun i => Draft.fresh (d.files (draftKey path name (pid i))))
          (fun i j hij => hpid i j (draftKey_injective (fileName_whole hf) hij))
          (fun i => draftKey_ne (pid i) hf) (fun x hx => ?_) (fun i => Tracks.fresh _ d)
          (fun i => ?_) hs
        · obtain ⟨rest, r, hr⟩ := hes x.1
          exact write_acts _ _ hf _ _ hr _ (List.mem_append_left _ (mem_calls hx))
        · obtain ⟨rest, r, hr⟩ := hes i
          have hm := (write_triple path (pid i) (by simp [hf])
            (Draft.fresh (d.files (draftKey path name (pid i)))) _ r rfl hr fun _ _ => trivial).1
          exact ((Monitor.meets_append ..).mp hm).1
    refine ⟨hwhole, fun hold raw hraw => ?_⟩
    obtain hsame | ⟨i, hi, ha⟩ := hwhole
    · exact hold raw (hsame ▸ hraw)
    · rw [hi] at hraw
      exact Option.some.inj hraw ▸ ha

/-! ### A run without faults -/

/-- A disk with all its directories. -/
def diskOf (files : Key → Option Bytes) : Disk Key UInt8 List.dropLast :=
  ⟨files, fun _ => True, fun _ _ => trivial⟩

/-- Every answer is one that the files allow. -/
def Fine : (Key → Option Bytes) → List (Act Key UInt8 IoError) → Prop
  | _, [] => True
  | files, e :: es => Honest (diskOf files) e ∧ Fine (effect files e) es

theorem fine_append {files : Key → Option Bytes} {t u : List (Act Key UInt8 IoError)} :
    Fine files (t ++ u) ↔ Fine files t ∧ Fine (t.foldl effect files) u := by
  induction t generalizing files with
  | nil => simp [Fine]
  | cons e t ih => simp [Fine, ih, and_assoc]

theorem Fine.steps {files : Key → Option Bytes} {t : List (Act Key UInt8 IoError)}
    (h : Fine files t) : Steps (diskOf files) t (diskOf (t.foldl effect files)) := by
  induction t generalizing files with
  | nil => rfl
  | cons e t ih => exact ⟨_, ⟨h.1, rfl, fun _ _ => trivial⟩, ih h.2⟩

/-- The calls that write all of the data at once. -/
def wholeWrite (path : Key) (data : Bytes) : List (Act Key UInt8 IoError) :=
  if data = [] then [] else [⟨.write path data, .ok (Fin.last data.length)⟩]

theorem wholeWrite_runs (path : Key) (what : String) (data : Bytes) :
    (writeAllTo path what data).Runs (wholeWrite path data) (.ok ()) := by
  rw [writeAllTo, wholeWrite]
  split
  · exact ⟨rfl, rfl⟩
  · rename_i hd
    refine (Comp.runs_perform_bind _).mpr ⟨.ok (Fin.last data.length), [], rfl, ?_⟩
    have hpos : ¬ (Fin.last data.length).val = 0 := fun h => hd (List.length_eq_zero_iff.mp h)
    dsimp only
    rw [if_neg hpos, writeAllTo, if_pos (by simp)]
    exact ⟨rfl, rfl⟩

theorem wholeWrite_fine {files : Key → Option Bytes} {path : Key} (data : Bytes)
    (h : files path = some []) : Fine files (wholeWrite path data) ∧
      (wholeWrite path data).foldl effect files path = some data := by
  unfold wholeWrite
  split
  · rename_i hd
    exact ⟨trivial, by rw [hd]; exact h⟩
  · refine ⟨⟨?_, trivial⟩, ?_⟩
    · show files path ≠ none
      simp [h]
    · simp [effect, h]

/-- Removing what may be there. -/
def cleared (files : Key → Option Bytes) (path : Key) : Removal IoError :=
  match files path with
  | none => .notFound
  | some _ => .done

theorem cleared_fine (files : Key → Option Bytes) (path : Key) :
    Honest (diskOf files) (⟨.removeFile path, cleared files path⟩ : Act Key UInt8 IoError) ∧
      effect files (⟨.removeFile path, cleared files path⟩ : Act Key UInt8 IoError) path =
        none := by
  unfold cleared
  cases hf : files path with
  | none => exact ⟨hf, hf⟩
  | some c => exact ⟨by simp [Honest, diskOf, hf], by simp [effect]⟩

theorem call_runs {α : Type} {o : Call Key UInt8} {x : Answer IoError o}
    {k : Answer IoError o → Fs α} {u : List (Act Key UInt8 IoError)} {r : Except Error α}
    (h : (k x).Runs u r) : (Comp.perform o >>= k).Runs (⟨o, x⟩ :: u) r :=
  (Comp.runs_perform_bind r).mpr ⟨x, u, rfl, h⟩

/-- What is expected and has gone well. -/
theorem expect_runs {α β : Type} {what : String} {a : α} {k : α → Fs β}
    {u : List (Act Key UInt8 IoError)} {r : Except Error β} (h : (k a).Runs u r) :
    (expect what (.ok a) >>= k).Runs u r := h

theorem loadManifest_runs {path contents : Bytes} {roots : NixRunRoots}
    (h : parseManifest contents = .ok roots) :
    (loadManifest path).Runs [⟨.read (key path), .ok contents⟩] (.ok roots) := by
  refine call_runs (expect_runs ?_)
  rw [h]
  exact ⟨rfl, rfl⟩

theorem removeStale_runs (files : Key → Option Bytes) (tmpPath : Bytes) :
    (removeStale tmpPath).Runs
      [⟨.removeFile (key tmpPath), cleared files (key tmpPath)⟩] (.ok ()) := by
  refine call_runs ?_
  unfold cleared
  cases files (key tmpPath) with
  | none => exact ⟨rfl, rfl⟩
  | some c => exact ⟨rfl, rfl⟩

/-- The calls of a run that replaces the manifest, once the temp file is there. -/
def smoothCalls (dir path tmpPath contents : Bytes) : List (Act Key UInt8 IoError) :=
  wholeWrite (key tmpPath) contents ++
    [⟨.syncAll (key tmpPath), .ok ()⟩, ⟨.read (key tmpPath), .ok contents⟩,
      ⟨.rename (key tmpPath) (key path), .ok ()⟩, ⟨.openDir (key dir), .ok ()⟩,
      ⟨.syncAll (key dir), .ok ()⟩]

theorem replaceManifest_runs {dir path tmpPath contents : Bytes} (h : Loadable contents) :
    (replaceManifest dir path tmpPath contents).Runs (smoothCalls dir path tmpPath contents)
      (.ok ()) := by
  obtain ⟨roots, hp⟩ := h
  refine (wholeWrite_runs _ _ contents).bind (call_runs (expect_runs ?_))
  refine Comp.Runs.bind (loadManifest_runs hp) (call_runs (expect_runs ?_))
  exact call_runs (call_runs ⟨rfl, rfl⟩)

theorem smoothCalls_fine {files : Key → Option Bytes} (dir path tmpPath contents : Bytes)
    (h : files (key tmpPath) = some []) : Fine files (smoothCalls dir path tmpPath contents) := by
  obtain ⟨hf, hc⟩ := wholeWrite_fine contents h
  refine fine_append.mpr ⟨hf, trivial, hc, ?_, trivial, trivial, trivial⟩
  show List.foldl effect files (wholeWrite (key tmpPath) contents) (key tmpPath) ≠ none
  simp [hc]

/-- The calls of a run that goes well, on a disk with these files. -/
def smoothWrite (files : Key → Option Bytes) (path name contents : Bytes) (pid : Nat) :
    List (Act Key UInt8 IoError) :=
  let draft := draftKey path name pid
  ⟨.createDirAll (key (manifestDir path)), .ok ()⟩ :: ⟨.removeFile draft, cleared files draft⟩ ::
    ⟨.createNew draft, .ok ()⟩ ::
    smoothCalls (manifestDir path) path (push (manifestDir path) (tmpName name pid)) contents

theorem smoothWrite_runs {path name contents : Bytes} (files : Key → Option Bytes) (pid : Nat)
    (hn : fileName path = some name) (ha : Loadable contents) :
    (writeNixRunRootsManifestAtomic path contents pid).Runs
      (smoothWrite files path name contents pid) (.ok ()) := by
  refine call_runs (expect_runs ?_)
  rw [createManifestTempFile_bind _ pid hn]
  refine (removeStale_runs files _).bind (call_runs (expect_runs ?_))
  rw [← List.append_nil (smoothCalls _ _ _ _)]
  exact Comp.Runs.bind ((Comp.runs_attempt _ _).mpr (.inl ⟨(), replaceManifest_runs ha, rfl⟩))
    ⟨rfl, rfl⟩

theorem smoothWrite_fine (files : Key → Option Bytes) (path name contents : Bytes) (pid : Nat) :
    Fine files (smoothWrite files path name contents pid) := by
  obtain ⟨hclear, hnone⟩ := cleared_fine files (draftKey path name pid)
  refine ⟨trivial, hclear, hnone, smoothCalls_fine _ _ _ _ ?_⟩
  simp [effect]

/-- On any disk a manifest can be written. -/
theorem write_succeeds {path name contents : Bytes} (pid : Nat) (hn : fileName path = some name)
    (ha : Loadable contents) (d : Disk Key UInt8 List.dropLast) :
    ∃ t d', (writeNixRunRootsManifestAtomic path contents pid).Runs t (.ok ()) ∧
      Steps d t d' := by
  obtain ⟨-, hrest⟩ := smoothWrite_fine d.files path name contents pid
  exact ⟨_, _, smoothWrite_runs d.files pid hn ha, diskOf d.files,
    ⟨trivial, rfl, fun _ _ => trivial⟩, Fine.steps hrest⟩

end Claudepod
