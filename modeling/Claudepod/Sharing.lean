import Claudepod.Launcher

/-! What of the host a guest sees: the volumes that podman is given, as podman reads them. -/

set_option autoImplicit false

namespace Claudepod
open Interaction MountTable

/-! ### Shares -/

/-- A host path, where the guest sees it, and whether it is read-only there. -/
structure Share where
  host : Bytes
  guest : Bytes
  readOnly : Bool
  deriving DecidableEq

/-- How podman reads a `-v` argument; its options are separated by commas. -/
def shareOf (arg : Bytes) : Option Share :=
  match volumeFields arg with
  | host :: guest :: options =>
    some ⟨host, guest, (options.flatMap fun o => o.splitOn comma).contains (utf8 "ro")⟩
  | _ => none

def shares (volumes : List Bytes) : List Share := volumes.filterMap shareOf

def Share.mount (s : Share) : Bytes × Bytes := (s.host, s.guest)

theorem mountsOf_eq (volumes : List Bytes) :
    mountsOf volumes = (shares volumes).map Share.mount := by
  induction volumes with
  | nil => rfl
  | cons arg volumes ih =>
    rw [mountsOf, shares, List.filterMap_cons, List.filterMap_cons, ← mountsOf, ← shares, ih]
    unfold shareOf
    cases volumeFields arg with
    | nil => rfl
    | cons host rest => cases rest <;> rfl

@[simp] theorem shares_append (xs ys : List Bytes) : shares (xs ++ ys) = shares xs ++ shares ys :=
  List.filterMap_append

theorem shares_cons {arg : Bytes} {s : Share} (h : shareOf arg = some s) (volumes : List Bytes) :
    shares (arg :: volumes) = s :: shares volumes := by
  rw [shares, List.filterMap_cons, h]
  rfl

/-- A volume of the launcher's own is read back as it was meant. -/
theorem shareOf_writable {host guest out : Bytes} (h : volumeSpec host guest none = .ok out) :
    shareOf out = some ⟨host, guest, false⟩ := by
  rw [shareOf, volumeSpec_fields h (by simp)]
  rfl

theorem shareOf_readOnly {host guest out : Bytes}
    (h : volumeSpec host guest (some "ro") = .ok out) :
    shareOf out = some ⟨host, guest, true⟩ := by
  rw [shareOf, volumeSpec_fields h (by decide)]
  rfl

theorem shares_volumeIf {c ro : Bool} {host guest : Bytes} {options : Option String}
    {out : List Bytes} (h : volumeIf c host guest options = .ok out)
    (hs : ∀ arg, volumeSpec host guest options = .ok arg → shareOf arg = some ⟨host, guest, ro⟩) :
    shares out = if c then [⟨host, guest, ro⟩] else [] := by
  cases c with
  | false =>
    obtain rfl := Except.ok.inj h
    rfl
  | true =>
    rw [volumeIf, if_pos rfl] at h
    cases hv : volumeSpec host guest options with
    | error e => simp [hv, Except.map] at h
    | ok arg =>
      rw [hv] at h
      obtain rfl := Except.ok.inj h
      exact shares_cons (hs arg hv) []

theorem shares_readOnlys {mounts : Mounts} {out : List Bytes}
    (h : (mounts.mapM fun (host, guest) => volumeSpec host guest (some "ro")) = .ok out) :
    shares out = mounts.map fun m => ⟨m.1, m.2, true⟩ := by
  induction mounts generalizing out with
  | nil =>
    obtain rfl := Except.ok.inj h
    rfl
  | cons mount mounts ih =>
    rw [List.mapM_cons] at h
    obtain ⟨spec, hs, h⟩ := bind_eq_ok h
    obtain ⟨specs, hss, h⟩ := bind_eq_ok h
    obtain rfl := Except.ok.inj h
    rw [shares_cons (shareOf_readOnly hs), ih hss]
    rfl

def usbShares : List Share := [⟨usbfsDir, usbfsDir, false⟩, ⟨utf8 "/dev", hostDevDir, false⟩]

theorem shares_usb {cli : Args} {host : Host} {out : List Bytes}
    (h : usbVolumes cli host = .ok out) : shares out = if cli.usb then usbShares else [] := by
  unfold usbVolumes at h
  split at h
  · rename_i hu
    obtain ⟨_, -, h⟩ := bind_eq_ok h
    obtain ⟨usbfs, hf, h⟩ := bind_eq_ok h
    obtain ⟨dev, hd, h⟩ := bind_eq_ok h
    obtain rfl := Except.ok.inj h
    rw [shares_cons (shareOf_writable hf), shares_cons (shareOf_writable hd), if_pos hu]
    rfl
  · rename_i hu
    obtain rfl := Except.ok.inj h
    rw [if_neg hu]
    rfl

/-! ### The launcher's own shares -/

namespace Placement

/-- The shares before the one that can provide the project. -/
def outer (p : Placement) (socket : Bytes) : List Share :=
  [⟨hostStore, hostStore, true⟩, ⟨socket, guestSocket, false⟩, ⟨p.homeDir, p.home, false⟩]

def sources (p : Placement) : List Share :=
  if p.srcRoot.isSome then [⟨p.srcRoot.getD [], p.guestSrc, false⟩] else []

def projects (p : Placement) : List Share :=
  if p.needProjectShare then [⟨p.projectDir, p.guestPath, false⟩] else []

end Placement

def layerShares (paths : List Bytes) : List Share :=
  (paths.zip (childLayers paths)).map fun m => ⟨m.1, m.2, true⟩

def deviceShares (cli : Args) : List Share :=
  (if cli.gpu then [⟨openglDriverDir, openglDriverDir, true⟩] else []) ++
    if cli.usb then usbShares else []

theorem launchVolumes_shares {cli : Args} {host : Host} {socket : Bytes} {p : Placement}
    {layers volumes : List Bytes} (h : launchVolumes cli host socket p layers = .ok volumes) :
    ∃ extra, cli.extraVolumes.mapM (extraVolumeSpec host.currentDir) = .ok extra ∧
      shares volumes = p.outer socket ++ p.sources ++ layerShares layers ++ p.projects ++
        deviceShares cli ++ shares extra := by
  unfold launchVolumes at h
  obtain ⟨store, hstore, h⟩ := bind_eq_ok h
  obtain ⟨sock, hsock, h⟩ := bind_eq_ok h
  obtain ⟨home, hhome, h⟩ := bind_eq_ok h
  obtain ⟨src, hsrc, h⟩ := bind_eq_ok h
  obtain ⟨lower, hlower, h⟩ := bind_eq_ok h
  obtain ⟨project, hproject, h⟩ := bind_eq_ok h
  obtain ⟨driver, hdriver, h⟩ := bind_eq_ok h
  obtain ⟨usb, husb, h⟩ := bind_eq_ok h
  obtain ⟨extra, hextra, h⟩ := bind_eq_ok h
  obtain rfl := Except.ok.inj h
  have ho : shares [store, sock, home] = p.outer socket := by
    rw [shares_cons (shareOf_readOnly hstore), shares_cons (shareOf_writable hsock),
      shares_cons (shareOf_writable hhome)]
    rfl
  refine ⟨extra, hextra, ?_⟩
  simp only [shares_append, ho, shares_volumeIf hsrc fun _ => shareOf_writable,
    shares_readOnlys hlower, shares_volumeIf hproject fun _ => shareOf_writable,
    shares_volumeIf hdriver fun _ => shareOf_readOnly, shares_usb husb, Placement.sources,
    layerShares, Placement.projects, deviceShares, List.append_assoc]

/-! ### Where the project is provided -/

namespace Placement

/-- Where the share that provides the project is mounted. -/
def provider (p : Placement) : Bytes := if p.needProjectShare then p.guestPath else p.guestSrc

/-- A mount on the way to the project that lies as far in as the one that provides it. -/
def Hidden (p : Placement) (target : Bytes) : Prop :=
  components p.provider <+: components target ∧ components target <+: components p.guestPath

end Placement

/-- The launcher provides a project below a directory of one of these names. -/
def marks : List Bytes := ["home", "projects", "temp"].map utf8

def Marked (path : Bytes) : Prop := ∃ name ∈ marks, .normal name ∈ components path

theorem marked_mono {p q : Bytes} (h : components p <+: components q) (hm : Marked p) :
    Marked q :=
  let ⟨name, hn, hc⟩ := hm
  ⟨name, hn, h.subset hc⟩

instance (path : Bytes) : Decidable (Marked path) := by unfold Marked; infer_instance

theorem marked_home (username : Bytes) : Marked (guestHome username) := by
  have hs : utf8 "/home/" ++ username = utf8 "/home" ++ slash :: username := by
    rw [show utf8 "/home/" = utf8 "/home" ++ [slash] by decide, List.append_assoc]
    rfl
  refine ⟨utf8 "home", by decide, ?_⟩
  rw [guestHome, hs, components_absolute (by rfl), segments_append, List.map_append]
  exact List.mem_cons_of_mem _ (List.mem_append_left _ (by decide +kernel))

theorem marked_push {home name : Bytes} (hr : isAbsolute name = false) (hf : front name = [])
    (hs : segments name = [name]) (hm : name ∈ marks) (hn : name ≠ [dot, dot]) :
    Marked (push home name) := by
  refine ⟨name, hm, ?_⟩
  rw [components_push hr hf, hs, List.map_singleton, ofSegment_normal hn]
  simp

theorem fileName_relative {path name : Bytes} (h : fileName path = some name) :
    isAbsolute name = false := by
  have hm : Component.normal name ∈ components path := by
    unfold fileName at h
    split at h
    · rename_i last hl
      obtain rfl := Option.some.inj h
      exact List.mem_of_getLast? hl
    · cases h
  rcases mem_components hm with ⟨hc, -⟩ | ⟨hc, -⟩ | ⟨hf, -⟩
  · cases hc
  · cases hc
  · rw [Bool.eq_false_iff]
    intro ha
    obtain ⟨rest, rfl⟩ := isAbsolute_iff.mp ha
    exact Fields.sep_notMem_field hf List.mem_cons_self

/-- A project that is shared is at its own path below one of the user's directories for that, or in
`/projects`. -/
theorem marked_shared {projectDir guestPath username : Bytes} {root hostHome : Option Bytes}
    (h : guestProjectPath projectDir root (oneToOneProjectRoots hostHome) username =
      .ok (guestPath, true)) : Marked guestPath := by
  unfold guestProjectPath at h
  cases hb : root.bind (stripPrefix projectDir) with
  | some rel => simp [hb] at h
  | none =>
    simp only [hb] at h
    split at h
    · rename_i hany
      obtain rfl : projectDir = guestPath := (Prod.mk.inj (Except.ok.inj h)).1
      obtain ⟨base, hm, hs⟩ := List.any_eq_true.mp hany
      refine marked_mono (startsWith_iff.mp hs) ?_
      cases hostHome with
      | none => cases hm
      | some home =>
        obtain rfl | rfl : base = push home (utf8 "projects") ∨ base = push home (utf8 "temp") := by
          simpa [oneToOneProjectRoots] using hm
        · exact marked_push (by decide) (by decide) (by decide) (by decide) (by decide)
        · exact marked_push (by decide) (by decide) (by decide) (by decide) (by decide)
    · cases hf : fileName projectDir with
      | none => simp [hf] at h
      | some name =>
        simp only [hf, Except.ok.injEq, Prod.mk.injEq, and_true] at h
        obtain rfl := h
        refine ⟨utf8 "projects", by decide, ?_⟩
        rw [components_absolute (isAbsolute_push (by decide)), segments_push (fileName_relative hf),
          List.map_append]
        exact List.mem_cons_of_mem _ (List.mem_append_left _ (by decide +kernel))

/-- The names of layers are numbers. -/
theorem not_marked_childLayer (i : Nat) : ¬ Marked (childLayer i) := by
  intro ⟨name, hn, hc⟩
  have hfixed : ∀ name ∈ marks,
      .normal name ∉ (segments storeLayerMountDir).map Component.ofSegment := by decide +kernel
  have hdigits : ∀ name ∈ marks, ¬ ∀ b ∈ name, 48 ≤ b.toNat ∧ b.toNat ≤ 57 := by decide +kernel
  rw [childLayer_eq, components_absolute (by rfl), segments_append, List.map_append] at hc
  rcases List.mem_cons.mp hc with hc | hc
  · cases hc
  rcases List.mem_append.mp hc with hc | hc
  · exact hfixed name hn hc
  · obtain ⟨x, hx, he⟩ := List.mem_map.mp hc
    obtain rfl : x = name := by
      unfold Component.ofSegment at he
      split at he
      · cases he
      · exact Component.normal.inj he
    exact hdigits x hn fun b hb =>
      mem_decimal (Fields.mem_of_mem_field (List.mem_of_mem_filter hx) hb)

/-! ### What the guest sees -/

/-- What a launch shares. -/
inductive Granted (cli : Args) (host : Host) (plan : Plan) (socket : Bytes) : Share → Prop where
  | store : Granted cli host plan socket ⟨hostStore, hostStore, true⟩
  | socket : Granted cli host plan socket ⟨socket, guestSocket, false⟩
  | home : Granted cli host plan socket ⟨plan.placement.homeDir, plan.placement.home, false⟩
  | src (root : Bytes) : plan.placement.srcRoot = some root →
    Granted cli host plan socket ⟨root, plan.placement.guestSrc, false⟩
  | layer (i : Nat) (path : Bytes) : plan.launch.parentLayers[i]? = some path →
    Granted cli host plan socket ⟨path, childLayer i, true⟩
  | project : plan.placement.needProjectShare = true →
    Granted cli host plan socket ⟨plan.placement.projectDir, plan.placement.guestPath, false⟩
  | driver : cli.gpu = true →
    Granted cli host plan socket ⟨openglDriverDir, openglDriverDir, true⟩
  | usb (share : Share) : cli.usb = true → share ∈ usbShares →
    Granted cli host plan socket share
  /-- The user decides where a volume of his goes, and whether it is read-only. -/
  | user (spec path guest : Bytes) (readOnly : Bool) : spec ∈ cli.extraVolumes →
    absolute host.currentDir (specHost spec) = .ok path →
    Granted cli host plan socket ⟨path, guest, readOnly⟩

section Sharing

variable {cli : Args} {host : Host} {plan : Plan} {socket : Bytes}

theorem mem_layerShares {paths : List Bytes} {share : Share} (h : share ∈ layerShares paths) :
    ∃ (i : Nat) (path : Bytes), paths[i]? = some path ∧ share = ⟨path, childLayer i, true⟩ := by
  obtain ⟨m, hm, rfl⟩ := List.mem_map.mp h
  obtain ⟨i, hi⟩ := List.mem_iff_getElem?.mp hm
  obtain ⟨hp, hg⟩ := List.getElem?_zip_eq_some.mp hi
  refine ⟨i, m.1, hp, ?_⟩
  rw [childLayers, List.getElem?_map] at hg
  obtain ⟨j, hj, hg⟩ := Option.map_eq_some_iff.mp hg
  obtain rfl : i = j := by
    simpa using (List.getElem?_eq_some_iff.mp hj).2
  rw [hg]

theorem mem_mapM_ok {α β : Type} {f : α → Except Error β} {xs : List α} {ys : List β} {y : β}
    (h : xs.mapM f = .ok ys) (hy : y ∈ ys) : ∃ x ∈ xs, f x = .ok y := by
  induction xs generalizing ys with
  | nil =>
    obtain rfl := Except.ok.inj h
    cases hy
  | cons x xs ih =>
    rw [List.mapM_cons] at h
    obtain ⟨z, hz, h⟩ := bind_eq_ok h
    obtain ⟨zs, hzs, h⟩ := bind_eq_ok h
    obtain rfl := Except.ok.inj h
    rcases List.mem_cons.mp hy with rfl | hy
    · exact ⟨x, List.mem_cons_self, hz⟩
    · obtain ⟨x', hx', hf⟩ := ih hzs hy
      exact ⟨x', List.mem_cons_of_mem _ hx', hf⟩

/-- A volume of the user's shares the directory that he names. -/
theorem mem_shares_extra {extra : List Bytes} {share : Share}
    (h : cli.extraVolumes.mapM (extraVolumeSpec host.currentDir) = .ok extra)
    (hc : ∀ dir, host.currentDir = .ok dir → colon ∉ dir) (hs : share ∈ shares extra) :
    Granted cli host plan socket share := by
  obtain ⟨arg, ha, hs⟩ := List.mem_filterMap.mp hs
  obtain ⟨spec, hm, he⟩ := mem_mapM_ok h ha
  obtain ⟨path, hp, hn, hout⟩ := extraVolumeSpec_ok he
  have hcolon : colon ∉ path := by
    intro hcp
    rcases mem_absolute hp hcp with hcp | hcp | ⟨-, dir, hd, hcp⟩
    · exact hn hcp
    · cases hcp
    · exact hc dir hd hcp
  have hout : ∃ rest, arg = path ++ colon :: rest := by
    rcases hout with ⟨rest, -, ho⟩ | ⟨-, ho⟩
    · exact ⟨rest, ho⟩
    · exact ⟨path, ho⟩
  obtain ⟨rest, rfl⟩ := hout
  rw [shareOf, volumeFields_cons hcolon] at hs
  cases hf : volumeFields rest with
  | nil => simp [hf] at hs
  | cons guest options =>
    simp only [hf, Option.some.injEq] at hs
    exact hs ▸ .user spec path guest _ hm hp

/-- All volumes share what they are meant to. -/
theorem mem_shares {volumes : List Bytes} {share : Share}
    (h : launchVolumes cli host socket plan.placement plan.launch.parentLayers = .ok volumes)
    (hc : ∀ dir, host.currentDir = .ok dir → colon ∉ dir) (hs : share ∈ shares volumes) :
    Granted cli host plan socket share := by
  obtain ⟨extra, hextra, he⟩ := launchVolumes_shares h
  simp only [he, List.mem_append] at hs
  rcases hs with ((((hs | hs) | hs) | hs) | hs) | hs
  · simp only [Placement.outer, List.mem_cons, List.not_mem_nil, or_false] at hs
    rcases hs with rfl | rfl | rfl
    · exact .store
    · exact .socket
    · exact .home
  · unfold Placement.sources at hs
    split at hs
    · rename_i hr
      obtain ⟨root, hr⟩ := Option.isSome_iff_exists.mp hr
      rw [List.mem_singleton.mp hs, hr]
      exact .src root hr
    · cases hs
  · obtain ⟨i, path, hp, rfl⟩ := mem_layerShares hs
    exact .layer i path hp
  · unfold Placement.projects at hs
    split at hs
    · rename_i hn
      rw [List.mem_singleton.mp hs]
      exact .project hn
    · cases hs
  · unfold deviceShares at hs
    rcases List.mem_append.mp hs with hs | hs
    · split at hs
      · rename_i hg
        rw [List.mem_singleton.mp hs]
        exact .driver hg
      · cases hs
    · split at hs
      · rename_i hu
        exact .usb share hu hs
      · cases hs
  · exact mem_shares_extra hextra hc hs

end Sharing

/-- With a home of its own the guest gets no source root. -/
theorem Placed.sandboxHome {cli : Args} {host : Host} {username : Bytes} {p : Placement}
    (h : Placed cli host username p) (hs : cli.sandboxHome.isSome = true) : p.srcRoot = none := by
  obtain ⟨dir, hd⟩ := Option.isSome_iff_exists.mp hs
  have hr := h.source
  rw [hd] at hr
  exact (Except.ok.inj hr).symm

/-- The guest sees nothing of the host but what the launcher shares and the user asks for. -/
theorem guest_confined {cli : Args} {host : Host} {exec : Exec} (h : main cli host = .ok exec)
    (hc : ∀ dir, host.currentDir = .ok dir → colon ∉ dir) :
    ∃ plan socket volumes init, Launched cli host exec plan socket volumes init ∧
      (∀ share ∈ shares volumes, Granted cli host plan socket share) ∧
      (∀ path seen, viewOf (mountsOf volumes) path = some seen →
        ∃ share rest, Granted cli host plan socket share ∧
          components path = components share.guest ++ rest ∧
          seen = components share.host ++ rest) ∧
      (cli.sandboxHome.isSome = true → plan.placement.srcRoot = none) := by
  obtain ⟨plan, socket, volumes, init, hl⟩ := main_ok h
  have hg : ∀ share ∈ shares volumes, Granted cli host plan socket share := fun share hs =>
    mem_shares hl.mounted hc hs
  refine ⟨plan, socket, volumes, init, hl, hg, fun path seen hv => ?_,
    hl.planned.placed.sandboxHome⟩
  rw [viewOf, mountsOf_eq, List.map_map] at hv
  obtain ⟨m, hm, rest, hp, hs⟩ := view_eq_some hv
  obtain ⟨share, hshare, rfl⟩ := List.mem_map.mp hm
  exact ⟨share, rest, hg share hshare, hp, hs⟩

theorem guest_confined_sample :
    ∃ plan socket volumes init,
      Launched launchArgs launchHost launchExec plan socket volumes init ∧
      (∀ share ∈ shares volumes, Granted launchArgs launchHost plan socket share) ∧
      (∀ path seen, viewOf (mountsOf volumes) path = some seen →
        ∃ share rest, Granted launchArgs launchHost plan socket share ∧
          components path = components share.guest ++ rest ∧
          seen = components share.host ++ rest) ∧
      (launchArgs.sandboxHome.isSome = true → plan.placement.srcRoot = none) :=
  guest_confined main_launchHost fun dir h => by
    obtain rfl := Except.ok.inj (show (Except.ok (utf8 "/home/u/src/p") : Except Error Bytes) = _
      from h)
    decide

/-! ### The project -/

section Project

variable {cli : Args} {host : Host} {username : Bytes} {p : Placement}

theorem Placed.absolute (h : Placed cli host username p) : isAbsolute p.projectDir = true :=
  host.currentDir_absolute _ h.current

theorem sharedSrcRoot_components {hostHome sandboxHome : Option Bytes} {root : Bytes}
    (h : sharedSrcRoot hostHome sandboxHome = .ok (some root)) : components root ≠ [] := by
  unfold sharedSrcRoot at h
  cases sandboxHome with
  | some dir => cases h
  | none =>
    cases hr : srcRoot hostHome with
    | error e => simp [hr, Except.map] at h
    | ok r =>
      simp only [hr, Except.map, Except.ok.injEq, Option.some.injEq] at h
      exact h ▸ srcRoot_components hr

/-- The project stands below the mount that provides it. -/
theorem Placed.provided (h : Placed cli host username p) :
    Marked p.provider ∧ ((p.needProjectShare = true ∧ p.provider = p.guestPath) ∨
      ∃ root rest, p.needProjectShare = false ∧ p.srcRoot = some root ∧ p.provider = p.guestSrc ∧
        components p.guestPath = components p.guestSrc ++ rest ∧
        components p.projectDir = components root ++ rest) := by
  have hpath := h.path
  obtain ⟨root, rel, hr, hs, hn, hg⟩ | ⟨-, hn, -⟩ := guestProjectPath_ok hpath
  · have hpr : p.provider = p.guestSrc := by simp [Placement.provider, hn]
    obtain ⟨rest, hproj, hcomp⟩ := source_path username h.absolute
      (sharedSrcRoot_components (hr ▸ h.source)) hs
    refine ⟨?_, .inr ⟨root, rest, hn, hr, hpr, ?_, hproj⟩⟩
    · rw [hpr, Placement.guestSrc, h.home]
      exact marked_mono (guestSrc_below username) (marked_home username)
    · rw [hg, hcomp, Placement.guestSrc, h.home]
  · have hpr : p.provider = p.guestPath := by simp [Placement.provider, hn]
    rw [hn] at hpath
    exact ⟨hpr ▸ marked_shared hpath, .inl ⟨hn, hpr⟩⟩

/-- The launcher's own mounts do not lie as far in as the one that provides the project. -/
theorem unmarked_own (cli : Args) (layers : List Bytes) :
    ∀ share ∈ layerShares layers ++ deviceShares cli, ¬ Marked share.guest := by
  intro share hs
  rcases List.mem_append.mp hs with hs | hs
  · obtain ⟨i, path, -, rfl⟩ := mem_layerShares hs
    exact not_marked_childLayer i
  · have hd : ∀ gpu usb : Bool, ∀ share ∈
        (if gpu then [Share.mk openglDriverDir openglDriverDir true] else []) ++
          (if usb then usbShares else []), ¬ Marked share.guest := by decide +kernel
    exact hd cli.gpu cli.usb share hs

/-- A mount on the way to the project that does not hide it lies further out than its provider. -/
theorem Placement.further_out {target : Bytes}
    (hp : components p.provider <+: components p.guestPath)
    (ht : components target <+: components p.guestPath) (hn : ¬ p.Hidden target) :
    (components target).length < (components p.provider).length := by
  by_contra hl
  exact hn ⟨List.prefix_of_prefix_length_le hp ht (by omega), ht⟩

theorem Placement.not_hidden {target : Bytes} (hm : Marked p.provider) (ht : ¬ Marked target) :
    ¬ p.Hidden target := fun h => ht (marked_mono h.1 hm)

theorem view_share {before behind : List Share} {s : Share} {path rest : List Component}
    (hp : components s.guest ++ rest = path)
    (hb : ∀ b ∈ before, components b.guest <+: path →
      (components b.guest).length ≤ (components s.guest).length)
    (ha : ∀ b ∈ behind, components b.guest <+: path →
      (components b.guest).length < (components s.guest).length) :
    view ((before ++ s :: behind).map fun share => mountAt share.mount) path =
      some (components s.host ++ rest) := by
  rw [List.map_append, List.map_cons]
  refine view_between _ (mountAt s.mount) _ hp ?_ ?_
  · intro b hm hpre
    obtain ⟨share, hs, rfl⟩ := List.mem_map.mp hm
    exact hb share hs hpre
  · intro b hm hpre
    obtain ⟨share, hs, rfl⟩ := List.mem_map.mp hm
    exact ha share hs hpre

theorem Placed.mounted (h : Placed cli host username p) {layers extra : List Bytes} (socket : Bytes)
    (hx : ∀ share ∈ shares extra, ¬ p.Hidden share.guest) :
    view ((p.outer socket ++ p.sources ++ layerShares layers ++ p.projects ++ deviceShares cli ++
      shares extra).map fun share => mountAt share.mount) (components p.guestPath) =
        some (components p.projectDir) := by
  obtain ⟨hmark, hcases⟩ := h.provided
  -- Whatever comes behind the provider.
  have hbehind : ∀ share, share ∈ layerShares layers ++ deviceShares cli ∨ share ∈ shares extra →
      ¬ p.Hidden share.guest := by
    rintro share (hs | hs)
    · exact Placement.not_hidden hmark (unmarked_own cli layers share hs)
    · exact hx share hs
  rcases hcases with ⟨hn, hpr⟩ | ⟨root, rest, hn, hr, hpr, hg, hproj⟩
  · have hprojects : p.projects = [⟨p.projectDir, p.guestPath, false⟩] := if_pos hn
    rw [hprojects, List.append_assoc _ (deviceShares cli), List.append_assoc _ [_],
      List.singleton_append, ← List.append_nil (components p.projectDir)]
    refine view_share (List.append_nil _) (fun b _ hb => hb.length_le) fun b hb hpre => ?_
    have hlt := p.further_out (by rw [hpr]) hpre (hbehind b (by simp at hb ⊢; tauto))
    rwa [hpr] at hlt
  · have hsources : p.sources = [⟨root, p.guestSrc, false⟩] := by simp [Placement.sources, hr]
    have hprojects : p.projects = [] := by simp [Placement.projects, hn]
    have hbelow : components p.provider <+: components p.guestPath := by
      rw [hpr, hg]
      exact List.prefix_append _ _
    rw [hsources, hprojects, hproj, List.append_nil, List.append_assoc _ _ (deviceShares cli),
      List.append_assoc _ _ (shares extra), List.append_assoc _ [_], List.singleton_append]
    refine view_share hg.symm (fun b hb hpre => ?_) fun b hb hpre => ?_
    · simp only [Placement.outer, List.mem_cons, List.not_mem_nil, or_false] at hb
      rw [← hpr]
      rcases hb with rfl | rfl | rfl
      · exact (p.further_out hbelow hpre (Placement.not_hidden hmark
          (show ¬ Marked hostStore by decide +kernel))).le
      · exact (p.further_out hbelow hpre (Placement.not_hidden hmark
          (show ¬ Marked guestSocket by decide +kernel))).le
      · rw [hpr, Placement.guestSrc, h.home]
        exact (guestSrc_below username).length_le
    · have hlt := p.further_out hbelow hpre (hbehind b (by simp at hb ⊢; tauto))
      rwa [hpr] at hlt

end Project

/-- The guest starts in the project directory, unless a volume of the user's hides it. -/
theorem project_mounted {cli : Args} {host : Host} {exec : Exec} (h : main cli host = .ok exec) :
    ∃ plan socket volumes init, Launched cli host exec plan socket volumes init ∧
      host.currentDir = .ok plan.placement.projectDir ∧
      ∃ extra, cli.extraVolumes.mapM (extraVolumeSpec host.currentDir) = .ok extra ∧
        ((∀ share ∈ shares extra, ¬ plan.placement.Hidden share.guest) →
          viewOf (mountsOf volumes) plan.launch.guestPath =
            some (components plan.placement.projectDir)) := by
  obtain ⟨plan, socket, volumes, init, hl⟩ := main_ok h
  obtain ⟨extra, hextra, hshares⟩ := launchVolumes_shares hl.mounted
  have hplaced := hl.planned.placed
  refine ⟨plan, socket, volumes, init, hl, hplaced.current, extra, hextra, fun hx => ?_⟩
  rw [hl.planned.guestPath, viewOf, mountsOf_eq, List.map_map, hshares]
  exact hplaced.mounted socket hx

theorem project_mounted_sample :
    ∃ plan socket volumes init,
      Launched launchArgs launchHost launchExec plan socket volumes init ∧
      launchHost.currentDir = .ok plan.placement.projectDir ∧
      ∃ extra, launchArgs.extraVolumes.mapM (extraVolumeSpec launchHost.currentDir) = .ok extra ∧
        ((∀ share ∈ shares extra, ¬ plan.placement.Hidden share.guest) →
          viewOf (mountsOf volumes) plan.launch.guestPath =
            some (components plan.placement.projectDir)) :=
  project_mounted main_launchHost

end Claudepod
