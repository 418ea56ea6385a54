import Claudepod.Delivery

/-! Launches inside a guest, to any depth: what each guest has from the outermost launch. -/

set_option autoImplicit false

namespace Claudepod
open Interaction CommandLine

/-! ### The timezone -/

theorem dropWhile_trimmed (names : List Bytes) :
    let trimmed := (names.dropWhile fun name => Skipped name).rdropWhile fun name => Skipped name
    trimmed.dropWhile (fun name => Skipped name) = trimmed := by
  intro trimmed
  cases ht : trimmed with
  | nil => rfl
  | cons name rest =>
    obtain ⟨more, hm⟩ := List.rdropWhile_prefix (fun name => decide (Skipped name))
      (l := names.dropWhile fun name => Skipped name)
    have hh := List.head?_dropWhile_not (fun name => decide (Skipped name)) names
    rw [← hm, show (names.dropWhile fun name => Skipped name).rdropWhile _ = name :: rest from ht]
      at hh
    rw [List.dropWhile_cons_of_neg (by simpa using hh)]

/-- A trimmed path cannot be trimmed again. -/
theorem asPath_splitOn {names : List Bytes} (h : ∀ name ∈ names, slash ∉ name)
    (hne : asPath names ≠ []) : asPath ((asPath names).splitOn slash) = asPath names := by
  have hsub : ∀ n ∈ (names.dropWhile fun name => Skipped name).rdropWhile
      (fun name => Skipped name), slash ∉ n := fun n hn =>
    h n ((List.dropWhile_sublist _).subset ((List.rdropWhile_prefix _ _).subset hn))
  have hsplit : (asPath names).splitOn slash = (names.dropWhile fun name => Skipped name).rdropWhile
      fun name => Skipped name := by
    refine List.splitOn_intercalate _ hsub fun he => hne ?_
    rw [asPath, he]
    rfl
  rw [hsplit]
  unfold asPath
  rw [dropWhile_trimmed, List.rdropWhile_idempotent]

/-- What stands below a directory is found again below it. -/
theorem zoneinfo_found {target timezone : Bytes}
    (h : stripPrefix target hostZoneinfo = some timezone) (hne : timezone ≠ []) :
    stripPrefix (push hostZoneinfo timezone) hostZoneinfo = some timezone := by
  unfold stripPrefix at h
  split at h
  · obtain rfl := Option.some.inj h
    have hw : ∀ name ∈ dropNames (target.splitOn slash) (segments hostZoneinfo).length,
        slash ∉ name := fun name hn => Fields.sep_notMem_field (dropNames_subset _ _ hn)
    obtain ⟨ha, hf⟩ := front_asPath hw
    have hs : startsWith (push hostZoneinfo
        (asPath (dropNames (target.splitOn slash) (segments hostZoneinfo).length)))
        hostZoneinfo = true := by
      rw [startsWith_iff, components_push ha hf]
      exact List.prefix_append _ _
    have hdrop : ∀ names, dropNames (hostZoneinfo.splitOn slash ++ names)
        (segments hostZoneinfo).length = names := by
      intro names
      rw [show hostZoneinfo.splitOn slash = [[], utf8 "etc", utf8 "zoneinfo"] by decide +kernel,
        show (segments hostZoneinfo).length = 2 by decide +kernel]
      show dropNames ([] :: utf8 "etc" :: utf8 "zoneinfo" :: names) 2 = names
      rw [dropNames, if_pos (by decide), dropNames, if_neg (by decide), dropNames,
        if_neg (by decide), dropNames]
    rw [stripPrefix, if_pos hs, push_name ha (by decide) (by decide), List.splitOn_append_cons_self,
      hdrop, asPath_splitOn hw hne]
  · cases h

theorem hostTimezone_found {host inner : Host} {timezone : Bytes}
    (h : hostTimezone host = some timezone)
    (hl : inner.readLink hostLocaltime = some (push hostZoneinfo timezone)) :
    timezone ≠ [] ∧ hostTimezone inner = some timezone := by
  obtain ⟨hb, hne⟩ := Option.filter_eq_some_iff.mp h
  obtain ⟨target, -, hs⟩ := Option.bind_eq_some_iff.mp hb
  have hne : timezone ≠ [] := by simpa using hne
  refine ⟨hne, ?_⟩
  rw [hostTimezone, hl, Option.bind_some, zoneinfo_found hs hne, Option.filter_some_pos (by simpa)]

/-! ### Guests inside guests -/

/-- A host that is a guest: the launcher finds there what the entry point has left, and the guest
does not set the variable that would go before the file. -/
structure Within (g : Guest) (host : Host) : Prop where
  toplevelFile : host.toplevelFile = .ok g.toplevel
  storeLayersFile : host.storeLayersFile = .ok (some g.storeLayers)
  toplevel : host.vars toplevelEnv = none
  localtime : ∀ target ∈ g.localtime, host.readLink hostLocaltime = some target

/-- The guests at each depth below a launch; the inner launches have options of their own. -/
inductive GuestAt (podman : Reader podmanFlags) (cli : Args) (host : Host) :
    Nat → Guest → Prop where
  | outer (site : Site) (g : Guest) : boot podman site cli host = .ok g →
    GuestAt podman cli host 1 g
  | inner (n : Nat) (site : Site) (cli' : Args) (host' : Host) (g g' : Guest) :
    GuestAt podman cli host n g → Within g host' → boot podman site cli' host' = .ok g' →
    GuestAt podman cli host (n + 1) g'

/-- What one launch hands on. -/
structure Handed (host : Host) (g : Guest) : Prop where
  system : ∃ system, toplevel (host.vars toplevelEnv) host.toplevelFile = .ok system ∧
    g.toplevel = toplevelText system ∧ g.init = system ++ utf8 "/init"
  layers : ∃ file, host.storeLayersFile = .ok file ∧ ∀ level : Level, level.file = file →
    ∃ mounts, level.launch = .ok ⟨some g.storeLayers, g.overlay, mounts⟩
  localtime : ∀ timezone, hostTimezone host = some timezone →
    g.localtime = some (push hostZoneinfo timezone)

theorem launchVolumes_layers {cli : Args} {host : Host} {socket : Bytes} {p : Placement}
    {layers volumes : List Bytes} (h : launchVolumes cli host socket p layers = .ok volumes) :
    ∃ out, layerVolumes layers = .ok out := by
  unfold launchVolumes at h
  obtain ⟨_, -, h⟩ := bind_eq_ok h
  obtain ⟨_, -, h⟩ := bind_eq_ok h
  obtain ⟨_, -, h⟩ := bind_eq_ok h
  obtain ⟨_, -, h⟩ := bind_eq_ok h
  obtain ⟨out, hout, -⟩ := bind_eq_ok h
  exact ⟨out, hout⟩

theorem boot_handed {podman : Reader podmanFlags} {site : Site} {cli : Args} {host : Host}
    {g : Guest} (h : boot podman site cli host = .ok g) : Handed host g := by
  obtain ⟨exec, plan, socket, volumes, init, hl, he⟩ := boot_ok h
  obtain ⟨hsystem, -, -, -, hlayers⟩ := plan.launch.lastSetting_control host.vars
  have hp := hl.planned
  refine ⟨?_, ?_, fun timezone ht => ?_⟩
  · obtain ⟨system, hs, htext, hinit⟩ := he.system
    obtain rfl : plan.launch.toplevel = system := Option.some.inj
      ((hp.containerEnv_control site.base (by simp [controlVars]) hsystem).symm.trans hs)
    exact ⟨_, hp.system, htext, hinit⟩
  · obtain ⟨file, hfile, hparent⟩ := hp.layers
    obtain ⟨layers, hs, htext⟩ := he.store
    rw [hp.containerEnv_control site.base (by simp [controlVars]) hlayers] at hs
    obtain ⟨out, hout⟩ := launchVolumes_layers hl.mounted
    refine ⟨file, hfile, fun level hlevel => ⟨mountsOf out :: level.mounts, ?_⟩⟩
    rw [Level.launch, hlevel, hparent]
    show (layerVolumes plan.launch.parentLayers >>= fun volumes => _) = _
    rw [hout]
    show (setupStoreOverlay _ >>= fun x => _) = _
    rw [hs, htext]
    rfl
  · have ht' : plan.launch.timezone = some timezone := by rw [hp.timezone, ht]
    have henv := hp.containerEnv_control site.base
      (show timezoneEnv ∈ controlVars by simp [controlVars])
      (plan.launch.lastSetting_timezone host.vars ht')
    rw [he.localtime, henv, Option.filter_some_pos]
    · rfl
    · exact (Option.filter_eq_some_iff.mp ht).2

theorem toplevel_ne_nil {env : Option Bytes} {file : Except Error Bytes} {system : Bytes}
    (h : toplevel env file = .ok system) : system ≠ [] := by
  unfold toplevel at h
  split at h
  · rename_i he
    rw [← Except.ok.inj h]
    simpa using (Option.filter_eq_some_iff.mp he).2
  · obtain ⟨raw, -, h⟩ := bind_eq_ok h
    dsimp only at h
    split at h
    · cases h
    · rename_i hne
      rw [← Except.ok.inj h]
      exact hne

/-- A guest at depth `n` below a host. -/
structure Descends (host : Host) (n : Nat) (g : Guest) : Prop where
  /-- It runs the system that the outermost launcher has chosen. -/
  system : ∃ system, toplevel (host.vars toplevelEnv) host.toplevelFile = .ok system ∧
    g.toplevel = toplevelText system ∧ g.init = system ++ utf8 "/init"
  /-- Its store is that of `n` launches without any options. -/
  store : ∃ mounts, nested n = .ok ⟨some g.storeLayers, g.overlay, mounts⟩
  /-- It has the timezone of the host. -/
  localtime : ∀ timezone, hostTimezone host = some timezone →
    g.localtime = some (push hostZoneinfo timezone)

theorem descends_outer {host : Host} {g : Guest} (h : Handed host g)
    (hf : host.storeLayersFile = .ok none) : Descends host 1 g where
  system := h.system
  store := by
    obtain ⟨file, hfile, hl⟩ := h.layers
    obtain rfl := Except.ok.inj (hf.symm.trans hfile)
    exact hl hostLevel rfl
  localtime := h.localtime

/-- What a guest has it hands on to the guests inside it. -/
theorem descends_inner {host inner : Host} {n : Nat} {g g' : Guest} (hd : Descends host n g)
    (hw : Within g inner) (h : Handed inner g') : Descends host (n + 1) g' where
  system := by
    obtain ⟨system, hs, htext, -⟩ := hd.system
    obtain ⟨system', hs', htext', hinit'⟩ := h.system
    rw [hw.toplevel, hw.toplevelFile, htext, toplevel_text (toplevel_ne_nil hs)] at hs'
    obtain rfl := Except.ok.inj hs'
    exact ⟨system, hs, htext', hinit'⟩
  store := by
    obtain ⟨mounts, hn⟩ := hd.store
    obtain ⟨file, hfile, hl⟩ := h.layers
    obtain rfl := Except.ok.inj (hw.storeLayersFile.symm.trans hfile)
    obtain ⟨mounts', hl⟩ := hl ⟨_, g.overlay, mounts⟩ rfl
    refine ⟨mounts', ?_⟩
    rw [nested, hn]
    exact hl
  localtime := by
    intro timezone ht
    have hg := hd.localtime timezone ht
    exact h.localtime timezone (hostTimezone_found ht (hw.localtime _ hg)).2

/-- However deep claudepods are nested, and whatever options they are given, if no guest sets
`CLAUDEPOD_TOPLEVEL` every one of them runs the system of the outermost launch, has one store layer
for each launch, and the host's timezone. -/
theorem nested_guests {podman : Reader podmanFlags} {cli : Args} {host : Host} {n : Nat} {g : Guest}
    (hf : host.storeLayersFile = .ok none) (h : GuestAt podman cli host n g) :
    Descends host n g := by
  induction h with
  | outer site g hb => exact descends_outer (boot_handed hb) hf
  | inner n site cli' host' g g' _ hw hb ih => exact descends_inner ih hw (boot_handed hb)

/-- A launcher in the guest of the first. -/
def innerHost : Host :=
  { launchHost with
    commandName := utf8 "gptpod"
    vars := fun name => if name = toplevelEnv then none else launchHost.vars name
    readLink := fun _ => bootGuest.localtime
    toplevelFile := .ok bootGuest.toplevel
    storeLayersFile := .ok (some bootGuest.storeLayers)
    spawnNixProxy := fun _ => .ok (utf8 "/run/user/1000/claudepod/nix-proxy-9.sock") }

def innerGuest : Guest where
  files := ⟨utf8 "codex\n", utf8 "/home/u/src/p\n", utf8 "-e" ++ [0], utf8 "X='-v'\n"⟩
  username := utf8 "u\n"
  subuid := "1000:1001:64535\n".toList
  subgid := "1000:1001:64535\n".toList
  storeLayers := utf8 "/nix/.rw-store/store:/nix/.l/0:/nix/.l/1\n"
  toplevel := utf8 "/nix/store/x-system\n"
  verbose := false
  overlay := utf8 ("lowerdir=/nix/.l/0:/nix/.l/1,upperdir=/nix/.rw-store/store," ++
    "workdir=/nix/.rw-store/work,userxattr")
  localtime := some (utf8 "/etc/zoneinfo/Europe/Paris")
  deviceLinks := []
  init := utf8 "/nix/store/x-system/init"
  container := utf8 "podman"

theorem guestAt_two : GuestAt (Table.reader podmanFlags_sound) launchArgs launchHost 2 innerGuest :=
  .inner 1 bootSite launchArgs innerHost bootGuest innerGuest
    (.outer bootSite bootGuest boot_launchHost)
    ⟨rfl, rfl, rfl, fun _ h => h⟩ (by decide +kernel)

theorem nested_guests_two : Descends launchHost 2 innerGuest :=
  nested_guests rfl guestAt_two

end Claudepod
