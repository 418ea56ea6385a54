import Claudepod.Delivery

/-! Devices of the host in a guest: the links of the entry point lead through the volume of the
launcher to the host's nodes. -/

set_option autoImplicit false

namespace Claudepod
open Interaction CommandLine MountTable

def devDir : Bytes := utf8 "/dev"

/-- Where a link of the entry point leads. -/
def linkTarget (link : Bytes × Bytes) : Bytes := push devDir link.1

/-- A mount that lies over the host's device behind a link. -/
def OverDevice (link : Bytes × Bytes) (target : Bytes) : Prop :=
  components hostDevDir <+: components target ∧ components target <+: components (linkTarget link)

/-- The classes as the beginnings of names. -/
theorem usbDeviceClasses_apart :
    (∀ cls ∈ usbDeviceClasses, slash ∉ cls ∧ 2 ≤ cls.length ∧ ∀ name ∈ marks, ¬ cls <+: name) ∧
      ∀ cls ∈ usbDeviceClasses, ∀ cls' ∈ usbDeviceClasses,
        cls.head? = cls'.head? → cls = cls' := by
  decide +kernel

/-- Where the launcher mounts what is the same for every user. -/
def fixedTargets : List Bytes :=
  [hostStore, guestSocket, storeLayerMountDir, openglDriverDir, usbfsDir]

theorem hostDevDir_apart :
    (components hostDevDir).length = 3 ∧ (∀ name ∈ marks, .normal name ∉ components hostDevDir) ∧
      ∀ target ∈ fixedTargets, ¬ (components target).take 3 <+: components hostDevDir := by
  decide +kernel

section Links

variable {cls : Bytes} {link : Bytes × Bytes} (n : Nat)

theorem class_name (h : cls ∈ usbDeviceClasses) : Name (cls ++ decimal n) := by
  obtain ⟨hs, hl, -⟩ := usbDeviceClasses_apart.1 cls h
  refine ⟨fun hk => ?_, fun hm => ?_⟩
  · have hlen : (cls ++ decimal n).length ≤ 1 := by
      rcases hk with hk | hk <;> rw [hk] <;> decide
    rw [List.length_append] at hlen
    omega
  · rcases List.mem_append.mp hm with hm | hm
    · exact hs hm
    · exact absurd (mem_decimal hm) (by decide)

/-- A link leads to the node's own name in the host's directory. -/
theorem link_path (h : cls ∈ usbDeviceClasses) :
    components (linkTarget (deviceLink devDir cls n)) =
        components hostDevDir ++ [Component.ofSegment (cls ++ decimal n)] ∧
      components (deviceLink devDir cls n).2 =
        components devDir ++ [Component.ofSegment (cls ++ decimal n)] := by
  have hn := class_name n h
  have hr := hn.relative
  obtain ⟨-, hf⟩ := front_name hn []
  rw [List.append_nil] at hf
  have hhost : segments (push hostDevSubdir (cls ++ decimal n)) =
      [utf8 "host", cls ++ decimal n] := by
    rw [segments_push hr, segments_name hn]
    rfl
  have hp : push hostDevSubdir (cls ++ decimal n) = utf8 "host" ++ slash :: (cls ++ decimal n) :=
    push_name hr (by decide) (by decide)
  constructor
  · rw [linkTarget, deviceLink, components_push (by rw [hp]; rfl) (by rw [hp]; rfl), hhost]
    rfl
  · rw [deviceLink, components_push hr hf, segments_name hn]
    rfl

theorem link_free (h : cls ∈ usbDeviceClasses) :
    ¬ Marked (linkTarget (deviceLink devDir cls n)) ∧
      ∀ target ∈ fixedTargets,
        ¬ components target <+: components (linkTarget (deviceLink devDir cls n)) := by
  obtain ⟨hpath, -⟩ := link_path n h
  obtain ⟨hlen, hhost, hfar⟩ := hostDevDir_apart
  constructor
  · intro ⟨name, hm, hc⟩
    rw [hpath] at hc
    rcases List.mem_append.mp hc with hc | hc
    · exact hhost name hm hc
    · have he := List.mem_singleton.mp hc
      unfold Component.ofSegment at he
      split at he
      · cases he
      · rw [Component.normal.inj he] at hm
        exact (usbDeviceClasses_apart.1 cls h).2.2 _ hm (List.prefix_append _ _)
  · intro target ht hpre
    refine hfar target ht ?_
    have h3 := hpre.take 3
    rw [hpath, List.take_left' hlen] at h3
    exact h3

/-- No link is made twice. -/
theorem deviceLink_injective {cls' : Bytes} {n' : Nat} (h : cls ∈ usbDeviceClasses)
    (h' : cls' ∈ usbDeviceClasses)
    (he : (deviceLink devDir cls n).2 = (deviceLink devDir cls' n').2) : cls = cls' ∧ n = n' := by
  have hne : ∀ cls ∈ usbDeviceClasses, cls ≠ [] := fun cls h he => by
    have hl := (usbDeviceClasses_apart.1 cls h).2.1
    rw [he] at hl
    cases hl
  have hc := congrArg components he
  rw [(link_path n h).2, (link_path n' h').2] at hc
  have hs := ofSegment_injective (List.singleton_inj.mp (List.append_cancel_left hc))
  have hcls : cls = cls' := by
    refine usbDeviceClasses_apart.2 cls h cls' h' ?_
    have hh := congrArg List.head? hs
    rwa [List.head?_append_of_ne_nil _ (hne cls h), List.head?_append_of_ne_nil _ (hne cls' h')]
      at hh
  subst hcls
  exact ⟨rfl, decimal_injective (List.append_cancel_left hs)⟩

end Links

section View

variable {cli : Args} {host : Host} {username : Bytes} {p : Placement} {cls : Bytes} {n : Nat}

theorem layer_below (i : Nat) : components storeLayerMountDir <+: components (childLayer i) := by
  rw [childLayer_eq, @components_absolute (storeLayerMountDir ++ _) rfl, segments_append,
    List.map_append, @components_absolute storeLayerMountDir rfl]
  exact ⟨_, rfl⟩

/-- No other mount of the launcher's lies on the way to a device of the host. -/
theorem Placed.off_devices (h : Placed cli host username p) (socket : Bytes) {layers : List Bytes}
    (hc : cls ∈ usbDeviceClasses) :
    ∀ share ∈ p.outer socket ++ p.sources ++ layerShares layers ++ p.projects ++
        [⟨openglDriverDir, openglDriverDir, true⟩, ⟨usbfsDir, usbfsDir, false⟩],
      ¬ components share.guest <+: components (linkTarget (deviceLink devDir cls n)) := by
  obtain ⟨hmark, hfixed⟩ := link_free n hc
  have hmarked : ∀ target, Marked target →
      ¬ components target <+: components (linkTarget (deviceLink devDir cls n)) :=
    fun target hm hpre => hmark (marked_mono hpre hm)
  intro share hs
  simp only [List.mem_append] at hs
  rcases hs with (((hs | hs) | hs) | hs) | hs
  · simp only [Placement.outer, List.mem_cons, List.not_mem_nil, or_false] at hs
    rcases hs with rfl | rfl | rfl
    · exact hfixed hostStore (by simp [fixedTargets])
    · exact hfixed guestSocket (by simp [fixedTargets])
    · exact hmarked p.home (h.home ▸ marked_home username)
  · unfold Placement.sources at hs
    split at hs
    · rw [List.mem_singleton.mp hs]
      refine hmarked p.guestSrc ?_
      rw [Placement.guestSrc, h.home]
      exact marked_mono (guestSrc_below username) (marked_home username)
    · cases hs
  · obtain ⟨i, path, -, rfl⟩ := mem_layerShares hs
    exact fun hpre =>
      hfixed storeLayerMountDir (by simp [fixedTargets]) ((layer_below i).trans hpre)
  · unfold Placement.projects at hs
    split at hs
    · rename_i hn
      rw [List.mem_singleton.mp hs]
      obtain ⟨hm, ⟨-, hpr⟩ | ⟨_, _, hf, -⟩⟩ := h.provided
      · exact hmarked p.guestPath (hpr ▸ hm)
      · simp [hn] at hf
    · cases hs
  · simp only [List.mem_cons, List.not_mem_nil, or_false] at hs
    rcases hs with rfl | rfl
    · exact hfixed openglDriverDir (by simp [fixedTargets])
    · exact hfixed usbfsDir (by simp [fixedTargets])

theorem Placed.view_device (h : Placed cli host username p) (hu : cli.usb = true) (socket : Bytes)
    {layers extra : List Bytes} (hc : cls ∈ usbDeviceClasses)
    (hx : ∀ share ∈ shares extra, ¬ OverDevice (deviceLink devDir cls n) share.guest) :
    view ((p.outer socket ++ p.sources ++ layerShares layers ++ p.projects ++ deviceShares cli ++
      shares extra).map fun share => mountAt share.mount)
        (components (linkTarget (deviceLink devDir cls n))) =
      some (components (deviceLink devDir cls n).2) := by
  obtain ⟨hpath, hname⟩ := link_path n hc
  have hdev : deviceShares cli =
      ((if cli.gpu then [⟨openglDriverDir, openglDriverDir, true⟩] else []) ++
        [⟨usbfsDir, usbfsDir, false⟩]) ++ [⟨devDir, hostDevDir, false⟩] := by
    rw [deviceShares, if_pos hu, List.append_assoc]
    rfl
  rw [hdev, ← List.append_assoc _ _ [_], List.append_assoc _ [_] (shares extra),
    List.singleton_append, hname]
  refine view_share hpath.symm (fun b hb hpre => ?_) fun b hb hpre => ?_
  · refine absurd hpre (@Placed.off_devices _ _ _ _ _ n h socket layers hc b ?_)
    simp only [List.mem_append] at hb ⊢
    rcases hb with hb | hb | hb
    · exact .inl hb
    · split at hb
      · exact .inr (List.mem_singleton.mp hb ▸ List.mem_cons_self)
      · cases hb
    · exact .inr (List.mem_cons_of_mem _ hb)
  · by_contra hl
    exact hx b hb ⟨List.prefix_of_prefix_length_le (hpath ▸ List.prefix_append _ _) hpre
      (Nat.le_of_not_lt hl), hpre⟩

end View

theorem lastSetting_usb {l : Launch} (own : Env) (h : l.usb = true) :
    lastSetting own l.controlArgs usbEnv = some (utf8 "1") :=
  @lastSetting_of_mem own _ (utf8 "CLAUDEPOD_USB=1") _ _ (l.controlArgs_nodup own)
    (by simp [Launch.controlArgs, h]) (@setting_envArg own usbEnv (by decide) (utf8 "1"))

theorem mem_usbDeviceLinks {link : Bytes × Bytes} : link ∈ usbDeviceLinks devDir ↔
    ∃ cls ∈ usbDeviceClasses, ∃ n < usbDeviceLinksPerClass, deviceLink devDir cls n = link := by
  simp [usbDeviceLinks]

theorem usbDeviceLinks_names : ((usbDeviceLinks devDir).map Prod.snd).Nodup := by
  rw [usbDeviceLinks, List.map_flatMap, List.nodup_flatMap]
  constructor
  · intro cls hc
    rw [List.map_map]
    exact List.nodup_range.map_on fun n _ n' _ he => (deviceLink_injective n hc hc he).2
  · have hn : usbDeviceClasses.Nodup := by decide +kernel
    refine hn.imp_of_mem fun hc hc' hne name hm hm' => ?_
    simp only [List.mem_map] at hm hm'
    obtain ⟨_, ⟨n, -, rfl⟩, rfl⟩ := hm
    obtain ⟨_, ⟨n', -, rfl⟩, he⟩ := hm'
    exact hne (deviceLink_injective n hc hc' he.symm).1

/-- With `--usb`, the entry point makes one link for each of the host's devices of a class, and the
guest finds the device where it is on the host. -/
theorem usb_reaches_host {podman : Reader podmanFlags} {site : Site} {cli : Args} {host : Host}
    {g : Guest} (h : boot podman site cli host = .ok g) (hu : cli.usb = true) :
    ∃ exec plan socket volumes init extra, Launched cli host exec plan socket volumes init ∧
      cli.extraVolumes.mapM (extraVolumeSpec host.currentDir) = .ok extra ∧
      (∀ link, link ∈ g.deviceLinks ↔ ∃ cls ∈ usbDeviceClasses, ∃ n < usbDeviceLinksPerClass,
        deviceLink devDir cls n = link) ∧
      (g.deviceLinks.map Prod.snd).Nodup ∧
      ∀ cls ∈ usbDeviceClasses, ∀ n < usbDeviceLinksPerClass,
        ∃ link ∈ g.deviceLinks, link.2 = push devDir (cls ++ decimal n) ∧
          (∀ other ∈ g.deviceLinks, other.2 = link.2 → other = link) ∧
          ((∀ share ∈ shares extra, ¬ OverDevice link share.guest) →
            viewOf (mountsOf volumes) (linkTarget link) = some (components link.2)) := by
  obtain ⟨exec, plan, socket, volumes, init, hl, he⟩ := boot_ok h
  obtain ⟨extra, hextra, hshares⟩ := launchVolumes_shares hl.mounted
  have hplan := hl.planned
  have husb : plan.launch.usb = true := by rw [hplan.options.2.2.2, hu]
  have henv := hplan.containerEnv_control site.base
    (show usbEnv ∈ controlVars by simp [controlVars]) (lastSetting_usb host.vars husb)
  have hlinks : g.deviceLinks = usbDeviceLinks devDir := by
    rw [he.deviceLinks, isSet, henv]
    rfl
  refine ⟨exec, plan, socket, volumes, init, extra, hl, hextra,
    fun link => hlinks ▸ mem_usbDeviceLinks, hlinks ▸ usbDeviceLinks_names, fun cls hc n hn =>
    ⟨deviceLink devDir cls n, ?_, rfl, fun other ho hname => ?_, fun hx => ?_⟩⟩
  · rw [hlinks]
    exact mem_usbDeviceLinks.mpr ⟨cls, hc, n, hn, rfl⟩
  · rw [hlinks] at ho
    obtain ⟨cls', hc', n', -, rfl⟩ := mem_usbDeviceLinks.mp ho
    obtain ⟨rfl, rfl⟩ := deviceLink_injective n' hc' hc hname
    rfl
  · rw [viewOf, mountsOf_eq, List.map_map, hshares]
    exact hplan.placed.view_device hu socket hc hx

/-- `claudepod --usb -- ls`. -/
def usbArgs : Args :=
  ⟨false, false, [], [], [], [], none, false, true, false, [utf8 "ls"]⟩

theorem usb_reaches_host_sample :
    ∃ g, boot (Table.reader podmanFlags_sound) bootSite usbArgs launchHost = .ok g ∧
      ∃ exec plan socket volumes init extra,
        Launched usbArgs launchHost exec plan socket volumes init ∧
        usbArgs.extraVolumes.mapM (extraVolumeSpec launchHost.currentDir) = .ok extra ∧
        (∀ link, link ∈ g.deviceLinks ↔ ∃ cls ∈ usbDeviceClasses, ∃ n < usbDeviceLinksPerClass,
          deviceLink devDir cls n = link) ∧
        (g.deviceLinks.map Prod.snd).Nodup ∧
        ∀ cls ∈ usbDeviceClasses, ∀ n < usbDeviceLinksPerClass,
          ∃ link ∈ g.deviceLinks, link.2 = push devDir (cls ++ decimal n) ∧
            (∀ other ∈ g.deviceLinks, other.2 = link.2 → other = link) ∧
            ((∀ share ∈ shares extra, ¬ OverDevice link share.guest) →
              viewOf (mountsOf volumes) (linkTarget link) = some (components link.2)) := by
  have hok : (boot (Table.reader podmanFlags_sound) bootSite usbArgs launchHost).isOk = true := by
    decide +kernel
  cases h : boot (Table.reader podmanFlags_sound) bootSite usbArgs launchHost with
  | ok g => exact ⟨g, rfl, usb_reaches_host h rfl⟩
  | error e =>
    rw [h] at hok
    cases hok

end Claudepod
