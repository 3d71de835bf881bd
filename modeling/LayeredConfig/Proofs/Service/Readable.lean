import LayeredConfig.Proofs.Commit.Rereading
import LayeredConfig.Proofs.Commit.Unfailing
import LayeredConfig.Proofs.Service.ClaimedSections

/-!
# What can be read after a commit

A commit writes documents that the printer takes, and the reader asks for more: headers and
containers within its limits, and in the global file a registry of sites that decodes. Every
reading of a section starts with that registry, so a commit that gets it wrong locks everybody
out.
-/

set_option autoImplicit false

namespace LayeredConfig

open Run

namespace Place

def host (root : Names) : Place :=
  ⟨root ++ [Chain.hostFile], .plain, rootText root ++ "/" ++ Chain.hostFile⟩

theorem ofPath?_hostFile (root : Names) : ofPath? root Chain.hostFile = some (host root) := by
  have hrelative : relative Chain.hostFile = Chain.hostFile := by decide +kernel
  have hpieces : FilePath.pieces Chain.hostFile = [Chain.hostFile] := by decide +kernel
  simp only [ofPath?]
  rw [hrelative, hpieces]
  rfl

theorem eq_host_of_prefix {root : Names} {file : String} {p : Place}
    (h : ofPath? root file = some p) (hp : p.ending = .plain)
    (hway : p.names <+: (host root).names) : p.names = (host root).names := by
  obtain ⟨names, hne, heq⟩ := below_of_plain h hp
  rw [heq] at hway ⊢
  have hone := (List.prefix_append_right_inj root).mp hway
  rcases names with _ | ⟨name, names⟩
  · exact absurd rfl hne
  · obtain ⟨rest, hrest⟩ := hone
    obtain ⟨rfl, hnil⟩ := List.cons.inj hrest
    rw [(List.append_eq_nil_iff.mp hnil).1]
    rfl

end Place

namespace Store

def sitesDecode (s : Store) : Bool := (Access.sites none s).1.isOk

theorem sitesDecode_iff (s : Store) (h : s.Unfailing .read) :
    s.sitesDecode = true ↔
      ∃ d, documentIn s.root s.tree Chain.hostFile = .ok d ∧ (Access.sitesOf d).isOk = true := by
  simp only [sitesDecode]
  rw [Access.sites_apply none s h]
  simp only [Access.sitesFrom, Access.look]
  rcases documentIn s.root s.tree Chain.hostFile with e | d
  · constructor
    · intro h
      cases h
    · rintro ⟨_, hd, -⟩
      cases hd
  · constructor
    · intro h
      exact ⟨d, rfl, h⟩
    · rintro ⟨_, hd, h⟩
      exact Except.ok.inj hd ▸ h

end Store

structure StagedSet.LeavesReadable (set : StagedSet) (root : Names) (t : FileTree) : Prop where
  limits : set.WithinLimits root t
  sites : ∀ f ∈ set.entries.map (·.file), ∀ p, Place.ofPath? root f = some p →
    ∀ d, documentAt? t p = some d → p.names = (Place.host root).names →
      (Access.sitesOf (set.overlay f d).settled).isOk = true

namespace Journal.Outcome

variable {set : StagedSet} {s s' : Store}

/-- All files that could be read still can just when the changed ones are within the limits. -/
theorem readable_iff (h : Outcome set s s') (hu : set.Undated s.root s.tree) :
    (∀ p, (documentAt? s.tree p).isSome = true → (documentAt? s'.tree p).isSome = true) ↔
      set.WithinLimits s.root s.tree := by
  constructor
  · intro hreadable f hf p hp d hd
    have hafter := hreadable p (by rw [hd]; rfl)
    obtain ⟨back, hback⟩ := Option.isSome_iff_exists.mp hafter
    exact (((h.written f hf p hp).documentAt?_eq_some_iff hd (hu f hf p hp d hd) back).1 hback).1
  · intro hlimits p hp
    by_cases hnamed : ∃ f ∈ set.entries.map (·.file), ∃ q, Place.ofPath? s.root f = some q ∧
        q.names = p.names
    · obtain ⟨f, hf, q, hq, hnames⟩ := hnamed
      rw [← documentAt?_congr _ q p hnames] at hp ⊢
      obtain ⟨d, hd⟩ := Option.isSome_iff_exists.mp hp
      have hback := ((h.written f hf q hq).documentAt?_eq_some_iff hd (hu f hf q hq d hd) _).2
        ⟨hlimits f hf q hq d hd, rfl⟩
      rw [hback]
      rfl
    · have hsame : s'.tree.get? p.names = s.tree.get? p.names :=
        h.frame p.names fun f hf q hq hnames => hnamed ⟨f, hf, q, hq, hnames⟩
      rwa [documentAt?_eq_ofNode?, hsame, ← documentAt?_eq_ofNode?]

/-- The registered sites can still be read just when the changes leave a global file whose sites
decode. -/
theorem sitesDecode_iff (h : Outcome set s s') (hu : set.Undated s.root s.tree)
    (hr : s.Unfailing .read) (hr' : s'.Unfailing .read) (hsites : s.sitesDecode = true) :
    s'.sitesDecode = true ↔
      ∀ f ∈ set.entries.map (·.file), ∀ p, Place.ofPath? s.root f = some p →
        ∀ d, documentAt? s.tree p = some d → p.names = (Place.host s.root).names →
          (set.overlay f d).WithinLimits ∧
            (Access.sitesOf (set.overlay f d).settled).isOk = true := by
  rw [Store.sitesDecode_iff s' hr', h.root]
  obtain ⟨host, hhost, hdecodes⟩ := (Store.sitesDecode_iff s hr).1 hsites
  have hplace := Place.ofPath?_hostFile s.root
  by_cases hnamed : ∃ f ∈ set.entries.map (·.file), ∃ q, Place.ofPath? s.root f = some q ∧
      q.names = (Place.host s.root).names
  · obtain ⟨f, hf, q, hq, hnames⟩ := hnamed
    have hopens : (Place.host s.root).Opens s.tree := by
      obtain ⟨r, hr, ho⟩ := h.opens f hf
      obtain rfl := Option.some.inj (hq.symm.trans hr)
      exact ⟨Store.fault?_of_documentIn hplace hhost, rfl, hnames ▸ ho.walked, hnames ▸ ho.named⟩
    have hd : documentAt? s.tree q = some host := by
      rw [documentAt?_congr _ q _ hnames]
      exact (Store.documentIn_eq_ok_iff hplace hopens host).1 hhost
    -- what the set has for this place is all that can have changed the sites
    have hafter := (h.written f hf q hq).documentAt?_eq_some_iff hd (hu f hf q hq host hd)
    have hread : ∀ d, Store.documentIn s.root s'.tree Chain.hostFile = .ok d ↔
        (set.overlay f host).WithinLimits ∧ d = (set.overlay f host).settled := by
      intro d
      rw [Store.documentIn_eq_ok_iff hplace (h.opens_after hopens),
        ← documentAt?_congr _ q _ hnames, hafter]
    constructor
    · rintro ⟨d, hd', hok⟩ g hg r hr e he hnames'
      obtain rfl := h.oneName f hf g hg q r hq hr (hnames.trans hnames'.symm)
      obtain rfl := Option.some.inj (hq.symm.trans hr)
      obtain rfl := Option.some.inj (hd.symm.trans he)
      obtain ⟨hlimits, rfl⟩ := (hread d).1 hd'
      exact ⟨hlimits, hok⟩
    · intro hall
      obtain ⟨hlimits, hok⟩ := hall f hf q hq host hd hnames
      exact ⟨_, (hread _).2 ⟨hlimits, rfl⟩, hok⟩
  · have hsame : Store.documentIn s.root s'.tree Chain.hostFile =
        Store.documentIn s.root s.tree Chain.hostFile := by
      apply Store.documentIn_eq
      intro p hp path hpath
      obtain rfl := Option.some.inj (hplace.symm.trans hp)
      refine h.frame path fun f hf q hq hnames => hnamed ⟨f, hf, q, hq, ?_⟩
      obtain ⟨r, hr, ho⟩ := h.opens f hf
      obtain rfl := Option.some.inj (hq.symm.trans hr)
      exact Place.eq_host_of_prefix hq ho.ending (hnames ▸ hpath)
    refine ⟨fun _ f hf q hq _ _ hnames => absurd ⟨f, hf, q, hq, hnames⟩ hnamed, fun _ => ?_⟩
    rw [hsame]
    exact ⟨host, hhost, hdecodes⟩

end Journal.Outcome

namespace Service

variable {set : StagedSet} {owner : Option String} {s s' : Service}

theorem applySet_eq_ok (h : applySet set owner s = (.ok (), s')) :
    ∃ store, Journal.commit s.registry set.entries s.store = (.ok (), store) ∧
      s' = { s with store := store } := by
  rcases applySet_cases set owner s with ⟨e, he⟩ | hc
  · rw [he] at h
    cases h
  · rw [hc, onStore_apply] at h
    rcases hs : Journal.commit s.registry set.entries s.store with ⟨r, store⟩
    rw [hs] at h
    cases h
    exact ⟨store, rfl, rfl⟩

theorem getSection_unedited (scope : Scope) (name : String) (s : Service)
    (h : s.store.Unfailing .read) :
    (WorkUnit.new none).getSection scope name s =
      (Access.sectionFrom s.registry none (Access.look none s.store.root s.store.tree) scope name,
        s) :=
  onStore_looking (Access.getSection_apply none s.registry scope name s.store h)

end Service

/-- After a successful commit of a set that leaves no dates, all files that could be read still
can, and the registered sites still decode, just when the changed files are within the limits of
the reader and the changes leave a sites section that decodes. The sites are what reading at the
global level depends on, for every registered section. -/
theorem committed_files_readable (set : StagedSet) (owner : Option String) (s s' : Service)
    (h : Service.applySet set owner s = (.ok (), s'))
    (ha : Journal.Apart s.store.root s.store.tree (set.entries.map (·.file)))
    (hv : ∀ e ∈ set.entries, e.mutation.WellFormed) (hu : set.Undated s.store.root s.store.tree)
    (hr : s.store.Unfailing .read) (hsites : s.store.sitesDecode = true) :
    ((∀ p, (documentAt? s.store.tree p).isSome = true →
        (documentAt? s'.store.tree p).isSome = true) ∧ s'.store.sitesDecode = true ↔
      set.LeavesReadable s.store.root s.store.tree) ∧
    ∀ name definition, s.registry.get name = .ok definition →
      ((WorkUnit.new none).getSection .global name s').1.isOk = s'.store.sitesDecode := by
  obtain ⟨store, hcommit, rfl⟩ := Service.applySet_eq_ok h
  have houtcome := Journal.commit_outcome hcommit ha hv
  have hr' : store.Unfailing .read := Journal.unfailing_of_commit hcommit hr
  constructor
  · rw [houtcome.readable_iff hu, houtcome.sitesDecode_iff hu hr hr' hsites]
    constructor
    · exact fun ⟨hlimits, hdecode⟩ => ⟨hlimits, fun f hf p hp d hd hnames =>
        (hdecode f hf p hp d hd hnames).2⟩
    · exact fun hleaves => ⟨hleaves.limits, fun f hf p hp d hd hnames =>
        ⟨hleaves.limits f hf p hp d hd, hleaves.sites f hf p hp d hd hnames⟩⟩
  · intro name definition hdefinition
    rw [Service.getSection_unedited _ _ _ hr', Store.sitesDecode, Access.sites_apply none store hr']
    exact Access.isOk_sectionFrom_global none hdefinition _

def oneSite : StagedSet :=
  ⟨[⟨.global, "host", "host.toml", "sites",
    .replace (Sites.toValue ⟨[⟨1, "shop", "/shop", true, []⟩]⟩)⟩]⟩

theorem committed_files_readable_oneSite :
    (Service.applySet oneSite none (.new listedDisk .builtin 900 0)).1 = .ok () ∧
      ((WorkUnit.new none).getSection .global "directory_browse"
        (Service.applySet oneSite none (.new listedDisk .builtin 900 0)).2).1.isOk = true := by
  have h : (Service.applySet oneSite none (.new listedDisk .builtin 900 0)).1 = .ok () := by
    decide +kernel
  refine ⟨h, ?_⟩
  generalize hs : Service.applySet oneSite none (.new listedDisk .builtin 900 0) = result at h ⊢
  obtain ⟨answer, after⟩ := result
  obtain rfl : answer = .ok () := h
  obtain ⟨hiff, hread⟩ := committed_files_readable oneSite none _ after hs (by decide +kernel)
    (by decide +kernel) (by decide +kernel) (by decide +kernel) (by decide +kernel)
  rw [hread "directory_browse" _ (by rfl)]
  refine (hiff.2 ⟨?_, ?_⟩).2
  · decide +kernel
  · decide +kernel

def noRegistry : StagedSet :=
  ⟨[⟨.global, "host", "host.toml", "sites", .replace (.obj [("entries", .int 5)])⟩]⟩

theorem committed_files_lockedOut :
    let s := Service.new listedDisk .builtin 900 0
    let s' := (Service.applySet noRegistry none s).2
    s.store.sitesDecode = true ∧
      (WorkUnit.stage (.new none) .global "sites" (.replace (.obj [("entries", .int 5)])) s).1 =
        .ok ⟨none, noRegistry⟩ ∧
      (WorkUnit.commit ⟨none, noRegistry⟩ s).1 = .ok ⟨none, .empty⟩ ∧
      (WorkUnit.commit ⟨none, noRegistry⟩ s).2 = s' ∧
      ((WorkUnit.new none).getSection .global "directory_browse" s).1.isOk = true ∧
      ((WorkUnit.new none).getSection .global "directory_browse" s').1.isOk = false := by
  decide +kernel

end LayeredConfig
