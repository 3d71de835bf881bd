import LayeredConfig.Proofs.Commit.Single
import LayeredConfig.Proofs.Service.Acceptance
import LayeredConfig.Proofs.Sites.Encoding

/-!
# Edits of the registered sites

A unit without other changes that registers, updates or removes a site writes the registry with that
one edit into the global file. What is read of the file afterwards is that registry, if the file can
be read at all. It can, unless another section of it is one that a level file does not give back.
-/

set_option autoImplicit false

namespace LayeredConfig

open Run

namespace Access

theorem file_of_admission_global {registry : Registry} {found : Look} {name : String} {m : Mutation}
    {level : LevelRef} (h : admission registry found .global name m = .ok level) :
    level.file = Chain.hostFile := by
  obtain ⟨definition, chain, -, -, hlevels, htarget⟩ := admission_eq_ok h
  obtain ⟨refs, hrefs, hload⟩ := levelsFrom_eq_ok hlevels
  obtain ⟨sites, -, hresolve⟩ := answer_of_bind hrefs
  cases hresolve
  obtain ⟨hrefs, -⟩ := mapM_withDocument_eq_ok hload
  obtain ⟨d, hmem⟩ := target_eq_ok htarget
  have hlevel : level ∈ chain.map (·.1) := List.mem_map_of_mem hmem
  rw [hrefs] at hlevel
  rw [List.mem_singleton.mp hlevel]
  rfl

theorem sitesFrom_eq_ok {root : Names} {t : FileTree} {sites : Sites}
    (h : sitesFrom (look none root t) = .ok sites) :
    ∃ d, Store.documentIn root t Chain.hostFile = .ok d ∧ sitesOf d = .ok sites := by
  obtain ⟨d, hd, hsites⟩ := answer_of_bind h
  exact ⟨d, documentIn_of_look hd, hsites⟩

theorem idsFit_of_sitesOf {d : LevelDocument} {sites : Sites} (h : sitesOf d = .ok sites) :
    sites.IdsFit := by
  simp only [sitesOf] at h
  split at h
  · exact Sites.idsFit_of_ofValue? h
  · cases h
    exact fun site hsite => by cases hsite

theorem sitesFrom_of_text {root : Names} {t : FileTree} {text : String}
    (h : Store.textIn root t Chain.hostFile = .ok (some text)) (sites : Sites) :
    sitesFrom (look none root t) = .ok sites ↔
      ∃ d, LevelDocument.parse text = .ok d ∧ sitesOf d = .ok sites := by
  have hdocument : Store.documentIn root t Chain.hostFile =
      (LevelDocument.parse text).mapError (StoreError.parse Chain.hostFile) := by
    simp only [Store.documentIn]
    rw [h]
    rfl
  constructor
  · intro hsites
    obtain ⟨d, hd, hsites⟩ := sitesFrom_eq_ok hsites
    exact ⟨d, answer_of_mapError (hdocument.symm.trans hd), hsites⟩
  · rintro ⟨d, hd, hsites⟩
    simp only [sitesFrom, look]
    rw [hdocument, hd]
    exact hsites

end Access

namespace LevelDocument

theorem Storable.setSites {d : LevelDocument} (hd : d.Storable) {sites : Sites}
    (hfits : sites.IdsFit) : (d.setSection Registry.sitesSection sites.toValue).Storable := by
  refine hd.setSection _ _ (Sites.toValue_wellFormed hfits) rfl ?_
  simp only [Value.isRepresentable, Sites.ofValue?_table hfits, Option.isSome_some]

/-- A registry that was put into a document is what the document gives back, if it can be read. -/
theorem sitesOf_reread {d back : LevelDocument} (hd : d.Storable) {sites : Sites}
    (hfits : sites.IdsFit) {text : String}
    (hrender : (d.setSection Registry.sitesSection sites.toValue).render = .ok text)
    (hparse : parse text = .ok back) : Access.sitesOf back = .ok sites := by
  obtain ⟨-, halike⟩ :=
    parse_fades _ back text (hd.setSites hfits).toWellFormed hrender hparse
  have hrel := halike.rel_get? Registry.sitesSection
  simp only [setSection] at hrel
  rw [Table.get?_insert, if_pos rfl] at hrel
  rcases hback : Table.get? back.sections Registry.sitesSection with _ | w
  · rw [hback] at hrel
    cases hrel
  · rw [hback] at hrel
    cases hrel with
    | some hfades =>
      simp only [Value.Fades] at hfades
      rw [Sites.isUndated_toValue hfits] at hfades
      obtain rfl : w = sites.toValue.settled := hfades
      simp only [Access.sitesOf, section?]
      rw [hback]
      exact Sites.ofValue?_settled (Sites.toValue_wellFormed hfits) (Sites.ofValue?_toValue hfits)

end LevelDocument

namespace UnitCall

def siteEdit? : UnitCall → Option (Sites → Except ConfigError (Site × Sites))
  | .createSite new => some new.register
  | .updateSite id update => some (·.update id update)
  | .deleteSite id => some (·.remove id)
  | _ => none

def IdFits : UnitCall → Prop
  | .createSite new => ∀ id, new.id = some id → Decimal.isInt64 id = true
  | _ => True

variable {call : UnitCall} {edit : Sites → Except ConfigError (Site × Sites)}

theorem siteEdit_eq_ok (hcall : call.siteEdit? = some edit) {u u' : WorkUnit} {s s' : Service}
    {set : StagedSet} {answer : UnitAnswer} (hset : u.staged? s = some set)
    (hr : s.store.Unfailing .read) (h : call.run u s = (.ok (answer, u'), s')) :
    ∃ site, answer = .site site ∧ u.EditsSites edit s set site u' s' := by
  cases call with
  | createSite new =>
    cases hcall
    obtain ⟨⟨site, v⟩, s₁, hcreate, hpure⟩ := bind_eq_ok h
    cases hpure
    exact ⟨site, rfl, WorkUnit.createSite_eq_ok hset hr hcreate⟩
  | updateSite id update =>
    cases hcall
    obtain ⟨⟨site, v⟩, s₁, hedit, hpure⟩ := bind_eq_ok h
    cases hpure
    exact ⟨site, rfl, WorkUnit.editSites_eq_ok _ hset hr hedit⟩
  | deleteSite id =>
    cases hcall
    obtain ⟨⟨site, v⟩, s₁, hedit, hpure⟩ := bind_eq_ok h
    cases hpure
    exact ⟨site, rfl, WorkUnit.editSites_eq_ok _ hset hr hedit⟩
  | _ => cases hcall

theorem idsFit_of_siteEdit (hcall : call.siteEdit? = some edit) (hid : call.IdFits)
    {before after : Sites} {site : Site} (hbefore : before.IdsFit)
    (h : edit before = .ok (site, after)) : after.IdsFit := by
  cases call with
  | createSite new =>
    cases hcall
    obtain ⟨added, hadd, hpair⟩ := answer_of_map h
    cases hpair
    refine hbefore.add ?_ hadd
    rcases hnew : new.id with _ | id
    · exact before.nextId_fits
    · exact hid id hnew
  | updateSite id update =>
    cases hcall
    exact hbefore.update h
  | deleteSite id =>
    cases hcall
    exact hbefore.remove h
  | _ => cases hcall

end UnitCall

namespace WorkUnit

variable {u u' : WorkUnit} {s s' : Service}

theorem sites_unedited (s : Service) (h : s.store.Unfailing .read) :
    (new none).sites s =
      (Access.sitesFrom (Access.look none s.store.root s.store.tree), s) :=
  Service.onStore_looking (Access.sites_apply none s.store h)

/-- A unit with one change commits that change. -/
theorem commit_one {e : Staged} (hu : u.transaction = none) (hpending : u.pending = ⟨[e]⟩)
    (h : u.commit s = (.ok u', s')) :
    ∃ store, Journal.commit s.registry [e] s.store = (.ok (), store) ∧
      s' = { s with store := store } := by
  simp only [commit] at h
  rw [hu, hpending] at h
  obtain ⟨⟨⟩, s₁, happly, hpure⟩ := bind_eq_ok h
  cases hpure
  exact Service.applySet_eq_ok happly

end WorkUnit

/-- An edit of the registered sites that a unit without other changes has made and committed. The
sites that are read afterwards are the former ones with that edit, just when the text that was
written can be read, and it can if its document is undated and within the limits of the reader. -/
theorem site_edits_land (call : UnitCall) (edit : Sites → Except ConfigError (Site × Sites))
    (s s₁ s₂ : Service) (answer : UnitAnswer) (u u' : WorkUnit)
    (hcall : call.siteEdit? = some edit) (hid : call.IdFits) (hr : s.store.Unfailing .read)
    (hrooted : s.store.tree.Rooted) (hrun : call.run (.new none) s = (.ok (answer, u), s₁))
    (hcommit : u.commit s₁ = (.ok u', s₂)) :
    ∃ before site after former text,
      ((WorkUnit.new none).sites s).1 = .ok before ∧ edit before = .ok (site, after) ∧
      answer = .site site ∧
      Store.documentIn s.store.root s.store.tree Chain.hostFile = .ok former ∧
      (former.setSection Registry.sitesSection after.toValue).render = .ok text ∧
      (((WorkUnit.new none).sites s₂).1 = .ok after ↔ (LevelDocument.parse text).isOk = true) ∧
      ((former.setSection Registry.sitesSection after.toValue).WithinLimits →
        (former.setSection Registry.sitesSection after.toValue).isUndated = true →
          ((WorkUnit.new none).sites s₂).1 = .ok after) := by
  obtain ⟨site, rfl, ⟨before, after, hbefore, hedit, hstages⟩⟩ :=
    UnitCall.siteEdit_eq_ok hcall (WorkUnit.staged?_of_none rfl s) hr hrun
  have hbefore : Access.sitesFrom (Access.look none s.store.root s.store.tree) = .ok before := by
    rw [← Access.look_empty]
    exact hbefore
  obtain ⟨former, hformer, hsites⟩ := Access.sitesFrom_eq_ok hbefore
  have hfits := UnitCall.idsFit_of_siteEdit hcall hid (Access.idsFit_of_sitesOf hsites) hedit
  -- the unit has the registry staged for the global file, and commits just that
  obtain ⟨target, hadmits, hfound⟩ := hstages.staged
  rw [WorkUnit.staged?_of_none hstages.transaction] at hfound
  obtain ⟨store, hstore, rfl⟩ :=
    WorkUnit.commit_one hstages.transaction (Option.some.inj hfound) hcommit
  obtain ⟨hroot, d, text, hd, hrender, htext⟩ := Journal.commit_single hstore
  simp only [Staged.of] at hd hrender htext
  rw [Access.file_of_admission_global hadmits] at hd htext
  -- directories of a new site do not change what the file says
  rw [hstages.store.root] at hd
  obtain rfl := Store.documentIn_grown hrooted hstages.store.tree hformer hd
  obtain ⟨hstorable, -⟩ := Store.documentIn_stays hformer
  have hr' : store.Unfailing .read :=
    Journal.unfailing_of_commit hstore (hstages.store.unfailing _ hr)
  have hlands : ((WorkUnit.new none).sites { s₁ with store := store }).1 = .ok after ↔
      (LevelDocument.parse text).isOk = true := by
    rw [WorkUnit.sites_unedited _ hr']
    refine (Access.sitesFrom_of_text htext after).trans ⟨?_, fun hok => ?_⟩
    · rintro ⟨back, hback, -⟩
      rw [hback]
      rfl
    · obtain ⟨back, hback⟩ := exists_of_isOk hok
      exact ⟨back, hback, LevelDocument.sitesOf_reread hstorable hfits hrender hback⟩
  refine ⟨before, site, after, d, text, ?_, hedit, rfl, hformer, hrender, hlands,
    fun hlimits hundated => hlands.2 ?_⟩
  · rw [WorkUnit.sites_unedited s hr]
    exact hbefore
  · rw [LevelDocument.parse_of_isUndated (hstorable.setSites hfits).toWellFormed hrender hlimits
      hundated]
    rfl

theorem site_edits_land_newShop :
    let s := Service.new listedDisk .builtin 900 0
    let s₁ := Service.new shopDisk .builtin 900 0
    let created := (WorkUnit.new none).createSite newShop s
    let committed := WorkUnit.commit ⟨none, oneSite⟩ s₁
    created.1 = .ok (newShop.withId 1, ⟨none, oneSite⟩) ∧ created.2 = s₁ ∧
      committed.1 = .ok ⟨none, .empty⟩ ∧
      ((WorkUnit.new none).sites committed.2).1 = .ok ⟨[newShop.withId 1]⟩ := by
  intro s s₁ created committed
  have hcreate : created.1 = .ok (newShop.withId 1, ⟨none, oneSite⟩) ∧ created.2 = s₁ := by
    decide +kernel
  have hcommit : committed.1 = .ok ⟨none, .empty⟩ := by decide +kernel
  have hrun : (UnitCall.createSite newShop).run (.new none) s =
      (.ok (.site (newShop.withId 1), ⟨none, oneSite⟩), s₁) := by
    have hboth : (WorkUnit.new none).createSite newShop s =
        (.ok (newShop.withId 1, ⟨none, oneSite⟩), s₁) := Prod.ext hcreate.1 hcreate.2
    simp only [UnitCall.run]
    rw [bind_apply, hboth]
    rfl
  obtain ⟨before, site, after, former, text, hbefore, hedit, -, hformer, -, -, hlands⟩ :=
    site_edits_land (.createSite newShop) newShop.register s s₁ committed.2 _ _ _ rfl
      (fun id hid => by cases hid) (by decide +kernel)
      (FileTree.rooted_of_entries (by decide +kernel)) hrun (eq_of_answer hcommit)
  have hsites : ((WorkUnit.new none).sites s).1 = .ok .empty := by decide +kernel
  obtain rfl := Except.ok.inj (hbefore.symm.trans hsites)
  obtain ⟨-, rfl⟩ := Prod.mk.inj (Except.ok.inj (hedit.symm.trans (by decide +kernel :
    newShop.register .empty = .ok (newShop.withId 1, ⟨[newShop.withId 1]⟩))))
  obtain rfl := Except.ok.inj (hformer.symm.trans (by decide +kernel :
    Store.documentIn s.store.root s.store.tree Chain.hostFile =
      .ok ⟨[], [("directory_browse", .obj [("enabled", .bool true)])]⟩))
  exact ⟨hcreate.1, hcreate.2, hcommit, hlands (by decide +kernel) (by decide +kernel)⟩

def disorderedDisk : Store :=
  ⟨["srv"], (FileTree.empty.set ["srv"] .directory).set ["srv", "host.toml"]
    (.file (.text "[sections.static_content.a]\nb = 1\n\"$__toml_private_datetime\" = \"foo\"\n")),
    []⟩

/-- When the file is written, the date key comes first, and what follows is no date. -/
theorem site_edits_lost :
    let s := Service.new disorderedDisk .builtin 900 0
    let created := (WorkUnit.new none).createSite newShop s
    let committed := WorkUnit.commit ⟨none, oneSite⟩ created.2
    ((WorkUnit.new none).sites s).1 = .ok .empty ∧
      created.1 = .ok (newShop.withId 1, ⟨none, oneSite⟩) ∧
      committed.1 = .ok ⟨none, .empty⟩ ∧
      (∀ former, Store.documentIn s.store.root s.store.tree Chain.hostFile = .ok former →
        (former.setSection Registry.sitesSection
          (Sites.toValue ⟨[newShop.withId 1]⟩)).WithinLimits) ∧
      ((WorkUnit.new none).sites committed.2).1.isOk = false := by
  intro s created committed
  have hformer : Store.documentIn s.store.root s.store.tree Chain.hostFile =
      .ok ⟨[], [("static_content", .obj [("a", .obj [("$__toml_private_datetime", .str "foo"),
        ("b", .int 1)])])]⟩ := by decide +kernel
  refine ⟨by decide +kernel, by decide +kernel, by decide +kernel, fun former h => ?_,
    by decide +kernel⟩
  obtain rfl := Except.ok.inj (h.symm.trans hformer)
  decide +kernel

end LayeredConfig
