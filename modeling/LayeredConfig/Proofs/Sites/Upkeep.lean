import Mathlib.Data.List.TakeWhile
import LayeredConfig.Proofs.Run
import LayeredConfig.Proofs.Scope.Paths
import LayeredConfig.Proofs.Sites.Encoding

/-!
# The upkeep of a registry of sites

A site fits beside others when it is valid and shares neither its id nor, up to ASCII case, its
name with one of them, and a registry is sound when each of its sites fits beside the others. What
an edit demands and what it makes of the entries is said once, by cases on the edit. That an edit
keeps a registry sound follows from it, and that any number of them do follows by induction.
-/

set_option autoImplicit false

namespace LayeredConfig

open Run

theorem Text.isEmpty_trim_iff (s : String) :
    (trim s).isEmpty = true ↔ ∀ c ∈ s.toList, isBlank c = true := by
  have hend : (trim s).isEmpty = true ↔ ∀ c ∈ s.toList.dropWhile isBlank, isBlank c = true := by
    simp [trim, trimBy, trimEndBy, trimStartBy, String.isEmpty_iff, String.ext_iff]
  rw [hend]
  constructor
  · intro h c hc
    rw [← List.takeWhile_append_dropWhile (p := isBlank) (l := s.toList)] at hc
    rcases List.mem_append.mp hc with hfirst | hlater
    · exact List.mem_takeWhile_imp hfirst
    · exact h c hlater
  · intro h c hc
    exact h c ((List.dropWhile_sublist _).mem hc)

def Path.Proper (path : String) : Prop := hasParent path = false ∧ segments path ≠ []

instance (path : String) : Decidable (Path.Proper path) := inferInstanceAs (Decidable (_ ∧ _))

theorem Path.proper_iff {path : String} :
    Proper path ↔ ∃ normal, normalize? path = some normal ∧ normal ≠ "/" := by
  have hroot : ofSegments (segments path) = "/" ↔ segments path = [] :=
    ofSegments_eq_root_iff fun _ h => isSegment_of_mem h
  constructor
  · rintro ⟨hparent, hbelow⟩
    exact ⟨_, normalize?_eq_some_iff.mpr ⟨hparent, rfl⟩, fun h => hbelow (hroot.mp h)⟩
  · rintro ⟨normal, hnormal, hne⟩
    obtain ⟨hparent, rfl⟩ := normalize?_eq_some_iff.mp hnormal
    exact ⟨hparent, fun h => hne (hroot.mpr h)⟩

namespace Site

theorem validateDirectory_eq_ok_iff {path : String} :
    validateDirectory path = .ok () ↔ Path.Proper path := by
  rw [Path.proper_iff, validateDirectory]
  rcases Path.normalize? path with _ | normal
  · simp
  · by_cases h : normal = "/" <;> simp [h]

theorem validateApplication_eq_ok_iff {a : Application} :
    validateApplication a = .ok () ↔ Path.Proper a.path ∧ Path.Proper a.physicalPath := by
  rw [validateApplication, @Path.proper_iff a.path]
  rcases Path.normalize? a.path with _ | normal
  · simp
  · by_cases h : normal = "/" <;> simp [h, validateDirectory_eq_ok_iff]

structure Valid (s : Site) : Prop where
  id : 0 < s.id
  name : ∃ c ∈ s.name.toList, Text.isBlank c = false
  directory : Path.Proper s.physicalPath
  applications : ∀ a ∈ s.applications, Path.Proper a.path ∧ Path.Proper a.physicalPath

variable {s site other : Site}

theorem validate_eq_ok_iff : s.validate = .ok () ↔ s.Valid := by
  have hid : ¬ s.id ≤ 0 ↔ 0 < s.id := by omega
  have hname : ¬ (Text.trim s.name).isEmpty = true ↔
      ∃ c ∈ s.name.toList, Text.isBlank c = false := by
    rw [Text.isEmpty_trim_iff]
    simp
  simp only [validate, guard_eq_ok_iff, seq_eq_ok_iff, hid, hname, validateDirectory_eq_ok_iff,
    forM_eq_ok_iff, validateApplication_eq_ok_iff]
  constructor
  · rintro ⟨hid, hname, hdirectory, happlications⟩
    exact ⟨hid, hname, hdirectory, happlications⟩
  · intro h
    exact ⟨h.id, h.name, h.directory, h.applications⟩

structure Apart (site other : Site) : Prop where
  id : site.id ≠ other.id
  name : sameName site.name other.name = false

theorem Apart.symm (h : site.Apart other) : other.Apart site := by
  refine ⟨h.id.symm, ?_⟩
  have := h.name
  simp only [sameName, beq_eq_false_iff_ne, ne_eq] at this ⊢
  exact fun hsame => this hsame.symm

structure FitsBeside (s : Site) (others : List Site) : Prop where
  valid : s.Valid
  apart : ∀ other ∈ others, other.Apart s

end Site

namespace Sites

structure Sound (s : Sites) : Prop where
  valid : ∀ site ∈ s.entries, site.Valid
  apart : s.entries.Pairwise Site.Apart

variable {s s' : Sites} {site old : Site} {id : Int} {before after : List Site}

/-- A registry is sound when one of its sites fits beside the others, and these are sound. -/
theorem sound_middle :
    Sound ⟨before ++ site :: after⟩ ↔
      site.FitsBeside (before ++ after) ∧ Sound ⟨before ++ after⟩ := by
  have hpairs : (before ++ site :: after).Pairwise Site.Apart ↔
      (∀ other ∈ before ++ after, site.Apart other) ∧ (before ++ after).Pairwise Site.Apart := by
    rw [List.pairwise_middle fun h => h.symm, List.pairwise_cons]
  constructor
  · intro h
    obtain ⟨hsite, hothers⟩ := hpairs.mp h.apart
    have hvalid := h.valid
    simp only [List.mem_append, List.mem_cons] at hvalid
    refine ⟨⟨hvalid site (.inr (.inl rfl)), fun other ho => (hsite other ho).symm⟩,
      fun other ho => hvalid other ?_, hothers⟩
    exact (List.mem_append.mp ho).imp_right .inr
  · rintro ⟨hfits, hothers⟩
    refine ⟨fun other ho => ?_,
      hpairs.mpr ⟨fun other ho => (hfits.apart other ho).symm, hothers.apart⟩⟩
    rcases List.mem_append.mp ho with hin | hin
    · exact hothers.valid other (List.mem_append_left _ hin)
    · rcases List.mem_cons.mp hin with rfl | hin
      · exact hfits.valid
      · exact hothers.valid other (List.mem_append_right _ hin)

theorem find?_eq_none_iff : s.find? id = none ↔ ∀ site ∈ s.entries, site.id ≠ id := by
  simp [find?]

theorem exists_middle (h : s.find? id = some old) :
    ∃ before after, s = ⟨before ++ old :: after⟩ ∧ old.id = id := by
  obtain ⟨hid, before, after, hentries, -⟩ := List.find?_eq_some_iff_append.mp h
  exact ⟨before, after, congrArg Sites.mk hentries, by simpa using hid⟩

theorem replace_middle (h : ∀ other ∈ before, other.id ≠ old.id) :
    replace old.id site (before ++ old :: after) = before ++ site :: after := by
  induction before with
  | nil => simp [replace]
  | cons first before ih =>
    obtain ⟨hfirst, hbefore⟩ := List.forall_mem_cons.mp h
    rw [List.cons_append, replace, if_neg hfirst, ih hbefore]
    rfl

theorem eraseP_middle (h : ∀ other ∈ before, other.id ≠ old.id) :
    (before ++ old :: after).eraseP (·.id == old.id) = before ++ after := by
  rw [List.eraseP_append_right _ fun other ho => by simpa using h other ho]
  simp

theorem add_eq_ok_iff :
    s.add site = .ok s' ↔ site.FitsBeside s.entries ∧ s' = ⟨s.entries ++ [site]⟩ := by
  have hid : ¬ (s.find? site.id).isSome = true ↔ ∀ other ∈ s.entries, other.id ≠ site.id := by
    rw [Bool.not_eq_true, Option.isSome_eq_false_iff, Option.isNone_iff_eq_none, find?_eq_none_iff]
  have hname : ¬ s.entries.any (sameName ·.name site.name) = true ↔
      ∀ other ∈ s.entries, sameName other.name site.name = false := by
    simp
  simp only [add_eq, seq_eq_ok_iff, guard_eq_ok_iff, Site.validate_eq_ok_iff, hid, hname]
  constructor
  · rintro ⟨hvalid, hid, hname, h⟩
    exact ⟨⟨hvalid, fun other ho => ⟨hid other ho, hname other ho⟩⟩, (Except.ok.inj h).symm⟩
  · rintro ⟨h, rfl⟩
    exact ⟨h.valid, fun other ho => (h.apart other ho).id, fun other ho => (h.apart other ho).name,
      rfl⟩

section

variable (h : Sound ⟨before ++ old :: after⟩)

include h

theorem ids_beside {other : Site} (ho : other ∈ before ++ after) : other.id ≠ old.id :=
  ((sound_middle.mp h).1.apart other ho).id

theorem find?_middle : find? ⟨before ++ old :: after⟩ old.id = some old := by
  refine List.find?_eq_some_iff_append.mpr ⟨by simp, before, after, rfl, fun other ho => ?_⟩
  simpa using ids_beside h (List.mem_append_left _ ho)

theorem update_middle {change : SiteUpdate} :
    update ⟨before ++ old :: after⟩ old.id change = .ok (site, s') ↔
      (change.apply old).FitsBeside (before ++ after) ∧
        site = change.apply old ∧ s' = ⟨before ++ site :: after⟩ := by
  have hname : ¬ ((before ++ old :: after).any fun other =>
      other.id != old.id && sameName other.name (change.apply old).name) = true ↔
        ∀ other ∈ before ++ after, sameName other.name (change.apply old).name = false := by
    rw [Bool.not_eq_true, List.any_eq_false]
    simp only [List.perm_middle.mem_iff, List.forall_mem_cons]
    constructor
    · rintro ⟨-, hothers⟩ other ho
      simpa [ids_beside h ho] using hothers other ho
    · intro hothers
      exact ⟨by simp, fun other ho => by simp [hothers other ho]⟩
  have hreplace : replace old.id (change.apply old) (before ++ old :: after) =
      before ++ change.apply old :: after :=
    replace_middle fun other ho => ids_beside h (List.mem_append_left _ ho)
  simp only [update_eq, find?_middle h, seq_eq_ok_iff, guard_eq_ok_iff, Site.validate_eq_ok_iff,
    hname, hreplace]
  constructor
  · rintro ⟨hvalid, hname, hanswer⟩
    cases hanswer
    exact ⟨⟨hvalid, fun other ho => ⟨ids_beside h ho, hname other ho⟩⟩, rfl, rfl⟩
  · rintro ⟨hfits, rfl, rfl⟩
    exact ⟨hfits.valid, fun other ho => (hfits.apart other ho).name, rfl⟩

theorem remove_middle :
    remove ⟨before ++ old :: after⟩ old.id = .ok (old, ⟨before ++ after⟩) := by
  rw [remove_eq, find?_middle h]
  simp only [eraseP_middle fun other ho => ids_beside h (List.mem_append_left _ ho)]

theorem setAutoStart_middle {value : Bool} :
    setAutoStart ⟨before ++ old :: after⟩ old.id value =
      some ⟨before ++ { old with autoStart := value } :: after⟩ := by
  rw [setAutoStart, find?_middle h, Option.map_some,
    replace_middle fun other ho => ids_beside h (List.mem_append_left _ ho)]

end

end Sites

inductive SiteEdit where
  | add (site : Site)
  | create (new : NewSite)
  | update (id : Int) (change : SiteUpdate)
  | remove (id : Int)
  | setAutoStart (id : Int) (value : Bool)
  deriving DecidableEq, Repr

namespace SiteEdit

open Sites

def run : SiteEdit → SitesM Unit
  | add site => SitesM.add site
  | create new => do SitesM.add (new.withId (new.id.getD (← get).nextId))
  | update id change => do
    let _ ← SitesM.update id change
    pure ()
  | remove id => do
    let _ ← SitesM.remove id
    pure ()
  | setAutoStart id value => modify fun s => (s.setAutoStart id value).getD s

def Makes (s : Sites) : SiteEdit → Sites → Prop
  | add site, s' => site.FitsBeside s.entries ∧ s' = ⟨s.entries ++ [site]⟩
  | create new, s' => (new.withId (new.id.getD s.nextId)).FitsBeside s.entries ∧
      s' = ⟨s.entries ++ [new.withId (new.id.getD s.nextId)]⟩
  | update id change, s' => ∃ before old after, s = ⟨before ++ old :: after⟩ ∧ old.id = id ∧
      (change.apply old).FitsBeside (before ++ after) ∧
      s' = ⟨before ++ change.apply old :: after⟩
  | remove id, s' => ∃ before old after, s = ⟨before ++ old :: after⟩ ∧ old.id = id ∧
      s' = ⟨before ++ after⟩
  | setAutoStart id value, s' =>
      (∃ before old after, s = ⟨before ++ old :: after⟩ ∧ old.id = id ∧
        s' = ⟨before ++ { old with autoStart := value } :: after⟩) ∨
      (∀ site ∈ s.entries, site.id ≠ id) ∧ s' = s

variable {s s' : Sites} {edit : SiteEdit} {α : Type}

theorem answer_eq_ok_iff {x : SitesM α} {a : α} :
    x.answer s = .ok (a, s') ↔ x s = (.ok a, s') := by
  rw [SitesM.answer]
  rcases x s with ⟨e | b, left⟩
  · exact ⟨fun h => (by cases h), fun h => (by cases h)⟩
  · exact ⟨fun h => (by cases h; rfl), fun h => (by cases h; rfl)⟩

theorem run_add_eq_ok_iff {site : Site} :
    SitesM.add site s = (.ok (), s') ↔ s.add site = .ok s' := by
  rw [← answer_eq_ok_iff, Sites.add]
  constructor
  · intro h
    rw [h]
    rfl
  · intro h
    obtain ⟨⟨⟨⟩, left⟩, hanswer, rfl⟩ := answer_of_map h
    exact hanswer

theorem run_discard_eq_ok_iff {x : SitesM α} :
    (x >>= fun _ => pure ()) s = (.ok (), s') ↔ ∃ a, x.answer s = .ok (a, s') := by
  constructor
  · intro h
    obtain ⟨a, s₁, hx, h⟩ := bind_eq_ok h
    cases h
    exact ⟨a, answer_eq_ok_iff.mpr hx⟩
  · rintro ⟨a, hx⟩
    rw [bind_of_ok (answer_eq_ok_iff.mp hx), pure_apply]

theorem run_eq_ok_iff (h : s.Sound) : edit.run s = (.ok (), s') ↔ edit.Makes s s' := by
  cases edit with
  | add site => exact run_add_eq_ok_iff.trans add_eq_ok_iff
  | create new => exact run_add_eq_ok_iff.trans add_eq_ok_iff
  | update id change =>
    refine run_discard_eq_ok_iff.trans ⟨?_, ?_⟩
    · rintro ⟨site, hu⟩
      obtain ⟨old, hold, -, -⟩ := Sites.update_eq_ok hu
      -- in a sound registry the site with the id is the only one
      obtain ⟨before, after, rfl, rfl⟩ := exists_middle hold
      obtain ⟨hfits, rfl, rfl⟩ := (update_middle h).mp hu
      exact ⟨before, old, after, rfl, rfl, hfits, rfl⟩
    · rintro ⟨before, old, after, rfl, rfl, hfits, rfl⟩
      exact ⟨_, (update_middle h).mpr ⟨hfits, rfl, rfl⟩⟩
  | remove id =>
    refine run_discard_eq_ok_iff.trans ⟨?_, ?_⟩
    · rintro ⟨site, hr⟩
      change s.remove id = _ at hr
      rcases hfind : s.find? id with _ | old
      · rw [remove_eq, hfind] at hr
        cases hr
      · obtain ⟨before, after, rfl, rfl⟩ := exists_middle hfind
        rw [remove_middle h] at hr
        cases hr
        exact ⟨before, _, after, rfl, rfl, rfl⟩
    · rintro ⟨before, old, after, rfl, rfl, rfl⟩
      exact ⟨old, remove_middle h⟩
  | setAutoStart id value =>
    change (Except.ok (), (s.setAutoStart id value).getD s) = _ ↔ _
    rw [Prod.mk.injEq, eq_self_iff_true, true_and, eq_comm]
    constructor
    · intro hs
      rcases hfind : s.find? id with _ | old
      · rw [Sites.setAutoStart, hfind] at hs
        exact .inr ⟨find?_eq_none_iff.mp hfind, hs⟩
      · obtain ⟨before, after, rfl, rfl⟩ := exists_middle hfind
        rw [setAutoStart_middle h] at hs
        exact .inl ⟨before, old, after, rfl, rfl, hs⟩
    · rintro (⟨before, old, after, rfl, rfl, rfl⟩ | ⟨hnone, rfl⟩)
      · rw [setAutoStart_middle h]
        rfl
      · rw [Sites.setAutoStart, find?_eq_none_iff.mpr hnone]
        rfl

/-- An edit that succeeds keeps a registry sound. -/
theorem sound_of_run (h : s.Sound) (hrun : edit.run s = (.ok (), s')) : s'.Sound := by
  have hmakes := (run_eq_ok_iff h).mp hrun
  cases edit with
  | add site =>
    obtain ⟨hfits, rfl⟩ := hmakes
    exact sound_middle.mpr (by simpa using ⟨hfits, h⟩)
  | create new =>
    obtain ⟨hfits, rfl⟩ := hmakes
    exact sound_middle.mpr (by simpa using ⟨hfits, h⟩)
  | update id change =>
    obtain ⟨before, old, after, rfl, -, hfits, rfl⟩ := hmakes
    exact sound_middle.mpr ⟨hfits, (sound_middle.mp h).2⟩
  | remove id =>
    obtain ⟨before, old, after, rfl, -, rfl⟩ := hmakes
    exact (sound_middle.mp h).2
  | setAutoStart id value =>
    rcases hmakes with ⟨before, old, after, rfl, -, rfl⟩ | ⟨-, rfl⟩
    · obtain ⟨hfits, hothers⟩ := sound_middle.mp h
      obtain ⟨⟨hid, hname, hdirectory, happlications⟩, hapart⟩ := hfits
      exact sound_middle.mpr ⟨⟨⟨hid, hname, hdirectory, happlications⟩,
        fun other ho => ⟨(hapart other ho).id, (hapart other ho).name⟩⟩, hothers⟩
    · exact h

variable {good : Sites → Prop}

theorem preserves_check (x : Except ConfigError Unit) : Preserves good (SitesM.check x) :=
  fun _ h => h

theorem failsSafely_set (left : Sites) : FailsSafely good (set left : SitesM PUnit) :=
  fun _ _ _ _ h => by cases h

theorem failsSafely_guard {p : Prop} [Decidable p] {e : ConfigError} {x : SitesM α}
    (h : FailsSafely good x) :
    FailsSafely good (if p then (throw e : SitesM Unit) >>= fun _ => x else x) := by
  split
  · exact failsSafely_bind (preserves_throw e) fun _ => h
  · exact h

theorem failsSafely_add (site : Site) : FailsSafely good (SitesM.add site) :=
  failsSafely_bind (preserves_check _) fun _ => failsSafely_bind preserves_get fun _ =>
    failsSafely_guard (failsSafely_guard (failsSafely_set _))

/-- The registry is changed last, when nothing can fail any more. -/
theorem failsSafely_run (good : Sites → Prop) (edit : SiteEdit) : FailsSafely good edit.run := by
  cases edit with
  | add site => exact failsSafely_add site
  | create new => exact failsSafely_bind preserves_get fun _ => failsSafely_add _
  | update id change =>
    refine failsSafely_map (failsSafely_bind preserves_get fun s => ?_) fun _ => ()
    rcases s.find? id with _ | old
    · exact failsSafely_of_preserves (preserves_throw _)
    · exact failsSafely_bind (preserves_check _) fun _ =>
        failsSafely_guard (failsSafely_map (failsSafely_set _) fun _ => _)
  | remove id =>
    refine failsSafely_map (failsSafely_bind preserves_get fun s => ?_) fun _ => ()
    rcases s.find? id with _ | old
    · exact failsSafely_of_preserves (preserves_throw _)
    · exact failsSafely_map (failsSafely_set _) fun _ => old
  | setAutoStart id value => exact fun _ _ _ _ h => by cases h

end SiteEdit

namespace Sites

def after (s : Sites) (edit : SiteEdit) : Sites := (edit.run s).2

def afterAll (s : Sites) (edits : List SiteEdit) : Sites := edits.foldl after s

variable {s : Sites}

theorem empty_sound : empty.Sound := ⟨fun site h => (by cases h), .nil⟩

theorem after_sound (h : s.Sound) (edit : SiteEdit) : (s.after edit).Sound := by
  rw [after]
  rcases hrun : edit.run s with ⟨e | done, s'⟩
  · exact SiteEdit.failsSafely_run Sound edit s e s' h hrun
  · exact SiteEdit.sound_of_run h hrun

theorem afterAll_sound (h : s.Sound) (edits : List SiteEdit) : (s.afterAll edits).Sound := by
  induction edits generalizing s with
  | nil => exact h
  | cons edit edits ih => exact ih (after_sound h edit)

/-- Whatever edits are made of an empty registry, its sites stay valid and differ in their ids and,
up to ASCII case, in their names. An edit then either fails and leaves the registry as it was, or
does what it says and nothing else. -/
theorem upkeep_of_empty (edits : List SiteEdit) :
    let s := empty.afterAll edits
    s.Sound ∧ (∀ site ∈ s.entries, site.validate = .ok ()) ∧
      ∀ edit : SiteEdit, (∀ e s', edit.run s = (.error e, s') → s' = s) ∧
        ∀ s', edit.run s = (.ok (), s') ↔ edit.Makes s s' := by
  intro s
  have hs : s.Sound := afterAll_sound empty_sound edits
  refine ⟨hs, fun site hsite => Site.validate_eq_ok_iff.mpr (hs.valid site hsite), fun edit => ?_⟩
  exact ⟨fun e s' hrun => SiteEdit.failsSafely_run (· = s) edit s e s' rfl hrun,
    fun s' => SiteEdit.run_eq_ok_iff hs⟩

end Sites

end LayeredConfig
