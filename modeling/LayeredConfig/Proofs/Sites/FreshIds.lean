import LayeredConfig.Proofs.Sites.Upkeep
import LayeredConfig.WorkUnit

/-!
# The id of a site that is created without one

The next id is one more than the greatest, in 64-bit arithmetic, and it is free and positive when
that sum is. It is not when every id is negative, as those of a registry that was read can be, and
when the greatest id is the last one of a word. Then no site can be created without an id, however
many are free; where there is a next id, a site that could be created with some id is created.
-/

set_option autoImplicit false

namespace LayeredConfig

open Run

namespace Sites

def HasNext (s : Sites) : Prop :=
  (s.entries = [] ∨ ∃ site ∈ s.entries, 0 ≤ site.id) ∧
    ∀ site ∈ s.entries, site.id ≠ 0x7FFFFFFFFFFFFFFF

instance (s : Sites) : Decidable s.HasNext :=
  inferInstanceAs (Decidable ((s.entries = [] ∨ ∃ site ∈ s.entries, 0 ≤ site.id) ∧
    ∀ site ∈ s.entries, site.id ≠ 0x7FFFFFFFFFFFFFFF))

variable {s : Sites} {site : Site}

theorem greatestId_eq (s : Sites) : s.greatestId = (s.entries.map (·.id)).max?.getD 0 := by
  rw [greatestId]
  generalize s.entries.map (·.id) = ids
  cases ids with
  | nil => rfl
  | cons id ids => rw [List.max?_cons', Option.getD_some]

theorem greatestId_of_empty (h : s.entries = []) : s.greatestId = 0 := by
  rw [greatestId, h]
  rfl

theorem greatestId_spec (h : s.entries ≠ []) :
    (∃ site ∈ s.entries, site.id = s.greatestId) ∧ ∀ site ∈ s.entries, site.id ≤ s.greatestId := by
  rcases hmax : (s.entries.map (·.id)).max? with _ | greatest
  · exact absurd (List.map_eq_nil_iff.mp (List.max?_eq_none_iff.mp hmax)) h
  · rw [greatestId_eq, hmax]
    obtain ⟨hmem, hle⟩ := List.max?_eq_some_iff.mp hmax
    exact ⟨List.mem_map.mp hmem, fun site hsite => hle _ (List.mem_map_of_mem hsite)⟩

theorem le_greatestId (h : site ∈ s.entries) : site.id ≤ s.greatestId :=
  (greatestId_spec (List.ne_nil_of_mem h)).2 site h

theorem greatestId_fits (h : s.IdsFit) : Decimal.isInt64 s.greatestId = true := by
  by_cases hnone : s.entries = []
  · rw [greatestId_of_empty hnone]
    decide
  · obtain ⟨⟨site, hsite, hid⟩, -⟩ := greatestId_spec hnone
    exact hid ▸ h site hsite

/-- The sum wraps when the greatest id is the last one. -/
theorem nextId_eq (h : s.IdsFit) :
    s.nextId = if s.greatestId = 0x7FFFFFFFFFFFFFFF then -0x8000000000000000
      else s.greatestId + 1 := by
  have hfits := greatestId_fits h
  simp only [Decimal.isInt64, Bool.and_eq_true, decide_eq_true_eq] at hfits
  rw [nextId, Decimal.wordCount]
  split
  · rename_i hlast
    rw [hlast]
    decide
  · exact Int.bmod_eq_of_le (by omega) (by omega)

theorem hasNext_iff (h : s.IdsFit) :
    s.HasNext ↔ 0 ≤ s.greatestId ∧ s.greatestId ≠ 0x7FFFFFFFFFFFFFFF := by
  have hfits := greatestId_fits h
  simp only [Decimal.isInt64, Bool.and_eq_true, decide_eq_true_eq] at hfits
  by_cases hnone : s.entries = []
  · simp [HasNext, hnone, greatestId_of_empty hnone]
  · obtain ⟨⟨greatest, hmem, hid⟩, hle⟩ := greatestId_spec hnone
    constructor
    · rintro ⟨hsome, hlast⟩
      obtain ⟨site, hsite, hpos⟩ := hsome.resolve_left hnone
      exact ⟨hpos.trans (hle site hsite), hid ▸ hlast greatest hmem⟩
    · rintro ⟨hpos, hlast⟩
      refine ⟨.inr ⟨greatest, hmem, hid ▸ hpos⟩, fun site hsite hmax => ?_⟩
      have := hle site hsite
      omega

theorem nextId_of_hasNext (h : s.IdsFit) (hnext : s.HasNext) :
    s.nextId = s.greatestId + 1 ∧ 0 < s.nextId ∧ ∀ site ∈ s.entries, site.id ≠ s.nextId := by
  obtain ⟨hpos, hlast⟩ := (hasNext_iff h).mp hnext
  have hid : s.nextId = s.greatestId + 1 := by rw [nextId_eq h, if_neg hlast]
  refine ⟨hid, by omega, fun site hsite => ?_⟩
  have := le_greatestId hsite
  omega

theorem nextId_nonpos (h : s.IdsFit) (hnext : ¬ s.HasNext) : s.nextId ≤ 0 := by
  rw [hasNext_iff h] at hnext
  rw [nextId_eq h]
  split <;> omega

theorem fitsBeside_withId {new : NewSite} {id id' : Int} {others : List Site}
    (h : (new.withId id).FitsBeside others) (hpos : 0 < id')
    (hfree : ∀ other ∈ others, other.id ≠ id') : (new.withId id').FitsBeside others :=
  ⟨⟨hpos, h.valid.name, h.valid.directory, h.valid.applications⟩,
    fun other ho => ⟨hfree other ho, (h.apart other ho).name⟩⟩

theorem add_of_nonpos {site : Site} (h : site.id ≤ 0) :
    s.add site = .error (.validation .siteId) := by
  rw [add_eq]
  simp only [Site.validate, if_pos h]
  rfl

theorem Sound.hasNext_iff (h : s.Sound) :
    s.HasNext ↔ ∀ site ∈ s.entries, site.id ≠ 0x7FFFFFFFFFFFFFFF := by
  refine and_iff_right ?_
  rcases hentries : s.entries with _ | ⟨site, entries⟩
  · exact .inl rfl
  · have hsite := List.mem_cons_self (a := site) (l := entries)
    exact .inr ⟨site, hsite, (h.valid site (hentries ▸ hsite)).id.le⟩

theorem createSite_of_nonpos {u : WorkUnit} {new : NewSite} {before after : Service}
    (hs : u.sites before = (.ok s, after)) (hid : new.id = none) (hnext : s.nextId ≤ 0) :
    u.createSite new before = (.error (.validation .siteId), after) := by
  have hadd : s.add (new.withId (new.id.getD s.nextId)) = .error (.validation .siteId) := by
    rw [hid]
    exact add_of_nonpos hnext
  rw [WorkUnit.createSite, bind_of_ok hs, hadd]
  rfl

/-- Where a registry has a next id, that is one more than the greatest, positive and free, and a
site that could be created with any id is created with it. Elsewhere no site at all can be created
without an id. A sound registry has a next id unless it holds the last one of a word. -/
theorem nextId_fresh_iff (h : s.IdsFit) :
    (s.HasNext ↔ s.nextId = s.greatestId + 1 ∧ 0 < s.nextId ∧
      ∀ site ∈ s.entries, site.id ≠ s.nextId) ∧
    (s.HasNext → ∀ (new : NewSite) (id : Int) (s' : Sites), s.add (new.withId id) = .ok s' →
      s.add (new.withId s.nextId) = .ok ⟨s.entries ++ [new.withId s.nextId]⟩) ∧
    (¬ s.HasNext → ∀ (u : WorkUnit) (new : NewSite) (before after : Service),
      u.sites before = (.ok s, after) → new.id = none →
        u.createSite new before = (.error (.validation .siteId), after)) ∧
    (s.Sound → (s.HasNext ↔ ∀ site ∈ s.entries, site.id ≠ 0x7FFFFFFFFFFFFFFF)) := by
  refine ⟨⟨nextId_of_hasNext h, fun hid => ?_⟩, fun hnext new id s' ha => ?_,
    fun hnext u new before after hs hnone => ?_, Sound.hasNext_iff⟩
  · by_contra hnext
    exact absurd (nextId_nonpos h hnext) (by omega)
  · obtain ⟨-, hpos, hfree⟩ := nextId_of_hasNext h hnext
    exact add_eq_ok_iff.mpr ⟨fitsBeside_withId (add_eq_ok_iff.mp ha).1 hpos hfree, rfl⟩
  · exact createSite_of_nonpos hs hnone (nextId_nonpos h hnext)

theorem nextId_fresh_after_two :
    let s : Sites := ⟨[⟨7, "shop", "shop", false, []⟩, ⟨-3, "old", "old", false, []⟩]⟩
    s.HasNext ∧ s.nextId = 8 ∧ s.add ⟨8, "blog", "blog", false, []⟩ =
      .ok ⟨s.entries ++ [⟨8, "blog", "blog", false, []⟩]⟩ := by
  intro s
  have hfit : s.IdsFit := by decide
  have hnext : s.HasNext := by decide
  obtain ⟨hiff, hcreates, -, -⟩ := nextId_fresh_iff hfit
  have hid : s.nextId = 8 := (hiff.mp hnext).1
  have hadd := hcreates hnext ⟨none, "blog", "blog", false, []⟩ 5
    ⟨s.entries ++ [⟨5, "blog", "blog", false, []⟩]⟩ (by decide +kernel)
  rw [hid] at hadd
  exact ⟨hnext, hid, hadd⟩

/-- The registry of a host file may hold negative ids only. The next id is then no id, although
every positive one is free. -/
theorem nextId_after_negative :
    let s : Sites := ⟨[⟨-1, "old", "old", false, []⟩]⟩
    let new : NewSite := ⟨none, "shop", "shop", false, []⟩
    ofValue? (.obj [("entries", .arr [.obj [("id", .int (-1)), ("name", .str "old"),
      ("physical_path", .str "old")]])]) = .ok s ∧
    s.nextId = 0 ∧ s.add (new.withId s.nextId) = .error (.validation .siteId) ∧
    s.add (new.withId 1) = .ok ⟨s.entries ++ [new.withId 1]⟩ := by
  decide +kernel

end Sites

end LayeredConfig
