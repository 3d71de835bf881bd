import LayeredConfig.Proofs.Document.Reordering

/-!
# Merged changes

Changes of different sections may be made in either order, and two changes of one section are the
later one with what it does not set taken from the earlier one. So a staged set, which has one
entry for each section of a file, does to every document what all the changes do that were staged
in it, one after another.
-/

set_option autoImplicit false

namespace LayeredConfig

open Table (Sorted)

namespace LevelDocument

structure Keyed (d : LevelDocument) : Prop where
  modes : Sorted d.modes
  sections : Sorted d.sections

instance (d : LevelDocument) : Decidable d.Keyed :=
  decidable_of_iff (Sorted d.modes ∧ Sorted d.sections)
    ⟨fun ⟨hm, hs⟩ => ⟨hm, hs⟩, fun ⟨hm, hs⟩ => ⟨hm, hs⟩⟩

theorem WellFormed.keyed {d : LevelDocument} (h : d.WellFormed) : d.Keyed :=
  ⟨h.modes_sorted, h.sections_sorted⟩

theorem Keyed.ext {d d' : LevelDocument} (h : d.Keyed) (h' : d'.Keyed)
    (hmodes : ∀ name, Table.get? d.modes name = Table.get? d'.modes name)
    (hsections : ∀ name, d.section? name = d'.section? name) : d = d' := by
  obtain ⟨modes, sections⟩ := d
  obtain ⟨modes', sections'⟩ := d'
  obtain rfl : modes = modes' := h.modes.ext h'.modes hmodes
  obtain rfl : sections = sections' := h.sections.ext h'.sections hsections
  rfl

end LevelDocument

namespace Mutation

variable {name other : String} {d : LevelDocument}

def contentAfter (m : Mutation) (former : Option Value) : Option Value :=
  match m.content with
  | some (.replace v) => some v
  | some .revert => .none
  | .none => former

def modeAfter (m : Mutation) (former : Option OverrideMode) : Option OverrideMode :=
  match m.mode with
  | some .inherit => .none
  | some mode => some mode
  | .none => former

theorem contentAfter_merge (a b : Mutation) (former : Option Value) :
    (a.merge b).contentAfter former = b.contentAfter (a.contentAfter former) := by
  simp only [contentAfter, merge]
  rcases b.content with _ | (v | _)
  · rfl
  · rfl
  · rfl

theorem modeAfter_merge (a b : Mutation) (former : Option OverrideMode) :
    (a.merge b).modeAfter former = b.modeAfter (a.modeAfter former) := by
  simp only [modeAfter, merge]
  rcases b.mode with _ | mode
  · rfl
  · cases mode <;> rfl

theorem section?_apply (m : Mutation) (name other : String) (d : LevelDocument) :
    (m.apply name d).section? other =
      if name = other then m.contentAfter (d.section? other) else d.section? other := by
  split
  · rename_i h
    subst h
    simp only [LevelDocument.section?, apply_sections, applyContent, contentAfter]
    rcases m.content with _ | (v | _)
    · rfl
    · exact (Table.get?_insert _ _ _ _).trans (if_pos rfl)
    · exact (Table.get?_erase _ _ _).trans (if_pos rfl)
  · rename_i h
    exact section?_apply_of_ne m h d

theorem get?_modes_apply (m : Mutation) (name other : String) (d : LevelDocument) :
    Table.get? (m.apply name d).modes other =
      if name = other then m.modeAfter (Table.get? d.modes other)
      else Table.get? d.modes other := by
  have hset : ∀ mode : OverrideMode, Table.get? ((m.applyContent name d).setMode name mode).modes
      other = if name = other then (if mode = .inherit then .none else some mode)
        else Table.get? d.modes other := by
    intro mode
    simp only [LevelDocument.setMode, applyContent_modes]
    by_cases hmode : mode = .inherit
    · rw [if_pos hmode, if_pos hmode, Table.get?_erase]
    · rw [if_neg hmode, if_neg hmode, Table.get?_insert]
  rw [apply_eq, modeAfter]
  rcases m.mode with _ | mode
  · rw [applyContent_modes, ite_self]
  · refine (hset mode).trans ?_
    cases mode <;> rfl

theorem keyed_apply (m : Mutation) (name : String) (h : d.Keyed) : (m.apply name d).Keyed := by
  have hcontent : (m.applyContent name d).Keyed := by
    simp only [applyContent]
    split
    · exact ⟨h.modes, Table.sorted_insert d.sections name _ h.sections⟩
    · exact ⟨h.modes, h.sections.sublist (Table.erase_sublist d.sections name)⟩
    · exact h
  rw [apply_eq]
  split
  · refine ⟨?_, hcontent.sections⟩
    simp only [LevelDocument.setMode]
    split
    · exact hcontent.modes.sublist (Table.erase_sublist _ name)
    · exact Table.sorted_insert _ name _ hcontent.modes
  · exact hcontent

/-- A merged change does what its parts do one after the other. -/
theorem apply_merge (a b : Mutation) (name : String) (h : d.Keyed) :
    (a.merge b).apply name d = b.apply name (a.apply name d) := by
  refine (keyed_apply _ name h).ext (keyed_apply b name (keyed_apply a name h)) ?_ ?_
  · intro k
    simp only [get?_modes_apply, modeAfter_merge]
    split <;> rfl
  · intro k
    simp only [section?_apply, contentAfter_merge]
    split <;> rfl

theorem apply_comm (a b : Mutation) (hne : name ≠ other) (h : d.Keyed) :
    a.apply name (b.apply other d) = b.apply other (a.apply name d) := by
  refine (keyed_apply a name (keyed_apply b other h)).ext
    (keyed_apply b other (keyed_apply a name h)) ?_ ?_
  · intro k
    simp only [get?_modes_apply]
    split
    · rename_i hk
      subst hk
      rw [if_neg hne.symm, if_neg hne.symm]
    · rfl
  · intro k
    simp only [section?_apply]
    split
    · rename_i hk
      subst hk
      rw [if_neg hne.symm, if_neg hne.symm]
    · rfl

end Mutation

namespace Staged

variable {d : LevelDocument}

def key (s : Staged) : String × String := (s.file, s.name)

theorem hasKey_iff {s : Staged} {file name : String} :
    s.hasKey file name = true ↔ s.key = (file, name) := by
  simp [hasKey, key]

@[simp] theorem key_absorb (s later : Staged) : (s.absorb later).key = s.key := rfl

theorem keyed_overlayAll (entries : List Staged) (h : d.Keyed) : (overlayAll entries d).Keyed := by
  induction entries generalizing d with
  | nil => exact h
  | cons s rest ih => exact ih (s.mutation.keyed_apply s.name h)

theorem overlayAll_filter_cons (s : Staged) (rest : List Staged) (file : String)
    (d : LevelDocument) :
    overlayAll ((s :: rest).filter (·.file == file)) d =
      overlayAll (rest.filter (·.file == file))
        (if s.file = file then s.mutation.apply s.name d else d) := by
  rw [List.filter_cons]
  by_cases hs : s.file = file
  · rw [if_pos hs, if_pos (beq_iff_eq.mpr hs)]
    rfl
  · rw [if_neg hs, if_neg fun h => hs (eq_of_beq h)]

/-- A change of a section that no later change is for may as well be made last. -/
theorem overlayAll_apply {entries : List Staged} {name : String} (m : Mutation)
    (hne : ∀ s ∈ entries, s.name ≠ name) (h : d.Keyed) :
    overlayAll entries (m.apply name d) = m.apply name (overlayAll entries d) := by
  induction entries generalizing d with
  | nil => rfl
  | cons s rest ih =>
    obtain ⟨hs, hrest⟩ := List.forall_mem_cons.mp hne
    change overlayAll rest (s.mutation.apply s.name (m.apply name d)) = _
    rw [Mutation.apply_comm _ _ hs h]
    exact ih hrest (s.mutation.keyed_apply s.name h)

end Staged

namespace StagedSet

variable {set : StagedSet} {s : Staged} {file : String} {d : LevelDocument}

def Distinct (set : StagedSet) : Prop := (set.entries.map Staged.key).Nodup

instance (set : StagedSet) : Decidable set.Distinct :=
  inferInstanceAs (Decidable (set.entries.map Staged.key).Nodup)

theorem keys_stageIn (s : Staged) (entries : List Staged) :
    (stageIn s entries).map Staged.key = if s.key ∈ entries.map Staged.key
      then entries.map Staged.key else entries.map Staged.key ++ [s.key] := by
  induction entries with
  | nil => rfl
  | cons e rest ih =>
    simp only [stageIn]
    by_cases hkey : e.hasKey s.file s.name = true
    · have hfirst : s.key ∈ (e :: rest).map Staged.key :=
        List.mem_map.mpr ⟨e, List.mem_cons_self, Staged.hasKey_iff.mp hkey⟩
      rw [if_pos hkey, if_pos hfirst]
      rfl
    · have hne : s.key ≠ e.key := fun h => hkey (Staged.hasKey_iff.mpr h.symm)
      rw [if_neg hkey, List.map_cons, List.map_cons, ih]
      simp only [List.mem_cons, hne, false_or]
      split <;> rfl

theorem keys_stage (set : StagedSet) (s : Staged) :
    (set.stage s).entries.map Staged.key = if s.key ∈ set.entries.map Staged.key
      then set.entries.map Staged.key else set.entries.map Staged.key ++ [s.key] :=
  keys_stageIn s set.entries

theorem Distinct.stage (h : set.Distinct) (s : Staged) : (set.stage s).Distinct := by
  rw [Distinct, keys_stage]
  split
  · exact h
  · rename_i hnew
    exact List.nodup_append.mpr ⟨h, List.nodup_singleton _, by
      rintro k hk _ hs rfl
      exact hnew (List.mem_singleton.mp hs ▸ hk)⟩

theorem overlayAll_stageIn (entries : List Staged) (hdistinct : (entries.map Staged.key).Nodup)
    (h : d.Keyed) :
    Staged.overlayAll ((stageIn s entries).filter (·.file == file)) d =
      if s.file = file then
        s.mutation.apply s.name (Staged.overlayAll (entries.filter (·.file == file)) d)
      else Staged.overlayAll (entries.filter (·.file == file)) d := by
  induction entries generalizing d with
  | nil => exact Staged.overlayAll_filter_cons s [] file d
  | cons e rest ih =>
    obtain ⟨hfresh, hrest⟩ := List.nodup_cons.mp hdistinct
    simp only [stageIn]
    by_cases hkey : e.hasKey s.file s.name = true
    · obtain ⟨hfile, hname⟩ := Prod.mk.inj (Staged.hasKey_iff.mp hkey)
      rw [if_pos hkey, Staged.overlayAll_filter_cons, Staged.overlayAll_filter_cons]
      by_cases hs : s.file = file
      · -- the entries behind this one are for other sections of the file
        have hothers : ∀ r ∈ rest.filter (·.file == file), r.name ≠ s.name := by
          intro r hr hsame
          obtain ⟨hr, hrfile⟩ := List.mem_filter.mp hr
          refine hfresh (List.mem_map.mpr ⟨r, hr, Prod.ext ?_ (hsame.trans hname.symm)⟩)
          exact (eq_of_beq hrfile).trans (hs.symm.trans hfile.symm)
        have he : e.file = file := hfile.trans hs
        rw [if_pos hs, if_pos he, if_pos (show (e.absorb s).file = file from he), hname]
        change Staged.overlayAll _ ((e.mutation.merge s.mutation).apply e.name d) = _
        rw [hname, Mutation.apply_merge _ _ _ h]
        exact Staged.overlayAll_apply _ hothers (e.mutation.keyed_apply s.name h)
      · have he : e.file ≠ file := fun h => hs (hfile.symm.trans h)
        rw [if_neg hs, if_neg he, if_neg (show (e.absorb s).file ≠ file from he)]
    · rw [if_neg hkey, Staged.overlayAll_filter_cons, Staged.overlayAll_filter_cons]
      refine ih hrest ?_
      split
      · exact e.mutation.keyed_apply e.name h
      · exact h

/-- Staging one more change makes it last, wherever in the set it is merged. -/
theorem overlay_stage (hset : set.Distinct) (h : d.Keyed) (s : Staged) (file : String) :
    (set.stage s).overlay file d =
      if s.file = file then s.mutation.apply s.name (set.overlay file d)
      else set.overlay file d :=
  overlayAll_stageIn set.entries hset h

/-- An entry after a change is one from before, for another section, or it is the one that the
change was merged into or became. -/
theorem mem_stageIn {e : Staged} (entries : List Staged)
    (hdistinct : (entries.map Staged.key).Nodup) (h : e ∈ stageIn s entries) :
    e ∈ entries ∧ e.key ≠ s.key ∨ (∃ former ∈ entries, former.key = s.key ∧ e = former.absorb s) ∨
      s.key ∉ entries.map Staged.key ∧ e = s := by
  induction entries with
  | nil => exact .inr (.inr ⟨List.not_mem_nil, List.mem_singleton.mp h⟩)
  | cons first rest ih =>
    obtain ⟨hfresh, hrest⟩ := List.nodup_cons.mp hdistinct
    simp only [stageIn] at h
    by_cases hkey : first.hasKey s.file s.name = true
    · have hfirst : first.key = s.key := Staged.hasKey_iff.mp hkey
      rw [if_pos hkey] at h
      rcases List.mem_cons.mp h with rfl | h
      · exact .inr (.inl ⟨first, List.mem_cons_self, hfirst, rfl⟩)
      · refine .inl ⟨List.mem_cons_of_mem _ h, fun he => hfresh ?_⟩
        exact List.mem_map.mpr ⟨e, h, he.trans hfirst.symm⟩
    · have hne : first.key ≠ s.key := fun h => hkey (Staged.hasKey_iff.mpr h)
      rw [if_neg hkey] at h
      rcases List.mem_cons.mp h with rfl | h
      · exact .inl ⟨List.mem_cons_self, hne⟩
      · rcases ih hrest h with ⟨he, hother⟩ | ⟨former, hformer, hmerged⟩ | ⟨hnew, rfl⟩
        · exact .inl ⟨List.mem_cons_of_mem _ he, hother⟩
        · exact .inr (.inl ⟨former, List.mem_cons_of_mem _ hformer, hmerged⟩)
        · refine .inr (.inr ⟨fun hmem => ?_, rfl⟩)
          rcases List.mem_cons.mp hmem with h' | h'
          · exact hne h'.symm
          · exact hnew h'

def ofChanges (changes : List Staged) : StagedSet := changes.foldl stage empty

theorem ofChanges_concat (changes : List Staged) (s : Staged) :
    ofChanges (changes ++ [s]) = (ofChanges changes).stage s := List.foldl_concat _ _ _ _

theorem distinct_ofChanges (changes : List Staged) : (ofChanges changes).Distinct := by
  induction changes using List.reverseRecOn with
  | nil => exact List.nodup_nil
  | append_singleton changes s ih =>
    rw [ofChanges_concat]
    exact ih.stage s

/-- The keys of the set are those of the changes, in the order in which they came first. -/
theorem keys_ofChanges (changes : List Staged) :
    (ofChanges changes).entries.map Staged.key = (changes.map Staged.key).eraseDups := by
  induction changes using List.reverseRecOn with
  | nil => rfl
  | append_singleton changes s ih =>
    rw [ofChanges_concat, keys_stage, ih, List.map_append, List.eraseDups_append,
      List.map_singleton, List.removeAll, List.filter_singleton]
    by_cases h : s.key ∈ changes.map Staged.key
    · rw [if_pos (List.mem_eraseDups.mpr h), List.elem_eq_true_of_mem h]
      exact (List.append_nil _).symm
    · rw [if_neg (mt List.mem_eraseDups.mp h),
        Bool.eq_false_iff.mpr (mt List.mem_of_elem_eq_true h)]
      rfl

theorem overlay_ofChanges (changes : List Staged) (file : String) (h : d.Keyed) :
    (ofChanges changes).overlay file d =
      Staged.overlayAll (changes.filter (·.file == file)) d := by
  induction changes using List.reverseRecOn with
  | nil => rfl
  | append_singleton changes s ih =>
    rw [ofChanges_concat, overlay_stage (distinct_ofChanges changes) h, ih, List.filter_append,
      List.filter_singleton]
    by_cases hs : s.file = file
    · rw [if_pos hs, beq_iff_eq.mpr hs]
      exact (Staged.overlayAll_concat _ s d).symm
    · rw [if_neg hs, beq_false_of_ne hs]
      exact congrArg (Staged.overlayAll · d) (List.append_nil _).symm

def mergedFor (key : String × String) (changes : List Staged) : Mutation :=
  (changes.filter fun s => s.key = key).foldl (fun m s => m.merge s.mutation) .none

theorem mergedFor_concat (key : String × String) (changes : List Staged) (s : Staged) :
    mergedFor key (changes ++ [s]) = if s.key = key
      then (mergedFor key changes).merge s.mutation else mergedFor key changes := by
  simp only [mergedFor, List.filter_append, List.filter_singleton]
  by_cases h : s.key = key
  · simp [h]
  · simp [h]

theorem mutation_ofChanges (changes : List Staged) :
    ∀ e ∈ (ofChanges changes).entries, e.mutation = mergedFor e.key changes := by
  induction changes using List.reverseRecOn with
  | nil => exact fun e he => by cases he
  | append_singleton changes s ih =>
    intro e he
    rw [ofChanges_concat] at he
    rw [mergedFor_concat]
    rcases mem_stageIn _ (distinct_ofChanges changes) he with
      ⟨he, hne⟩ | ⟨former, hformer, hkey, rfl⟩ | ⟨hnew, rfl⟩
    · rw [if_neg (Ne.symm hne)]
      exact ih e he
    · rw [Staged.key_absorb, if_pos hkey.symm, ← ih former hformer]
      rfl
    · have hnone : mergedFor e.key changes = .none := by
        rw [keys_ofChanges, List.mem_eraseDups, List.mem_map, not_exists] at hnew
        rw [mergedFor, List.filter_eq_nil_iff.mpr fun r hr hsame =>
          hnew r ⟨hr, of_decide_eq_true hsame⟩]
        rfl
      rw [if_pos rfl, hnone, Mutation.none_merge]

/-- Of what merged changes set the last one stays. -/
theorem last_of_merged {α : Type} (part : Mutation → Option α)
    (hpart : ∀ a b, part (a.merge b) = (part b).or (part a)) (changes : List Staged)
    (m : Mutation) :
    part (changes.foldl (fun m s => m.merge s.mutation) m) =
      ((changes.filterMap fun s => part s.mutation).getLast?).or (part m) := by
  induction changes using List.reverseRecOn with
  | nil => rfl
  | append_singleton changes s ih =>
    rw [List.foldl_concat, hpart, ih, List.filterMap_append, List.getLast?_append, Option.or_assoc]
    congr 1
    rcases h : part s.mutation with _ | a <;> simp [h]

end StagedSet

/-- Whatever is staged, in whatever order: a set has one entry for each section of a file, in the
order in which these were first staged, with the last content and the last mode that were staged
for it; and it does to every document of every file what all the changes for the file do, one after
another in the order in which they were staged. -/
theorem staged_set_stands_for_changes (changes : List Staged) :
    let set := changes.foldl StagedSet.stage .empty
    (set.entries.map fun e => (e.file, e.name)).Nodup ∧
    set.entries.map (fun e => (e.file, e.name)) =
      (changes.map fun s => (s.file, s.name)).eraseDups ∧
    (∀ e ∈ set.entries,
      let same := changes.filter fun s => (s.file, s.name) = (e.file, e.name)
      e.mutation.content = (same.filterMap (·.mutation.content)).getLast? ∧
      e.mutation.mode = (same.filterMap (·.mutation.mode)).getLast?) ∧
    ∀ file (d : LevelDocument), d.Keyed →
      set.overlay file d =
        (changes.filter (·.file == file)).foldl (fun d s => s.mutation.apply s.name d) d := by
  refine ⟨StagedSet.distinct_ofChanges changes, StagedSet.keys_ofChanges changes, ?_,
    fun file d h => StagedSet.overlay_ofChanges changes file h⟩
  intro e he
  have hmerged := StagedSet.mutation_ofChanges changes e he
  have hlast : ∀ {α : Type} (part : Mutation → Option α),
      (∀ a b, part (a.merge b) = (part b).or (part a)) → part .none = none →
      part e.mutation = ((changes.filter fun s => (s.file, s.name) = (e.file, e.name)).filterMap
        fun s => part s.mutation).getLast? := by
    intro α part hpart hnone
    rw [hmerged, StagedSet.mergedFor, StagedSet.last_of_merged part hpart, hnone, Option.or_none]
    rfl
  exact ⟨hlast Mutation.content (fun _ _ => rfl) rfl, hlast Mutation.mode (fun _ _ => rfl) rfl⟩

def restaged : List Staged :=
  [⟨.global, "shop", "shop/web.toml", "listing", .replace (.obj [("v", .int 1)])⟩,
    ⟨.global, "api", "api/web.toml", "listing", .setMode .deny⟩,
    ⟨.global, "shop", "shop/web.toml", "headers", .revert⟩,
    ⟨.global, "shop", "shop/web.toml", "listing", .setMode .allow⟩,
    ⟨.global, "shop", "shop/web.toml", "listing", .revert⟩]

theorem staged_set_stands_for_changes_restaged :
    let former : LevelDocument := ⟨[("listing", .deny)], [("headers", .obj [])]⟩
    let set := restaged.foldl StagedSet.stage .empty
    former.Keyed ∧
      set.entries.map (fun e => (e.file, e.name)) =
        [("shop/web.toml", "listing"), ("api/web.toml", "listing"), ("shop/web.toml", "headers")] ∧
      (∀ e ∈ set.entries, (e.file, e.name) = ("shop/web.toml", "listing") →
        e.mutation = ⟨some .revert, some .allow⟩) ∧
      set.overlay "shop/web.toml" former = ⟨[("listing", .allow)], []⟩ := by
  intro former set
  have hformer : former.Keyed := by decide
  obtain ⟨-, hkeys, hlast, hoverlay⟩ := staged_set_stands_for_changes restaged
  refine ⟨hformer, hkeys.trans (by decide), fun e he hkey => ?_, ?_⟩
  · obtain ⟨hcontent, hmode⟩ := hlast e he
    rw [hkey] at hcontent hmode
    exact congrArg₂ Mutation.mk (hcontent.trans (by decide)) (hmode.trans (by decide))
  · rw [hoverlay "shop/web.toml" former hformer]
    decide

end LayeredConfig
