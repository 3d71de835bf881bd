import LayeredConfig.Proofs.Commit.Bystanders
import LayeredConfig.Proofs.Commit.Directories
import LayeredConfig.Proofs.Document.Limits

/-!
# The text that a commit leaves in a file

Seen from the path of a file that has one name, a commit that succeeds reads the file, changes it
and writes it once for each entry that is for it, and does nothing else there. What stands beside
the files of the commit does not matter, such as a temporary text that was left behind.
-/

set_option autoImplicit false

namespace LayeredConfig

open Run

namespace Store

theorem documentIn_eq_ok_iff {root : Names} {t : FileTree} {file : String} {p : Place}
    (hp : Place.ofPath? root file = some p) (ho : p.Opens t) (d : LevelDocument) :
    documentIn root t file = .ok d ↔ documentAt? t p = some d := by
  simp only [documentIn, documentAt?]
  rw [textIn_of_opens hp ho]
  rcases t.get? p.names with _ | (_ | (text | bytes))
  · exact ⟨fun h => congrArg some (Except.ok.inj h),
      fun h => congrArg Except.ok (Option.some.inj h)⟩
  · exact ⟨fun h => (by cases h), fun h => (by cases h)⟩
  · change (LevelDocument.parse text).mapError (StoreError.parse file) = .ok d ↔
      (LevelDocument.parse text).toOption = some d
    rcases LevelDocument.parse text with fault | back
    · exact ⟨fun h => (by cases h), fun h => (by cases h)⟩
    · exact ⟨fun h => congrArg some (Except.ok.inj h),
        fun h => congrArg Except.ok (Option.some.inj h)⟩
  · exact ⟨fun h => (by cases h), fun h => (by cases h)⟩

end Store

namespace Journal

def Rewrites (first : Option Node) (entries : List Staged) (node : Option Node) : Prop :=
  entries = [] ∧ node = first ∨
    ∃ before text, first = textNode before ∧
      Staged.rewriteAll entries before = .ok (some text) ∧ node = textNode (some text)

theorem Rewrites.concat {first : Option Node} {entries : List Staged} {e : Staged}
    {now : Option String} {text : String} (h : Rewrites first entries (textNode now))
    (hw : e.rewrite now = .ok text) :
    Rewrites first (entries ++ [e]) (textNode (some text)) := by
  have hall : ∃ before, first = textNode before ∧ Staged.rewriteAll entries before = .ok now := by
    rcases h with ⟨rfl, rfl⟩ | ⟨before, text', rfl, hall, hnow⟩
    · exact ⟨now, rfl, rfl⟩
    · rw [textNode_injective _ _ hnow]
      exact ⟨before, rfl, hall⟩
  obtain ⟨before, rfl, hall⟩ := hall
  refine .inr ⟨before, text, rfl, ?_, rfl⟩
  rw [Staged.rewriteAll_concat, hall]
  change (e.rewrite now).map some = _
  rw [hw]
  rfl

variable {s₀ : Store} {set : StagedSet} {file : String} {q : Place} {registry : Registry}
  {first : Option Node} {done entries : List Staged} {p p' : Progress}

/-- One entry that is written rewrites the file, if it is for it. -/
theorem applyEntry_rewrites (hq : Place.ofPath? s₀.root file = some q)
    (ha : set.SparesPlace s₀.root file q) {e : Staged} (hmem : e ∈ set.entries)
    (h : Spares s₀ (set.entries.map (·.file)) q.names (fun _ => True) p)
    (hr : Rewrites first (done.filter (·.file == file)) (p.store.tree.get? q.names))
    (he : applyEntry registry e p = (.ok (), p')) :
    Spares s₀ (set.entries.map (·.file)) q.names (fun _ => True) p' ∧
      Rewrites first ((done ++ [e]).filter (·.file == file)) (p'.store.tree.get? q.names) := by
  have hf : e.file ∈ set.entries.map (·.file) := List.mem_map_of_mem hmem
  obtain ⟨target, store₁, l, p₂, d, store₃, text, store₄, hcheck, hlease, hload, hrender, hwrite,
    rfl⟩ := applyEntry_eq_ok he
  have h₁ := h.reading (Access.keeps_checkWrite _ _ _ _ _) hcheck
  have hv₁ := (Store.files_eq _ _ ((Access.keeps_checkWrite _ _ _ _ _).of_eq hcheck)).2
  rcases h₁.lease_cases ha.clear e.sectionPath e.file hf with
    ⟨fault, p₂', hl, -⟩ | ⟨entry, p₂', hl, hentry, hname, h₂, hv₂⟩
  all_goals
    rw [hl] at hlease
    cases hlease
  have h₃ := h₂.reading (Access.keeps_load none e.file) hload
  have hv₃ := (Store.files_eq _ _ ((Access.keeps_load none e.file).of_eq hload)).2
  rcases h₃.write_cases ha.clear hentry text with
    ⟨fault, s', hw, -⟩ | ⟨r, s', hplace, hw, hroot, hopens, hview⟩
  all_goals
    dsimp only at hw
    rw [hw] at hwrite
    cases hwrite
  refine ⟨⟨hroot.trans h₃.root, trivial, h₃.taken⟩, ?_⟩
  dsimp only at hview hopens ⊢
  rw [hv₃] at hview hopens
  rw [hname] at hplace
  have hnode : p₂.store.tree.get? q.names = p.store.tree.get? q.names :=
    hv₂.trans (congrArg (·.get? q.names) hv₁)
  rw [hview, List.filter_append, List.filter_singleton]
  by_cases hfile : e.file = file
  · -- the document that is read is the one that the entries before have left
    obtain rfl := Option.some.inj (hplace.symm.trans (hfile ▸ hq))
    obtain ⟨r', before, hr', hbefore, hget⟩ := load_eq_ok hload
    rw [h₂.root, hplace] at hr'
    obtain rfl := Option.some.inj hr'
    rw [← hnode, hget hopens.walked] at hr
    rw [if_pos rfl, hfile, beq_self_eq_true]
    refine hr.concat ?_
    simp only [Staged.rewrite]
    rw [hbefore]
    exact hrender
  · rw [if_neg fun hn => hfile (ha.oneName e.file hf r hplace hn), beq_false_of_ne hfile,
      cond_false, List.append_nil, hnode]
    exact hr

theorem applyEntries_rewrites (hq : Place.ofPath? s₀.root file = some q)
    (ha : set.SparesPlace s₀.root file q) (hmem : ∀ e ∈ entries, e ∈ set.entries)
    (h : Spares s₀ (set.entries.map (·.file)) q.names (fun _ => True) p)
    (hr : Rewrites first (done.filter (·.file == file)) (p.store.tree.get? q.names))
    (he : applyEntries registry entries p = (.ok (), p')) :
    Spares s₀ (set.entries.map (·.file)) q.names (fun _ => True) p' ∧
      Rewrites first ((done ++ entries).filter (·.file == file))
        (p'.store.tree.get? q.names) := by
  induction entries generalizing done p with
  | nil =>
    cases he
    rw [List.append_nil]
    exact ⟨h, hr⟩
  | cons e entries ih =>
    obtain ⟨⟨⟩, p₁, hone, hrest⟩ := bind_eq_ok he
    obtain ⟨h₁, hr₁⟩ := applyEntry_rewrites hq ha (hmem e List.mem_cons_self) h hr hone
    have hall := ih (fun e he => hmem e (List.mem_cons_of_mem _ he)) h₁ hr₁ hrest
    rwa [List.append_assoc] at hall

theorem storable_of_applyEntries (hv : ∀ e ∈ entries, e.mutation.WellFormed)
    (he : applyEntries registry entries p = (.ok (), p')) :
    ∀ e ∈ entries, e.mutation.Storable := by
  induction entries generalizing p with
  | nil => exact fun e he => nomatch he
  | cons first rest ih =>
    obtain ⟨⟨⟩, p₁, hone, hrest⟩ := bind_eq_ok he
    intro e hmem
    rcases List.mem_cons.mp hmem with rfl | hmem
    · obtain ⟨target, store₁, l, p₂, d, store₃, text, store₄, hcheck, -⟩ := applyEntry_eq_ok hone
      exact fun v hv' => ⟨(hv e List.mem_cons_self).value v hv', checkWrite_content hcheck v hv'⟩
    · exact ih (fun e he => hv e (List.mem_cons_of_mem _ he)) hrest e hmem

theorem releaseAll_root (journal : List JournalEntry) (s : Store) :
    (releaseAll journal s).root = s.root := by
  induction journal generalizing s with
  | nil => rfl
  | cons entry rest ih =>
    obtain ⟨s', hs, hroot, -⟩ := Store.release_tree entry.lease s
    simp only [releaseAll, after]
    rw [hs, ih]
    exact hroot

theorem steady_root (root : Names) (files : List String) :
    Steady files fun p => p.store.root = root where
  reading p s hs hp := (Store.files_eq _ _ hs).1.trans hp
  leasing p sectionPath file _ hp := by
    rcases lease_outcome sectionPath file p with
      ⟨_, s', hl, hr, -⟩ | ⟨_, _, hl, -⟩ | ⟨_, _, s', hl, -, hr, -⟩
    all_goals rw [hl]
    · exact hr.trans hp
    · exact hp
    · exact hr.trans hp
  writing p entry _ text hp := by
    rcases Store.write_tree entry.lease text p.store with
      ⟨_, s', hw, hr, -⟩ | ⟨_, s', -, hw, hr, -⟩
    all_goals
      dsimp only
      rw [hw]
      exact hr.trans hp

theorem root_of_commit {s s' : Store} (h : commit registry entries s = (.ok (), s')) :
    s'.root = s.root := by
  obtain ⟨p, hp, rfl⟩ := commit_eq_ok h
  have hroot := (steady_root s.root (entries.map (·.file))).applyEntries registry entries
    (fun e he => List.mem_map_of_mem he) ⟨s, []⟩ rfl
  rw [hp] at hroot
  rw [releaseAll_root]
  exact hroot

theorem opens_of_applyEntry {e : Staged} (he : applyEntry registry e p = (.ok (), p')) :
    ∃ q, Place.ofPath? p.store.root e.file = some q ∧ q.Opens p.store.tree := by
  obtain ⟨target, store₁, l, p₂, d, store₃, text, store₄, hcheck, hlease, hload, -, hwrite, -⟩ :=
    applyEntry_eq_ok he
  obtain ⟨hroot₁, htree₁⟩ := Store.files_eq _ _ ((Access.keeps_checkWrite _ _ _ _ _).of_eq hcheck)
  have hroot₂ := (steady_root store₁.root [e.file]).leasing ⟨store₁, p.journal⟩ e.sectionPath e.file
    List.mem_cons_self rfl
  have htree₂ := (steady_directories store₁.tree [e.file]).leasing ⟨store₁, p.journal⟩ e.sectionPath
    e.file List.mem_cons_self (.refl _)
  rw [hlease] at hroot₂ htree₂
  obtain ⟨hroot₃, htree₃⟩ := Store.files_eq _ _ ((Access.keeps_load none e.file).of_eq hload)
  -- the lease may be an old one, but it is one of this file
  have hname : l.file = e.file := by
    rcases lease_outcome e.sectionPath e.file { p with store := store₁ } with
      ⟨_, _, hl, -⟩ | ⟨_, _, hl, hname⟩ | ⟨_, _, _, hl, hname, -⟩
    all_goals
      rw [hl] at hlease
      cases hlease
    · exact hname
    · exact hname
  rcases Store.write_tree l text store₃ with ⟨_, _, hw, -⟩ | ⟨q, _, hq, -, -, hopens, -⟩
  · rw [hw] at hwrite
    cases hwrite
  · refine ⟨q, ?_, ?_⟩
    · rw [← hname, ← hq, hroot₃, ← hroot₁]
      exact congrArg (Place.ofPath? · l.file) hroot₂.symm
    · rw [htree₃] at hopens
      rw [← htree₁]
      exact hopens.of_directories fun path => (htree₂ path).symm

/-- The files of a commit that succeeds can be opened from the start, since a commit makes no
directory. -/
theorem opens_of_applyEntries (he : applyEntries registry entries p = (.ok (), p')) :
    ∀ e ∈ entries, ∃ q, Place.ofPath? p.store.root e.file = some q ∧ q.Opens p.store.tree := by
  induction entries generalizing p with
  | nil => exact fun e he => by cases he
  | cons first rest ih =>
    obtain ⟨⟨⟩, p₁, hone, hrest⟩ := bind_eq_ok he
    have hroot := (steady_root p.store.root [first.file]).applyEntry registry List.mem_cons_self p
      rfl
    have htree := (steady_directories p.store.tree [first.file]).applyEntry registry
      List.mem_cons_self p (.refl _)
    rw [hone] at hroot htree
    intro e hmem
    rcases List.mem_cons.mp hmem with rfl | hmem
    · exact opens_of_applyEntry hone
    · obtain ⟨q, hq, hopens⟩ := ih hrest e hmem
      dsimp only at hroot
      rw [hroot] at hq
      exact ⟨q, hq, hopens.of_directories fun path => (htree path).symm⟩

theorem opens_of_commit {s s' : Store} (h : commit registry entries s = (.ok (), s')) :
    ∀ f ∈ entries.map (·.file), ∃ q, Place.ofPath? s.root f = some q ∧ q.Opens s.tree := by
  obtain ⟨p, hp, -⟩ := commit_eq_ok h
  intro f hf
  obtain ⟨e, he, rfl⟩ := List.mem_map.mp hf
  exact opens_of_applyEntries hp e he

/-- A file of a set that is committed held a text or was missing, and holds what the changes for
it, written one by one, have made of that. -/
theorem commit_text {s s' : Store} (h : commit registry set.entries s = (.ok (), s'))
    (hv : ∀ e ∈ set.entries, e.mutation.WellFormed) (hq : Place.ofPath? s.root file = some q)
    (ha : set.SparesPlace s.root file q) (hfile : file ∈ set.entries.map (·.file)) :
    (∀ e ∈ set.entries.filter (·.file == file), e.mutation.Storable) ∧
      ∃ before text, s.tree.get? q.names = textNode before ∧
        Staged.rewriteAll (set.entries.filter (·.file == file)) before = .ok (some text) ∧
        s'.tree.get? q.names = textNode (some text) := by
  obtain ⟨p, hp, rfl⟩ := commit_eq_ok h
  have hstart : Rewrites (s.tree.get? q.names) (List.filter (·.file == file) [])
      (s.tree.get? q.names) := .inl ⟨rfl, rfl⟩
  obtain ⟨hspares, hr⟩ := applyEntries_rewrites hq ha (fun _ he => he)
    (Spares.start s _ q.names trivial) hstart hp
  refine ⟨fun e he => storable_of_applyEntries hv hp e (List.mem_filter.mp he).1, ?_⟩
  rw [releaseAll_at p.journal p.store hspares ha.clear]
  rcases hr with ⟨hnone, -⟩ | hr
  · obtain ⟨e, he, rfl⟩ := List.mem_map.mp hfile
    exact absurd (beq_self_eq_true e.file) (List.filter_eq_nil_iff.mp hnone e he)
  · exact hr

def Made (set : StagedSet) (s s' : Store) (file : String) (q : Place) : Prop :=
  ∃ former text final, documentAt? s.tree q = some former ∧
    Store.documentIn s.root s.tree file = .ok former ∧ (set.overlay file former).Storable ∧
    (set.overlay file former).render = .ok text ∧
    s'.tree.get? q.names = some (.file (.text final)) ∧
    (final = text ↔ set.isSafe file former = true)

theorem made_of_commit {s s' : Store} (h : commit registry set.entries s = (.ok (), s'))
    (hv : ∀ e ∈ set.entries, e.mutation.WellFormed) (hq : Place.ofPath? s.root file = some q)
    (ha : set.SparesPlace s.root file q) (hfile : file ∈ set.entries.map (·.file)) :
    Made set s s' file q := by
  obtain ⟨q', hq', hopens⟩ := opens_of_commit h file hfile
  obtain rfl := Option.some.inj (hq.symm.trans hq')
  obtain ⟨hstorable, before, final, hbefore, hall, hafter⟩ := commit_text h hv hq ha hfile
  -- some entry is for the file, so there is a text to compare
  have hne : set.entries.filter (·.file == file) ≠ [] := by
    obtain ⟨e, he, rfl⟩ := List.mem_map.mp hfile
    exact List.ne_nil_of_mem (List.mem_filter.mpr ⟨he, beq_self_eq_true e.file⟩)
  obtain ⟨former, -, hformer, -⟩ := Staged.rewriteAll_eq_ok _ hne before _ hall
  have hat := documentAt?_eq s.tree q before former hformer hbefore
  obtain ⟨text, htext, hiff⟩ :=
    Staged.rewriteAll_eq_overlay_iff _ hne before former final hformer hstorable hall
  exact ⟨former, text, final, hat, (Store.documentIn_eq_ok_iff hq hopens former).2 hat,
    Staged.overlayAll_storable _ former hstorable (LevelDocument.storable_of_file _ _ hformer),
    htext, hafter, hiff⟩

namespace Made

variable {s s' : Store} {former : LevelDocument}

theorem text_of_undated (h : Made set s s' file q) (hformer : documentAt? s.tree q = some former)
    (hu : (set.overlay file former).isUndated = true) :
    (set.overlay file former).Storable ∧ ∃ text, (set.overlay file former).render = .ok text ∧
      s'.tree.get? q.names = some (.file (.text text)) := by
  obtain ⟨former', text, final, hformer', -, hstorable, htext, hfinal, hiff⟩ := h
  obtain rfl := Option.some.inj (hformer.symm.trans hformer')
  refine ⟨hstorable, text, htext, ?_⟩
  have hsafe : set.isSafe file former = true := by
    have hall := LevelDocument.undated_sections hstorable.toWellFormed htext hu
    simp only [StagedSet.isSafe, Staged.isSafe]
    rw [List.all_eq_true]
    intro e he
    rw [hall e he, Bool.or_true]
  rw [hfinal, hiff.2 hsafe]

/-- Such a file can be read just when the document is within the limits, and then it gives the
settled document. -/
theorem documentAt?_eq_some_iff (h : Made set s s' file q)
    (hformer : documentAt? s.tree q = some former)
    (hu : (set.overlay file former).isUndated = true) (back : LevelDocument) :
    documentAt? s'.tree q = some back ↔
      (set.overlay file former).WithinLimits ∧ back = (set.overlay file former).settled := by
  obtain ⟨hstorable, text, htext, hnode⟩ := h.text_of_undated hformer hu
  rw [← LevelDocument.parse_of_undated hstorable.toWellFormed htext hu]
  simp only [documentAt?]
  rw [hnode]
  dsimp only
  rcases LevelDocument.parse text with fault | d
  · exact ⟨fun h => (by cases h), fun h => (by cases h)⟩
  · exact ⟨fun h => congrArg Except.ok (Option.some.inj h),
      fun h => congrArg some (Except.ok.inj h)⟩

end Made

end Journal

end LayeredConfig
