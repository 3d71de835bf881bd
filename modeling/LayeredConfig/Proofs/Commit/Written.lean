import LayeredConfig.Proofs.Commit.Rollback
import LayeredConfig.Proofs.Document.Rewriting

/-!
# What a commit has written so far

A commit under way has leased every file that it wrote, and such a file holds what the changes
for it, written one by one, make of the text noted in the journal.
-/

set_option autoImplicit false

namespace LayeredConfig.Journal

open Run

def textNode (text : Option String) : Option Node := text.map fun s => .file (.text s)

theorem textNode_injective (a b : Option String) (h : textNode a = textNode b) : a = b := by
  cases a with
  | none =>
    cases b with
    | none => rfl
    | some b => cases h
  | some a =>
    cases b with
    | none => cases h
    | some b =>
      cases h
      rfl

theorem load_eq_ok {file : String} {s s' : Store} {d : LevelDocument}
    (h : Access.load none file s = (.ok d, s')) :
    ∃ q text, Place.ofPath? s.root file = some q ∧ LevelDocument.ofFile text = .ok d ∧
      (s.tree.walk [] q.names.dropLast = .ok () → s.tree.get? q.names = textNode text) := by
  simp only [Access.load] at h
  obtain ⟨d', s₁, hload, hpure⟩ := bind_eq_ok h
  cases hpure
  rw [Access.onSection_apply] at hload
  rcases hl : Store.load file s with ⟨e | d', s₂⟩
  · rw [hl] at hload
    cases hload
  · rw [hl] at hload
    cases hload
    simp only [Store.load] at hl
    obtain ⟨text, s₂, hread, hparse⟩ := bind_eq_ok hl
    obtain ⟨q, hq, hsome, hnone⟩ := Store.read_eq_ok hread
    refine ⟨q, text, hq, ?_, ?_⟩
    · cases text with
      | none =>
        cases hparse
        rfl
      | some text =>
        change LevelDocument.parse text = _
        rcases hp : LevelDocument.parse text with fault | d'
        · dsimp only at hparse
          rw [hp] at hparse
          cases hparse
        · dsimp only at hparse
          rw [hp] at hparse
          cases hparse
          rfl
    · intro hw
      cases text with
      | none => exact hnone hw rfl
      | some text => exact hsome text rfl

theorem checkMutation_content {definition : SectionDefinition} {m : Mutation}
    (h : Access.checkMutation definition m = .ok ()) (v : Value)
    (hv : m.content = some (.replace v)) : v.isObject = true ∧ v.isRepresentable = true := by
  simp only [Access.checkMutation] at h
  rw [hv] at h
  split at h
  · cases h
  · dsimp only at h
    simp only [SectionDefinition.validate] at h
    split at h
    · cases h
    · rename_i hobject
      split at h
      · cases h
      · rename_i hrepresentable
        exact ⟨by simpa using hobject, by simpa using hrepresentable⟩

theorem checkWrite_content {registry : Registry} {overlay : Option StagedSet} {scope : Scope}
    {name : String} {m : Mutation} {s s' : Store} {target : LevelRef}
    (h : Access.checkWrite registry overlay scope name m s = (.ok target, s')) (v : Value)
    (hv : m.content = some (.replace v)) : v.isObject = true ∧ v.isRepresentable = true := by
  simp only [Access.checkWrite] at h
  obtain ⟨definition, s₁, -, h⟩ := bind_eq_ok h
  obtain ⟨⟨⟩, s₂, hcheck, -⟩ := bind_eq_ok h
  exact checkMutation_content (congrArg Prod.fst hcheck) v hv

theorem lease_eq_ok {sectionPath file : String} {p p' : Progress} {l : Lease}
    (h : lease sectionPath file p = (.ok l, p')) :
    (∃ e ∈ p.journal, e.lease = l ∧ e.lease.file = file ∧ p' = p) ∨
      ∃ e q, e.lease = l ∧ e.lease.file = file ∧ p'.journal = e :: p.journal ∧
        TakenFrom p.store.root p.store.tree e q ∧ p'.store.root = p.store.root ∧
        (∀ path, p'.store.tree.get? path =
          if e.lease.lock = path then some (.file (.text "")) else p.store.tree.get? path) ∧
        ∀ e' ∈ p.journal, e'.lease.file ≠ file := by
  rcases lease_outcome sectionPath file p with
    ⟨e, s', hl, -⟩ | ⟨entry, he, hl, hn⟩ | ⟨entry, q, s', hl, hn, hr, htaken, hv, hnew⟩
  all_goals
    rw [hl] at h
    cases h
  · exact .inl ⟨entry, he, rfl, hn, rfl⟩
  · exact .inr ⟨entry, q, rfl, hn, rfl, htaken, hr, hv, hnew⟩

/-- What one entry does when it succeeds: a check, a lease, a reading and a writing. -/
theorem applyEntry_eq_ok {registry : Registry} {s : Staged} {p p' : Progress}
    (h : applyEntry registry s p = (.ok (), p')) :
    ∃ target store₁ l p₂ d store₃ text store₄,
      Access.checkWrite registry none s.scope s.name s.mutation p.store = (.ok target, store₁) ∧
      lease s.sectionPath s.file { p with store := store₁ } = (.ok l, p₂) ∧
      Access.load none s.file p₂.store = (.ok d, store₃) ∧
      (s.mutation.apply s.name d).render = .ok text ∧
      Store.write l text store₃ = (.ok (), store₄) ∧ p' = { p₂ with store := store₄ } := by
  simp only [applyEntry] at h
  obtain ⟨target, p₁, hcheck, h⟩ := bind_eq_ok h
  rw [onStore_apply] at hcheck
  rcases hc : Access.checkWrite registry none s.scope s.name s.mutation p.store with ⟨r, store₁⟩
  rw [hc] at hcheck
  cases hcheck
  by_cases htarget : target.file = s.file
  · rw [if_neg (not_not_intro htarget), htarget] at h
    obtain ⟨l, p₂, hlease, h⟩ := bind_eq_ok h
    obtain ⟨d, p₃, hload, h⟩ := bind_eq_ok h
    rw [onStore_apply] at hload
    rcases hl : Access.load none s.file p₂.store with ⟨r, store₃⟩
    rw [hl] at hload
    cases hload
    rcases hrender : (s.mutation.apply s.name d).render with fault | text
    · rw [hrender] at h
      cases h
    · rw [hrender] at h
      dsimp only at h
      rw [onStore_apply, Access.onSection_apply] at h
      rcases hw : Store.write l text store₃ with ⟨e | u, store₄⟩
      · dsimp only at h
        rw [hw] at h
        cases h
      · dsimp only at h
        rw [hw] at h
        cases h
        exact ⟨target, store₁, l, p₂, d, store₃, text, store₄, rfl, hlease, hl, hrender, hw, rfl⟩
  · rw [if_pos htarget] at h
    cases h

structure Written (s₀ : Store) (files : List String) (done : List Staged) (p : Progress) :
    Prop where
  underWay : UnderWay s₀ files p
  checked : ∀ s ∈ done, ∀ v, s.mutation.content = some (.replace v) →
    v.isObject = true ∧ v.isRepresentable = true
  leased : ∀ s ∈ done, ∃ e ∈ p.journal, e.lease.file = s.file
  written : ∀ e ∈ p.journal, ∀ q, Place.ofPath? s₀.root e.lease.file = some q → ∃ after,
    Staged.rewriteAll (done.filter (·.file == e.lease.file)) e.before = .ok after ∧
      p.store.tree.get? q.names = textNode after

namespace Written

variable {s₀ : Store} {files : List String} {done : List Staged} {p : Progress}

theorem start (s₀ : Store) (files : List String) : Written s₀ files [] ⟨s₀, []⟩ where
  underWay := UnderWay.start s₀ files
  checked := fun s hs => by cases hs
  leased := fun s hs => by cases hs
  written := fun e he => by cases he

theorem of_files (h : Written s₀ files done p) (s : Store) (hs : s.files = p.store.files) :
    Written s₀ files done { p with store := s } where
  underWay := h.underWay.of_files s hs
  checked := h.checked
  leased := h.leased
  written e he q hq := by
    obtain ⟨after, hall, hget⟩ := h.written e he q hq
    refine ⟨after, hall, ?_⟩
    rw [← hget]
    exact congrArg (·.get? q.names) (Store.files_eq _ _ hs).2

/-- A lease that joins the journal notes what no entry has written yet. -/
theorem leasing (h : Written s₀ files done p) (ha : Apart s₀.root s₀.tree files)
    {sectionPath file : String} {l : Lease} {p' : Progress} (hf : file ∈ files)
    (hl : lease sectionPath file p = (.ok l, p')) :
    Written s₀ files done p' ∧ ∃ e ∈ p'.journal, e.lease = l ∧ e.lease.file = file := by
  rcases lease_eq_ok hl with
    ⟨e, he, heq, hfile, rfl⟩ | ⟨e, q, heq, hfile, hjournal, htaken, hroot, hview, hnew⟩
  · exact ⟨h, e, he, heq, hfile⟩
  · have he : e ∈ p'.journal := by
      rw [hjournal]
      exact List.mem_cons_self
    refine ⟨?_, e, he, heq, hfile⟩
    rw [h.underWay.root] at htaken
    have hunder : UnderWay s₀ files p' := by
      have hleased := h.underWay.leased ha e (by rw [hfile]; exact hf) q htaken p'.store hroot hview
      rwa [← hjournal] at hleased
    refine ⟨hunder, h.checked, ?_, ?_⟩
    · intro s hs
      obtain ⟨e', he', hs'⟩ := h.leased s hs
      refine ⟨e', ?_, hs'⟩
      rw [hjournal]
      exact List.mem_cons_of_mem _ he'
    · intro e' he' q' hq'
      have hlock : e.lease.lock ≠ q'.names := hunder.lock_ne_names ha e e' he he' q' hq'
      rw [hview, if_neg hlock]
      rw [hjournal] at he'
      rcases List.mem_cons.mp he' with rfl | he'
      · -- nothing was done to the file before its lease was taken
        have hnone : done.filter (·.file == e'.lease.file) = [] := by
          rw [List.filter_eq_nil_iff]
          intro s hs heq'
          obtain ⟨e'', he'', hs''⟩ := h.leased s hs
          apply hnew e'' he''
          rw [hs'', ← hfile]
          exact eq_of_beq heq'
        rw [hnone]
        obtain rfl := Option.some.inj (hq'.symm.trans htaken.place)
        exact ⟨e'.before, rfl, htaken.before⟩
      · exact h.written e' he' q' hq'

theorem wrote (h : Written s₀ files done p) (ha : Apart s₀.root s₀.tree files) {s : Staged}
    {e : JournalEntry} (he : e ∈ p.journal) (hfile : e.lease.file = s.file) {q : Place}
    (hq : Place.ofPath? s₀.root e.lease.file = some q) {text : String} {store : Store}
    (hchecked : ∀ v, s.mutation.content = some (.replace v) →
      v.isObject = true ∧ v.isRepresentable = true)
    (hall : Staged.rewriteAll (done.filter (·.file == e.lease.file) ++ [s]) e.before =
      .ok (some text))
    (hroot : store.root = p.store.root)
    (hview : ∀ path, store.tree.get? path =
      if q.names = path then some (.file (.text text)) else p.store.tree.get? path) :
    Written s₀ files (done ++ [s]) { p with store := store } where
  underWay := h.underWay.changed ha e he q hq store _ (by simp) hroot hview
  checked c hc v hv := by
    rcases List.mem_append.mp hc with hc | hc
    · exact h.checked c hc v hv
    · rw [List.mem_singleton.mp hc] at hv
      exact hchecked v hv
  leased c hc := by
    rcases List.mem_append.mp hc with hc | hc
    · exact h.leased c hc
    · exact ⟨e, he, by rw [hfile, List.mem_singleton.mp hc]⟩
  written e' he' q' hq' := by
    rw [hview, List.filter_append]
    by_cases hsame : e'.lease.file = s.file
    · -- two leases of one file are one lease
      have hone : [s].filter (·.file == e'.lease.file) = [s] := by
        rw [List.filter_singleton, hsame, beq_self_eq_true]
        rfl
      have hplace : q' = q := by
        rw [hsame, ← hfile, hq] at hq'
        exact (Option.some.inj hq').symm
      have heq : e' = e :=
        h.underWay.names_injective e' e he' he q' q hq' hq (congrArg Place.names hplace)
      rw [hone, heq, hplace, if_pos rfl]
      exact ⟨some text, hall, rfl⟩
    · have hnone : [s].filter (·.file == e'.lease.file) = [] := by
        rw [List.filter_eq_nil_iff]
        intro c hc heq
        rw [List.mem_singleton.mp hc] at heq
        exact hsame (eq_of_beq heq).symm
      have hother : q.names ≠ q'.names := by
        intro hn
        apply hsame
        rw [h.underWay.names_injective e' e he' he q' q hq' hq hn.symm, hfile]
      rw [hnone, List.append_nil, if_neg hother]
      exact h.written e' he' q' hq'

/-- One more entry is written. -/
theorem step (h : Written s₀ files done p) (ha : Apart s₀.root s₀.tree files) {registry : Registry}
    {s : Staged} {p' : Progress} (hf : s.file ∈ files)
    (hs : applyEntry registry s p = (.ok (), p')) : Written s₀ files (done ++ [s]) p' := by
  obtain ⟨target, store₁, l, p₂, d, store₃, text, store₄, hcheck, hlease, hload, hrender, hwrite,
    rfl⟩ := applyEntry_eq_ok hs
  have h₁ := h.of_files store₁ ((Access.keeps_checkWrite _ _ _ _ _).of_eq hcheck)
  obtain ⟨h₂, e, he, rfl, hfile⟩ := h₁.leasing ha hf hlease
  have h₃ := h₂.of_files store₃ ((Access.keeps_load _ _).of_eq hload)
  obtain ⟨q, hq⟩ := (h₂.underWay.taken e he).2
  obtain ⟨after, hall, hafter⟩ := h₂.written e he q hq.place
  -- the document that is read is the one that the entries before have left
  obtain ⟨q', before, hq', hbefore, hget⟩ := load_eq_ok hload
  rw [h₂.underWay.root, ← hfile, hq.place] at hq'
  obtain rfl := Option.some.inj hq'
  have hnode := hget ((FileTree.walk_congr _ _ _ _ h₂.underWay.sameDirectories).1 hq.walked)
  obtain rfl : after = before := textNode_injective _ _ (hafter.symm.trans hnode)
  have hrewrite : s.rewrite after = .ok text := by
    simp only [Staged.rewrite]
    rw [hbefore]
    exact hrender
  rcases h₃.underWay.write_cases ha e he text with
    ⟨fault, s', hw, -, -⟩ | ⟨r, s', hr, hw, hroot, hview⟩
  · rw [hw] at hwrite
    cases hwrite
  · rw [hw] at hwrite
    cases hwrite
    apply h₃.wrote ha he hfile hr (checkWrite_content hcheck) _ hroot hview
    rw [Staged.rewriteAll_concat, hall]
    change (s.rewrite after).map some = _
    rw [hrewrite]
    rfl

theorem run (h : Written s₀ files done p) (ha : Apart s₀.root s₀.tree files) {registry : Registry}
    {entries : List Staged} {p' : Progress} (hf : ∀ s ∈ entries, s.file ∈ files)
    (hs : applyEntries registry entries p = (.ok (), p')) :
    Written s₀ files (done ++ entries) p' := by
  induction entries generalizing done p with
  | nil =>
    cases hs
    rw [List.append_nil]
    exact h
  | cons s entries ih =>
    obtain ⟨⟨⟩, p₁, hone, hrest⟩ := bind_eq_ok hs
    have h₁ := h.step ha (hf s List.mem_cons_self) hone
    have hall := ih h₁ (fun s hs => hf s (List.mem_cons_of_mem _ hs)) hrest
    rwa [List.append_assoc] at hall

end Written

theorem releaseAll_view (journal : List JournalEntry) (s : Store)
    (hlocks : (journal.map (·.lease.lock)).Nodup)
    (hlocked : ∀ e ∈ journal, e.lease.lock ≠ [] ∧ s.tree.walk [] e.lease.lock.dropLast = .ok () ∧
      s.tree.entry e.lease.lock = .ok (.file (.text ""))) (path : Names) :
    (releaseAll journal s).tree.get? path =
      if ∃ e ∈ journal, e.lease.lock = path then none else s.tree.get? path := by
  induction journal generalizing s with
  | nil => exact (if_neg fun ⟨e, he, _⟩ => List.not_mem_nil he).symm
  | cons e rest ih =>
    obtain ⟨hfresh, hrest⟩ := List.nodup_cons.mp hlocks
    obtain ⟨hne, hwalk, hentry⟩ := hlocked e List.mem_cons_self
    have hrelease := Store.release_apply e.lease s _ hwalk hentry
    have hview := fun path => FileTree.get?_erase s.tree e.lease.lock path hne
    have hfile := FileTree.entry_eq_ok _ _ _ hentry
    have hdirectories : FileTree.SameDirectories s.tree (s.tree.erase e.lease.lock) := by
      intro path
      rw [hview]
      split
      · rename_i heq
        rw [← heq, hfile]
        exact ⟨fun hd => (by cases hd), fun hd => (by cases hd)⟩
      · exact Iff.rfl
    simp only [releaseAll, after]
    rw [hrelease, ih _ hrest]
    · dsimp only
      rw [hview]
      by_cases hlock : e.lease.lock = path
      · rw [if_pos hlock, ite_self, if_pos ⟨e, List.mem_cons_self, hlock⟩]
      · rw [if_neg hlock]
        congr 1
        rw [List.exists_mem_cons_iff]
        exact propext (or_iff_right hlock).symm
    · intro e' he'
      obtain ⟨hne', hwalk', hentry'⟩ := hlocked e' (List.mem_cons_of_mem _ he')
      refine ⟨hne', (FileTree.walk_congr _ _ _ _ hdirectories).1 hwalk', ?_⟩
      rw [← hentry']
      apply FileTree.entry_congr
      rw [hview, if_neg]
      intro heq
      exact hfresh (List.mem_map.mpr ⟨e', he', heq.symm⟩)

end LayeredConfig.Journal
