import LayeredConfig.Proofs.Commit.Effect

/-!
# What a commit leaves at one path

A commit that is seen from one path shows there what was there first, or what one of its entries
has written, whether it succeeds, fails, or fails once more on the way back. So what each entry
keeps of a file is kept by the commit.

A commit rewrites whole files, and a section goes through the text of its file again whenever
another section of the file changes. `Descends` says what can become of a file that way: it is
the first one, or it holds the text of a document that says the same about the section, but for
what fades when it is read again.
-/

set_option autoImplicit false

namespace LayeredConfig

open Run Journal

namespace LevelDocument

def about (d : LevelDocument) (name : String) : Option Value × OverrideMode :=
  (d.section? name, d.mode name)

def ofNode? : Option Node → Option LevelDocument
  | none => some .empty
  | some (.file (.text text)) => (parse text).toOption
  | some _ => none

theorem ofNode?_textNode (before : Option String) :
    ofNode? (textNode before) = (ofFile before).toOption := by
  cases before with
  | none => rfl
  | some text => rfl

theorem stays_of_node (node : Option Node) (d : LevelDocument) (h : ofNode? node = some d) :
    d.Storable ∧ d.settled = d := by
  match node, h with
  | none, h =>
    cases h
    exact ⟨storable_empty, rfl⟩
  | some (.file (.text text)), h =>
    simp only [ofNode?] at h
    rcases hp : parse text with fault | d'
    · rw [hp] at h
      cases h
    · rw [hp] at h
      cases h
      exact ⟨storable_of_parse text d hp, (parse_stays text d hp).2.1⟩

end LevelDocument

open LevelDocument

def Rewritten (name : String) (first node : Option Node) : Prop :=
  ∃ d d' text, ofNode? first = some d ∧ KeptFrom name d d' ∧ d'.Storable ∧
    d'.render = .ok text ∧ node = some (.file (.text text))

def Descends (name : String) (first node : Option Node) : Prop :=
  node = first ∨ Rewritten name first node

variable {name : String} {first node : Option Node}

theorem Rewritten.read (h : Rewritten name first node) {back : LevelDocument}
    (hback : ofNode? node = some back) :
    ∃ d, ofNode? first = some d ∧ back.mode name = d.mode name ∧
      Option.Rel (fun v w => v.Fades w) (d.section? name) (back.section? name) := by
  obtain ⟨d, d', text, hfirst, hkept, hd, hrender, rfl⟩ := h
  simp only [ofNode?] at hback
  rcases hp : parse text with fault | d''
  · rw [hp] at hback
    cases hback
  · rw [hp] at hback
    cases hback
    exact ⟨d, hfirst, hkept.reread hd.toWellFormed hrender hp⟩

/-- A rewritten file says the same about the section just when that is undated. -/
theorem Rewritten.about_eq_iff (h : Rewritten name first node) {d back : LevelDocument}
    (hfirst : ofNode? first = some d) (hback : ofNode? node = some back) :
    back.about name = d.about name ↔ ∀ v, d.section? name = some v → v.isUndated = true := by
  obtain ⟨d', hfirst', hmode, hcontent⟩ := h.read hback
  obtain rfl := Option.some.inj (hfirst.symm.trans hfirst')
  have hstays : ∀ (node : Option Node) (d : LevelDocument), ofNode? node = some d →
      ∀ v, d.section? name = some v → v.settled = v := by
    intro node d hd v hv
    have hsettled := d.section?_settled name
    rw [(stays_of_node node d hd).2, hv] at hsettled
    exact (Option.some.inj hsettled).symm
  have hsettled := hstays first d hfirst
  have hsettled' := hstays node back hback
  simp only [about, Prod.mk.injEq, hmode, and_true]
  revert hcontent hsettled hsettled'
  generalize d.section? name = stored
  generalize back.section? name = found
  rintro (⟨hfades⟩ | _) hsettled hsettled'
  · rename_i v w
    have hiff := hfades.settled_eq_iff
    rw [hsettled v rfl, hsettled' w rfl] at hiff
    simpa using hiff
  · simp

theorem Descends.about_eq (h : Descends name first node) {back : LevelDocument}
    (hback : ofNode? node = some back)
    (hu : ∀ d v, ofNode? first = some d → d.section? name = some v → v.isUndated = true) :
    ∃ d, ofNode? first = some d ∧ back.about name = d.about name := by
  rcases h with rfl | h
  · exact ⟨back, hback, rfl⟩
  · obtain ⟨d, hfirst, -⟩ := h.read hback
    exact ⟨d, hfirst, (h.about_eq_iff hfirst hback).2 fun v => hu d v hfirst⟩

/-- A node that is read, changed elsewhere and written again has been rewritten. -/
theorem Descends.rewritten (h : Descends name first node) {d : LevelDocument}
    (hread : ofNode? node = some d) {m : Mutation} (hm : m.Storable) {other : String}
    (hother : other ≠ name) {text : String} (hr : (m.apply other d).render = .ok text) :
    Rewritten name first (some (.file (.text text))) := by
  have hd := (stays_of_node node d hread).1
  have hkept : ∃ d₀, ofNode? first = some d₀ ∧ KeptFrom name d₀ d := by
    rcases h with rfl | h
    · exact ⟨d, hread, KeptFrom.refl name d⟩
    · obtain ⟨d₀, hfirst, hmode, hcontent⟩ := h.read hread
      refine ⟨d₀, hfirst, hmode, ?_⟩
      revert hcontent
      generalize d₀.section? name = stored
      generalize d.section? name = found
      rintro (⟨hfades⟩ | _)
      · exact Option.Rel.some (.inr hfades)
      · exact Option.Rel.none
  obtain ⟨d₀, hfirst, hkept⟩ := hkept
  exact ⟨d₀, _, text, hfirst, hkept.changed m hother, hm.apply hd, hr, rfl⟩

namespace Journal

structure Clear (root : Names) (files : List String) (path : Names) : Prop where
  temporary : ∀ f ∈ files, ∀ q, Place.ofPath? root f = some q → (q.sibling ".tmp").names ≠ path
  lock : ∀ f ∈ files, ∀ q, Place.ofPath? root f = some q → (q.sibling ".lock").names ≠ path

instance (root : Names) (files : List String) (path : Names) : Decidable (Clear root files path) :=
  decidable_of_iff
    ((∀ f ∈ files, ∀ q, Place.ofPath? root f = some q → (q.sibling ".tmp").names ≠ path) ∧
      ∀ f ∈ files, ∀ q, Place.ofPath? root f = some q → (q.sibling ".lock").names ≠ path)
    ⟨fun ⟨ht, hl⟩ => ⟨ht, hl⟩, fun ⟨ht, hl⟩ => ⟨ht, hl⟩⟩

end Journal

structure StagedSet.SparesPlace (set : StagedSet) (root : Names) (file : String) (p : Place) :
    Prop where
  oneName : ∀ f ∈ set.entries.map (·.file), ∀ q, Place.ofPath? root f = some q →
    q.names = p.names → f = file
  clear : Clear root (set.entries.map (·.file)) p.names

instance (set : StagedSet) (root : Names) (file : String) (p : Place) :
    Decidable (set.SparesPlace root file p) :=
  decidable_of_iff ((∀ f ∈ set.entries.map (·.file), ∀ q, Place.ofPath? root f = some q →
      q.names = p.names → f = file) ∧ Clear root (set.entries.map (·.file)) p.names)
    ⟨fun ⟨hn, hc⟩ => ⟨hn, hc⟩, fun ⟨hn, hc⟩ => ⟨hn, hc⟩⟩

namespace Journal

variable {good wrote : Option Node → Prop}

def Overwrites (good wrote : Option Node → Prop) (s : Staged) : Prop :=
  ∀ node d text, good node → ofNode? node = some d → s.mutation.Storable →
    (s.mutation.apply s.name d).render = .ok text → wrote (some (.file (.text text)))

structure Spares (s₀ : Store) (files : List String) (path : Names) (good : Option Node → Prop)
    (p : Progress) : Prop where
  root : p.store.root = s₀.root
  node : good (p.store.tree.get? path)
  taken : ∀ e ∈ p.journal, e.lease.file ∈ files ∧ ∃ q,
    Place.ofPath? s₀.root e.lease.file = some q ∧ e.lease.lock = (q.sibling ".lock").names ∧
      (q.names = path → good (textNode e.before))

namespace Spares

variable {s₀ : Store} {files : List String} {path : Names} {p : Progress}

theorem start (s₀ : Store) (files : List String) (path : Names)
    (hgood : good (s₀.tree.get? path)) : Spares s₀ files path good ⟨s₀, []⟩ where
  root := rfl
  node := hgood
  taken := by simp

theorem of_view (h : Spares s₀ files path good p) (s : Store) (hr : s.root = p.store.root)
    (hv : s.tree.get? path = p.store.tree.get? path) :
    Spares s₀ files path good { p with store := s } where
  root := hr.trans h.root
  node := by
    change good (s.tree.get? path)
    rw [hv]
    exact h.node
  taken := h.taken

theorem reading (h : Spares s₀ files path good p) {α : Type} {x : ConfigM α}
    (hx : Keeps Store.files x) {r : Except ConfigError α} {s : Store} (he : x p.store = (r, s)) :
    Spares s₀ files path good { p with store := s } := by
  obtain ⟨hr, ht⟩ := Store.files_eq _ _ (hx.of_eq he)
  exact h.of_view s hr (by rw [ht])

theorem lease_cases (h : Spares s₀ files path good p) (hc : Clear s₀.root files path)
    (sectionPath file : String) (hf : file ∈ files) :
    (∃ e p', lease sectionPath file p = (.error e, p') ∧ Spares s₀ files path good p' ∧
        p'.store.tree.get? path = p.store.tree.get? path) ∨
      ∃ entry p', lease sectionPath file p = (.ok entry.lease, p') ∧ entry ∈ p'.journal ∧
        entry.lease.file = file ∧ Spares s₀ files path good p' ∧
        p'.store.tree.get? path = p.store.tree.get? path := by
  rcases lease_outcome sectionPath file p with
    ⟨e, s', hl, hr, hv⟩ | ⟨entry, he, hl, hn⟩ | ⟨entry, q, s', hl, hn, hr, htaken, hv, -⟩
  · exact .inl ⟨e, _, hl, h.of_view s' hr (hv path), hv path⟩
  · exact .inr ⟨entry, p, hl, he, hn, h, rfl⟩
  · have hplace := htaken.place
    rw [h.root] at hplace
    have hview : s'.tree.get? path = p.store.tree.get? path := by
      rw [hv, if_neg]
      rw [htaken.lock]
      exact hc.lock file hf q (hn ▸ hplace)
    refine .inr ⟨entry, _, hl, List.mem_cons_self, hn, ⟨hr.trans h.root, ?_, ?_⟩, hview⟩
    · change good (s'.tree.get? path)
      rw [hview]
      exact h.node
    · intro e he
      rcases List.mem_cons.mp he with rfl | he
      · refine ⟨hn ▸ hf, q, hplace, htaken.lock, fun hq => ?_⟩
        have hbefore : textNode e.before = p.store.tree.get? path := by
          rw [← hq]
          exact htaken.before.symm
        rw [hbefore]
        exact h.node
      · exact h.taken e he

theorem write_cases (h : Spares s₀ files path good p) (hc : Clear s₀.root files path)
    {entry : JournalEntry} (he : entry ∈ p.journal) (text : String) :
    (∃ e s', Store.write entry.lease text p.store = (.error e, s') ∧ s'.root = p.store.root ∧
        s'.tree.get? path = p.store.tree.get? path) ∨
      ∃ q s', Place.ofPath? s₀.root entry.lease.file = some q ∧
        Store.write entry.lease text p.store = (.ok (), s') ∧ s'.root = p.store.root ∧
        q.Opens p.store.tree ∧
        s'.tree.get? path =
          if q.names = path then some (.file (.text text)) else p.store.tree.get? path := by
  have hf := (h.taken entry he).1
  rw [← h.root]
  refine Store.write_at entry.lease text p.store path fun q hq => ?_
  rw [h.root] at hq
  exact hc.temporary _ hf q hq

theorem wrote_of_load (h : Spares s₀ files path good p) {s : Staged} {d : LevelDocument}
    {s' : Store} (hload : Access.load none s.file p.store = (.ok d, s')) {q : Place}
    (hq : Place.ofPath? s₀.root s.file = some q) (hpath : q.names = path) (ho : q.Opens s'.tree)
    (hover : Overwrites good wrote s) (hm : s.mutation.Storable) {text : String}
    (hrender : (s.mutation.apply s.name d).render = .ok text) :
    wrote (some (.file (.text text))) := by
  obtain ⟨q', before, hq', hbefore, hnode⟩ := load_eq_ok hload
  rw [h.root, hq] at hq'
  obtain rfl := Option.some.inj hq'
  have hv : s'.tree = p.store.tree :=
    (Store.files_eq _ _ ((Access.keeps_load none s.file).of_eq hload)).2
  have hread : ofNode? (p.store.tree.get? path) = some d := by
    rw [← hpath, hnode (hv ▸ ho.walked), ofNode?_textNode, hbefore]
    rfl
  exact hover _ d text h.node hread hm hrender

/-- One entry, written or refused. If it is written, and its file is at the path, then that
counts as written; otherwise what was written before is so still. -/
theorem applyEntry_cases (h : Spares s₀ files path good p) (hc : Clear s₀.root files path)
    (hwrote : ∀ node, wrote node → good node) (registry : Registry) (s : Staged)
    (hf : s.file ∈ files) (hm : s.mutation.WellFormed)
    (hover : ∀ q, Place.ofPath? s₀.root s.file = some q → q.names = path →
      Overwrites good wrote s) :
    (∃ e p', applyEntry registry s p = (.error e, p') ∧ Spares s₀ files path good p') ∨
      ∃ p', applyEntry registry s p = (.ok (), p') ∧ Spares s₀ files path good p' ∧
        ((∃ q, Place.ofPath? s₀.root s.file = some q ∧ q.names = path) ∨
            wrote (p.store.tree.get? path) → wrote (p'.store.tree.get? path)) := by
  simp only [applyEntry]
  rw [bind_apply, onStore_apply]
  rcases hcheck : Access.checkWrite registry none s.scope s.name s.mutation p.store with
    ⟨e | target, s₁⟩
  all_goals have h₁ := h.reading (Access.keeps_checkWrite _ _ _ _ _) hcheck
  · exact .inl ⟨_, _, rfl, h₁⟩
  have hv₁ : s₁.tree = p.store.tree :=
    (Store.files_eq _ _ ((Access.keeps_checkWrite _ _ _ _ _).of_eq hcheck)).2
  dsimp only
  by_cases ht : target.file = s.file
  swap
  · rw [if_pos ht]
    exact .inl ⟨_, _, rfl, h₁⟩
  rw [if_neg (not_not_intro ht), bind_apply, ht]
  -- from here on the entry is under a lease, and only its file and what is beside it can change
  rcases h₁.lease_cases hc s.sectionPath s.file hf with
    ⟨e, p₂, hl, h₂, -⟩ | ⟨entry, p₂, hl, he, hn, h₂, hv₂⟩
  · rw [hl]
    exact .inl ⟨_, _, rfl, h₂⟩
  rw [hl]
  dsimp only
  rw [bind_apply, onStore_apply]
  rcases hload : Access.load none s.file p₂.store with ⟨e | d, s₃⟩
  all_goals have h₃ := h₂.reading (Access.keeps_load none s.file) hload
  · exact .inl ⟨_, _, rfl, h₃⟩
  have hv₃ : s₃.tree = p₂.store.tree :=
    (Store.files_eq _ _ ((Access.keeps_load none s.file).of_eq hload)).2
  dsimp only
  rcases hrender : (s.mutation.apply s.name d).render with fault | text
  · exact .inl ⟨_, _, rfl, h₃⟩
  dsimp only
  rw [onStore_apply, Access.onSection_apply]
  rcases h₃.write_cases hc he text with ⟨e, s', hw, hr, hv⟩ | ⟨q, s', hq, hw, hr, hopens, hv⟩
  · dsimp only at hw ⊢
    rw [hw]
    exact .inl ⟨_, _, rfl, h₃.of_view s' hr hv⟩
  · dsimp only at hw hv hopens ⊢
    rw [hw]
    rw [hn] at hq
    have hstorable : s.mutation.Storable := fun v hv =>
      ⟨hm.value v hv, checkWrite_content hcheck v hv⟩
    have hwritten : q.names = path → wrote (some (.file (.text text))) := fun hpath =>
      h₂.wrote_of_load hload hq hpath hopens (hover q hq hpath) hstorable hrender
    refine .inr ⟨_, rfl, ⟨hr.trans h₃.root, ?_, h₃.taken⟩, ?_⟩
    · change good (s'.tree.get? path)
      rw [hv]
      split
      · exact hwrote _ (hwritten ‹_›)
      · exact h₃.node
    · intro hbefore
      change wrote (s'.tree.get? path)
      rw [hv]
      split
      · exact hwritten ‹_›
      · rename_i hpath
        rcases hbefore with ⟨q', hq', hpath'⟩ | hbefore
        · obtain rfl := Option.some.inj (hq.symm.trans hq')
          exact absurd hpath' hpath
        · rw [hv₃, hv₂, hv₁]
          exact hbefore

/-- All entries, or those before the first that is refused. -/
theorem applyEntries_cases (h : Spares s₀ files path good p) (hc : Clear s₀.root files path)
    (hwrote : ∀ node, wrote node → good node) (registry : Registry) (entries : List Staged)
    (hentries : ∀ s ∈ entries, s.file ∈ files ∧ s.mutation.WellFormed ∧
      ∀ q, Place.ofPath? s₀.root s.file = some q → q.names = path → Overwrites good wrote s) :
    (∃ e p', applyEntries registry entries p = (.error e, p') ∧ Spares s₀ files path good p') ∨
      ∃ p', applyEntries registry entries p = (.ok (), p') ∧ Spares s₀ files path good p' ∧
        ((∃ s ∈ entries, ∃ q, Place.ofPath? s₀.root s.file = some q ∧ q.names = path) ∨
            wrote (p.store.tree.get? path) → wrote (p'.store.tree.get? path)) := by
  induction entries generalizing p with
  | nil =>
    refine .inr ⟨p, rfl, h, ?_⟩
    rintro (⟨s, hs, -⟩ | hbefore)
    · cases hs
    · exact hbefore
  | cons s entries ih =>
    simp only [applyEntries]
    rw [bind_apply]
    obtain ⟨hf, hm, hover⟩ := hentries s List.mem_cons_self
    rcases h.applyEntry_cases hc hwrote registry s hf hm hover with
      ⟨e, p₁, he, h₁⟩ | ⟨p₁, he, h₁, hr₁⟩
    · rw [he]
      exact .inl ⟨e, p₁, rfl, h₁⟩
    · rw [he]
      dsimp only
      rcases ih h₁ fun s hs => hentries s (List.mem_cons_of_mem _ hs) with
        hfail | ⟨p₂, hok, h₂, hr₂⟩
      · exact .inl hfail
      · refine .inr ⟨p₂, hok, h₂, fun hany => hr₂ ?_⟩
        rcases hany with ⟨s', hs', hq⟩ | hbefore
        · rcases List.mem_cons.mp hs' with rfl | hs'
          · exact .inr (hr₁ (.inl hq))
          · exact .inl ⟨s', hs', hq⟩
        · exact .inr (hr₁ (.inr hbefore))

/-- Putting a file back leaves the path alone, or puts there what was noted of it. -/
theorem restore (h : Spares s₀ files path good p) (hc : Clear s₀.root files path)
    {entry : JournalEntry} (he : entry ∈ p.journal) :
    Spares s₀ files path good { p with store := Journal.restore entry p.store } := by
  obtain ⟨hf, q, hq, -, hbefore⟩ := h.taken entry he
  have hput : ∀ s' : Store, s'.root = p.store.root →
      s'.tree.get? path = (if q.names = path then textNode entry.before
        else p.store.tree.get? path) → Spares s₀ files path good { p with store := s' } := by
    intro s' hr hv
    refine ⟨hr.trans h.root, ?_, h.taken⟩
    change good (s'.tree.get? path)
    rw [hv]
    split
    · exact hbefore ‹_›
    · exact h.node
  simp only [Journal.restore, after]
  rcases hb : entry.before with _ | text
  · dsimp only
    rcases Store.remove_cases entry.lease p.store with ⟨e, s', hw, hs⟩ | ⟨r, s', hr, hw, hroot, ht⟩
    · rw [hw]
      obtain ⟨hroot, htree⟩ := Store.files_eq _ _ hs
      exact h.of_view s' hroot (by rw [htree])
    · rw [hw]
      rw [h.root, hq] at hr
      obtain rfl := Option.some.inj hr
      rcases ht with ⟨ht, -⟩ | ⟨-, hd, ht⟩
      · exact h.of_view s' hroot (by rw [ht])
      · apply hput s' hroot
        have hne : q.names ≠ [] := fun hn => hd (by rw [hn]; rfl)
        rw [ht, FileTree.get?_erase _ _ _ hne, hb]
        rfl
  · dsimp only
    rcases h.write_cases hc he text with ⟨e, s', hw, hr, hv⟩ | ⟨r, s', hr, hw, hroot, -, hv⟩
    · rw [hw]
      exact h.of_view s' hr hv
    · rw [hw]
      obtain rfl := Option.some.inj (hq.symm.trans hr)
      apply hput s' hroot
      rw [hv, hb]
      rfl

theorem release (h : Spares s₀ files path good p) (hc : Clear s₀.root files path)
    {entry : JournalEntry} (he : entry ∈ p.journal) :
    (after (Store.release entry.lease) p.store).root = p.store.root ∧
      (after (Store.release entry.lease) p.store).tree.get? path = p.store.tree.get? path := by
  obtain ⟨hf, q, hq, hlock, -⟩ := h.taken entry he
  obtain ⟨s', hs, hroot, htree⟩ := Store.release_tree entry.lease p.store
  simp only [after]
  rw [hs]
  refine ⟨hroot, ?_⟩
  dsimp only
  rcases htree with htree | ⟨-, htree⟩
  · rw [htree]
  · rw [htree, hlock, FileTree.get?_erase _ _ _ (q.sibling_ne_nil ".lock"),
      if_neg (hc.lock _ hf q hq)]

theorem drop (entry : JournalEntry) (rest : List JournalEntry) (s : Store)
    (h : Spares s₀ files path good ⟨s, entry :: rest⟩) : Spares s₀ files path good ⟨s, rest⟩ where
  root := h.root
  node := h.node
  taken := fun e he => h.taken e (List.mem_cons_of_mem _ he)

end Spares

variable {s₀ : Store} {files : List String} {path : Names}

theorem rollback_at (journal : List JournalEntry) (s : Store)
    (h : Spares s₀ files path good ⟨s, journal⟩) (hc : Clear s₀.root files path) :
    good ((rollback journal s).tree.get? path) := by
  induction journal generalizing s with
  | nil => exact h.node
  | cons entry rest ih =>
    have h₁ := h.restore hc List.mem_cons_self
    obtain ⟨hroot, hview⟩ := h₁.release hc List.mem_cons_self
    exact ih _ (h₁.of_view _ hroot hview).drop

theorem releaseAll_at (journal : List JournalEntry) (s : Store)
    (h : Spares s₀ files path good ⟨s, journal⟩) (hc : Clear s₀.root files path) :
    (releaseAll journal s).tree.get? path = s.tree.get? path := by
  induction journal generalizing s with
  | nil => rfl
  | cons entry rest ih =>
    obtain ⟨hroot, hview⟩ := h.release hc List.mem_cons_self
    exact (ih _ (h.of_view _ hroot hview).drop).trans hview

/-- A commit, whether it succeeds or fails, leaves at a path what is good, if its entries for
the path do; a successful one has written the path if one of them is for it. -/
theorem commit_at (good wrote : Option Node → Prop) (registry : Registry) (entries : List Staged)
    (s : Store)
    (hc : Clear s.root (entries.map (·.file)) path) (hgood : good (s.tree.get? path))
    (hwrote : ∀ node, wrote node → good node)
    (hentries : ∀ e ∈ entries, e.mutation.WellFormed ∧
      ∀ q, Place.ofPath? s.root e.file = some q → q.names = path → Overwrites good wrote e) :
    good ((commit registry entries s).2.tree.get? path) ∧
      ((commit registry entries s).1 = .ok () →
        (∃ e ∈ entries, ∃ q, Place.ofPath? s.root e.file = some q ∧ q.names = path) →
        wrote ((commit registry entries s).2.tree.get? path)) := by
  simp only [commit]
  rcases (Spares.start s _ path hgood).applyEntries_cases hc hwrote registry entries fun e he =>
      ⟨List.mem_map_of_mem he, hentries e he⟩ with ⟨e, p, hp, h⟩ | ⟨p, hp, h, hr⟩
  · rw [hp]
    refine ⟨rollback_at p.journal p.store h hc, fun hok => ?_⟩
    cases hok
  · rw [hp]
    dsimp only
    rw [releaseAll_at p.journal p.store h hc]
    exact ⟨h.node, fun _ hany => hr (.inl hany)⟩

theorem commit_elsewhere (registry : Registry) (entries : List Staged) (s : Store)
    (hc : Clear s.root (entries.map (·.file)) path)
    (hentries : ∀ e ∈ entries, e.mutation.WellFormed ∧
      ∀ q, Place.ofPath? s.root e.file = some q → q.names ≠ path) :
    (commit registry entries s).2.tree.get? path = s.tree.get? path := by
  refine (commit_at (· = s.tree.get? path) (fun _ => False) registry entries s hc rfl
    (fun _ hfalse => hfalse.elim) fun e he => ⟨(hentries e he).1, fun q hq hpath => ?_⟩).1
  exact absurd hpath ((hentries e he).2 q hq)

/-- A commit that does not change a section leaves, where its file is, what descends from the
node that was there, whether it succeeds or fails; if it succeeds and a file of the set is there,
then that has been rewritten. -/
theorem commit_descends (registry : Registry) (entries : List Staged) (s : Store)
    (hc : Clear s.root (entries.map (·.file)) path)
    (hentries : ∀ e ∈ entries, e.mutation.WellFormed ∧
      ∀ q, Place.ofPath? s.root e.file = some q → q.names = path → e.name ≠ name) :
    Descends name (s.tree.get? path) ((commit registry entries s).2.tree.get? path) ∧
      ((commit registry entries s).1 = .ok () →
        (∃ e ∈ entries, ∃ q, Place.ofPath? s.root e.file = some q ∧ q.names = path) →
        Rewritten name (s.tree.get? path) ((commit registry entries s).2.tree.get? path)) := by
  refine commit_at _ _ registry entries s hc (.inl rfl) (fun _ => .inr) fun e he =>
    ⟨(hentries e he).1, fun q hq hpath node d text hnode hread hstorable hrender => ?_⟩
  exact hnode.rewritten hread hstorable ((hentries e he).2 q hq hpath) hrender

end Journal

end LayeredConfig
