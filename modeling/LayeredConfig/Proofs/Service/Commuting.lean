import LayeredConfig.Proofs.Commit.Texts
import LayeredConfig.Proofs.Document.Reordering
import LayeredConfig.Proofs.Service.ReadThrough
import LayeredConfig.Proofs.Service.Transitions

/-!
# Two transactions committed in either order

Pending transactions have staged changes of different sections, since staging claims them. So two
of them can be committed one after the other in both orders with the same result, where the files
have one name each: a file of one of them is rewritten from the same text in both orders, and a
file of both has its sections from the one or the other. The second commit of a file reads what the
first one has written there, though, and only undated sections come out of that as they were.
-/

set_option autoImplicit false

namespace LayeredConfig

open Run

def StagedSet.LeavesUndated (set : StagedSet) (root : Names) (t : FileTree) (file : String) :
    Prop :=
  ∀ p text, Place.ofPath? root file = some p → t.get? p.names = some (.file (.text text)) →
    Staged.SetsUndated (set.entries.filter (·.file == file)) text

theorem StagedSet.leavesUndated_iff {set : StagedSet} {root : Names} {t : FileTree} {file : String}
    {q : Place} {text : String} (hq : Place.ofPath? root file = some q)
    (ht : t.get? q.names = Journal.textNode (some text)) : set.LeavesUndated root t file ↔
      Staged.SetsUndated (set.entries.filter (·.file == file)) text := by
  constructor
  · exact fun h => h q text hq ht
  · intro h p text' hp htext
    obtain rfl := Option.some.inj (hq.symm.trans hp)
    have heq : Journal.textNode (some text') = Journal.textNode (some text) := htext.symm.trans ht
    rw [Option.some.inj (Journal.textNode_injective _ _ heq)]
    exact h

namespace Journal

structure NamesApart (root : Names) (files : List String) : Prop where
  oneName : ∀ f ∈ files, ∀ p, Place.ofPath? root f = some p → ∀ g ∈ files, ∀ q,
    Place.ofPath? root g = some q → q.names = p.names → g = f
  clear : ∀ f ∈ files, ∀ p, Place.ofPath? root f = some p → Clear root files p.names

instance (root : Names) (files : List String) : Decidable (NamesApart root files) :=
  decidable_of_iff
    ((∀ f ∈ files, ∀ p, Place.ofPath? root f = some p → ∀ g ∈ files, ∀ q,
        Place.ofPath? root g = some q → q.names = p.names → g = f) ∧
      ∀ f ∈ files, ∀ p, Place.ofPath? root f = some p → Clear root files p.names)
    ⟨fun ⟨hn, hc⟩ => ⟨hn, hc⟩, fun ⟨hn, hc⟩ => ⟨hn, hc⟩⟩

theorem Clear.mono {root : Names} {files part : List String} {path : Names}
    (h : Clear root files path) (hsub : part ⊆ files) : Clear root part path where
  temporary f hf := h.temporary f (hsub hf)
  lock f hf := h.lock f (hsub hf)

theorem NamesApart.spares {root : Names} {files : List String} (h : NamesApart root files)
    {set : StagedSet} (hsub : set.entries.map (·.file) ⊆ files) {file : String}
    (hfile : file ∈ files) {p : Place} (hp : Place.ofPath? root file = some p) :
    set.SparesPlace root file p where
  oneName f hf q hq hnames := h.oneName file hfile p hp f (hsub hf) q hq hnames
  clear := (h.clear file hfile p hp).mono hsub

theorem elsewhere_of_commit {registry : Registry} {set : StagedSet} {s s' : Store} {path : Names}
    (h : commit registry set.entries s = (.ok (), s'))
    (hv : ∀ e ∈ set.entries, e.mutation.WellFormed)
    (hc : Clear s.root (set.entries.map (·.file)) path)
    (hpath : ∀ f ∈ set.entries.map (·.file), ∀ q, Place.ofPath? s.root f = some q →
      q.names ≠ path) : s'.tree.get? path = s.tree.get? path := by
  have hsame := commit_elsewhere registry set.entries s hc fun e he =>
    ⟨hv e he, hpath e.file (List.mem_map_of_mem he)⟩
  rwa [h] at hsame

section Orders

variable {registry : Registry} {first second : StagedSet} {s s₁ s₂ s₁₂ s₂₁ : Store}
  (h₁ : commit registry first.entries s = (.ok (), s₁))
  (h₁₂ : commit registry second.entries s₁ = (.ok (), s₁₂))
  (h₂ : commit registry second.entries s = (.ok (), s₂))
  (h₂₁ : commit registry first.entries s₂ = (.ok (), s₂₁))
  (hv : ∀ e ∈ first.entries, e.mutation.WellFormed)
  (hv' : ∀ e ∈ second.entries, e.mutation.WellFormed)
include h₁ h₁₂ h₂ h₂₁ hv hv'

/-- Where the second set has no file, the first one finds the same in both orders. -/
theorem commits_comm_elsewhere {path : Names}
    (hfirst : ∀ f ∈ first.entries.map (·.file), ∀ q, Place.ofPath? s.root f = some q →
      q.names = path → first.SparesPlace s.root f q)
    (hc : Clear s.root (first.entries.map (·.file)) path)
    (hc' : Clear s.root (second.entries.map (·.file)) path)
    (hpath : ∀ f ∈ second.entries.map (·.file), ∀ q, Place.ofPath? s.root f = some q →
      q.names ≠ path) : s₁₂.tree.get? path = s₂₁.tree.get? path := by
  have hroot₁ := root_of_commit h₁
  have hroot₂ := root_of_commit h₂
  have h₁₂_same := elsewhere_of_commit h₁₂ hv' (hroot₁ ▸ hc') (hroot₁ ▸ hpath)
  have h₂_same := elsewhere_of_commit h₂ hv' hc' hpath
  rw [h₁₂_same]
  by_cases hfile : ∃ f ∈ first.entries.map (·.file), ∃ q,
      Place.ofPath? s.root f = some q ∧ q.names = path
  · obtain ⟨f, hf, q, hq, rfl⟩ := hfile
    have ha := hfirst f hf q hq rfl
    obtain ⟨-, before, text, hbefore, hall, hafter⟩ := commit_text h₁ hv hq ha hf
    obtain ⟨-, before', text', hbefore', hall', hafter'⟩ :=
      commit_text h₂₁ hv (hroot₂ ▸ hq) (hroot₂ ▸ ha) hf
    rw [h₂_same, hbefore] at hbefore'
    obtain rfl := textNode_injective _ _ hbefore'
    rw [hafter, hafter', Except.ok.inj (hall.symm.trans hall')]
  · have hpath' : ∀ f ∈ first.entries.map (·.file), ∀ q, Place.ofPath? s.root f = some q →
        q.names ≠ path := fun f hf q hq hn => hfile ⟨f, hf, q, hq, hn⟩
    rw [elsewhere_of_commit h₁ hv hc hpath',
      elsewhere_of_commit h₂₁ hv (hroot₂ ▸ hc) (hroot₂ ▸ hpath'), h₂_same]

variable (hdisjoint : ∀ e ∈ first.entries, ∀ e' ∈ second.entries, e.file = e'.file →
  e.name ≠ e'.name)
include hdisjoint

/-- A file of both sets has the same text in both orders just when each set, written first, leaves
its own sections undated. -/
theorem commits_comm_at {file : String} {q : Place} (hq : Place.ofPath? s.root file = some q)
    (ha : first.SparesPlace s.root file q) (ha' : second.SparesPlace s.root file q)
    (hf : file ∈ first.entries.map (·.file)) (hf' : file ∈ second.entries.map (·.file)) :
    s₁₂.tree.get? q.names = s₂₁.tree.get? q.names ↔
      first.LeavesUndated s.root s₁.tree file ∧ second.LeavesUndated s.root s₂.tree file := by
  have hroot₁ := root_of_commit h₁
  have hroot₂ := root_of_commit h₂
  obtain ⟨hstorable, before, text₁, hbefore, hall₁, hafter₁⟩ := commit_text h₁ hv hq ha hf
  obtain ⟨hstorable', before', text₂, hbefore', hall₂, hafter₂⟩ := commit_text h₂ hv' hq ha' hf'
  obtain ⟨-, between, text₁₂, hbetween, hall₁₂, hafter₁₂⟩ :=
    commit_text h₁₂ hv' (hroot₁ ▸ hq) (hroot₁ ▸ ha') hf'
  obtain ⟨-, between', text₂₁, hbetween', hall₂₁, hafter₂₁⟩ :=
    commit_text h₂₁ hv (hroot₂ ▸ hq) (hroot₂ ▸ ha) hf
  obtain rfl := textNode_injective _ _ (hbefore.symm.trans hbefore')
  obtain rfl := textNode_injective _ _ (hafter₁.symm.trans hbetween)
  obtain rfl := textNode_injective _ _ (hafter₂.symm.trans hbetween')
  have hne : ∀ set : StagedSet, file ∈ set.entries.map (·.file) →
      set.entries.filter (·.file == file) ≠ [] := by
    intro set hmem
    obtain ⟨e, he, rfl⟩ := List.mem_map.mp hmem
    exact List.ne_nil_of_mem (List.mem_filter.mpr ⟨he, beq_self_eq_true e.file⟩)
  have hnames : ∀ e ∈ first.entries.filter (·.file == file),
      ∀ e' ∈ second.entries.filter (·.file == file), e.name ≠ e'.name := by
    intro e he e' he'
    obtain ⟨hmem, hfile⟩ := List.mem_filter.mp he
    obtain ⟨hmem', hfile'⟩ := List.mem_filter.mp he'
    exact hdisjoint e hmem e' hmem' ((eq_of_beq hfile).trans (eq_of_beq hfile').symm)
  rw [StagedSet.leavesUndated_iff hq hafter₁, StagedSet.leavesUndated_iff hq hafter₂,
    ← Staged.rewriteAll_comm_iff hnames (hne first hf) (hne second hf') hstorable hstorable' hall₁
      hall₂ hall₁₂ hall₂₁, hafter₁₂, hafter₂₁]
  constructor
  · exact fun h => Option.some.inj (textNode_injective _ _ h)
  · exact fun h => by rw [h]

/-- Two sets of changes of different sections leave the same in both orders just when each of
them, written first, leaves its own sections of the files that both change undated. -/
theorem commits_comm_iff
    (hnames : NamesApart s.root (first.entries.map (·.file) ++ second.entries.map (·.file))) :
    (∀ path, Clear s.root (first.entries.map (·.file) ++ second.entries.map (·.file)) path →
        s₁₂.tree.get? path = s₂₁.tree.get? path) ↔
      ∀ f ∈ first.entries.map (·.file), f ∈ second.entries.map (·.file) →
        first.LeavesUndated s.root s₁.tree f ∧ second.LeavesUndated s.root s₂.tree f := by
  have hsub := List.subset_append_left (first.entries.map (·.file)) (second.entries.map (·.file))
  have hsub' := List.subset_append_right (first.entries.map (·.file)) (second.entries.map (·.file))
  have hshared : ∀ f ∈ first.entries.map (·.file), f ∈ second.entries.map (·.file) → ∀ q,
      Place.ofPath? s.root f = some q → (s₁₂.tree.get? q.names = s₂₁.tree.get? q.names ↔
        first.LeavesUndated s.root s₁.tree f ∧ second.LeavesUndated s.root s₂.tree f) :=
    fun f hf hf' q hq => commits_comm_at h₁ h₁₂ h₂ h₂₁ hv hv' hdisjoint hq
      (hnames.spares hsub (hsub hf) hq) (hnames.spares hsub' (hsub hf) hq) hf hf'
  constructor
  · intro hsame f hf hf'
    constructor
    all_goals
      intro p text hp htext
      obtain ⟨hundated, hundated'⟩ :=
        (hshared f hf hf' p hp).1 (hsame p.names (hnames.clear f (hsub hf) p hp))
    · exact hundated p text hp htext
    · exact hundated' p text hp htext
  · intro hundated path hc
    have hspares : ∀ f ∈ first.entries.map (·.file), ∀ q, Place.ofPath? s.root f = some q →
        q.names = path → first.SparesPlace s.root f q :=
      fun f hf q hq _ => hnames.spares hsub (hsub hf) hq
    have hspares' : ∀ f ∈ second.entries.map (·.file), ∀ q, Place.ofPath? s.root f = some q →
        q.names = path → second.SparesPlace s.root f q :=
      fun f hf q hq _ => hnames.spares hsub' (hsub' hf) hq
    by_cases hsecond : ∀ f ∈ second.entries.map (·.file), ∀ q,
        Place.ofPath? s.root f = some q → q.names ≠ path
    · exact commits_comm_elsewhere h₁ h₁₂ h₂ h₂₁ hv hv' hspares (hc.mono hsub) (hc.mono hsub')
        hsecond
    by_cases hfirst : ∀ f ∈ first.entries.map (·.file), ∀ q,
        Place.ofPath? s.root f = some q → q.names ≠ path
    · exact (commits_comm_elsewhere h₂ h₂₁ h₁ h₁₂ hv' hv hspares' (hc.mono hsub') (hc.mono hsub)
        hfirst).symm
    -- the path is that of a file of each set, and so of one file
    push Not at hfirst hsecond
    obtain ⟨f, hf, q, hq, rfl⟩ := hfirst
    obtain ⟨g, hg, r, hr, hn⟩ := hsecond
    obtain rfl := hnames.oneName f (hsub hf) q hq g (hsub' hg) r hr hn
    exact (hshared g hf hg q hq).2 (hundated g hf hg)

end Orders

end Journal

namespace Operation

open Service

variable {id : String} {s : Service} {t : Transaction}

theorem commit_of_succeeds (h : (Operation.commit id).succeeds s = true)
    (hf : s.find? id = some t) :
    Journal.commit s.registry t.staged.entries s.store =
        (.ok (), ((Operation.commit id).apply s).store) ∧
      ((Operation.commit id).apply s).registry = s.registry ∧
      ∀ other, id ≠ other → ((Operation.commit id).apply s).find? other = s.find? other := by
  obtain ⟨t', hanswer⟩ := exists_of_isOk h
  have hcommit : Service.commit id s = (.ok t', (Operation.commit id).apply s) :=
    eq_of_answer hanswer
  obtain ⟨u, store, hu, hp, hwritten, rfl, hregistry⟩ := commit_eq_ok hcommit
  obtain rfl := Option.some.inj (hf.symm.trans hu)
  refine ⟨hwritten, hregistry, fun other hother => ?_⟩
  rcases commit_of_pending hf hp with ⟨e, s₁, -, hfails⟩ | ⟨s₁, hset, hfinish⟩
  · rw [hfails] at hcommit
    cases hcommit
  · have hs₁ := (transactions_applySet hset).1
    change (Service.commit id s).2.find? other = _
    rw [hfinish, find?_finish ((find?_of_transactions hs₁ id).trans hf), id_of_find? hf,
      if_neg hother, find?_of_transactions hs₁]

end Operation

/-- Two pending transactions of a service can be committed in either order: if both commits succeed
in both orders, then all files are the same afterwards, just when each transaction, committed
first, leaves its own sections of the files that both change undated. Different strings are taken
to name different places, and no file to be the lock or the temporary text of another one. -/
theorem commits_commute (store : Store) (registry : Registry) (idleSeconds now : Nat)
    (ops : List Operation) (id₁ id₂ : String) (t₁ t₂ : Transaction) :
    let started := Service.new store registry idleSeconds now
    let s := Operation.run ops started
    let s₁ := (Operation.commit id₁).apply s
    let s₂ := (Operation.commit id₂).apply s
    let files₁ := t₁.staged.entries.map (·.file)
    let files₂ := t₂.staged.entries.map (·.file)
    Operation.FreshRun ops started → id₁ ≠ id₂ →
    s.find? id₁ = some t₁ → t₁.state = .pending → s.find? id₂ = some t₂ → t₂.state = .pending →
    (∀ e ∈ t₁.staged.entries ++ t₂.staged.entries, e.mutation.WellFormed) →
    Journal.NamesApart s.store.root (files₁ ++ files₂) →
    (Operation.commit id₁).succeeds s = true → (Operation.commit id₂).succeeds s₁ = true →
    (Operation.commit id₂).succeeds s = true → (Operation.commit id₁).succeeds s₂ = true →
      ((∀ path, Journal.Clear s.store.root (files₁ ++ files₂) path →
          ((Operation.commit id₂).apply s₁).store.tree.get? path =
            ((Operation.commit id₁).apply s₂).store.tree.get? path) ↔
        ∀ f ∈ files₁, f ∈ files₂ →
          t₁.staged.LeavesUndated s.store.root s₁.store.tree f ∧
            t₂.staged.LeavesUndated s.store.root s₂.store.tree f) := by
  intro started s s₁ s₂ files₁ files₂ hfresh hids hf₁ hp₁ hf₂ hp₂ hv hnames hok₁ hok₁₂ hok₂ hok₂₁
  have hmirrored : s.Mirrored := Operation.mirrored_run ops started
    (Service.mirrored_new store registry idleSeconds now) hfresh
  obtain ⟨h₁, hregistry₁, hothers₁⟩ := Operation.commit_of_succeeds hok₁ hf₁
  obtain ⟨h₂, hregistry₂, hothers₂⟩ := Operation.commit_of_succeeds hok₂ hf₂
  obtain ⟨h₁₂, -⟩ := Operation.commit_of_succeeds hok₁₂ ((hothers₁ id₂ hids).trans hf₂)
  obtain ⟨h₂₁, -⟩ := Operation.commit_of_succeeds hok₂₁ ((hothers₂ id₁ hids.symm).trans hf₁)
  rw [hregistry₁] at h₁₂
  rw [hregistry₂] at h₂₁
  refine Journal.commits_comm_iff h₁ h₁₂ h₂ h₂₁ (fun e he => hv e (List.mem_append_left _ he))
    (fun e he => hv e (List.mem_append_right _ he)) ?_ hnames
  -- a section that both have staged would be claimed by both
  intro e he e' he' hfile hname
  obtain ⟨hmem₁, hid₁⟩ := (hmirrored.find?_eq_some id₁ t₁).1 hf₁
  obtain ⟨hmem₂, hid₂⟩ := (hmirrored.find?_eq_some id₂ t₂).1 hf₂
  have hsame := hmirrored.eq_of_contains hmem₁ hmem₂ hp₁ hp₂
    ((t₁.staged.contains_iff e.file e.name).2 ⟨e, he, rfl, rfl⟩)
    ((t₂.staged.contains_iff e.file e.name).2 ⟨e', he', hfile.symm, hname.symm⟩)
  exact hids (hid₁.symm.trans ((congrArg Transaction.id hsame).trans hid₂))

def neighboursStaged (v : Value) : List Operation :=
  [.create "first", .onUnit (.new (some "first")) (.stage .global "default_document" (.replace v)),
    .create "second", .onUnit (.new (some "second"))
      (.stage .global "static_content" (.replace (.obj [("v", .int 1)])))]

def documentsStaged (v : Value) : Transaction :=
  ⟨"first", .pending, 0, ⟨[⟨.global, "host", "host.toml", "default_document", .replace v⟩]⟩⟩

def contentStaged : Transaction :=
  ⟨"second", .pending, 0,
    ⟨[⟨.global, "host", "host.toml", "static_content", .replace (.obj [("v", .int 1)])⟩]⟩⟩

theorem commits_commute_neighbours :
    let s := Operation.run (neighboursStaged (.obj [("enabled", .bool true)]))
      (.new listedDisk .builtin 900 0)
    let files := (documentsStaged (.obj [("enabled", .bool true)])).staged.entries.map (·.file) ++
      contentStaged.staged.entries.map (·.file)
    ∀ path, Journal.Clear s.store.root files path →
      ((Operation.commit "second").apply ((Operation.commit "first").apply s)).store.tree.get? path =
        ((Operation.commit "first").apply ((Operation.commit "second").apply s)).store.tree.get?
          path := by
  have hleaves : ∀ (set : StagedSet) (t : FileTree) (d : LevelDocument) (text : String),
      t.get? hostPlace.names = Journal.textNode (some text) → d.Storable → d.render = .ok text →
      (∀ e ∈ d.sections, e.2.isUndated = true) → set.LeavesUndated ["srv"] t "host.toml" := by
    intro set t d text ht hd hr hundated
    have hplace : Place.ofPath? ["srv"] "host.toml" = some hostPlace := by decide +kernel
    rw [StagedSet.leavesUndated_iff hplace ht, Staged.setsUndated_iff hd hr]
    exact fun name v _ hv => hundated _ (Table.mem_of_get? d.sections name v hv)
  refine (commits_commute listedDisk .builtin 900 0
    (neighboursStaged (.obj [("enabled", .bool true)])) "first" "second"
    (documentsStaged (.obj [("enabled", .bool true)])) contentStaged
    (by decide +kernel) (by decide) (by decide +kernel) rfl (by decide +kernel) rfl
    (by decide +kernel) (by decide +kernel) (by decide +kernel) (by decide +kernel)
    (by decide +kernel) (by decide +kernel)).2 fun f hf _ => ?_
  rw [List.mem_singleton.mp hf]
  have hroot : (Operation.run (neighboursStaged (.obj [("enabled", .bool true)]))
      (.new listedDisk .builtin 900 0)).store.root = ["srv"] := by decide +kernel
  rw [hroot]
  exact ⟨hleaves _ _ ⟨[], [("default_document", .obj [("enabled", .bool true)]),
      ("directory_browse", .obj [("enabled", .bool true)])]⟩
      "[sections.default_document]\nenabled = true\n\n[sections.directory_browse]\nenabled = true\n"
      (by decide +kernel) ⟨by decide +kernel, by decide +kernel⟩ (by decide +kernel)
      (by decide +kernel),
    hleaves _ _ ⟨[], [("directory_browse", .obj [("enabled", .bool true)]),
      ("static_content", .obj [("v", .int 1)])]⟩
      "[sections.directory_browse]\nenabled = true\n\n[sections.static_content]\nv = 1\n"
      (by decide +kernel) ⟨by decide +kernel, by decide +kernel⟩ (by decide +kernel)
      (by decide +kernel)⟩

/-- Where a section holds a table with the date key first, it is there once the other section has
been committed, but the date that the table stands for is read of it only in one of the orders. -/
theorem commits_differ :
    let s := Operation.run
      (neighboursStaged (.obj [("a", .obj [("$__toml_private_datetime", .str "1979-05-27")])]))
      (.new listedDisk .builtin 900 0)
    let s₁ := (Operation.commit "first").apply s
    let s₂ := (Operation.commit "second").apply s
    let files := (documentsStaged .null).staged.entries.map (·.file) ++
      contentStaged.staged.entries.map (·.file)
    Operation.FreshRun (neighboursStaged (.obj [("a", .obj [("$__toml_private_datetime",
        .str "1979-05-27")])])) (.new listedDisk .builtin 900 0) ∧
      (Operation.commit "first").succeeds s = true ∧ (Operation.commit "second").succeeds s₁ = true ∧
      (Operation.commit "second").succeeds s = true ∧ (Operation.commit "first").succeeds s₂ = true ∧
      Journal.NamesApart s.store.root files ∧ Journal.Clear s.store.root files ["srv", "host.toml"] ∧
      ((Operation.commit "second").apply s₁).store.tree.get? ["srv", "host.toml"] ≠
        ((Operation.commit "first").apply s₂).store.tree.get? ["srv", "host.toml"] := by
  decide +kernel

end LayeredConfig
