import LayeredConfig.Proofs.Commit.Outcome
import LayeredConfig.Proofs.Store.Settling

/-!
# What a commit leaves is what was seen through its set

A staged set shows its files with the changes in memory, the commit writes the changes one by one.
Where neither a date nor a limit of the reader comes between, each file that is named as the set
names it, or is none of the files of the set, is found after the commit as it was seen before,
settled.
-/

set_option autoImplicit false

namespace LayeredConfig

namespace StagedSet

def Undated (set : StagedSet) (root : Names) (t : FileTree) : Prop :=
  ∀ f ∈ set.entries.map (·.file), ∀ p, Place.ofPath? root f = some p →
    ∀ d, documentAt? t p = some d → (set.overlay f d).isUndated = true

def WithinLimits (set : StagedSet) (root : Names) (t : FileTree) : Prop :=
  ∀ f ∈ set.entries.map (·.file), ∀ p, Place.ofPath? root f = some p →
    ∀ d, documentAt? t p = some d → (set.overlay f d).WithinLimits

instance (set : StagedSet) (root : Names) (t : FileTree) : Decidable (set.Undated root t) :=
  inferInstanceAs (Decidable (∀ f ∈ _, ∀ p, Place.ofPath? root f = some p →
    ∀ d, documentAt? t p = some d → (set.overlay f d).isUndated = true))

instance (set : StagedSet) (root : Names) (t : FileTree) : Decidable (set.WithinLimits root t) :=
  inferInstanceAs (Decidable (∀ f ∈ _, ∀ p, Place.ofPath? root f = some p →
    ∀ d, documentAt? t p = some d → (set.overlay f d).WithinLimits))

def Separates (set : StagedSet) (root : Names) (file : String) : Prop :=
  file ∈ set.entries.map (·.file) ∨
    ∀ f ∈ set.entries.map (·.file), ∀ p, Place.ofPath? root f = some p →
      ∀ q, Place.ofPath? root file = some q → ¬ p.names <+: q.names

instance (set : StagedSet) (root : Names) (file : String) : Decidable (set.Separates root file) :=
  inferInstanceAs (Decidable (file ∈ set.entries.map (·.file) ∨
    ∀ f ∈ set.entries.map (·.file), ∀ p, Place.ofPath? root f = some p →
      ∀ q, Place.ofPath? root file = some q → ¬ p.names <+: q.names))

theorem overlay_of_not_mem (set : StagedSet) {file : String}
    (h : file ∉ set.entries.map (·.file)) (d : LevelDocument) : set.overlay file d = d := by
  have hnone : set.entries.filter (·.file == file) = [] := by
    apply List.filter_eq_nil_iff.mpr
    intro e he heq
    exact h (List.mem_map.mpr ⟨e, he, beq_iff_eq.mp heq⟩)
  simp only [overlay]
  rw [hnone]
  rfl

end StagedSet

namespace Journal

variable {set : StagedSet} {s s' : Store} {file : String}

/-- What was seen of a file through the set is found in it after the commit, settled. -/
theorem Made.look_settles {p : Place} (h : Made set s s' file p)
    (hp : Place.ofPath? s.root file = some p) (ho : p.Opens s'.tree)
    (hu : ∀ d, documentAt? s.tree p = some d → (set.overlay file d).isUndated = true)
    (hl : ∀ d, documentAt? s.tree p = some d → (set.overlay file d).WithinLimits) :
    Access.look none s.root s'.tree file =
      (Access.look (some set) s.root s.tree file).map .settled := by
  obtain ⟨former, -, -, hformer, hread, -⟩ := id h
  have hafter := (Store.documentIn_eq_ok_iff hp ho _).2
    ((h.documentAt?_eq_some_iff hformer (hu former hformer) _).2 ⟨hl former hformer, rfl⟩)
  simp only [Access.look]
  rw [hread, hafter]
  rfl

theorem Made.look_wellFormed {p : Place} (h : Made set s s' file p) {d : LevelDocument}
    (hd : Access.look (some set) s.root s.tree file = .ok d) : d.WellFormed := by
  obtain ⟨former, -, -, -, hread, hstorable, -⟩ := h
  obtain ⟨former', hread', rfl⟩ := Access.look_eq_ok hd
  obtain rfl := Except.ok.inj (hread.symm.trans hread')
  exact hstorable.toWellFormed

theorem look_settles_of_not_mem (hmem : file ∉ set.entries.map (·.file))
    (hsame : ∀ q, Place.ofPath? s.root file = some q →
      ∀ path, path <+: q.names → s'.tree.get? path = s.tree.get? path) :
    Access.look none s.root s'.tree file =
      (Access.look (some set) s.root s.tree file).map .settled := by
  simp only [Access.look]
  rw [Store.documentIn_eq hsame]
  rcases hd : Store.documentIn s.root s.tree file with e | d
  · rfl
  · change Except.ok d = Except.ok (set.overlay file d).settled
    rw [set.overlay_of_not_mem hmem, (Store.documentIn_stays hd).2]

theorem look_wellFormed_of_not_mem (hmem : file ∉ set.entries.map (·.file)) {d : LevelDocument}
    (hd : Access.look (some set) s.root s.tree file = .ok d) : d.WellFormed := by
  obtain ⟨former, hread, rfl⟩ := Access.look_eq_ok hd
  rw [set.overlay_of_not_mem hmem]
  exact (Store.documentIn_stays hread).1.toWellFormed

namespace Outcome

theorem look_settles (h : Outcome set s s') (hu : set.Undated s.root s.tree)
    (hl : set.WithinLimits s.root s.tree) (hfile : set.Separates s.root file) :
    Access.look none s.root s'.tree file =
      (Access.look (some set) s.root s.tree file).map .settled := by
  by_cases hmem : file ∈ set.entries.map (·.file)
  · obtain ⟨p, hp, ho⟩ := h.opens file hmem
    exact (h.written file hmem p hp).look_settles hp (h.opens_after ho) (hu file hmem p hp)
      (hl file hmem p hp)
  · have hclear := hfile.resolve_left hmem
    refine look_settles_of_not_mem hmem fun q hq path hpath => ?_
    exact h.frame path fun f hf p hp hnames => hclear f hf p hp q hq (hnames ▸ hpath)

theorem look_wellFormed (h : Outcome set s s') {d : LevelDocument}
    (hd : Access.look (some set) s.root s.tree file = .ok d) : d.WellFormed := by
  by_cases hmem : file ∈ set.entries.map (·.file)
  · obtain ⟨p, hp, -⟩ := h.opens file hmem
    exact (h.written file hmem p hp).look_wellFormed hd
  · exact look_wellFormed_of_not_mem hmem hd

end Outcome

end Journal

namespace StagedSet

def SparesWay (set : StagedSet) (root : Names) (file : String) : Prop :=
  ∀ f ∈ set.entries.map (·.file), ∀ p, Place.ofPath? root f = some p →
    ∀ q, Place.ofPath? root file = some q →
      (p.names <+: q.names → f = file) ∧ ¬ (p.sibling ".tmp").names <+: q.names ∧
        ¬ (p.sibling ".lock").names <+: q.names

/-- A commit of the set carries over to a file what is seen of it through the set. -/
structure Carries (set : StagedSet) (root : Names) (t : FileTree) (file : String) : Prop where
  way : set.SparesWay root file
  undated : file ∈ set.entries.map (·.file) → ∀ p, Place.ofPath? root file = some p →
    ∀ d, documentAt? t p = some d → (set.overlay file d).isUndated = true
  limits : file ∈ set.entries.map (·.file) → ∀ p, Place.ofPath? root file = some p →
    ∀ d, documentAt? t p = some d → (set.overlay file d).WithinLimits

instance (set : StagedSet) (root : Names) (file : String) : Decidable (set.SparesWay root file) :=
  inferInstanceAs (Decidable (∀ f ∈ _, ∀ p, Place.ofPath? root f = some p →
    ∀ q, Place.ofPath? root file = some q →
      (p.names <+: q.names → f = file) ∧ ¬ (p.sibling ".tmp").names <+: q.names ∧
        ¬ (p.sibling ".lock").names <+: q.names))

instance (set : StagedSet) (root : Names) (t : FileTree) (file : String) :
    Decidable (set.Carries root t file) :=
  decidable_of_iff (set.SparesWay root file ∧
      (file ∈ set.entries.map (·.file) → ∀ p, Place.ofPath? root file = some p →
        ∀ d, documentAt? t p = some d → (set.overlay file d).isUndated = true) ∧
      (file ∈ set.entries.map (·.file) → ∀ p, Place.ofPath? root file = some p →
        ∀ d, documentAt? t p = some d → (set.overlay file d).WithinLimits))
    ⟨fun ⟨hw, hu, hl⟩ => ⟨hw, hu, hl⟩, fun ⟨hw, hu, hl⟩ => ⟨hw, hu, hl⟩⟩

variable {set : StagedSet} {root : Names} {file : String}

theorem SparesWay.clear (h : set.SparesWay root file) {q : Place}
    (hq : Place.ofPath? root file = some q) {path : Names} (hpath : path <+: q.names) :
    Journal.Clear root (set.entries.map (·.file)) path where
  temporary f hf p hp hn := (h f hf p hp q hq).2.1 (hn ▸ hpath)
  lock f hf p hp hn := (h f hf p hp q hq).2.2 (hn ▸ hpath)

theorem SparesWay.sparesPlace (h : set.SparesWay root file) {q : Place}
    (hq : Place.ofPath? root file = some q) : set.SparesPlace root file q where
  oneName f hf p hp hn := (h f hf p hp q hq).1 (hn ▸ List.prefix_rfl)
  clear := h.clear hq (List.prefix_refl _)

end StagedSet

namespace Journal

variable {registry : Registry} {set : StagedSet} {s s' : Store} {file : String}

/-- What becomes of a file is told by what is on the way to it, whatever else there is. -/
theorem look_of_commit (h : commit registry set.entries s = (.ok (), s'))
    (hv : ∀ e ∈ set.entries, e.mutation.WellFormed) (hfile : set.Carries s.root s.tree file) :
    Access.look none s.root s'.tree file =
      (Access.look (some set) s.root s.tree file).map .settled := by
  by_cases hmem : file ∈ set.entries.map (·.file)
  · obtain ⟨p, hp, ho⟩ := opens_of_commit h file hmem
    have hdirectories := commit_directories registry set.entries s
    rw [h] at hdirectories
    exact (made_of_commit h hv hp (hfile.way.sparesPlace hp) hmem).look_settles hp
      (ho.of_directories hdirectories) (hfile.undated hmem p hp) (hfile.limits hmem p hp)
  · -- neither a file of the set nor anything beside one is on the way
    refine look_settles_of_not_mem hmem fun q hq path hpath => ?_
    have hsame := commit_elsewhere registry set.entries s (hfile.way.clear hq hpath) fun e he =>
      ⟨hv e he, fun p hp hn => hmem ((hfile.way e.file (List.mem_map_of_mem he) p hp q hq).1
        (hn ▸ hpath) ▸ List.mem_map_of_mem he)⟩
    rwa [h] at hsame

theorem wellFormed_of_commit (h : commit registry set.entries s = (.ok (), s'))
    (hv : ∀ e ∈ set.entries, e.mutation.WellFormed) (hway : set.SparesWay s.root file)
    {d : LevelDocument} (hd : Access.look (some set) s.root s.tree file = .ok d) :
    d.WellFormed := by
  by_cases hmem : file ∈ set.entries.map (·.file)
  · obtain ⟨p, hp, -⟩ := opens_of_commit h file hmem
    exact (made_of_commit h hv hp (hway.sparesPlace hp) hmem).look_wellFormed hd
  · exact look_wellFormed_of_not_mem hmem hd

end Journal

end LayeredConfig
