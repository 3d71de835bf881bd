import LayeredConfig.Proofs.Commit.Texts

/-!
# The files after a successful commit

What a successful commit leaves is told file by file: each file of the set could be opened and
read before, it has one name in the set, and it holds what the changes for it, written one by
one, have made of it. Nothing else has changed.
-/

set_option autoImplicit false

namespace LayeredConfig

open Run

namespace Journal

structure Outcome (set : StagedSet) (s s' : Store) : Prop where
  root : s'.root = s.root
  directories : FileTree.SameDirectories s.tree s'.tree
  opens : ∀ f ∈ set.entries.map (·.file), ∃ p, Place.ofPath? s.root f = some p ∧ p.Opens s.tree
  oneName : ∀ f ∈ set.entries.map (·.file), ∀ g ∈ set.entries.map (·.file), ∀ p q,
    Place.ofPath? s.root f = some p → Place.ofPath? s.root g = some q → p.names = q.names → f = g
  written : ∀ f ∈ set.entries.map (·.file), ∀ p, Place.ofPath? s.root f = some p →
    Made set s s' f p
  frame : ∀ path, (∀ f ∈ set.entries.map (·.file), ∀ p, Place.ofPath? s.root f = some p →
    p.names ≠ path) → s'.tree.get? path = s.tree.get? path

theorem commit_outcome {registry : Registry} {set : StagedSet} {s s' : Store}
    (h : commit registry set.entries s = (.ok (), s'))
    (ha : Apart s.root s.tree (set.entries.map (·.file)))
    (hv : ∀ e ∈ set.entries, e.mutation.WellFormed) : Outcome set s s' := by
  obtain ⟨p, hp, rfl⟩ := commit_eq_ok h
  have hall := (Written.start s (set.entries.map (·.file))).run ha
    (fun e he => List.mem_map_of_mem he) hp
  rw [List.nil_append] at hall
  have hunder := hall.underWay
  -- a file that is leased under one name has a lock that refuses the other
  have hname : ∀ f ∈ set.entries.map (·.file), ∀ g ∈ set.entries.map (·.file), ∀ p q,
      Place.ofPath? s.root f = some p → Place.ofPath? s.root g = some q → p.names = q.names →
        f = g := by
    intro f hf g hg q r hq hr hnames
    obtain ⟨c, hc, rfl⟩ := List.mem_map.mp hf
    obtain ⟨c', hc', rfl⟩ := List.mem_map.mp hg
    obtain ⟨e, he, heq⟩ := hall.leased c hc
    obtain ⟨e', he', heq'⟩ := hall.leased c' hc'
    rw [← heq] at hq ⊢
    rw [← heq'] at hr ⊢
    rw [hunder.names_injective e e' he he' q r hq hr hnames]
  have hdirectories := commit_directories registry set.entries s
  rw [h] at hdirectories
  refine ⟨root_of_commit h, hdirectories, opens_of_commit h, hname, fun f hf q hq => ?_,
    hunder.releaseAll_frame⟩
  exact made_of_commit h hv hq ⟨fun g hg r hr hnames => hname g hg f hf r q hr hq hnames,
    fun g hg r hr hn => (ha.siblings g hg f hf r q hr hq).1 hn.symm,
    fun g hg r hr hn => (ha.siblings g hg f hf r q hr hq).2 hn.symm⟩ hf

namespace Outcome

variable {set : StagedSet} {s s' : Store}

theorem opens_after (h : Outcome set s s') {p : Place} (hp : p.Opens s.tree) : p.Opens s'.tree :=
  hp.of_directories h.directories

theorem documentAt?_congr (t : FileTree) (p q : Place) (h : p.names = q.names) :
    documentAt? t p = documentAt? t q := by
  simp only [documentAt?]
  rw [h]

end Outcome

end Journal

end LayeredConfig
