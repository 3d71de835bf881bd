import LayeredConfig.Proofs.Commit.Outcome

/-!
# Commits of one change

A single change is read, made and written once. Whatever stands beside its file, the file holds
after a successful commit the text of the document that was read there, with the change.
-/

set_option autoImplicit false

namespace LayeredConfig

open Run

theorem Place.not_sibling_prefix (p : Place) {suffix : String} (hs : suffix ≠ "")
    (hp : p.names ≠ []) : ¬ (p.sibling suffix).names <+: p.names := by
  intro hway
  have hpos := List.length_pos_of_ne_nil hp
  have hlength : (p.sibling suffix).names.length = p.names.length := by
    simp only [sibling_names, List.length_append, List.length_dropLast, List.length_singleton]
    omega
  exact p.ne_sibling suffix hs (hway.eq_of_length hlength).symm

namespace Journal

theorem TakenFrom.documentIn_eq {root : Names} {t u : FileTree} {entry : JournalEntry} {p : Place}
    (h : TakenFrom root t entry p)
    (hview : ∀ path, u.get? path =
      if entry.lease.lock = path then some (.file (.text "")) else t.get? path) :
    Store.documentIn root u entry.lease.file = Store.documentIn root t entry.lease.file := by
  refine Store.documentIn_eq fun q hq path hway => ?_
  obtain rfl := Option.some.inj (h.place.symm.trans hq)
  rw [hview, if_neg]
  rintro rfl
  rw [h.lock] at hway
  exact p.not_sibling_prefix (by decide) h.named hway

theorem opens_of_write {lease : Lease} {text : String} {s s' : Store}
    (h : Store.write lease text s = (.ok (), s')) :
    s'.root = s.root ∧ ∃ p, Place.ofPath? s.root lease.file = some p ∧ p.Opens s'.tree ∧
      s'.tree.get? p.names = some (.file (.text text)) := by
  have hdirectories := Store.write_directories lease text s
  rcases Store.write_tree lease text s with
    ⟨e, s₁, hw, -⟩ | ⟨p, s₁, hp, hw, hroot, hopens, -, hd, htree⟩
  · rw [hw] at h
    cases h
  · rw [hw] at h hdirectories
    cases h
    refine ⟨hroot, p, hp, hopens.of_directories hdirectories, ?_⟩
    have hne : p.names ≠ [] := fun hnil => hd (by rw [hnil]; rfl)
    rw [htree, FileTree.get?_set _ _ _ _ hne, if_pos rfl]

theorem opens_of_release {lease : Lease} {s : Store} {p : Place}
    (hlock : lease.lock = (p.sibling ".lock").names) (ho : p.Opens s.tree) :
    (after (Store.release lease) s).root = s.root ∧
      p.Opens (after (Store.release lease) s).tree ∧
      (after (Store.release lease) s).tree.get? p.names = s.tree.get? p.names := by
  obtain ⟨s', hrelease, hroot, htree | ⟨hd, htree⟩⟩ := Store.release_tree lease s
  · simp only [after]
    rw [hrelease, htree]
    exact ⟨hroot, ho, rfl⟩
  · simp only [after]
    rw [hrelease, htree]
    refine ⟨hroot, ho.of_directories (FileTree.sameDirectories_erase hd), ?_⟩
    have hne : lease.lock ≠ [] := hlock ▸ p.sibling_ne_nil ".lock"
    rw [FileTree.get?_erase _ _ _ hne, if_neg]
    rw [hlock]
    exact (p.ne_sibling ".lock" (by decide)).symm

/-- A change that is committed alone has been made to the document of its file. -/
theorem commit_single {registry : Registry} {e : Staged} {s s' : Store}
    (h : commit registry [e] s = (.ok (), s')) :
    s'.root = s.root ∧ ∃ d text, Store.documentIn s.root s.tree e.file = .ok d ∧
      (e.mutation.apply e.name d).render = .ok text ∧
      Store.textIn s'.root s'.tree e.file = .ok (some text) := by
  obtain ⟨p, hp, rfl⟩ := commit_eq_ok h
  obtain ⟨⟨⟩, p', hone, hnil⟩ := bind_eq_ok hp
  cases hnil
  obtain ⟨target, store₁, l, p₂, d, store₃, text, store₄, hcheck, hlease, hload, hrender, hwrite,
    rfl⟩ := applyEntry_eq_ok hone
  obtain ⟨hroot₁, htree₁⟩ := Store.files_eq _ _ ((Access.keeps_checkWrite _ _ _ _ _).of_eq hcheck)
  obtain ⟨hroot₃, htree₃⟩ := Store.files_eq _ _ ((Access.keeps_load _ _).of_eq hload)
  rcases lease_eq_ok hlease with
    ⟨old, hold, -⟩ | ⟨entry, q, rfl, hfile, hjournal, htaken, hroot₂, hview, -⟩
  · cases hold
  have hread := Access.documentIn_of_look (Access.look_of_load hload)
  rw [← hfile, hroot₂, htaken.documentIn_eq hview, hfile] at hread
  obtain ⟨hroot₄, q', hq', hopens, hnode⟩ := opens_of_write hwrite
  rw [hroot₃, hroot₂, htaken.place] at hq'
  obtain rfl := Option.some.inj hq'
  have hjournal : p₂.journal = [entry] := hjournal
  dsimp only
  rw [hjournal]
  simp only [releaseAll]
  obtain ⟨hroot₅, hopens₅, hnode₅⟩ := opens_of_release htaken.lock hopens
  have hroot : (after (Store.release entry.lease) store₄).root = s.root :=
    hroot₅.trans (hroot₄.trans (hroot₃.trans (hroot₂.trans hroot₁)))
  rw [hroot₁, htree₁] at hread
  refine ⟨hroot, d, text, hread, hrender, ?_⟩
  have hplace := htaken.place
  rw [hroot₁, hfile] at hplace
  rw [hroot, Store.textIn_of_opens hplace hopens₅, hnode₅, hnode]

end Journal

end LayeredConfig
