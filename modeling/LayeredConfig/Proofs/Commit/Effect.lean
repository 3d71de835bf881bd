import LayeredConfig.Proofs.Commit.Atomicity
import LayeredConfig.Proofs.Commit.Written

/-!
# What a commit leaves behind

A commit that succeeds leaves in each file of its set what the staged changes make of the
document in memory, as long as the sections that it reads again on the way are undated. All else
in the tree is as before, the locks included.
-/

set_option autoImplicit false

namespace LayeredConfig

open Run Journal

def documentAt? (t : FileTree) (p : Place) : Option LevelDocument :=
  match t.get? p.names with
  | none => some .empty
  | some (.file (.text text)) => (LevelDocument.parse text).toOption
  | some _ => none

theorem documentAt?_eq (t : FileTree) (p : Place) (before : Option String) (d : LevelDocument)
    (hd : LevelDocument.ofFile before = .ok d) (ht : t.get? p.names = textNode before) :
    documentAt? t p = some d := by
  simp only [documentAt?]
  rw [ht]
  cases before with
  | none =>
    cases hd
    rfl
  | some text =>
    have hparse : LevelDocument.parse text = .ok d := hd
    change (LevelDocument.parse text).toOption = _
    rw [hparse]
    rfl

def StagedSet.isSafe (set : StagedSet) (file : String) (d : LevelDocument) : Bool :=
  Staged.isSafe (set.entries.filter (·.file == file)) d

namespace Journal

theorem commit_eq_ok {registry : Registry} {entries : List Staged} {s s' : Store}
    (h : commit registry entries s = (.ok (), s')) :
    ∃ p, applyEntries registry entries ⟨s, []⟩ = (.ok (), p) ∧
      s' = releaseAll p.journal p.store := by
  simp only [commit] at h
  rcases hp : applyEntries registry entries ⟨s, []⟩ with ⟨e | u, p⟩
  · rw [hp] at h
    cases h
  · rw [hp] at h
    cases h
    exact ⟨p, rfl, rfl⟩

theorem UnderWay.releaseAll_view {s₀ : Store} {files : List String} {p : Progress}
    (h : UnderWay s₀ files p) (path : Names) :
    (releaseAll p.journal p.store).tree.get? path =
      if ∃ e ∈ p.journal, e.lease.lock = path then none else p.store.tree.get? path := by
  apply Journal.releaseAll_view p.journal p.store h.locks
  intro e he
  obtain ⟨q, hq⟩ := (h.taken e he).2
  refine ⟨by rw [hq.lock]; exact q.sibling_ne_nil ".lock", ?_, ?_⟩
  · rw [hq.lock, q.sibling_dropLast]
    exact (FileTree.walk_congr _ _ _ _ h.sameDirectories).1 hq.walked
  · exact FileTree.entry_of_get? _ s₀.tree _ _ (by rw [hq.free]; simp) (h.locked e he)

/-- After all entries of a set, a file of the set holds the text that the overlay of its former
document has, just when the sections that are read again are undated. -/
theorem Written.final {s₀ : Store} {files : List String} {set : StagedSet} {p : Progress}
    (h : Written s₀ files set.entries p) (ha : Apart s₀.root s₀.tree files)
    (hv : ∀ c ∈ set.entries, c.mutation.WellFormed) (staged : Staged)
    (hstaged : staged ∈ set.entries) :
    ∃ q former text final, Place.ofPath? s₀.root staged.file = some q ∧
      documentAt? s₀.tree q = some former ∧ (set.overlay staged.file former).render = .ok text ∧
      (releaseAll p.journal p.store).tree.get? q.names = some (.file (.text final)) ∧
      (final = text ↔ set.isSafe staged.file former = true) := by
  have hunder := h.underWay
  obtain ⟨e, he, heq⟩ := h.leased staged hstaged
  obtain ⟨q, hq⟩ := (hunder.taken e he).2
  obtain ⟨after, hrewrite, hafter⟩ := h.written e he q hq.place
  rw [heq] at hrewrite
  have hne : set.entries.filter (·.file == staged.file) ≠ [] :=
    List.ne_nil_of_mem (List.mem_filter.mpr ⟨hstaged, beq_self_eq_true staged.file⟩)
  obtain ⟨former, final, hformer, rfl⟩ := Staged.rewriteAll_eq_ok _ hne e.before after hrewrite
  have hstorable : ∀ c ∈ set.entries.filter (·.file == staged.file), c.mutation.Storable := by
    intro c hc v hcontent
    have hmem := (List.mem_filter.mp hc).1
    exact ⟨(hv c hmem).value v hcontent, h.checked c hmem v hcontent⟩
  obtain ⟨text, htext, hiff⟩ :=
    Staged.rewriteAll_eq_overlay_iff _ hne e.before former final hformer hstorable hrewrite
  refine ⟨q, former, text, final, ?_, documentAt?_eq _ q e.before former hformer hq.before, htext,
    ?_, hiff⟩
  · rw [← heq]
    exact hq.place
  · rw [hunder.releaseAll_view, if_neg, hafter]
    · rfl
    · rintro ⟨e', he', hlock⟩
      exact hunder.lock_ne_names ha e' e he' he q hq.place hlock

theorem UnderWay.releaseAll_frame {s₀ : Store} {files : List String} {p : Progress}
    (h : UnderWay s₀ files p) (path : Names)
    (hpath : ∀ file ∈ files, ∀ q, Place.ofPath? s₀.root file = some q → q.names ≠ path) :
    (releaseAll p.journal p.store).tree.get? path = s₀.tree.get? path := by
  rw [h.releaseAll_view]
  split
  · rename_i hlock
    obtain ⟨e, he, rfl⟩ := hlock
    exact (h.free e he).symm
  · rename_i hlock
    apply h.frame
    rintro ⟨e, he, heq | ⟨q, hq, heq⟩⟩
    · exact hlock ⟨e, he, heq⟩
    · exact hpath _ (h.taken e he).1 q hq heq

end Journal

/-- A successful commit of a set: each file of the set held a document before, the document with
the staged changes can be rendered, and the file holds that text, just when the sections that are
read again are undated. Every other path shows what it showed before, so all other files and all
locks are the same. -/
theorem successful_commit_effect (set : StagedSet) (owner : Option String) (s s' : Service)
    (h : Service.applySet set owner s = (.ok (), s'))
    (ha : Apart s.store.root s.store.tree (set.entries.map (·.file)))
    (hv : ∀ e ∈ set.entries, e.mutation.WellFormed) :
    (∀ file ∈ set.entries.map (·.file), ∃ p former text final,
      Place.ofPath? s.store.root file = some p ∧ documentAt? s.store.tree p = some former ∧
      (set.overlay file former).render = .ok text ∧
      s'.store.tree.get? p.names = some (.file (.text final)) ∧
      (final = text ↔ set.isSafe file former = true)) ∧
    ∀ path, (∀ file ∈ set.entries.map (·.file), ∀ p, Place.ofPath? s.store.root file = some p →
      p.names ≠ path) → s'.store.tree.get? path = s.store.tree.get? path := by
  rcases Service.applySet_cases set owner s with ⟨e, he⟩ | hc
  · rw [he] at h
    cases h
  rw [hc, Service.onStore_apply] at h
  rcases hs : Journal.commit s.registry set.entries s.store with ⟨r, store⟩
  rw [hs] at h
  cases h
  obtain ⟨p, hp, rfl⟩ := commit_eq_ok hs
  have hall := (Written.start s.store (set.entries.map (·.file))).run ha
    (fun e he => List.mem_map_of_mem he) hp
  rw [List.nil_append] at hall
  constructor
  · intro file hfile
    obtain ⟨staged, hstaged, rfl⟩ := List.mem_map.mp hfile
    exact hall.final ha hv staged hstaged
  · exact hall.underWay.releaseAll_frame

def sharedDisk : Store :=
  { fullDisk with faults := [] }

def threeEdits : StagedSet :=
  ⟨[⟨.global, "host", "host.toml", "default_document",
      .replace (.obj [("enabled", .null), ("files", .arr [.str "a.htm"])])⟩,
    ⟨.file "shop/web.toml", "shop/web.toml", "shop/web.toml", "directory_browse",
      .replace (.obj [("enabled", .bool true)])⟩,
    ⟨.global, "host", "host.toml", "static_content", .revert⟩]⟩

theorem successful_commit_effect_threeEdits :
    (Service.applySet threeEdits none (.new sharedDisk .builtin 900 0)).1 = .ok () ∧
      (Service.applySet threeEdits none (.new sharedDisk .builtin 900 0)).2.store.tree.get?
          ["srv", "host.toml"] =
        some (.file (.text "[sections.default_document]\nfiles = [\"a.htm\"]\n")) := by
  have h : (Service.applySet threeEdits none (.new sharedDisk .builtin 900 0)).1 = .ok () := by
    decide +kernel
  have ha : Apart sharedDisk.root sharedDisk.tree (threeEdits.entries.map (·.file)) := by
    decide +kernel
  have hv : ∀ e ∈ threeEdits.entries, e.mutation.WellFormed := by decide +kernel
  have hplace : Place.ofPath? ["srv"] "host.toml" =
      some ⟨["srv", "host.toml"], .plain, "/srv/host.toml"⟩ := by decide +kernel
  refine ⟨h, ?_⟩
  generalize hs : Service.applySet threeEdits none (.new sharedDisk .builtin 900 0) = result at h ⊢
  obtain ⟨answer, after⟩ := result
  obtain rfl : answer = .ok () := h
  obtain ⟨p, former, text, final, hp, hformer, htext, hfinal, hiff⟩ :=
    (successful_commit_effect threeEdits none _ after hs ha hv).1 "host.toml" (by decide)
  obtain rfl := Option.some.inj (hp.symm.trans hplace)
  have hdocument : documentAt? sharedDisk.tree ⟨["srv", "host.toml"], .plain, "/srv/host.toml"⟩ =
      some ⟨[], [("static_content", .obj [("mime_maps", .arr [])])]⟩ := by decide +kernel
  obtain rfl := Option.some.inj (hformer.symm.trans hdocument)
  have hrender : (threeEdits.overlay "host.toml"
      ⟨[], [("static_content", .obj [("mime_maps", .arr [])])]⟩).render =
        .ok "[sections.default_document]\nfiles = [\"a.htm\"]\n" := by decide +kernel
  obtain rfl := Except.ok.inj (htext.symm.trans hrender)
  rw [hfinal, hiff.2 (by decide +kernel)]

def datedEdits : StagedSet :=
  ⟨[⟨.global, "host", "host.toml", "default_document",
      .replace (.obj [("a", .obj [("$__toml_private_datetime", .str "1979-05-27")])])⟩,
    ⟨.global, "host", "host.toml", "static_content", .replace (.obj [("v", .int 1)])⟩]⟩

theorem dated_commit_effect :
    (Service.applySet datedEdits none (.new sharedDisk .builtin 900 0)).1 = .ok () ∧
      Apart sharedDisk.root sharedDisk.tree (datedEdits.entries.map (·.file)) ∧
      ∃ p former text final, Place.ofPath? sharedDisk.root "host.toml" = some p ∧
        documentAt? sharedDisk.tree p = some former ∧
        (datedEdits.overlay "host.toml" former).render = .ok text ∧
        (Service.applySet datedEdits none (.new sharedDisk .builtin 900 0)).2.store.tree.get?
          p.names = some (.file (.text final)) ∧
        final ≠ text := by
  refine ⟨by decide +kernel, by decide +kernel,
    ⟨["srv", "host.toml"], .plain, "/srv/host.toml"⟩,
    ⟨[], [("static_content", .obj [("mime_maps", .arr [])])]⟩,
    "[sections.default_document.a]\n\"$__toml_private_datetime\" = \"1979-05-27\"\n\n" ++
      "[sections.static_content]\nv = 1\n",
    "[sections.default_document]\na = \"1979-05-27\"\n\n[sections.static_content]\nv = 1\n", ?_⟩
  decide +kernel

end LayeredConfig
