import LayeredConfig.Proofs.Commit.Rereading
import LayeredConfig.Proofs.Store.Enabled

/-!
# Commits of admitted changes

A commit checks each entry once more before it is written, against files that the entries before
it have already changed. What it finds there is what was seen through those entries in memory. So
where no call of the store fails, a set can be written just when each of its entries passes the
check that staging makes, seen through the entries before it.
-/

set_option autoImplicit false

namespace LayeredConfig

open Run

theorem Place.names_of_sibling {p q : Place} {suffix : String} (hp : p.names ≠ [])
    (hq : q.names ≠ []) (h : (p.sibling suffix).names = (q.sibling suffix).names) :
    p.names = q.names := by
  rw [sibling_names, sibling_names, List.getLast?_eq_some_getLast hp,
    List.getLast?_eq_some_getLast hq] at h
  obtain ⟨hinit, hlast⟩ := List.append_inj' h rfl
  have hsame : p.names.getLast hp = q.names.getLast hq := by
    have hend := (List.cons.inj hlast).1
    simpa using hend
  rw [← List.dropLast_append_getLast hp, ← List.dropLast_append_getLast hq, hinit, hsame]

namespace StagedSet

def Avoids (set : StagedSet) (root : Names) (file : String) : Prop :=
  file ∈ set.entries.map (·.file) ∨
    ∀ f ∈ set.entries.map (·.file), ∀ p, Place.ofPath? root f = some p →
      ∀ q, Place.ofPath? root file = some q →
        ¬ p.names <+: q.names ∧ ¬ (p.sibling ".lock").names <+: q.names

instance (set : StagedSet) (root : Names) (file : String) : Decidable (set.Avoids root file) :=
  inferInstanceAs (Decidable (file ∈ set.entries.map (·.file) ∨
    ∀ f ∈ set.entries.map (·.file), ∀ p, Place.ofPath? root f = some p →
      ∀ q, Place.ofPath? root file = some q →
        ¬ p.names <+: q.names ∧ ¬ (p.sibling ".lock").names <+: q.names))

theorem Avoids.separates {set : StagedSet} {root : Names} {file : String}
    (h : set.Avoids root file) : set.Separates root file :=
  h.imp_right fun hclear f hf p hp q hq => (hclear f hf p hp q hq).1

end StagedSet

namespace Staged

def Stepwise (good : List Staged → Staged → Prop) : List Staged → List Staged → Prop
  | _, [] => True
  | before, e :: rest => good before e ∧ Stepwise good (before ++ [e]) rest

instance decidableStepwise (good : List Staged → Staged → Prop)
    [∀ before e, Decidable (good before e)] :
    (before rest : List Staged) → Decidable (Stepwise good before rest)
  | _, [] => isTrue trivial
  | before, e :: rest =>
    have := decidableStepwise good (before ++ [e]) rest
    inferInstanceAs (Decidable (good before e ∧ Stepwise good (before ++ [e]) rest))

def foreseen (root : Names) (t : FileTree) (before : List Staged) : Access.Look := fun file =>
  (Access.look (some ⟨before⟩) root t file).map .settled

def Passes (registry : Registry) (root : Names) (t : FileTree) (before : List Staged)
    (e : Staged) : Prop :=
  (Access.admission registry (foreseen root t before) e.scope e.name e.mutation).map (·.file) =
    .ok e.file

instance (registry : Registry) (root : Names) (t : FileTree) (before : List Staged) (e : Staged) :
    Decidable (Passes registry root t before e) :=
  inferInstanceAs (Decidable (_ = _))

structure Clear (root : Names) (t : FileTree) (before : List Staged) (e : Staged) : Prop where
  undated : (⟨before⟩ : StagedSet).Undated root t
  limits : (⟨before⟩ : StagedSet).WithinLimits root t
  avoids : ∀ file ∈ Access.filesFrom (foreseen root t before) e.scope,
    (⟨before⟩ : StagedSet).Avoids root file

instance (root : Names) (t : FileTree) (before : List Staged) (e : Staged) :
    Decidable (Clear root t before e) :=
  decidable_of_iff ((⟨before⟩ : StagedSet).Undated root t ∧
      (⟨before⟩ : StagedSet).WithinLimits root t ∧
      ∀ file ∈ Access.filesFrom (foreseen root t before) e.scope,
        (⟨before⟩ : StagedSet).Avoids root file)
    ⟨fun ⟨hu, hl, ha⟩ => ⟨hu, hl, ha⟩, fun ⟨hu, hl, ha⟩ => ⟨hu, hl, ha⟩⟩

variable {registry : Registry} {root : Names} {t : FileTree} {before : List Staged} {e : Staged}

theorem Passes.admitted (h : Passes registry root t before e) : ∃ target : LevelRef,
    target.file = e.file ∧ Access.admission registry (foreseen root t before) e.scope e.name
      e.mutation = .ok target := by
  obtain ⟨target, hadmits, htarget⟩ := answer_of_map h
  exact ⟨target, htarget, hadmits⟩

end Staged

structure Store.Writable (s : Store) (files : List String) : Prop where
  apart : Journal.Apart s.root s.tree files
  oneName : ∀ f ∈ files, ∀ g ∈ files, ∀ p q, Place.ofPath? s.root f = some p →
    Place.ofPath? s.root g = some q → p.names = q.names → f = g
  leasable : ∀ f ∈ files, ∃ p, Place.ofPath? s.root f = some p ∧ p.Leasable s.tree

instance (s : Store) (files : List String) : Decidable (s.Writable files) :=
  decidable_of_iff (Journal.Apart s.root s.tree files ∧
      (∀ f ∈ files, ∀ g ∈ files, ∀ p ∈ Place.ofPath? s.root f, ∀ q ∈ Place.ofPath? s.root g,
        p.names = q.names → f = g) ∧
      ∀ f ∈ files, ∃ p ∈ Place.ofPath? s.root f, p.Leasable s.tree)
    ⟨fun ⟨ha, ho, hl⟩ => ⟨ha, fun f hf g hg p q hp hq => ho f hf g hg p hp q hq, hl⟩,
      fun ⟨ha, ho, hl⟩ => ⟨ha, fun f hf g hg p hp q hq => ho f hf g hg p q hp hq, hl⟩⟩

namespace Journal

variable {s₀ : Store} {files : List String} {p : Progress}

theorem UnderWay.leasable (h : UnderWay s₀ files p) (hw : s₀.Writable files) {f : String}
    (hf : f ∈ files) {q : Place} (hq : Place.ofPath? s₀.root f = some q) (hl : q.Leasable s₀.tree)
    (hnew : ∀ e ∈ p.journal, e.lease.file ≠ f) : q.Leasable p.store.tree := by
  refine hl.of_view h.sameDirectories (h.frame _ ?_) (h.temporary_frame hw.apart f hf q hq)
  rintro ⟨e, he, hlock | ⟨r, hr, hnames⟩⟩
  · obtain ⟨r, ht⟩ := (h.taken e he).2
    have hnamed : q.names ≠ [] := by
      obtain ⟨names, hne, heq⟩ := Place.below_of_plain hq hl.ending
      rw [heq]
      exact List.append_ne_nil_of_right_ne_nil _ hne
    have hsame := Place.names_of_sibling ht.named hnamed (ht.lock.symm.trans hlock)
    exact hnew e he (hw.oneName _ (h.taken e he).1 f hf r q ht.place hq hsame)
  · exact (hw.apart.siblings f hf _ (h.taken e he).1 q r hq hr).2 hnames

theorem UnderWay.lease_ok (h : UnderWay s₀ files p) (hw : s₀.Writable files)
    (hs : ∀ kind, p.store.Unfailing kind) (sectionPath : String) {f : String} (hf : f ∈ files)
    {d : LevelDocument} (hd : Store.documentIn p.store.root p.store.tree f = .ok d) :
    ∃ l p', lease sectionPath f p = (.ok l, p') := by
  simp only [lease]
  rw [get_bind]
  rcases hj : p.journal.find? (·.lease.file == f) with _ | entry
  · obtain ⟨q, hq, hl⟩ := hw.leasable f hf
    have hnew : ∀ e ∈ p.journal, e.lease.file ≠ f := by
      intro e he heq
      exact List.find?_eq_none.mp hj e he (beq_iff_eq.mpr heq)
    have hleasable := h.leasable hw hf hq hl hnew
    rw [← h.root] at hq
    obtain ⟨entry, s', htake⟩ := takeLease_ok (hs .acquire) (hs .read) hq hleasable hd
    rw [hj]
    dsimp only
    rw [bind_apply, onStore_apply, Access.onSection_apply, htake]
    exact ⟨_, _, rfl⟩
  · rw [hj]
    exact ⟨_, _, rfl⟩

theorem UnderWay.write_ok (h : UnderWay s₀ files p) (hw : s₀.Writable files)
    (hs : p.store.Unfailing .write) {entry : JournalEntry} (he : entry ∈ p.journal) {q : Place}
    (hq : Place.ofPath? s₀.root entry.lease.file = some q) (hl : q.Leasable s₀.tree)
    (text : String) : ∃ s', Store.write entry.lease text p.store = (.ok (), s') := by
  have htemporary := h.temporary_frame hw.apart _ (h.taken entry he).1 q hq
  have hopens : q.Opens p.store.tree :=
    ⟨hl.fault, hl.ending, (FileTree.walk_congr _ _ _ _ h.sameDirectories).1 hl.walked, hl.named⟩
  have hplace := hq
  rw [← h.root] at hplace
  exact Store.write_apply hs hplace hopens hl.temporarySound hl.temporaryShort
    (htemporary.trans hl.temporaryFree) (h.content entry he q hq) text

theorem UnderWay.reads_same (h : UnderWay s₀ files p) {p' : Progress} (h' : UnderWay s₀ files p')
    {f : String} {q : Place} (hq : Place.ofPath? s₀.root f = some q) (ho : q.Opens s₀.tree)
    (hsame : p'.store.tree.get? q.names = p.store.tree.get? q.names) {d : LevelDocument}
    (hd : Store.documentIn p.store.root p.store.tree f = .ok d) :
    Store.documentIn p'.store.root p'.store.tree f = .ok d := by
  have hopens : ∀ {r : Progress}, UnderWay s₀ files r → q.Opens r.store.tree := fun hr =>
    ⟨ho.fault, ho.ending, (FileTree.walk_congr _ _ _ _ hr.sameDirectories).1 ho.walked, ho.named⟩
  rw [h.root, Store.documentIn_eq_ok_iff hq (hopens h)] at hd
  rw [h'.root, Store.documentIn_eq_ok_iff hq (hopens h'), ← hd]
  simp only [documentAt?]
  rw [hsame]

theorem UnderWay.applyEntry_ok (h : UnderWay s₀ files p) (hw : s₀.Writable files)
    (hs : ∀ kind, p.store.Unfailing kind) {registry : Registry} {e : Staged} (hf : e.file ∈ files)
    (hv : e.mutation.WellFormed) {target : LevelRef} (htarget : target.file = e.file)
    (hadmits : Access.admission registry (Access.look none p.store.root p.store.tree) e.scope e.name
      e.mutation = .ok target) : ∃ p', applyEntry registry e p = (.ok (), p') := by
  have hcheck := Access.checkWrite_apply none registry e.scope e.name e.mutation p.store (hs .read)
  rw [hadmits] at hcheck
  obtain ⟨d, hfound⟩ := Access.found_of_admission hadmits
  have hd := Access.documentIn_of_look hfound
  rw [htarget] at hd
  -- what was read can be written, and so can what was checked
  obtain ⟨text, htext⟩ : ∃ text, (e.mutation.apply e.name d).render = .ok text := by
    have hstorable : e.mutation.Storable := fun v hcontent =>
      ⟨hv.value v hcontent, checkWrite_content hcheck v hcontent⟩
    exact (hstorable.apply (Store.documentIn_stays hd).1).render
  obtain ⟨l, p₂, hlease⟩ := h.lease_ok hw hs e.sectionPath hf hd
  have hs₂ : ∀ kind, p₂.store.Unfailing kind := by
    intro kind
    have hkept : Spared kind (lease e.sectionPath e.file p).2 :=
      preserves_lease e.sectionPath e.file p (hs kind)
    rwa [hlease] at hkept
  rcases h.lease_cases hw.apart e.sectionPath e.file hf with
    ⟨fault, p', hl, -⟩ | ⟨entry, q, p', hl, hmem, hfile, hq, h₂, hview⟩
  · rw [hl] at hlease
    cases hlease
  rw [hl] at hlease
  obtain ⟨hl', rfl⟩ := Prod.mk.inj hlease
  obtain rfl := Except.ok.inj hl'
  obtain ⟨q', hq', hleasable⟩ := hw.leasable e.file hf
  obtain rfl := Option.some.inj (hq.symm.trans hq')
  have hqfile : Place.ofPath? s₀.root entry.lease.file = some q := by rw [hfile, hq]
  have hlock := h₂.lock_ne_names hw.apart entry entry hmem hmem q hqfile
  -- the lock is elsewhere, so the file reads as it did when the entry was checked
  have hd' := h.reads_same h₂ hq hleasable.toOpens (by rw [hview, if_neg hlock]) hd
  have hload : Access.load none e.file p'.store = (.ok d, p'.store) := by
    rw [Access.load_apply none e.file p'.store (hs₂ .read)]
    simp only [Access.look]
    rw [hd']
    rfl
  obtain ⟨s', hwrite⟩ := h₂.write_ok hw (hs₂ .write) hmem hqfile hleasable text
  simp only [applyEntry]
  rw [bind_apply, onStore_apply, hcheck]
  dsimp only
  rw [if_neg (not_not_intro htarget), htarget, bind_apply, hl]
  dsimp only
  rw [bind_apply, onStore_apply, hload]
  dsimp only
  rw [htext]
  dsimp only
  rw [onStore_apply, Access.onSection_apply, hwrite]
  exact ⟨_, rfl⟩

theorem Apart.subset {root : Names} {t : FileTree} (h : Apart root t files) {some : List String}
    (hsome : ∀ f ∈ some, f ∈ files) : Apart root t some where
  temporary f hf := h.temporary f (hsome f hf)
  siblings f hf g hg := h.siblings f (hsome f hf) g (hsome g hg)

theorem applyEntries_append (registry : Registry) (before rest : List Staged) (p : Progress) :
    applyEntries registry (before ++ rest) p =
      (applyEntries registry before >>= fun _ => applyEntries registry rest) p := by
  induction before generalizing p with
  | nil => rfl
  | cons e before ih =>
    simp only [List.cons_append, applyEntries]
    rw [bind_apply, bind_apply, bind_apply]
    rcases applyEntry registry e p with ⟨fault | u, p'⟩
    · rfl
    · dsimp only
      rw [ih, bind_apply]

variable {registry : Registry} {before : List Staged} {s : Store}

theorem outcome_of_applyEntries (hp : applyEntries registry before ⟨s, []⟩ = (.ok (), p))
    (ha : Apart s.root s.tree (before.map (·.file)))
    (hv : ∀ e ∈ before, e.mutation.WellFormed) :
    Outcome ⟨before⟩ s (releaseAll p.journal p.store) := by
  have hcommit : commit registry before s = (.ok (), releaseAll p.journal p.store) := by
    simp only [commit]
    rw [hp]
  exact commit_outcome hcommit ha hv

/-- After some entries of a commit, a file that they avoid is found as foreseen. -/
theorem look_underWay
    (hp : applyEntries registry before ⟨s, []⟩ = (.ok (), p))
    (ha : Apart s.root s.tree (before.map (·.file))) (hv : ∀ e ∈ before, e.mutation.WellFormed)
    (hu : (⟨before⟩ : StagedSet).Undated s.root s.tree)
    (hl : (⟨before⟩ : StagedSet).WithinLimits s.root s.tree) {file : String}
    (hfile : (⟨before⟩ : StagedSet).Avoids s.root file) :
    Access.look none p.store.root p.store.tree file =
      Staged.foreseen s.root s.tree before file := by
  have houtcome := outcome_of_applyEntries hp ha hv
  have hunder : UnderWay s (before.map (·.file)) p := by
    have hkept := (UnderWay.start s (before.map (·.file))).applyEntries_keeps registry before _ ha
      fun e he => List.mem_map_of_mem he
    rwa [hp] at hkept
  simp only [Staged.foreseen]
  rw [← houtcome.look_settles hu hl hfile.separates, hunder.root]
  simp only [Access.look]
  rw [Store.documentIn_eq]
  intro q hq path hpath
  rw [hunder.releaseAll_view, if_neg]
  -- a lock on the way to a file of the entries would have stood where a directory was
  rintro ⟨e, he, rfl⟩
  obtain ⟨hf, r, hr⟩ := hunder.taken e he
  rw [hr.lock] at hpath
  rcases hfile with hmem | hclear
  · obtain ⟨q', hq', ho⟩ := houtcome.opens file hmem
    obtain rfl := Option.some.inj (hq.symm.trans hq')
    have hne : (r.sibling ".lock").names ≠ q.names :=
      (ha.siblings _ hf _ hmem r q hr.place hq).2.symm
    have habove : (r.sibling ".lock").names <+: q.names.dropLast := by
      obtain ⟨rest, hrest⟩ := hpath
      have hrest' : rest ≠ [] := by
        rintro rfl
        exact hne (by rw [← hrest, List.append_nil])
      rw [← hrest, List.dropLast_append_of_ne_nil hrest']
      exact List.prefix_append _ _
    have hdir := FileTree.directory_of_walk s.tree [] _ ho.walked _ (r.sibling_ne_nil ".lock")
      habove
    rw [List.nil_append, ← hr.lock, hunder.free e he] at hdir
    cases hdir
  · exact (hclear _ hf r hr.place q hq).2 hpath

theorem admission_underWay (hp : applyEntries registry before ⟨s, []⟩ = (.ok (), p))
    (ha : Apart s.root s.tree (before.map (·.file))) (hv : ∀ e ∈ before, e.mutation.WellFormed)
    {e : Staged} (hc : Staged.Clear s.root s.tree before e) :
    Access.admission registry (Access.look none p.store.root p.store.tree) e.scope e.name
        e.mutation =
      Access.admission registry (Staged.foreseen s.root s.tree before) e.scope e.name
        e.mutation :=
  Access.admission_congr registry e.name e.mutation fun file hfile =>
    look_underWay hp ha hv hc.undated hc.limits (hc.avoids file hfile)

theorem applyEntry_admitted {e : Staged} {p' : Progress} (hr : p.store.Unfailing .read)
    (h : applyEntry registry e p = (.ok (), p')) : ∃ target : LevelRef, target.file = e.file ∧
      Access.admission registry (Access.look none p.store.root p.store.tree) e.scope e.name
        e.mutation = .ok target := by
  have hcheck := Access.checkWrite_apply none registry e.scope e.name e.mutation p.store hr
  simp only [applyEntry] at h
  rw [bind_apply, onStore_apply, hcheck] at h
  rcases hadmits : Access.admission registry (Access.look none p.store.root p.store.tree) e.scope
    e.name e.mutation with fault | target
  · rw [hadmits] at h
    cases h
  · rw [hadmits] at h
    dsimp only at h
    by_cases htarget : target.file = e.file
    · exact ⟨target, htarget, rfl⟩
    · rw [if_pos htarget] at h
      cases h

structure Given (s : Store) (entries : List Staged) : Prop where
  writable : s.Writable (entries.map (·.file))
  unfailing : ∀ kind, s.Unfailing kind
  wellFormed : ∀ e ∈ entries, e.mutation.WellFormed

variable {rest : List Staged} {e : Staged} {p' : Progress}

theorem Given.first (h : Given s (before ++ rest)) : Given s before where
  writable := by
    have hsome : ∀ f ∈ before.map (·.file), f ∈ (before ++ rest).map (·.file) := by
      intro f hf
      rw [List.map_append]
      exact List.mem_append_left _ hf
    exact ⟨h.writable.apart.subset hsome,
      fun f hf g hg => h.writable.oneName f (hsome f hf) g (hsome g hg),
      fun f hf => h.writable.leasable f (hsome f hf)⟩
  unfailing := h.unfailing
  wellFormed e he := h.wellFormed e (List.mem_append_left _ he)

theorem Given.underWay (h : Given s (before ++ rest))
    (hp : applyEntries registry before ⟨s, []⟩ = (.ok (), p)) :
    UnderWay s ((before ++ rest).map (·.file)) p := by
  have hkept := (UnderWay.start s _).applyEntries_keeps registry before _ h.writable.apart
    fun e he => List.mem_map_of_mem (List.mem_append_left _ he)
  rwa [hp] at hkept

theorem Given.unfailing_after (h : Given s (before ++ rest))
    (hp : applyEntries registry before ⟨s, []⟩ = (.ok (), p)) (kind : StoreCall) :
    p.store.Unfailing kind := by
  have hkept : Spared kind (applyEntries registry before ⟨s, []⟩).2 :=
    preserves_applyEntries registry before ⟨s, []⟩ (h.unfailing kind)
  rwa [hp] at hkept

theorem applyEntries_concat (hp : applyEntries registry before ⟨s, []⟩ = (.ok (), p))
    (he : applyEntry registry e p = (.ok (), p')) :
    applyEntries registry (before ++ [e]) ⟨s, []⟩ = (.ok (), p') := by
  rw [applyEntries_append, bind_apply, hp]
  simp only [applyEntries]
  rw [bind_apply, he]
  rfl

/-- The next entry is written when it passes its check. -/
theorem applyEntry_of_passes (hp : applyEntries registry before ⟨s, []⟩ = (.ok (), p))
    (hg : Given s (before ++ e :: rest)) (hc : Staged.Clear s.root s.tree before e)
    (h : Staged.Passes registry s.root s.tree before e) :
    ∃ p', applyEntry registry e p = (.ok (), p') := by
  have hself : e ∈ before ++ e :: rest := List.mem_append_right _ List.mem_cons_self
  obtain ⟨target, htarget, hadmits⟩ := h.admitted
  rw [← admission_underWay hp hg.first.writable.apart hg.first.wellFormed hc] at hadmits
  exact (hg.underWay hp).applyEntry_ok hg.writable (hg.unfailing_after hp)
    (List.mem_map_of_mem hself) (hg.wellFormed e hself) htarget hadmits

theorem passes_of_applyEntry (hp : applyEntries registry before ⟨s, []⟩ = (.ok (), p))
    (hg : Given s (before ++ e :: rest)) (hc : Staged.Clear s.root s.tree before e)
    (h : applyEntry registry e p = (.ok (), p')) :
    Staged.Passes registry s.root s.tree before e := by
  obtain ⟨target, htarget, hadmits⟩ := applyEntry_admitted (hg.unfailing_after hp .read) h
  rw [admission_underWay hp hg.first.writable.apart hg.first.wellFormed hc] at hadmits
  simp only [Staged.Passes]
  rw [hadmits]
  exact congrArg Except.ok htarget

theorem applyEntries_of_passes (hp : applyEntries registry before ⟨s, []⟩ = (.ok (), p))
    (hg : Given s (before ++ rest)) (hc : Staged.Stepwise (Staged.Clear s.root s.tree) before rest)
    (h : Staged.Stepwise (Staged.Passes registry s.root s.tree) before rest) :
    ∃ p', applyEntries registry rest p = (.ok (), p') := by
  induction rest generalizing before p with
  | nil => exact ⟨p, rfl⟩
  | cons e rest ih =>
    obtain ⟨p₁, hone⟩ := applyEntry_of_passes hp hg hc.1 h.1
    rw [List.append_cons] at hg
    obtain ⟨p', hall⟩ := ih (applyEntries_concat hp hone) hg hc.2 h.2
    refine ⟨p', ?_⟩
    simp only [applyEntries]
    rw [bind_apply, hone]
    exact hall

theorem passes_of_applyEntries (hp : applyEntries registry before ⟨s, []⟩ = (.ok (), p))
    (hg : Given s (before ++ rest)) (hc : Staged.Stepwise (Staged.Clear s.root s.tree) before rest)
    (h : applyEntries registry rest p = (.ok (), p')) :
    Staged.Stepwise (Staged.Passes registry s.root s.tree) before rest := by
  induction rest generalizing before p with
  | nil => exact trivial
  | cons e rest ih =>
    obtain ⟨⟨⟩, p₁, hone, hrest⟩ := bind_eq_ok h
    refine ⟨passes_of_applyEntry hp hg hc.1 hone, ?_⟩
    rw [List.append_cons] at hg
    exact ih (applyEntries_concat hp hone) hg hc.2 hrest

/-- A commit succeeds just when each entry passes its check, seen through the entries before
it. -/
theorem commit_ok_iff {entries : List Staged} (hg : Given s entries)
    (hc : Staged.Stepwise (Staged.Clear s.root s.tree) [] entries) :
    (∃ s', commit registry entries s = (.ok (), s')) ↔
      Staged.Stepwise (Staged.Passes registry s.root s.tree) [] entries := by
  have hstart : applyEntries registry [] ⟨s, []⟩ = (.ok (), ⟨s, []⟩) := rfl
  constructor
  · rintro ⟨s', h⟩
    obtain ⟨p, hp, -⟩ := commit_eq_ok h
    exact passes_of_applyEntries hstart hg hc hp
  · intro h
    obtain ⟨p, hp⟩ := applyEntries_of_passes hstart hg hc h
    refine ⟨releaseAll p.journal p.store, ?_⟩
    simp only [commit]
    rw [hp]

end Journal

end LayeredConfig
