import Mathlib.Data.List.Nodup
import LayeredConfig.Proofs.Commit.Lease

/-!
# A commit under way

`UnderWay` says how the tree of a commit in progress differs from the tree that it started
with: the locks of its journal are new, the files of its journal may hold something else,
and nothing besides. Taking a lease, writing a leased file and giving a file back keep it.
-/

set_option autoImplicit false

namespace LayeredConfig.Journal

open Run

/-- No file of the tree and none of the named files stands where a named file has its
temporary text, and no named file is named like the lock of another one. -/
structure Apart (root : Names) (t : FileTree) (files : List String) : Prop where
  temporary : ∀ f ∈ files, ∀ p, Place.ofPath? root f = some p →
    ∀ c, t.get? (p.sibling ".tmp").names ≠ some (.file c)
  siblings : ∀ f ∈ files, ∀ g ∈ files, ∀ p q, Place.ofPath? root f = some p →
    Place.ofPath? root g = some q →
    q.names ≠ (p.sibling ".tmp").names ∧ q.names ≠ (p.sibling ".lock").names

theorem apart_iff (root : Names) (t : FileTree) (files : List String) :
    ((∀ f ∈ files, ∀ p ∈ Place.ofPath? root f,
        (t.get? (p.sibling ".tmp").names).all (· == .directory)) ∧
      ∀ f ∈ files, ∀ g ∈ files, ∀ p ∈ Place.ofPath? root f, ∀ q ∈ Place.ofPath? root g,
        q.names ≠ (p.sibling ".tmp").names ∧ q.names ≠ (p.sibling ".lock").names) ↔
      Apart root t files := by
  constructor
  · intro ⟨ht, hs⟩
    refine ⟨fun f hf p hp c hc => ?_, fun f hf g hg p q hp hq => hs f hf g hg p hp q hq⟩
    have := ht f hf p hp
    rw [hc] at this
    cases this
  · intro h
    refine ⟨fun f hf p hp => ?_, fun f hf g hg p hp q hq => h.siblings f hf g hg p q hp hq⟩
    rcases hc : t.get? (p.sibling ".tmp").names with _ | (_ | c)
    · rfl
    · rfl
    · exact absurd hc (h.temporary f hf p hp c)

instance (root : Names) (t : FileTree) (files : List String) : Decidable (Apart root t files) :=
  decidable_of_iff _ (apart_iff root t files)

def Touched (root : Names) (journal : List JournalEntry) (path : Names) : Prop :=
  ∃ e ∈ journal, e.lease.lock = path ∨
    ∃ p, Place.ofPath? root e.lease.file = some p ∧ p.names = path

structure UnderWay (s₀ : Store) (files : List String) (p : Progress) : Prop where
  root : p.store.root = s₀.root
  taken : ∀ e ∈ p.journal, e.lease.file ∈ files ∧ ∃ q, TakenFrom s₀.root s₀.tree e q
  locks : (p.journal.map (·.lease.lock)).Nodup
  locked : ∀ e ∈ p.journal, p.store.tree.get? e.lease.lock = some (.file (.text ""))
  content : ∀ e ∈ p.journal, ∀ q, Place.ofPath? s₀.root e.lease.file = some q →
    p.store.tree.get? q.names ≠ some .directory
  frame : ∀ path, ¬ Touched s₀.root p.journal path →
    p.store.tree.get? path = s₀.tree.get? path

namespace UnderWay

variable {s₀ : Store} {files : List String} {p : Progress}

theorem start (s₀ : Store) (files : List String) : UnderWay s₀ files ⟨s₀, []⟩ where
  root := rfl
  taken := by simp
  locks := List.nodup_nil
  locked := by simp
  content := by simp
  frame := fun _ _ => rfl

theorem of_view (h : UnderWay s₀ files p) (s : Store) (hr : s.root = p.store.root)
    (hv : ∀ path, s.tree.get? path = p.store.tree.get? path) :
    UnderWay s₀ files { p with store := s } where
  root := hr.trans h.root
  taken := h.taken
  locks := h.locks
  locked e he := (hv _).trans (h.locked e he)
  content e he q hq := by
    have hc := h.content e he q hq
    rwa [← hv] at hc
  frame path hp := (hv path).trans (h.frame path hp)

theorem free (h : UnderWay s₀ files p) (e : JournalEntry) (he : e ∈ p.journal) :
    s₀.tree.get? e.lease.lock = none := by
  obtain ⟨q, hq⟩ := (h.taken e he).2
  exact FileTree.entry_eq_notFound _ _ hq.free

theorem before_ne_directory (h : UnderWay s₀ files p) (e : JournalEntry) (he : e ∈ p.journal)
    (q : Place) (hq : Place.ofPath? s₀.root e.lease.file = some q) :
    s₀.tree.get? q.names ≠ some .directory := by
  obtain ⟨q', ht⟩ := (h.taken e he).2
  obtain rfl := Option.some.inj (hq.symm.trans ht.place)
  rw [ht.before]
  cases e.before <;> simp

theorem sameDirectories (h : UnderWay s₀ files p) :
    FileTree.SameDirectories s₀.tree p.store.tree := by
  intro path
  by_cases ht : Touched s₀.root p.journal path
  · obtain ⟨e, he, hl | ⟨q, hq, hn⟩⟩ := ht
    · subst hl
      simp [h.free e he, h.locked e he]
    · subst hn
      exact iff_of_false (h.before_ne_directory e he q hq) (h.content e he q hq)
  · rw [h.frame path ht]

/-- Where a file of the set has its temporary text, nothing changes. -/
theorem temporary_frame (h : UnderWay s₀ files p) (ha : Apart s₀.root s₀.tree files)
    (f : String) (hf : f ∈ files) (q : Place) (hq : Place.ofPath? s₀.root f = some q) :
    p.store.tree.get? (q.sibling ".tmp").names = s₀.tree.get? (q.sibling ".tmp").names := by
  apply h.frame
  rintro ⟨e, he, hl | ⟨r, hr, hn⟩⟩
  · obtain ⟨r, ht⟩ := (h.taken e he).2
    exact q.temporary_ne_lock r (hl.symm.trans ht.lock)
  · exact (ha.siblings f hf _ (h.taken e he).1 q r hq hr).1 hn

theorem entry_unique (h : UnderWay s₀ files p) (e e' : JournalEntry) (he : e ∈ p.journal)
    (he' : e' ∈ p.journal) (hl : e.lease.lock = e'.lease.lock) : e = e' :=
  List.inj_on_of_nodup_map h.locks he he' hl

theorem names_injective (h : UnderWay s₀ files p) (e e' : JournalEntry) (he : e ∈ p.journal)
    (he' : e' ∈ p.journal) (q q' : Place) (hq : Place.ofPath? s₀.root e.lease.file = some q)
    (hq' : Place.ofPath? s₀.root e'.lease.file = some q') (hn : q.names = q'.names) : e = e' := by
  obtain ⟨r, hr⟩ := (h.taken e he).2
  obtain ⟨r', hr'⟩ := (h.taken e' he').2
  obtain rfl := Option.some.inj (hq.symm.trans hr.place)
  obtain rfl := Option.some.inj (hq'.symm.trans hr'.place)
  apply h.entry_unique e e' he he'
  rw [hr.lock, hr'.lock, Place.sibling_names, Place.sibling_names, hn]

theorem lock_ne_names (h : UnderWay s₀ files p) (ha : Apart s₀.root s₀.tree files)
    (e e' : JournalEntry) (he : e ∈ p.journal) (he' : e' ∈ p.journal) (q : Place)
    (hq : Place.ofPath? s₀.root e'.lease.file = some q) : e.lease.lock ≠ q.names := by
  obtain ⟨r, hr⟩ := (h.taken e he).2
  rw [hr.lock]
  exact (ha.siblings _ (h.taken e he).1 _ (h.taken e' he').1 r q hr.place hq).2.symm

theorem changed (h : UnderWay s₀ files p) (ha : Apart s₀.root s₀.tree files)
    (e : JournalEntry) (he : e ∈ p.journal) (q : Place)
    (hq : Place.ofPath? s₀.root e.lease.file = some q) (s : Store) (now : Option Node)
    (hn : now ≠ some .directory) (hr : s.root = p.store.root)
    (hv : ∀ path, s.tree.get? path =
      if q.names = path then now else p.store.tree.get? path) :
    UnderWay s₀ files { p with store := s } where
  root := hr.trans h.root
  taken := h.taken
  locks := h.locks
  locked e' he' := by
    change s.tree.get? e'.lease.lock = _
    rw [hv, if_neg (h.lock_ne_names ha e' e he' he q hq).symm, h.locked e' he']
  content e' he' q' hq' := by
    change s.tree.get? q'.names ≠ _
    rw [hv]
    split
    · exact hn
    · exact h.content e' he' q' hq'
  frame path hp := by
    change s.tree.get? path = _
    rw [hv, if_neg fun hn => hp ⟨e, he, .inr ⟨q, hq, hn⟩⟩]
    exact h.frame path hp

theorem lock_new (h : UnderWay s₀ files p) (ha : Apart s₀.root s₀.tree files) (f : String)
    (hf : f ∈ files) (q : Place) (hq : Place.ofPath? s₀.root f = some q)
    (hfree : p.store.tree.get? (q.sibling ".lock").names = none) :
    ¬ Touched s₀.root p.journal (q.sibling ".lock").names := by
  rintro ⟨e, he, hl | ⟨r, hr, hn⟩⟩
  · have := h.locked e he
    rw [hl, hfree] at this
    cases this
  · exact (ha.siblings f hf _ (h.taken e he).1 q r hq hr).2 hn

theorem names_new (h : UnderWay s₀ files p) (ha : Apart s₀.root s₀.tree files) (f : String)
    (hf : f ∈ files) (q : Place) (hq : Place.ofPath? s₀.root f = some q)
    (hfree : p.store.tree.get? (q.sibling ".lock").names = none) :
    ¬ Touched s₀.root p.journal q.names := by
  rintro ⟨e, he, hl | ⟨r, hr, hn⟩⟩
  · obtain ⟨r, ht⟩ := (h.taken e he).2
    rw [ht.lock] at hl
    exact (ha.siblings _ (h.taken e he).1 f hf r q ht.place hq).2 hl.symm
  · apply h.lock_new ha f hf q hq hfree
    obtain ⟨r', ht⟩ := (h.taken e he).2
    obtain rfl := Option.some.inj (hr.symm.trans ht.place)
    refine ⟨e, he, .inl ?_⟩
    rw [ht.lock, Place.sibling_names, Place.sibling_names, hn]

/-- A lease taken now might as well have been taken at the start. -/
theorem takenFrom_start (h : UnderWay s₀ files p) (ha : Apart s₀.root s₀.tree files)
    (e : JournalEntry) (hf : e.lease.file ∈ files) (q : Place)
    (ht : TakenFrom s₀.root p.store.tree e q) : TakenFrom s₀.root s₀.tree e q := by
  have hnone := FileTree.entry_eq_notFound _ _ ht.free
  rw [ht.lock] at hnone
  refine ⟨ht.place, ht.lock, ht.named, ?_, ?_, ?_⟩
  · exact (FileTree.walk_congr _ _ _ _ h.sameDirectories).2 ht.walked
  · rw [← ht.free, ht.lock]
    apply FileTree.entry_congr
    exact (h.frame _ (h.lock_new ha _ hf q ht.place hnone)).symm
  · rw [← ht.before]
    exact (h.frame _ (h.names_new ha _ hf q ht.place hnone)).symm

/-- A new lease joins the journal. -/
theorem leased (h : UnderWay s₀ files p) (ha : Apart s₀.root s₀.tree files)
    (e : JournalEntry) (hf : e.lease.file ∈ files) (q : Place)
    (ht : TakenFrom s₀.root p.store.tree e q) (s : Store) (hr : s.root = p.store.root)
    (hv : ∀ path, s.tree.get? path =
      if e.lease.lock = path then some (.file (.text "")) else p.store.tree.get? path) :
    UnderWay s₀ files ⟨s, e :: p.journal⟩ := by
  have hnone := FileTree.entry_eq_notFound _ _ ht.free
  have hnone' := hnone
  rw [ht.lock] at hnone'
  have hlock : ∀ e' ∈ p.journal, e.lease.lock ≠ e'.lease.lock := by
    intro e' he' hl
    have := h.locked e' he'
    rw [← hl, hnone] at this
    cases this
  refine ⟨hr.trans h.root, ?_, ?_, ?_, ?_, ?_⟩
  · intro e' he'
    rcases List.mem_cons.mp he' with rfl | he'
    · exact ⟨hf, q, h.takenFrom_start ha e' hf q ht⟩
    · exact h.taken e' he'
  · refine List.nodup_cons.mpr ⟨fun hm => ?_, h.locks⟩
    obtain ⟨e', he', hl⟩ := List.mem_map.mp hm
    exact hlock e' he' hl.symm
  · intro e' he'
    change s.tree.get? _ = _
    rcases List.mem_cons.mp he' with rfl | he'
    · rw [hv, if_pos rfl]
    · rw [hv, if_neg (hlock e' he'), h.locked e' he']
  · intro e' he' q' hq'
    change s.tree.get? _ ≠ _
    rw [hv]
    split
    · simp
    · rcases List.mem_cons.mp he' with rfl | he'
      · obtain rfl := Option.some.inj (hq'.symm.trans ht.place)
        rw [ht.before]
        cases e'.before <;> simp
      · exact h.content e' he' q' hq'
  · intro path hp
    change s.tree.get? _ = _
    rw [hv, if_neg fun hl => hp ⟨e, List.mem_cons_self, .inl hl⟩]
    apply h.frame
    rintro ⟨e', he', ht'⟩
    exact hp ⟨e', List.mem_cons_of_mem _ he', ht'⟩

/-- The newest entry leaves the journal, its file put back and its lock taken away. -/
theorem returned (e : JournalEntry) (rest : List JournalEntry) (s s' : Store)
    (h : UnderWay s₀ files ⟨s, e :: rest⟩) (ha : Apart s₀.root s₀.tree files) (q : Place)
    (hq : Place.ofPath? s₀.root e.lease.file = some q) (hr : s'.root = s.root)
    (hv : ∀ path, s'.tree.get? path = if e.lease.lock = path then none
      else if q.names = path then s₀.tree.get? q.names else s.tree.get? path) :
    UnderWay s₀ files ⟨s', rest⟩ := by
  have hmem : ∀ e' ∈ rest, e' ∈ e :: rest := fun e' => List.mem_cons_of_mem _
  have hnew : e ∉ rest := fun hm =>
    (List.nodup_cons.mp h.locks).1 (List.mem_map.mpr ⟨e, hm, rfl⟩)
  refine ⟨hr.trans h.root, fun e' he' => h.taken e' (hmem e' he'),
    (List.nodup_cons.mp h.locks).2, ?_, ?_, ?_⟩
  · intro e' he'
    change s'.tree.get? _ = _
    rw [hv, if_neg, if_neg, h.locked e' (hmem e' he')]
    · exact (h.lock_ne_names ha e' e (hmem e' he') List.mem_cons_self q hq).symm
    · intro hl
      exact hnew (h.entry_unique e e' List.mem_cons_self (hmem e' he') hl ▸ he')
  · intro e' he' q' hq'
    change s'.tree.get? _ ≠ _
    rw [hv]
    split
    · simp
    · split
      · exact h.before_ne_directory e List.mem_cons_self q hq
      · exact h.content e' (hmem e' he') q' hq'
  · intro path hp
    change s'.tree.get? _ = _
    rw [hv]
    split
    · rename_i hl
      rw [← hl, h.free e List.mem_cons_self]
    · split
      · rename_i hn
        rw [hn]
      · rename_i hl hn
        apply h.frame
        rintro ⟨e', he', ht⟩
        rcases List.mem_cons.mp he' with rfl | he'
        · rcases ht with hl' | ⟨q', hq', hn'⟩
          · exact hl hl'
          · obtain rfl := Option.some.inj (hq'.symm.trans hq)
            exact hn hn'
        · exact hp ⟨e', he', ht⟩

end UnderWay

end LayeredConfig.Journal
