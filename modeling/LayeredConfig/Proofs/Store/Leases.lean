import LayeredConfig.Proofs.Store.Containment

/-!
# Leases that are held at the same time

A lease is a lock file, and while the locks of all held leases are there no file is leased twice. A
lock is an ordinary file beside the leased one: whoever leases the lock itself may remove it, and
nothing else takes the lock of a held lease away. In the same way the temporary text of a write goes
where a file may stand that has nothing to do with it.
-/

set_option autoImplicit false

namespace LayeredConfig

open Run

namespace StoreRequest

inductive Leaves (root : Names) (t : FileTree) : StoreRequest → FileTree → Prop
  | same {r : StoreRequest} : Leaves root t r t
  | locked {file : String} {p : Place} : Place.ofPath? root file = some p →
      t.get? (p.sibling ".lock").names = none →
      Leaves root t (.acquire file) (t.set (p.sibling ".lock").names (.file (.text "")))
  | undone {l : Lease} {text : String} {p : Place} : Place.ofPath? root l.file = some p →
      t.get? (p.sibling ".tmp").names ≠ some .directory →
      Leaves root t (.write l text) ((t.set (p.sibling ".tmp").names (.file (.text text))).erase
        (p.sibling ".tmp").names)
  | written {l : Lease} {text : String} {p : Place} : Place.ofPath? root l.file = some p →
      t.get? (p.sibling ".tmp").names ≠ some .directory → t.get? p.names ≠ some .directory →
      Leaves root t (.write l text) (((t.set (p.sibling ".tmp").names (.file (.text text))).erase
        (p.sibling ".tmp").names).set p.names (.file (.text text)))
  | removed {l : Lease} {p : Place} : Place.ofPath? root l.file = some p →
      t.get? p.names ≠ some .directory → Leaves root t (.remove l) (t.erase p.names)
  | grown {dir : String} {u : FileTree} : FileTree.Grown t u → Leaves root t (.createDir dir) u
  | released {l : Lease} : t.get? l.lock ≠ some .directory →
      Leaves root t (.release l) (t.erase l.lock)

theorem leaves (r : StoreRequest) (s : Store) :
    (r.run s).2.root = s.root ∧ Leaves s.root s.tree r (r.run s).2.tree := by
  have hfiles : ∀ s' : Store, s'.files = s.files →
      s'.root = s.root ∧ Leaves s.root s.tree r s'.tree := by
    intro s' h
    obtain ⟨hroot, htree⟩ := Store.files_eq s s' h
    exact ⟨hroot, htree ▸ .same⟩
  cases r with
  | read file =>
    simp only [run]
    rw [state_of_map]
    exact hfiles _ (Store.keeps_read file s)
  | acquire file =>
    simp only [run]
    rw [state_of_map]
    rcases Store.acquire_cases file s with ⟨e, s', h, hsame⟩ | ⟨p, s', hp, h, hroot, hnew⟩
    · rw [h]
      exact hfiles s' hsame
    · rw [h]
      obtain ⟨-, hfree, htree⟩ := FileTree.createNew_eq_ok _ _ _ hnew
      exact ⟨hroot, htree ▸ .locked hp (FileTree.entry_eq_notFound _ _ hfree)⟩
  | write l text =>
    simp only [run]
    rw [state_of_map]
    rcases Store.write_tree l text s with
      ⟨e, s', h, hroot, htree | ⟨p, hp, hd, htree⟩⟩ | ⟨p, s', hp, h, hroot, -, hd, hd', htree⟩
    · rw [h]
      exact ⟨hroot, htree ▸ .same⟩
    · rw [h]
      exact ⟨hroot, htree ▸ .undone hp hd⟩
    · rw [h]
      rw [FileTree.get?_set _ _ _ _ (p.sibling_ne_nil ".tmp"),
        if_neg (p.ne_sibling ".tmp" (by decide)).symm] at hd'
      exact ⟨hroot, htree ▸ .written hp hd hd'⟩
  | remove l =>
    simp only [run]
    rw [state_of_map]
    rcases Store.remove_cases l s with
      ⟨e, s', h, hsame⟩ | ⟨p, s', hp, h, hroot, ⟨htree, -⟩ | ⟨-, hfile, htree⟩⟩
    · rw [h]
      exact hfiles s' hsame
    · rw [h]
      exact ⟨hroot, htree ▸ .same⟩
    · rw [h]
      exact ⟨hroot, htree ▸ .removed hp hfile⟩
  | createDir dir =>
    simp only [run]
    rw [state_of_map]
    have hgrows := Store.preserves_createDir s dir s (.refl s)
    exact ⟨hgrows.root, .grown hgrows.tree⟩
  | release l =>
    simp only [run]
    rw [state_of_map]
    obtain ⟨s', h, hroot, htree | ⟨hfile, htree⟩⟩ := Store.release_tree l s
    · rw [h]
      exact ⟨hroot, htree ▸ .same⟩
    · rw [h]
      exact ⟨hroot, htree ▸ .released hfile⟩

variable {r : StoreRequest} {root path : Names} {t u : FileTree}

theorem Leaves.directory (h : Leaves root t r u) (hdir : t.get? path = some .directory) :
    u.get? path = some .directory := by
  cases h with
  | same => exact hdir
  | locked _ hfree =>
    exact (FileTree.sameDirectories_set (by rw [hfree]; simp) _ path).1 hdir
  | undone _ hd => exact (FileTree.sameDirectories_undo hd _ path).1 hdir
  | written _ hd hd' =>
    have hundone := FileTree.sameDirectories_undo hd
    refine (FileTree.sameDirectories_set (fun hafter => hd' ?_) _ path).1 ((hundone _ path).1 hdir)
    exact (hundone _ _).2 hafter
  | removed _ hfile => exact (FileTree.sameDirectories_erase hfile path).1 hdir
  | grown hgrown => exact hgrown.directory hdir
  | released hfile => exact (FileTree.sameDirectories_erase hfile path).1 hdir

end StoreRequest

namespace FileTree

variable {t : FileTree} {p path : Names}

def FileAt (t : FileTree) (path : Names) : Prop := ∃ c, t.get? path = some (.file c)

theorem FileAt.set (h : t.FileAt path) (hne : p ≠ []) (c : Content) :
    (t.set p (.file c)).FileAt path := by
  by_cases hp : p = path
  · exact ⟨c, by rw [get?_set _ _ _ _ hne, if_pos hp]⟩
  · obtain ⟨c', hc⟩ := h
    exact ⟨c', by rw [get?_set _ _ _ _ hne, if_neg hp, hc]⟩

theorem FileAt.erase (h : t.FileAt path) (hne : p ≠ []) (hp : p ≠ path) :
    (t.erase p).FileAt path := by
  obtain ⟨c, hc⟩ := h
  exact ⟨c, by rw [get?_erase _ _ _ hne, if_neg hp, hc]⟩

theorem ne_nil_of_not_directory (h : t.get? path ≠ some .directory) : path ≠ [] := by
  rintro rfl
  exact h rfl

end FileTree

namespace StoreRequest

variable {r : StoreRequest} {root path : Names} {t u : FileTree}

def Clears (root path : Names) : StoreRequest → Prop
  | .write l _ => ∃ p, Place.ofPath? root l.file = some p ∧ (p.sibling ".tmp").names = path
  | .remove l => ∃ p, Place.ofPath? root l.file = some p ∧ p.names = path
  | .release l => l.lock = path
  | _ => False

theorem Leaves.file (h : Leaves root t r u) (hclears : ¬ r.Clears root path)
    (hfile : t.FileAt path) : u.FileAt path := by
  cases h with
  | same => exact hfile
  | @locked file p _ _ => exact hfile.set (p.sibling_ne_nil ".lock") _
  | @undone l text p hp _ =>
    have hne := p.sibling_ne_nil ".tmp"
    exact (hfile.set hne _).erase hne fun hpath => hclears ⟨p, hp, hpath⟩
  | @written l text p hp _ hd =>
    have hne := p.sibling_ne_nil ".tmp"
    refine FileTree.FileAt.set ?_ (FileTree.ne_nil_of_not_directory hd) _
    exact (hfile.set hne _).erase hne fun hpath => hclears ⟨p, hp, hpath⟩
  | @removed l p hp hd =>
    exact hfile.erase (FileTree.ne_nil_of_not_directory hd) fun hpath => hclears ⟨p, hp, hpath⟩
  | grown hgrown =>
    obtain ⟨c, hc⟩ := hfile
    exact ⟨c, (hgrown.file_iff path c).2 hc⟩
  | @released l hd => exact hfile.erase (FileTree.ne_nil_of_not_directory hd) hclears

end StoreRequest

structure Tenancy where
  store : Store
  held : List Lease

def Lease.names? (root : Names) (l : Lease) : Option Names :=
  (Place.ofPath? root l.file).map (·.names)

namespace Tenancy

def step : StoreRequest → Tenancy → Tenancy
  | .acquire file, x =>
    match Store.acquire file x.store with
    | (.ok l, s) => ⟨s, l :: x.held⟩
    | (.error _, s) => ⟨s, x.held⟩
  | .release l, x => ⟨((StoreRequest.release l).run x.store).2, x.held.erase l⟩
  | r, x => ⟨(r.run x.store).2, x.held⟩

def run : List StoreRequest → Tenancy → Tenancy
  | [], x => x
  | r :: rs, x => run rs (x.step r)

def Lawful (x : Tenancy) (r : StoreRequest) : Prop := ∀ l, r.lease? = some l → l ∈ x.held

def LawfulRun : List StoreRequest → Tenancy → Prop
  | [], _ => True
  | r :: rs, x => x.Lawful r ∧ LawfulRun rs (x.step r)

def Exclusive (x : Tenancy) : Prop :=
  x.held.Pairwise fun l l' => l.names? x.store.root ≠ l'.names? x.store.root

def Spares (x : Tenancy) : StoreRequest → Prop
  | .remove l => ∀ l' ∈ x.held, l.names? x.store.root ≠ some l'.lock
  | _ => True

def SparingRun : List StoreRequest → Tenancy → Prop
  | [], _ => True
  | r :: rs, x => x.Spares r ∧ SparingRun rs (x.step r)

instance decidableLawful (x : Tenancy) (r : StoreRequest) : Decidable (x.Lawful r) :=
  decidable_of_iff (∀ l ∈ r.lease?.toList, l ∈ x.held)
    ⟨fun h l hl => h l (Option.mem_toList.mpr hl), fun h l hl => h l (Option.mem_toList.mp hl)⟩

instance decidableLawfulRun : (calls : List StoreRequest) → (x : Tenancy) →
    Decidable (LawfulRun calls x)
  | [], _ => inferInstanceAs (Decidable True)
  | r :: rs, x =>
    have := decidableLawfulRun rs (x.step r)
    inferInstanceAs (Decidable (x.Lawful r ∧ LawfulRun rs (x.step r)))

instance (x : Tenancy) : Decidable x.Exclusive :=
  inferInstanceAs (Decidable (x.held.Pairwise fun l l' =>
    l.names? x.store.root ≠ l'.names? x.store.root))

instance decidableSpares (x : Tenancy) : (r : StoreRequest) → Decidable (x.Spares r)
  | .remove l => inferInstanceAs (Decidable (∀ l' ∈ x.held, l.names? x.store.root ≠ some l'.lock))
  | .read _ | .acquire _ | .write .. | .createDir _ | .release _ =>
    inferInstanceAs (Decidable True)

instance decidableSparingRun : (calls : List StoreRequest) → (x : Tenancy) →
    Decidable (SparingRun calls x)
  | [], _ => inferInstanceAs (Decidable True)
  | r :: rs, x =>
    have := decidableSparingRun rs (x.step r)
    inferInstanceAs (Decidable (x.Spares r ∧ SparingRun rs (x.step r)))

variable {x : Tenancy} {r : StoreRequest}

theorem store_step (r : StoreRequest) (x : Tenancy) : (x.step r).store = (r.run x.store).2 := by
  cases r with
  | acquire file =>
    simp only [step, StoreRequest.run]
    rw [state_of_map]
    rcases Store.acquire file x.store with ⟨e | l, s⟩ <;> rfl
  | _ => rfl

/-- A request gives a lease or takes one back, or the leases that are held stay the same. -/
theorem held_step (r : StoreRequest) (x : Tenancy) :
    (∃ file p s', r = .acquire file ∧ Place.ofPath? x.store.root file = some p ∧
        Store.acquire file x.store = (.ok ⟨file, (p.sibling ".lock").names⟩, s') ∧
        (x.step r).held = ⟨file, (p.sibling ".lock").names⟩ :: x.held ∧
        x.store.tree.createNew (p.sibling ".lock").names = .ok (x.step r).store.tree) ∨
      (∃ l, r = .release l ∧ (x.step r).held = x.held.erase l) ∨
      ((∀ l, r ≠ .release l) ∧ (x.step r).held = x.held) := by
  cases r with
  | acquire file =>
    simp only [step]
    rcases Store.acquire_cases file x.store with ⟨e, s', h, -⟩ | ⟨p, s', hp, h, -, hnew⟩
    · rw [h]
      exact .inr (.inr ⟨fun l hr => (by cases hr), rfl⟩)
    · rw [h]
      exact .inl ⟨file, p, s', rfl, hp, h, rfl, hnew⟩
  | release l => exact .inr (.inl ⟨l, rfl, rfl⟩)
  | _ => exact .inr (.inr ⟨fun l hr => (by cases hr), rfl⟩)

structure Lockable (root : Names) (t : FileTree) (l : Lease) : Prop where
  place : ∃ p, Place.ofPath? root l.file = some p ∧ l.lock = (p.sibling ".lock").names ∧
    (p.sibling ".lock").fault? = none
  walked : t.walk [] l.lock.dropLast = .ok ()
  short : FileTree.isShort l.lock = true

theorem Lockable.stays {root : Names} {t u : FileTree} {l : Lease} (h : Lockable root t l)
    (hd : ∀ path, t.get? path = some .directory → u.get? path = some .directory) :
    Lockable root u l :=
  ⟨h.place, FileTree.walk_of_directories t u _ _ hd h.walked, h.short⟩

theorem Lockable.lock_eq {root : Names} {t : FileTree} {l l' : Lease} (h : Lockable root t l)
    (h' : Lockable root t l') (hnames : l.names? root = l'.names? root) : l.lock = l'.lock := by
  obtain ⟨p, hp, hlock, -⟩ := h.place
  obtain ⟨q, hq, hlock', -⟩ := h'.place
  simp only [Lease.names?] at hnames
  rw [hp, hq] at hnames
  have hsame : p.names = q.names := Option.some.inj hnames
  rw [hlock, hlock', Place.sibling_names, Place.sibling_names, hsame]

theorem fault_of_acquire {file : String} {l : Lease} {p : Place} {s s' : Store}
    (h : Store.acquire file s = (.ok l, s')) (hp : Place.ofPath? s.root file = some p) :
    (p.sibling ".lock").fault? = none := by
  simp only [Store.acquire] at h
  obtain ⟨⟨⟩, s₁, htick, h₁⟩ := bind_eq_ok h
  obtain ⟨q, s₂, hplace, h₂⟩ := bind_eq_ok h₁
  obtain ⟨⟨⟩, s₃, hchange, -⟩ := bind_eq_ok h₂
  obtain ⟨hroot, -⟩ := Store.files_eq _ _ ((Store.keeps_tick _ _).of_eq htick)
  obtain ⟨hq, rfl⟩ := Store.place_eq_ok hplace
  rw [hroot, hp] at hq
  obtain rfl := Option.some.inj hq
  simp only [Store.change] at hchange
  rw [get_bind] at hchange
  rcases hfault : (p.sibling ".lock").fault? with _ | e
  · rfl
  · rw [hfault] at hchange
    cases hchange

theorem Lockable.acquire_ok {l : Lease} {s : Store} (h : Lockable s.root s.tree l)
    (hs : s.Unfailing .acquire) (hfree : s.tree.get? l.lock = none) :
    ∃ l' s', Store.acquire l.file s = (.ok l', s') := by
  obtain ⟨p, hp, hlock, hsound⟩ := h.place
  have hcreate := FileTree.createNew_of_free s.tree _ h.walked h.short hfree
  rw [hlock] at hcreate
  simp only [Store.acquire]
  rw [bind_apply, Store.tick_apply .acquire l.file s hs]
  dsimp only
  rw [bind_apply, Store.place_apply hp]
  dsimp only
  rw [bind_apply, Store.change_apply (Store.acquireError l.file) _ hsound hcreate]
  exact ⟨_, _, rfl⟩

def Founded (x : Tenancy) : Prop := ∀ l ∈ x.held, Lockable x.store.root x.store.tree l

theorem Founded.step (h : x.Founded) (r : StoreRequest) : (x.step r).Founded := by
  obtain ⟨hroot, hleaves⟩ := StoreRequest.leaves r x.store
  rw [← store_step] at hroot hleaves
  have hold : ∀ l ∈ x.held, Lockable (x.step r).store.root (x.step r).store.tree l := by
    intro l hl
    rw [hroot]
    exact (h l hl).stays fun path => hleaves.directory
  rcases held_step r x with
    ⟨file, p, s', rfl, hp, hanswer, hheld, hnew⟩ | ⟨l₀, -, hheld⟩ | ⟨-, hheld⟩
  · intro l hl
    rw [hheld] at hl
    rcases List.mem_cons.mp hl with rfl | hl
    · obtain ⟨hwalk, hfree, -⟩ := FileTree.createNew_eq_ok _ _ _ hnew
      have hshort := FileTree.isShort_of_entry _ _ (by rw [hfree]; simp)
      have hlockable : Lockable x.store.root x.store.tree ⟨file, (p.sibling ".lock").names⟩ :=
        ⟨⟨p, hp, rfl, fault_of_acquire hanswer hp⟩, hwalk, hshort⟩
      rw [hroot]
      exact hlockable.stays fun path => hleaves.directory
    · exact hold l hl
  · intro l hl
    rw [hheld] at hl
    exact hold l (List.mem_of_mem_erase hl)
  · intro l hl
    rw [hheld] at hl
    exact hold l hl

structure Guarded (x : Tenancy) : Prop where
  founded : x.Founded
  locked : ∀ l ∈ x.held, x.store.tree.FileAt l.lock
  apart : (x.held.map (·.lock)).Nodup

theorem Guarded.exclusive (h : x.Guarded) : x.Exclusive := by
  have hapart := List.pairwise_map.mp h.apart
  refine hapart.imp_of_mem fun hl hl' hlocks hnames => hlocks ?_
  exact (h.founded _ hl).lock_eq (h.founded _ hl') hnames

/-- The lock of a lease that stays held stays there, unless it is removed as a file. -/
theorem Guarded.lock_stays (h : x.Guarded) (hlawful : x.Lawful r) (hspares : x.Spares r)
    {l : Lease} (hl : l ∈ x.held) (hstays : ∀ l₀, r = .release l₀ → l ≠ l₀) :
    (x.step r).store.tree.FileAt l.lock := by
  obtain ⟨-, hleaves⟩ := StoreRequest.leaves r x.store
  rw [store_step]
  refine hleaves.file ?_ (h.locked l hl)
  obtain ⟨p, hp, hlock, -⟩ := (h.founded l hl).place
  cases r with
  | read file => exact False.elim
  | acquire file => exact False.elim
  | createDir dir => exact False.elim
  | write l₀ text =>
    rintro ⟨q, -, htemporary⟩
    exact Place.temporary_ne_lock q p (htemporary.trans hlock)
  | remove l₀ =>
    rintro ⟨q, hq, hnames⟩
    refine hspares l hl ?_
    simp only [Lease.names?]
    rw [hq, ← hnames]
    rfl
  | release l₀ =>
    intro hsame
    exact hstays l₀ rfl (List.inj_on_of_nodup_map h.apart hl (hlawful l₀ rfl) hsame.symm)

theorem Guarded.step (h : x.Guarded) (hlawful : x.Lawful r) (hspares : x.Spares r) :
    (x.step r).Guarded := by
  refine ⟨h.founded.step r, ?_, ?_⟩
  · rcases held_step r x with
      ⟨file, p, s', rfl, hp, -, hheld, hnew⟩ | ⟨l₀, rfl, hheld⟩ | ⟨hother, hheld⟩
    · intro l hl
      rw [hheld] at hl
      rcases List.mem_cons.mp hl with rfl | hl
      · rw [(FileTree.createNew_eq_ok _ _ _ hnew).2.2]
        exact ⟨.text "", by rw [FileTree.get?_set _ _ _ _ (p.sibling_ne_nil ".lock"), if_pos rfl]⟩
      · exact h.lock_stays hlawful hspares hl fun l₀ hr => by cases hr
    · intro l hl
      rw [hheld] at hl
      have hnodup : x.held.Nodup := List.Nodup.of_map _ h.apart
      obtain ⟨hother, hl⟩ := (hnodup.mem_erase_iff).1 hl
      refine h.lock_stays hlawful hspares hl fun l₁ hr => ?_
      cases hr
      exact hother
    · intro l hl
      rw [hheld] at hl
      exact h.lock_stays hlawful hspares hl fun l₀ hr => absurd hr (hother l₀)
  · rcases held_step r x with ⟨file, p, s', rfl, hp, -, hheld, hnew⟩ | ⟨l₀, -, hheld⟩ | ⟨-, hheld⟩
    · rw [hheld, List.map_cons, List.nodup_cons]
      refine ⟨fun hmem => ?_, h.apart⟩
      -- the new lock was free, and the others are there
      obtain ⟨l, hl, hsame⟩ := List.mem_map.mp hmem
      obtain ⟨c, hc⟩ := h.locked l hl
      have hfree := FileTree.entry_eq_notFound _ _ (FileTree.createNew_eq_ok _ _ _ hnew).2.1
      rw [hsame] at hc
      cases hfree.symm.trans hc
    · rw [hheld]
      exact h.apart.sublist (List.erase_sublist.map _)
    · rw [hheld]
      exact h.apart

variable {calls : List StoreRequest}

theorem Founded.run (h : x.Founded) (calls : List StoreRequest) :
    (Tenancy.run calls x).Founded := by
  induction calls generalizing x with
  | nil => exact h
  | cons r calls ih => exact ih (h.step r)

theorem Guarded.run (h : x.Guarded) (hlawful : LawfulRun calls x) (hspares : SparingRun calls x) :
    (Tenancy.run calls x).Guarded := by
  induction calls generalizing x with
  | nil => exact h
  | cons r calls ih => exact ih (h.step hlawful.1 hspares.1) hlawful.2 hspares.2

theorem guarded_start (s : Store) : Guarded ⟨s, []⟩ :=
  ⟨fun l hl => (by cases hl), fun l hl => (by cases hl), List.nodup_nil⟩

/-- One more lease leaves every file leased once just when the locks of all held leases are
there. -/
theorem Founded.exclusive_iff (h : x.Founded) (hexclusive : x.Exclusive)
    (hs : x.store.Unfailing .acquire) :
    (∀ file, (x.step (.acquire file)).Exclusive) ↔
      ∀ l ∈ x.held, x.store.tree.get? l.lock ≠ none := by
  have hroot : ∀ file, (x.step (.acquire file)).store.root = x.store.root := by
    intro file
    rw [store_step]
    exact (StoreRequest.leaves _ _).1
  constructor
  · intro hnext l hl hfree
    obtain ⟨l', s', hagain⟩ := (h l hl).acquire_ok hs hfree
    rcases held_step (.acquire l.file) x with
      ⟨file, p, s₁, hfile, hp, hanswer, hheld, -⟩ | ⟨l₀, hr, -⟩ | ⟨-, hheld⟩
    · cases hfile
      have hpairs := hnext l.file
      simp only [Exclusive] at hpairs
      rw [hheld, hroot, List.pairwise_cons] at hpairs
      exact hpairs.1 l hl rfl
    · cases hr
    · simp only [Tenancy.step] at hheld
      rw [hagain] at hheld
      exact absurd hheld (List.cons_ne_self l' x.held)
  · intro hlocked file
    simp only [Exclusive]
    rw [hroot]
    rcases held_step (.acquire file) x with
      ⟨file', p, s', hfile, hp, hanswer, hheld, hnew⟩ | ⟨l₀, hr, -⟩ | ⟨-, hheld⟩
    · rw [hheld, List.pairwise_cons]
      refine ⟨fun l hl hnames => ?_, hexclusive⟩
      obtain ⟨q, hq, hlock, -⟩ := (h l hl).place
      simp only [Lease.names?] at hnames
      rw [hp, hq] at hnames
      have hsame : p.names = q.names := Option.some.inj hnames
      refine hlocked l hl ?_
      rw [hlock, Place.sibling_names, ← hsame]
      exact FileTree.entry_eq_notFound _ _ (FileTree.createNew_eq_ok _ _ _ hnew).2.1
    · cases hr
    · rw [hheld]
      exact hexclusive

end Tenancy

namespace Lease

variable {l : Lease} {s : Store} {path : Names}

def temporary? (root : Names) (l : Lease) : Option Names :=
  (Place.ofPath? root l.file).map fun p => (p.sibling ".tmp").names

def Spoils (l : Lease) (text : String) (s : Store) : Prop :=
  ∃ path c, l.temporary? s.root = some path ∧ s.tree.get? path = some (.file c) ∧
    (Store.write l text s).2.tree.get? path = none

theorem remove_elsewhere (h : l.names? s.root ≠ some path) :
    (Store.remove l s).2.tree.get? path = s.tree.get? path := by
  obtain ⟨-, hleaves⟩ := StoreRequest.leaves (.remove l) s
  simp only [StoreRequest.run] at hleaves
  rw [state_of_map] at hleaves
  generalize (Store.remove l s).2.tree = u at hleaves ⊢
  cases hleaves with
  | same => rfl
  | @removed _ p hp hfile =>
    rw [FileTree.get?_erase _ _ _ (FileTree.ne_nil_of_not_directory hfile), if_neg]
    rintro rfl
    exact h (by simp only [names?]; rw [hp]; rfl)

theorem write_elsewhere (text : String) (h : l.names? s.root ≠ some path) :
    (Store.write l text s).2.tree.get? path = s.tree.get? path ∨
      l.temporary? s.root = some path ∧ s.tree.get? path ≠ some .directory ∧
        (Store.write l text s).2.tree.get? path = none := by
  obtain ⟨-, hleaves⟩ := StoreRequest.leaves (.write l text) s
  simp only [StoreRequest.run] at hleaves
  rw [state_of_map] at hleaves
  generalize (Store.write l text s).2.tree = u at hleaves ⊢
  have hundone : ∀ p, Place.ofPath? s.root l.file = some p →
      s.tree.get? (p.sibling ".tmp").names ≠ some .directory → ∀ u : FileTree,
      u.get? path = ((s.tree.set (p.sibling ".tmp").names (.file (.text text))).erase
        (p.sibling ".tmp").names).get? path →
      u.get? path = s.tree.get? path ∨ l.temporary? s.root = some path ∧
        s.tree.get? path ≠ some .directory ∧ u.get? path = none := by
    intro p hp hd u hu
    have hne := p.sibling_ne_nil ".tmp"
    rw [FileTree.get?_erase _ _ _ hne, FileTree.get?_set _ _ _ _ hne] at hu
    by_cases hpath : (p.sibling ".tmp").names = path
    · rw [if_pos hpath] at hu
      refine .inr ⟨?_, hpath ▸ hd, hu⟩
      simp only [temporary?]
      rw [hp, ← hpath]
      rfl
    · rw [if_neg hpath, if_neg hpath] at hu
      exact .inl hu
  cases hleaves with
  | same => exact .inl rfl
  | @undone _ _ p hp hd => exact hundone p hp hd _ rfl
  | @written _ _ p hp hd hd' =>
    refine hundone p hp hd _ ?_
    rw [FileTree.get?_set _ _ _ _ (FileTree.ne_nil_of_not_directory hd'), if_neg]
    rintro rfl
    exact h (by simp only [names?]; rw [hp]; rfl)

theorem temporary_ne_names (h : l.temporary? s.root = some path) : l.names? s.root ≠ some path := by
  intro hnames
  simp only [temporary?, names?] at h hnames
  rcases hp : Place.ofPath? s.root l.file with _ | p
  · rw [hp] at h
    cases h
  · rw [hp] at h hnames
    have hsame : p.names = (p.sibling ".tmp").names :=
      (Option.some.inj hnames).trans (Option.some.inj h).symm
    exact p.ne_sibling ".tmp" (by decide) hsame

/-- A write leaves everything but the leased file as it was, unless it destroys the file that stands
where its temporary text goes. -/
theorem write_confined_iff (text : String) :
    (∀ path, l.names? s.root ≠ some path →
      (Store.write l text s).2.tree.get? path = s.tree.get? path) ↔ ¬ l.Spoils text s := by
  constructor
  · rintro hsame ⟨path, c, htemporary, hfile, hgone⟩
    rw [hsame path (temporary_ne_names htemporary), hfile] at hgone
    cases hgone
  · intro hspares path hpath
    rcases write_elsewhere text hpath with hsame | ⟨htemporary, hd, hgone⟩
    · exact hsame
    · rw [hgone]
      rcases hbefore : s.tree.get? path with _ | (_ | c)
      · rfl
      · exact absurd hbefore hd
      · exact absurd ⟨path, c, htemporary, hbefore, hgone⟩ hspares

/-- A write that succeeds destroys whatever file stands where its temporary text goes. -/
theorem spoils_of_write {text : String} {s' : Store} (h : Store.write l text s = (.ok (), s')) :
    l.Spoils text s ↔
      ∃ path c, l.temporary? s.root = some path ∧ s.tree.get? path = some (.file c) := by
  constructor
  · rintro ⟨path, c, htemporary, hfile, -⟩
    exact ⟨path, c, htemporary, hfile⟩
  · rintro ⟨path, c, htemporary, hfile⟩
    refine ⟨path, c, htemporary, hfile, ?_⟩
    rcases Store.write_tree l text s with
      ⟨e, s₁, hfails, -⟩ | ⟨p, s₁, hp, hwritten, -, -, -, hd, htree⟩
    · rw [hfails] at h
      cases h
    · rw [hwritten]
      have hne := p.sibling_ne_nil ".tmp"
      simp only [temporary?] at htemporary
      rw [hp] at htemporary
      obtain rfl : (p.sibling ".tmp").names = path := Option.some.inj htemporary
      have hother := p.ne_sibling ".tmp" (by decide)
      rw [htree, FileTree.get?_set _ _ _ _ (FileTree.ne_nil_of_not_directory hd), if_neg hother,
        FileTree.get?_erase _ _ _ hne, if_pos rfl]

end Lease

/-- In a run of requests on one store, of which only held leases are used, no two held leases name
the same file as long as no lock of a held lease is removed under a lease of its own; and one more
lease changes nothing about that just when the locks of all held leases are there. A remove under a
lease changes the leased file only. So does a write, just when it does not destroy the file that
stands where its temporary text goes, as every write does that succeeds. -/
theorem leases_exclusive_iff (start : Store) (calls : List StoreRequest)
    (h : Tenancy.LawfulRun calls ⟨start, []⟩) :
    let x := Tenancy.run calls ⟨start, []⟩
    (Tenancy.SparingRun calls ⟨start, []⟩ → x.Exclusive) ∧
      (x.Exclusive → x.store.Unfailing .acquire →
        ((∀ file, (x.step (.acquire file)).Exclusive) ↔
          ∀ l ∈ x.held, x.store.tree.get? l.lock ≠ none)) ∧
      ∀ l : Lease,
        (∀ path, l.names? x.store.root ≠ some path →
          (Store.remove l x.store).2.tree.get? path = x.store.tree.get? path) ∧
        ∀ text,
          ((∀ path, l.names? x.store.root ≠ some path →
            (Store.write l text x.store).2.tree.get? path = x.store.tree.get? path) ↔
              ¬ l.Spoils text x.store) ∧
          ((Store.write l text x.store).1 = .ok () → (l.Spoils text x.store ↔
            ∃ path c, l.temporary? x.store.root = some path ∧
              x.store.tree.get? path = some (.file c))) := by
  intro x
  have hstart := Tenancy.guarded_start start
  refine ⟨fun hspares => (hstart.run h hspares).exclusive,
    (hstart.founded.run calls).exclusive_iff, fun l => ⟨fun path => Lease.remove_elsewhere, ?_⟩⟩
  intro text
  exact ⟨Lease.write_confined_iff text, fun hok => Lease.spoils_of_write (eq_of_answer hok)⟩

def hostLease : Lease := ⟨"host.toml", ["srv", "host.toml.lock"]⟩

def twoLeases : List StoreRequest :=
  [.acquire "host.toml", .acquire "./web.toml", .write hostLease "[sections]\n",
    .remove ⟨"./web.toml", ["srv", "web.toml.lock"]⟩]

theorem leases_exclusive_twoLeases :
    Tenancy.LawfulRun twoLeases ⟨emptyRoot, []⟩ ∧
      (Tenancy.run twoLeases ⟨emptyRoot, []⟩).held.length = 2 ∧
      (Tenancy.run twoLeases ⟨emptyRoot, []⟩).Exclusive := by
  have hlawful : Tenancy.LawfulRun twoLeases ⟨emptyRoot, []⟩ := by decide +kernel
  obtain ⟨hexclusive, -⟩ := leases_exclusive_iff emptyRoot twoLeases hlawful
  exact ⟨hlawful, by decide +kernel, hexclusive (by decide +kernel)⟩

def lockRemoved : List StoreRequest :=
  [.acquire "host.toml", .acquire "host.toml.lock",
    .remove ⟨"host.toml.lock", ["srv", "host.toml.lock.lock"]⟩, .acquire "host.toml"]

def crowdedRoot : Store :=
  { emptyRoot with tree := emptyRoot.tree.set ["srv", "host.toml.tmp"] (.file (.text "kept\n")) }

theorem leases_shared_and_spoiled :
    (Tenancy.LawfulRun lockRemoved ⟨emptyRoot, []⟩ ∧
      (Tenancy.run lockRemoved ⟨emptyRoot, []⟩).held =
        [hostLease, ⟨"host.toml.lock", ["srv", "host.toml.lock.lock"]⟩, hostLease] ∧
      ¬ (Tenancy.run lockRemoved ⟨emptyRoot, []⟩).Exclusive) ∧
    let x := Tenancy.run [.acquire "host.toml"] ⟨crowdedRoot, []⟩
    x.held = [hostLease] ∧ hostLease.names? x.store.root = some ["srv", "host.toml"] ∧
      x.store.tree.get? ["srv", "host.toml.tmp"] = some (.file (.text "kept\n")) ∧
      (Store.write hostLease "" x.store).1 = .ok () ∧
      (Store.write hostLease "" x.store).2.tree.get? ["srv", "host.toml.tmp"] = none := by
  decide +kernel

end LayeredConfig
