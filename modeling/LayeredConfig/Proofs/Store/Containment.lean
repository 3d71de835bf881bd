import LayeredConfig.Proofs.Commit.Directories
import LayeredConfig.Proofs.Store.Footprint

/-!
# Where a store reaches

The guard of a store judges the path that it is given, but locks and temporary texts lie beside the
file that the path names. What is beside the root is outside. So a request stays inside the root,
whether it succeeds or fails, unless its path names the root itself and it touches what is beside
it, or it makes the root and the directories above it because they are missing.
-/

set_option autoImplicit false

namespace LayeredConfig

open Run

def Inside (root path : Names) : Prop := root <+: path ∧ path ≠ root

instance (root path : Names) : Decidable (Inside root path) :=
  inferInstanceAs (Decidable (_ ∧ _))

namespace Place

variable {root : Names} {path : String} {p : Place}

def namesRoot (path : String) : Bool :=
  (FilePath.pieces (relative path)).all fun piece => !isName piece

theorem names_eq_root_iff (h : ofPath? root path = some p) :
    p.names = root ↔ namesRoot path = true := by
  simp only [ofPath?] at h
  split at h
  · cases h
  · cases h
    simp only [namesRoot]
    rw [List.append_right_eq_self, List.filter_eq_nil_iff, List.all_eq_true]
    simp

example : ["", "/", ".", "./", "//.//"].all namesRoot = true := by decide +kernel

/-- What lies beside a place lies inside the root, unless the place is the root itself. -/
theorem inside_sibling (h : ofPath? root path = some p) (hn : root = [] ∨ namesRoot path = false)
    (suffix : String) : Inside root (p.sibling suffix).names := by
  obtain ⟨names, hnames⟩ := Store.around_of_place h
  by_cases hnil : names = []
  · have hroot : p.names = root := by rw [← hnames, hnil, List.append_nil]
    rcases hn with rfl | hn
    · exact ⟨List.nil_prefix, p.sibling_ne_nil suffix⟩
    · rw [(names_eq_root_iff h).1 hroot] at hn
      cases hn
  · have hbelow : (p.sibling suffix).names =
        root ++ (names.dropLast ++ [p.names.getLast?.getD "" ++ suffix]) := by
      rw [sibling_names, ← hnames, List.dropLast_append_of_ne_nil hnil, List.append_assoc]
    rw [hbelow]
    exact ⟨List.prefix_append _ _, fun h => by simp at h⟩

theorem not_around_sibling (h : p.names = root) (hne : root ≠ []) {suffix : String}
    (hs : suffix ≠ "") : ¬ Store.Around root (p.sibling suffix).names := by
  have hlength : root.length = (p.sibling suffix).names.length := by
    have hpos := List.length_pos_of_ne_nil hne
    rw [sibling_names, h, List.length_append, List.length_dropLast, List.length_singleton]
    omega
  have hother : root ≠ (p.sibling suffix).names := h ▸ p.ne_sibling suffix hs
  rintro (hway | hway)
  · exact hother (hway.eq_of_length hlength.symm).symm
  · exact hother (hway.eq_of_length hlength)

end Place

namespace FileTree

variable {t : FileTree} {above names path : Names}

theorem createDirs_of_not_begins (h : ¬ path <+: above ++ names) :
    (t.createDirs above names).1.get? path = t.get? path := by
  induction names generalizing t above with
  | nil => rfl
  | cons name names ih =>
    rw [List.append_cons] at h
    simp only [createDirs]
    split
    · exact ih h
    · rfl
    · rw [ih h, get?_set t _ _ _ (by simp), if_neg]
      rintro rfl
      exact h (List.prefix_append _ _)
    · rfl

theorem createDirAll_of_not_begins (h : ¬ path <+: names) (ending : Ending) :
    (t.createDirAll names ending).1.get? path = t.get? path := by
  cases ending with
  | plain => exact createDirs_of_not_begins h
  | slash => exact createDirs_of_not_begins h
  | dot =>
    simp only [createDirAll]
    split
    · rfl
    · exact createDirs_of_not_begins fun hway => h (hway.trans names.dropLast_prefix)
    · rfl

theorem walk_of_createDirs (h : (t.createDirs above names).2 = none) :
    (t.createDirs above names).1.walk above names = .ok () := by
  induction names generalizing t above with
  | nil => rfl
  | cons name names ih =>
    simp only [createDirs] at h ⊢
    split at h
    · rename_i hdir
      have hentry := (grown_createDirs t (above ++ [name]) names).entry (by rw [hdir]; simp)
      simp only [walk]
      rw [hentry, hdir]
      exact ih h
    · cases h
    · rename_i hmissing
      have hshort := isShort_of_entry t _ (by rw [hmissing]; simp)
      have hmade : (t.set (above ++ [name]) .directory).entry (above ++ [name]) =
          .ok .directory := by
        rw [entry_of_isShort _ _ hshort, get?_set t _ _ _ (by simp), if_pos rfl]
      have hentry := (grown_createDirs (t.set (above ++ [name]) .directory) (above ++ [name])
        names).entry (by rw [hmade]; simp)
      simp only [walk]
      rw [hentry, hmade]
      exact ih h
    · cases h

theorem walk_of_createDirAll {ending : Ending} (h : (t.createDirAll names ending).2 = none) :
    (t.createDirAll names ending).1.walk [] names = .ok () := by
  cases ending with
  | plain => exact walk_of_createDirs h
  | slash => exact walk_of_createDirs h
  | dot =>
    simp only [createDirAll] at h ⊢
    rcases hwalk : t.walk [] names with e | ⟨⟩
    · rw [hwalk] at h
      cases e with
      | notFound =>
        dsimp only at h
        rw [Option.or_eq_none_iff] at h
        cases h.2
      | _ => cases h
    · exact hwalk

end FileTree

namespace Store

open FileTree

variable {s s' : Store}

structure KeepsOutside (s s' : Store) : Prop where
  root : s'.root = s.root
  outside : ∀ path, ¬ Inside s.root path → s'.tree.get? path = s.tree.get? path

theorem keepsOutside_of_files (h : s'.files = s.files) : s.KeepsOutside s' := by
  obtain ⟨hroot, htree⟩ := files_eq s s' h
  exact ⟨hroot, fun path _ => by rw [htree]⟩

theorem keepsOutside_acquire {file : String} (hn : s.root = [] ∨ Place.namesRoot file = false) :
    s.KeepsOutside (acquire file s).2 := by
  rcases acquire_cases file s with ⟨e, s', h, hfiles⟩ | ⟨p, s', hp, h, hroot, hnew⟩
  · rw [h]
    exact keepsOutside_of_files hfiles
  · rw [h]
    refine ⟨hroot, fun path hpath => ?_⟩
    obtain ⟨-, -, htree⟩ := createNew_eq_ok _ _ _ hnew
    rw [htree, get?_set _ _ _ _ (p.sibling_ne_nil ".lock"), if_neg]
    rintro rfl
    exact hpath (Place.inside_sibling hp hn ".lock")

theorem keepsOutside_write {lease : Lease} (text : String)
    (hn : s.root = [] ∨ Place.namesRoot lease.file = false) :
    s.KeepsOutside (write lease text s).2 := by
  have haside : ∀ p path, Place.ofPath? s.root lease.file = some p → ¬ Inside s.root path →
      ((s.tree.set (p.sibling ".tmp").names (.file (.text text))).erase
        (p.sibling ".tmp").names).get? path = s.tree.get? path := by
    intro p path hp hpath
    have hne := p.sibling_ne_nil ".tmp"
    have hother : (p.sibling ".tmp").names ≠ path := by
      rintro rfl
      exact hpath (Place.inside_sibling hp hn ".tmp")
    rw [get?_erase _ _ _ hne, if_neg hother, get?_set _ _ _ _ hne, if_neg hother]
  rcases write_tree lease text s with
    ⟨e, s', h, hroot, htree | ⟨p, hp, -, htree⟩⟩ | ⟨p, s', hp, h, hroot, hopens, -, -, htree⟩
  · rw [h]
    exact ⟨hroot, fun path _ => by rw [htree]⟩
  · rw [h]
    exact ⟨hroot, fun path hpath => by rw [htree, haside p path hp hpath]⟩
  · rw [h]
    obtain ⟨names, hnames, hbelow⟩ := Place.below_of_plain hp hopens.ending
    refine ⟨hroot, fun path hpath => ?_⟩
    rw [htree, get?_set _ _ _ _ (by simp [hbelow, hnames]), if_neg, haside p path hp hpath]
    rintro rfl
    exact hpath ⟨hbelow ▸ List.prefix_append _ _, by simp [hbelow, hnames]⟩

theorem keepsOutside_remove (lease : Lease) : s.KeepsOutside (remove lease s).2 := by
  rcases remove_cases lease s with
    ⟨e, s', h, hfiles⟩ | ⟨p, s', hp, h, hroot, ⟨htree, -⟩ | ⟨hplain, -, htree⟩⟩
  · rw [h]
    exact keepsOutside_of_files hfiles
  · rw [h]
    exact ⟨hroot, fun path _ => by rw [htree]⟩
  · rw [h]
    obtain ⟨names, hnames, hbelow⟩ := Place.below_of_plain hp hplain
    refine ⟨hroot, fun path hpath => ?_⟩
    rw [htree, get?_erase _ _ _ (by simp [hbelow, hnames]), if_neg]
    rintro rfl
    exact hpath ⟨hbelow ▸ List.prefix_append _ _, by simp [hbelow, hnames]⟩

theorem keepsOutside_createDir {dir : String}
    (h : s.tree.walk [] s.root = .ok () ∨ ¬ s.Makes dir) :
    s.KeepsOutside (createDir dir s).2 := by
  have hroot : (createDir dir s).2.root = s.root :=
    (preserves_createDir s dir s (.refl s)).root
  rcases h with hwalk | hnone
  · refine ⟨hroot, fun path hpath => ?_⟩
    rw [tree_of_createDir]
    split
    · rename_i p _ hp
      split
      · by_cases hway : path <+: p.names
        · have habove : path <+: s.root := by
            rcases List.prefix_or_prefix_of_prefix hway (around_of_place hp) with habove | hbelow
            · exact habove
            · by_contra hother
              exact hpath ⟨hbelow, fun heq => hother (heq ▸ List.prefix_refl _)⟩
          by_cases hnil : path = []
          · rw [hnil]
            rfl
          · have hdir := directory_of_walk s.tree [] s.root hwalk path hnil habove
            rw [List.nil_append] at hdir
            rw [hdir]
            exact (grown_createDirAll s.tree p.names p.ending).directory hdir
        · exact createDirAll_of_not_begins hway p.ending
      · rfl
    · rfl
  · exact ⟨hroot, fun path _ => by rw [createDir_eq_self hnone]⟩

theorem keepsOutside_release {lease : Lease}
    (h : Inside s.root lease.lock ∨ (s.tree.removeFile lease.lock false).isOk = false) :
    s.KeepsOutside (release lease s).2 := by
  simp only [release]
  rw [get_bind]
  rcases hremove : s.tree.removeFile lease.lock false with e | t
  · exact keepsOutside_of_files rfl
  · rw [hremove] at h
    obtain ⟨hfile, rfl⟩ := removeFile_eq_ok _ _ _ _ hremove
    rcases h with hinside | hfails
    · have hne : lease.lock ≠ [] := fun hnil => hfile (by rw [hnil]; rfl)
      refine ⟨rfl, fun path hpath => ?_⟩
      change (s.tree.erase lease.lock).get? path = _
      rw [get?_erase _ _ _ hne, if_neg]
      rintro rfl
      exact hpath hinside
    · cases hfails

theorem createDir_eq_ok {dir : String} (h : createDir dir s = (.ok (), s')) :
    ∃ p, Place.ofPath? s.root dir = some p ∧ (s.tree.createDirAll p.names p.ending).2 = none ∧
      s'.tree = (s.tree.createDirAll p.names p.ending).1 := by
  simp only [createDir] at h
  obtain ⟨⟨⟩, s₁, htick, h₁⟩ := bind_eq_ok h
  obtain ⟨p, s₂, hplace, h₂⟩ := bind_eq_ok h₁
  obtain ⟨hroot, htree⟩ := files_eq _ _ ((keeps_tick _ _).of_eq htick)
  obtain ⟨hp, rfl⟩ := place_eq_ok hplace
  rw [hroot] at hp
  rw [← htree]
  rcases hfault : p.fault? with _ | e
  · rw [hfault] at h₂
    dsimp only at h₂
    rw [get_bind] at h₂
    rcases hmade : s₂.tree.createDirAll p.names p.ending with ⟨t, _ | fault⟩
    · rw [hmade] at h₂
      cases h₂
      exact ⟨p, hp, by rw [hmade], by rw [hmade]⟩
    · rw [hmade] at h₂
      cases h₂
  · rw [hfault] at h₂
    cases h₂

end Store

def Lease.Issued (root : Names) (l : Lease) : Prop :=
  ∃ p, Place.ofPath? root l.file = some p ∧ l.lock = (p.sibling ".lock").names

theorem Store.issued_of_acquire {file : String} {l : Lease} {s s' : Store}
    (h : acquire file s = (.ok l, s')) : l.Issued s.root := by
  rcases acquire_cases file s with ⟨e, s₁, hfails, -⟩ | ⟨p, s₁, hp, hlease, -⟩
  · rw [hfails] at h
    cases h
  · rw [hlease] at h
    cases h
    exact ⟨p, hp, rfl⟩

inductive StoreRequest where
  | read (file : String)
  | acquire (file : String)
  | write (lease : Lease) (text : String)
  | remove (lease : Lease)
  | createDir (dir : String)
  | release (lease : Lease)

inductive StoreAnswer where
  | done
  | text (t : Option String)
  | lease (l : Lease)

namespace StoreRequest

def run : StoreRequest → StoreM StoreAnswer
  | .read file => do pure (.text (← Store.read file))
  | .acquire file => do pure (.lease (← Store.acquire file))
  | .write l text => do
    Store.write l text
    pure .done
  | .remove l => do
    Store.remove l
    pure .done
  | .createDir dir => do
    Store.createDir dir
    pure .done
  | .release l => do
    Store.release l
    pure .done

def lease? : StoreRequest → Option Lease
  | .write l _ | .remove l | .release l => some l
  | _ => none

variable {r : StoreRequest} {s : Store}

def Issued (root : Names) (r : StoreRequest) : Prop := ∀ l, r.lease? = some l → l.Issued root

def Fails (r : StoreRequest) (s : Store) : Prop := ∃ e, (r.run s).1 = .error e

def Strays (s : Store) : StoreRequest → Prop
  | .read _ | .remove _ => False
  | .acquire file => s.root ≠ [] ∧ Place.namesRoot file = true
  | .write l _ => s.root ≠ [] ∧ Place.namesRoot l.file = true
  | .createDir dir => s.tree.walk [] s.root ≠ .ok () ∧ s.Makes dir
  | .release l => s.root ≠ [] ∧ Place.namesRoot l.file = true ∧
      (s.tree.removeFile l.lock false).isOk = true

/-- A request changes nothing but what lies inside the root, and what it answers and does is the
same in every store that is the same around the root. -/
structure StaysInside (r : StoreRequest) (s : Store) : Prop where
  touches : s.KeepsOutside (r.run s).2
  looks : ∀ t, Store.Near s.root s t → EndsAlike (Store.Near s.root)
    (fun answer answer' u v => answer = answer' ∧ Store.Near s.root u v) (r.run s) (r.run t)

/-- Unless it strays, a request changes nothing outside. -/
theorem keepsOutside (h : r.Issued s.root) (hstays : ¬ r.Strays s) :
    s.KeepsOutside (r.run s).2 := by
  have hinside : ∀ file, ¬ (s.root ≠ [] ∧ Place.namesRoot file = true) →
      s.root = [] ∨ Place.namesRoot file = false := by
    intro file hnot
    by_cases hroot : s.root = []
    · exact .inl hroot
    · exact .inr (by simpa [hroot] using hnot)
  cases r with
  | read file =>
    simp only [run]
    rw [state_of_map]
    exact Store.keepsOutside_of_files (Store.keeps_read file s)
  | acquire file =>
    simp only [run]
    rw [state_of_map]
    exact Store.keepsOutside_acquire (hinside file hstays)
  | write l text =>
    simp only [run]
    rw [state_of_map]
    exact Store.keepsOutside_write text (hinside l.file hstays)
  | remove l =>
    simp only [run]
    rw [state_of_map]
    exact Store.keepsOutside_remove l
  | createDir dir =>
    simp only [run]
    rw [state_of_map]
    refine Store.keepsOutside_createDir ?_
    by_cases hmakes : s.Makes dir
    · exact .inl (by_contra fun hwalk => hstays ⟨hwalk, hmakes⟩)
    · exact .inr hmakes
  | release l =>
    simp only [run]
    rw [state_of_map]
    refine Store.keepsOutside_release ?_
    by_cases hremovable : (s.tree.removeFile l.lock false).isOk = true
    · obtain ⟨p, hp, hlock⟩ := h l rfl
      rw [hlock]
      refine .inl (Place.inside_sibling hp (hinside l.file ?_) ".lock")
      rintro ⟨hroot, hnames⟩
      exact hstays ⟨hroot, hnames, hremovable⟩
    · exact .inr (by simpa using hremovable)

/-- Unless it strays, a request looks at nothing outside. -/
theorem looksInside (h : r.Issued s.root) (hstays : ¬ r.Strays s) : Store.Local s.root r.run := by
  have hbeside : ∀ file p suffix, ¬ (s.root ≠ [] ∧ Place.namesRoot file = true) →
      Place.ofPath? s.root file = some p → s.root <+: (p.sibling suffix).names := by
    intro file p suffix hnot hp
    refine (Place.inside_sibling hp ?_ suffix).1
    by_cases hroot : s.root = []
    · exact .inl hroot
    · exact .inr (by simpa [hroot] using hnot)
  cases r with
  | read file => exact Store.local_bind (Store.local_read file) fun _ => Store.local_pure _
  | acquire file =>
    refine Store.local_bind (Store.local_acquire fun p hp => ?_) fun _ => Store.local_pure _
    exact hbeside file p ".lock" hstays hp
  | write l text =>
    refine Store.local_bind (Store.local_write text fun p hp => ?_) fun _ => Store.local_pure _
    exact hbeside l.file p ".tmp" hstays hp
  | remove l => exact Store.local_bind (Store.local_remove l) fun _ => Store.local_pure _
  | createDir dir => exact Store.local_bind (Store.local_createDir dir) fun _ => Store.local_pure _
  | release l =>
    refine Store.local_bind (Store.local_release ?_) fun _ => Store.local_pure _
    obtain ⟨p, hp, hlock⟩ := h l rfl
    rw [hlock]
    by_cases hroot : s.root ≠ [] ∧ Place.namesRoot l.file = true
    · exact .inr (Place.not_around_sibling ((Place.names_eq_root_iff hp).2 hroot.2) hroot.1
        (by decide))
    · exact .inl (Store.leads_around (hbeside l.file p ".lock" hroot hp))

/-- A request that strays and succeeds changes something outside. -/
theorem reachesOut (h : r.Issued s.root) (hstrays : r.Strays s) :
    r.Fails s ∨ ¬ s.KeepsOutside (r.run s).2 := by
  have haside : ∀ file p suffix, Place.namesRoot file = true → s.root ≠ [] → suffix ≠ "" →
      Place.ofPath? s.root file = some p → ¬ Inside s.root (p.sibling suffix).names := by
    intro file p suffix hnames hroot hsuffix hp hinside
    exact Place.not_around_sibling ((Place.names_eq_root_iff hp).2 hnames) hroot hsuffix
      (.inr hinside.1)
  cases r with
  | read file => exact hstrays.elim
  | remove l => exact hstrays.elim
  | acquire file =>
    simp only [run, Fails, error_of_map_iff, state_of_map]
    rcases Store.acquire_cases file s with ⟨e, s', hfails, -⟩ | ⟨p, s', hp, hlease, hroot, hnew⟩
    · exact .inl ⟨e, by rw [hfails]⟩
    · rw [hlease]
      refine .inr fun hkept => ?_
      obtain ⟨-, hfree, htree⟩ := FileTree.createNew_eq_ok _ _ _ hnew
      have hsame := hkept.outside _ (haside file p ".lock" hstrays.2 hstrays.1 (by decide) hp)
      rw [FileTree.entry_eq_notFound _ _ hfree, htree,
        FileTree.get?_set _ _ _ _ (p.sibling_ne_nil ".lock"), if_pos rfl] at hsame
      cases hsame
  | write l text =>
    simp only [run, Fails, error_of_map_iff]
    rcases Store.write_tree l text s with ⟨e, s', hfails, -⟩ | ⟨p, s', hp, -, -, hopens, -⟩
    · exact .inl ⟨e, by rw [hfails]⟩
    · -- a file that was written lies below the root
      obtain ⟨names, hnames, hbelow⟩ := Place.below_of_plain hp hopens.ending
      rw [(Place.names_eq_root_iff hp).2 hstrays.2] at hbelow
      exact absurd (List.append_right_eq_self.mp hbelow.symm) hnames
  | createDir dir =>
    simp only [run, Fails, error_of_map_iff, state_of_map]
    rcases hmade : Store.createDir dir s with ⟨e | ⟨⟨⟩⟩, s'⟩
    · exact .inl ⟨e, rfl⟩
    · refine .inr fun hkept => hstrays.1 ?_
      -- the root can be walked afterwards, and what is on the way to it is as it was
      obtain ⟨p, hp, hfault, htree⟩ := Store.createDir_eq_ok hmade
      have hall := FileTree.walk_of_createDirAll hfault
      rw [← htree] at hall
      have hsame : s.tree.walk [] s.root = s'.tree.walk [] s.root := by
        refine FileTree.walk_eq _ _ _ _ fun path hway => ?_
        refine (hkept.outside path fun hinside => hinside.2 ?_).symm
        exact (hinside.1.eq_of_length_le hway.length_le).symm
      rw [hsame]
      rcases hwalk : s'.tree.walk [] s.root with e | ⟨⟩
      · rw [FileTree.walk_of_begins hwalk (Store.around_of_place hp)] at hall
        cases hall
      · rfl
  | release l =>
    simp only [run, state_of_map]
    obtain ⟨hroot, hnames, hremovable⟩ := hstrays
    refine .inr fun hkept => ?_
    obtain ⟨p, hp, hlock⟩ := h l rfl
    obtain ⟨t, ht⟩ := exists_of_isOk hremovable
    have hgone : (Store.release l s).2.tree = t := by
      simp only [Store.release]
      rw [get_bind, ht]
      rfl
    have hsame := hkept.outside l.lock (hlock ▸ haside l.file p ".lock" hnames hroot (by decide) hp)
    obtain ⟨c, hfile⟩ := FileTree.file_of_removeFile ht
    obtain ⟨hdir, rfl⟩ := FileTree.removeFile_eq_ok _ _ _ _ ht
    have hne : l.lock ≠ [] := fun hnil => hdir (by rw [hnil]; rfl)
    rw [hgone, FileTree.get?_erase _ _ _ hne, if_pos rfl, hfile] at hsame
    cases hsame

end StoreRequest

/-- A request to a store, under a lease that was given for its file, either fails or stays inside
the root, except just when it succeeds and strays: it leases the root itself, whose lock lies beside
it, gives such a lease up while its lock is there, or makes the root because it is missing. A
request that does not stray stays inside even when it fails. -/
theorem store_stays_inside_iff (r : StoreRequest) (s : Store) (h : r.Issued s.root) :
    ((r.Fails s ∨ r.StaysInside s) ↔ (r.Fails s ∨ ¬ r.Strays s)) ∧
      (¬ r.Strays s → r.StaysInside s) := by
  have hstays : ¬ r.Strays s → r.StaysInside s := fun hnot =>
    ⟨StoreRequest.keepsOutside h hnot, (StoreRequest.looksInside h hnot).ends s⟩
  refine ⟨⟨?_, ?_⟩, hstays⟩
  · rintro (hfails | hinside)
    · exact .inl hfails
    · by_cases hstrays : r.Strays s
      · exact (StoreRequest.reachesOut h hstrays).imp_right fun hout => absurd hinside.touches hout
      · exact .inr hstrays
  · exact Or.imp_right hstays

def emptyRoot : Store := ⟨["srv"], FileTree.empty.set ["srv"] .directory, []⟩

theorem store_stays_inside_hostFile :
    let r := StoreRequest.write ⟨"host.toml", ["srv", "host.toml.lock"]⟩ "[sections]\n"
    r.Issued emptyRoot.root ∧ ¬ r.Strays emptyRoot ∧ (r.run emptyRoot).1.isOk = true ∧
      r.StaysInside emptyRoot := by
  intro r
  have hissued : r.Issued emptyRoot.root := by
    rintro l ⟨⟩
    exact ⟨⟨["srv", "host.toml"], .plain, "/srv/host.toml"⟩, by decide +kernel, by decide +kernel⟩
  have hnames : Place.namesRoot "host.toml" = false := by decide +kernel
  have hstays : ¬ r.Strays emptyRoot := by
    rintro ⟨-, hroot⟩
    rw [hnames] at hroot
    cases hroot
  exact ⟨hissued, hstays, by decide +kernel, (store_stays_inside_iff r emptyRoot hissued).2 hstays⟩

/-- The lease of the empty path is a lock beside the root, which goes when the lease is given up. -/
theorem store_reaches_outside :
    let lease : Lease := ⟨"", ["srv.lock"]⟩
    let leased := (Store.acquire "" emptyRoot).2
    ¬ Inside emptyRoot.root lease.lock ∧ (Store.acquire "" emptyRoot).1 = .ok lease ∧
      emptyRoot.tree.get? lease.lock = none ∧
      leased.tree.get? lease.lock = some (.file (.text "")) ∧
      (Store.release lease leased).2.tree.get? lease.lock = none ∧
      ¬ ((StoreRequest.acquire "").Fails emptyRoot ∨
        (StoreRequest.acquire "").StaysInside emptyRoot) := by
  intro lease leased
  have hbeside : ¬ Inside emptyRoot.root lease.lock := by decide
  have hanswer : (Store.acquire "" emptyRoot).1 = .ok lease := by decide +kernel
  have hfree : emptyRoot.tree.get? lease.lock = none := by decide +kernel
  have hlocked : leased.tree.get? lease.lock = some (.file (.text "")) := by decide +kernel
  refine ⟨hbeside, hanswer, hfree, hlocked, by decide +kernel, ?_⟩
  simp only [StoreRequest.Fails, StoreRequest.run, error_of_map_iff]
  rintro (⟨e, hfails⟩ | hinside)
  · rw [hanswer] at hfails
    cases hfails
  · have hsame := hinside.touches.outside lease.lock hbeside
    simp only [StoreRequest.run] at hsame
    rw [state_of_map] at hsame
    rw [hfree] at hsame
    cases hsame.symm.trans hlocked

end LayeredConfig
