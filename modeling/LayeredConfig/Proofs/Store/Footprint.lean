import LayeredConfig.Proofs.Store.Calls

/-!
# What the calls of a store look at

Everything that a call on a path looks at lies on the way to the path. So two trees that are the
same around the root of a store, which is on the way to the root and below it, are the same for
every call whose paths lead through the root: the calls end alike, and the trees stay the same
there.
-/

set_option autoImplicit false

namespace LayeredConfig

open Run

namespace FileTree

variable {S : Names → Prop} {t u : FileTree} {path : Names}

def SameOn (S : Names → Prop) (t u : FileTree) : Prop := ∀ path, S path → t.get? path = u.get? path

theorem SameOn.erase_aside (h : SameOn S t u) (hne : path ≠ []) (haside : ¬ S path) :
    SameOn S (t.erase path) u := by
  intro p hp
  have hother : path ≠ p := by
    rintro rfl
    exact haside hp
  rw [get?_erase t path p hne, if_neg hother, h p hp]

theorem SameOn.symm (h : SameOn S t u) : SameOn S u t := fun p hp => (h p hp).symm

def EndSameOn (S : Names → Prop) : Except IoFault FileTree → Except IoFault FileTree → Prop
  | .ok t, .ok u => SameOn S t u
  | .error e, .error e' => e = e'
  | _, _ => False

theorem SameOn.set (h : SameOn S t u) (hne : path ≠ []) (node : Node) :
    SameOn S (t.set path node) (u.set path node) := by
  intro p hp
  rw [get?_set t path p node hne, get?_set u path p node hne, h p hp]

theorem SameOn.erase (h : SameOn S t u) (hne : path ≠ []) :
    SameOn S (t.erase path) (u.erase path) := by
  intro p hp
  rw [get?_erase t path p hne, get?_erase u path p hne, h p hp]

def Leads (S : Names → Prop) (path : Names) : Prop := ∀ p, p <+: path → S p

theorem SameOn.entry (h : SameOn S t u) (hway : Leads S path) : t.entry path = u.entry path :=
  entry_congr t u path (h path (hway path (List.prefix_refl path)))

theorem SameOn.walk (h : SameOn S t u) (hway : Leads S path) : t.walk [] path = u.walk [] path :=
  walk_eq t u [] path fun p hp => h p (hway p hp)

theorem SameOn.walk_above (h : SameOn S t u) (hway : Leads S path) :
    t.walk [] path.dropLast = u.walk [] path.dropLast :=
  h.walk fun p hp => hway p (hp.trans path.dropLast_prefix)

theorem SameOn.lookup (h : SameOn S t u) (hway : Leads S path) (asDirectory : Bool) :
    t.lookup path asDirectory = u.lookup path asDirectory := by
  simp only [FileTree.lookup]
  rw [h.walk_above hway, h.entry hway]

theorem SameOn.readText (h : SameOn S t u) (hway : Leads S path) (asDirectory : Bool) :
    t.readText path asDirectory = u.readText path asDirectory :=
  readText_eq t u path asDirectory fun p hp => h p (hway p hp)

theorem ne_nil_of_entry (h : u.entry path = .error .notFound) : path ≠ [] := by
  rintro rfl
  cases entry_eq_notFound u [] h

theorem ne_nil_of_file {c : Content} (h : u.entry path = .ok (.file c)) : path ≠ [] := by
  rintro rfl
  cases entry_eq_ok u [] _ h

theorem SameOn.createNew (h : SameOn S t u) (hway : Leads S path) :
    EndSameOn S (t.createNew path) (u.createNew path) := by
  simp only [FileTree.createNew]
  rw [h.walk_above hway, h.entry hway]
  rcases u.walk [] path.dropLast with e | ⟨⟩
  · rfl
  · rcases hentry : u.entry path with e | node
    · cases e with
      | notFound => exact h.set (ne_nil_of_entry hentry) _
      | _ => rfl
    · rfl

theorem SameOn.writeText (h : SameOn S t u) (hway : Leads S path) (text : String) :
    EndSameOn S (t.writeText path text) (u.writeText path text) := by
  simp only [FileTree.writeText]
  rw [h.walk_above hway, h.entry hway]
  rcases u.walk [] path.dropLast with e | ⟨⟩
  · rfl
  · rcases hentry : u.entry path with e | node
    · cases e with
      | notFound => exact h.set (ne_nil_of_entry hentry) _
      | _ => rfl
    · cases node with
      | directory => rfl
      | file c => exact h.set (ne_nil_of_file hentry) _

theorem SameOn.removeFile (h : SameOn S t u) (hway : Leads S path) (asDirectory : Bool) :
    EndSameOn S (t.removeFile path asDirectory) (u.removeFile path asDirectory) := by
  simp only [FileTree.removeFile]
  rw [h.lookup hway]
  rcases hlookup : u.lookup path asDirectory with e | node
  · rfl
  · cases node with
    | directory => rfl
    | file c => exact h.erase (ne_nil_of_file (lookup_eq_ok u path _ _ hlookup).2)

theorem SameOn.rename {source target : Names} (h : SameOn S t u) (hsource : Leads S source)
    (htarget : Leads S target) (ending : Ending) (hne : source ≠ []) :
    EndSameOn S (t.rename source target ending) (u.rename source target ending) := by
  simp only [FileTree.rename]
  rw [h.lookup hsource, h.walk htarget, h.walk_above htarget, h.entry htarget]
  rcases u.lookup source false with e | node
  · rfl
  cases ending with
  | dot => rcases u.walk [] target with e | ⟨⟩ <;> rfl
  | slash => rcases u.walk [] target.dropLast with e | ⟨⟩ <;> rfl
  | plain =>
    rcases u.walk [] target.dropLast with e | ⟨⟩
    · rfl
    · rcases hentry : u.entry target with e | found
      · cases e with
        | notFound => exact (h.erase hne).set (ne_nil_of_entry hentry) _
        | _ => rfl
      · cases found with
        | directory => rfl
        | file c => exact (h.erase hne).set (ne_nil_of_file hentry) _

theorem SameOn.createDirs {above names : Names} (h : SameOn S t u)
    (hway : Leads S (above ++ names)) :
    (t.createDirs above names).2 = (u.createDirs above names).2 ∧
      SameOn S (t.createDirs above names).1 (u.createDirs above names).1 := by
  induction names generalizing t u above with
  | nil => exact ⟨rfl, h⟩
  | cons name names ih =>
    rw [List.append_cons] at hway
    have hhere : t.entry (above ++ [name]) = u.entry (above ++ [name]) :=
      h.entry fun p hp => hway p (hp.trans (List.prefix_append _ _))
    simp only [FileTree.createDirs]
    rw [hhere]
    rcases u.entry (above ++ [name]) with e | node
    · cases e with
      | notFound => exact ih (h.set (by simp) _) hway
      | _ => exact ⟨rfl, h⟩
    · cases node with
      | directory => exact ih h hway
      | file c => exact ⟨rfl, h⟩

theorem SameOn.createDirAll (h : SameOn S t u) (hway : Leads S path) (ending : Ending) :
    (t.createDirAll path ending).2 = (u.createDirAll path ending).2 ∧
      SameOn S (t.createDirAll path ending).1 (u.createDirAll path ending).1 := by
  cases ending with
  | plain => exact h.createDirs hway
  | slash => exact h.createDirs hway
  | dot =>
    simp only [FileTree.createDirAll]
    rw [h.walk hway]
    rcases u.walk [] path with e | ⟨⟩
    · cases e with
      | notFound =>
        have habove : Leads S ([] ++ path.dropLast) :=
          fun p hp => hway p (hp.trans path.dropLast_prefix)
        obtain ⟨hfault, hsame⟩ := h.createDirs habove
        exact ⟨congrArg (Option.or · _) hfault, hsame⟩
      | _ => exact ⟨rfl, h⟩
    · exact ⟨rfl, h⟩

end FileTree

namespace Store

open FileTree

def Around (root path : Names) : Prop := path <+: root ∨ root <+: path

theorem leads_around {root path : Names} (h : root <+: path) : Leads (Around root) path :=
  fun _ hp => List.prefix_or_prefix_of_prefix hp h

structure Near (root : Names) (s t : Store) : Prop where
  left : s.root = root
  right : t.root = root
  faults : s.faults = t.faults
  tree : SameOn (Around root) s.tree t.tree

variable {root : Names} {α β : Type}

structure Local (root : Names) (x : StoreM α) : Prop where
  ends : Coupled (Near root) (Near root) (fun a b s t => a = b ∧ Near root s t) x x

theorem local_pure (a : α) : Local root (pure a : StoreM α) := ⟨fun _ _ h => ⟨rfl, h⟩⟩

theorem local_throw (e : StoreError) : Local root (throw e : StoreM α) := ⟨fun _ _ h => ⟨rfl, h⟩⟩

theorem local_bind {x : StoreM α} {f : α → StoreM β} (hx : Local root x)
    (hf : ∀ a, Local root (f a)) : Local root (x >>= f) :=
  ⟨coupled_bind hx.ends fun a _ => coupled_of_fact fun hab => hab ▸ (hf a).ends⟩

theorem local_get_bind {f : Store → StoreM α}
    (hf : ∀ s t, Near root s t → EndsAlike (Near root) (fun a b s t => a = b ∧ Near root s t)
      (f s s) (f t t)) : Local root (get >>= f) := by
  refine ⟨fun s t h => ?_⟩
  rw [get_bind, get_bind]
  exact hf s t h

theorem Near.withTree {s t : Store} (h : Near root s t) {u v : FileTree}
    (huv : SameOn (Around root) u v) :
    Near root { s with tree := u } { t with tree := v } :=
  ⟨h.left, h.right, h.faults, huv⟩

theorem local_tick (call : StoreCall) (path : String) : Local root (tick call path) := by
  refine local_get_bind fun s t h => ?_
  rw [h.faults]
  have hnear : Near root { s with faults := (strike call t.faults).1 }
      { t with faults := (strike call t.faults).1 } := ⟨h.left, h.right, rfl, h.tree⟩
  generalize strike call t.faults = struck at hnear
  obtain ⟨faults, _ | kind⟩ := struck
  · exact ⟨rfl, hnear⟩
  · exact ⟨rfl, hnear⟩

/-- The place that a path names leads through the root. -/
theorem local_place_bind {path : String} {f : Place → StoreM α}
    (hf : ∀ p, Place.ofPath? root path = some p → Local root (f p)) :
    Local root (place path >>= f) := by
  refine ⟨fun s t h => ?_⟩
  rcases hp : Place.ofPath? root path with _ | p
  · have hrefused : ∀ s : Store, s.root = root →
        (place path >>= f) s = (.error (.invalidPath path), s) := by
      rintro s rfl
      simp only [place]
      rw [bind_apply, get_bind, hp]
      rfl
    rw [hrefused s h.left, hrefused t h.right]
    exact ⟨rfl, h⟩
  · have hplaced : ∀ s : Store, s.root = root → (place path >>= f) s = f p s := by
      rintro s rfl
      simp only [place]
      rw [bind_apply, get_bind, hp]
      rfl
    rw [hplaced s h.left, hplaced t h.right]
    exact (hf p hp).ends s t h

theorem local_change (onFault : IoFault → StoreError) (p : Place)
    {f : FileTree → Except IoFault FileTree}
    (hf : ∀ t u, SameOn (Around root) t u → EndSameOn (Around root) (f t) (f u)) :
    Local root (change onFault p f) := by
  refine local_get_bind fun s t h => ?_
  rcases p.fault? with _ | e
  · have hends := hf s.tree t.tree h.tree
    dsimp only
    rcases hs : f s.tree with e | u <;> rcases ht : f t.tree with e' | v <;>
      rw [hs, ht] at hends
    · exact ⟨congrArg onFault hends, h⟩
    · exact hends.elim
    · exact hends.elim
    · exact ⟨rfl, h.withTree hends⟩
  · exact ⟨rfl, h⟩

theorem around_of_place {path : String} {p : Place} (h : Place.ofPath? root path = some p) :
    root <+: p.names := by
  simp only [Place.ofPath?] at h
  split at h
  · cases h
  · cases h
    exact List.prefix_append _ _

theorem local_read (file : String) : Local root (read file) := by
  simp only [read]
  refine local_bind (local_tick _ _) fun _ => ?_
  refine local_place_bind fun p hp => ?_
  have hway := leads_around (around_of_place hp)
  rcases p.fault? with _ | e
  · refine local_get_bind fun s t h => ?_
    rw [h.tree.readText hway]
    rcases t.tree.readText p.names p.ending.asDirectory with e | text
    · cases e <;> exact ⟨rfl, h⟩
    · exact ⟨rfl, h⟩
  · exact local_throw _

theorem local_acquire {file : String}
    (hlock : ∀ p, Place.ofPath? root file = some p → root <+: (p.sibling ".lock").names) :
    Local root (acquire file) := by
  simp only [acquire]
  refine local_bind (local_tick _ _) fun _ => ?_
  refine local_place_bind fun p hp => ?_
  have hbeside := hlock p hp
  generalize p.sibling ".lock" = lock at hbeside ⊢
  refine local_bind (local_change _ _ fun t u h => ?_) fun _ => local_pure _
  exact h.createNew (leads_around hbeside)

theorem local_write {lease : Lease} (text : String)
    (htemporary : ∀ p, Place.ofPath? root lease.file = some p →
      root <+: (p.sibling ".tmp").names) : Local root (write lease text) := by
  simp only [write]
  refine local_bind (local_tick _ _) fun _ => ?_
  refine local_place_bind fun p hp => ?_
  have hway := leads_around (around_of_place hp)
  have hbeside := leads_around (htemporary p hp)
  have hne := p.sibling_ne_nil ".tmp"
  generalize p.sibling ".tmp" = temporary at hbeside hne ⊢
  refine local_bind (local_change _ _ fun t u h => h.writeText hbeside text) fun _ => ?_
  refine local_get_bind fun s t h => ?_
  have hends := h.tree.rename hbeside hway p.ending hne
  have hundone := h.withTree (h.tree.erase hne)
  rcases p.fault? with _ | e
  · rcases hs : s.tree.rename temporary.names p.names p.ending with e | u <;>
      rcases ht : t.tree.rename temporary.names p.names p.ending with e' | v <;>
      rw [hs, ht] at hends
    · exact ⟨congrArg (missingOr lease.file) hends, hundone⟩
    · exact hends.elim
    · exact hends.elim
    · exact ⟨rfl, h.withTree hends⟩
  · exact ⟨rfl, hundone⟩

theorem local_remove (lease : Lease) : Local root (remove lease) := by
  simp only [remove]
  refine local_bind (local_tick _ _) fun _ => ?_
  refine local_place_bind fun p hp => ?_
  refine local_get_bind fun s t h => ?_
  have hends := h.tree.removeFile (leads_around (around_of_place hp)) p.ending.asDirectory
  rcases p.fault? with _ | e
  · dsimp only
    rcases hs : s.tree.removeFile p.names p.ending.asDirectory with e | u <;>
      rcases ht : t.tree.removeFile p.names p.ending.asDirectory with e' | v <;>
      rw [hs, ht] at hends
    · obtain rfl : e = e' := hends
      cases e <;> exact ⟨rfl, h⟩
    · exact hends.elim
    · exact hends.elim
    · exact ⟨rfl, h.withTree hends⟩
  · exact ⟨rfl, h⟩

theorem local_createDir (dir : String) : Local root (createDir dir) := by
  simp only [createDir]
  refine local_bind (local_tick _ _) fun _ => ?_
  refine local_place_bind fun p hp => ?_
  rcases p.fault? with _ | e
  · refine local_get_bind fun s t h => ?_
    obtain ⟨hfault, hsame⟩ := h.tree.createDirAll (leads_around (around_of_place hp)) p.ending
    generalize s.tree.createDirAll p.names p.ending = left at hfault hsame
    generalize t.tree.createDirAll p.names p.ending = right at hfault hsame
    obtain ⟨u, fault⟩ := left
    obtain ⟨v, fault'⟩ := right
    obtain rfl : fault = fault' := hfault
    rcases fault with _ | e
    · exact ⟨rfl, h.withTree hsame⟩
    · exact ⟨rfl, h.withTree hsame⟩
  · exact local_throw _

theorem local_release {lease : Lease}
    (hlock : Leads (Around root) lease.lock ∨ ¬ Around root lease.lock) :
    Local root (release lease) := by
  refine local_get_bind fun s t h => ?_
  rcases hlock with hway | haside
  · have hends := h.tree.removeFile hway false
    rcases hs : s.tree.removeFile lease.lock false with e | u <;>
      rcases ht : t.tree.removeFile lease.lock false with e' | v <;>
      rw [hs, ht] at hends
    · exact ⟨rfl, h⟩
    · exact hends.elim
    · exact hends.elim
    · exact ⟨rfl, h.withTree hends⟩
  · -- where the lock is aside it does not matter whether it is there
    have hne : lease.lock ≠ [] := fun hnil => haside (.inl (hnil ▸ List.nil_prefix))
    rcases hs : s.tree.removeFile lease.lock false with e | u <;>
      rcases ht : t.tree.removeFile lease.lock false with e' | v
    · exact ⟨rfl, h⟩
    · obtain ⟨-, rfl⟩ := removeFile_eq_ok _ _ _ _ ht
      exact ⟨rfl, h.withTree (h.tree.symm.erase_aside hne haside).symm⟩
    · obtain ⟨-, rfl⟩ := removeFile_eq_ok _ _ _ _ hs
      exact ⟨rfl, h.withTree (h.tree.erase_aside hne haside)⟩
    · obtain ⟨-, rfl⟩ := removeFile_eq_ok _ _ _ _ hs
      obtain ⟨-, rfl⟩ := removeFile_eq_ok _ _ _ _ ht
      exact ⟨rfl, h.withTree (h.tree.erase hne)⟩

end Store

end LayeredConfig
