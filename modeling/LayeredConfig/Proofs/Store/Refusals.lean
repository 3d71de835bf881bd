import LayeredConfig.Proofs.Store.Settling

/-!
# What reading breaks off with

The files of a tree are read without a lease, so a reading finds its file in use only where that is
scheduled. Whatever else goes wrong while the levels of a scope are resolved and loaded, it is no
lock.
-/

set_option autoImplicit false

namespace LayeredConfig

open Run

namespace Store

def ReadsLocked (s : Store) : Prop := ∃ f ∈ s.faults, f.call = .read ∧ f.kind = .locked

def KeepsUnlocked (s t : Store) : Prop := t.ReadsLocked → s.ReadsLocked

variable {s : Store}

def BlamesRead (s : Store) (file : String) (e : StoreError) : Prop :=
  ∀ other, e = .locked other → other = file ∧ s.ReadsLocked

theorem breaksOff_tick (file : String) :
    BreaksOff s.KeepsUnlocked (BlamesRead s file) (tick .read file) := by
  intro t ht
  obtain ⟨hkept, hstruck⟩ := strike_kinds .read t.faults
  simp only [tick]
  rw [get_bind]
  generalize strike .read t.faults = struck at hkept hstruck
  obtain ⟨faults, hit⟩ := struck
  have hfewer : s.KeepsUnlocked { t with faults := faults } := by
    rintro ⟨f, hf, hcall, hkind⟩
    obtain ⟨g, hg, hgcall, hgkind⟩ := hkept f hf
    exact ht ⟨g, hg, hgcall.trans hcall, hgkind.trans hkind⟩
  rcases hit with _ | kind
  · exact ⟨hfewer, fun e he => by cases he⟩
  · refine ⟨hfewer, fun e he other hother => ?_⟩
    obtain rfl : kind.error file = e := Except.error.inj he
    cases kind with
    | locked =>
      obtain ⟨g, hg, hcall, hkind⟩ := hstruck .locked rfl
      exact ⟨(StoreError.locked.inj hother).symm, ht ⟨g, hg, hcall, hkind⟩⟩
    | io => cases hother
    | missing => cases hother

theorem breaksOff_read (file : String) :
    BreaksOff s.KeepsUnlocked (BlamesRead s file) (read file) := by
  simp only [read]
  refine breaksOff_bind (breaksOff_tick file) fun _ => breaksOff_bind ?_ fun p => ?_
  · refine breaksOff_bind breaksOff_get fun t => ?_
    rcases Place.ofPath? t.root file with _ | p
    · exact breaksOff_throw fun other h => by cases h
    · exact breaksOff_pure p
  · rcases p.fault? with _ | fault
    · refine breaksOff_bind breaksOff_get fun t => ?_
      rcases t.tree.readText p.names p.ending.asDirectory with fault | text
      · cases fault with
        | notFound => exact breaksOff_pure none
        | _ => exact breaksOff_throw fun other h => by cases h
      · exact breaksOff_pure (some text)
    · exact breaksOff_throw fun other h => by cases h

theorem breaksOff_load (file : String) :
    BreaksOff s.KeepsUnlocked (BlamesRead s file) (load file) := by
  simp only [load]
  refine breaksOff_bind (breaksOff_read file) fun text => ?_
  rcases text with _ | text
  · exact breaksOff_pure _
  · dsimp only
    rcases LevelDocument.parse text with fault | d
    · exact breaksOff_throw fun other h => by cases h
    · exact breaksOff_pure d

end Store

namespace Access

variable {overlay : Option StagedSet} {scope : Scope} {s : Store}

def NotDenied (s : Store) (e : ConfigError) : Prop :=
  ∀ path reason, e = .locked path reason → reason = .fileInUse path ∧ s.ReadsLocked

theorem breaksOff_load (file : String) :
    BreaksOff s.KeepsUnlocked (NotDenied s) (load overlay file) := by
  refine breaksOff_bind (fun t ht => ?_) fun _ => breaksOff_pure _
  obtain ⟨hkept, hblames⟩ := Store.breaksOff_load file t ht
  rw [onSection_apply]
  rcases h : Store.load file t with ⟨e | d, t'⟩
  · rw [h] at hkept hblames
    refine ⟨hkept, fun e' he path reason hlocked => ?_⟩
    obtain rfl : ConfigError.ofStore file e = e' := Except.error.inj he
    cases e with
    | locked other =>
      obtain ⟨rfl, hscheduled⟩ := hblames _ rfl other rfl
      obtain ⟨rfl, rfl⟩ := ConfigError.locked.inj hlocked
      exact ⟨rfl, hscheduled⟩
    | _ => cases hlocked
  · rw [h] at hkept
    exact ⟨hkept, fun e he => by cases he⟩

theorem NotDenied.of_ne {e : ConfigError} (h : ∀ path reason, e ≠ .locked path reason) :
    NotDenied s e := fun path reason hlocked => absurd hlocked (h path reason)

theorem notDenied_of_applications {applications : List Application} {e : ConfigError}
    (h : applications.mapM Chain.normalApplication = .error e) : NotDenied s e := by
  obtain ⟨a, -, ha⟩ := error_of_mapM h
  simp only [Chain.normalApplication] at ha
  split at ha
  · cases ha
  · cases ha
    exact .of_ne fun _ _ h => by cases h

theorem notDenied_of_resolve {host : String} {sites : Sites} {e : ConfigError}
    (h : Chain.resolve host scope sites = .error e) : NotDenied s e := by
  cases scope with
  | global => cases h
  | file name => cases h
  | site id path =>
    simp only [Chain.resolve] at h
    split at h
    · cases h
      exact .of_ne fun _ _ h => by cases h
    · rename_i site hsite
      simp only [Chain.siteLevels] at h
      rcases hnormal : site.applications.mapM Chain.normalApplication with fault | normal
      · rw [hnormal] at h
        cases h
        exact notDenied_of_applications hnormal
      · rw [hnormal] at h
        cases h

theorem breaksOff_materialize (scope : Scope) :
    BreaksOff s.KeepsUnlocked (NotDenied s) (materialize overlay scope) := by
  refine breaksOff_bind (breaksOff_bind (breaksOff_bind (breaksOff_load _) fun host => ?_)
    fun sites => ?_) fun refs => ?_
  · refine breaksOff_mk fun e he path reason hlocked => ?_
    rcases sitesOf_cases host with ⟨sites, hsites⟩ | ⟨why, hsites⟩
    · rw [hsites] at he
      cases he
    · rw [hsites] at he
      cases he
      cases hlocked
  · exact breaksOff_mk fun e he => notDenied_of_resolve he
  · exact breaksOff_mapM refs fun ref => breaksOff_bind (breaksOff_load _) fun _ => breaksOff_pure _

end Access

end LayeredConfig
