import LayeredConfig.Proofs.Document.Representable
import LayeredConfig.Proofs.Scope.Lookup
import LayeredConfig.Proofs.Store.Refusals

/-!
# What may be written where

A change is admitted when its section is registered, when it changes something and gives an object
that a file can hold, when the levels of its scope load, when the section may be stored at the last
of them, and when no denial is against it. All but the denials make a change writable; a writable
change that is not admitted is answered as locked, and nothing else is but a file that is in use
when it is read.
-/

set_option autoImplicit false

namespace LayeredConfig

open Run

namespace Access

variable {registry : Registry} {overlay : Option StagedSet} {scope : Scope} {name : String}
  {m : Mutation} {s : Store} {chain : List (LevelRef × LevelDocument)}

def Reached (overlay : Option StagedSet) (scope : Scope) (s : Store)
    (chain : List (LevelRef × LevelDocument)) : Prop :=
  ∃ host sites,
    ((Chain.hostFile :: chain.map (·.1.file)).mapM (load overlay) s).1 =
      .ok (host :: chain.map (·.2)) ∧
    sitesOf host = .ok sites ∧
    Chain.resolve Chain.hostFile scope sites = .ok (chain.map (·.1))

theorem mapM_loaded_iff {refs : List LevelRef} {s s' : Store} :
    refs.mapM (loaded overlay) s = (.ok chain, s') ↔ refs = chain.map (·.1) ∧
      (chain.map (·.1.file)).mapM (load overlay) s = (.ok (chain.map (·.2)), s') := by
  induction refs generalizing chain s with
  | nil =>
    constructor
    · intro h
      cases h
      exact ⟨rfl, rfl⟩
    · rintro ⟨hrefs, h⟩
      obtain rfl := List.map_eq_nil_iff.mp hrefs.symm
      cases h
      rfl
  | cons ref refs ih =>
    rw [List.mapM_cons]
    constructor
    · intro h
      obtain ⟨first, mid, hfirst, h⟩ := bind_eq_ok h
      obtain ⟨rest, mid', hrest, h⟩ := bind_eq_ok h
      cases h
      obtain ⟨d, mid'', hd, hfirst⟩ := bind_eq_ok hfirst
      cases hfirst
      obtain ⟨rfl, hfiles⟩ := ih.1 hrest
      refine ⟨rfl, ?_⟩
      rw [List.map_cons, List.mapM_cons, bind_of_ok hd, bind_of_ok hfiles]
      rfl
    · rintro ⟨hrefs, h⟩
      rcases chain with _ | ⟨⟨level, d⟩, chain⟩
      · cases hrefs
      rw [List.map_cons] at hrefs
      obtain ⟨rfl, rfl⟩ := List.cons.inj hrefs
      rw [List.map_cons, List.mapM_cons] at h
      obtain ⟨found, mid, hfound, h⟩ := bind_eq_ok h
      obtain ⟨rest, mid', hrest, h⟩ := bind_eq_ok h
      cases h
      have hfirst : loaded overlay ref s = (.ok (ref, d), mid) := bind_of_ok hfound
      rw [bind_of_ok hfirst, bind_of_ok (ih.2 ⟨rfl, hrest⟩)]
      rfl

theorem materialize_eq_ok_iff :
    (materialize overlay scope s).1 = .ok chain ↔ Reached overlay scope s chain := by
  constructor
  · intro h
    obtain ⟨registered, refs, mid, hsites, hresolve, hload⟩ := materialize_eq_ok (eq_of_answer h)
    obtain ⟨host, mid', hhost, hsites⟩ := bind_eq_ok hsites
    obtain ⟨hdecodes, hmid⟩ := Prod.ext_iff.mp hsites
    obtain rfl : mid' = mid := hmid
    obtain ⟨rfl, hfiles⟩ := mapM_loaded_iff.1 hload
    refine ⟨host, registered, ?_, hdecodes, hresolve⟩
    rw [List.mapM_cons, bind_of_ok hhost, bind_of_ok hfiles]
    rfl
  · rintro ⟨host, registered, hfiles, hdecodes, hresolve⟩
    have hfiles := eq_of_answer hfiles
    rw [List.mapM_cons] at hfiles
    obtain ⟨found, mid, hfound, hfiles⟩ := bind_eq_ok hfiles
    obtain ⟨docs, mid', hdocs, hfiles⟩ := bind_eq_ok hfiles
    obtain ⟨rfl, rfl⟩ := List.cons.inj (Except.ok.inj (Prod.ext_iff.mp hfiles).1)
    have hsites : sites overlay s = (.ok registered, mid) := by
      simp only [sites]
      rw [bind_of_ok hfound, hdecodes]
      rfl
    have hrefs : resolve overlay scope s = (.ok (chain.map (·.1)), mid) := by
      simp only [resolve]
      rw [bind_of_ok hsites, hresolve]
      rfl
    simp only [materialize]
    rw [bind_of_ok hrefs]
    exact congrArg Prod.fst (mapM_loaded_iff.2 ⟨rfl, hdocs⟩)

structure Writable (registry : Registry) (overlay : Option StagedSet) (scope : Scope)
    (name : String) (m : Mutation) (s : Store) (definition : SectionDefinition)
    (chain : List (LevelRef × LevelDocument)) (level : LevelRef) : Prop where
  registered : registry.get name = .ok definition
  changes : m.content.isSome ∨ m.mode.isSome
  value : ∀ v, m.content = some (.replace v) → v.isObject = true ∧ ¬ v.NullItem
  reached : Reached overlay scope s chain
  last : ∃ d, chain.getLast? = some (level, d)
  host : definition.allow = .hostOnly → level.file = Chain.hostFile

theorem isEmpty_eq_false_iff : m.isEmpty = false ↔ m.content.isSome ∨ m.mode.isSome := by
  simp only [Mutation.isEmpty]
  rcases m.content with _ | change <;> rcases m.mode with _ | mode <;> simp

theorem checkMutation_eq_ok_iff {definition : SectionDefinition} :
    checkMutation definition m = .ok () ↔ (m.content.isSome ∨ m.mode.isSome) ∧
      ∀ v, m.content = some (.replace v) → v.isObject = true ∧ ¬ v.NullItem := by
  rw [← isEmpty_eq_false_iff]
  simp only [checkMutation]
  rcases m.isEmpty with _ | _
  · rcases m.content with _ | (v | _)
    · simp
    · simp [SectionDefinition.validate_eq_ok_iff]
    · simp
  · simp

/-- Everything but the denials comes before them. -/
theorem checkWrite_of_writable {definition : SectionDefinition} {level : LevelRef}
    (h : Writable registry overlay scope name m s definition chain level) :
    (checkWrite registry overlay scope name m s).1 =
      if Against name m chain then .error (.locked s!"{level.location}/{name}" (denial m))
      else .ok level := by
  have hchain := eq_of_answer (materialize_eq_ok_iff.2 h.reached)
  obtain ⟨d, hlast⟩ := h.last
  rw [checkWrite_of_materialize h.registered hchain, checkMutation_eq_ok_iff.2 ⟨h.changes, h.value⟩]
  change target name definition.allow m chain = _
  rw [target_of_last hlast, if_neg fun hhost => hhost.2 (h.host hhost.1)]

theorem ne_locked_of_checkMutation {definition : SectionDefinition} {e : ConfigError}
    (h : checkMutation definition m = .error e) (path : String) (reason : LockReason) :
    e ≠ .locked path reason := by
  rintro rfl
  simp only [checkMutation] at h
  split at h
  · cases h
  · split at h
    · simp only [SectionDefinition.validate] at h
      split at h
      · cases h
      · split at h
        · cases h
        · cases h
    · cases h

theorem checkWrite_cases (registry : Registry) (overlay : Option StagedSet) (scope : Scope)
    (name : String) (m : Mutation) (s : Store) :
    (∃ definition chain level, Writable registry overlay scope name m s definition chain level) ∨
      ∃ e, (checkWrite registry overlay scope name m s).1 = .error e ∧ NotDenied s e := by
  rcases hname : registry.get name with e | definition
  · refine .inr ⟨e, ?_, ?_⟩
    · simp only [checkWrite]
      rw [hname]
      rfl
    · simp only [Registry.get] at hname
      split at hname
      · cases hname
      · cases hname
        exact .of_ne fun _ _ h => by cases h
  have hregistered : checkWrite registry overlay scope name m s =
      (ExceptT.mk (pure (checkMutation definition m)) >>= fun _ => materialize overlay scope >>=
        fun chain => ExceptT.mk (pure (target name definition.allow m chain))) s := by
    simp only [checkWrite]
    rw [hname]
    rfl
  rcases hcheck : checkMutation definition m with e | ⟨⟨⟩⟩
  · refine .inr ⟨e, ?_, .of_ne (ne_locked_of_checkMutation hcheck)⟩
    rw [hregistered, hcheck]
    rfl
  have hblames : ∀ e, (materialize overlay scope s).1 = .error e → NotDenied s e :=
    (breaksOff_materialize scope s id).2
  rcases hchain : materialize overlay scope s with ⟨e | chain, s'⟩
  · rw [hchain] at hblames
    refine .inr ⟨e, ?_, hblames e rfl⟩
    rw [hregistered, hcheck]
    change ((materialize overlay scope >>= _) s).1 = _
    rw [bind_apply, hchain]
  obtain ⟨level, d, hlast⟩ := getLast?_of_materialize hchain
  by_cases hhost : definition.allow = .hostOnly ∧ level.file ≠ Chain.hostFile
  · refine .inr ⟨.validation (.hostOnly name), ?_, .of_ne fun _ _ h => by cases h⟩
    rw [checkWrite_of_materialize hname hchain, hcheck]
    change target name definition.allow m chain = _
    rw [target_of_last hlast, if_pos hhost]
  · obtain ⟨hchanges, hvalue⟩ := checkMutation_eq_ok_iff.1 hcheck
    exact .inl ⟨definition, chain, level, hname, hchanges, hvalue,
      materialize_eq_ok_iff.1 (congrArg Prod.fst hchain), ⟨d, hlast⟩,
      fun hallow => by_contra fun hfile => hhost ⟨hallow, hfile⟩⟩

/-- A change that is refused for something else than a denial is not writable. -/
theorem not_writable {definition : SectionDefinition} {level : LevelRef} {e : ConfigError}
    (h : (checkWrite registry overlay scope name m s).1 = .error e) (hdenied : NotDenied s e) :
    ¬ Writable registry overlay scope name m s definition chain level := by
  intro hwritable
  rw [checkWrite_of_writable hwritable] at h
  split at h
  · obtain ⟨hreason, -⟩ := hdenied _ _ (Except.error.inj h).symm
    simp only [denial] at hreason
    split at hreason
    · cases hreason
    · cases hreason
  · cases h

theorem not_against_iff : ¬ Against name m chain ↔
    (m.content.isSome → ∀ l ∈ chain, l.2.mode name ≠ .deny) ∧
      (m.mode.isSome → ∀ l ∈ chain.dropLast, l.2.mode name ≠ .deny) := by
  simp only [Against, Denies, not_or, not_and, not_exists, ne_eq]

end Access

open Access

/-- A change is admitted, for the last level of its chain, just when it is writable and no denial is
against it: of a content at the level or above, of a mode above. It is answered as locked just when
it is writable and a denial is against it, but for files that are scheduled to be in use when they
are read. -/
theorem write_admission (registry : Registry) (overlay : Option StagedSet) (scope : Scope)
    (name : String) (m : Mutation) (s : Store) :
    (∀ level, (checkWrite registry overlay scope name m s).1 = .ok level ↔
      ∃ definition chain, Writable registry overlay scope name m s definition chain level ∧
        (m.content.isSome → ∀ l ∈ chain, l.2.mode name ≠ .deny) ∧
        (m.mode.isSome → ∀ l ∈ chain.dropLast, l.2.mode name ≠ .deny)) ∧
    ∀ path reason, (reason = .fileInUse path → ¬ s.ReadsLocked) →
      ((checkWrite registry overlay scope name m s).1 = .error (.locked path reason) ↔
        ∃ definition chain level,
          Writable registry overlay scope name m s definition chain level ∧
          (m.content.isSome ∧ (∃ l ∈ chain, l.2.mode name = .deny) ∨
            m.mode.isSome ∧ ∃ l ∈ chain.dropLast, l.2.mode name = .deny) ∧
          path = s!"{level.location}/{name}" ∧
          reason = if m.content.isSome then .denied else .deniedAbove) := by
  rcases checkWrite_cases registry overlay scope name m s with
    ⟨definition, chain, level, hwritable⟩ | ⟨e, hanswer, hdenied⟩
  -- a writable change is answered by the denials, and no other change is writable at all
  · have hanswer := checkWrite_of_writable hwritable
    refine ⟨fun other => ⟨fun h => ?_, ?_⟩, fun path reason _ => ⟨fun h => ?_, ?_⟩⟩
    · rw [hanswer] at h
      split at h
      · cases h
      · rename_i hfree
        obtain rfl := Except.ok.inj h
        exact ⟨definition, chain, hwritable, not_against_iff.1 hfree⟩
    · rintro ⟨definition', chain', hother, hfree⟩
      rw [checkWrite_of_writable hother, if_neg (not_against_iff.2 hfree)]
    · rw [hanswer] at h
      split at h
      · rename_i hagainst
        obtain ⟨rfl, rfl⟩ := ConfigError.locked.inj (Except.error.inj h)
        exact ⟨definition, chain, level, hwritable, hagainst, rfl, rfl⟩
      · cases h
    · rintro ⟨definition', chain', level', hother, hagainst, rfl, rfl⟩
      have hagainst : Against name m chain' := hagainst
      rw [checkWrite_of_writable hother, if_pos hagainst]
      rfl
  · have hnever : ∀ definition chain level,
        ¬ Writable registry overlay scope name m s definition chain level :=
      fun _ _ _ => not_writable hanswer hdenied
    refine ⟨fun level => ⟨fun h => ?_, ?_⟩, fun path reason hread => ⟨fun h => ?_, ?_⟩⟩
    · rw [hanswer] at h
      cases h
    · rintro ⟨definition, chain, hwritable, -⟩
      exact absurd hwritable (hnever definition chain level)
    · rw [hanswer] at h
      obtain ⟨hreason, hlocked⟩ := hdenied path reason (Except.error.inj h)
      exact absurd hlocked (hread hreason)
    · rintro ⟨definition, chain, level, hwritable, -⟩
      exact absurd hwritable (hnever definition chain level)

theorem write_admission_shop :
    let shop : LevelRef := ⟨"shop", "shop/web.toml"⟩
    let allows := fun scope definition chain level =>
      Writable .builtin none scope "directory_browse" (.setMode .allow) denyingDisk definition chain
        level
    let answer := fun scope =>
      (checkWrite .builtin none scope "directory_browse" (.setMode .allow) denyingDisk).1
    (answer (.site 1 "/") = .ok shop ∧
      ∃ definition chain, allows (.site 1 "/") definition chain shop ∧
        ∀ l ∈ chain.dropLast, l.2.mode "directory_browse" ≠ .deny) ∧
    answer (.site 1 "/api/orders") = .error (.locked "shop/api/directory_browse" .deniedAbove) ∧
      ∃ definition chain level, allows (.site 1 "/api/orders") definition chain level ∧
        ∃ l ∈ chain.dropLast, l.2.mode "directory_browse" = .deny := by
  intro shop allows answer
  have hlifts : answer (.site 1 "/") = .ok shop := by decide +kernel
  have hlocked : answer (.site 1 "/api/orders") =
      .error (.locked "shop/api/directory_browse" .deniedAbove) := by decide +kernel
  obtain ⟨hadmitted, -⟩ := write_admission .builtin none (.site 1 "/") "directory_browse"
    (.setMode .allow) denyingDisk
  obtain ⟨-, hrefused⟩ := write_admission .builtin none (.site 1 "/api/orders") "directory_browse"
    (.setMode .allow) denyingDisk
  obtain ⟨definition, chain, hallows, -, hfree⟩ := (hadmitted shop).1 hlifts
  obtain ⟨definition', chain', level, hallows', hdenied, -⟩ :=
    (hrefused _ .deniedAbove fun h => by cases h).1 hlocked
  refine ⟨⟨hlifts, definition, chain, hallows, hfree rfl⟩, hlocked, definition', chain', level,
    hallows', ?_⟩
  obtain ⟨hcontent, -⟩ | ⟨-, habove⟩ := hdenied
  · cases hcontent
  · exact habove

end LayeredConfig
