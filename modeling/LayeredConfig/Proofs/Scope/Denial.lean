import LayeredConfig.Proofs.Scope.Chains
import LayeredConfig.Section.Access

/-!
# Denials along a path

A denial anywhere in a chain is in force at its last level. As the chain of a path is the beginning
of the chain of every path below it, what is denied at a path is denied below it, whatever the
lower levels say, and no change that the denial is against is admitted there.
-/

set_option autoImplicit false

namespace LayeredConfig

open Run

namespace Access

variable {name : String} {chain : List (LevelRef × LevelDocument)}

theorem length_levels (name : String) (chain : List (LevelRef × LevelDocument)) :
    (levels name chain).length = chain.length := List.length_mapIdx

theorem getElem?_levels (name : String) (chain : List (LevelRef × LevelDocument)) (i : Nat) :
    (levels name chain)[i]? = chain[i]?.map fun l =>
      ⟨l.1.location, l.1.file, l.2.mode name, (l.2.section? name).isSome,
        if i = 0 then none else some (i - 1)⟩ := List.getElem?_mapIdx

theorem modes_levels (name : String) (chain : List (LevelRef × LevelDocument)) :
    (levels name chain).map (·.mode) = chain.map (·.2.mode name) := by
  refine List.ext_getElem? fun i => ?_
  rw [List.getElem?_map, List.getElem?_map, getElem?_levels]
  rcases chain[i]? <;> rfl

def Denies (name : String) (chain : List (LevelRef × LevelDocument)) : Prop :=
  ∃ l ∈ chain, l.2.mode name = .deny

instance (name : String) (chain : List (LevelRef × LevelDocument)) :
    Decidable (Denies name chain) :=
  inferInstanceAs (Decidable (∃ l ∈ chain, l.2.mode name = .deny))

theorem Denies.of_begins {above : List (LevelRef × LevelDocument)} (h : Denies name above)
    (hbegins : above <+: chain) : Denies name chain := by
  obtain ⟨l, hl, hdeny⟩ := h
  exact ⟨l, hbegins.subset hl, hdeny⟩

/-- The nearest explicit mode is a denial only where a level up to there is one. -/
theorem denies_of_explicitMode {steps i : Nat}
    (h : Level.explicitMode (levels name chain) steps (some i) = .deny) :
    Denies name (chain.take (i + 1)) := by
  induction steps generalizing i with
  | zero => cases h
  | succ steps ih =>
    simp only [Level.explicitMode] at h
    rw [getElem?_levels] at h
    rcases hi : chain[i]? with _ | l
    · rw [hi] at h
      cases h
    rw [hi] at h
    dsimp only [Option.map_some] at h
    split at h
    · rcases i with _ | i
      · simp [Level.explicitMode] at h
      · exact (ih h).of_begins (List.take_prefix_take_left (Nat.le_succ (i + 1)))
    · exact ⟨l, List.mem_of_getElem? (by rw [List.getElem?_take_of_lt (Nat.lt_succ_self i), hi]), h⟩

theorem effectiveMode_eq_deny_iff {i : Nat} (hi : i < chain.length) :
    Level.effectiveMode (levels name chain) i = .deny ↔ Denies name (chain.take (i + 1)) := by
  have hne : (levels name chain).isEmpty = false := by
    rw [List.isEmpty_eq_false_iff, ← List.length_pos_iff, length_levels]
    omega
  have hlast : min i ((levels name chain).length - 1) = i := by
    rw [length_levels]
    omega
  have hany : ((levels name chain).take (i + 1)).any (·.mode == .deny) = true ↔
      Denies name (chain.take (i + 1)) := by
    have hmodes := congrArg (fun modes => (modes.take (i + 1)).any (· == .deny))
      (modes_levels name chain)
    simp only [← List.map_take, List.any_map, Function.comp_def] at hmodes
    rw [hmodes, List.any_eq_true]
    simp only [beq_iff_eq, Denies]
  simp only [Level.effectiveMode]
  rw [hne, hlast]
  simp only [Bool.false_eq_true, if_false, ← hany]
  split
  · rename_i h
    simp [h]
  · rename_i h
    exact ⟨fun hmode => hany.2 (denies_of_explicitMode hmode), fun hdeny => absurd hdeny h⟩

theorem not_denies_nil : ¬ Denies name [] := by
  rintro ⟨l, hl, -⟩
  cases hl

/-- The mode in force at the last level is a denial just when some level denies. -/
theorem effectiveMode_last_iff :
    Level.effectiveMode (levels name chain) ((levels name chain).length - 1) = .deny ↔
      Denies name chain := by
  rw [length_levels]
  rcases hlength : chain.length with _ | n
  · obtain rfl := List.length_eq_zero_iff.mp hlength
    exact iff_of_false (fun h => by cases h) not_denies_nil
  · rw [Nat.add_sub_cancel, effectiveMode_eq_deny_iff (by omega), ← hlength, List.take_length]

/-- The mode in force above the last level is a denial just when a level before it denies. -/
theorem modeAbove_last_iff :
    Level.modeAbove (levels name chain) ((levels name chain).length - 1) = .deny ↔
      Denies name chain.dropLast := by
  simp only [Level.modeAbove]
  rw [length_levels, getElem?_levels, List.dropLast_eq_take]
  rcases hlength : chain.length with _ | _ | n
  · obtain rfl := List.length_eq_zero_iff.mp hlength
    exact iff_of_false (fun h => by cases h) not_denies_nil
  · obtain ⟨l, rfl⟩ := List.length_eq_one_iff.mp hlength
    exact iff_of_false (fun h => by cases h) not_denies_nil
  · have hlevel : n + 1 < chain.length := by omega
    rw [Nat.add_sub_cancel, List.getElem?_eq_getElem hlevel]
    exact effectiveMode_eq_deny_iff (by omega)

def refusal (definition : SectionDefinition) (name : String) (m : Mutation) (level : LevelRef) :
    ConfigError :=
  match checkMutation definition m with
  | .error e => e
  | .ok () =>
    if definition.allow = .hostOnly ∧ level.file ≠ Chain.hostFile then .validation (.hostOnly name)
    else .locked s!"{level.location}/{name}" (if m.content.isSome then .denied else .deniedAbove)

def Against (name : String) (m : Mutation) (chain : List (LevelRef × LevelDocument)) : Prop :=
  m.content.isSome ∧ Denies name chain ∨ m.mode.isSome ∧ Denies name chain.dropLast

def denial (m : Mutation) : LockReason := if m.content.isSome then .denied else .deniedAbove

instance (name : String) (m : Mutation) (chain : List (LevelRef × LevelDocument)) :
    Decidable (Against name m chain) :=
  inferInstanceAs (Decidable (m.content.isSome ∧ Denies name chain ∨
    m.mode.isSome ∧ Denies name chain.dropLast))

variable {m : Mutation}

/-- For a change of the content a denial anywhere counts, for one of the mode alone a denial above
the last level. -/
theorem against_iff : Against name m chain ↔
    if m.content.isSome then Denies name chain else m.mode.isSome ∧ Denies name chain.dropLast := by
  simp only [Against]
  rcases m.content.isSome with _ | _
  · simp
  · simp only [true_and, if_true]
    exact or_iff_left_of_imp fun h => h.2.of_begins (List.dropLast_prefix chain)

theorem target_of_last {allow : AllowDefinition} {level : LevelRef} {d : LevelDocument}
    (hlast : chain.getLast? = some (level, d)) :
    target name allow m chain =
      if allow = .hostOnly ∧ level.file ≠ Chain.hostFile then .error (.validation (.hostOnly name))
      else if Against name m chain then .error (.locked s!"{level.location}/{name}" (denial m))
      else .ok level := by
  simp only [target]
  rw [hlast]
  dsimp only
  refine if_congr Iff.rfl rfl ?_
  simp only [effectiveMode_last_iff, modeAbove_last_iff, against_iff, denial]
  rcases m.content.isSome with _ | _
  · simp
  · by_cases hdenies : Denies name chain
    · simp [hdenies]
    · have habove : ¬ Denies name chain.dropLast := fun h =>
        hdenies (h.of_begins (List.dropLast_prefix chain))
      simp [hdenies, habove]

theorem refused_of_against {definition : SectionDefinition} {level : LevelRef} {d : LevelDocument}
    (hlast : chain.getLast? = some (level, d)) (h : Against name m chain) :
    (checkMutation definition m >>= fun _ => target name definition.allow m chain) =
      .error (refusal definition name m level) := by
  simp only [refusal]
  rcases checkMutation definition m with e | ⟨⟨⟩⟩
  · rfl
  change target name definition.allow m chain = _
  rw [target_of_last hlast, if_pos h]
  dsimp only
  split
  · rfl
  · rfl

variable {registry : Registry} {overlay : Option StagedSet} {scope upper lower : Scope}
  {definition : SectionDefinition} {s s' : Store}

theorem getSection_of_materialize (hname : registry.get name = .ok definition)
    (h : materialize overlay scope s = (.ok chain, s')) :
    getSection registry overlay scope name s =
      (.ok (view name definition.default scope overlay chain), s') := by
  simp only [getSection]
  rw [hname]
  change (materialize overlay scope >>= _) s = _
  rw [bind_apply, h]
  rfl

theorem checkWrite_of_materialize (hname : registry.get name = .ok definition)
    (h : materialize overlay scope s = (.ok chain, s')) (m : Mutation) :
    (checkWrite registry overlay scope name m s).1 =
      (checkMutation definition m >>= fun _ => target name definition.allow m chain) := by
  simp only [checkWrite]
  rw [hname]
  change ((ExceptT.mk (pure (checkMutation definition m)) >>= fun _ =>
    materialize overlay scope >>= _) s).1 = _
  rw [bind_apply]
  rcases hcheck : checkMutation definition m with e | ⟨⟨⟩⟩
  · rfl
  · change ((materialize overlay scope >>= _) s).1 = _
    rw [bind_apply, h]
    rfl

def loaded (overlay : Option StagedSet) (level : LevelRef) : ConfigM (LevelRef × LevelDocument) := do
  pure (level, ← load overlay level.file)

theorem materialize_eq_ok (h : materialize overlay scope s = (.ok chain, s')) :
    ∃ registered refs mid, sites overlay s = (.ok registered, mid) ∧
      Chain.resolve Chain.hostFile scope registered = .ok refs ∧
      refs.mapM (loaded overlay) mid = (.ok chain, s') := by
  obtain ⟨refs, mid, hrefs, hload⟩ := bind_eq_ok h
  obtain ⟨registered, mid', hsites, hresolve⟩ := bind_eq_ok hrefs
  obtain ⟨hresolve, hmid⟩ := Prod.ext_iff.mp hresolve
  obtain rfl : mid' = mid := hmid
  exact ⟨registered, refs, mid', hsites, hresolve, hload⟩

theorem getLast?_of_materialize (h : materialize overlay scope s = (.ok chain, s')) :
    ∃ level d, chain.getLast? = some (level, d) := by
  obtain ⟨registered, refs, mid, -, hrefs, hload⟩ := materialize_eq_ok h
  have hne : chain ≠ [] := by
    rintro rfl
    exact Chain.resolve_ne_nil hrefs (List.length_eq_zero_iff.mp (length_of_mapM hload).symm)
  exact ⟨_, _, List.getLast?_eq_some_getLast hne⟩

/-- Where all levels of a scope load, those of a scope whose chain is a beginning of its own do. -/
theorem materialize_above
    (habove : ∀ registered refs, Chain.resolve Chain.hostFile lower registered = .ok refs →
      ∃ above, Chain.resolve Chain.hostFile upper registered = .ok above ∧ above <+: refs)
    (h : materialize overlay lower s = (.ok chain, s')) :
    ∃ above s₁, materialize overlay upper s = (.ok above, s₁) ∧ above <+: chain := by
  obtain ⟨registered, refs, mid, hsites, hrefs, hload⟩ := materialize_eq_ok h
  obtain ⟨above, hresolve, rest, rfl⟩ := habove registered refs hrefs
  rw [List.mapM_append] at hload
  obtain ⟨first, mid₁, hfirst, hload⟩ := bind_eq_ok hload
  obtain ⟨second, mid₂, hsecond, hload⟩ := bind_eq_ok hload
  cases hload
  refine ⟨first, mid₁, ?_, List.prefix_append first second⟩
  simp only [materialize, resolve]
  rw [bind_apply, bind_apply, hsites]
  dsimp only
  rw [hresolve]
  exact hfirst

end Access

/-- Where a path of a site resolves, every path above it does, with a chain that is a beginning of
its own. What is denied above is denied below, and the changes that a denial in the chain is
against are refused: every content, and every mode below the level that denies. -/
theorem deny_inherited (id : Int) (p q : String) (atP atQ : Scope)
    (hp : Scope.inSite id p = .ok atP) (hq : Scope.inSite id q = .ok atQ)
    (hpq : Path.segments p <+: Path.segments q) :
    (∀ host sites chain, Chain.resolve host atQ sites = .ok chain →
      ∃ above, Chain.resolve host atP sites = .ok above ∧ above <+: chain) ∧
    ∀ registry overlay (s s' : Store) name definition chain,
      registry.get name = .ok definition →
      Access.materialize overlay atQ s = (.ok chain, s') →
      ∃ viewP viewQ level d,
        (Access.getSection registry overlay atP name s).1 = .ok viewP ∧
        (Access.getSection registry overlay atQ name s).1 = .ok viewQ ∧
        chain.getLast? = some (level, d) ∧
        (viewP.effective = .deny → viewQ.effective = .deny ∧
          ∀ m : Mutation, m.content.isSome →
            (Access.checkWrite registry overlay atQ name m s).1 =
              .error (Access.refusal definition name m level)) ∧
        ∀ m : Mutation, m.mode.isSome →
          (∃ l ∈ chain.dropLast, l.2.mode name = .deny) →
            (Access.checkWrite registry overlay atQ name m s).1 =
              .error (Access.refusal definition name m level) := by
  have hsegments : ∀ {path : String} {scope : Scope}, Scope.inSite id path = .ok scope →
      scope = .site id (Path.ofSegments (Path.segments path)) := by
    intro path scope h
    simp only [Scope.inSite] at h
    split at h
    · rename_i normal hnormal
      cases h
      rw [(Path.normalize?_eq_some_iff.mp hnormal).2]
    · cases h
  -- scopes are known by the segments of their paths alone
  obtain rfl := hsegments hp
  obtain rfl := hsegments hq
  have habove : ∀ host sites chain,
      Chain.resolve host (.site id (Path.ofSegments (Path.segments q))) sites = .ok chain →
        ∃ above, Chain.resolve host (.site id (Path.ofSegments (Path.segments p))) sites =
          .ok above ∧ above <+: chain := fun _ _ _ h =>
    Chain.resolve_above (fun _ => Path.isSegment_of_mem) (fun _ => Path.isSegment_of_mem) hpq h
  refine ⟨habove, ?_⟩
  intro registry overlay s s' name definition chain hname hchain
  obtain ⟨above, s₁, hupper, hbegins⟩ := Access.materialize_above (habove Chain.hostFile) hchain
  obtain ⟨level, d, hlast⟩ := Access.getLast?_of_materialize hchain
  refine ⟨_, _, level, d, congrArg Prod.fst (Access.getSection_of_materialize hname hupper),
    congrArg Prod.fst (Access.getSection_of_materialize hname hchain), hlast, ?_, ?_⟩
  -- the chain above is a beginning, so what denies there denies here
  · intro hdeny
    have hdenies := (Access.effectiveMode_last_iff.1 hdeny).of_begins hbegins
    refine ⟨Access.effectiveMode_last_iff.2 hdenies, fun m hm => ?_⟩
    rw [Access.checkWrite_of_materialize hname hchain]
    exact Access.refused_of_against hlast (.inl ⟨hm, hdenies⟩)
  · intro m hm hdenies
    rw [Access.checkWrite_of_materialize hname hchain]
    exact Access.refused_of_against hlast (.inr ⟨hm, hdenies⟩)

def denyingDisk : Store :=
  let sites := "[[sections.sites.entries]]\nid = 1\nname = \"shop\"\nphysical_path = \"shop\"\n" ++
    "[[sections.sites.entries.applications]]\npath = \"/api\"\nphysical_path = \"shop/api\"\n"
  let mode := fun name : String => s!"[override_modes]\ndirectory_browse = '{name}'\n"
  ⟨["srv"], [(["srv"], .directory), (["srv", "host.toml"], .file (.text sites)),
    (["srv", "shop"], .directory), (["srv", "shop", "web.toml"], .file (.text (mode "deny"))),
    (["srv", "shop", "api"], .directory),
    (["srv", "shop", "api", "web.toml"], .file (.text (mode "allow")))].foldl
      (fun t entry => t.set entry.1 entry.2) FileTree.empty, []⟩

theorem deny_inherited_shop :
    let orders := Scope.site 1 "/api/orders"
    let mode := fun scope =>
      (Access.getSection .builtin none scope "directory_browse" denyingDisk).1.map (·.effective)
    let change := fun m =>
      (Access.checkWrite .builtin none orders "directory_browse" m denyingDisk).1
    mode (.site 1 "/") = .ok .deny ∧ mode orders = .ok .deny ∧
      change .revert = .error (.locked "shop/api/directory_browse" .denied) ∧
      change (.setMode .allow) = .error (.locked "shop/api/directory_browse" .deniedAbove) := by
  dsimp only
  have hshop : (Access.getSection .builtin none (.site 1 "/") "directory_browse" denyingDisk).1.map
      (·.effective) = .ok .deny := by decide +kernel
  have hloads : (Access.materialize none (.site 1 "/api/orders") denyingDisk).1.map (fun chain =>
      (chain.getLast?.map (·.1), chain.dropLast.any (·.2.mode "directory_browse" == .deny))) =
        .ok (some ⟨"shop/api", "shop/api/web.toml"⟩, true) := by decide +kernel
  obtain ⟨chain, hchain, hends⟩ := answer_of_map hloads
  obtain ⟨hlast, hdenies⟩ := Prod.ext_iff.mp hends
  obtain ⟨viewP, viewQ, level, d, hviewP, hviewQ, htarget, hbelow, hmode⟩ :=
    (deny_inherited 1 "/" "/api/orders" (.site 1 "/") (.site 1 "/api/orders") (by decide +kernel)
      (by decide +kernel) (by decide +kernel)).2 .builtin none denyingDisk _ "directory_browse" _
        chain rfl (eq_of_answer hchain)
  obtain rfl : level = ⟨"shop/api", "shop/api/web.toml"⟩ := by
    rw [htarget] at hlast
    exact Option.some.inj hlast
  rw [hviewP] at hshop
  obtain ⟨hdeny, hcontent⟩ := hbelow (Except.ok.inj hshop)
  refine ⟨hviewP ▸ hshop, ?_, ?_, ?_⟩
  · rw [hviewQ]
    exact congrArg Except.ok hdeny
  · rw [hcontent .revert rfl]
    rfl
  · rw [hmode (.setMode .allow) rfl]
    · rfl
    · simpa only [List.any_eq_true, beq_iff_eq] using hdenies

end LayeredConfig
