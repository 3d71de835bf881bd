import LayeredConfig.Toml.Reader
import LayeredConfig.Proofs.Tables

/-!
# What is read is in order

A reader gives integers of 64 bits and tables in key order, whatever the text. The invariant
goes along with the tables under construction and with the containers that are still open.
-/

set_option autoImplicit false

namespace LayeredConfig.Toml

open Table (keys Sorted)

mutual

def Sound : Toml → Prop
  | .integer n => Decimal.isInt64 n = true
  | .array items => SoundItems items
  | .table entries => Sorted entries ∧ SoundEntries entries
  | _ => True

def SoundItems : List Toml → Prop
  | [] => True
  | v :: vs => Sound v ∧ SoundItems vs

def SoundEntries : List (String × Toml) → Prop
  | [] => True
  | (_, v) :: rest => Sound v ∧ SoundEntries rest

end

theorem soundItems_iff (items : List Toml) : SoundItems items ↔ ∀ v ∈ items, v.Sound := by
  induction items with
  | nil => exact ⟨fun _ v hv => (List.not_mem_nil hv).elim, fun _ => trivial⟩
  | cons v vs ih => rw [SoundItems, ih, List.forall_mem_cons]

theorem soundEntries_iff (entries : List (String × Toml)) :
    SoundEntries entries ↔ ∀ e ∈ entries, e.2.Sound := by
  induction entries with
  | nil => exact ⟨fun _ e he => (List.not_mem_nil he).elim, fun _ => trivial⟩
  | cons e rest ih => rw [SoundEntries, ih, List.forall_mem_cons]

/-! ## Scalars -/

theorem sound_of_isInt64 (n : Int) (v : Toml)
    (h : (if Decimal.isInt64 n then some (Toml.integer n) else none) = some v) : v.Sound := by
  split at h
  · rename_i hn
    cases h
    exact hn
  · cases h

theorem integerIn?_sound (base : Nat) (text : List Char) (v : Toml)
    (h : integerIn? base text = some v) : v.Sound := by
  obtain ⟨digits, -, h⟩ := Option.bind_eq_some_iff.mp h
  exact sound_of_isInt64 _ v h

theorem integer?_sound (text : List Char) (v : Toml) (h : integer? text = some v) : v.Sound := by
  simp only [integer?] at h
  split at h
  · exact integerIn?_sound 16 _ v h
  · exact integerIn?_sound 8 _ v h
  · exact integerIn?_sound 2 _ v h
  · obtain ⟨digits, -, h⟩ := Option.bind_eq_some_iff.mp h
    exact sound_of_isInt64 _ v h

variable {d : Dialect}

theorem sound_of_isFloat (admitted : Bool) (x : Binary64) (v : Toml)
    (h : (if admitted then some (Toml.float x) else none) = some v) : v.Sound := by
  split at h
  · cases h
    exact trivial
  · cases h

theorem float?_sound (text : List Char) (v : Toml) (h : float? d text = some v) : v.Sound := by
  rw [float?] at h
  dsimp only at h
  split at h
  · cases h
    exact trivial
  · split at h
    · cases h
      exact trivial
    · split at h
      · cases h
      · obtain ⟨whole, -, h⟩ := Option.bind_eq_some_iff.mp h
        split at h
        · obtain ⟨places, -, h⟩ := Option.bind_eq_some_iff.mp h
          obtain ⟨power, -, h⟩ := Option.bind_eq_some_iff.mp h
          exact sound_of_isFloat _ _ v h
        · obtain ⟨places, -, h⟩ := Option.bind_eq_some_iff.mp h
          obtain ⟨power, -, h⟩ := Option.bind_eq_some_iff.mp h
          exact sound_of_isFloat _ _ v h

theorem scalar?_sound (text : List Char) (v : Toml) (h : scalar? d text = some v) : v.Sound := by
  simp only [scalar?] at h
  split at h
  · cases h
    exact trivial
  · split at h
    · cases h
      exact trivial
    · rcases Option.or_eq_some_iff.mp h with h | ⟨-, h⟩
      · obtain ⟨t, -, rfl⟩ := Option.map_eq_some_iff.mp h
        exact trivial
      · rcases Option.or_eq_some_iff.mp h with h | ⟨-, h⟩
        · exact float?_sound text v h
        · exact integer?_sound text v h

/-! ## Tables under construction -/

namespace Outline

mutual

def Sound : Outline → Prop
  | .value v => v.Sound
  | .table _ entries => SoundEntries entries
  | .series items => SoundItems items

def SoundEntries : Entries → Prop
  | [] => True
  | (_, node) :: rest => Sound node ∧ SoundEntries rest

def SoundItems : List Entries → Prop
  | [] => True
  | entries :: rest => SoundEntries entries ∧ SoundItems rest

end

variable {entries : Entries} {key : String} {node : Outline}

theorem put_sound (h : SoundEntries entries) (hnode : node.Sound) :
    SoundEntries (put entries key node) := by
  induction entries with
  | nil => exact ⟨hnode, trivial⟩
  | cons e rest ih =>
    simp only [put]
    split
    · exact ⟨hnode, h.2⟩
    · exact ⟨h.1, ih h.2⟩

theorem get?_sound (h : SoundEntries entries) (hget : Table.get? entries key = some node) :
    node.Sound := by
  induction entries with
  | nil => cases hget
  | cons e rest ih =>
    simp only [Table.get?] at hget
    split at hget
    · cases hget
      exact h.1
    · exact ih h.2 hget

theorem erase_sound (h : SoundEntries entries) : SoundEntries (Table.erase entries key) := by
  induction entries with
  | nil => exact trivial
  | cons e rest ih =>
    simp only [Table.erase]
    split
    · exact ih h.2
    · exact ⟨h.1, ih h.2⟩

theorem append_sound (h : SoundEntries entries) (hnode : node.Sound) :
    SoundEntries (entries ++ [(key, node)]) := by
  induction entries with
  | nil => exact ⟨hnode, trivial⟩
  | cons e rest ih => exact ⟨h.1, ih h.2⟩

def Keeps (f : Entries → Option Entries) : Prop :=
  ∀ entries after, SoundEntries entries → f entries = some after → SoundEntries after

variable {f : Entries → Option Entries}

theorem updateLast_sound (hf : Keeps f) (items after : List Entries) (h : SoundItems items)
    (hlast : updateLast f items = some after) : SoundItems after := by
  induction items generalizing after with
  | nil => cases hlast
  | cons item items ih =>
    cases items with
    | nil =>
      obtain ⟨last, hitem, rfl⟩ := Option.map_eq_some_iff.mp hlast
      exact ⟨hf item last h.1 hitem, trivial⟩
    | cons next items =>
      obtain ⟨others, hothers, rfl⟩ := Option.map_eq_some_iff.mp hlast
      exact ⟨h.1, ih others h.2 hothers⟩

theorem update_sound (hf : Keeps f) (path : List String) : Keeps (update f path) := by
  induction path with
  | nil => exact hf
  | cons key path ih =>
    intro entries after h hupdate
    rw [update] at hupdate
    split at hupdate
    · obtain ⟨inner, hinner, rfl⟩ := Option.map_eq_some_iff.mp hupdate
      exact put_sound h (ih [] inner trivial hinner)
    · cases hupdate
    · rename_i origin inner hget
      obtain ⟨inner', hinner, rfl⟩ := Option.map_eq_some_iff.mp hupdate
      exact put_sound h (ih inner inner' (get?_sound h hget) hinner)
    · rename_i items hget
      obtain ⟨items', hitems, rfl⟩ := Option.map_eq_some_iff.mp hupdate
      exact put_sound h (updateLast_sound ih items items' (get?_sound h hget) hitems)

theorem openTable_sound (key : String) : Keeps (openTable key) := by
  intro entries after h hopen
  simp only [openTable] at hopen
  split at hopen
  · cases hopen
    exact put_sound h trivial
  · rename_i inner hget
    cases hopen
    have hinner : (Outline.table .parent inner).Sound := get?_sound h hget
    exact append_sound (erase_sound h) hinner
  · cases hopen

theorem items_append_sound (items : List Entries) (h : SoundItems items) :
    SoundItems (items ++ [[]]) := by
  induction items with
  | nil => exact ⟨trivial, trivial⟩
  | cons item items ih => exact ⟨h.1, ih h.2⟩

theorem openElement_sound (key : String) : Keeps (openElement key) := by
  intro entries after h hopen
  simp only [openElement] at hopen
  split at hopen
  · cases hopen
    exact put_sound h ⟨trivial, trivial⟩
  · rename_i items hget
    cases hopen
    exact put_sound h (items_append_sound items (get?_sound h hget))
  · cases hopen

theorem define_sound (v : Toml) (hv : v.Sound) (path : List String) :
    Keeps (define d v path) := by
  induction path with
  | nil =>
    intro entries after _ hdefine
    cases hdefine
  | cons key path ih =>
    intro entries after h hdefine
    cases path with
    | nil =>
      rw [define] at hdefine
      split at hdefine
      · cases hdefine
        exact put_sound h hv
      · cases hdefine
    | cons next path =>
      rw [define] at hdefine
      · split at hdefine
        · obtain ⟨inner, hinner, rfl⟩ := Option.map_eq_some_iff.mp hdefine
          exact put_sound h (ih [] inner trivial hinner)
        · rename_i inner hget
          obtain ⟨inner', hinner, rfl⟩ := Option.map_eq_some_iff.mp hdefine
          exact put_sound h (ih inner inner' (get?_sound h hget) hinner)
        · rename_i inner hget
          split at hdefine
          · cases hdefine
          · obtain ⟨inner', hinner, rfl⟩ := Option.map_eq_some_iff.mp hdefine
            exact put_sound h (ih inner inner' (get?_sound h hget) hinner)
        · rename_i items hget
          split at hdefine
          · cases hdefine
          · obtain ⟨items', hitems, rfl⟩ := Option.map_eq_some_iff.mp hdefine
            exact put_sound h (updateLast_sound ih items items' (get?_sound h hget) hitems)
        · cases hdefine
      · exact fun heq => by cases heq

theorem tableValue?_sound (es : List (String × Toml)) (v : Toml) (h : Toml.SoundEntries es)
    (hvalue : tableValue? d es = some v) : v.Sound := by
  have htable : (Toml.table (Table.ofList es)).Sound := by
    refine ⟨Table.sorted_ofList es, ?_⟩
    rw [soundEntries_iff] at h ⊢
    exact fun e he => h e (Table.mem_of_mem_ofList es e he)
  simp only [tableValue?] at hvalue
  split at hvalue
  · split at hvalue
    · split at hvalue
      · obtain ⟨t, -, rfl⟩ := Option.map_eq_some_iff.mp hvalue
        exact trivial
      · cases hvalue
    · cases hvalue
      exact htable
  · cases hvalue
    exact htable

mutual

theorem toToml?_sound : ∀ (node : Outline) (v : Toml),
    node.Sound → toToml? d node = some v → v.Sound
  | .value v, w, h, hv => by
    cases hv
    exact h
  | .table _ entries, w, h, hw => by
    obtain ⟨es, hes, hw⟩ := Option.bind_eq_some_iff.mp hw
    exact tableValue?_sound es w (entriesToToml?_sound entries es h hes) hw
  | .series items, w, h, hw => by
    obtain ⟨vs, hvs, hw⟩ := Option.bind_eq_some_iff.mp hw
    cases hw
    exact itemsToToml?_sound items vs h hvs

theorem entriesToToml?_sound : ∀ (entries : Entries) (es : List (String × Toml)),
    SoundEntries entries → entriesToToml? d entries = some es → Toml.SoundEntries es
  | [], es, _, hes => by
    cases hes
    exact trivial
  | (key, node) :: rest, es, h, hes => by
    obtain ⟨v, hv, hes⟩ := Option.bind_eq_some_iff.mp hes
    obtain ⟨others, hothers, hes⟩ := Option.bind_eq_some_iff.mp hes
    cases hes
    exact ⟨toToml?_sound node v h.1 hv, entriesToToml?_sound rest others h.2 hothers⟩

theorem itemsToToml?_sound : ∀ (items : List Entries) (vs : List Toml), SoundItems items →
    itemsToToml? d items = some vs → Toml.SoundItems vs
  | [], vs, _, hvs => by
    cases hvs
    exact trivial
  | entries :: rest, vs, h, hvs => by
    obtain ⟨es, hes, hvs⟩ := Option.bind_eq_some_iff.mp hvs
    obtain ⟨v, hv, hvs⟩ := Option.bind_eq_some_iff.mp hvs
    obtain ⟨others, hothers, hvs⟩ := Option.bind_eq_some_iff.mp hvs
    cases hvs
    exact ⟨tableValue?_sound es v (entriesToToml?_sound entries es h.1 hes) hv,
      itemsToToml?_sound rest others h.2 hothers⟩

end

end Outline

theorem Outline.inlineTable?_sound (pairs : List (List String × Toml)) (v : Toml)
    (h : ∀ p ∈ pairs, p.2.Sound) (hv : inlineTable? d pairs = some v) : v.Sound := by
  obtain ⟨entries, hentries, hv⟩ := Option.bind_eq_some_iff.mp hv
  have hfold : ∀ (pairs : List (List String × Toml)) (before after : Entries),
      (∀ p ∈ pairs, p.2.Sound) → SoundEntries before →
        pairs.foldlM (fun entries p => define d p.2 p.1 entries) before = some after →
          SoundEntries after := by
    intro pairs
    induction pairs with
    | nil =>
      intro before after _ hbefore hfold
      cases hfold
      exact hbefore
    | cons p pairs ih =>
      intro before after hpairs hbefore hfold
      rw [List.foldlM_cons] at hfold
      obtain ⟨middle, hmiddle, hfold⟩ := Option.bind_eq_some_iff.mp hfold
      have hp : p.2.Sound := hpairs p List.mem_cons_self
      exact ih middle after (fun q hq => hpairs q (List.mem_cons_of_mem _ hq))
        (define_sound p.2 hp p.1 before middle hbefore hmiddle) hfold
  exact toToml?_sound (.table .header entries) v (hfold pairs [] entries h trivial hentries) hv

/-! ## The machine of the statements -/

def Statement.Sound : Statement → Prop
  | .entry _ v => v.Sound
  | _ => True

def SoundPairs (pairs : List (List String × Toml)) : Prop := ∀ p ∈ pairs, p.2.Sound

def Frame.Sound : Frame → Prop
  | .array items => SoundItems items
  | .table pairs _ => SoundPairs pairs

def SoundFrames (frames : List Frame) : Prop := ∀ frame ∈ frames, frame.Sound

def KeyUse.Sound : KeyUse → Prop
  | .inline pairs _ frames => SoundPairs pairs ∧ SoundFrames frames
  | _ => True

def Place.Sound : Place → Prop
  | .keyPart use _ => use.Sound
  | .keyEnd use _ => use.Sound
  | .keyGap use _ => use.Sound
  | .value _ frames => SoundFrames frames
  | .scalar _ frames _ => SoundFrames frames
  | .dateGap _ frames _ => SoundFrames frames
  | .itemEnd _ items frames => SoundItems items ∧ SoundFrames frames
  | .pairStart _ pairs frames => SoundPairs pairs ∧ SoundFrames frames
  | .pairEnd _ pairs frames => SoundPairs pairs ∧ SoundFrames frames
  | _ => True

def Move.Sound (m : Move) : Prop := m.1.Sound ∧ ∀ s ∈ m.2, s.Sound

theorem move_sound (place : Place) (next : Move) (hmove : move place = some next)
    (h : place.Sound) : next.Sound := by
  cases hmove
  exact ⟨h, fun s hs => by cases hs⟩

theorem soundFrames_cons (frame : Frame) (frames : List Frame) :
    SoundFrames (frame :: frames) ↔ frame.Sound ∧ SoundFrames frames := List.forall_mem_cons

theorem soundPairs_cons (p : List String × Toml) (pairs : List (List String × Toml)) :
    SoundPairs (p :: pairs) ↔ p.2.Sound ∧ SoundPairs pairs := List.forall_mem_cons

theorem SoundPairs.reverse {pairs : List (List String × Toml)} (h : SoundPairs pairs) :
    SoundPairs pairs.reverse := fun p hp => h p (List.mem_reverse.mp hp)

theorem soundItems_reverse (items : List Toml) (h : SoundItems items) :
    SoundItems items.reverse := by
  rw [soundItems_iff] at h ⊢
  exact fun v hv => h v (List.mem_reverse.mp hv)

theorem accept_sound (root : List String) (v : Toml) (frames : List Frame) (hv : v.Sound)
    (h : SoundFrames frames) : (accept root v frames).Sound := by
  cases frames with
  | nil =>
    refine ⟨trivial, fun s hs => ?_⟩
    rw [List.mem_singleton.mp hs]
    exact hv
  | cons frame frames =>
    obtain ⟨hframe, hframes⟩ := (soundFrames_cons frame frames).1 h
    cases frame with
    | array items => exact ⟨⟨⟨hv, hframe⟩, hframes⟩, fun s hs => by cases hs⟩
    | table pairs key =>
      exact ⟨⟨(soundPairs_cons _ _).2 ⟨hv, hframe⟩, hframes⟩, fun s hs => by cases hs⟩

theorem keyStep_sound (use : KeyUse) (parts : List String) (token : Token) (next : Move)
    (hstep : keyStep d use parts token = some next) (h : use.Sound) : next.Sound := by
  have hpart : ∀ text, addPart d use parts text = some next → next.Sound := by
    intro text hadd
    simp only [addPart] at hadd
    split at hadd
    · exact move_sound _ next hadd h
    · cases hadd
  simp only [keyStep] at hstep
  split at hstep
  · split at hstep
    · exact hpart _ hstep
    · cases hstep
  · exact hpart _ hstep
  · exact move_sound _ next hstep h
  · cases hstep

theorem keyUseStep_sound (use : KeyUse) (parts : List String) (token : Token) (next : Move)
    (h : use.Sound) (hstep : keyUseStep use parts token = some next) : next.Sound := by
  simp only [keyUseStep] at hstep
  split at hstep
  · exact move_sound _ next hstep (fun f hf => by cases hf)
  · cases hstep
    refine ⟨trivial, fun s hs => ?_⟩
    rw [List.mem_singleton.mp hs]
    exact trivial
  · exact move_sound _ next hstep trivial
  · exact move_sound _ next hstep ((soundFrames_cons _ _).2 ⟨h.1, h.2⟩)
  · cases hstep

theorem keyEndStep_sound (use : KeyUse) (parts : List String) (token : Token) (next : Move)
    (h : use.Sound) (hstep : keyEndStep d use parts token = some next) : next.Sound := by
  simp only [keyEndStep] at hstep
  split at hstep
  · exact move_sound _ next hstep h
  · exact move_sound _ next hstep h
  · split at hstep
    · split at hstep
      · exact move_sound _ next hstep h
      · cases hstep
    · cases hstep
  · exact keyUseStep_sound use parts _ next h hstep

theorem keyGapStep_sound (use : KeyUse) (parts : List String) (token : Token) (next : Move)
    (h : use.Sound) (hstep : keyGapStep use parts token = some next) : next.Sound := by
  simp only [keyGapStep] at hstep
  split at hstep
  · exact move_sound _ next hstep h
  · exact move_sound _ next hstep h
  · exact keyUseStep_sound use parts _ next h hstep

theorem valueStep_sound (root : List String) (frames : List Frame) (token : Token) (next : Move)
    (h : SoundFrames frames) (hstep : valueStep d root frames token = some next) : next.Sound := by
  simp only [valueStep] at hstep
  split at hstep
  · exact move_sound _ next hstep h
  · exact move_sound _ next hstep h
  · cases hstep
    exact accept_sound root _ frames trivial h
  · cases hstep
    exact accept_sound root _ frames trivial h
  · split at hstep
    · exact move_sound _ next hstep ((soundFrames_cons _ _).2 ⟨trivial, h⟩)
    · cases hstep
  · split at hstep
    · exact move_sound _ next hstep ⟨fun p hp => (List.not_mem_nil hp).elim, h⟩
    · cases hstep
  · split at hstep
    · exact move_sound _ next hstep h
    · obtain ⟨hitems, houter⟩ := (soundFrames_cons _ _).1 h
      cases hstep
      exact accept_sound root _ _ (soundItems_reverse _ hitems) houter
    · split at hstep
      · exact move_sound _ next hstep h
      · cases hstep
    · cases hstep

theorem inlineTable?_accept_sound (root : List String) (pairs : List (List String × Toml))
    (frames : List Frame) (next : Move) (hpairs : SoundPairs pairs) (h : SoundFrames frames)
    (haccept : ((Outline.inlineTable? d pairs.reverse).bind fun v => some (accept root v frames)) =
      some next) : next.Sound := by
  obtain ⟨v, hv, haccept⟩ := Option.bind_eq_some_iff.mp haccept
  cases haccept
  exact accept_sound root v frames (Outline.inlineTable?_sound _ v hpairs.reverse hv) h

theorem pairStep_sound (root : List String) (pairs : List (List String × Toml))
    (frames : List Frame) (token : Token) (next : Move) (hpairs : SoundPairs pairs)
    (h : SoundFrames frames) (hstep : pairStep d root pairs frames token = some next) :
    next.Sound := by
  simp only [pairStep] at hstep
  split at hstep
  · exact move_sound _ next hstep ⟨hpairs, h⟩
  · split at hstep
    · exact move_sound _ next hstep ⟨hpairs, h⟩
    · cases hstep
  · split at hstep
    · exact inlineTable?_accept_sound root pairs frames next hpairs h hstep
    · cases hstep
  · exact keyStep_sound _ _ _ next hstep ⟨hpairs, h⟩

theorem endStep_sound (place : Place) (token : Token) (next : Move) (h : place.Sound)
    (hstep : endStep d place token = some next) : next.Sound := by
  simp only [endStep] at hstep
  split at hstep
  · exact move_sound _ next hstep h
  · exact move_sound _ next hstep trivial
  · exact move_sound _ next hstep h
  · exact move_sound _ next hstep ((soundFrames_cons _ _).2 h)
  · cases hstep
    exact accept_sound _ _ _ (soundItems_reverse _ h.1) h.2
  · split at hstep
    · exact move_sound _ next hstep h
    · cases hstep
  · exact move_sound _ next hstep h
  · exact inlineTable?_accept_sound _ _ _ next h.1 h.2 hstep
  · cases hstep

theorem scalarEnd_sound (root : List String) (frames : List Frame) (text : List Char)
    (token : Token) (next : Move) (h : SoundFrames frames)
    (hstep : scalarEnd d root frames text token = some next) : next.Sound := by
  obtain ⟨v, hv, hstep⟩ := Option.bind_eq_some_iff.mp hstep
  obtain ⟨hplace, hout⟩ := accept_sound root v frames (scalar?_sound text v hv) h
  obtain ⟨after, hafter, hstep⟩ := Option.bind_eq_some_iff.mp hstep
  obtain ⟨hnext, hmore⟩ := endStep_sound _ token after hplace hafter
  cases hstep
  refine ⟨hnext, fun s hs => ?_⟩
  rcases List.mem_append.mp hs with hs | hs
  · exact hout s hs
  · exact hmore s hs

/-- One token keeps what a place holds in order, and so is a statement that it puts out. -/
theorem placeStep_sound (place : Place) (token : Token) (next : Move) (h : place.Sound)
    (hstep : placeStep d place token = some next) : next.Sound := by
  simp only [placeStep] at hstep
  split at hstep
  · split at hstep
    · exact move_sound _ next hstep trivial
    · exact move_sound _ next hstep trivial
    · exact move_sound _ next hstep trivial
    · exact keyStep_sound _ _ _ next hstep trivial
  · split at hstep
    · exact move_sound _ next hstep trivial
    · exact keyStep_sound _ _ _ next hstep trivial
  · exact keyStep_sound _ _ _ next hstep h
  · exact keyEndStep_sound _ _ _ next h hstep
  · exact keyGapStep_sound _ _ _ next h hstep
  · split at hstep
    · cases hstep
      refine ⟨trivial, fun s hs => ?_⟩
      rw [List.mem_singleton.mp hs]
      exact trivial
    · cases hstep
  · exact valueStep_sound _ _ _ next h hstep
  · split at hstep
    · exact move_sound _ next hstep h
    · exact move_sound _ next hstep h
    · split at hstep
      · exact move_sound _ next hstep h
      · exact scalarEnd_sound _ _ _ _ next h hstep
    · exact scalarEnd_sound _ _ _ _ next h hstep
  · split at hstep
    · exact move_sound _ next hstep h
    · exact scalarEnd_sound _ _ _ _ next h hstep
  · exact endStep_sound _ _ next h hstep
  · exact pairStep_sound _ _ _ _ next h.1 h.2 hstep
  · exact endStep_sound _ _ next h hstep
  · exact endStep_sound _ _ next h hstep

theorem placeRun_sound (ts : List Token) (place : Place) (next : Move) (h : place.Sound)
    (hrun : placeRun d place ts = some next) : next.Sound := by
  induction ts generalizing place next with
  | nil =>
    cases hrun
    exact ⟨h, fun s hs => by cases hs⟩
  | cons token ts ih =>
    obtain ⟨middle, hmiddle, hrun⟩ := Option.bind_eq_some_iff.mp hrun
    obtain ⟨hplace, hout⟩ := placeStep_sound place token middle h hmiddle
    obtain ⟨after, hafter, hrun⟩ := Option.bind_eq_some_iff.mp hrun
    obtain ⟨hnext, hmore⟩ := ih middle.1 after hplace hafter
    cases hrun
    refine ⟨hnext, fun s hs => ?_⟩
    rcases List.mem_append.mp hs with hs | hs
    · exact hout s hs
    · exact hmore s hs

theorem statements?_sound (ts : List Token) (out : List Statement)
    (h : statements? d ts = some out) : ∀ s ∈ out, s.Sound := by
  obtain ⟨⟨place, more⟩, hnext, h⟩ := Option.bind_eq_some_iff.mp h
  obtain ⟨-, hout⟩ := placeRun_sound _ .lineStart (place, more) trivial hnext
  dsimp only at h
  split at h
  · cases h
    exact hout
  · cases h

/-! ## Documents -/

open Outline (openTable_sound openElement_sound define_sound update_sound)

theorem Draft.add_sound (draft after : Draft) (s : Statement) (hs : s.Sound)
    (h : Outline.SoundEntries draft.root) (hadd : draft.add d s = some after) :
    Outline.SoundEntries after.root := by
  cases s with
  | header path =>
    obtain ⟨key, -, hadd⟩ := Option.bind_eq_some_iff.mp hadd
    obtain ⟨root, hroot, hadd⟩ := Option.bind_eq_some_iff.mp hadd
    cases hadd
    exact update_sound (openTable_sound key.2) key.1 draft.root root h hroot
  | element path =>
    obtain ⟨key, -, hadd⟩ := Option.bind_eq_some_iff.mp hadd
    obtain ⟨root, hroot, hadd⟩ := Option.bind_eq_some_iff.mp hadd
    cases hadd
    exact update_sound (openElement_sound key.2) key.1 draft.root root h hroot
  | entry path v =>
    obtain ⟨root, hroot, hadd⟩ := Option.bind_eq_some_iff.mp hadd
    cases hadd
    exact update_sound (define_sound v hs path) draft.path draft.root root h hroot

theorem Draft.foldlM_add_sound (statements : List Statement) (draft after : Draft)
    (hs : ∀ s ∈ statements, s.Sound) (h : Outline.SoundEntries draft.root)
    (hadd : statements.foldlM (Draft.add d) draft = some after) :
    Outline.SoundEntries after.root := by
  induction statements generalizing draft with
  | nil =>
    cases hadd
    exact h
  | cons s statements ih =>
    rw [List.foldlM_cons] at hadd
    obtain ⟨middle, hmiddle, hadd⟩ := Option.bind_eq_some_iff.mp hadd
    have hroot := Draft.add_sound draft middle s (hs s List.mem_cons_self) h hmiddle
    exact ih middle (fun s hs' => hs s (List.mem_cons_of_mem _ hs')) hroot hadd

/-- What is read of a text is in order, whatever the text. -/
theorem parse?_sound (text : String) (root : List (String × Toml)) (h : parse? d text = some root) :
    Sorted root ∧ SoundEntries root := by
  obtain ⟨ts, -, h⟩ := Option.bind_eq_some_iff.mp h
  obtain ⟨statements, hstatements, h⟩ := Option.bind_eq_some_iff.mp h
  obtain ⟨draft, hdraft, h⟩ := Option.bind_eq_some_iff.mp h
  obtain ⟨entries, hentries, h⟩ := Option.bind_eq_some_iff.mp h
  cases h
  have hroot := Draft.foldlM_add_sound statements ⟨[], []⟩ draft
    (statements?_sound ts statements hstatements) trivial hdraft
  have hes := Outline.entriesToToml?_sound draft.root entries hroot hentries
  refine ⟨Table.sorted_ofList entries, ?_⟩
  rw [soundEntries_iff] at hes ⊢
  exact fun e he => hes e (Table.mem_of_mem_ofList entries e he)

end LayeredConfig.Toml
