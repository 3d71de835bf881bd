import LayeredConfig.Proofs.Document.Changes
import LayeredConfig.Proofs.Document.RoundTrip

/-!
# Files rewritten change by change

A file that several changes are for is read, changed and written once for each of them. That
leaves what the changes in memory would have left, just when every section that is read again
after its last change is undated.
-/

set_option autoImplicit false

namespace LayeredConfig

open Table (keys Sorted Alike)

def LevelDocument.ofFile : Option String → Except DocumentFault LevelDocument
  | none => .ok .empty
  | some text => parse text

theorem LevelDocument.storable_of_file (before : Option String) (d : LevelDocument)
    (h : ofFile before = .ok d) : d.Storable := by
  cases before with
  | none =>
    cases h
    exact storable_empty
  | some text => exact storable_of_parse text d h

namespace Staged

def rewrite (s : Staged) (before : Option String) : Except DocumentFault String := do
  (s.mutation.apply s.name (← LevelDocument.ofFile before)).render

def rewriteAll : List Staged → Option String → Except DocumentFault (Option String)
  | [], before => .ok before
  | s :: rest, before => do rewriteAll rest (some (← s.rewrite before))

def overlayAll (entries : List Staged) (d : LevelDocument) : LevelDocument :=
  entries.foldl (fun d s => s.mutation.apply s.name d) d

def isFresh (entries : List Staged) (name : String) : Bool :=
  entries.length ≤ 1 ||
    entries.getLast?.any fun s => s.mutation.content.isSome && s.name == name

def isSafe (entries : List Staged) (d : LevelDocument) : Bool :=
  (overlayAll entries d).sections.all fun (name, v) => isFresh entries name || v.isUndated

theorem overlayAll_concat (entries : List Staged) (s : Staged) (d : LevelDocument) :
    overlayAll (entries ++ [s]) d = s.mutation.apply s.name (overlayAll entries d) :=
  List.foldl_concat _ _ _ _

theorem rewriteAll_concat (entries : List Staged) (s : Staged) (before : Option String) :
    rewriteAll (entries ++ [s]) before =
      (rewriteAll entries before).bind fun text => (s.rewrite text).map some := by
  induction entries generalizing before with
  | nil =>
    change (s.rewrite before).bind _ = (s.rewrite before).map some
    rcases s.rewrite before with fault | text
    · rfl
    · rfl
  | cons e entries ih =>
    change (e.rewrite before).bind _ = ((e.rewrite before).bind _).bind _
    rcases e.rewrite before with fault | text
    · rfl
    · exact ih (some text)

theorem rewriteAll_concat_eq_ok (entries : List Staged) (s : Staged) (before after : Option String)
    (h : rewriteAll (entries ++ [s]) before = .ok after) :
    ∃ text final, rewriteAll entries before = .ok text ∧ s.rewrite text = .ok final ∧
      after = some final := by
  rw [rewriteAll_concat] at h
  rcases htext : rewriteAll entries before with fault | text
  · rw [htext] at h
    cases h
  · rw [htext] at h
    change (s.rewrite text).map some = _ at h
    rcases hfinal : s.rewrite text with fault | final
    · rw [hfinal] at h
      cases h
    · rw [hfinal] at h
      cases h
      exact ⟨text, final, rfl, hfinal, rfl⟩

theorem rewrite_eq_ok (s : Staged) (before : Option String) (final : String)
    (h : s.rewrite before = .ok final) :
    ∃ d, LevelDocument.ofFile before = .ok d ∧ (s.mutation.apply s.name d).render = .ok final := by
  simp only [rewrite] at h
  rcases hd : LevelDocument.ofFile before with fault | d
  · rw [hd] at h
    cases h
  · rw [hd] at h
    exact ⟨d, rfl, h⟩

theorem rewriteAll_eq_ok (entries : List Staged) (hne : entries ≠ [])
    (before after : Option String) (h : rewriteAll entries before = .ok after) :
    ∃ former final, LevelDocument.ofFile before = .ok former ∧ after = some final := by
  have hafter : ∃ final, after = some final := by
    obtain ⟨init, last, rfl⟩ := (List.eq_nil_or_concat' entries).resolve_left hne
    obtain ⟨-, final, -, -, heq⟩ := rewriteAll_concat_eq_ok init last before after h
    exact ⟨final, heq⟩
  obtain ⟨final, rfl⟩ := hafter
  cases entries with
  | nil => exact absurd rfl hne
  | cons s entries =>
    rcases hs : s.rewrite before with fault | text
    · rw [rewriteAll, hs] at h
      cases h
    · obtain ⟨former, hformer, -⟩ := rewrite_eq_ok s before text hs
      exact ⟨former, final, hformer, rfl⟩

theorem isFresh_concat (entries : List Staged) (hne : entries ≠ []) (s : Staged) (name : String) :
    isFresh (entries ++ [s]) name = (s.mutation.content.isSome && s.name == name) := by
  have hlength := List.length_pos_iff.mpr hne
  simp only [isFresh]
  rw [List.getLast?_concat, List.length_append, List.length_singleton,
    decide_eq_false (by omega), Bool.false_or]
  rfl

theorem overlayAll_storable (entries : List Staged) (d : LevelDocument)
    (hentries : ∀ s ∈ entries, s.mutation.Storable) (hd : d.Storable) :
    (overlayAll entries d).Storable := by
  induction entries generalizing d with
  | nil => exact hd
  | cons s entries ih =>
    exact ih _ (fun s hs => hentries s (List.mem_cons_of_mem _ hs))
      ((hentries s List.mem_cons_self).apply hd)

end Staged

namespace Value

variable {v w r : Value}

@[simp] theorem isUndated_settled (v : Value) : v.settled.isUndated = v.isUndated := by
  simp only [isUndated]
  rw [Toml.ofValue?_settled]

theorem Fades.trans (h : v.Fades w) (h' : w.Fades r) : v.Fades r := by
  simp only [Fades] at h h' ⊢
  generalize hv : v.isUndated = same at h
  cases same with
  | true =>
    obtain rfl : w = v.settled := h
    rw [isUndated_settled, hv] at h'
    have heq : r = v.settled.settled := h'
    rw [heq, settled_settled]
    exact Toml.settles_self objectCount _
  | false =>
    have hlt : w.objectCount < v.settled.objectCount := h
    change r.objectCount < _
    generalize w.isUndated = same at h'
    cases same with
    | true =>
      have heq : r = w.settled := h'
      rw [heq, objectCount_settled]
      exact hlt
    | false =>
      have hlt' : r.objectCount < w.settled.objectCount := h'
      rw [objectCount_settled] at hlt'
      omega

/-- What has faded is still the same just when it is undated. -/
theorem Fades.settled_eq_iff (h : v.Fades w) : w.settled = v.settled ↔ v.isUndated = true := by
  simp only [Fades] at h
  generalize v.isUndated = same at h
  cases same with
  | true =>
    have heq : w = v.settled := h
    rw [heq, settled_settled]
    exact ⟨fun _ => rfl, fun _ => rfl⟩
  | false =>
    have hlt : w.objectCount < v.settled.objectCount := h
    constructor
    · intro heq
      rw [← heq, objectCount_settled] at hlt
      exact absurd hlt (Nat.lt_irrefl _)
    · exact fun hfalse => by cases hfalse

end Value

namespace LevelDocument

structure KeptFrom (name : String) (d d' : LevelDocument) : Prop where
  mode : d'.mode name = d.mode name
  content : Option.Rel (fun v w => w = v ∨ v.Fades w) (d.section? name) (d'.section? name)

namespace KeptFrom

variable {name : String} {d d' back : LevelDocument}

theorem refl (name : String) (d : LevelDocument) : KeptFrom name d d where
  mode := rfl
  content := by
    rcases d.section? name with _ | v
    · exact Option.Rel.none
    · exact Option.Rel.some (.inl rfl)

theorem reread (h : KeptFrom name d d') (hd : d'.WellFormed) {text : String}
    (hr : d'.render = .ok text) (hp : parse text = .ok back) :
    back.mode name = d.mode name ∧
      Option.Rel (fun v w => v.Fades w) (d.section? name) (back.section? name) := by
  obtain ⟨hmodes, hfades⟩ := parse_fades d' back text hd hr hp
  constructor
  · rw [← h.mode]
    simp only [LevelDocument.mode]
    rw [hmodes]
  · have hcontent := h.content
    have hback : Option.Rel (fun v w => v.Fades w) (d'.section? name) (back.section? name) :=
      hfades.rel_get? name
    revert hcontent hback
    generalize d.section? name = stored
    generalize d'.section? name = written
    generalize back.section? name = found
    rintro (⟨rfl | hvw⟩ | _) (⟨hwr⟩ | _)
    · exact Option.Rel.some hwr
    · exact Option.Rel.some (hvw.trans hwr)
    · exact Option.Rel.none

theorem changed (h : KeptFrom name d d') (m : Mutation) {other : String} (hother : other ≠ name) :
    KeptFrom name d (m.apply other d') where
  mode := by
    rw [m.mode_apply_of_ne hother]
    exact h.mode
  content := by
    rw [m.section?_apply_of_ne hother]
    exact h.content

end KeptFrom

theorem settledSections_eq_iff {P : String → Value → Value → Prop} (t u : Table Value)
    (h : Alike P t u) :
    settledSections u = settledSections t ↔
      Alike (fun k v w => P k v w ∧ w.settled = v.settled) t u := by
  induction h with
  | nil => exact ⟨fun _ => List.Forall₂.nil, fun _ => rfl⟩
  | @cons a b t u hab htail ih =>
    obtain ⟨k, v⟩ := a
    obtain ⟨k', w⟩ := b
    obtain ⟨rfl, hvw⟩ := hab
    change (k, w.settled) :: settledSections u = (k, v.settled) :: settledSections t ↔ _
    rw [List.cons_eq_cons, ih]
    constructor
    · rintro ⟨heq, hrest⟩
      exact List.Forall₂.cons ⟨rfl, hvw, (Prod.mk.inj heq).2⟩ hrest
    · intro hall
      cases hall with
      | cons hhead hrest => exact ⟨Prod.ext rfl hhead.2.2, hrest⟩

end LevelDocument

namespace Staged

def Kept (entries : List Staged) (name : String) (v w : Value) : Prop :=
  if isFresh entries name then w = v else v.Fades w

theorem Kept.of_fresh {entries : List Staged} {name : String} {v w : Value}
    (h : Kept entries name v w) (hfresh : isFresh entries name = true) : w = v := by
  simp only [Kept] at h
  rwa [if_pos hfresh] at h

/-- Reading a section again lets it fade. -/
theorem Kept.reread {entries : List Staged} {name : String} {v w r : Value}
    (h : Kept entries name v w) (h' : w.Fades r) : v.Fades r := by
  simp only [Kept] at h
  split at h
  · rw [← h]
    exact h'
  · exact h.trans h'

/-- What is in the file renders a document that has the modes of the changes in memory and
sections that are kept as far as they are not read again. -/
theorem rewriteAll_kept (entries : List Staged) (hne : entries ≠ []) (before : Option String)
    (former : LevelDocument) (final : String) (hformer : LevelDocument.ofFile before = .ok former)
    (hentries : ∀ s ∈ entries, s.mutation.Storable)
    (h : rewriteAll entries before = .ok (some final)) :
    ∃ d : LevelDocument, d.render = .ok final ∧ d.Storable ∧
      d.modes = (overlayAll entries former).modes ∧
      Alike (Kept entries) (overlayAll entries former).sections d.sections := by
  induction entries using List.reverseRecOn generalizing final with
  | nil => exact absurd rfl hne
  | append_singleton entries s ih =>
    obtain ⟨text, final', hall, hrewrite, heq⟩ := rewriteAll_concat_eq_ok entries s before _ h
    cases heq
    obtain ⟨d, hd, hrender⟩ := rewrite_eq_ok s text final hrewrite
    have hs : s.mutation.Storable :=
      hentries s (List.mem_append_right _ (List.mem_singleton.mpr rfl))
    have hfirst : ∀ s ∈ entries, s.mutation.Storable :=
      fun s hs => hentries s (List.mem_append_left _ hs)
    have hstorable := LevelDocument.storable_of_file text d hd
    refine ⟨s.mutation.apply s.name d, hrender, hs.apply hstorable, ?_⟩
    rw [overlayAll_concat]
    by_cases hempty : entries = []
    · subst hempty
      cases hall
      obtain rfl := Except.ok.inj (hd.symm.trans hformer)
      exact ⟨rfl, Alike.refl _ fun e _ => rfl⟩
    · -- the file was written before, and is read again now
      obtain ⟨init, last, rfl⟩ := (List.eq_nil_or_concat' entries).resolve_left hempty
      obtain ⟨text', written, -, -, rfl⟩ := rewriteAll_concat_eq_ok _ _ _ _ hall
      obtain ⟨d', hrender', hstorable', hmodes, halike⟩ := ih hempty written hfirst hall
      obtain ⟨hmodes', hfades⟩ := LevelDocument.parse_fades d' d written hstorable'.toWellFormed
        hrender' hd
      have hoverlay := overlayAll_storable (init ++ [last]) former hfirst
        (LevelDocument.storable_of_file before former hformer)
      refine ⟨Mutation.apply_modes d (hmodes'.trans hmodes), ?_⟩
      have hreread := (halike.comp hfades).imp (Q := fun _ v r => v.Fades r)
        fun name v r ⟨w, hw, hr⟩ => hw.reread hr
      apply Mutation.apply_alike d hoverlay.sections_sorted hreread
      · intro hcontent v
        rw [Kept]
        rw [isFresh_concat _ hempty, hcontent, Bool.true_and, if_pos (beq_self_eq_true s.name)]
      · intro name v r hname hr
        have hstale : (s.mutation.content.isSome && s.name == name) = false := by
          rw [Bool.and_eq_false_imp]
          intro hcontent
          exact beq_false_of_ne (hname hcontent).symm
        simp only [Kept]
        rw [isFresh_concat _ hempty, hstale, if_neg (by decide)]
        exact hr

/-- What changes written one by one leave in a file is what they leave when made in memory, just
when every section that is read again is undated. -/
theorem rewriteAll_eq_overlay_iff (entries : List Staged) (hne : entries ≠ [])
    (before : Option String) (former : LevelDocument) (final : String)
    (hformer : LevelDocument.ofFile before = .ok former)
    (hentries : ∀ s ∈ entries, s.mutation.Storable)
    (h : rewriteAll entries before = .ok (some final)) :
    ∃ text, (overlayAll entries former).render = .ok text ∧
      (final = text ↔ isSafe entries former = true) := by
  obtain ⟨d, hrender, hd, hmodes, halike⟩ :=
    rewriteAll_kept entries hne before former final hformer hentries h
  have hoverlay := overlayAll_storable entries former hentries
    (LevelDocument.storable_of_file before former hformer)
  obtain ⟨text, htext⟩ := hoverlay.render
  refine ⟨text, htext, ?_⟩
  have hdocuments : d.settled = (overlayAll entries former).settled ↔
      LevelDocument.settledSections d.sections =
        LevelDocument.settledSections (overlayAll entries former).sections := by
    simp only [LevelDocument.settled]
    rw [LevelDocument.mk.injEq, hmodes]
    exact ⟨fun heq => heq.2, fun heq => ⟨rfl, heq⟩⟩
  rw [LevelDocument.render_eq_iff _ d text final hoverlay.toWellFormed hd.toWellFormed htext
    hrender, hdocuments, LevelDocument.settledSections_eq_iff _ _ halike]
  simp only [isSafe]
  rw [List.all_eq_true]
  constructor
  · intro hsame
    apply hsame.forall_left (R := fun name v => (isFresh entries name || v.isUndated) = true)
    rintro name v w ⟨hkept, hsettled⟩
    by_cases hfresh : isFresh entries name = true
    · rw [hfresh, Bool.true_or]
    · simp only [Kept] at hkept
      rw [if_neg hfresh] at hkept
      rw [hkept.settled_eq_iff.1 hsettled, Bool.or_true]
  · intro hall
    have hboth :=
      halike.and_left (R := fun name v => (isFresh entries name || v.isUndated) = true) hall
    refine hboth.imp ?_
    rintro name v w ⟨hkept, hsafe⟩
    refine ⟨hkept, ?_⟩
    by_cases hfresh : isFresh entries name = true
    · rw [hkept.of_fresh hfresh]
    · simp only [Kept] at hkept
      rw [if_neg hfresh] at hkept
      rw [Bool.eq_false_iff.mpr hfresh, Bool.false_or] at hsafe
      exact hkept.settled_eq_iff.2 hsafe

end Staged

end LayeredConfig
