import Mathlib.Data.List.Infix
import LayeredConfig.Chain
import LayeredConfig.Proofs.Run
import LayeredConfig.Proofs.Scope.Paths

/-!
# Chains of paths that extend one another

The applications that cover a path also cover every path below it, and what covers the lower path
alone is deeper than all of them. A stable sort by depth therefore puts them first and in the order
that they had before, so the chain of a path is the beginning of the chain of every path below it.
-/

set_option autoImplicit false

namespace LayeredConfig

section Sorting

variable {α : Type} {le : α → α → Bool}

/-- A list that is cut where a test turns true can be cut there only. -/
theorem cut_unique (f : α → Bool) {low high low' high' : List α}
    (h : low ++ high = low' ++ high') (hlow : ∀ b ∈ low, f b = false)
    (hhigh : ∀ b ∈ high, f b = true) (hlow' : ∀ b ∈ low', f b = false)
    (hhigh' : ∀ b ∈ high', f b = true) : low = low' ∧ high = high' := by
  have hkeep : ∀ low high : List α, (∀ b ∈ low, f b = false) → (∀ b ∈ high, f b = true) →
      (low ++ high).filter f = high := by
    intro low high hlow hhigh
    rw [List.filter_append, List.filter_eq_nil_iff.mpr fun b hb => by simp [hlow b hb],
      List.nil_append, List.filter_eq_self.mpr hhigh]
  have hsame : high = high' := by
    rw [← hkeep low high hlow hhigh, h, hkeep low' high' hlow' hhigh']
  rw [hsame] at h
  exact ⟨List.append_cancel_right h, hsame⟩

variable (trans : ∀ a b c, le a b = true → le b c = true → le a c = true)
  (total : ∀ a b, (le a b || le b a) = true)

include trans total

theorem mergeSort_insert (a : α) (l : List α) :
    ∃ low high, (a :: l).mergeSort le = low ++ a :: high ∧ l.mergeSort le = low ++ high ∧
      (∀ b ∈ low, le a b = false) ∧ ∀ b ∈ high, le a b = true := by
  obtain ⟨low, high, hcons, hrest, hlow⟩ := List.mergeSort_cons trans total a l
  have hsorted := List.pairwise_mergeSort trans total (a :: l)
  rw [hcons] at hsorted
  refine ⟨low, high, hcons, hrest, fun b hb => by simpa using hlow b hb, ?_⟩
  exact (List.pairwise_cons.mp (List.pairwise_append.mp hsorted).2.1).1

/-- What lies strictly below the rest is sorted first, by itself. -/
theorem mergeSort_eq_append (below : α → Bool) (l : List α)
    (h : ∀ a ∈ l, ∀ b ∈ l, below a = true → below b = false → le b a = false) :
    l.mergeSort le =
      (l.filter below).mergeSort le ++ (l.filter fun a => !below a).mergeSort le := by
  induction l with
  | nil => simp
  | cons a l ih =>
    obtain ⟨low, high, hcons, hrest, hlow, hhigh⟩ := mergeSort_insert trans total a l
    have hsplit := ih fun x hx y hy =>
      h x (List.mem_cons_of_mem _ hx) y (List.mem_cons_of_mem _ hy)
    have hfirst := h a List.mem_cons_self
    have hlast := fun b hb => h b (List.mem_cons_of_mem _ hb) a List.mem_cons_self
    rw [hcons]
    rcases ha : below a with _ | _
    · -- the first element is sorted into the second part
      obtain ⟨low', high', hcons', hrest', hlow', hhigh'⟩ :=
        mergeSort_insert trans total a (l.filter fun b => !below b)
      rw [hrest, hrest', ← List.append_assoc] at hsplit
      have hunder : ∀ b ∈ (l.filter below).mergeSort le ++ low', le a b = false := by
        refine List.forall_mem_append.mpr ⟨fun b hb => ?_, hlow'⟩
        obtain ⟨hb, hbelow⟩ := List.mem_filter.mp (List.mem_mergeSort.mp hb)
        exact hlast b hb hbelow ha
      obtain ⟨rfl, rfl⟩ := cut_unique (le a) hsplit hlow hhigh hunder hhigh'
      rw [List.filter_cons_of_neg (by simp [ha]), List.filter_cons_of_pos (by simp [ha]), hcons',
        List.append_assoc]
    · obtain ⟨low', high', hcons', hrest', hlow', hhigh'⟩ :=
        mergeSort_insert trans total a (l.filter below)
      rw [hrest, hrest', List.append_assoc] at hsplit
      have hover : ∀ b ∈ high' ++ (l.filter fun b => !below b).mergeSort le, le a b = true := by
        refine List.forall_mem_append.mpr ⟨hhigh', fun b hb => ?_⟩
        obtain ⟨hb, hbelow⟩ := List.mem_filter.mp (List.mem_mergeSort.mp hb)
        have hnot := hfirst b (List.mem_cons_of_mem _ hb) ha (by simpa using hbelow)
        have htotal := total a b
        rwa [hnot, Bool.or_false] at htotal
      obtain ⟨rfl, rfl⟩ := cut_unique (le a) hsplit hlow hhigh hlow' hover
      rw [List.filter_cons_of_pos ha, List.filter_cons_of_neg (by simp [ha]), hcons',
        List.append_assoc, List.cons_append]

end Sorting

namespace Chain

open LayeredConfig.Path Run

def Normal (applications : List (String × Application)) : Prop :=
  ∀ a ∈ applications, ∃ A, a.1 = ofSegments A ∧ ∀ piece ∈ A, IsSegment piece

theorem normal_of_mapM {applications : List Application}
    {normal : List (String × Application)}
    (h : applications.mapM normalApplication = .ok normal) : Normal normal := by
  induction applications generalizing normal with
  | nil =>
    cases h
    exact fun a ha => by cases ha
  | cons a applications ih =>
    rw [List.mapM_cons] at h
    obtain ⟨first, hfirst, h⟩ := answer_of_bind h
    obtain ⟨rest, hrest, h⟩ := answer_of_bind h
    cases h
    refine List.forall_mem_cons.mpr ⟨?_, ih hrest⟩
    simp only [normalApplication] at hfirst
    split at hfirst
    · rename_i path hpath
      cases hfirst
      exact ⟨segments a.path, (normalize?_eq_some_iff.mp hpath).2, fun _ => isSegment_of_mem⟩
    · cases hfirst

variable {applications : List (String × Application)} {P Q : List (List Char)}

def bears (path : String) (a : String × Application) : Bool := a.1 != "/" && covers a.1 path

theorem boundaries_eq (path : String) (applications : List (String × Application)) :
    boundaries path applications = (applications.filter (bears path)).mergeSort
      fun a b => depth a.1 ≤ depth b.1 := rfl

theorem bears_iff {A : List (List Char)} {a : Application} (hA : ∀ piece ∈ A, IsSegment piece)
    (hP : ∀ piece ∈ P, IsSegment piece) :
    bears (ofSegments P) (ofSegments A, a) = true ↔ A ≠ [] ∧ A <+: P := by
  simp only [bears, Bool.and_eq_true, bne_iff_ne]
  rw [ne_eq, ofSegments_eq_root_iff hA]
  exact and_congr_right fun hne => covers_iff hA hP hne

/-- The boundaries on a path come first among those on every path below it. -/
theorem boundaries_above (hn : Normal applications) (hP : ∀ piece ∈ P, IsSegment piece)
    (hQ : ∀ piece ∈ Q, IsSegment piece) (h : P <+: Q) :
    boundaries (ofSegments P) applications <+: boundaries (ofSegments Q) applications := by
  have hfilter : applications.filter (bears (ofSegments P)) =
      (applications.filter (bears (ofSegments Q))).filter (bears (ofSegments P)) := by
    rw [List.filter_filter]
    refine List.filter_congr fun a ha => ?_
    obtain ⟨A, hpath, hA⟩ := hn a ha
    obtain ⟨path, application⟩ := a
    obtain rfl : path = ofSegments A := hpath
    rw [Bool.eq_iff_iff, Bool.and_eq_true, bears_iff hA hP, bears_iff hA hQ]
    exact ⟨fun hcovers => ⟨hcovers, hcovers.1, hcovers.2.trans h⟩, fun hboth => hboth.1⟩
  rw [boundaries_eq, boundaries_eq, hfilter, mergeSort_eq_append (by grind) (by grind)
    (bears (ofSegments P)) (applications.filter (bears (ofSegments Q)))]
  · exact List.prefix_append _ _
  · -- what covers the lower path alone has more segments than the upper path
    intro a ha b hb habove hbelow
    obtain ⟨ha, -⟩ := List.mem_filter.mp ha
    obtain ⟨hb, hcovers⟩ := List.mem_filter.mp hb
    obtain ⟨A, hpath, hA⟩ := hn a ha
    obtain ⟨B, hpath', hB⟩ := hn b hb
    obtain ⟨path, a⟩ := a
    obtain ⟨path', b⟩ := b
    obtain rfl : path = ofSegments A := hpath
    obtain rfl : path' = ofSegments B := hpath'
    rw [bears_iff hA hP] at habove
    rw [bears_iff hB hQ] at hcovers
    have hdeep : P.length < B.length := by
      by_contra hle
      have hB' := List.prefix_of_prefix_length_le hcovers.2 h (Nat.le_of_not_lt hle)
      rw [(bears_iff hB hP).2 ⟨hcovers.1, hB'⟩] at hbelow
      cases hbelow
    have hshallow := habove.2.length_le
    rw [depth_ofSegments hA habove.1, depth_ofSegments hB hcovers.1]
    exact decide_eq_false (by omega)

theorem siteLevels_above {site : Site} {levels : List LevelRef}
    (hP : ∀ piece ∈ P, IsSegment piece) (hQ : ∀ piece ∈ Q, IsSegment piece) (h : P <+: Q)
    (hlevels : siteLevels site (ofSegments Q) = .ok levels) :
    ∃ above, siteLevels site (ofSegments P) = .ok above ∧ above <+: levels := by
  obtain ⟨normal, hnormal, hlevels⟩ := answer_of_bind hlevels
  cases hlevels
  refine ⟨_, ?_, List.cons_prefix_cons.mpr
    ⟨rfl, (boundaries_above (normal_of_mapM hnormal) hP hQ h).map _⟩⟩
  simp only [siteLevels]
  rw [hnormal]
  rfl

theorem resolve_ne_nil {host : String} {scope : Scope} {sites : Sites} {chain : List LevelRef}
    (h : resolve host scope sites = .ok chain) : chain ≠ [] := by
  rcases scope with _ | ⟨id, path⟩ | name
  · cases h
    exact List.cons_ne_nil _ _
  · simp only [resolve] at h
    rcases hsite : sites.find? id with _ | site
    · rw [hsite] at h
      cases h
    · rw [hsite] at h
      obtain ⟨levels, -, h⟩ := answer_of_bind h
      cases h
      exact List.cons_ne_nil _ _
  · cases h
    exact List.cons_ne_nil _ _

/-- The chain of a path is the beginning of the chain of every path below it. -/
theorem resolve_above {host : String} {sites : Sites} {id : Int} {chain : List LevelRef}
    (hP : ∀ piece ∈ P, IsSegment piece) (hQ : ∀ piece ∈ Q, IsSegment piece) (h : P <+: Q)
    (hchain : resolve host (.site id (ofSegments Q)) sites = .ok chain) :
    ∃ above, resolve host (.site id (ofSegments P)) sites = .ok above ∧ above <+: chain := by
  simp only [resolve] at hchain ⊢
  rcases hsite : sites.find? id with _ | site
  · rw [hsite] at hchain
    cases hchain
  · rw [hsite] at hchain
    obtain ⟨levels, hlevels, hchain⟩ := answer_of_bind hchain
    cases hchain
    obtain ⟨above, habove, hbegins⟩ := siteLevels_above hP hQ h hlevels
    refine ⟨hostLevel host :: above, ?_, List.cons_prefix_cons.mpr ⟨rfl, hbegins⟩⟩
    dsimp only
    rw [habove]
    rfl

end Chain

end LayeredConfig
