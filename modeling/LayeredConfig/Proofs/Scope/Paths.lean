import Mathlib.Data.List.Infix
import LayeredConfig.Path

/-!
# Paths by their segments

A normal path is its segments, each with a slash before it, so one path covers another one just
when its segments are the first of the other's, and its depth is their number. The root is the one
path that has a slash and no segment.
-/

set_option autoImplicit false

namespace LayeredConfig

namespace Text

theorem not_separator_of_mem_splitOn {p : Char → Bool} {cs piece : List Char}
    (h : piece ∈ splitOn p cs) : ∀ c ∈ piece, p c = false := by
  induction cs generalizing piece with
  | nil =>
    obtain rfl := List.mem_singleton.mp h
    exact fun c hc => by cases hc
  | cons c cs ih =>
    have hrest : ∀ q ∈ splitOn p cs, ∀ c ∈ q, p c = false := fun q hq => ih hq
    unfold splitOn at h
    split at h
    · rcases List.mem_cons.mp h with rfl | h
      · exact fun c hc => by cases hc
      · exact ih h
    · rename_i hc
      rcases hs : splitOn p cs with _ | ⟨first, pieces⟩
      · exact absurd hs (splitOn_ne_nil p cs)
      · rw [hs] at h hrest
        rcases List.mem_cons.mp h with rfl | h
        · exact List.forall_mem_cons.mpr
            ⟨by simpa using hc, hrest first List.mem_cons_self⟩
        · exact hrest piece (List.mem_cons_of_mem _ h)

end Text

namespace Path

def IsSegment (piece : List Char) : Prop := piece ≠ [] ∧ '/' ∉ piece

theorem isSegment_of_mem {path : String} {piece : List Char} (h : piece ∈ segments path) :
    IsSegment piece := by
  obtain ⟨hpiece, hkept⟩ := List.mem_filter.mp h
  rw [Bool.and_eq_true, bne_iff_ne] at hkept
  refine ⟨hkept.1, fun hslash => ?_⟩
  have := Text.not_separator_of_mem_splitOn hpiece '/' hslash
  cases this

def ended (pieces : List (List Char)) : List Char := pieces.flatMap (· ++ ['/'])

variable {A B : List (List Char)} {above path : String}

theorem join_concat (hne : A ≠ []) : Text.join '/' A ++ ['/'] = ended A := by
  induction A with
  | nil => exact absurd rfl hne
  | cons a A ih =>
    rcases A with _ | ⟨b, A⟩
    · simp [Text.join, ended]
    · have hrest := ih (List.cons_ne_nil b A)
      simp only [ended] at hrest ⊢
      rw [List.flatMap_cons, ← hrest]
      simp [Text.join]

theorem toList_ofSegments (hne : A ≠ []) : (ofSegments A).toList ++ ['/'] = '/' :: ended A := by
  rw [ofSegments, String.toList_ofList, List.cons_append, join_concat hne]

/-- A slash that neither piece holds ends both at once. -/
theorem begins_of_ended {a b x y : List Char} (ha : '/' ∉ a) (hb : '/' ∉ b) :
    a ++ '/' :: x <+: b ++ '/' :: y ↔ a = b ∧ x <+: y := by
  induction a generalizing b with
  | nil =>
    rcases b with _ | ⟨c, b⟩
    · simp
    · have hc : '/' ≠ c := fun h => hb (h ▸ List.mem_cons_self)
      simp [hc]
  | cons c a ih =>
    rcases b with _ | ⟨c', b⟩
    · have hc : c ≠ '/' := fun h => ha (h ▸ List.mem_cons_self)
      simp [hc]
    · have hrest := ih (b := b) (fun h => ha (List.mem_cons_of_mem _ h))
        (fun h => hb (List.mem_cons_of_mem _ h))
      rw [List.cons_append, List.cons_append, List.cons_prefix_cons, hrest, List.cons.injEq,
        and_assoc]

theorem ended_prefix_iff (hA : ∀ a ∈ A, IsSegment a) (hB : ∀ b ∈ B, IsSegment b) :
    ended A <+: ended B ↔ A <+: B := by
  induction A generalizing B with
  | nil => simp [ended]
  | cons a A ih =>
    rcases B with _ | ⟨b, B⟩
    · simp [ended]
    · obtain ⟨ha, hA⟩ := List.forall_mem_cons.mp hA
      obtain ⟨hb, hB⟩ := List.forall_mem_cons.mp hB
      rw [List.cons_prefix_cons, ← ih hA hB]
      simp only [ended, List.flatMap_cons, List.append_assoc, List.singleton_append]
      exact begins_of_ended ha.2 hb.2

theorem ofSegments_eq_root_iff (hA : ∀ a ∈ A, IsSegment a) : ofSegments A = "/" ↔ A = [] := by
  constructor
  · intro h
    rcases A with _ | ⟨a, A⟩
    · rfl
    · have ha := hA a List.mem_cons_self
      have htext := toList_ofSegments (List.cons_ne_nil a A)
      rw [h] at htext
      obtain ⟨c, rest, rfl⟩ := List.exists_cons_of_ne_nil ha.1
      have hslash : '/' = c := (List.cons.inj (List.cons.inj htext).2).1
      exact absurd (hslash ▸ List.mem_cons_self) ha.2
  · rintro rfl
    rfl

theorem covers_iff_begins :
    covers above path = true ↔ above.toList ++ ['/'] <+: path.toList ++ ['/'] := by
  rw [List.prefix_concat_iff, List.append_left_inj, ← String.ext_iff, covers, Bool.or_eq_true,
    beq_iff_eq, List.isPrefixOf_iff_prefix]
  exact or_congr_left eq_comm

/-- One path covers another one, by whole segments. -/
theorem covers_iff (hA : ∀ a ∈ A, IsSegment a) (hB : ∀ b ∈ B, IsSegment b) (hne : A ≠ []) :
    covers (ofSegments A) (ofSegments B) = true ↔ A <+: B := by
  rw [covers_iff_begins, toList_ofSegments hne]
  rcases B with _ | ⟨b, B⟩
  · -- nothing with a segment covers the root
    obtain ⟨a, A, rfl⟩ := List.exists_cons_of_ne_nil hne
    have ha := hA a List.mem_cons_self
    obtain ⟨c, rest, rfl⟩ := List.exists_cons_of_ne_nil ha.1
    have hc : c ≠ '/' := fun h => ha.2 (h ▸ List.mem_cons_self)
    simp [ofSegments, Text.join, ended, hc]
  · rw [toList_ofSegments (List.cons_ne_nil b B), List.cons_prefix_cons]
    simp only [true_and]
    exact ended_prefix_iff hA hB

theorem depth_ofSegments (hA : ∀ a ∈ A, IsSegment a) (hne : A ≠ []) :
    depth (ofSegments A) = A.length := by
  have hcount : (ended A).count '/' = A.length := by
    clear hne
    induction A with
    | nil => rfl
    | cons a A ih =>
      obtain ⟨ha, hA⟩ := List.forall_mem_cons.mp hA
      have hrest := ih hA
      simp only [ended] at hrest ⊢
      rw [List.flatMap_cons, List.count_append, hrest, List.count_append,
        List.count_eq_zero.mpr ha.2, List.length_cons]
      simp [Nat.add_comm]
  have htext := congrArg (List.count '/') (toList_ofSegments hne)
  rw [List.count_append] at htext
  simpa [depth, hcount] using htext

theorem normalize?_eq_some_iff {normal : String} :
    normalize? path = some normal ↔
      hasParent path = false ∧ normal = ofSegments (segments path) := by
  simp only [normalize?]
  rcases hasParent path with _ | _
  · simp [eq_comm]
  · simp

end Path

end LayeredConfig
