import Mathlib.Data.List.Forall2
import Mathlib.Logic.Basic
import LayeredConfig.Table

/-!
# Tables are sorted

Every update keeps a table in key order, and a table is the only list in that order with its
entries. So reading entries in any order gives the table that they came from.
-/

set_option autoImplicit false

namespace LayeredConfig.Table

variable {α : Type}

instance (t : Table α) : Decidable (Sorted t) :=
  inferInstanceAs (Decidable ((keys t).Pairwise (· < ·)))

theorem sorted_nil : Sorted ([] : Table α) := List.Pairwise.nil

theorem sorted_cons (k : String) (v : α) (rest : Table α) :
    Sorted ((k, v) :: rest) ↔ (∀ key ∈ keys rest, k < key) ∧ Sorted rest := List.pairwise_cons

theorem Sorted.nodup {t : Table α} (h : Sorted t) : (keys t).Nodup :=
  List.Pairwise.imp String.ne_of_lt h

theorem Sorted.of_keys {β : Type} {t : Table α} {u : Table β} (h : Sorted t)
    (hkeys : keys u = keys t) : Sorted u := by
  rw [Sorted, hkeys]
  exact h

theorem Sorted.sublist {t u : Table α} (h : Sorted t) (hu : u.Sublist t) : Sorted u :=
  List.Pairwise.sublist (hu.map _) h

theorem get?_eq_none_iff (t : Table α) (key : String) : get? t key = none ↔ key ∉ keys t := by
  induction t with
  | nil => simp [get?, keys]
  | cons e rest ih =>
    obtain ⟨k, v⟩ := e
    simp only [get?]
    simp only [keys] at ih ⊢
    split
    · rename_i h
      simp [h]
    · rename_i h
      rw [ih]
      simp [Ne.symm h]

theorem mem_of_get? (t : Table α) (key : String) (v : α) (h : get? t key = some v) :
    (key, v) ∈ t := by
  induction t with
  | nil => cases h
  | cons e rest ih =>
    obtain ⟨k, w⟩ := e
    simp only [get?] at h
    split at h
    · rename_i hk
      cases h
      rw [hk]
      exact List.mem_cons_self
    · exact List.mem_cons_of_mem _ (ih h)

theorem get?_self (k : String) (v : α) (rest : Table α) : get? ((k, v) :: rest) k = some v :=
  if_pos rfl

theorem Sorted.get?_of_lt {k : String} {v : α} {rest : Table α} (h : Sorted ((k, v) :: rest))
    {key : String} (hlt : key < k) : get? ((k, v) :: rest) key = none := by
  rw [get?_eq_none_iff]
  intro hmem
  rcases List.mem_cons.mp hmem with rfl | hin
  · exact String.lt_irrefl _ hlt
  · exact String.lt_irrefl _ (String.lt_trans hlt (((sorted_cons k v rest).1 h).1 key hin))

/-- A table is known by what stands under each key. -/
theorem Sorted.ext {t u : Table α} (ht : Sorted t) (hu : Sorted u)
    (h : ∀ key, get? t key = get? u key) : t = u := by
  induction t generalizing u with
  | nil =>
    rcases u with _ | ⟨⟨k, v⟩, u⟩
    · rfl
    · have hk := h k
      rw [get?_self] at hk
      cases hk
  | cons e t ih =>
    obtain ⟨k, v⟩ := e
    rcases u with _ | ⟨⟨k', v'⟩, u⟩
    · have hk := h k
      rw [get?_self] at hk
      cases hk
    · have hkeys : k = k' := by
        by_cases hlt : k < k'
        · have hk := h k
          rw [get?_self, hu.get?_of_lt hlt] at hk
          cases hk
        · by_cases hgt : k' < k
          · have hk := h k'
            rw [get?_self, ht.get?_of_lt hgt] at hk
            cases hk
          · exact String.le_antisymm (String.not_lt.mp hgt) (String.not_lt.mp hlt)
      subst hkeys
      have hvalues := h k
      rw [get?_self, get?_self] at hvalues
      obtain rfl := Option.some.inj hvalues
      have hrest := (sorted_cons k v t).1 ht
      have hrest' := (sorted_cons k v u).1 hu
      refine congrArg ((k, v) :: ·) (ih hrest.2 hrest'.2 fun key => ?_)
      by_cases hkey : k = key
      · subst hkey
        rw [(get?_eq_none_iff t k).2 fun hin => String.lt_irrefl k (hrest.1 k hin),
          (get?_eq_none_iff u k).2 fun hin => String.lt_irrefl k (hrest'.1 k hin)]
      · have hboth := h key
        simp only [get?] at hboth
        rwa [if_neg hkey, if_neg hkey] at hboth

@[simp] theorem mem_keys_insert (t : Table α) (key : String) (v : α) (k : String) :
    k ∈ keys (insert t key v) ↔ k = key ∨ k ∈ keys t := by
  rw [← not_iff_not, ← get?_eq_none_iff, get?_insert, not_or, ← get?_eq_none_iff]
  split
  · rename_i h
    simp [h]
  · rename_i h
    simp [Ne.symm h]

theorem mem_insert (t : Table α) (key : String) (v : α) (e : String × α)
    (h : e ∈ insert t key v) : e = (key, v) ∨ e ∈ t := by
  induction t with
  | nil => simpa [insert] using h
  | cons f rest ih =>
    obtain ⟨k, w⟩ := f
    simp only [insert] at h
    split at h
    · rcases List.mem_cons.mp h with h | h
      · exact .inl h
      · exact .inr (List.mem_cons_of_mem _ h)
    · split at h
      · exact List.mem_cons.mp h
      · rcases List.mem_cons.mp h with h | h
        · exact .inr (h ▸ List.mem_cons_self)
        · rcases ih h with h | h
          · exact .inl h
          · exact .inr (List.mem_cons_of_mem _ h)

theorem sorted_insert (t : Table α) (key : String) (v : α) (h : Sorted t) :
    Sorted (insert t key v) := by
  induction t with
  | nil => exact (sorted_cons key v []).2 ⟨fun _ hk => (List.not_mem_nil hk).elim, sorted_nil⟩
  | cons e rest ih =>
    obtain ⟨k, w⟩ := e
    obtain ⟨hlt, hrest⟩ := (sorted_cons k w rest).1 h
    simp only [insert]
    split
    · rename_i hk
      rw [sorted_cons, ← hk]
      exact ⟨hlt, hrest⟩
    · rename_i hne
      split
      · rename_i hk
        rw [sorted_cons]
        refine ⟨fun key' hkey' => ?_, h⟩
        rcases List.mem_cons.mp hkey' with rfl | hkey'
        · exact hk
        · exact String.lt_trans hk (hlt key' hkey')
      · rename_i hk
        rw [sorted_cons]
        refine ⟨fun key' hkey' => ?_, ih hrest⟩
        rcases (mem_keys_insert rest key v key').1 hkey' with rfl | hkey'
        · rcases String.le_total k key' with hle | hle
          · exact Std.lt_of_le_of_ne hle hne
          · exact absurd (Std.lt_of_le_of_ne hle (Ne.symm hne)) hk
        · exact hlt key' hkey'

theorem erase_sublist (t : Table α) (key : String) : (erase t key).Sublist t := by
  induction t with
  | nil => exact List.Sublist.slnil
  | cons e rest ih =>
    simp only [erase]
    split
    · exact ih.cons _
    · exact ih.cons_cons _

theorem insert_perm (t : Table α) (key : String) (v : α) (h : key ∉ keys t) :
    (insert t key v).Perm ((key, v) :: t) := by
  induction t with
  | nil => exact List.Perm.refl _
  | cons e rest ih =>
    obtain ⟨k, w⟩ := e
    have hk : k ≠ key := fun hk => h (hk ▸ List.mem_cons_self)
    simp only [insert]
    rw [if_neg hk]
    split
    · exact List.Perm.refl _
    · exact ((ih fun hm => h (List.mem_cons_of_mem _ hm)).cons _).trans (List.Perm.swap _ _ _)

theorem sorted_foldl (entries : List (String × α)) (t : Table α) (h : Sorted t) :
    Sorted (entries.foldl (fun t e => insert t e.1 e.2) t) := by
  induction entries generalizing t with
  | nil => exact h
  | cons e entries ih => exact ih _ (sorted_insert t e.1 e.2 h)

theorem sorted_ofList (entries : List (String × α)) : Sorted (ofList entries) :=
  sorted_foldl entries [] sorted_nil

theorem mem_foldl (entries : List (String × α)) (t : Table α) (e : String × α)
    (h : e ∈ entries.foldl (fun t e => insert t e.1 e.2) t) : e ∈ entries ∨ e ∈ t := by
  induction entries generalizing t with
  | nil => exact .inr h
  | cons f entries ih =>
    rcases ih _ h with h | h
    · exact .inl (List.mem_cons_of_mem _ h)
    · rcases mem_insert t f.1 f.2 e h with h | h
      · exact .inl (h ▸ List.mem_cons_self)
      · exact .inr h

theorem mem_of_mem_ofList (entries : List (String × α)) (e : String × α) (h : e ∈ ofList entries) :
    e ∈ entries := (mem_foldl entries [] e h).resolve_right (by simp)

theorem foldl_perm (entries : List (String × α)) (t : Table α)
    (h : (keys (entries ++ t)).Nodup) :
    (entries.foldl (fun t e => insert t e.1 e.2) t).Perm (entries ++ t) := by
  induction entries generalizing t with
  | nil => exact List.Perm.refl _
  | cons e entries ih =>
    obtain ⟨hfresh, hrest⟩ := List.nodup_cons.mp h
    have hnew := insert_perm t e.1 e.2 fun hm =>
      hfresh (List.mem_map.mpr (by
        obtain ⟨f, hf, hk⟩ := List.mem_map.mp hm
        exact ⟨f, List.mem_append_right _ hf, hk⟩))
    have hmiddle : (entries ++ insert t e.1 e.2).Perm (e :: (entries ++ t)) :=
      (hnew.append_left entries).trans List.perm_middle
    have hkeys : (keys (entries ++ insert t e.1 e.2)).Nodup := (hmiddle.map _).nodup_iff.mpr h
    exact (ih _ hkeys).trans hmiddle

theorem ofList_perm (entries : List (String × α)) (h : (keys entries).Nodup) :
    (ofList entries).Perm entries := by
  have := foldl_perm entries [] (by rwa [List.append_nil])
  rwa [List.append_nil] at this

/-- Entries of a table in any order denote the table. -/
theorem ofList_eq_of_perm (entries : List (String × α)) (t : Table α) (h : entries.Perm t)
    (ht : Sorted t) : ofList entries = t := by
  have hnodup : (keys entries).Nodup := (h.map _).nodup_iff.mpr ht.nodup
  have hs : (ofList entries).Pairwise (fun a b => a.1 < b.1) :=
    List.pairwise_map.mp (sorted_ofList entries)
  refine List.Perm.eq_of_pairwise ?_ hs (List.pairwise_map.mp ht)
    ((ofList_perm entries hnodup).trans h)
  intro a b _ _ hab hba
  exact absurd hba (String.lt_asymm hab)

theorem ofList_eq_self (t : Table α) (h : Sorted t) : ofList t = t :=
  ofList_eq_of_perm t t (List.Perm.refl t) h

/-! ## Tables with the same keys -/

variable {β γ : Type}

def Alike (P : String → α → β → Prop) (t : Table α) (u : Table β) : Prop :=
  List.Forall₂ (fun a b => a.1 = b.1 ∧ P a.1 a.2 b.2) t u

namespace Alike

variable {P : String → α → β → Prop} {t : Table α} {u : Table β}

theorem keys_eq (h : Alike P t u) : keys u = keys t := by
  induction h with
  | nil => rfl
  | cons hab _ ih =>
    simp only [keys] at ih ⊢
    rw [List.map_cons, List.map_cons, ih, hab.1]

theorem imp {Q : String → α → β → Prop} (h : Alike P t u) (hPQ : ∀ k a b, P k a b → Q k a b) :
    Alike Q t u := List.Forall₂.imp (fun _ _ hab => ⟨hab.1, hPQ _ _ _ hab.2⟩) h

theorem refl {P : String → α → α → Prop} (t : Table α) (h : ∀ e ∈ t, P e.1 e.2 e.2) :
    Alike P t t := by
  induction t with
  | nil => exact List.Forall₂.nil
  | cons e t ih =>
    exact List.Forall₂.cons ⟨rfl, h e List.mem_cons_self⟩
      (ih fun e he => h e (List.mem_cons_of_mem _ he))

theorem comp {Q : String → β → γ → Prop} {w : Table γ} (h : Alike P t u) (h' : Alike Q u w) :
    Alike (fun k a c => ∃ b, P k a b ∧ Q k b c) t w := by
  induction h generalizing w with
  | nil =>
    cases h'
    exact List.Forall₂.nil
  | cons hab _ ih =>
    cases h' with
    | cons hbc htail =>
      refine List.Forall₂.cons ⟨hab.1.trans hbc.1, _, hab.2, ?_⟩ (ih htail)
      rw [hab.1]
      exact hbc.2

theorem rel_get? (h : Alike P t u) (key : String) :
    Option.Rel (P key) (get? t key) (get? u key) := by
  induction h with
  | nil => exact Option.Rel.none
  | @cons a b t u hab _ ih =>
    obtain ⟨k, v⟩ := a
    obtain ⟨k', w⟩ := b
    obtain ⟨rfl, hvw⟩ := hab
    simp only [get?]
    split
    · rename_i hk
      rw [← hk]
      exact Option.Rel.some hvw
    · exact ih

theorem forall_left {R : String → α → Prop} (h : Alike P t u) (hPR : ∀ k a b, P k a b → R k a) :
    ∀ e ∈ t, R e.1 e.2 := by
  induction h with
  | nil => exact fun e he => by cases he
  | cons hab _ ih =>
    intro e he
    rcases List.mem_cons.mp he with rfl | he
    · exact hPR _ _ _ hab.2
    · exact ih e he

theorem and_left {R : String → α → Prop} (h : Alike P t u) (hR : ∀ e ∈ t, R e.1 e.2) :
    Alike (fun k a b => P k a b ∧ R k a) t u := by
  induction h with
  | nil => exact List.Forall₂.nil
  | cons hab _ ih =>
    exact List.Forall₂.cons ⟨hab.1, hab.2, hR _ List.mem_cons_self⟩
      (ih fun e he => hR e (List.mem_cons_of_mem _ he))

theorem insert {Q : String → α → β → Prop} (h : Alike P t u) (hs : Sorted t) (key : String) (v : α)
    (w : β) (hv : Q key v w) (hPQ : ∀ k a b, k ≠ key → P k a b → Q k a b) :
    Alike Q (Table.insert t key v) (Table.insert u key w) := by
  induction h with
  | nil => exact List.Forall₂.cons ⟨rfl, hv⟩ List.Forall₂.nil
  | @cons a b t u hab htail ih =>
    obtain ⟨k, x⟩ := a
    obtain ⟨k', y⟩ := b
    obtain ⟨rfl, hxy⟩ := hab
    obtain ⟨hlt, hrest⟩ := (sorted_cons k x t).1 hs
    have hafter : (∀ k' ∈ keys t, k' ≠ key) → Alike Q t u := by
      intro hne
      clear ih hs hlt hrest
      induction htail with
      | nil => exact List.Forall₂.nil
      | cons hab _ ih =>
        refine List.Forall₂.cons ⟨hab.1, hPQ _ _ _ (hne _ List.mem_cons_self) hab.2⟩ (ih ?_)
        exact fun k' hk' => hne k' (List.mem_cons_of_mem _ hk')
    simp only [Table.insert]
    split
    · rename_i hk
      rw [hk] at hlt
      refine List.Forall₂.cons ⟨rfl, hv⟩ (hafter fun k' hk' => ?_)
      exact (String.ne_of_lt (hlt k' hk')).symm
    · rename_i hk
      split
      · rename_i hbefore
        refine List.Forall₂.cons ⟨rfl, hv⟩ (List.Forall₂.cons ⟨rfl, hPQ k x y hk hxy⟩ ?_)
        exact hafter fun k' hk' => (String.ne_of_lt (String.lt_trans hbefore (hlt k' hk'))).symm
      · exact List.Forall₂.cons ⟨rfl, hPQ k x y hk hxy⟩ (ih hrest)

theorem erase {Q : String → α → β → Prop} (h : Alike P t u) (key : String)
    (hPQ : ∀ k a b, k ≠ key → P k a b → Q k a b) :
    Alike Q (Table.erase t key) (Table.erase u key) := by
  induction h with
  | nil => exact List.Forall₂.nil
  | @cons a b t u hab _ ih =>
    obtain ⟨k, x⟩ := a
    obtain ⟨k', y⟩ := b
    obtain ⟨rfl, hxy⟩ := hab
    simp only [Table.erase]
    split
    · exact ih
    · rename_i hk
      exact List.Forall₂.cons ⟨rfl, hPQ k x y hk hxy⟩ ih

end Alike

end LayeredConfig.Table
