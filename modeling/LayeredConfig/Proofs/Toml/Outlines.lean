import LayeredConfig.Toml.Outline
import LayeredConfig.Proofs.Tables

/-!
# New keys of tables under construction

A key that a table does not have yet is appended to its entries, whether it gets a value, a
table or the first element of a series; and what is done below such a key changes the last
entry only.
-/

set_option autoImplicit false

namespace LayeredConfig.Toml.Outline

open Table (keys)

variable {entries : Entries} {key : String} {node : Outline}

theorem put_fresh (h : key ∉ keys entries) : put entries key node = entries ++ [(key, node)] := by
  induction entries with
  | nil => rfl
  | cons e rest ih =>
    obtain ⟨k, v⟩ := e
    have hk : k ≠ key := fun hk => h (hk ▸ List.mem_cons_self)
    simp only [put]
    rw [if_neg hk, ih fun hm => h (List.mem_cons_of_mem _ hm)]
    rfl

theorem put_last (h : key ∉ keys entries) (old : Outline) :
    put (entries ++ [(key, old)]) key node = entries ++ [(key, node)] := by
  induction entries with
  | nil =>
    change (if key = key then _ else _) = _
    rw [if_pos rfl]
    rfl
  | cons e rest ih =>
    obtain ⟨k, v⟩ := e
    have hk : k ≠ key := fun hk => h (hk ▸ List.mem_cons_self)
    rw [List.cons_append]
    simp only [put]
    rw [if_neg hk, ih fun hm => h (List.mem_cons_of_mem _ hm)]
    rfl

theorem get?_fresh (h : key ∉ keys entries) : Table.get? entries key = none :=
  (Table.get?_eq_none_iff entries key).2 h

theorem get?_last (h : key ∉ keys entries) :
    Table.get? (entries ++ [(key, node)]) key = some node := by
  induction entries with
  | nil =>
    change (if key = key then _ else _) = _
    rw [if_pos rfl]
  | cons e rest ih =>
    obtain ⟨k, v⟩ := e
    have hk : k ≠ key := fun hk => h (hk ▸ List.mem_cons_self)
    change (if k = key then _ else _) = _
    rw [if_neg hk]
    exact ih fun hm => h (List.mem_cons_of_mem _ hm)

theorem define_fresh (d : Dialect) (v : Toml) (h : key ∉ keys entries) :
    define d v [key] entries = some (entries ++ [(key, .value v)]) := by
  simp only [define]
  rw [get?_fresh h, put_fresh h]

def values (pairs : List (String × Toml)) : Entries := pairs.map fun (key, v) => (key, .value v)

@[simp] theorem keys_values (pairs : List (String × Toml)) : keys (values pairs) = keys pairs := by
  simp only [keys, values]
  rw [List.map_map]
  rfl

theorem define_all (d : Dialect) (entries : Entries) (pairs : List (String × Toml))
    (h : (keys entries ++ keys pairs).Nodup) :
    pairs.foldlM (fun entries e => define d e.2 [e.1] entries) entries =
      some (entries ++ values pairs) := by
  induction pairs generalizing entries with
  | nil =>
    rw [show values [] = [] from rfl, List.append_nil]
    rfl
  | cons e rest ih =>
    obtain ⟨k, v⟩ := e
    obtain ⟨-, -, hdisjoint⟩ := List.nodup_append.mp h
    have hk : k ∉ keys entries := fun hm => hdisjoint k hm k List.mem_cons_self rfl
    rw [List.foldlM_cons]
    change (define d v [k] entries).bind _ = _
    rw [define_fresh d v hk, Option.bind_some]
    refine (ih _ ?_).trans ?_
    · have hkeys : keys (entries ++ [(k, Outline.value v)]) = keys entries ++ [k] := by
        simp only [keys]
        rw [List.map_append]
        rfl
      rw [hkeys, List.append_assoc]
      exact h
    · rw [List.append_assoc]
      rfl

@[simp] theorem entriesToToml?_values (d : Dialect) (pairs : List (String × Toml)) :
    entriesToToml? d (values pairs) = some pairs := by
  induction pairs with
  | nil => rfl
  | cons e rest ih =>
    obtain ⟨k, v⟩ := e
    change ((some v).bind fun v => (entriesToToml? d (values rest)).bind _) = _
    rw [ih]
    rfl

/-- The pairs of an inline table, each with a key of one part. -/
theorem inlineTable?_eq (d : Dialect) (pairs : List (String × Toml)) (h : (keys pairs).Nodup) :
    inlineTable? d (pairs.map fun (key, v) => ([key], v)) = tableValue? d pairs := by
  simp only [inlineTable?]
  rw [List.foldlM_map]
  change (pairs.foldlM (fun entries e => define d e.2 [e.1] entries) []).bind _ = _
  rw [define_all d [] pairs h]
  change (entriesToToml? d (values pairs)).bind _ = _
  rw [entriesToToml?_values, Option.bind_some]

theorem entriesToToml?_append (d : Dialect) (first second : Entries) :
    entriesToToml? d (first ++ second) =
      (entriesToToml? d first).bind fun a => (entriesToToml? d second).map (a ++ ·) := by
  induction first with
  | nil =>
    change entriesToToml? d second = (entriesToToml? d second).map fun b => b
    exact Option.map_id'.symm
  | cons e first ih =>
    obtain ⟨k, node⟩ := e
    change ((toToml? d node).bind fun v => (entriesToToml? d (first ++ second)).bind fun others =>
      some ((k, v) :: others)) = ((toToml? d node).bind fun v => (entriesToToml? d first).bind
        fun others => some ((k, v) :: others)).bind _
    rw [ih]
    rcases toToml? d node with _ | v
    · rfl
    · rcases entriesToToml? d first with _ | a
      · rfl
      · rcases entriesToToml? d second with _ | b
        · rfl
        · rfl

/-- Changing what is at a path, one part of the path after the other. -/
theorem update_append (f : Entries → Option Entries) (path more : List String) :
    update f (path ++ more) = update (update f more) path := by
  induction path with
  | nil => rfl
  | cons key path ih =>
    funext entries
    rw [List.cons_append, update, update, ih]

theorem updateLast_append (f : Entries → Option Entries) (items : List Entries) (last : Entries) :
    updateLast f (items ++ [last]) = (f last).map fun last => items ++ [last] := by
  induction items with
  | nil => rfl
  | cons item items ih =>
    have hcons : updateLast f (item :: items ++ [last]) =
        (updateLast f (items ++ [last])).map (item :: ·) := by
      rw [List.cons_append, updateLast]
      intro heq
      simp at heq
    rw [hcons, ih, Option.map_map]
    rfl

structure Shows (path : List String) (root inside : Entries) (plug : Entries → Entries) : Prop where
  here : ∀ f, update f path root = (f inside).map plug
  after : ∀ f other, update f path (plug other) = (f other).map plug

theorem shows_root (root : Entries) : Shows [] root root id where
  here f := by
    change f root = _
    rw [Option.map_id]
    rfl
  after f other := by
    change f other = _
    rw [Option.map_id]
    rfl

variable {path : List String} {root inside : Entries} {plug : Entries → Entries}

theorem Shows.self (h : Shows path root inside plug) (other : Entries) :
    Shows path (plug other) other plug := ⟨fun f => h.after f other, h.after⟩

theorem update_table (f : Entries → Option Entries) (h : key ∉ keys inside) (origin : Origin)
    (inner : Entries) :
    update f [key] (inside ++ [(key, .table origin inner)]) =
      (f inner).map fun inner => inside ++ [(key, .table origin inner)] := by
  rw [update, get?_last h]
  change (f inner).map _ = _
  congr 1
  funext inner
  exact put_last h _

theorem update_parent (f : Entries → Option Entries) (h : key ∉ keys inside) :
    update f [key] inside = (f []).map fun inner => inside ++ [(key, .table .parent inner)] := by
  rw [update, get?_fresh h]
  change (f []).map _ = _
  congr 1
  funext inner
  exact put_fresh h

theorem update_series (f : Entries → Option Entries) (h : key ∉ keys inside)
    (items : List Entries) (last : Entries) :
    update f [key] (inside ++ [(key, .series (items ++ [last]))]) =
      (f last).map fun last => inside ++ [(key, .series (items ++ [last]))] := by
  rw [update, get?_last h]
  change (updateLast f (items ++ [last])).map _ = _
  rw [updateLast_append, Option.map_map]
  congr 1
  funext last
  exact put_last h _

theorem Shows.table (h : Shows path root inside plug) (hk : key ∉ keys inside) (origin : Origin)
    (inner : Entries) :
    Shows (path ++ [key]) (plug (inside ++ [(key, .table origin inner)])) inner
      fun inner => plug (inside ++ [(key, .table origin inner)]) where
  here f := by
    rw [update_append, h.after, update_table f hk, Option.map_map]
    rfl
  after f other := by
    rw [update_append, h.after, update_table f hk, Option.map_map]
    rfl

/-- A table that nothing has opened yet comes about as a parent. -/
theorem Shows.parent (h : Shows path root inside plug) (hk : key ∉ keys inside) :
    Shows (path ++ [key]) root [] fun inner => plug (inside ++ [(key, .table .parent inner)]) where
  here f := by
    rw [update_append, h.here, update_parent f hk, Option.map_map]
    rfl
  after f other := by
    rw [update_append, h.after, update_table f hk, Option.map_map]
    rfl

theorem Shows.series (h : Shows path root inside plug) (hk : key ∉ keys inside)
    (items : List Entries) (last : Entries) :
    Shows (path ++ [key]) (plug (inside ++ [(key, .series (items ++ [last]))])) last
      fun last => plug (inside ++ [(key, .series (items ++ [last]))]) where
  here f := by
    rw [update_append, h.after, update_series f hk, Option.map_map]
    rfl
  after f other := by
    rw [update_append, h.after, update_series f hk, Option.map_map]
    rfl

theorem Shows.openTable (h : Shows path root inside plug) (hk : key ∉ keys inside) :
    update (openTable key) path root = some (plug (inside ++ [(key, .table .header [])])) := by
  rw [h.here]
  simp only [Outline.openTable]
  rw [get?_fresh hk, put_fresh hk]
  rfl

theorem Shows.openSeries (h : Shows path root inside plug) (hk : key ∉ keys inside) :
    update (openElement key) path root = some (plug (inside ++ [(key, .series [[]])])) := by
  rw [h.here]
  simp only [openElement]
  rw [get?_fresh hk, put_fresh hk]
  rfl

theorem Shows.openElement (h : Shows path root inside plug) (hk : key ∉ keys inside)
    (items : List Entries) :
    update (openElement key) path (plug (inside ++ [(key, .series items)])) =
      some (plug (inside ++ [(key, .series (items ++ [[]]))])) := by
  rw [h.after]
  simp only [Outline.openElement]
  rw [get?_last hk]
  change some (plug (put _ _ _)) = _
  rw [put_last hk]

/-- Values with new keys are appended to what is shown. -/
theorem Shows.define_all (h : Shows path root inside plug) (d : Dialect)
    (pairs : List (String × Toml)) (hnodup : (keys inside ++ keys pairs).Nodup) :
    pairs.foldlM (fun root e => update (define d e.2 [e.1]) path root) (plug inside) =
      some (plug (inside ++ values pairs)) := by
  have hfold : ∀ entries, pairs.foldlM (fun root e => update (define d e.2 [e.1]) path root)
      (plug entries) =
        (pairs.foldlM (fun entries e => define d e.2 [e.1] entries) entries).map plug := by
    clear hnodup
    induction pairs with
    | nil => exact fun entries => rfl
    | cons e pairs ih =>
      intro entries
      rw [List.foldlM_cons, List.foldlM_cons, h.after]
      change ((define d e.2 [e.1] entries).map plug).bind _ =
        ((define d e.2 [e.1] entries).bind _).map plug
      rcases define d e.2 [e.1] entries with _ | entries
      · rfl
      · exact ih entries
  rw [hfold, Outline.define_all d inside pairs hnodup]
  rfl

end LayeredConfig.Toml.Outline
