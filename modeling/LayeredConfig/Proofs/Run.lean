import LayeredConfig.Journal

/-!
# Runs of calls that may fail

A call takes a state to an answer or an error and to a new state, and a later call starts
where an earlier one ended, if that gave an answer. A call keeps a part of the state when
that part is the same afterwards, whether the call succeeds or fails.
-/

set_option autoImplicit false

namespace LayeredConfig

variable {ε σ τ α β : Type}

namespace Run

theorem eq_of_answer {r : α × σ} {a : α} (h : r.1 = a) : r = (a, r.2) := Prod.ext h rfl

theorem bind_apply (x : ExceptT ε (StateM σ) α) (f : α → ExceptT ε (StateM σ) β) (s : σ) :
    (x >>= f) s = match x s with
      | (.ok a, s') => f a s'
      | (.error e, s') => (.error e, s') := by
  change (ExceptT.bindCont f (x s).1) (x s).2 = _
  rcases x s with ⟨r | r, s'⟩ <;> rfl

theorem bind_of_ok {x : ExceptT ε (StateM σ) α} {f : α → ExceptT ε (StateM σ) β} {s mid : σ} {a : α}
    (h : x s = (.ok a, mid)) : (x >>= f) s = f a mid := by
  rw [bind_apply, h]

theorem bind_eq_ok {x : ExceptT ε (StateM σ) α} {f : α → ExceptT ε (StateM σ) β} {s s' : σ}
    {b : β} (h : (x >>= f) s = (.ok b, s')) :
    ∃ a mid, x s = (.ok a, mid) ∧ f a mid = (.ok b, s') := by
  rw [bind_apply] at h
  rcases hx : x s with ⟨r | a, mid⟩
  · rw [hx] at h; cases h
  · rw [hx] at h; exact ⟨a, mid, rfl, h⟩

theorem bind_eq_error {x : ExceptT ε (StateM σ) α} {f : α → ExceptT ε (StateM σ) β} {s s' : σ}
    {e : ε} (h : (x >>= f) s = (.error e, s')) :
    x s = (.error e, s') ∨ ∃ a mid, x s = (.ok a, mid) ∧ f a mid = (.error e, s') := by
  rw [bind_apply] at h
  rcases hx : x s with ⟨r | a, mid⟩
  · rw [hx] at h; cases h; exact .inl rfl
  · rw [hx] at h; exact .inr ⟨a, mid, rfl, h⟩

theorem state_of_map (x : ExceptT ε (StateM σ) α) (f : α → β) (s : σ) :
    ((x >>= fun a => pure (f a)) s).2 = (x s).2 := by
  rw [bind_apply]
  rcases x s with ⟨e | a, s'⟩
  · rfl
  · rfl

theorem error_of_map_iff {x : ExceptT ε (StateM σ) α} {f : α → β} {s : σ} {e : ε} :
    ((x >>= fun a => pure (f a)) s).1 = .error e ↔ (x s).1 = .error e := by
  rw [bind_apply]
  rcases x s with ⟨e' | a, s'⟩
  · exact ⟨fun h => congrArg _ (Except.error.inj h), fun h => congrArg _ (Except.error.inj h)⟩
  · exact ⟨fun h => (by cases h), fun h => (by cases h)⟩

theorem pure_apply (a : α) (s : σ) : (pure a : ExceptT ε (StateM σ) α) s = (.ok a, s) := rfl

theorem get_bind (f : σ → ExceptT ε (StateM σ) β) (s : σ) : (get >>= f) s = f s s := rfl

theorem tryCatch_apply (x : ExceptT ε (StateM σ) α) (f : ε → ExceptT ε (StateM σ) α) (s : σ) :
    (tryCatch x f) s = match x s with
      | (.ok a, s') => (.ok a, s')
      | (.error e, s') => f e s' := by
  change (match (x s).1 with
    | .ok a => (pure (.ok a) : StateM σ (Except ε α))
    | .error e => f e) (x s).2 = _
  rcases x s with ⟨r | r, s'⟩ <;> rfl

theorem answer_of_bind {x : Except ε α} {f : α → Except ε β} {b : β} (h : (x >>= f) = .ok b) :
    ∃ a, x = .ok a ∧ f a = .ok b := by
  rcases x with e | a
  · cases h
  · exact ⟨a, rfl, h⟩

theorem answer_of_map {x : Except ε α} {f : α → β} {b : β} (h : x.map f = .ok b) :
    ∃ a, x = .ok a ∧ f a = b := by
  rcases x with e | a
  · cases h
  · exact ⟨a, rfl, Except.ok.inj h⟩

theorem answer_of_mapError {x : Except ε α} {f : ε → τ} {a : α} (h : x.mapError f = .ok a) :
    x = .ok a := by
  rcases x with e | b
  · cases h
  · exact congrArg Except.ok (Except.ok.inj h)

theorem error_of_mapM {f : α → Except ε β} {items : List α} {e : ε}
    (h : items.mapM f = .error e) : ∃ a ∈ items, f a = .error e := by
  induction items with
  | nil => cases h
  | cons a items ih =>
    rw [List.mapM_cons] at h
    rcases ha : f a with fault | b
    · rw [ha] at h
      cases h
      exact ⟨a, List.mem_cons_self, ha⟩
    · rcases hrest : items.mapM f with fault | rest
      · rw [ha, hrest] at h
        cases h
        obtain ⟨a', ha', hfault⟩ := ih hrest
        exact ⟨a', List.mem_cons_of_mem _ ha', hfault⟩
      · rw [ha, hrest] at h
        cases h

theorem guard_eq_ok_iff {p : Prop} [Decidable p] {e : ε} {x : Except ε α} {a : α} :
    (if p then (Except.error e : Except ε Unit) >>= fun _ => x else x) = .ok a ↔
      ¬ p ∧ x = .ok a := by
  by_cases h : p
  · rw [if_pos h]
    exact ⟨fun h => (by cases h), fun h' => absurd h h'.1⟩
  · rw [if_neg h]
    exact ⟨fun hx => ⟨h, hx⟩, And.right⟩

theorem seq_eq_ok_iff {x : Except ε Unit} {y : Except ε α} {a : α} :
    (x >>= fun _ => y) = .ok a ↔ x = .ok () ∧ y = .ok a := by
  rcases x with e | u
  · exact ⟨fun h => (by cases h), fun h => (by cases h.1)⟩
  · exact ⟨fun h => ⟨rfl, h⟩, And.right⟩

theorem forM_eq_ok_iff (f : α → Except ε Unit) (items : List α) :
    items.forM f = .ok () ↔ ∀ a ∈ items, f a = .ok () := by
  induction items with
  | nil => exact ⟨fun _ a ha => (by cases ha), fun _ => rfl⟩
  | cons a items ih =>
    rw [List.forall_mem_cons, ← ih]
    exact seq_eq_ok_iff

theorem exists_of_isOk {x : Except ε α} (h : x.isOk = true) : ∃ a, x = .ok a := by
  rcases x with e | a
  · cases h
  · exact ⟨a, rfl⟩

/-- Calls that only look at the state give what their answers give. -/
theorem bind_looking {x : ExceptT ε (StateM σ) α} {f : α → ExceptT ε (StateM σ) β}
    {r : Except ε α} {g : α → Except ε β} {s : σ} (hx : x s = (r, s))
    (hf : ∀ a, f a s = (g a, s)) : (x >>= f) s = (r >>= g, s) := by
  rw [bind_apply, hx]
  rcases r with e | a
  · rfl
  · exact hf a

theorem mapM_looking {f : α → ExceptT ε (StateM σ) β} {g : α → Except ε β} {s : σ}
    (items : List α) (hf : ∀ a, f a s = (g a, s)) : items.mapM f s = (items.mapM g, s) := by
  induction items with
  | nil => rfl
  | cons a items ih =>
    rw [List.mapM_cons, List.mapM_cons]
    exact bind_looking (hf a) fun _ => bind_looking ih fun _ => rfl

theorem length_of_mapM {f : α → ExceptT ε (StateM σ) β} {items : List α} {answers : List β}
    {s s' : σ} (h : items.mapM f s = (.ok answers, s')) : answers.length = items.length := by
  induction items generalizing answers s with
  | nil =>
    cases h
    rfl
  | cons a items ih =>
    rw [List.mapM_cons] at h
    obtain ⟨first, mid, -, h⟩ := bind_eq_ok h
    obtain ⟨rest, mid', hrest, h⟩ := bind_eq_ok h
    cases h
    exact congrArg (· + 1) (ih hrest)

def Keeps (part : σ → τ) (x : ExceptT ε (StateM σ) α) : Prop := ∀ s, part (x s).2 = part s

variable {part : σ → τ}

theorem keeps_pure (a : α) : Keeps part (pure a : ExceptT ε (StateM σ) α) := fun _ => rfl

theorem keeps_throw (e : ε) : Keeps part (throw e : ExceptT ε (StateM σ) α) := fun _ => rfl

theorem keeps_mk (r : Except ε α) :
    Keeps part (ExceptT.mk (pure r) : ExceptT ε (StateM σ) α) := fun _ => rfl

theorem keeps_get : Keeps part (get : ExceptT ε (StateM σ) σ) := fun _ => rfl

theorem keeps_bind {x : ExceptT ε (StateM σ) α} {f : α → ExceptT ε (StateM σ) β}
    (hx : Keeps part x) (hf : ∀ a, Keeps part (f a)) : Keeps part (x >>= f) := by
  intro s
  rw [bind_apply]
  have h := hx s
  rcases hs : x s with ⟨r | a, mid⟩
  · rw [hs] at h; exact h
  · rw [hs] at h; exact (hf a mid).trans h

theorem keeps_mapM {f : α → ExceptT ε (StateM σ) β} (items : List α)
    (hf : ∀ a, Keeps part (f a)) : Keeps part (items.mapM f) := by
  induction items with
  | nil => exact keeps_pure []
  | cons a items ih =>
    rw [List.mapM_cons]
    exact keeps_bind (hf a) fun _ => keeps_bind ih fun _ => keeps_pure _

theorem Keeps.of_eq {x : ExceptT ε (StateM σ) α} (h : Keeps part x) {s s' : σ} {r : Except ε α}
    (he : x s = (r, s')) : part s' = part s := by
  have := h s
  rwa [he] at this

def Preserves (good : σ → Prop) (x : ExceptT ε (StateM σ) α) : Prop := ∀ s, good s → good (x s).2

variable {good : σ → Prop}

theorem preserves_pure (a : α) : Preserves good (pure a : ExceptT ε (StateM σ) α) :=
  fun _ h => h

theorem preserves_throw (e : ε) : Preserves good (throw e : ExceptT ε (StateM σ) α) :=
  fun _ h => h

theorem preserves_get : Preserves good (get : ExceptT ε (StateM σ) σ) := fun _ h => h

theorem preserves_bind {x : ExceptT ε (StateM σ) α} {f : α → ExceptT ε (StateM σ) β}
    (hx : Preserves good x) (hf : ∀ a, Preserves good (f a)) : Preserves good (x >>= f) := by
  intro s hs
  rw [bind_apply]
  have h := hx s hs
  rcases he : x s with ⟨r | a, mid⟩
  · rw [he] at h; exact h
  · rw [he] at h; exact hf a mid h

theorem preserves_mapM {f : α → ExceptT ε (StateM σ) β} (items : List α)
    (hf : ∀ a, Preserves good (f a)) : Preserves good (items.mapM f) := by
  induction items with
  | nil => exact preserves_pure []
  | cons a items ih =>
    rw [List.mapM_cons]
    exact preserves_bind (hf a) fun _ => preserves_bind ih fun _ => preserves_pure _

theorem preserves_tryCatch {x : ExceptT ε (StateM σ) α} {f : ε → ExceptT ε (StateM σ) α}
    (hx : Preserves good x) (hf : ∀ e, Preserves good (f e)) : Preserves good (tryCatch x f) := by
  intro s hs
  rw [tryCatch_apply]
  have h := hx s hs
  rcases he : x s with ⟨e | a, mid⟩
  · rw [he] at h; exact hf e mid h
  · rw [he] at h; exact h

def FailsSafely (good : σ → Prop) (x : ExceptT ε (StateM σ) α) : Prop :=
  ∀ s e s', good s → x s = (.error e, s') → good s'

theorem failsSafely_of_preserves {x : ExceptT ε (StateM σ) α} (h : Preserves good x) :
    FailsSafely good x := by
  intro s e s' hs hx
  have hgood := h s hs
  rwa [hx] at hgood

theorem failsSafely_pure (a : α) : FailsSafely good (pure a : ExceptT ε (StateM σ) α) :=
  failsSafely_of_preserves (preserves_pure a)

/-- First steps break nothing, and only the last ones have to fail safely. -/
theorem failsSafely_bind {x : ExceptT ε (StateM σ) α} {f : α → ExceptT ε (StateM σ) β}
    (hx : Preserves good x) (hf : ∀ a, FailsSafely good (f a)) : FailsSafely good (x >>= f) := by
  intro s e s' hs h
  rcases bind_eq_error h with hfails | ⟨a, mid, ha, hrest⟩
  · exact failsSafely_of_preserves hx s e s' hs hfails
  · have hmid := hx s hs
    rw [ha] at hmid
    exact hf a mid e s' hmid hrest

theorem failsSafely_map {x : ExceptT ε (StateM σ) α} (hx : FailsSafely good x) (g : α → β) :
    FailsSafely good (x >>= fun a => pure (g a)) := by
  intro s e s' hs h
  rcases bind_eq_error h with hfails | ⟨a, mid, -, hrest⟩
  · exact hx s e s' hs hfails
  · cases hrest

def BreaksOff (good : σ → Prop) (why : ε → Prop) (x : ExceptT ε (StateM σ) α) : Prop :=
  ∀ s, good s → good (x s).2 ∧ ∀ e, (x s).1 = .error e → why e

variable {why : ε → Prop}

theorem breaksOff_pure (a : α) : BreaksOff good why (pure a : ExceptT ε (StateM σ) α) :=
  fun _ h => ⟨h, fun _ he => by cases he⟩

theorem breaksOff_get : BreaksOff good why (get : ExceptT ε (StateM σ) σ) :=
  fun _ h => ⟨h, fun _ he => by cases he⟩

theorem breaksOff_throw {e : ε} (h : why e) :
    BreaksOff good why (throw e : ExceptT ε (StateM σ) α) := by
  refine fun s hs => ⟨hs, fun e' he => ?_⟩
  obtain rfl : e = e' := Except.error.inj he
  exact h

theorem breaksOff_mk {r : Except ε α} (h : ∀ e, r = .error e → why e) :
    BreaksOff good why (ExceptT.mk (pure r) : ExceptT ε (StateM σ) α) := fun _ hs => ⟨hs, h⟩

theorem breaksOff_bind {x : ExceptT ε (StateM σ) α} {f : α → ExceptT ε (StateM σ) β}
    (hx : BreaksOff good why x) (hf : ∀ a, BreaksOff good why (f a)) :
    BreaksOff good why (x >>= f) := by
  intro s hs
  obtain ⟨hmid, hwhy⟩ := hx s hs
  rw [bind_apply]
  rcases h : x s with ⟨e | a, mid⟩
  · rw [h] at hmid hwhy
    refine ⟨hmid, fun e' he => ?_⟩
    cases he
    exact hwhy e rfl
  · rw [h] at hmid
    exact hf a mid hmid

theorem breaksOff_mapM {f : α → ExceptT ε (StateM σ) β} (items : List α)
    (hf : ∀ a, BreaksOff good why (f a)) : BreaksOff good why (items.mapM f) := by
  induction items with
  | nil => exact breaksOff_pure []
  | cons a items ih =>
    rw [List.mapM_cons]
    exact breaksOff_bind (hf a) fun _ => breaksOff_bind ih fun _ => breaksOff_pure _

def Gives (right : α → Prop) (x : ExceptT ε (StateM σ) α) : Prop :=
  ∀ s a s', x s = (.ok a, s') → right a

variable {right : α → Prop}

theorem gives_pure {a : α} (h : right a) : Gives right (pure a : ExceptT ε (StateM σ) α) := by
  intro s a' s' hx
  cases hx
  exact h

theorem gives_throw (e : ε) : Gives right (throw e : ExceptT ε (StateM σ) α) :=
  fun _ _ _ hx => by cases hx

theorem gives_any (x : ExceptT ε (StateM σ) α) : Gives (fun _ => True) x := fun _ _ _ _ => trivial

theorem gives_bind {later : β → Prop} {x : ExceptT ε (StateM σ) α}
    {f : α → ExceptT ε (StateM σ) β} (hx : Gives right x)
    (hf : ∀ a, right a → Gives later (f a)) : Gives later (x >>= f) := by
  intro s b s' h
  obtain ⟨a, mid, ha, hrest⟩ := bind_eq_ok h
  exact hf a (hx s a mid ha) mid b s' hrest

def Alike (good : σ → Prop) (x y : ExceptT ε (StateM σ) α) : Prop :=
  ∀ s, good s → x s = y s ∧ good (x s).2

theorem alike_refl {x : ExceptT ε (StateM σ) α} (h : Preserves good x) : Alike good x x :=
  fun s hs => ⟨rfl, h s hs⟩

theorem alike_bind {x y : ExceptT ε (StateM σ) α} {f g : α → ExceptT ε (StateM σ) β}
    (hx : Alike good x y) (hf : ∀ a, Alike good (f a) (g a)) : Alike good (x >>= f) (y >>= g) := by
  intro s hs
  obtain ⟨hsame, hgood⟩ := hx s hs
  rw [bind_apply, bind_apply, ← hsame]
  rcases hr : x s with ⟨e | a, mid⟩
  · rw [hr] at hgood
    exact ⟨rfl, hgood⟩
  · rw [hr] at hgood
    exact hf a mid hgood

theorem alike_mapM {f g : α → ExceptT ε (StateM σ) β} (items : List α)
    (hf : ∀ a, Alike good (f a) (g a)) : Alike good (items.mapM f) (items.mapM g) := by
  induction items with
  | nil => exact alike_refl (preserves_pure [])
  | cons a items ih =>
    rw [List.mapM_cons, List.mapM_cons]
    exact alike_bind (hf a) fun _ => alike_bind ih fun _ => alike_refl (preserves_pure _)

def EndsAlike (failed : σ → σ → Prop) (after : α → β → σ → σ → Prop) :
    Except ε α × σ → Except ε β × σ → Prop
  | (.ok a, s), (.ok b, t) => after a b s t
  | (.error e, s), (.error e', t) => e = e' ∧ failed s t
  | _, _ => False

def Coupled (failed before : σ → σ → Prop) (after : α → β → σ → σ → Prop)
    (x : ExceptT ε (StateM σ) α) (y : ExceptT ε (StateM σ) β) : Prop :=
  ∀ s t, before s t → EndsAlike failed after (x s) (y t)

variable {γ δ : Type} {failed before : σ → σ → Prop}

theorem coupled_pure {after : α → β → σ → σ → Prop} {a : α} {b : β}
    (h : ∀ s t, before s t → after a b s t) :
    Coupled failed before after (pure a : ExceptT ε (StateM σ) α) (pure b) := h

theorem coupled_throw {after : α → β → σ → σ → Prop} (e : ε)
    (h : ∀ s t, before s t → failed s t) :
    Coupled failed before after (throw e : ExceptT ε (StateM σ) α) (throw e) :=
  fun s t hst => ⟨rfl, h s t hst⟩

theorem coupled_get {part : σ → σ → Prop} :
    Coupled failed part (fun a b s t => a = s ∧ b = t ∧ part s t)
      (get : ExceptT ε (StateM σ) σ) get := fun _ _ h => ⟨rfl, rfl, h⟩

/-- What is known of the answers so far can be used. -/
theorem coupled_of_fact {known : Prop} {after : α → β → σ → σ → Prop}
    {x : ExceptT ε (StateM σ) α} {y : ExceptT ε (StateM σ) β}
    (h : known → Coupled failed before after x y) :
    Coupled failed (fun s t => known ∧ before s t) after x y := fun s t hst => h hst.1 s t hst.2

theorem coupled_bind {mid : α → β → σ → σ → Prop} {after : γ → δ → σ → σ → Prop}
    {x : ExceptT ε (StateM σ) α} {y : ExceptT ε (StateM σ) β}
    {f : α → ExceptT ε (StateM σ) γ} {g : β → ExceptT ε (StateM σ) δ}
    (hx : Coupled failed before mid x y)
    (hf : ∀ a b, Coupled failed (mid a b) after (f a) (g b)) :
    Coupled failed before after (x >>= f) (y >>= g) := by
  intro s t h
  rw [bind_apply, bind_apply]
  have hmid := hx s t h
  rcases hxs : x s with ⟨e | a, s'⟩ <;> rcases hyt : y t with ⟨e' | b, t'⟩ <;>
    rw [hxs, hyt] at hmid
  · exact hmid
  · exact hmid.elim
  · exact hmid.elim
  · exact hf a b s' t' hmid

end Run

end LayeredConfig
