import LayeredConfig.Proofs.Document.Rewriting
import LayeredConfig.Proofs.Run
import LayeredConfig.Proofs.Sites.Decoding

/-!
# Registries of sites as they are written

A registry is written as a value that is read as the same registry, whatever the names and paths
in it are, as long as its ids fit a word. Registries that were read have such ids, and every edit
keeps them. None of the tables that are written for a registry has the date key.
-/

set_option autoImplicit false

namespace LayeredConfig

open Table (keys Sorted)

namespace Toml

variable {d : Dialect}

/-- Without the date key a table is no date-time, in whatever order it is printed. -/
theorem staysTable_of_not_mem {entries : List (String × Toml)} (h : dateKey ∉ keys entries)
    (inline : Bool) :
    staysTable d (if inline then entries else printOrder entries) = true := by
  have hstays : ∀ others : List (String × Toml),
      others.Perm entries → staysTable d others = true := by
    intro others hperm
    simp only [staysTable, Bool.or_eq_true, bne_iff_ne]
    refine .inr fun hhead => h ?_
    obtain ⟨e, he, hkey⟩ := Option.map_eq_some_iff.mp hhead
    rw [← hkey]
    exact List.mem_map_of_mem (hperm.mem_iff.mp (List.mem_of_mem_head? he))
  cases inline with
  | true => exact hstays entries (.refl _)
  | false => exact hstays (printOrder entries) (plain_headed_perm entries)

theorem ofItems?_map {α : Type} {write : α → Value} {table : α → Toml} (items : List α)
    (h : ∀ a ∈ items, ofValue? (write a) = some (table a)) :
    ofItems? (items.map write) = some (items.map table) := by
  induction items with
  | nil => rfl
  | cons a items ih =>
    rw [List.map_cons, ofItems?, h a (by simp), ih fun b hb => h b (by simp [hb])]
    rfl

theorem undatedItems_map {α : Type} {table : α → Toml} (inline : Bool) (items : List α)
    (h : ∀ a, undated d inline (table a) = true) :
    undatedItems d inline (items.map table) = true := by
  induction items with
  | nil => rfl
  | cons a items ih =>
    rw [List.map_cons, undatedItems, h a, ih]
    rfl

end Toml

theorem Value.wellFormedItems_map {α : Type} {write : α → Value} (items : List α)
    (h : ∀ a ∈ items, (write a).WellFormed) : Value.WellFormedItems (items.map write) := by
  induction items with
  | nil => trivial
  | cons a items ih => exact ⟨h a (by simp), ih fun b hb => h b (by simp [hb])⟩

namespace Application

open Toml (dateKey)

def table (a : Application) : Toml :=
  .table [("path", .string a.path), ("physical_path", .string a.physicalPath)]

theorem ofValue_toValue (a : Application) : ofValue a.toValue = a := rfl

theorem check_toValue (a : Application) : Schema.check schema a.toValue = .ok () := rfl

theorem ofValue?_toValue (a : Application) : Toml.ofValue? a.toValue = some a.table := rfl

theorem toValue_wellFormed (a : Application) : a.toValue.WellFormed := by
  have hsorted : ["path", "physical_path"].Pairwise (· < ·) := by decide +kernel
  exact ⟨hsorted, trivial, trivial, trivial⟩

theorem undated_table (d : Toml.Dialect) (inline : Bool) (a : Application) :
    Toml.undated d inline a.table = true := by
  simp only [table, Toml.undated, Toml.undatedEntries]
  rw [Toml.staysTable_of_not_mem (by simp [keys, dateKey])]
  rfl

end Application

theorem applicationsOf_toValue (applications : List Application) :
    applicationsOf (.arr (applications.map Application.toValue)) = some applications := by
  simp only [applicationsOf, Value.arr?, Option.map_some, List.map_map, Option.some_inj]
  exact List.map_id'' Application.ofValue_toValue applications

namespace Site

open Toml (dateKey)

variable {s : Site}

def table (s : Site) : Toml :=
  .table [("applications", .array (s.applications.map Application.table)), ("id", .integer s.id),
    ("name", .string s.name), ("physical_path", .string s.physicalPath),
    ("server_auto_start", .boolean s.autoStart)]

theorem ofValue_toValue (s : Site) : ofValue s.toValue = s := by
  obtain ⟨id, name, physicalPath, autoStart, applications⟩ := s
  exact congrArg (Site.mk id name physicalPath autoStart)
    (congrArg (Option.getD · []) (applicationsOf_toValue applications))

theorem check_toValue (h : Decimal.isInt64 s.id = true) :
    Schema.check schema s.toValue = .ok () := by
  have hitems : Schema.checkItems Application.schema
      (s.applications.map Application.toValue) = .ok () := by
    refine (Schema.checkItems_iff _ _).2 fun v hv => ?_
    obtain ⟨a, -, rfl⟩ := List.mem_map.mp hv
    exact a.check_toValue
  have hid : Schema.check .int64 (.int s.id) = .ok () := if_pos h
  refine (Schema.check_record_obj _ fields _).2 ⟨?_, rfl⟩
  change (do
    Schema.checkItems Application.schema (s.applications.map Application.toValue)
    Schema.check .int64 (.int s.id)
    .ok ()) = .ok ()
  rw [hitems, hid]
  rfl

theorem ofValue?_toValue (h : Decimal.isInt64 s.id = true) :
    Toml.ofValue? s.toValue = some s.table := by
  have hitems := Toml.ofItems?_map s.applications fun a _ => a.ofValue?_toValue
  simp only [toValue, Toml.ofValue?, Toml.ofMembers?, hitems, h]
  rfl

theorem toValue_wellFormed (h : Decimal.isInt64 s.id = true) : s.toValue.WellFormed := by
  have hsorted : ["applications", "id", "name", "physical_path", "server_auto_start"].Pairwise
      (· < ·) := by decide +kernel
  have hitems := Value.wellFormedItems_map s.applications fun a _ => a.toValue_wellFormed
  exact ⟨hsorted, hitems, Toml.isInt64_bounds s.id h, trivial, trivial, trivial, trivial⟩

theorem undated_table (d : Toml.Dialect) (inline : Bool) (s : Site) :
    Toml.undated d inline s.table = true := by
  have hitems := fun inline => Toml.undatedItems_map inline s.applications
    (Application.undated_table d inline)
  simp only [table, Toml.undated, Toml.undatedEntries, hitems]
  rw [Toml.staysTable_of_not_mem (by simp [keys, dateKey])]
  rfl

theorem id_of_check {v : Value} (h : Schema.check schema v = .ok ()) :
    Decimal.isInt64 (ofValue v).id = true := by
  have hfield : Schema.field? fields "id" = some (.required, .int64) := rfl
  simp only [ofValue]
  rcases Schema.check_fieldOf h hfield with hnull | hid
  · rw [hnull]
    rfl
  · generalize Schema.fieldOf fields v "id" = w at hid
    cases w with
    | int n =>
      rw [Schema.check] at hid
      split at hid
      · assumption
      · cases hid
    | _ => cases hid

end Site

namespace SitesM

variable {α : Type}

theorem answer_check (x : Except ConfigError Unit) (f : Unit → SitesM α) (s : Sites) :
    (check x >>= f).answer s = x >>= fun a => (f a).answer s := by
  rw [answer, Run.bind_apply, check]
  rcases x with e | a <;> rfl

theorem answer_guard (p : Prop) [Decidable p] (e : ConfigError) (x : SitesM α) (s : Sites) :
    answer (if p then (throw e : SitesM Unit) >>= fun _ => x else x) s =
      if p then (Except.error e : Except ConfigError Unit) >>= fun _ => x.answer s
      else x.answer s := by
  split <;> rfl

theorem answer_get (f : Sites → SitesM α) (s : Sites) : (get >>= f).answer s = (f s).answer s := rfl

end SitesM

namespace Sites

open Toml (dateKey)

def IdsFit (s : Sites) : Prop := ∀ site ∈ s.entries, Decimal.isInt64 site.id = true

instance (s : Sites) : Decidable s.IdsFit :=
  inferInstanceAs (Decidable (∀ site ∈ s.entries, Decimal.isInt64 site.id = true))

variable {s s' : Sites} {site : Site}

theorem idsFit_of_ofValue? {v : Value} (h : ofValue? v = .ok s) : s.IdsFit := by
  obtain ⟨hc, rfl⟩ := ofValue?_eq_ok.1 h
  have hfield : Schema.field? fields "entries" = some (.defaulted, .list Site.schema) := rfl
  intro site hsite
  obtain ⟨w, hw, rfl⟩ := List.mem_map.mp hsite
  apply Site.id_of_check
  rcases Schema.check_fieldOf hc hfield with hnull | hentries
  · rw [hnull] at hw
    cases hw
  · generalize Schema.fieldOf fields v "entries" = entries at hw hentries
    cases entries with
    | arr items => exact (Schema.checkItems_iff _ items).1 hentries w hw
    | _ => cases hentries

theorem nextId_fits (s : Sites) : Decimal.isInt64 s.nextId = true := by
  have hpos : 0 < Decimal.wordCount := by decide
  have hlow : -0x8000000000000000 ≤ s.nextId := Int.le_bmod hpos
  have hhigh : s.nextId < 0x8000000000000000 := Int.bmod_lt hpos
  exact Bool.and_eq_true_iff.2 ⟨decide_eq_true hlow, decide_eq_true hhigh⟩

theorem add_eq (s : Sites) (site : Site) : s.add site = (do
    site.validate
    if (s.find? site.id).isSome then .error (.alreadyExists (.siteId site.id))
    if s.entries.any (sameName ·.name site.name) then .error (.alreadyExists (.siteName site.name))
    pure ⟨s.entries ++ [site]⟩) := by
  rw [add, SitesM.add, SitesM.answer_check]
  rcases site.validate with e | valid
  · rfl
  · change ((get >>= _ : SitesM Unit).answer s).map Prod.snd = _
    rw [SitesM.answer_get]
    dsimp only
    rw [SitesM.answer_guard]
    split
    · rfl
    · rw [SitesM.answer_guard]
      split <;> rfl

theorem update_eq (s : Sites) (id : Int) (u : SiteUpdate) : s.update id u = (do
    match s.find? id with
    | none => .error (.notFound (.site id))
    | some old =>
      let site := u.apply old
      site.validate
      if s.entries.any fun other => other.id != id && sameName other.name site.name then
        .error (.alreadyExists (.siteName site.name))
      pure (site, ⟨replace id site s.entries⟩)) := by
  rw [update, SitesM.update, SitesM.answer_get]
  rcases s.find? id with _ | old
  · rfl
  · dsimp only
    rw [SitesM.answer_check]
    simp only [SitesM.answer_guard]
    rfl

theorem remove_eq (s : Sites) (id : Int) : s.remove id =
    match s.find? id with
    | none => .error (.notFound (.site id))
    | some site => .ok (site, ⟨s.entries.eraseP (·.id == id)⟩) := by
  rw [remove, SitesM.remove, SitesM.answer_get]
  rcases s.find? id <;> rfl

theorem add_eq_ok (h : s.add site = .ok s') : s' = ⟨s.entries ++ [site]⟩ := by
  simp only [add_eq, Run.seq_eq_ok_iff, Run.guard_eq_ok_iff] at h
  obtain ⟨-, -, -, h⟩ := h
  cases h
  rfl

theorem update_eq_ok {id : Int} {update : SiteUpdate} (h : s.update id update = .ok (site, s')) :
    ∃ old, s.find? id = some old ∧ site = update.apply old ∧
      s' = ⟨replace id site s.entries⟩ := by
  rw [update_eq] at h
  split at h
  · cases h
  · rename_i old hold
    simp only [Run.seq_eq_ok_iff, Run.guard_eq_ok_iff] at h
    obtain ⟨-, -, h⟩ := h
    cases h
    exact ⟨old, hold, rfl, rfl⟩

theorem mem_replace {id : Int} {entries : List Site} {other : Site}
    (h : other ∈ replace id site entries) : other = site ∨ other ∈ entries := by
  induction entries with
  | nil => cases h
  | cons first entries ih =>
    rw [replace] at h
    split at h
    · exact (List.mem_cons.mp h).imp_right fun hin => List.mem_cons_of_mem _ hin
    · rcases List.mem_cons.mp h with hfirst | hin
      · exact .inr (List.mem_cons.mpr (.inl hfirst))
      · exact (ih hin).imp_right fun hin => List.mem_cons_of_mem _ hin

theorem IdsFit.add (h : s.IdsFit) (hid : Decimal.isInt64 site.id = true)
    (ha : s.add site = .ok s') : s'.IdsFit := by
  rw [add_eq_ok ha]
  intro other hother
  rcases List.mem_append.mp hother with hold | hnew
  · exact h other hold
  · rw [List.mem_singleton.mp hnew]
    exact hid

theorem IdsFit.update (h : s.IdsFit) {id : Int} {update : SiteUpdate}
    (hu : s.update id update = .ok (site, s')) : s'.IdsFit := by
  obtain ⟨old, hold, rfl, rfl⟩ := update_eq_ok hu
  intro other hother
  rcases mem_replace hother with rfl | hin
  · exact h old (List.mem_of_find?_eq_some hold)
  · exact h other hin

theorem IdsFit.remove (h : s.IdsFit) {id : Int} (hr : s.remove id = .ok (site, s')) :
    s'.IdsFit := by
  rw [remove_eq] at hr
  split at hr
  · cases hr
  · cases hr
    exact fun other hother => h other (List.mem_of_mem_eraseP hother)

def table (s : Sites) : Toml := .table [("entries", .array (s.entries.map Site.table))]

theorem toValue_wellFormed (h : s.IdsFit) : s.toValue.WellFormed :=
  ⟨by simp [Sorted, keys],
    Value.wellFormedItems_map s.entries fun _ hs => Site.toValue_wellFormed (h _ hs),
    trivial⟩

theorem ofValue?_table (h : s.IdsFit) : Toml.ofValue? s.toValue = some s.table := by
  have hitems := Toml.ofItems?_map s.entries fun site hs => Site.ofValue?_toValue (h site hs)
  simp only [toValue, Toml.ofValue?, Toml.ofMembers?, hitems]
  rfl

theorem isUndated_toValue (h : s.IdsFit) : s.toValue.isUndated = true := by
  have hitems := fun inline => Toml.undatedItems_map inline s.entries
    (Site.undated_table LevelDocument.dialect inline)
  simp only [Value.isUndated, ofValue?_table h, table, Toml.undated, Toml.undatedEntries, hitems]
  exact (Bool.and_true _).trans (Toml.staysTable_of_not_mem (by simp [keys, dateKey]) false)

/-- A registry is read as it was written. -/
theorem ofValue?_toValue (h : s.IdsFit) : ofValue? s.toValue = .ok s := by
  have hitems : Schema.checkItems Site.schema (s.entries.map Site.toValue) = .ok () := by
    refine (Schema.checkItems_iff _ _).2 fun v hv => ?_
    obtain ⟨site, hsite, rfl⟩ := List.mem_map.mp hv
    exact Site.check_toValue (h site hsite)
  refine ofValue?_eq_ok.2 ⟨(Schema.check_record_obj _ fields _).2 ⟨?_, rfl⟩, ?_⟩
  · change (do
      Schema.checkItems Site.schema (s.entries.map Site.toValue)
      .ok ()) = .ok ()
    rw [hitems]
    rfl
  · obtain ⟨entries⟩ := s
    change Sites.mk ((entries.map Site.toValue).map Site.ofValue) = ⟨entries⟩
    rw [List.map_map]
    exact congrArg Sites.mk (List.map_id'' Site.ofValue_toValue entries)

end Sites

end LayeredConfig
