/-!
# Tables in key order

A table is a list of keyed entries in strictly increasing key order, so equal
tables are equal lists and a listing is already sorted. Keys are compared by
code points, which is also their order as UTF-8 bytes. The lookup laws
`get?_insert` and `get?_erase` say what each update does to the view `get?`.
-/

set_option autoImplicit false

namespace LayeredConfig

abbrev Table (α : Type) := List (String × α)

namespace Table

variable {α : Type}

def get? : Table α → String → Option α
  | [], _ => none
  | (k, v) :: rest, key => if k = key then some v else get? rest key

def contains (t : Table α) (key : String) : Bool := (get? t key).isSome

def insert : Table α → String → α → Table α
  | [], key, value => [(key, value)]
  | (k, v) :: rest, key, value =>
    if k = key then (key, value) :: rest
    else if key < k then (key, value) :: (k, v) :: rest
    else (k, v) :: insert rest key value

def erase : Table α → String → Table α
  | [], _ => []
  | (k, v) :: rest, key => if k = key then erase rest key else (k, v) :: erase rest key

/-- A later entry with the same key replaces an earlier one. -/
def ofList (entries : List (String × α)) : Table α :=
  entries.foldl (fun t e => insert t e.1 e.2) []

def keys (t : Table α) : List String := t.map (·.1)

def Sorted (t : Table α) : Prop := (keys t).Pairwise (· < ·)

theorem get?_insert (t : Table α) (key k : String) (value : α) :
    get? (insert t key value) k = if key = k then some value else get? t k := by
  induction t with
  | nil => simp [insert, get?]
  | cons e rest ih =>
    obtain ⟨k', v'⟩ := e
    unfold insert
    split
    · rename_i h; subst h; simp only [get?]; split <;> rfl
    · split
      · simp only [get?]
      · simp only [get?, ih]
        grind

theorem get?_erase (t : Table α) (key k : String) :
    get? (erase t key) k = if key = k then none else get? t k := by
  induction t with
  | nil => simp [erase, get?]
  | cons e rest ih =>
    obtain ⟨k', v'⟩ := e
    unfold erase
    split
    · rename_i h; subst h; simp only [ih, get?]; split <;> rfl
    · simp only [get?, ih]
      grind

end Table

end LayeredConfig
