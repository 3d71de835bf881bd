import LayeredConfig.Decimal.Integer

/-!
# Paths of settings

A key of a layer may be a path: names joined by dots, each with any number of indexes in
brackets after it. An index below zero counts from the end.
-/

set_option autoImplicit false

namespace LayeredConfig

inductive KeyStep where
  | entry (name : String)
  | item (index : Int)
  deriving DecidableEq, Repr

abbrev KeyPath := List KeyStep

namespace KeyPath

def isNameChar (c : Char) : Bool := c.isAlphanum || c = '_' || c = '-'

def isGap (c : Char) : Bool := c = ' ' || c = '\t'

/-- The index that stands between brackets. Blanks around it do not count. -/
def index? (inside : List Char) : Option Int :=
  let text := ((inside.dropWhile isGap).reverse.dropWhile isGap).reverse
  if text.head? = some '+' then none else (Decimal.signedInteger? text).filter Decimal.isInt64

def steps? : List Char → Option KeyPath
  | [] => some []
  | '.' :: cs =>
    have : (cs.dropWhile isNameChar).length ≤ cs.length :=
      (List.dropWhile_suffix isNameChar).length_le
    let name := cs.takeWhile isNameChar
    if name.isEmpty then none
    else (steps? (cs.dropWhile isNameChar)).map (.entry (String.ofList name) :: ·)
  | '[' :: cs =>
    match h : cs.dropWhile (· != ']') with
    | [] => none
    | _ :: rest =>
      have : rest.length < cs.length := by
        have := (List.dropWhile_suffix (l := cs) (· != ']')).length_le
        rw [h] at this
        exact this
      match index? (cs.takeWhile (· != ']')), steps? rest with
      | some index, some steps => some (.item index :: steps)
      | _, _ => none
  | _ => none
termination_by cs => cs.length
decreasing_by all_goals (simp only [List.length_cons]; omega)

/-- The path that a key denotes. A key that is no path is a single name. -/
def ofKey (key : String) : KeyPath := (steps? ('.' :: key.toList)).getD [.entry key]

example : ofKey "a.b-1[ -2 ]" = [.entry "a", .entry "b-1", .item (-2)] := by decide +kernel
example : ofKey "a..b" = [.entry "a..b"] ∧ ofKey "[0]" = [.entry "[0]"] := by decide +kernel

end KeyPath

end LayeredConfig
