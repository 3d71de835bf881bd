import LayeredConfig.Decimal.Layout

/-!
# Dates and times

A date-time has a date, a time and an offset, of which a prefix or the middle
may stand alone: date, time, date and time, or all three. The text of a
date-time is canonical: `T` between date and time, at most nine places of a
second without trailing zeros, and `Z` or a signed offset. Readers differ in what
they take for a time; `TimeForm` says how.
-/

set_option autoImplicit false

namespace LayeredConfig.Toml

structure Date where
  year : Nat
  month : Nat
  day : Nat
  deriving DecidableEq, Repr

structure Time where
  hour : Nat
  minute : Nat
  second : Option Nat
  nanosecond : Option Nat
  deriving DecidableEq, Repr

inductive Offset where
  | utc
  | minutes (n : Int)
  deriving DecidableEq, Repr

structure DateTime where
  date : Option Date
  time : Option Time
  offset : Option Offset
  deriving DecidableEq, Repr

structure TimeForm where
  /-- May the seconds be left out? -/
  secondsOptional : Bool
  /-- Is a fraction of zero kept? -/
  keepsZeroFraction : Bool
  lastHour : Nat
  /-- The last hour, the last minute and the greatest number of minutes of an offset. -/
  lastOffset : Nat × Nat × Nat
  deriving DecidableEq, Repr

def number (cs : List Char) : Nat := cs.foldl (fun n c => 10 * n + (c.toNat - 48)) 0

def twoDigits? (low high : Nat) : List Char → Option (Nat × List Char)
  | a :: b :: rest =>
    let n := number [a, b]
    if a.isDigit && b.isDigit && low ≤ n && n ≤ high then some (n, rest) else none
  | _ => none

def skip? (c : Char) : List Char → Option (List Char)
  | d :: rest => if d = c then some rest else none
  | [] => none

def isLeapYear (year : Nat) : Bool := year % 4 == 0 && (year % 100 != 0 || year % 400 == 0)

def daysIn (year month : Nat) : Nat :=
  if month = 2 then (if isLeapYear year then 29 else 28)
  else if month = 4 ∨ month = 6 ∨ month = 9 ∨ month = 11 then 30 else 31

def date? (cs : List Char) : Option (Date × List Char) := do
  let (high, rest) ← twoDigits? 0 99 cs
  let (low, rest) ← twoDigits? 0 99 rest
  let (month, rest) ← twoDigits? 1 12 (← skip? '-' rest)
  let year := 100 * high + low
  let (day, rest) ← twoDigits? 1 (daysIn year month) (← skip? '-' rest)
  pure (⟨year, month, day⟩, rest)

/-- Places of a second; those after the ninth are dropped. -/
def nanoseconds? (form : TimeForm) : List Char → Option (Option Nat × List Char)
  | '.' :: rest =>
    let (places, rest) := rest.span Char.isDigit
    let n := number ((places ++ List.replicate 9 '0').take 9)
    if places.isEmpty then none
    else if n = 0 ∧ !form.keepsZeroFraction then some (none, rest)
    else some (some n, rest)
  | rest => some (none, rest)

def time? (form : TimeForm) (cs : List Char) : Option (Time × List Char) := do
  let (hour, rest) ← twoDigits? 0 form.lastHour cs
  let (minute, rest) ← twoDigits? 0 59 (← skip? ':' rest)
  match skip? ':' rest with
  | some rest =>
    let (second, rest) ← twoDigits? 0 60 rest
    let (nanosecond, rest) ← nanoseconds? form rest
    pure (⟨hour, minute, some second, nanosecond⟩, rest)
  | none => if form.secondsOptional then pure (⟨hour, minute, none, none⟩, rest) else none

def offset? (form : TimeForm) : List Char → Option (Option Offset)
  | [] => some none
  | ['Z'] | ['z'] => some (some .utc)
  | sign :: rest => do
    if sign ≠ '+' ∧ sign ≠ '-' then none
    let (lastHour, lastMinute, most) := form.lastOffset
    let (hour, rest) ← twoDigits? 0 lastHour rest
    let (minute, rest) ← twoDigits? 0 lastMinute (← skip? ':' rest)
    let n := 60 * hour + minute
    if !rest.isEmpty || most < n then none
    pure (some (.minutes (if sign = '-' then -(n : Int) else n)))

def DateTime.ofText? (form : TimeForm) (cs : List Char) : Option DateTime :=
  match date? cs with
  | some (date, []) => some ⟨some date, none, none⟩
  | some (date, mark :: rest) =>
    if mark = 'T' ∨ mark = 't' ∨ mark = ' ' then do
      let (time, rest) ← time? form rest
      let offset ← offset? form rest
      pure ⟨some date, some time, offset⟩
    else none
  | none => do
    let (time, rest) ← time? form cs
    if rest.isEmpty then pure ⟨none, some time, none⟩ else none

def padded (width n : Nat) : List Char :=
  let ds := Nat.toDigits 10 n
  Decimal.zeros (width - ds.length) ++ ds

def Date.text (d : Date) : List Char :=
  padded 4 d.year ++ '-' :: padded 2 d.month ++ '-' :: padded 2 d.day

def placesText (nanosecond : Nat) : List Char :=
  let places := ((padded 9 nanosecond).reverse.dropWhile (· == '0')).reverse
  if places.isEmpty then ['0'] else places

def Time.text (t : Time) : List Char :=
  let second := (t.second.map fun n => ':' :: padded 2 n).getD []
  let fraction := (t.nanosecond.map fun n => '.' :: placesText n).getD []
  padded 2 t.hour ++ ':' :: padded 2 t.minute ++ second ++ fraction

def Offset.text : Offset → List Char
  | .utc => ['Z']
  | .minutes n =>
    (if n < 0 then '-' else '+') :: padded 2 (n.natAbs / 60) ++ ':' :: padded 2 (n.natAbs % 60)

def DateTime.text (t : DateTime) : String :=
  let date := (t.date.map Date.text).getD []
  let time := (t.time.map Time.text).getD []
  let mark := if t.date.isSome && t.time.isSome then ['T'] else []
  String.ofList (date ++ mark ++ time ++ (t.offset.map Offset.text).getD [])

end LayeredConfig.Toml
