/-
  JackAnalyzer.Toml.Number — integers, floats, dates and times in TOML. A reader answers
  what follows the longest form that it can read, or nothing. Of a float and of a date or a
  time only that it is one is kept; a float too large for a finite one is none.
-/

namespace JackAnalyzer.Toml

/-- Digits, with single underscores between two of them. -/
def moreDigits (isDigit : Char → Bool) : List Char → List Char × List Char
  | [] => ([], [])
  | '_' :: c :: cs =>
    if isDigit c then
      let (ds, rest) := moreDigits isDigit cs
      (c :: ds, rest)
    else ([], '_' :: c :: cs)
  | c :: cs =>
    if isDigit c then
      let (ds, rest) := moreDigits isDigit cs
      (c :: ds, rest)
    else ([], c :: cs)

def digits? (isDigit : Char → Bool) : List Char → Option (List Char × List Char)
  | [] => none
  | c :: cs =>
    if isDigit c then
      let (ds, rest) := moreDigits isDigit cs
      some (c :: ds, rest)
    else none

/-- The value of digits in a base up to sixteen. -/
def valueIn (base : Nat) (ds : List Char) : Nat :=
  ds.foldl (fun n c => base * n + (if c.isDigit then c.toNat - 48 else c.toLower.toNat - 87)) 0

def sign : List Char → Bool × List Char
  | '-' :: cs => (true, cs)
  | '+' :: cs => (false, cs)
  | cs => (false, cs)

/-- Decimal digits that do not start with a zero, unless that is all. -/
def decimal? : List Char → Option (List Char × List Char)
  | '0' :: cs => some (['0'], cs)
  | cs => digits? Char.isDigit cs

/-! ## Integers -/

def isHexDigit (c : Char) : Bool := c.isDigit || ('a' ≤ c && c ≤ 'f') || ('A' ≤ c && c ≤ 'F')

def isOctalDigit (c : Char) : Bool := '0' ≤ c && c ≤ '7'

def isBinaryDigit (c : Char) : Bool := c = '0' || c = '1'

/-- An integer of 64 bits. The bases other than ten have a mark in front and no sign. -/
def integer? (cs : List Char) : Option (Int × List Char) := do
  let (n, rest) ←
    match cs with
    | '0' :: 'x' :: cs => (digits? isHexDigit cs).map fun (ds, rest) => (Int.ofNat (valueIn 16 ds), rest)
    | '0' :: 'o' :: cs => (digits? isOctalDigit cs).map fun (ds, rest) => (Int.ofNat (valueIn 8 ds), rest)
    | '0' :: 'b' :: cs => (digits? isBinaryDigit cs).map fun (ds, rest) => (Int.ofNat (valueIn 2 ds), rest)
    | cs =>
      let (minus, cs) := sign cs
      (decimal? cs).map fun (ds, rest) => (if minus then -Int.ofNat (valueIn 10 ds) else Int.ofNat (valueIn 10 ds), rest)
  if -9223372036854775808 ≤ n && n ≤ 9223372036854775807 then return (n, rest) else none

/-! ## Floats -/

/-- Whether the number that rounding to a double makes of `m * 10 ^ e` is infinite: it is
    from half a unit above the largest finite double on. -/
def isHuge (m : Nat) (e : Int) : Bool :=
  let size := (Nat.toDigits 10 m).length + e
  if m = 0 || size < 309 then false
  else if 309 < size then true
  else
    let bound := Nat.pow 2 1024 - Nat.pow 2 970
    if 0 ≤ e then bound ≤ m * Nat.pow 10 e.toNat else bound * Nat.pow 10 (-e).toNat ≤ m

def exponent? : List Char → Option (Int × List Char)
  | c :: cs =>
    if c = 'e' || c = 'E' then
      let (minus, cs) := sign cs
      (digits? Char.isDigit cs).map fun (ds, rest) => (if minus then -Int.ofNat (valueIn 10 ds) else Int.ofNat (valueIn 10 ds), rest)
    else none
  | [] => none

def fraction? : List Char → Option (List Char × List Char)
  | '.' :: cs => digits? Char.isDigit cs
  | _ => none

/-- A float has a fraction, an exponent or both, or is infinity or not a number by name. -/
def float? (cs : List Char) : Option (List Char) :=
  let (minus, cs) := sign cs
  match cs with
  | 'i' :: 'n' :: 'f' :: rest => some rest
  | 'n' :: 'a' :: 'n' :: rest => some rest
  | cs => do
    let (whole, cs) ← decimal? cs
    let (part, e, rest) ←
      match fraction? cs with
      | some (part, cs) => some (part, (exponent? cs).getD (0, cs))
      | none => (exponent? cs).map fun r => ([], r)
    if !minus && isHuge (valueIn 10 (whole ++ part)) (e - part.length) then none else return rest

/-! ## Dates and times -/

def number? (n : Nat) (cs : List Char) : Option (Nat × List Char) :=
  let ds := cs.take n
  if ds.length = n && ds.all Char.isDigit then some (valueIn 10 ds, cs.drop n) else none

def pair? (low high : Nat) (cs : List Char) : Option (Nat × List Char) := do
  let (n, rest) ← number? 2 cs
  if low ≤ n && n ≤ high then return (n, rest) else none

def char? (c : Char) : List Char → Option (List Char)
  | d :: cs => if d = c then some cs else none
  | [] => none

def isLeapYear (year : Nat) : Bool := year % 4 = 0 && (year % 100 ≠ 0 || year % 400 = 0)

def daysIn (year month : Nat) : Nat :=
  if month = 2 then (if isLeapYear year then 29 else 28)
  else if [4, 6, 9, 11].contains month then 30
  else 31

def date? (cs : List Char) : Option (List Char) := do
  let (year, cs) ← number? 4 cs
  let cs ← char? '-' cs
  let (month, cs) ← pair? 1 12 cs
  let cs ← char? '-' cs
  let (_, cs) ← pair? 1 (daysIn year month) cs
  return cs

/-- A time of day; the second of a leap is allowed, and any number of digits of a second. -/
def time? (cs : List Char) : Option (List Char) := do
  let (_, cs) ← pair? 0 23 cs
  let cs ← char? ':' cs
  let (_, cs) ← pair? 0 59 cs
  let cs ← char? ':' cs
  let (_, cs) ← pair? 0 60 cs
  match cs with
  | '.' :: d :: rest => if d.isDigit then return rest.dropWhile Char.isDigit else return cs
  | _ => return cs

def offset? : List Char → Option (List Char)
  | 'Z' :: cs => some cs
  | 'z' :: cs => some cs
  | c :: cs =>
    if c = '+' || c = '-' then do
      let (_, cs) ← pair? 0 23 cs
      let cs ← char? ':' cs
      let (_, cs) ← pair? 0 59 cs
      return cs
    else none
  | [] => none

def timeOfDate? : List Char → Option (List Char)
  | c :: cs =>
    if c = 'T' || c = 't' || c = ' ' then (time? cs).map fun cs => (offset? cs).getD cs
    else none
  | [] => none

def dateTime? (cs : List Char) : Option (List Char) :=
  match date? cs with
  | some rest => some ((timeOfDate? rest).getD rest)
  | none => time? cs

end JackAnalyzer.Toml
