import SiteMacros.Text.Digit
import SiteMacros.Toml

/-!
# Strings, numbers and dates

Each reader takes the text from where a value starts and yields the value with
the text after it. A number or a date is read in two steps: the longest run of
characters that may belong to one, and then the question what the run spells.
-/

namespace SiteMacros.Toml

/-- May `c` stand in a comment or a quoted text as it is? Of the control
characters only the tab may. -/
def isPlain (c : Char) : Bool :=
  c == '\t' || (32 ≤ c.toNat && c.toNat != 127)

/-- Is `c` a blank within a line? -/
def isBlank (c : Char) : Bool :=
  c == ' ' || c == '\t'

/-- The character with a code point that hexadecimal digits spell. -/
def charOf? (digits : List Char) : Option Char := do
  let n ← Text.baseNumber? 16 digits
  if n < 0xd800 || (0xdfff < n && n < 0x110000) then some (Char.ofNat n) else none

/-- The character of an escape of one letter. -/
def escaped? : Char → Option Char
  | 'b' => some '\x08'
  | 't' => some '\t'
  | 'n' => some '\n'
  | 'f' => some '\x0c'
  | 'r' => some '\r'
  | 'e' => some '\x1b'
  | '"' => some '"'
  | '\\' => some '\\'
  | _ => none

/-- An escape after its backslash. -/
def escape? : List Char → Option (Char × List Char)
  | 'x' :: a :: b :: rest => (charOf? [a, b]).map (·, rest)
  | 'u' :: a :: b :: c :: d :: rest => (charOf? [a, b, c, d]).map (·, rest)
  | 'U' :: a :: b :: c :: d :: e :: f :: g :: h :: rest =>
      (charOf? [a, b, c, d, e, f, g, h]).map (·, rest)
  | c :: rest => (escaped? c).map (·, rest)
  | [] => none

/-- The number of characters that an escape takes after its backslash. -/
def escapeLength (cs : List Char) : Nat :=
  match cs with
  | 'x' :: _ => 3
  | 'u' :: _ => 5
  | 'U' :: _ => 9
  | _ => 1

/-- A text in double quotes, after the first. `skip` characters belong to an
escape that has been read. -/
def basic (skip : Nat) : List Char → Option (List Char × List Char)
  | [] => none
  | c :: cs =>
      match skip with
      | skip + 1 => basic skip cs
      | 0 =>
          if c = '"' then some ([], cs)
          else if c = '\\' then do
            let (e, _) ← escape? cs
            let (text, rest) ← basic (escapeLength cs) cs
            return (e :: text, rest)
          else if isPlain c then (basic 0 cs).map fun (text, rest) => (c :: text, rest)
          else none

/-- A text in single quotes, after the first. -/
def literal : List Char → Option (List Char × List Char)
  | [] => none
  | c :: cs =>
      if c = '\'' then some ([], cs)
      else if isPlain c then (literal cs).map fun (text, rest) => (c :: text, rest)
      else none

/-- What the next characters of a text over several lines are. -/
inductive LineMode where
  | text
  /-- After a backslash that a line break has to follow. -/
  | broken
  /-- Between that line break and the next character that is no blank. -/
  | joining
  deriving DecidableEq

/-- A text between three quotes of a kind, after the first three. Up to two
quotes may stand right before the last three. -/
def lines (quote : Char) (mode : LineMode) (skip : Nat) : List Char → Option (List Char × List Char)
  | [] => none
  | c :: cs =>
      match skip with
      | skip + 1 => lines quote mode skip cs
      | 0 =>
          if mode ≠ .text && isBlank c then lines quote mode 0 cs
          else if c = '\n' then
            match mode with
            | .text => (lines quote .text 0 cs).map fun (text, rest) => ('\n' :: text, rest)
            | _ => lines quote .joining 0 cs
          else if c = '\r' then
            if cs.head? ≠ some '\n' then none
            else
              match mode with
              | .text =>
                  (lines quote .text 1 cs).map fun (text, rest) => ('\r' :: '\n' :: text, rest)
              | _ => lines quote .joining 1 cs
          else if mode = .broken then none
          else if c = quote then
            let run := (cs.takeWhile (· == quote)).length
            if run < 2 then (lines quote .text 0 cs).map fun (text, rest) => (c :: text, rest)
            else
              let extra := min run 4 - 2
              some (List.replicate extra quote, cs.drop (2 + extra))
          else if c = '\\' && quote = '"' then
            if cs.head?.any fun d => isBlank d || d == '\n' || d == '\r' then
              lines quote .broken 0 cs
            else do
              let (e, _) ← escape? cs
              let (text, rest) ← lines quote .text (escapeLength cs) cs
              return (e :: text, rest)
          else if isPlain c then
            (lines quote .text 0 cs).map fun (text, rest) => (c :: text, rest)
          else none

/-- A text over several lines, after its first three quotes; a line break right
after them does not count. -/
def block (quote : Char) : List Char → Option (List Char × List Char)
  | '\n' :: cs | '\r' :: '\n' :: cs => lines quote .text 0 cs
  | cs => lines quote .text 0 cs

/-- Is it a whole number without needless zeros in front? -/
def isCanonical : List Char → Bool
  | ['0'] => true
  | '0' :: _ => false
  | _ => true

/-- A sign and what follows it. -/
def signed : List Char → Bool × List Char
  | '-' :: cs => (true, cs)
  | '+' :: cs => (false, cs)
  | cs => (false, cs)

/-- A run as an integer. -/
def integer? (run : List Char) : Option Int :=
  match run with
  | '0' :: 'x' :: ds => (Text.ungroup Char.isAlphanum false ds >>= Text.baseNumber? 16).map Int.ofNat
  | '0' :: 'o' :: ds => (Text.ungroup Char.isAlphanum false ds >>= Text.baseNumber? 8).map Int.ofNat
  | '0' :: 'b' :: ds => (Text.ungroup Char.isAlphanum false ds >>= Text.baseNumber? 2).map Int.ofNat
  | _ =>
      let (negative, ds) := signed run
      match Text.ungroup Char.isDigit false ds with
      | some digits =>
          if isCanonical digits then
            (Text.number? digits).map fun n => if negative then -Int.ofNat n else Int.ofNat n
          else none
      | none => none

/-- Is the run a floating-point number? It has a fraction or an exponent. -/
def isFloat (run : List Char) : Bool :=
  let (_, body) := signed run
  if body = ['i', 'n', 'f'] || body = ['n', 'a', 'n'] then true
  else
    let mantissa := body.takeWhile fun c => c != 'e' && c != 'E'
    let whole := mantissa.takeWhile (· != '.')
    let fraction := mantissa.dropWhile (· != '.')
    let exponent := body.dropWhile fun c => c != 'e' && c != 'E'
    let digits? (cs : List Char) := Text.ungroup Char.isDigit false cs
    (match digits? whole with
      | some ds => isCanonical ds
      | none => false) &&
    (fraction.isEmpty || (digits? fraction.tail).isSome) &&
    (exponent.isEmpty || (digits? (signed exponent.tail).2).isSome) &&
    !(fraction.isEmpty && exponent.isEmpty)

/-- Two digits as a number from `low` to `high`. -/
def twoDigits? (low high : Nat) (a b : Char) : Option Nat := do
  let n ← Text.number? [a, b]
  if low ≤ n && n ≤ high then some n else none

/-- The number of days in a month. -/
def daysIn (year month : Nat) : Nat :=
  if month = 2 then
    if year % 4 = 0 && (year % 100 ≠ 0 || year % 400 = 0) then 29 else 28
  else if month = 4 || month = 6 || month = 9 || month = 11 then 30
  else 31

/-- What follows a date at the start of a run. -/
def date? : List Char → Option (List Char)
  | y1 :: y2 :: y3 :: y4 :: '-' :: m1 :: m2 :: '-' :: d1 :: d2 :: rest => do
      let year ← Text.number? [y1, y2, y3, y4]
      let month ← twoDigits? 1 12 m1 m2
      let _ ← twoDigits? 1 (daysIn year month) d1 d2
      return rest
  | _ => none

/-- What follows a time at the start of a run. Seconds may be left out. -/
def time? : List Char → Option (List Char)
  | h1 :: h2 :: ':' :: m1 :: m2 :: rest => do
      let _ ← twoDigits? 0 23 h1 h2
      let _ ← twoDigits? 0 59 m1 m2
      match rest with
      | ':' :: s1 :: s2 :: rest => do
          let _ ← twoDigits? 0 60 s1 s2
          match rest with
          | '.' :: c :: rest => if c.isDigit then return rest.dropWhile Char.isDigit else none
          | '.' :: [] => none
          | rest => return rest
      | ':' :: _ => none
      | rest => return rest
  | _ => none

/-- Is it the offset of a time zone? -/
def isOffset : List Char → Bool
  | ['Z'] | ['z'] => true
  | [sign, h1, h2, ':', m1, m2] =>
      (sign == '+' || sign == '-') && (twoDigits? 0 23 h1 h2).isSome && (twoDigits? 0 59 m1 m2).isSome
  | _ => false

/-- Is the run a date, a time, or both? -/
def isDateTime (run : List Char) : Bool :=
  match date? run with
  | some [] => true
  | some (c :: rest) =>
      (c == 'T' || c == 't' || c == ' ') &&
        match time? rest with
        | some zone => zone.isEmpty || isOffset zone
        | none => false
  | none => time? run == some []

/-- May `c` belong to a number, a date or a word? -/
def isRunChar (c : Char) : Bool :=
  c.isAlphanum || c == '_' || c == '-' || c == '+' || c == '.' || c == ':'

/-- A number, a date or a truth value. A blank may stand between a date and a
time. -/
def word (cs : List Char) : Option (Toml × List Char) :=
  let run := cs.takeWhile isRunChar
  let rest := cs.dropWhile isRunChar
  match date? run, rest with
  | some [], ' ' :: d :: rest' =>
      if d.isDigit then
        let full := run ++ ' ' :: d :: rest'.takeWhile isRunChar
        if isDateTime full then some (.dateTime (String.ofList full), rest'.dropWhile isRunChar)
        else none
      else some (.dateTime (String.ofList run), rest)
  | _, _ =>
      if run = ['t', 'r', 'u', 'e'] then some (.boolean true, rest)
      else if run = ['f', 'a', 'l', 's', 'e'] then some (.boolean false, rest)
      else
        match integer? run with
        | some n => some (.integer n, rest)
        | none =>
            if isFloat run then some (.float (String.ofList run), rest)
            else if isDateTime run then some (.dateTime (String.ofList run), rest)
            else none

end SiteMacros.Toml
