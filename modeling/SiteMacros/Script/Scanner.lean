import SiteMacros.Script.Token
import SiteMacros.Text.Blank
import SiteMacros.Text.Digit
import SiteMacros.Text.Identifier
import SiteMacros.Text.Quoted
import SiteMacros.Text.Split

/-!
# Scanning tokens

A token is scanned from a place in the text, given by its offset and the
characters from there on: blanks and comments first, then the longest token. The
two angle brackets are always tokens of their own; where operators are expected
they are joined with what follows. The scans at the end are those that only the
grammar can ask for.

Offsets count bytes. A scan that runs over characters carries its offset along.
`skip` stands for characters that belong to an escape which has been read.
-/

namespace SiteMacros.Script.Scanner

open SiteMacros.Text

/-- What the blanks before a token are made of. -/
inductive BlankMode where
  | code
  | lineComment
  /-- Right after the slash of an opening comment mark. -/
  | opening
  | blockComment
  /-- Right after the star of a closing comment mark. -/
  | closing
  deriving DecidableEq

/-- Skip blanks and comments: the offset of what follows, whether a line ended on
the way, and what follows. A comment that does not end is a fault. -/
def skipBlanks (mode : BlankMode) (offset : Nat) (newLine : Bool) :
    List Char → Option (Nat × Bool × List Char)
  | [] => if mode = .code || mode = .lineComment then some (offset, newLine, []) else none
  | c :: cs =>
      let next := offset + c.utf8Size
      let ends := isLineTerminator c
      match mode with
      | .lineComment => skipBlanks (if ends then .code else .lineComment) next (newLine || ends) cs
      | .opening => skipBlanks .blockComment next newLine cs
      | .closing => skipBlanks .code next newLine cs
      | .blockComment =>
          let closes := c == '*' && cs.head? == some '/'
          skipBlanks (if closes then .closing else .blockComment) next (newLine || ends) cs
      | .code =>
          if ends then skipBlanks .code next true cs
          else if isSourceBlank c then skipBlanks .code next newLine cs
          else if c = '/' && cs.head? = some '/' then skipBlanks .lineComment next newLine cs
          else if c = '/' && cs.head? = some '*' then skipBlanks .opening next newLine cs
          else some (offset, newLine, c :: cs)

/-! ### Escapes -/

/-- The number that an escape after `\u` spells, and how many characters it
takes: four digits, or any number of them between braces. -/
def unicode? : List Char → Option (Nat × Nat)
  | '\x7b' :: cs => do
      let digits := cs.takeWhile fun c => (hexValue? c).isSome
      let n ← baseNumber? 16 digits
      if n < 0x110000 && cs[digits.length]? == some '\x7d' then some (n, digits.length + 2)
      else none
  | a :: b :: c :: d :: _ => (baseNumber? 16 [a, b, c, d]).map (·, 4)
  | _ => none

/-- Is it the first half of a pair that spells one character? -/
def isHigh (n : Nat) : Bool := 0xd800 ≤ n && n < 0xdc00

/-- Is it the second half of such a pair? -/
def isLow (n : Nat) : Bool := 0xdc00 ≤ n && n < 0xe000

/-- A half without the other, spelled out. -/
def loneHalf (n : Nat) : List Char :=
  ['\\', 'u', hexDigit (n / 4096 % 16), hexDigit (n / 256 % 16), hexDigit (n / 16 % 16),
    hexDigit (n % 16)]

/-- The second half that follows the first: its number. -/
def lowAfter? : List Char → Option Nat
  | '\\' :: 'u' :: a :: b :: c :: d :: _ =>
      match baseNumber? 16 [a, b, c, d] with
      | some n => if isLow n then some n else none
      | none => none
  | _ => none

/-- The character that a letter after a backslash stands for, if it is not the
letter itself. -/
def controlOf? : Char → Option Char
  | 'n' => some '\n'
  | 't' => some '\t'
  | 'r' => some '\r'
  | 'b' => some '\x08'
  | 'v' => some '\x0b'
  | 'f' => some '\x0c'
  | _ => none

/-- Is `c` a digit below eight? -/
def isOctal (c : Char) : Bool := '0' ≤ c && c ≤ '7'

/-- The octal digits after a backslash: up to three that stay below 256. -/
def octalDigits : List Char → List Char
  | a :: b :: c :: _ =>
      if isOctal a then
        if isOctal b then if isOctal c && a ≤ '3' then [a, b, c] else [a, b] else [a]
      else []
  | cs => cs.takeWhile isOctal

/-- An escape after its backslash: what it denotes and how many characters it
takes. A line break denotes nothing. In templates there are no octal escapes. -/
def escape? (inTemplate : Bool) (cs : List Char) : Option (List Char × Nat) :=
  match cs with
  | [] => none
  | 'u' :: rest => do
      let (n, used) ← unicode? rest
      if isHigh n then
        match lowAfter? (rest.drop used) with
        | some m =>
            if used = 4 then
              some ([Char.ofNat (0x10000 + (n - 0xd800) * 1024 + (m - 0xdc00))], used + 7)
            else some (loneHalf n, used + 1)
        | none => some (loneHalf n, used + 1)
      else if isLow n then some (loneHalf n, used + 1)
      else some ([Char.ofNat n], used + 1)
  | 'x' :: a :: b :: _ => (baseNumber? 16 [a, b]).map fun n => ([Char.ofNat n], 3)
  | 'x' :: _ => none
  | '\r' :: '\n' :: _ => some ([], 2)
  | c :: rest =>
      if isLineTerminator c then some ([], 1)
      else if c.isDigit then
        if c = '0' && !(rest.head?.any Char.isDigit) then some (['\x00'], 1)
        else if inTemplate then none
        else if isOctal c then
          let digits := octalDigits (c :: rest)
          (baseNumber? 8 digits).map fun n => ([Char.ofNat n], digits.length)
        else some ([c], 1)
      else some ([(controlOf? c).getD c], 1)

/-! ### Tokens -/

/-- The text after an opening quote up to the closing one: what it denotes, the
offset after it, and the rest. -/
def stringBody (quote : Char) (offset skip : Nat) :
    List Char → Option (List Char × Nat × List Char)
  | [] => none
  | c :: cs =>
      let next := offset + c.utf8Size
      match skip with
      | skip + 1 => stringBody quote next skip cs
      | 0 =>
          if c = quote then some ([], next, cs)
          else if c = '\\' then do
            let (value, used) ← escape? false cs
            let (text, offset, rest) ← stringBody quote next used cs
            return (value ++ text, offset, rest)
          else if c = '\n' || c = '\r' then none
          else (stringBody quote next 0 cs).map fun (text, offset, rest) => (c :: text, offset, rest)

structure TemplateChunk where
  /-- What it denotes, unless an escape in it denotes nothing. -/
  value : Option (List Char)
  ends : Bool
  offset : Nat
  rest : List Char

/-- The chunk with text in front. -/
def TemplateChunk.prepend (text : List Char) (t : TemplateChunk) : TemplateChunk :=
  { t with value := t.value.map (text ++ ·) }

/-- The text after a backtick or the end of a hole, up to the next of them. Every
line break denotes a line feed. -/
def templateBody (offset skip : Nat) : List Char → Option TemplateChunk
  | [] => none
  | c :: cs =>
      let next := offset + c.utf8Size
      match skip with
      | skip + 1 => templateBody next skip cs
      | 0 =>
          if c = '\x60' then some ⟨some [], true, next, cs⟩
          else if c = '$' && cs.head? = some '\x7b' then some ⟨some [], false, next + 1, cs.tail⟩
          else if c = '\\' then
            match escape? true cs with
            | some (value, used) => (templateBody next used cs).map (·.prepend value)
            | none => (templateBody next 1 cs).map fun t => { t with value := none }
          else if c = '\r' then
            (templateBody next (if cs.head? = some '\n' then 1 else 0) cs).map (·.prepend ['\n'])
          else (templateBody next 0 cs).map (·.prepend [c])

/-- A name: its characters, whether it is spelled with an escape, the offset after
it, and the rest. `first` says that nothing of it has been read. -/
def nameBody (first : Bool) (offset skip : Nat) :
    List Char → Option (List Char × Bool × Nat × List Char)
  | [] => if first then none else some ([], false, offset, [])
  | c :: cs =>
      let next := offset + c.utf8Size
      let fits (d : Char) : Bool := if first then isIdentifierStart d else isIdentifierPart d
      match skip with
      | skip + 1 => nameBody first next skip cs
      | 0 =>
          if c = '\\' then
            match cs with
            | 'u' :: digits => do
                let (n, used) ← unicode? digits
                if fits (Char.ofNat n) then
                  let (text, _, offset, rest) ← nameBody false next (used + 1) cs
                  return (Char.ofNat n :: text, true, offset, rest)
                else none
            | _ => none
          else if fits c then
            (nameBody false next 0 cs).map fun (text, escaped, offset, rest) =>
              (c :: text, escaped, offset, rest)
          else if first then none
          else some ([], false, offset, c :: cs)

/-- The length of the digits at the start of a text, with underscores only
between them; `none` if there are none. -/
def digitsLength? (isDigit : Char → Bool) (cs : List Char) : Option Nat :=
  let run := cs.takeWhile fun c => isDigit c || c == '_'
  (ungroup isDigit false run).map fun _ => run.length

/-- The length of an exponent; one that is not there has length zero. -/
def exponentLength? : List Char → Option Nat
  | e :: cs =>
      if e = 'e' || e = 'E' then
        match cs with
        | sign :: ds =>
            if sign = '+' || sign = '-' then (digitsLength? Char.isDigit ds).map (· + 2)
            else (digitsLength? Char.isDigit cs).map (· + 1)
        | [] => none
      else some 0
  | [] => some 0

/-- The length of a whole number of some base, with the mark of a big integer. -/
def basedLength? (isDigit : Char → Bool) (cs : List Char) : Option Nat :=
  (digitsLength? isDigit cs).map fun n => if cs[n]? == some 'n' then n + 3 else n + 2

/-- The length of a fraction after its dot, which may be empty. -/
def fractionLength? (cs : List Char) : Option Nat :=
  if cs.head?.any Char.isDigit then digitsLength? Char.isDigit cs else some 0

/-- The length of the number at the start of a text. -/
def numberLength? (cs : List Char) : Option Nat :=
  match cs with
  | '0' :: 'x' :: ds | '0' :: 'X' :: ds => basedLength? (fun c => (hexValue? c).isSome) ds
  | '0' :: 'o' :: ds | '0' :: 'O' :: ds => basedLength? isOctal ds
  | '0' :: 'b' :: ds | '0' :: 'B' :: ds => basedLength? (fun c => c == '0' || c == '1') ds
  | '.' :: ds => do
      let n ← digitsLength? Char.isDigit ds
      return n + 1 + (← exponentLength? (ds.drop n))
  | _ => do
      let n ← digitsLength? Char.isDigit cs
      match cs.drop n with
      | 'n' :: _ => return n + 1
      | '.' :: ds => do
          let m ← fractionLength? ds
          return n + 1 + m + (← exponentLength? (ds.drop m))
      | rest => return n + (← exponentLength? rest)

/-- The marks that are made of more than one character, the longer ones first. -/
def longMarks : List (List Char) :=
  ["...", "===", "!==", "**=", "&&=", "||=", "??=", "=>", "==", "!=", "++", "--", "**", "&&", "||",
    "??", "?.", "+=", "-=", "*=", "%=", "&=", "|=", "^=", "/="].map String.toList

def shortMarks : List Char :=
  "\x7b\x7d()[];,<>+-*/%&|^!~?:=.@".toList

/-- The mark at the start of a text. A question mark before a fraction stands
alone. -/
def mark? (cs : List Char) : Option String :=
  match cs with
  | [] => none
  | c :: rest =>
      if c = '?' && rest.head? = some '.' && (rest.tail.head?.any Char.isDigit) then some "?"
      else
        match longMarks.find? fun m => m.isPrefixOf cs with
        | some m => some (String.ofList m)
        | none => if shortMarks.contains c then some c.toString else none

/-- The lexeme at the start of a text that is neither empty nor blank, with the
offset after it and the rest. -/
def lexeme (offset : Nat) (cs : List Char) : Lexeme × Nat × List Char :=
  match cs with
  | [] => (.endOfText, offset, [])
  | c :: rest =>
      let invalid := (Lexeme.invalid, offset + c.utf8Size, rest)
      if c = '"' || c = '\'' then
        match stringBody c (offset + 1) 0 rest with
        | some (value, offset, rest) => (.string (String.ofList value), offset, rest)
        | none => invalid
      else if c = '\x60' then
        match templateBody (offset + 1) 0 rest with
        | some t => (.template (t.value.map String.ofList) t.ends, t.offset, t.rest)
        | none => invalid
      else if c = '#' then
        match nameBody true (offset + 1) 0 rest with
        | some (text, _, offset, rest) => (.privateName (String.ofList text), offset, rest)
        | none => invalid
      else if c.isDigit || (c = '.' && rest.head?.any Char.isDigit) then
        match numberLength? cs with
        | some n =>
            let rest := cs.drop n
            if rest.head?.any fun d => isIdentifierStart d || d.isDigit || d == '\\' then invalid
            else (.number, offset + n, rest)
        | none => invalid
      else if isIdentifierStart c || c = '\\' then
        match nameBody true offset 0 cs with
        | some (text, escaped, offset, rest) => (.name (String.ofList text) escaped, offset, rest)
        | none => invalid
      else
        match mark? cs with
        | some m => (.mark m, offset + m.length, cs.drop m.length)
        | none => invalid

/-- The next token from an offset on. -/
def scan (offset : Nat) (cs : List Char) : Token :=
  match skipBlanks .code offset false cs with
  | none => ⟨.invalid, offset, offset, false, cs, []⟩
  | some (start, newLine, here) =>
      let (what, stop, rest) := lexeme start here
      ⟨what, start, stop, newLine, here, rest⟩

/-- The first token of a text. A first line that starts with `#!` is a comment. -/
def first (cs : List Char) : Token :=
  match cs with
  | '#' :: '!' :: _ =>
      match skipBlanks .lineComment 0 false cs with
      | some (offset, _, rest) => scan offset rest
      | none => scan 0 cs
  | _ => scan 0 cs

/-! ### Scans that the grammar asks for -/

/-- The angle bracket at a token joined with what follows it to the longest
operator. -/
def joined (t : Token) : Token :=
  let operators :=
    if t.isMark ">" then [">>>=", ">>>", ">>=", ">>", ">=", ">"]
    else if t.isMark "<" then ["<<=", "<<", "<=", "<"]
    else []
  match operators.find? fun m => m.toList.isPrefixOf t.here with
  | some m => { t with lexeme := .mark m, stop := t.start + m.length, rest := t.here.drop m.length }
  | none => t

/-- The text after the slash that opens a regular expression, up to the one that
closes it: the offset after it and the rest. -/
def regexBody (inClass escaped : Bool) (offset : Nat) : List Char → Option (Nat × List Char)
  | [] => none
  | c :: cs =>
      let next := offset + c.utf8Size
      if isLineTerminator c then none
      else if escaped then regexBody inClass false next cs
      else if c = '\\' then regexBody inClass true next cs
      else if c = '[' then regexBody true false next cs
      else if c = ']' then regexBody false false next cs
      else if c = '/' && !inClass then some (next, cs)
      else regexBody inClass false next cs

/-- Are these the flags of a regular expression, each at most once? -/
def areFlags (cs : List Char) : Bool :=
  cs.all (fun c => "dgimsuvy".toList.contains c) && decide cs.Nodup

/-- The regular expression that starts with the slash at a token. -/
def regex? (t : Token) : Option Token := do
  let (offset, rest) ← regexBody false false (t.start + 1) t.here.tail
  let flags := rest.takeWhile isIdentifierPart
  if areFlags flags then
    return { t with
      lexeme := .regex
      stop := offset + flags.length
      rest := rest.drop flags.length }
  else none

/-- The template that goes on after the closing brace at a token. -/
def templateRest? (t : Token) : Option Token := do
  let chunk ← templateBody (t.start + 1) 0 t.here.tail
  return { t with
    lexeme := .template (chunk.value.map String.ofList) chunk.ends
    stop := chunk.offset
    rest := chunk.rest }

/-- The text between markup tags, up to a brace or an angle bracket: the offset
after it and the rest. A closing brace or bracket is a fault. -/
def markupText (offset : Nat) : List Char → Option (Nat × List Char)
  | [] => none
  | c :: cs =>
      if c = '\x7b' || c = '<' then some (offset, c :: cs)
      else if c = '\x7d' || c = '>' then none
      else markupText (offset + c.utf8Size) cs

/-- The name at a token with the hyphens that names of markup may have. -/
def markupName (t : Token) : Token :=
  match t.lexeme with
  | .name text _ =>
      let more := t.rest.takeWhile fun c => c == '-' || isIdentifierPart c
      if t.rest.head? = some '-' then
        { t with
          lexeme := .name (text ++ String.ofList more) true
          stop := t.stop + (String.ofList more).utf8ByteSize
          rest := t.rest.drop more.length }
      else t
  | _ => t

/-- The quoted text after an offset, in which nothing is escaped: the token of an
attribute's value. -/
def markupString? (offset : Nat) (cs : List Char) : Option Token :=
  match skipBlanks .code offset false cs with
  | some (start, newLine, quote :: rest) =>
      if (quote = '"' || quote = '\'') && rest.contains quote then
        let value := String.ofList (rest.takeWhile (· != quote))
        some ⟨.string value, start, start + value.utf8ByteSize + 2, newLine, quote :: rest,
          (rest.dropWhile (· != quote)).tail⟩
      else none
  | _ => none

end SiteMacros.Script.Scanner
