import Stencil.Console
import Stencil.Number.Numeral

/-!
# Command lines

The words of a command line are read from left to right. A word that is an option with an operand
takes the next word as its operand, whatever that is, and if there is no next word it is no option.
`-v` takes a name and leaves the next word, unless that is an option, to be the value. The one word
that is left over is the input.
-/

namespace Stencil

/-- What a command line asks for. -/
structure Options where
  /-- The template, or the path of its file. -/
  input? : Option Bytes := none
  outputFile : Bytes := []
  baseDirectory : Bytes := []
  /-- Variables as a JSON object. -/
  json : Bytes := []
  /-- The path of a file with such an object. -/
  jsonFile : Bytes := []
  /-- Variables by name and value, in the order in which they were given. -/
  definitions : List (Bytes × Bytes) := []
  /-- The input is the template itself. -/
  isString : Bool := false
  /-- Every step is reported. -/
  debug : Bool := false
  /-- The sections are listed and nothing is rendered. -/
  printSections : Bool := false
  maxDepth : Int := 5
  deriving DecidableEq, Repr

namespace Options

/-- What is wrong with a command line, or odd. -/
inductive Notice where
  | negativeDepth (word : Bytes)
  | unexpected (word : Bytes)
  | twoSources
  | inputRequired
  deriving DecidableEq, Repr

/-- The line that reports a notice. -/
def Notice.report : Notice → Bytes
  | negativeDepth word =>
    Console.line .warning
      [.words "Max depth ", .quote word, .words " is negative, nothing will be evaluated"]
  | unexpected word => Console.line .error [.words "Unexpected argument ", .quote word]
  | twoSources => Console.line .error [.words "-js and -jf can't be used together"]
  | inputRequired => Console.line .error [.words "Input value is required"]

/-! ## Words -/

/-- The options that take an operand. -/
inductive Setting where
  | output
  | base
  | depth
  | json
  | jsonFile
  | variable
  deriving DecidableEq, Repr

/-- The options that do not. -/
inductive Flag where
  | string
  | debug
  | sections
  deriving DecidableEq, Repr

def Setting.ofWord? (word : Bytes) : Option Setting :=
  let words : List (Bytes × Setting) :=
    [(Bytes.ofString "-o", .output), (Bytes.ofString "-b", .base), (Bytes.ofString "-m", .depth),
      (Bytes.ofString "-js", .json), (Bytes.ofString "-jf", .jsonFile),
      (Bytes.ofString "-v", .variable)]
  words.lookup word

def Flag.ofWord? (word : Bytes) : Option Flag :=
  let words : List (Bytes × Flag) :=
    [(Bytes.ofString "-s", .string), (Bytes.ofString "-d", .debug), (Bytes.ofString "-p", .sections)]
  words.lookup word

/-- The whole number at the front of a word, after blanks and a sign; zero if there is none. It is
cut to 64 bits and then to its low 32 bits. -/
def readDepth (word : Bytes) : Int :=
  let s := Bytes.trimStart word
  let negative := s.head? = some Ascii.minus
  let unsigned := if negative ∨ s.head? = some Ascii.plus then s.tail else s
  let n : Int := Numeral.natOfDigits (unsigned.takeWhile Ascii.isDigit)
  let clamped := max Int64.minValue.toInt (min (if negative then -n else n) Int64.maxValue.toInt)
  clamped.bmod UInt32.size

/-! ## Reading -/

/-- The options so far, and whether the next plain word is the value of the last variable. -/
structure Progress where
  options : Options := {}
  valueExpected : Bool := false
  deriving DecidableEq, Repr

/-- Takes an option with its operand. -/
def Progress.set (p : Progress) (operand : Bytes) : Setting → Progress
  | .output => ⟨{ p.options with outputFile := operand }, false⟩
  | .base => ⟨{ p.options with baseDirectory := operand }, false⟩
  | .depth => ⟨{ p.options with maxDepth := readDepth operand }, false⟩
  | .json => ⟨{ p.options with json := operand }, false⟩
  | .jsonFile => ⟨{ p.options with jsonFile := operand }, false⟩
  | .variable => ⟨{ p.options with definitions := p.options.definitions ++ [(operand, [])] }, true⟩

/-- What is odd about an option and its operand. -/
def noticesOf (operand : Bytes) : Setting → List Notice
  | .depth => if readDepth operand < 0 then [.negativeDepth operand] else []
  | _ => []

/-- Takes an option without an operand. -/
def Progress.flag (p : Progress) : Flag → Progress
  | .string => ⟨{ p.options with isString := true }, false⟩
  | .debug => ⟨{ p.options with debug := true }, false⟩
  | .sections => ⟨{ p.options with printSections := true }, false⟩

/-- The definitions with the value of the last one set. -/
def setLastValue (definitions : List (Bytes × Bytes)) (value : Bytes) : List (Bytes × Bytes) :=
  match definitions.getLast? with
  | some (name, _) => definitions.dropLast ++ [(name, value)]
  | none => []

/-- Takes a word that stands alone, if there is a place for it: an option without an operand, the
value of the last variable, or the input. -/
def Progress.word? (p : Progress) (word : Bytes) : Option Progress :=
  match Flag.ofWord? word with
  | some flag => some (p.flag flag)
  | none =>
    if p.valueExpected then
      some ⟨{ p.options with definitions := setLastValue p.options.definitions word }, false⟩
    else if p.options.input?.isNone then some ⟨{ p.options with input? := some word }, false⟩
    else none

/-- Reads words up to the first for which there is no place. -/
def readWords (p : Progress) : List Bytes → List Notice × Option Progress
  | [] => ([], some p)
  | [word] =>
    match p.word? word with
    | some p => ([], some p)
    | none => ([.unexpected word], none)
  | word :: operand :: rest =>
    match Setting.ofWord? word with
    | some setting =>
      let (notices, result) := readWords (p.set operand setting) rest
      (noticesOf operand setting ++ notices, result)
    | none =>
      match p.word? word with
      | some p => readWords p (operand :: rest)
      | none => ([.unexpected word], none)

theorem readWords_setting (p : Progress) {word : Bytes} {setting : Setting}
    (h : Setting.ofWord? word = some setting) (operand : Bytes) (rest : List Bytes) :
    readWords p (word :: operand :: rest) =
      (noticesOf operand setting ++ (readWords (p.set operand setting) rest).1,
        (readWords (p.set operand setting) rest).2) := by
  simp only [readWords, h]

theorem readWords_word {p q : Progress} {word : Bytes} (hsetting : Setting.ofWord? word = none)
    (hword : p.word? word = some q) (rest : List Bytes) :
    readWords p (word :: rest) = readWords q rest := by
  cases rest with
  | nil => simp only [readWords, hword]
  | cons operand rest => simp only [readWords, hsetting, hword]

/-- Reads a command line. Each of its words ends at its first NUL byte. -/
def read (words : List Bytes) : List Notice × Option Options :=
  match readWords {} (words.map Bytes.untilNul) with
  | (notices, none) => (notices, none)
  | (notices, some p) =>
    let o := p.options
    if !o.json.isEmpty ∧ !o.jsonFile.isEmpty then (notices ++ [.twoSources], none)
    else if o.input?.isNone then (notices ++ [.inputRequired], none)
    else (notices, some o)

end Options

end Stencil
