import Stencil.Section

/-!
# The outline of a document

Sections listed one to a line for a reader, each with its parameters indented below it. A NUL byte
ends whatever name or text it stands in.
-/

namespace Stencil

namespace Outline

/-- What a line at this level of indentation begins with. There is nothing to the left of level zero. -/
def indent (level : Int) : Bytes := List.replicate level.toNat Ascii.tab

/-- A text between quotes. -/
def quoted (s : Bytes) : Bytes := Ascii.doubleQuote :: s.untilNul ++ [Ascii.doubleQuote]

end Outline

/-- A span as a half-open interval. -/
def Span.outline (s : Span) : Bytes :=
  Bytes.ofString "[" ++ Bytes.ofNat s.start ++ Bytes.ofString ", " ++ Bytes.ofNat s.stop
    ++ Bytes.ofString ")"

/-- One line for a parameter or an argument. -/
def Param.outline (level : Int) (p : Param) : Bytes :=
  let value := match p.value with
    | .number x => x.write
    | .text s => Outline.quoted s
  let body :=
    if p.name.isEmpty then Bytes.ofString "Argument " ++ value
    else Bytes.ofString "Param " ++ p.name.untilNul
      ++ if p.required then Bytes.ofString " (required)" else Bytes.ofString " = " ++ value
  Outline.indent level ++ body ++ [Ascii.newline]

/-- The lines of a section. -/
def Section.outline (level : Int) (s : Section) : Bytes :=
  let head := Outline.indent level
  let params (ps : List Param) := ps.flatMap (Param.outline (level + 1))
  match s with
  | .text span => head ++ Bytes.ofString "Text " ++ span.outline ++ [Ascii.newline]
  | .definition span d =>
    let title := Bytes.ofString "Definition " ++ d.name.untilNul
    match d.content.kind with
    | .function =>
      head ++ title ++ Bytes.ofString " = " ++ d.content.value.textOnly.untilNul
        ++ Bytes.ofString "(...) " ++ span.outline ++ [Ascii.newline]
        ++ params d.content.params ++ params d.params
    | kind =>
      let word := if kind = .number then Kind.number else Kind.text
      head ++ title ++ Bytes.ofString " (" ++ word.write ++ Bytes.ofString ") " ++ span.outline
        ++ [Ascii.newline] ++ params d.params
  | .slot span s =>
    let mark := if s.raw then [Ascii.atSign] else []
    let operation := match s.operation with
      | none => []
      | some o => [Ascii.space, o.operator.symbol, Ascii.space] ++ o.operand.write
    head ++ Bytes.ofString "Slot " ++ mark ++ s.name.untilNul ++ [Ascii.space] ++ span.outline
      ++ operation ++ [Ascii.newline] ++ params s.params
  | .unknown code _ =>
    head ++ Bytes.ofString "Unknown section kind " ++ Bytes.ofNat code ++ [Ascii.newline]

end Stencil
