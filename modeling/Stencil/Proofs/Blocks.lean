import Mathlib.Data.List.DropRight
import Stencil.Proofs.Composition
import Stencil.Proofs.RoundTrip

/-!
# Blocks

A block is an opening tag that declares parameters, any bytes without the closing tag of the block, and
this closing tag. What stands in between is never looked at as a template: a closing tag does not begin
in there and end behind it, because it has no opening brace but its first two bytes
(`firstBehind_closingTag`), so that the first one behind the opening tag is the one that was written. The
main statement is `parse_block`: in front of any source that can be read, the block is one definition.
-/

namespace Stencil

open Ascii
open Bytes (trimStart FirstBehind)
open Piece (opener closer closingTag blockText)

/-- The document of a definition of so many bytes, with this one behind it. -/
def Document.behindDefinition (d : Document) (length : Nat) (f : Definition) : Document where
  text := d.text
  sections := .definition ⟨0, length⟩ f :: d.sections.map (Section.shift length 0)

theorem Template.layout_definition (source : Bytes) (f : Definition) (ps : List Piece) :
    layout (.definition source f :: ps) = (layout ps).behindDefinition source.length f := by
  have happend := layout_append [.definition source f] ps
  simpa [layout, Document.append, Document.behindDefinition, sectionsFrom, sectionAt, Piece.source,
    Piece.shown] using happend

namespace Spelling

open Tag (readLiteral)

/-! ## How blocks are written -/

/-- A string or a number in any form in which it can be read. -/
structure AnyLiteral where
  bytes : Bytes
  value : Value
  reads : readLiteral bytes = .ok (value, [])

/-- What stands behind a parameter with a default. -/
structure Default where
  beforeEquals : Blanks
  behindEquals : Blanks
  literal : AnyLiteral

def Default.write (d : Default) : Bytes :=
  d.beforeEquals.bytes ++ equals :: (d.behindEquals.bytes ++ d.literal.bytes)

/-- A parameter that a block declares, and the blanks on both sides of it. -/
structure Declaration where
  before : Blanks
  name : Name
  default : Option Default
  behind : Blanks

namespace Declaration

def write (d : Declaration) : Bytes :=
  d.before.bytes ++ d.name.bytes ++ d.default.elim [] Default.write ++ d.behind.bytes

/-- What is declared: a parameter with a default is not required, and one without is. -/
def param (d : Declaration) : Param :=
  match d.default with
  | none => { name := d.name.bytes, required := true }
  | some default => { name := d.name.bytes, value := default.literal.value }

end Declaration

/-- Parameters in parentheses, with blanks in front of either parenthesis. -/
structure Declarations where
  before : Blanks
  list : List Declaration
  inside : Blanks

namespace Declarations

def write (d : Declarations) : Bytes :=
  d.before.bytes ++ openParen :: (List.intercalate [comma] (d.list.map Declaration.write)
    ++ d.inside.bytes ++ [closeParen])

def params (d : Declarations) : List Param := d.list.map Declaration.param

end Declarations

/-- The opening tag of a block. One that declares nothing may do without parentheses. -/
structure Opening where
  before : Blanks
  name : Name
  declarations : Option Declarations
  behind : Blanks

namespace Opening

def params (o : Opening) : List Param := o.declarations.elim [] Declarations.params

/-- The bytes between the braces of the opening tag. -/
def body (o : Opening) : Bytes :=
  o.before.bytes ++ o.name.bytes ++ o.declarations.elim [] Declarations.write ++ o.behind.bytes

/-- A block with this between its tags. -/
def block (o : Opening) (content : Bytes) : Bytes :=
  opener ++ o.body ++ closer ++ content ++ closingTag o.name.bytes

/-- The definition of a text under the name of the block. -/
def definition (o : Opening) (text : Bytes) : Definition :=
  { name := o.name.bytes, content := { kind := .text, value := .text text }, params := o.params }

end Opening

/-! ## Declarations -/

theorem Default.trimStart_write (d : Default) (rest : Bytes) :
    trimStart (d.write ++ rest) = equals :: (d.behindEquals.bytes ++ (d.literal.bytes ++ rest)) := by
  rw [write, List.append_assoc, d.beforeEquals.trimStart_append, List.cons_append, List.append_assoc]
  exact trimStart_of_stops (.cons (by decide) _)

theorem Default.stops_append (d : Default) (rest : Bytes) : Stops isNameByte (d.write ++ rest) := by
  rw [write, List.append_assoc]
  exact d.beforeEquals.stops_append isNameByte_of_isBlank (.cons (by decide) _)

namespace Declaration

theorem trimStart_write (d : Declaration) (rest : Bytes) :
    trimStart (d.write ++ rest) =
      d.name.bytes ++ (d.default.elim [] Default.write ++ (d.behind.bytes ++ rest)) := by
  simp only [write, List.append_assoc, d.before.trimStart_append]
  exact trimStart_of_stops (d.name.stops_append _)

theorem hasEntry (d : Declaration) (rest : Bytes) : Tag.HasEntry (d.write ++ rest) := by
  have hname := d.name.startsName_append (d.default.elim [] Default.write ++ (d.behind.bytes ++ rest))
  rw [Tag.HasEntry, d.trimStart_write]
  generalize d.name.bytes ++ (d.default.elim [] Default.write ++ (d.behind.bytes ++ rest)) = s at hname
  cases s with
  | nil => cases hname
  | cons b s =>
    have hne : b ≠ closeParen := Tag.ne_of_startsName hname (by decide)
    simp [hne]

/-- A parameter without a default is its name, in front of the end of the entry. -/
theorem readEntry_of_name (name : Name) (behind : Blanks) {rest : Bytes} (h : EndsEntry rest) :
    Tag.readEntry (name.bytes ++ (behind.bytes ++ rest)) =
      .ok ({ name := name.bytes, required := true }, trimStart (behind.bytes ++ rest)) := by
  have hstops : Stops isNameByte (behind.bytes ++ rest) :=
    behind.stops_append isNameByte_of_isBlank (h.stops isNameByte_of_isBlank (by decide))
  have hname : Tag.readName (name.bytes ++ (behind.bytes ++ rest)) = _ := name.readName_append hstops
  have hne : (trimStart (Tag.readName (name.bytes ++ (behind.bytes ++ rest))).2).head? ≠ some equals := by
    rw [hname, behind.trimStart_append]
    rcases h with h | h
    all_goals
      rw [h]
      decide
  rw [Tag.readEntry_of_name (name.startsName_append _) hne, hname]

/-- The default of a parameter is the literal behind the equals sign. -/
theorem readEntry_of_default (name : Name) (d : Default) {rest : Bytes} (h : Stops inNumber rest) :
    Tag.readEntry (name.bytes ++ (d.write ++ rest)) =
      .ok ({ name := name.bytes, value := d.literal.value }, rest) := by
  have hname : Tag.readName (name.bytes ++ (d.write ++ rest)) = _ :=
    name.readName_append (d.stops_append rest)
  have hequals : (trimStart (Tag.readName (name.bytes ++ (d.write ++ rest))).2).head? = some equals := by
    rw [hname, d.trimStart_write]
    rfl
  rw [Tag.readEntry_of_default (name.startsName_append _) hequals, hname]
  simp only [d.trimStart_write, List.tail_cons, d.behindEquals.trimStart_append,
    trimStart_append_of_startsLiteral (exists_cons_of_readLiteral d.literal.reads),
    readLiteral_append d.literal.reads h]
  rfl

theorem readsEntry (d : Declaration) : ReadsEntry d.write d.param where
  hasEntry := d.hasEntry
  reads {rest} h := by
    rw [d.trimStart_write, param]
    cases d.default with
    | none =>
      refine ⟨_, readEntry_of_name d.name d.behind h, ?_⟩
      rw [d.behind.trimStart_append]
      exact List.dropWhile_idempotent _ rest
    | some default =>
      have hstops : Stops inNumber (d.behind.bytes ++ rest) :=
        d.behind.stops_append inNumber_of_isBlank (h.stops inNumber_of_isBlank (by decide))
      exact ⟨_, readEntry_of_default d.name default hstops, d.behind.trimStart_append rest⟩

theorem param_name (d : Declaration) : d.param.name = d.name.bytes := by
  rw [param]
  split <;> rfl

end Declaration

theorem Declarations.readsList (d : Declarations) : ReadsList d.write d.params :=
  readsList_write Declaration.readsEntry d.before d.list d.inside

/-! ## The opening tag -/

theorem Name.bytes_ne_nil (n : Name) : n.bytes ≠ [] := by
  intro h
  have hstarts := n.starts
  rw [h] at hstarts
  cases hstarts

namespace Opening

theorem body_eq (o : Opening) :
    o.body = slotBody o.before false o.name (o.declarations.elim [] Declarations.write) none o.behind := by
  simp [body, slotBody]

theorem read_body (o : Opening) :
    Tag.read o.body = .ok (.slot { name := o.name.bytes, params := o.params }) := by
  rw [o.body_eq]
  exact read_slotBody o.before false o.name (readsOptional_elim Declarations.readsList o.declarations)
    none o.behind

theorem canOpen (o : Opening) : Piece.CanOpen { name := o.name.bytes, params := o.params } := by
  refine ⟨rfl, rfl, List.all_eq_true.mpr fun p hp => ?_⟩
  cases hdeclarations : o.declarations with
  | none => simp [params, hdeclarations] at hp
  | some declarations =>
    simp only [params, hdeclarations, Option.elim, Declarations.params, List.mem_map] at hp
    obtain ⟨d, -, rfl⟩ := hp
    simpa [d.param_name] using d.name.bytes_ne_nil

end Opening

namespace Passes

theorem declaration (d : Declaration) : Passes d.write := by
  refine append (append (append (blanks d.before) (name d.name)) (elim (fun default => ?_) d.default))
    (blanks d.behind)
  exact append (blanks default.beforeEquals) (cons (by decide)
    (append (blanks default.behindEquals) (of_readLiteral default.literal.reads)))

theorem opening (o : Opening) : Passes o.body := by
  have hdeclarations (d : Declarations) : Passes d.write :=
    parenthesized declaration d.before d.list d.inside
  have hlist : Passes (o.declarations.elim [] Declarations.write) := elim hdeclarations o.declarations
  rw [o.body_eq]
  exact slotBody hlist o.before false o.name none o.behind

end Passes

/-! ## The closing tag -/

theorem openBrace_notMem_name (n : Name) : openBrace ∉ n.bytes := fun hmem =>
  absurd (List.all_eq_true.mp n.nameBytes openBrace hmem) (by decide)

/-- A closing tag that ends in the one that was written begins with it, or else it would have an opening
brace behind its first two bytes. -/
theorem firstBehind_closingTag {name : Name} {content : Bytes}
    (h : ¬closingTag name.bytes <:+: content) : FirstBehind (closingTag name.bytes) content := by
  have htag : closingTag name.bytes = openBrace :: openBrace :: slash :: (name.bytes ++ closer) := rfl
  have hne : openBrace ≠ slash ∧ openBrace ≠ closeBrace := by decide
  have hbrace : openBrace ∉ slash :: (name.bytes ++ closer) := by
    simp [openBrace_notMem_name name, closer, hne]
  intro x hx hne hprefix
  rcases x with _ | ⟨b, _ | ⟨c, x⟩⟩
  · exact hne rfl
  · rw [htag, List.singleton_append, List.cons_prefix_cons, List.cons_prefix_cons,
      List.cons_prefix_cons] at hprefix
    exact absurd hprefix.2.2.1 (by decide)
  · rw [htag, List.cons_append, List.cons_append, List.cons_prefix_cons, List.cons_prefix_cons] at hprefix
    obtain ⟨rfl, rfl, hprefix⟩ := hprefix
    have hinside := Bytes.prefix_of_append_cons hbrace hprefix
    have hwhole : closingTag name.bytes <+: openBrace :: openBrace :: x := by
      rw [htag, List.cons_prefix_cons, List.cons_prefix_cons]
      exact ⟨rfl, rfl, hinside⟩
    exact h (hwhole.isInfix.trans hx.isInfix)

/-! ## Newlines at the ends -/

theorem newline_notMem_closingTag (n : Name) : newline ∉ closingTag n.bytes := by
  have hname : newline ∉ n.bytes := fun hmem =>
    absurd (List.all_eq_true.mp n.nameBytes newline hmem) (by decide)
  have hne : newline ≠ openBrace ∧ newline ≠ slash ∧ newline ≠ closeBrace := by decide
  simp [closingTag, opener, closer, hname, hne]

theorem not_infix_newlines {name : Name} {content : Bytes} (h : ¬closingTag name.bytes <:+: content) :
    ¬closingTag name.bytes <:+: newline :: (content ++ [newline]) := by
  have hnil : ¬closingTag name.bytes <:+: [] := by simp [closingTag, opener]
  have hnewline := newline_notMem_closingTag name
  intro hinfix
  rcases Bytes.infix_append_cons (u := []) hnewline hinfix with hinfix | hinfix
  · exact hnil hinfix
  · exact (Bytes.infix_append_cons hnewline hinfix).elim h hnil

/-- A text is what stands between two tags, without a newline in front of it and without one behind it
if there are any. One newline alone stands in front. -/
def BetweenNewlines (content text : Bytes) : Prop :=
  ∃ front back, content = front ++ text ++ back ∧
    (front = [newline] ∨ front = [] ∧ content.head? ≠ some newline) ∧
    (back = [newline] ∨ back = [] ∧ text.getLast? ≠ some newline)

theorem betweenNewlines_blockText (content : Bytes) : BetweenNewlines content (blockText content) := by
  -- The newline at the end is looked for in what the one at the front leaves.
  have hback (s : Bytes) : ∃ back, s = (if s.getLast? = some newline then s.dropLast else s) ++ back ∧
      (back = [newline] ∨ back = [] ∧
        (if s.getLast? = some newline then s.dropLast else s).getLast? ≠ some newline) := by
    by_cases hlast : s.getLast? = some newline
    · rw [if_pos hlast]
      exact ⟨[newline], (List.dropLast_append_getLast? newline hlast).symm, .inl rfl⟩
    · rw [if_neg hlast]
      exact ⟨[], (List.append_nil s).symm, .inr ⟨rfl, hlast⟩⟩
  by_cases hhead : content.head? = some newline
  · obtain ⟨rest, rfl⟩ := List.head?_eq_some_iff.mp hhead
    obtain ⟨back, happend, hback⟩ := hback rest
    refine ⟨[newline], back, ?_, .inl rfl, ?_⟩
    · simpa [blockText] using happend
    · simpa [blockText] using hback
  · obtain ⟨back, happend, hback⟩ := hback content
    refine ⟨[], back, ?_, .inr ⟨rfl, hhead⟩, ?_⟩
    · simpa [blockText, hhead] using happend
    · simpa [blockText, hhead] using hback

theorem BetweenNewlines.eq_blockText {content text : Bytes} (h : BetweenNewlines content text) :
    blockText content = text := by
  obtain ⟨front, back, rfl, hfront, hback⟩ := h
  have hlast : (if (text ++ back).getLast? = some newline then (text ++ back).dropLast else text ++ back) =
      text := by
    rcases hback with rfl | ⟨rfl, hback⟩
    · simp
    · simp [hback]
  rcases hfront with rfl | ⟨rfl, hhead⟩
  · simpa [blockText] using hlast
  · rw [List.nil_append] at hhead ⊢
    simpa only [blockText, if_neg hhead] using hlast

theorem betweenNewlines_newlines (content : Bytes) :
    BetweenNewlines (newline :: (content ++ [newline])) content :=
  ⟨[newline], [newline], rfl, .inl rfl, .inl rfl⟩

/-! ## Blocks -/

theorem Opening.reads_block (o : Opening) {content : Bytes} (h : ¬closingTag o.name.bytes <:+: content)
    (rest : Bytes) :
    Piece.Reads (o.block content ++ rest)
      (.definition (o.block content) (o.definition (blockText content))) rest := by
  have hclosed : Piece.splitTag .outside (closer ++ (content ++ (closingTag o.name.bytes ++ rest))) =
      some ([], content ++ (closingTag o.name.bytes ++ rest)) := by simp [Piece.splitTag, closer]
  have hsplit := Passes.opening o _ _ _ hclosed
  have hblock : Piece.splitBlock? { name := o.name.bytes, params := o.params }
      (content ++ (closingTag o.name.bytes ++ rest)) = some (content, rest) :=
    Piece.splitBlock?_eq_some_iff.mpr ⟨o.canOpen, rfl, firstBehind_closingTag h⟩
  rw [List.append_nil, ← List.append_assoc] at hsplit
  have hreads := Piece.Reads.tag hsplit o.read_body (.block hblock)
  simpa only [block, definition, List.append_assoc] using hreads

/-- In front of a source the block is one more piece. -/
theorem Opening.splits_block_iff (o : Opening) {content : Bytes}
    (h : ¬closingTag o.name.bytes <:+: content) {rest : Bytes} {ps : List Piece} :
    Template.Splits (o.block content ++ rest) ps ↔
      ∃ more, Template.Splits rest more ∧
        ps = .definition (o.block content) (o.definition (blockText content)) :: more := by
  have hread := (o.reads_block h rest).read_eq
  constructor
  · intro hps
    cases hps with
    | cons hs hr hmore =>
      rw [hread] at hr
      cases hr
      exact ⟨_, hmore, rfl⟩
  · rintro ⟨more, hmore, rfl⟩
    exact .cons (by simp [block, opener]) hread hmore

theorem Opening.parse_block_iff (o : Opening) {content : Bytes}
    (h : ¬closingTag o.name.bytes <:+: content) {rest : Bytes} {d : Document} :
    Template.parse (o.block content ++ rest) = .ok d ↔
      ∃ behind, Template.parse rest = .ok behind ∧
        d = behind.behindDefinition (o.block content).length (o.definition (blockText content)) := by
  constructor
  · intro hd
    obtain ⟨ps, hps, rfl⟩ := Template.parse_eq_ok hd
    obtain ⟨more, hmore, rfl⟩ := (o.splits_block_iff h).mp hps
    exact ⟨_, Template.parse_of_splits hmore, Template.layout_definition _ _ more⟩
  · rintro ⟨behind, hbehind, rfl⟩
    obtain ⟨more, hmore, rfl⟩ := Template.parse_eq_ok hbehind
    rw [← Template.layout_definition]
    exact Template.parse_of_splits ((o.splits_block_iff h).mpr ⟨more, hmore, rfl⟩)

/-- A block can be read exactly if what follows it can. It is one definition, of what stands between
its tags without a newline at either end, so that what is put between two newlines is kept as it is. -/
theorem parse_block (o : Opening) {content : Bytes} (h : ¬closingTag o.name.bytes <:+: content)
    (rest : Bytes) :
    ((∃ d, Template.parse (o.block content ++ rest) = .ok d) ↔ ∃ d, Template.parse rest = .ok d) ∧
      (∃ text, BetweenNewlines content text) ∧
      ∀ d, Template.parse rest = .ok d →
        (∀ text, BetweenNewlines content text →
          Template.parse (o.block content ++ rest) =
            .ok (d.behindDefinition (o.block content).length (o.definition text))) ∧
          Template.parse (o.block (newline :: (content ++ [newline])) ++ rest) =
            .ok (d.behindDefinition (o.block (newline :: (content ++ [newline]))).length
              (o.definition content)) := by
  refine ⟨⟨?_, ?_⟩, ⟨_, betweenNewlines_blockText content⟩, fun d hd => ⟨fun text htext => ?_, ?_⟩⟩
  · rintro ⟨d, hd⟩
    obtain ⟨behind, hbehind, -⟩ := (o.parse_block_iff h).mp hd
    exact ⟨behind, hbehind⟩
  · rintro ⟨d, hd⟩
    exact ⟨_, (o.parse_block_iff h).mpr ⟨d, hd, rfl⟩⟩
  · rw [← htext.eq_blockText]
    exact (o.parse_block_iff h).mpr ⟨d, hd, rfl⟩
  · have hpadded := (o.parse_block_iff (not_infix_newlines h)).mpr ⟨d, hd, rfl⟩
    rwa [(betweenNewlines_newlines content).eq_blockText] at hpadded

/-- A parameter without a default and one with braces in its default, around a body of a newline, an
unfinished tag, an escaped opener and a quote. -/
theorem parse_block_of_unfinished_tag :
    ∃ o : Opening, o.body = Bytes.ofString "b(x, y = '\x7d\x7d')" ∧
      o.params =
        [{ name := Bytes.ofString "x", required := true },
          { name := Bytes.ofString "y", value := .text (Bytes.ofString "\x7d\x7d") }] ∧
      ¬closingTag o.name.bytes <:+: Bytes.ofString "\n\x7b\x7b/b \\\x7b\x7b'" ∧
      Template.parse (Bytes.ofString "c") =
        .ok { text := Bytes.ofString "c", sections := [.text ⟨0, 1⟩] } ∧
      Template.parse (o.block (Bytes.ofString "\n\x7b\x7b/b \\\x7b\x7b'") ++ Bytes.ofString "c") =
        .ok
          { text := Bytes.ofString "c",
            sections :=
              [.definition ⟨0, 34⟩ (o.definition (Bytes.ofString "\x7b\x7b/b \\\x7b\x7b'")),
                .text ⟨0, 1⟩] } := by
  let o : Opening :=
    { before := ⟨[], rfl⟩
      name := ⟨Bytes.ofString "b", by decide, by decide⟩
      declarations := some
        { before := ⟨[], rfl⟩
          list :=
            [{ before := ⟨[], rfl⟩, name := ⟨Bytes.ofString "x", by decide, by decide⟩, default := none,
               behind := ⟨[], rfl⟩ },
             { before := ⟨[space], rfl⟩, name := ⟨Bytes.ofString "y", by decide, by decide⟩,
               default := some
                 { beforeEquals := ⟨[space], rfl⟩, behindEquals := ⟨[space], rfl⟩,
                   literal := ⟨Bytes.ofString "'\x7d\x7d'", .text (Bytes.ofString "\x7d\x7d"), by decide⟩ },
               behind := ⟨[], rfl⟩ }]
          inside := ⟨[], rfl⟩ }
      behind := ⟨[], rfl⟩ }
  have hclosed : ¬closingTag o.name.bytes <:+: Bytes.ofString "\n\x7b\x7b/b \\\x7b\x7b'" := by decide
  have hrest : Template.parse (Bytes.ofString "c") =
      .ok { text := Bytes.ofString "c", sections := [.text ⟨0, 1⟩] } := by decide +kernel
  have htext : BetweenNewlines (Bytes.ofString "\n\x7b\x7b/b \\\x7b\x7b'")
      (Bytes.ofString "\x7b\x7b/b \\\x7b\x7b'") :=
    ⟨[newline], [], by decide, .inl rfl, .inr ⟨rfl, by decide⟩⟩
  exact ⟨o, by decide, by decide, hclosed, hrest, ((parse_block o hclosed _).2.2 _ hrest).1 _ htext⟩

end Spelling

end Stencil
