import Stencil.Comment
import Stencil.Tag

/-!
# Templates

A template is a row of pieces: runs of plain text, and tags. Two opening braces begin a tag, and the
first two closing braces outside of quotes end it; with a backslash in front two opening braces are
plain text. A tag that can open a block opens one if its closing tag follows anywhere behind it, and
the block reaches up to there, whatever stands in between.

`Piece.read` takes one piece off a source and loses nothing (`source_append_of_read`); `pieces` takes
all of them. `Template.parse` lays the pieces out: it gives each its place in the source and in the
text that the pieces show.
-/

namespace Stencil

open Ascii

/-- A piece of a template, with the bytes it was read from. -/
inductive Piece where
  | text (source : Bytes)
  | definition (source : Bytes) (d : Definition)
  | slot (source : Bytes) (s : Slot)
  deriving DecidableEq, Repr

namespace Piece

/-- Two opening braces. -/
def opener : Bytes := [openBrace, openBrace]

/-- Two closing braces. -/
def closer : Bytes := [closeBrace, closeBrace]

/-- Does a tag begin here? -/
def opensTag (s : Bytes) : Bool := opener.isPrefixOf s

/-! ## Plain text -/

/-- Splits off the plain text in front of the next tag. The first `hidden` bytes are plain text
whatever they are: two of them follow a backslash in front of an opener. -/
def splitText : (hidden : Nat) → Bytes → Bytes × Bytes
  | _, [] => ([], [])
  | n + 1, b :: rest =>
    let (before, after) := splitText n rest
    (b :: before, after)
  | 0, b :: rest =>
    if opensTag (b :: rest) then ([], b :: rest)
    else
      let hidden := if b = backslash ∧ opensTag rest then opener.length else 0
      let (before, after) := splitText hidden rest
      (b :: before, after)

/-- What plain text shows: the backslash in front of an opener is dropped, and the search goes on
behind that opener. -/
def showText : (hidden : Nat) → Bytes → Bytes
  | _, [] => []
  | n + 1, b :: rest => b :: showText n rest
  | 0, b :: rest =>
    if b = backslash ∧ opensTag rest then showText opener.length rest else b :: showText 0 rest

/-- The bytes a piece was read from. -/
def source : Piece → Bytes
  | text source => source
  | definition source _ => source
  | slot source _ => source

/-- What a piece leaves in the text of its document: a definition nothing, a slot all of itself. -/
def shown : Piece → Bytes
  | text source => showText 0 source
  | definition _ _ => []
  | slot source _ => source

/-! ## Tags -/

/-- Where the next byte of a tag stands: outside of quotes, inside, or inside behind a backslash. -/
inductive Quoting where
  | outside
  | inside (quote : UInt8)
  | hidden (quote : UInt8)
  deriving DecidableEq, Repr

/-- Where the byte after `b` stands. -/
def Quoting.next (b : UInt8) : Quoting → Quoting
  | outside => if isQuote b then inside b else outside
  | inside q => if b = backslash then hidden q else if b = q then outside else inside q
  | hidden q => inside q

/-- Splits at the two closing braces that end a tag: what stands before them and what follows. -/
def splitTag : Quoting → Bytes → Option (Bytes × Bytes)
  | _, [] => none
  | state, b :: rest =>
    if state = .outside ∧ closer.isPrefixOf (b :: rest) then some ([], rest.tail)
    else (splitTag (state.next b) rest).map fun (body, after) => (b :: body, after)

/-- The closing tag of a block. -/
def closingTag (name : Bytes) : Bytes := opener ++ slash :: name ++ closer

/-- The body of the block that a tag opens and what follows the block, if the tag opens one: it has no
mark, no operation and no unnamed entry, and a closing tag with its name follows. -/
def splitBlock? (s : Slot) (after : Bytes) : Option (Bytes × Bytes) :=
  if !s.raw ∧ s.operation = none ∧ s.params.all (!·.name.isEmpty) then
    Bytes.splitAround? (closingTag s.name) after
  else none

/-- A block's text: its body without the newline behind the opening tag and the one in front of the
closing tag. -/
def blockText (body : Bytes) : Bytes :=
  let body := if body.head? = some newline then body.tail else body
  if body.getLast? = some newline then body.dropLast else body

/-- What a tag and the source behind it make. -/
def ofTag (source after : Bytes) : Tag → Except Fault (Piece × Bytes)
  | .definition d => .ok (.definition source d, after)
  | .slot s =>
    match splitBlock? s after with
    | some (body, rest) =>
      let content := { kind := .text, value := .text (blockText body) }
      let whole := source ++ body ++ closingTag s.name
      .ok (.definition whole { name := s.name, content, params := s.params }, rest)
    | none => do
      Tag.requireLiterals s.name s.params
      return (.slot source s, after)

/-- The piece that begins with a tag, and the rest, from behind the tag's opening braces on. -/
def readTag (s : Bytes) : Except Fault (Piece × Bytes) :=
  match splitTag .outside s with
  | none => .error ⟨.unterminatedTag, .left (s.length + opener.length)⟩
  | some (body, after) =>
    match Tag.read body with
    | .error fault => .error (fault.followedBy (closer.length + after.length))
    | .ok tag => ofTag (opener ++ body ++ closer) after tag

/-! ## All pieces -/

/-- The first piece of a source, and the rest. -/
def read (s : Bytes) : Except Fault (Piece × Bytes) :=
  if opensTag s then readTag (s.drop opener.length)
  else
    let (before, after) := splitText 0 s
    .ok (.text before, after)

theorem append_splitText (n : Nat) (s : Bytes) : (splitText n s).1 ++ (splitText n s).2 = s := by
  fun_induction splitText n s <;> simp_all

theorem append_of_splitTag {state : Quoting} {s body after : Bytes}
    (h : splitTag state s = some (body, after)) : body ++ closer ++ after = s := by
  fun_induction splitTag state s generalizing body after with
  | case1 => simp at h
  | case2 state b rest hc =>
    obtain ⟨rfl, rfl⟩ : [] = body ∧ rest.tail = after := by simpa using h
    obtain ⟨t, ht⟩ := List.isPrefixOf_iff_prefix.mp hc.2
    simp only [closer, List.cons_append, List.nil_append, List.cons.injEq] at ht
    simp [closer, ← ht.1, ← ht.2]
  | case3 state b rest hc ih =>
    obtain ⟨⟨x, y⟩, hxy, he⟩ := Option.map_eq_some_iff.mp h
    obtain ⟨rfl, rfl⟩ : b :: x = body ∧ y = after := by simpa using he
    simpa using ih hxy

theorem append_of_splitBlock? {slot : Slot} {after body rest : Bytes}
    (h : splitBlock? slot after = some (body, rest)) :
    body ++ closingTag slot.name ++ rest = after := by
  unfold splitBlock? at h
  split at h
  · exact Bytes.append_of_splitAround? h
  · simp at h

/-- A piece made of a tag begins with the tag, and nothing of the source behind the tag is lost. -/
theorem source_of_ofTag {src after rest : Bytes} {t : Tag} {p : Piece}
    (h : ofTag src after t = .ok (p, rest)) : ∃ more, p.source = src ++ more ∧ more ++ rest = after := by
  cases t with
  | definition d =>
    obtain ⟨rfl, rfl⟩ : Piece.definition src d = p ∧ after = rest := by simpa [ofTag] using h
    exact ⟨[], by simp [source], rfl⟩
  | slot s =>
    simp only [ofTag] at h
    split at h
    · rename_i body rest' heq
      have happ := append_of_splitBlock? heq
      simp only [Except.ok.injEq, Prod.mk.injEq] at h
      obtain ⟨rfl, rfl⟩ := h
      exact ⟨body ++ closingTag s.name, by simp [source], happ⟩
    · obtain ⟨-, -, hr⟩ := Fault.bind_eq_ok.mp h
      obtain ⟨rfl, rfl⟩ : Piece.slot src s = p ∧ after = rest := by
        simpa [pure, Except.pure] using hr
      exact ⟨[], by simp [source], rfl⟩

/-- A piece that begins with a tag has the tag's braces in its source. -/
theorem source_of_readTag {s rest : Bytes} {p : Piece} (h : readTag s = .ok (p, rest)) :
    ∃ more, p.source = opener ++ more ∧ more ++ rest = s := by
  unfold readTag at h
  split at h
  · simp at h
  · rename_i body after hsplit
    have happ := append_of_splitTag hsplit
    split at h
    · simp at h
    · obtain ⟨more, hp, hrest⟩ := source_of_ofTag h
      exact ⟨body ++ closer ++ more, by simp [hp], by simp [← happ, ← hrest]⟩

/-- Reading a piece loses nothing. -/
theorem source_append_of_read {s rest : Bytes} {p : Piece} (h : read s = .ok (p, rest)) :
    p.source ++ rest = s := by
  unfold read at h
  split at h
  · rename_i ht
    obtain ⟨t, ht⟩ := List.isPrefixOf_iff_prefix.mp ht
    rw [← ht, List.drop_left] at h
    obtain ⟨more, hp, hrest⟩ := source_of_readTag h
    rw [hp, ← ht, ← hrest, List.append_assoc]
  · obtain ⟨rfl, rfl⟩ : _ = p ∧ _ = rest := by simpa using h
    exact append_splitText 0 s

/-- A piece is not empty, unless there is nothing to read. -/
theorem source_ne_nil_of_read {s rest : Bytes} {p : Piece} (hs : s ≠ [])
    (h : read s = .ok (p, rest)) : p.source ≠ [] := by
  unfold read at h
  split at h
  · obtain ⟨more, hp, -⟩ := source_of_readTag h
    simp [hp, opener]
  · rename_i ht
    obtain ⟨rfl, -⟩ : _ = p ∧ _ = rest := by simpa using h
    cases s with
    | nil => exact absurd rfl hs
    | cons b t => simp [source, splitText, ht]

theorem read_shorter {s rest : Bytes} {p : Piece} (hs : s ≠ []) (h : read s = .ok (p, rest)) :
    rest.length < s.length := by
  have h1 := congrArg List.length (source_append_of_read h)
  have h2 := List.length_pos_iff.mpr (source_ne_nil_of_read hs h)
  simp only [List.length_append] at h1
  omega

end Piece

namespace Template

/-- The pieces of a source, in order. -/
def pieces (source : Bytes) : Except Fault (List Piece) :=
  if _ : source = [] then .ok []
  else
    match _ : Piece.read source with
    | .error fault => .error fault
    | .ok (piece, rest) => do
      let more ← pieces rest
      return piece :: more
termination_by source.length
decreasing_by exact Piece.read_shorter ‹_› ‹_›

/-- The section of a piece that begins at the given places of the source and of the text. -/
def sectionAt (sourceAt textAt : Nat) (p : Piece) : Section :=
  let inText : Span := ⟨textAt, textAt + p.shown.length⟩
  match p with
  | .text _ => .text inText
  | .definition source d => .definition ⟨sourceAt, sourceAt + source.length⟩ d
  | .slot _ s => .slot inText s

/-- The sections of a row of pieces. -/
def sectionsFrom (sourceAt textAt : Nat) : List Piece → List Section
  | [] => []
  | p :: ps =>
    sectionAt sourceAt textAt p
      :: sectionsFrom (sourceAt + p.source.length) (textAt + p.shown.length) ps

/-- The document that a row of pieces makes. -/
def layout (ps : List Piece) : Document :=
  { text := ps.flatMap Piece.shown, sections := sectionsFrom 0 0 ps }

/-- The document of a source without comments. -/
def parse (source : Bytes) : Except Failure Document :=
  match pieces source with
  | .ok ps => .ok (layout ps)
  | .error fault => .error (fault.failure source.length)

end Template

end Stencil
