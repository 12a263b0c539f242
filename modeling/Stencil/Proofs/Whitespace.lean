import Stencil.Proofs.TokenRows

/-!
# Blanks between tokens

Two texts with the same tokens are read alike (`Alike`): literals (`readLiteral_alike`), entries, lists,
contents and operations, and with them slots and definitions. The one place where no blanks are skipped is
behind the mark of a raw slot (`SpacedMark`); apart from it the tags are the same (`read_alike`), and with
blanks there the tag is refused (`read_of_spacedMark`). So blanks between tokens make no difference to a
template of one tag, unless they are behind its mark. The main statement is `parse_alike`.
-/

namespace Stencil

open Ascii
open Bytes (trimStart)
open Piece (opener closer)
open Spelling (Blanks Name Passes)

/-- Two readings come out alike: both fail, or what they give goes together. -/
inductive Alike {ε α : Type} (R : α → α → Prop) : Except ε α → Except ε α → Prop
  | ok {a a' : α} (h : R a a') : Alike R (.ok a) (.ok a')
  | error (fault fault' : ε) : Alike R (.error fault) (.error fault')

namespace Alike

variable {ε α β : Type} {R : α → α → Prop} {Q : β → β → Prop} {x x' : Except ε α}

theorem refl (x : Except ε α) : Alike Eq x x := by
  cases x with
  | ok a => exact .ok rfl
  | error fault => exact .error fault fault

theorem exists_ok {a : α} (h : Alike R (.ok a) x') : ∃ a', x' = .ok a' ∧ R a a' := by
  cases h with
  | ok h => exact ⟨_, rfl, h⟩

theorem exists_error {fault : ε} (h : Alike R (.error fault) x') : ∃ fault', x' = .error fault' := by
  cases h with
  | error => exact ⟨_, rfl⟩

theorem bind {f f' : α → Except ε β} (h : Alike R x x') (hf : ∀ a a', R a a' → Alike Q (f a) (f' a')) :
    Alike Q (x >>= f) (x' >>= f') := by
  cases h with
  | ok h => exact hf _ _ h
  | error fault fault' => exact .error fault fault'

end Alike

namespace Tag

/-- The same was read, and the same tokens are left. -/
def Behind {α : Type} (x x' : α × Bytes) : Prop := x.1 = x'.1 ∧ SameTokens true x.2 x'.2

/-- The same was read, and what is left are the same tokens without the blanks in front. -/
def InFront {α : Type} (x x' : α × Bytes) : Prop :=
  x.1 = x'.1 ∧ ∃ s s', SameTokens true s s' ∧ x.2 = trimStart s ∧ x'.2 = trimStart s'

/-! ## Literals -/

/-- A sign without a number behind it is read as a bad number. -/
theorem readLiteral_minus {rest : Bytes} (h : Stops inNumber rest) :
    readLiteral (minus :: rest) = .error (faultAt (.badNumber [minus]) rest) := by
  have hsplit : splitNumber (minus :: rest) = ([minus], rest) := by
    have htake := Stops.takeWhile_append (s := []) (fun _ hb => by cases hb) h
    have hdrop := Stops.dropWhile_append (s := []) (fun _ hb => by cases hb) h
    exact Prod.ext (congrArg (minus :: ·) htake) hdrop
  have hread : Numeral.read? [minus] = none := by decide
  rw [readLiteral_of_badNumber (.inl rfl) (by rw [hsplit]; exact hread), hsplit]

/-- A token is a literal wherever it stands in front of an operand, or nowhere. -/
theorem readLiteral_token (t : Token) :
    (∃ value, t.endsOperand ∧ ∀ rest, t.Fits false rest → readLiteral (t.bytes ++ rest) = .ok (value, rest)) ∨
    ∀ rest, t.Fits false rest → ∃ fault, readLiteral (t.bytes ++ rest) = .error fault := by
  have hneither {b : UInt8} {s : Bytes} (hb : ¬startsLiteral b) :
      readLiteral (b :: s) = .error (faultAt .literalExpected (b :: s)) :=
    readLiteral_of_neither (fun hq => hb (.inl hq)) fun hn => hb (.inr hn)
  cases t with
  | punctuation p => exact .inr fun rest _ => ⟨_, hneither p.not_startsLiteral_byte⟩
  | operator o =>
    refine .inr fun rest ht => ?_
    cases o with
    | add | multiply | divide => exact ⟨_, hneither (by decide)⟩
    | subtract => exact ⟨_, readLiteral_minus (ht rfl rfl)⟩
  | name n =>
    refine .inr fun rest _ => ?_
    obtain ⟨b, s, hb⟩ := (Token.name n).exists_cons
    have hstart : isNameStart b := Token.isNameStart_head (n := n) (by rw [show n.bytes = b :: s from hb]; rfl)
    rw [hb]
    refine ⟨_, hneither fun hliteral => ?_⟩
    simp [isNameStart_of_startsLiteral b hliteral] at hstart
  | text quote content hquote h =>
    refine .inl ⟨.text (unescape content), rfl, fun rest _ => ?_⟩
    have hsplit := Grammar.splitUnescaped_of_isQuoted hquote h rest
    simpa [Token.bytes] using readLiteral_of_closed hquote hsplit
  | number digits h =>
    obtain ⟨x, hx⟩ := Grammar.read?_eq_some_iff.mpr h
    exact .inl ⟨.number x, rfl, fun rest ht => Grammar.readLiteral_number h ht.2 hx⟩

theorem readLiteral_alike {s s' : Bytes} (h : SameTokens false s s') :
    Alike Behind (readLiteral (trimStart s)) (readLiteral (trimStart s')) := by
  rcases h.cases with ⟨hs, hs'⟩ | ⟨t, rest, rest', hs, hs', ht, ht', hrest⟩
  · rw [hs, hs']
    exact .error _ _
  · rw [hs, hs']
    rcases readLiteral_token t with ⟨value, hends, hread⟩ | hread
    · rw [hread rest ht, hread rest' ht']
      exact .ok ⟨rfl, hends ▸ hrest⟩
    · obtain ⟨fault, hfault⟩ := hread rest ht
      obtain ⟨fault', hfault'⟩ := hread rest' ht'
      rw [hfault, hfault']
      exact .error _ _

/-! ## Lists of entries -/

theorem readEntry_alike {s s' : Bytes} (h : SameTokens false s s') :
    Alike Behind (readEntry (trimStart s)) (readEntry (trimStart s')) := by
  by_cases hname : startsName (trimStart s)
  · obtain ⟨hn, hbehind⟩ := h.readName hname
    have hname' : startsName (trimStart s') := h.startsName ▸ hname
    by_cases hequals : (trimStart (readName (trimStart s)).2).head? = some equals
    · rw [readEntry_of_default hname hequals, readEntry_of_default hname' (hbehind.head? ▸ hequals), hn]
      have hdefault := hbehind.tail (p := .equals) hequals
      exact (readLiteral_alike hdefault).bind fun _ _ hvalue => .ok ⟨by rw [hvalue.1], hvalue.2⟩
    · rw [readEntry_of_name hname hequals, readEntry_of_name hname' (hbehind.head? ▸ hequals), hn]
      exact .ok ⟨rfl, hbehind.trimStart⟩
  · rw [readEntry_of_not_startsName hname, readEntry_of_not_startsName (h.startsName ▸ hname)]
    exact (readLiteral_alike h).bind fun _ _ hvalue => .ok ⟨by rw [hvalue.1], hvalue.2⟩

theorem HasEntry.of_sameTokens {b : Bool} {s s' : Bytes} (hs : HasEntry s) (h : SameTokens b s s') :
    HasEntry s' :=
  ⟨fun hnil => hs.1 (h.eq_nil_iff.mpr hnil), h.head? ▸ hs.2⟩

theorem readParams_alike {s s' : Bytes} (h : SameTokens false s s') :
    Alike Behind (readParams s) (readParams s') := by
  induction s using params_induction generalizing s' with
  | nil s hnil =>
    rw [readParams_of_nil hnil, readParams_of_nil (h.eq_nil_iff.mp hnil)]
    exact .error _ _
  | close s hclose =>
    rw [readParams_of_close hclose, readParams_of_close (h.head? ▸ hclose)]
    exact .ok ⟨rfl, h.tail (p := .closing) hclose⟩
  | error s fault hs hp =>
    obtain ⟨fault', hp'⟩ := (hp ▸ readEntry_alike h).exists_error
    rw [readParams_of_error hs hp, readParams_of_error (hs.of_sameTokens h) hp']
    exact .error _ _
  | more s p behind hs hp hcomma ih =>
    obtain ⟨⟨p', behind'⟩, hp', rfl, hbehind⟩ := (hp ▸ readEntry_alike h).exists_ok
    rw [readParams_of_entry hs hp, readParams_of_entry (hs.of_sameTokens h) hp']
    simp only [readMoreParams, ← hbehind.head?, if_pos hcomma]
    have hmore := ih (hbehind.tail (p := .comma) hcomma)
    exact hmore.bind fun _ _ hps => .ok ⟨by rw [hps.1], hps.2⟩
  | last s p behind hs hp hcomma =>
    obtain ⟨⟨p', behind'⟩, hp', rfl, hbehind⟩ := (hp ▸ readEntry_alike h).exists_ok
    rw [readParams_of_entry hs hp, readParams_of_entry (hs.of_sameTokens h) hp']
    simp only [readMoreParams, ← hbehind.head?, if_neg hcomma]
    by_cases hclose : (trimStart behind).head? = some closeParen
    · rw [if_pos hclose, if_pos hclose]
      exact .ok ⟨rfl, hbehind.tail (p := .closing) hclose⟩
    · rw [if_neg hclose, if_neg hclose]
      exact .error _ _

/-! ## Parts of a tag -/

theorem readContent_alike (name : Bytes) {s s' : Bytes} (h : SameTokens false s s') :
    Alike Behind (readContent name (trimStart s)) (readContent name (trimStart s')) := by
  by_cases hname : startsName (trimStart s)
  · obtain ⟨hn, hbehind⟩ := h.readName hname
    simp only [readContent, if_pos hname, if_pos (h.startsName ▸ hname), ← hn, ← hbehind.head?]
    by_cases hopen : (trimStart (readName (trimStart s)).2).head? = some openParen
    · rw [if_pos hopen, if_pos hopen]
      refine (readParams_alike (hbehind.tail (p := .opening) hopen)).bind ?_
      rintro ⟨ps, rest⟩ ⟨ps', rest'⟩ hps
      obtain ⟨rfl, hrest⟩ : ps = ps' ∧ SameTokens true rest rest' := hps
      exact (Alike.refl _).bind fun _ _ _ => .ok ⟨rfl, hrest⟩
    · rw [if_neg hopen, if_neg hopen]
      exact .error _ _
  · simp only [readContent, if_neg hname, if_neg (h.startsName ▸ hname)]
    exact (readLiteral_alike h).bind fun _ _ hvalue => .ok ⟨by rw [hvalue.1], hvalue.2⟩

theorem readDefinition_alike (name : Bytes) {s s' : Bytes} (h : SameTokens false s s') :
    Alike Eq (readDefinition name s) (readDefinition name s') := by
  refine (readContent_alike name h).bind fun ⟨content, rest⟩ ⟨content', rest'⟩ hcontent => ?_
  obtain ⟨rfl, hrest⟩ : content = content' ∧ SameTokens true rest rest' := hcontent
  simp only [hrest.isBlank_eq]
  exact .refl _

theorem readSlotParams_alike {s s' : Bytes} (h : SameTokens true s s') :
    Alike InFront (readSlotParams (trimStart s)) (readSlotParams (trimStart s')) := by
  simp only [readSlotParams, ← h.head?]
  by_cases hopen : (trimStart s).head? = some openParen
  · rw [if_pos hopen, if_pos hopen]
    exact (readParams_alike (h.tail (p := .opening) hopen)).bind fun _ _ hps =>
      .ok ⟨hps.1, _, _, hps.2, rfl, rfl⟩
  · rw [if_neg hopen, if_neg hopen]
    exact .ok ⟨rfl, _, _, h, rfl, rfl⟩

theorem readOperation_alike (name : Bytes) {s s' : Bytes} (h : SameTokens true s s') :
    Alike InFront (readOperation name (trimStart s)) (readOperation name (trimStart s')) := by
  simp only [readOperation, ← h.head?]
  cases ho : (trimStart s).head?.bind Operator.ofSymbol? with
  | none => exact .ok ⟨rfl, _, _, h, rfl, rfl⟩
  | some o =>
    refine (readLiteral_alike (h.tail_operator ho)).bind ?_
    rintro ⟨value, rest⟩ ⟨value', rest'⟩ hvalue
    obtain ⟨rfl, hrest⟩ : value = value' ∧ SameTokens true rest rest' := hvalue
    cases value with
    | text t => exact .error _ _
    | number x =>
      dsimp only
      split
      · exact .error _ _
      · exact .ok ⟨rfl, _, _, hrest, rfl, rfl⟩

theorem readSlot_alike (raw : Bool) (name : Bytes) {s s' : Bytes} (h : SameTokens true s s') :
    Alike Eq (readSlot raw name (trimStart s)) (readSlot raw name (trimStart s')) := by
  refine (readSlotParams_alike h).bind fun ⟨ps, _⟩ ⟨ps', _⟩ ⟨hps, rest, rest', hrest, hs, hs'⟩ => ?_
  dsimp only at hps hs hs'
  subst hps hs hs'
  refine (readOperation_alike name hrest).bind fun ⟨o, _⟩ ⟨o', _⟩ ⟨ho, end₁, end₂, hend, hs, hs'⟩ => ?_
  dsimp only at ho hs hs'
  subst ho hs hs'
  have hempty : (trimStart end₁).isEmpty = (trimStart end₂).isEmpty := by
    rw [Bool.eq_iff_iff, List.isEmpty_iff, List.isEmpty_iff, hend.eq_nil_iff]
  simp only [hempty]
  exact .refl _

/-! ## Tags -/

/-- A mark begins the tag, and there are blanks behind it. -/
def SpacedMark (body : Bytes) : Prop :=
  ∃ b rest, trimStart body = atSign :: b :: rest ∧ isBlank b

theorem not_spacedMark {body : Bytes} (h : (trimStart body).head? ≠ some atSign) : ¬SpacedMark body := by
  rintro ⟨b, rest, hbody, -⟩
  rw [hbody] at h
  exact h rfl

/-- No blanks are skipped behind the mark: a name has to stand there. -/
theorem read_of_spacedMark {body : Bytes} (h : SpacedMark body) :
    read body = .error ⟨.nameExpected, .left (body.length + 2)⟩ := by
  obtain ⟨b, rest, hbody, hb⟩ := h
  have hname : ¬startsName (b :: rest) := by
    have hnot := isNameByte_of_isBlank b hb
    simp [startsName, (Bool.or_eq_false_iff.mp hnot).1]
  have hslash : atSign ≠ slash := by decide
  simp [read, hbody, hslash, hname]

theorem read_eq_error_of_not_header {body : Bytes} (h : ∀ raw name after, ¬Header body raw name after) :
    ∃ fault, read body = .error fault := by
  obtain ⟨closed, hread | hread⟩ := read_of_not_header h
  · exact ⟨_, hread⟩
  · exact ⟨_, hread⟩

/-- Where no blanks are behind the mark, the same tokens begin with the same mark and name. -/
theorem Header.of_sameTokens {body body' name after : Bytes} {raw : Bool} (hbody : Header body raw name after)
    (h : SameTokens false body body') (hspaced : ¬SpacedMark body') :
    ∃ s s', SameTokens true s s' ∧ after = trimStart s ∧ Header body' raw name (trimStart s') := by
  cases hbody with
  | plain hname =>
    obtain ⟨hn, hbehind⟩ := h.readName hname
    exact ⟨_, _, hbehind, rfl, hn ▸ .plain (h.startsName ▸ hname)⟩
  | @raw s hmark hname =>
    obtain ⟨s', hmark'⟩ : ∃ s', trimStart body' = atSign :: s' :=
      List.head?_eq_some_iff.mp (by rw [← h.head?, hmark]; rfl)
    have htail : SameTokens false (trimStart body).tail (trimStart body').tail :=
      h.tail (p := .mark) (by rw [hmark]; rfl)
    rw [hmark, hmark', List.tail_cons, List.tail_cons] at htail
    have hs : trimStart s = s := Spelling.trimStart_of_stops fun b hb => isBlank_of_isNameByte b (by
      rw [startsName, hb, Option.any_some] at hname
      simp [isNameByte, hname])
    have hs' : trimStart s' = s' := Spelling.trimStart_of_stops fun b hb => by
      obtain ⟨rest, rfl⟩ := List.head?_eq_some_iff.mp hb
      exact Bool.eq_false_iff.mpr fun hblank => hspaced ⟨b, rest, hmark', hblank⟩
    have hstarts := htail.startsName
    have hnames := htail.readName
    rw [hs, hs'] at hstarts hnames
    obtain ⟨hn, hbehind⟩ := hnames hname
    exact ⟨_, _, hbehind, rfl, hn ▸ .raw hmark' (hstarts ▸ hname)⟩

/-- The same tokens are read as the same tag, where neither or both have blanks behind the mark. -/
theorem read_alike {body body' : Bytes} (h : SameTokens false body body')
    (hmark : SpacedMark body ↔ SpacedMark body') : Alike Eq (read body) (read body') := by
  by_cases hspaced : SpacedMark body
  · rw [read_of_spacedMark hspaced, read_of_spacedMark (hmark.mp hspaced)]
    exact .error _ _
  have hspaced' := mt hmark.mpr hspaced
  by_cases hheader : ∃ raw name after, Header body raw name after
  · obtain ⟨raw, name, after, hheader⟩ := hheader
    obtain ⟨s, s', hbehind, rfl, hheader'⟩ := hheader.of_sameTokens h hspaced'
    rw [read_of_header hheader, read_of_header hheader', ← hbehind.head?]
    split
    · rename_i hdefinition
      exact readDefinition_alike name (hbehind.tail (p := .equals) hdefinition.2)
    · exact readSlot_alike raw name hbehind
  · have hheader' : ∀ raw name after, ¬Header body' raw name after := fun raw name after hbody' => by
      obtain ⟨_, _, -, -, hbody⟩ := hbody'.of_sameTokens h.symm hspaced
      exact hheader ⟨_, _, _, hbody⟩
    obtain ⟨fault, hread⟩ := read_eq_error_of_not_header fun raw name after hbody =>
      hheader ⟨raw, name, after, hbody⟩
    obtain ⟨fault', hread'⟩ := read_eq_error_of_not_header hheader'
    rw [hread, hread']
    exact .error _ _

end Tag

/-! ## The end of a tag -/

theorem Token.passes (t : Token) : Passes t.bytes := by
  have hliteral {s : Bytes} (h : Grammar.IsLiteral s) : Passes s := by
    obtain ⟨value, hread⟩ := Grammar.isLiteral_iff.mp h
    exact .of_readLiteral hread
  cases t with
  | punctuation p => exact .cons p.isPlain_byte .nil
  | operator o => exact .cons (Spelling.isPlain_symbol o) .nil
  | name n => exact .name n
  | text quote content hquote h => exact hliteral (.text hquote h)
  | number digits h => exact hliteral (.number h)

/-- The scanner that looks for the end of a tag gets over all tokens. -/
theorem Spells.passes {b : Bool} {s : Bytes} {ts : List Token} (h : Spells b s ts) : Passes s := by
  induction h with
  | nil w => exact .blanks w
  | cons w _ _ ih => exact .append (.blanks w) (.append (Token.passes _) ih)

theorem splitTag_of_spells {b : Bool} {body : Bytes} {ts : List Token} (h : Spells b body ts) :
    Piece.splitTag .outside (body ++ closer) = some (body, []) := by
  have hbody := h.passes closer [] [] (by decide)
  rwa [List.append_nil] at hbody

/-! ## Templates of one tag -/

/-- A section without its place. -/
def Section.unplaced : Section → Section
  | .text _ => .text ⟨0, 0⟩
  | .definition _ d => .definition ⟨0, 0⟩ d
  | .slot _ s => .slot ⟨0, 0⟩ s
  | .unknown code name => .unknown code name

/-- The sections of the two are the same, their places aside. -/
def SameSections (d d' : Document) : Prop :=
  d.sections.map Section.unplaced = d'.sections.map Section.unplaced

theorem unplaced_sectionOf (t : Tag) (span span' : Span) :
    (Grammar.sectionOf span t).unplaced = (Grammar.sectionOf span' t).unplaced := by
  cases t <;> rfl

open Grammar (IsAlone)
open Tag (SpacedMark)

section

variable {body : Bytes} (hsplit : Piece.splitTag .outside (body ++ closer) = some (body, []))
include hsplit

theorem parse_eq_error_of_read {fault : Fault} (h : Tag.read body = .error fault) :
    Template.parse (opener ++ body ++ closer) =
      .error ((fault.followedBy closer.length).failure (opener ++ body ++ closer).length) :=
  Template.parse_of_read_eq_error (by simp [opener]) (Grammar.read_braces_of_error hsplit h)

theorem parse_eq_error_of_not_isAlone {t : Tag} (h : Tag.read body = .ok t) (ht : ¬IsAlone t) :
    ∃ failure, Template.parse (opener ++ body ++ closer) = .error failure := by
  obtain ⟨fault, hfault, -⟩ := Grammar.read_braces_of_not_isAlone hsplit h ht
  exact ⟨_, Template.parse_of_read_eq_error (by simp [opener]) hfault⟩

end

/-- Blanks between the tokens of a tag make no difference: templates of one tag with the same tokens can
be read or not alike, and have the same sections apart from their places. Blanks behind the mark of a raw
slot are the exception: with them no template can be read. -/
theorem parse_alike {body body' : Bytes} (h : SameTokens false body body') :
    ((SpacedMark body ↔ SpacedMark body') → Alike SameSections
      (Template.parse (opener ++ body ++ closer)) (Template.parse (opener ++ body' ++ closer))) ∧
    (SpacedMark body → Template.parse (opener ++ body ++ closer) =
      .error { kind := .parseError, name := Bytes.ofString "offset 0",
               detail := Bytes.ofString "expected a variable name" }) := by
  obtain ⟨ts, hs, hs'⟩ := id h
  have hsplit := splitTag_of_spells hs
  have hsplit' := splitTag_of_spells hs'
  refine ⟨fun hmark => ?_, fun hspaced => ?_⟩
  · cases hread : Tag.read body with
    | error fault =>
      obtain ⟨fault', hread'⟩ := (hread ▸ Tag.read_alike h hmark).exists_error
      rw [parse_eq_error_of_read hsplit hread, parse_eq_error_of_read hsplit' hread']
      exact .error _ _
    | ok t =>
      obtain ⟨t', hread', rfl⟩ := (hread ▸ Tag.read_alike h hmark).exists_ok
      by_cases ht : IsAlone t
      · obtain ⟨d, span, hd, hsections⟩ := Grammar.sections_of_isAlone hsplit hread ht
        obtain ⟨d', span', hd', hsections'⟩ := Grammar.sections_of_isAlone hsplit' hread' ht
        rw [hd, hd']
        refine .ok ?_
        rw [SameSections, hsections, hsections', List.map_singleton, List.map_singleton,
          unplaced_sectionOf t span span']
      · obtain ⟨failure, hfails⟩ := parse_eq_error_of_not_isAlone hsplit hread ht
        obtain ⟨failure', hfails'⟩ := parse_eq_error_of_not_isAlone hsplit' hread' ht
        rw [hfails, hfails']
        exact .error _ _
  · have hlength : (opener ++ body ++ closer).length = body.length + 2 + closer.length := by
      simp only [List.length_append, opener, closer, List.length_cons, List.length_nil]
      omega
    rw [parse_eq_error_of_read hsplit (Tag.read_of_spacedMark hspaced), hlength]
    simp only [Fault.followedBy, Fault.Place.followedBy, Fault.failure, Nat.sub_self]
    rfl

/-- A slot with a list and an operation, without blanks and with blanks in every gap. Behind an operator
a minus is the sign of a number. -/
theorem parse_alike_of_gaps :
    let body := Bytes.ofString "x('\x7d\x7d',1)--2."
    let body' := Bytes.ofString " x ( '\x7d\x7d'\t, 1\n)- -2. "
    SameTokens false body body' ∧ (SpacedMark body ↔ SpacedMark body') ∧
      Alike SameSections (Template.parse (opener ++ body ++ closer))
        (Template.parse (opener ++ body' ++ closer)) := by
  intro body body'
  let none : Blanks := ⟨[], rfl⟩
  let one : Blanks := ⟨[space], rfl⟩
  let x : Name := ⟨Bytes.ofString "x", by decide, by decide⟩
  have hquoted : Grammar.IsQuoted singleQuote (Bytes.ofString "\x7d\x7d") :=
    .plain (by decide) (by decide) (.plain (by decide) (by decide) .nil)
  have hone : Grammar.IsNumber (Bytes.ofString "1") :=
    .positive (.whole (by decide) (List.all_eq_true.mp rfl))
  have htwo : Grammar.IsNumber (Bytes.ofString "-2.") :=
    .negative (@Grammar.IsUnsigned.pointed [0x32] [] (by decide) (List.all_eq_true.mp rfl))
  have hoperand : SameTokens false (Bytes.ofString "-2.") (Bytes.ofString " -2. ") :=
    .cons none one (.number _ htwo) ⟨fun _ => rfl, .nil _⟩ ⟨fun _ => rfl, .cons (by decide) _⟩
      (.nil none one)
  have hoperation : SameTokens true (Bytes.ofString "--2.") (Bytes.ofString "- -2. ") :=
    .cons none none (.operator .subtract) nofun nofun hoperand
  have hentry : SameTokens false (Bytes.ofString "1)--2.") (Bytes.ofString " 1\n)- -2. ") :=
    .cons none one (.number _ hone) ⟨fun _ => rfl, .cons (by decide) _⟩
      ⟨fun _ => rfl, .cons (by decide) _⟩
      (.cons none ⟨[newline], rfl⟩ (.punctuation .closing) trivial trivial hoperation)
  have hlist : SameTokens true (Bytes.ofString "('\x7d\x7d',1)--2.")
      (Bytes.ofString " ( '\x7d\x7d'\t, 1\n)- -2. ") :=
    .cons none one (.punctuation .opening) trivial trivial
      (.cons none one (.text singleQuote _ rfl hquoted) trivial trivial
        (.cons none ⟨[tab], rfl⟩ (.punctuation .comma) trivial trivial hentry))
  have hsame : SameTokens false body body' :=
    .cons none one (.name x) (.cons (by decide) _) (.cons (by decide) _) hlist
  have hiff : SpacedMark body ↔ SpacedMark body' :=
    iff_of_false (Tag.not_spacedMark (by decide)) (Tag.not_spacedMark (by decide))
  exact ⟨hsame, hiff, (parse_alike hsame).1 hiff⟩

/-- The same tokens, and only without the blank behind the mark they can be read. -/
theorem not_parse_alike_of_mark :
    SameTokens false (Bytes.ofString "@x") (Bytes.ofString "@ x") ∧
      Template.parse (Bytes.ofString "\x7b\x7b@x\x7d\x7d") =
        .ok { text := Bytes.ofString "\x7b\x7b@x\x7d\x7d",
              sections := [.slot ⟨0, 6⟩ { name := Bytes.ofString "x", raw := true }] } ∧
      Template.parse (Bytes.ofString "\x7b\x7b@ x\x7d\x7d") =
        .error { kind := .parseError, name := Bytes.ofString "offset 0",
                 detail := Bytes.ofString "expected a variable name" } := by
  let none : Blanks := ⟨[], rfl⟩
  let x : Name := ⟨Bytes.ofString "x", by decide, by decide⟩
  have hname : SameTokens false (Bytes.ofString "x") (Bytes.ofString " x") :=
    .cons none ⟨[space], rfl⟩ (.name x) (.nil _) (.nil _) (.nil none none)
  refine ⟨.cons none none (.punctuation .mark) trivial trivial hname, ?_, ?_⟩
  · decide +kernel
  · decide +kernel

end Stencil
