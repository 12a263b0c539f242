import Stencil.Proofs.Quoting
import Stencil.Proofs.TagContents
import Stencil.Proofs.Tokens

/-!
# Arguments and declared parameters

One list of entries serves calls and block headers: a call is to pass values, and a block declares
names (`Document.CallsPassValues`). Which list an entry belongs to is decided behind the list, by a
check that looks at required entries only, so that an entry with a name and a value gets into a call.
Such an entry is what an equals sign outside of quotes stands for (`unquotedEquals_of_readsParams`). The
main statement, `callsPassValues_iff`, says of every document that its blocks declare names and its
calls require nothing, and that its calls pass nothing but values exactly if there is no such sign in
a slot, and only its own in the definition of a call.
-/

namespace Stencil

open Ascii
open Bytes (trimStart)
open Piece (opener closer Quoting)

/-! ## Equals signs outside of quotes -/

namespace Piece

namespace Quoting

/-- How many equals signs among these bytes stand outside of quotes. -/
def equalsSigns : Quoting → Bytes → Nat
  | _, [] => 0
  | state, b :: s => (if state = outside ∧ b = equals then 1 else 0) + (state.next b).equalsSigns s

theorem equalsSigns_append (state : Quoting) (s t : Bytes) :
    state.equalsSigns (s ++ t) = state.equalsSigns s + (state.after s).equalsSigns t := by
  induction s generalizing state with
  | nil => rw [List.nil_append, after_nil, equalsSigns, Nat.zero_add]
  | cons b s ih => rw [List.cons_append, equalsSigns, equalsSigns, after_cons, ih, Nat.add_assoc]

theorem equalsSigns_within (q : UInt8) (escaped : Bool) (b : UInt8) (s : Bytes) :
    (within q escaped).equalsSigns (b :: s) = ((within q escaped).next b).equalsSigns s := by
  rw [equalsSigns, if_neg fun h => within_ne_outside q escaped h.1, Nat.zero_add]

end Quoting

/-- The equals signs of a string are in quotes. -/
theorem equalsSigns_of_closed {q : UInt8} {escaped : Bool} {s content rest : Bytes}
    (h : splitUnescaped q true escaped s = (content, q :: rest)) :
    (Quoting.within q escaped).equalsSigns s = Quoting.outside.equalsSigns rest := by
  fun_induction splitUnescaped q true escaped s generalizing content with
  | case1 escaped => cases h
  | case2 escaped b s hb before more heq ih =>
    cases h
    rw [Quoting.equalsSigns_within, Quoting.next_within, if_pos ⟨hb.1, hb.2.2⟩, ih heq]
  | case3 escaped b s hb hstop =>
    cases h
    rw [Quoting.equalsSigns_within, Quoting.next_within, if_neg (by simpa using hb), if_pos hstop]
  | case4 escaped b s hb hstop before more heq ih =>
    cases h
    rw [Quoting.equalsSigns_within, Quoting.next_within, if_neg (by simpa using hb), if_neg hstop,
      ih heq]

end Piece

namespace Tag

/-- How many equals signs stand outside of quotes in a tag, or in what is left of it. -/
def unquotedEquals (s : Bytes) : Nat := Quoting.outside.equalsSigns s

/-- Bytes that neither begin a string nor are equals signs. -/
def isCommon (b : UInt8) : Bool := !isQuote b && b != equals

/-- The bytes of a kind that leaves out the quotes and the equals sign. -/
theorem isCommon_of {p : UInt8 → Prop} (hdouble : ¬p doubleQuote) (hsingle : ¬p singleQuote)
    (hequals : ¬p equals) (b : UInt8) (hb : p b) : isCommon b := by
  have hne : b ≠ equals := by
    rintro rfl
    exact hequals hb
  simp [isCommon, isQuote_of_leftOut hdouble hsingle hb, hne]

theorem isCommon_of_isBlank : ∀ b, isBlank b → isCommon b :=
  isCommon_of (by decide) (by decide) (by decide)

theorem isCommon_of_isNameByte : ∀ b, isNameByte b → isCommon b :=
  isCommon_of (by decide) (by decide) (by decide)

theorem isCommon_of_startsNumber : ∀ b, startsNumber b → isCommon b :=
  isCommon_of (by decide) (by decide) (by decide)

theorem unquotedEquals_cons {b : UInt8} (hb : ¬isQuote b) (s : Bytes) :
    unquotedEquals (b :: s) = (if b = equals then 1 else 0) + unquotedEquals s := by
  rw [unquotedEquals, Quoting.equalsSigns, Quoting.next_outside, if_neg hb, unquotedEquals]
  simp only [true_and]

theorem unquotedEquals_append {s : Bytes} (h : ∀ b ∈ s, isCommon b) (t : Bytes) :
    unquotedEquals (s ++ t) = unquotedEquals t := by
  induction s with
  | nil => rfl
  | cons b s ih =>
    rw [List.forall_mem_cons] at h
    obtain ⟨hq, hne⟩ : isQuote b = false ∧ b ≠ equals := by simpa [isCommon] using h.1
    rw [List.cons_append, unquotedEquals_cons (by simp [hq]), if_neg hne, Nat.zero_add, ih h.2]

theorem unquotedEquals_dropWhile {p : UInt8 → Bool} (h : ∀ b, p b → isCommon b) (s : Bytes) :
    unquotedEquals (s.dropWhile p) = unquotedEquals s := by
  conv_rhs => rw [← List.takeWhile_append_dropWhile (p := p) (l := s)]
  exact (unquotedEquals_append (fun b hb => h b (List.all_eq_true.mp List.all_takeWhile b hb)) _).symm

@[simp] theorem unquotedEquals_trimStart (s : Bytes) : unquotedEquals (trimStart s) = unquotedEquals s :=
  unquotedEquals_dropWhile isCommon_of_isBlank s

@[simp] theorem unquotedEquals_readName (s : Bytes) :
    unquotedEquals (readName s).2 = unquotedEquals s :=
  unquotedEquals_dropWhile isCommon_of_isNameByte s

theorem unquotedEquals_tail {s : Bytes} {b : UInt8} (hs : s.head? = some b) (hb : isCommon b) :
    unquotedEquals s.tail = unquotedEquals s := by
  obtain ⟨t, rfl⟩ := List.head?_eq_some_iff.mp hs
  exact (unquotedEquals_append (s := [b]) (by simpa using hb) t).symm

theorem unquotedEquals_of_equals {s : Bytes} (hs : s.head? = some equals) :
    unquotedEquals s = 1 + unquotedEquals s.tail := by
  obtain ⟨t, rfl⟩ := List.head?_eq_some_iff.mp hs
  exact unquotedEquals_cons (by decide) t

theorem unquotedEquals_of_isBlank {s : Bytes} (h : Bytes.isBlank s) : unquotedEquals s = 0 := by
  have hs : ∀ b ∈ s, isCommon b := fun b hb => isCommon_of_isBlank b (List.all_eq_true.mp h b hb)
  rw [← List.append_nil s, unquotedEquals_append hs]
  rfl

/-! ## What each reader passes -/

theorem unquotedEquals_of_readLiteral {s rest : Bytes} {value : Value}
    (h : readLiteral s = .ok (value, rest)) : unquotedEquals s = unquotedEquals rest := by
  rcases readLiteral_eq_ok h with ⟨q, quoted, content, rfl, hq, hsplit, -⟩ | ⟨x, rfl, -, -⟩
  · have hne : q ≠ equals := by
      rintro rfl
      exact absurd hq (by decide)
    rw [unquotedEquals, Quoting.equalsSigns, if_neg fun h => hne h.2, Nat.zero_add,
      Quoting.next_outside, if_pos hq]
    exact Piece.equalsSigns_of_closed hsplit
  · conv_lhs => rw [← splitNumber_append s]
    exact unquotedEquals_append
      (fun b hb => isCommon_of_startsNumber b (startsNumber_of_mem_splitNumber hb)) _

end Tag

/-- Is this an entry with a name and a value? -/
def Param.hasDefault (p : Param) : Bool := !p.name.isEmpty && !p.required

namespace Tag

theorem startsName_readName {s : Bytes} (h : startsName s) : startsName (readName s).1 := by
  cases s with
  | nil => cases h
  | cons b s =>
    have hb : isNameByte b := by simp_all [startsName, isNameByte]
    simpa [startsName, readName, hb] using h

theorem name_ne_nil_of_startsName {s : Bytes} (h : startsName s) : (readName s).1 ≠ [] := by
  intro hnil
  have hstarts := startsName_readName h
  simp [hnil, startsName] at hstarts

theorem unquotedEquals_of_readEntry {s rest : Bytes} {p : Param} (h : readEntry s = .ok (p, rest)) :
    unquotedEquals s = [p].countP Param.hasDefault + unquotedEquals rest := by
  rcases readEntry_eq_ok h with
    ⟨-, value, hvalue, rfl⟩ | ⟨hname, heq, value, hvalue, rfl⟩ | ⟨hname, rfl, rfl⟩
  · simp [unquotedEquals_of_readLiteral hvalue, Param.hasDefault]
  · have hbehind := unquotedEquals_of_readLiteral hvalue
    have hequals := unquotedEquals_of_equals heq
    rw [unquotedEquals_trimStart] at hbehind
    rw [unquotedEquals_trimStart, unquotedEquals_readName, hbehind] at hequals
    simp [hequals, Param.hasDefault, name_ne_nil_of_startsName hname]
  · simp [Param.hasDefault]

theorem unquotedEquals_behind {s behind : Bytes} {p : Param} {b : UInt8}
    (hp : readEntry (trimStart s) = .ok (p, behind)) (h : (trimStart behind).head? = some b)
    (hb : isCommon b) :
    unquotedEquals s = [p].countP Param.hasDefault + unquotedEquals (trimStart behind).tail := by
  have hentry := unquotedEquals_of_readEntry hp
  rwa [unquotedEquals_trimStart, ← unquotedEquals_trimStart behind, ← unquotedEquals_tail h hb]
    at hentry

theorem unquotedEquals_of_readsParams {s rest : Bytes} {ps : List Param} (h : ReadsParams s ps rest) :
    unquotedEquals s = ps.countP Param.hasDefault + unquotedEquals rest := by
  induction h with
  | close h =>
    rw [unquotedEquals_tail h (by decide), unquotedEquals_trimStart, List.countP_nil, Nat.zero_add]
  | last hs hp hclose => exact unquotedEquals_behind hp hclose (by decide)
  | more hs hp hcomma _ ih =>
    rw [unquotedEquals_behind hp hcomma (by decide), ih, ← Nat.add_assoc, ← List.countP_append,
      List.singleton_append]

theorem unquotedEquals_of_header {body name after : Bytes} {raw : Bool}
    (h : Header body raw name after) : unquotedEquals body = unquotedEquals after := by
  cases h with
  | plain h => simp
  | raw hmark h =>
    have hs := unquotedEquals_tail (s := trimStart body) (by rw [hmark]; rfl)
      (show isCommon atSign by decide)
    rw [hmark, List.tail_cons, ← hmark, unquotedEquals_trimStart] at hs
    simp [hs]

theorem unquotedEquals_of_readSlotParams {s rest : Bytes} {params : List Param}
    (h : readSlotParams s = .ok (params, rest)) :
    unquotedEquals s = params.countP Param.hasDefault + unquotedEquals rest := by
  rcases readSlotParams_eq_ok h with ⟨hopen, behind, hparams, rfl⟩ | ⟨rfl, rfl⟩
  · rw [← unquotedEquals_tail hopen (by decide), unquotedEquals_trimStart]
    exact unquotedEquals_of_readsParams (readsParams_of_readParams hparams)
  · simp

theorem isCommon_of_operator {b : UInt8} {operator : Operator}
    (h : Operator.ofSymbol? b = some operator) : isCommon b := by
  have hb := List.find?_some h
  obtain rfl : operator.symbol = b := by simpa using hb
  cases operator <;> decide

theorem unquotedEquals_of_readOperation {name s rest : Bytes} {operation : Option Operation}
    (h : readOperation name s = .ok (operation, rest)) : unquotedEquals s = unquotedEquals rest := by
  rcases readOperation_eq_ok h with ⟨-, rfl⟩ | ⟨operator, x, behind, hoperator, hliteral, -, -, rfl⟩
  · rfl
  · obtain ⟨b, hb, hsymbol⟩ := Option.bind_eq_some_iff.mp hoperator
    have hbehind := unquotedEquals_of_readLiteral hliteral
    rw [unquotedEquals_trimStart] at hbehind ⊢
    rw [← hbehind, unquotedEquals_tail hb (isCommon_of_operator hsymbol)]

/-- The braces of a tag hold no equals signs. -/
theorem unquotedEquals_braces {body : Bytes} (h : Quoting.outside.after body = .outside) :
    unquotedEquals (opener ++ body ++ closer) = unquotedEquals body := by
  have hopener : ∀ b ∈ opener, isCommon b := List.all_eq_true.mp rfl
  rw [List.append_assoc, unquotedEquals_append hopener, unquotedEquals, Quoting.equalsSigns_append, h]
  rfl

/-- In a slot every equals sign gives an entry its value. -/
theorem unquotedEquals_of_slot {body : Bytes} {s : Slot} (h : read body = .ok (.slot s)) :
    unquotedEquals body = s.params.countP Param.hasDefault := by
  obtain ⟨raw, name, after, params, rest, operation, hheader, hparams, hoperation, rfl⟩ :=
    read_eq_slot h
  rw [unquotedEquals_of_header hheader, unquotedEquals_of_readSlotParams hparams,
    unquotedEquals_of_readOperation hoperation]
  rfl

/-- In the definition of a call one equals sign is the definition's own. -/
theorem unquotedEquals_of_call {body : Bytes} {f : Definition} (h : read body = .ok (.definition f))
    (hf : f.content.kind = .function) :
    unquotedEquals body = 1 + f.content.params.countP Param.hasDefault := by
  obtain ⟨name, after, content, rest, hheader, heq, hcontent, hblank, rfl⟩ := read_eq_definition h
  rcases readContent_eq_ok hcontent with
    ⟨-, hopen, arguments, hparams, -, rfl⟩ | ⟨-, value, -, rfl⟩
  · have hlist := unquotedEquals_of_readsParams (readsParams_of_readParams hparams)
    rw [unquotedEquals_tail hopen (by decide), unquotedEquals_trimStart, unquotedEquals_readName,
      unquotedEquals_trimStart, unquotedEquals_of_isBlank hblank, Nat.add_zero] at hlist
    rw [unquotedEquals_of_header hheader, unquotedEquals_of_equals heq, hlist]
  · cases value <;> cases hf

/-! ## Names of entries -/

/-- Where a name starts, what is read is a name. -/
theorem exists_name_of_startsName {s : Bytes} (h : startsName s) :
    ∃ n : Spelling.Name, n.bytes = (readName s).1 :=
  ⟨⟨(readName s).1, startsName_readName h, List.all_takeWhile⟩, rfl⟩

theorem name_of_readEntry {s rest : Bytes} {p : Param} (h : readEntry s = .ok (p, rest)) :
    p.name = [] ∨ ∃ n : Spelling.Name, n.bytes = p.name := by
  rcases readEntry_eq_ok h with ⟨-, value, -, rfl⟩ | ⟨hname, -, value, -, rfl⟩ | ⟨hname, -, rfl⟩
  · exact .inl rfl
  · exact .inr (exists_name_of_startsName hname)
  · exact .inr (exists_name_of_startsName hname)

theorem name_of_readsParams {s rest : Bytes} {ps : List Param} (h : ReadsParams s ps rest) :
    ∀ p ∈ ps, p.name = [] ∨ ∃ n : Spelling.Name, n.bytes = p.name := by
  induction h with
  | close h => simp
  | last hs hp hclose => simpa using name_of_readEntry hp
  | more hs hp hcomma _ ih => exact List.forall_mem_cons.mpr ⟨name_of_readEntry hp, ih⟩

theorem name_of_slot {body : Bytes} {s : Slot} (h : read body = .ok (.slot s)) :
    ∀ p ∈ s.params, p.name = [] ∨ ∃ n : Spelling.Name, n.bytes = p.name := by
  obtain ⟨raw, name, after, params, rest, operation, -, hparams, -, rfl⟩ := read_eq_slot h
  rcases readSlotParams_eq_ok hparams with ⟨-, behind, hlist, -⟩ | ⟨rfl, -⟩
  · exact name_of_readsParams (readsParams_of_readParams hlist)
  · simp

/-- The definition of a call is read only if nothing in it is required. -/
theorem required_of_call {body : Bytes} {f : Definition} (h : read body = .ok (.definition f)) :
    ∀ p ∈ f.content.params, p.required = false := by
  obtain ⟨name, after, content, rest, -, -, hcontent, -, rfl⟩ := read_eq_definition h
  rcases readContent_eq_ok hcontent with ⟨-, -, arguments, -, hrequire, rfl⟩ | ⟨-, value, -, rfl⟩
  · exact requireLiterals_eq_ok_iff.mp hrequire
  · cases value <;> simp [Variable.ofValue]

end Tag

/-! ## Calls and blocks of a document -/

namespace Document

/-- Calls pass values, which have no name and of which none is required, and blocks declare names. -/
structure CallsPassValues (d : Document) : Prop where
  slots : ∀ span s, .slot span s ∈ d.sections → ∀ p ∈ s.params, p.name = [] ∧ p.required = false
  calls : ∀ span f, .definition span f ∈ d.sections → f.content.kind = .function →
    ∀ p ∈ f.content.params, p.name = [] ∧ p.required = false
  blocks : ∀ span f, .definition span f ∈ d.sections →
    ∀ p ∈ f.params, ∃ n : Spelling.Name, n.bytes = p.name

/-- No call passes a bare name, and blocks declare names. -/
structure CallsRequireNothing (d : Document) : Prop where
  slots : ∀ span s, .slot span s ∈ d.sections → ∀ p ∈ s.params, p.required = false
  calls : ∀ span f, .definition span f ∈ d.sections → f.content.kind = .function →
    ∀ p ∈ f.content.params, p.required = false
  blocks : ∀ span f, .definition span f ∈ d.sections →
    ∀ p ∈ f.params, ∃ n : Spelling.Name, n.bytes = p.name

/-- Outside of quotes there is no equals sign in a slot, and only its own in the definition of a
call. -/
structure OnlyOwnEquals (source : Bytes) (d : Document) : Prop where
  slots : ∀ span s, .slot span s ∈ d.sections → Tag.unquotedEquals (span.slice d.text) = 0
  calls : ∀ span f, .definition span f ∈ d.sections → f.content.kind = .function →
    Tag.unquotedEquals (span.slice source) = 1

end Document

theorem countP_hasDefault_eq_zero_iff {ps : List Param} (h : ∀ p ∈ ps, p.required = false) :
    ps.countP Param.hasDefault = 0 ↔ ∀ p ∈ ps, p.name = [] ∧ p.required = false := by
  rw [List.countP_eq_zero]
  refine forall₂_congr fun p hp => ?_
  simp [Param.hasDefault, h p hp]

namespace Template

theorem names_of_block {source : Bytes} {d : Document} (h : parse source = .ok d) {span : Span}
    {f : Definition} (hf : .definition span f ∈ d.sections) :
    ∀ p ∈ f.params, ∃ n : Spelling.Name, n.bytes = p.name := by
  obtain ⟨body, after, -, ⟨hread, -⟩ | ⟨s, content, rest, hread, hblock, rfl⟩⟩ :=
    exists_tag_of_definition h hf
  · obtain ⟨name, after, content, rest, -, -, -, -, rfl⟩ := Tag.read_eq_definition hread
    simp
  · intro p hp
    -- A tag opens a block only if each of its entries has a name.
    rw [Piece.splitBlock?] at hblock
    split at hblock
    · rename_i hopens
      have hname := List.all_eq_true.mp hopens.2.2 p hp
      exact (Tag.name_of_slot hread p hp).resolve_left (by simpa using hname)
    · cases hblock

theorem unquotedEquals_of_slot_section {source : Bytes} {d : Document} (h : parse source = .ok d)
    {span : Span} {s : Slot} (hs : .slot span s ∈ d.sections) :
    (∀ p ∈ s.params, p.name = [] ∧ p.required = false) ↔
      Tag.unquotedEquals (span.slice d.text) = 0 := by
  obtain ⟨body, after, hsplit, hread, hparams, hslice⟩ := exists_tag_of_slot h hs
  rw [hslice, Tag.unquotedEquals_braces (Piece.after_of_splitTag hsplit),
    Tag.unquotedEquals_of_slot hread, countP_hasDefault_eq_zero_iff hparams]

theorem unquotedEquals_of_call_section {source : Bytes} {d : Document} (h : parse source = .ok d)
    {span : Span} {f : Definition} (hf : .definition span f ∈ d.sections)
    (hcall : f.content.kind = .function) :
    (∀ p ∈ f.content.params, p.required = false) ∧
      ((∀ p ∈ f.content.params, p.name = [] ∧ p.required = false) ↔
        Tag.unquotedEquals (span.slice source) = 1) := by
  obtain ⟨body, after, hsplit, ⟨hread, hslice⟩ | ⟨_, _, _, _, _, rfl⟩⟩ := exists_tag_of_definition h hf
  · refine ⟨Tag.required_of_call hread, ?_⟩
    rw [hslice, Tag.unquotedEquals_braces (Piece.after_of_splitTag hsplit),
      Tag.unquotedEquals_of_call hread hcall, Nat.add_eq_left,
      countP_hasDefault_eq_zero_iff (Tag.required_of_call hread)]
  · cases hcall

/-- In a document that was parsed no call passes a bare name and blocks declare names. Calls pass
nothing but values exactly if each equals sign outside of quotes is that of a definition: one in the
list of a call gives a name to a value, and nothing refuses it. -/
theorem callsPassValues_iff {source : Bytes} {d : Document} (h : parse source = .ok d) :
    d.CallsRequireNothing ∧ (d.CallsPassValues ↔ d.OnlyOwnEquals source) := by
  have hslot {span : Span} {s : Slot} (hs : .slot span s ∈ d.sections) :=
    unquotedEquals_of_slot_section h hs
  have hcall {span : Span} {f : Definition} (hf : .definition span f ∈ d.sections) :=
    unquotedEquals_of_call_section h hf
  constructor
  · exact
      { slots := fun span s hs => (exists_tag_of_slot h hs).elim fun _ ⟨_, _, _, hparams, _⟩ => hparams
        calls := fun span f hf hkind => (hcall hf hkind).1
        blocks := fun span f hf => names_of_block h hf }
  · constructor
    · intro hvalues
      exact
        { slots := fun span s hs => (hslot hs).mp (hvalues.slots span s hs)
          calls := fun span f hf hkind => (hcall hf hkind).2.mp (hvalues.calls span f hf hkind) }
    · intro hequals
      exact
        { slots := fun span s hs => (hslot hs).mpr (hequals.slots span s hs)
          calls := fun span f hf hkind => (hcall hf hkind).2.mpr (hequals.calls span f hf hkind)
          blocks := fun span f hf => names_of_block h hf }

/-- The definition of a call and a slot that pass values, one of them a quoted equals sign. -/
def valuesPassed : Document where
  text := Bytes.ofString "\x7b\x7bx(1)\x7d\x7d"
  sections :=
    [.definition ⟨0, 12⟩
        { name := Bytes.ofString "n",
          content :=
            { kind := .function, value := .text (Bytes.ofString "f"),
              params := [{ value := .text (Bytes.ofString "=") }] } },
      .slot ⟨0, 8⟩ { name := Bytes.ofString "x", params := [{ value := .number ⟨0x3ff0000000000000⟩ }] }]

theorem callsPassValues_iff_of_values :
    parse (Bytes.ofString "\x7b\x7bn=f('=')\x7d\x7d\x7b\x7bx(1)\x7d\x7d") = .ok valuesPassed ∧
      valuesPassed.CallsRequireNothing ∧
      (valuesPassed.CallsPassValues ↔
        valuesPassed.OnlyOwnEquals
          (Bytes.ofString "\x7b\x7bn=f('=')\x7d\x7d\x7b\x7bx(1)\x7d\x7d")) :=
  have h : parse (Bytes.ofString "\x7b\x7bn=f('=')\x7d\x7d\x7b\x7bx(1)\x7d\x7d") = .ok valuesPassed := by
    decide +kernel
  ⟨h, callsPassValues_iff h⟩

/-- A slot that passes a value with a name. -/
def namePassed : Document where
  text := Bytes.ofString "\x7b\x7bx(a=1)\x7d\x7d"
  sections :=
    [.slot ⟨0, 10⟩
        { name := Bytes.ofString "x",
          params := [{ name := Bytes.ofString "a", value := .number ⟨0x3ff0000000000000⟩ }] }]

theorem not_callsPassValues_of_name :
    parse (Bytes.ofString "\x7b\x7bx(a=1)\x7d\x7d") = .ok namePassed ∧
      ¬namePassed.CallsPassValues := by
  refine ⟨by decide +kernel, fun hvalues => ?_⟩
  obtain ⟨hname, -⟩ := hvalues.slots _ _ (List.mem_singleton.mpr rfl) _ (List.mem_singleton.mpr rfl)
  exact absurd hname (by decide)

end Template

end Stencil
