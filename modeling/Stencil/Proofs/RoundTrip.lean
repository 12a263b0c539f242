import Stencil.Proofs.Layout
import Stencil.Proofs.Quoting
import Stencil.Proofs.Tokens

/-!
# Reading what was written

Every tag that can be written is read as what it says. The readers of a tag take its parts off the
front one by one (`readsParams_write`, `read_slotBody`, `readContent_write`, `read_body`), and the
scanner that looks for the end of the tag gets over all of them (`Passes.body`), whatever the strings
hold. The main statement is `parse_write`.
-/

namespace Stencil

open Ascii
open Bytes (trimStart)

namespace Spelling

open Tag (readLiteral startsName readEntry ReadsParams)

/-! ## Entries in parentheses -/

/-- An entry can end in front of these bytes: blanks aside, they begin with a comma or with the
parenthesis that closes the list. -/
def EndsEntry (s : Bytes) : Prop :=
  (trimStart s).head? = some comma ∨ (trimStart s).head? = some closeParen

theorem EndsEntry.stops {p : UInt8 → Bool} (hblank : ∀ b, isBlank b → p b = false)
    (hends : p comma = false ∧ p closeParen = false) {s : Bytes} (h : EndsEntry s) : Stops p s := by
  cases s with
  | nil => exact .nil p
  | cons b s =>
    by_cases hb : isBlank b
    · exact .cons (hblank b hb) s
    · rw [EndsEntry, trimStart_of_stops (.cons (by simpa using hb) s), List.head?_cons, Option.some_inj,
        Option.some_inj] at h
      rcases h with rfl | rfl
      · exact .cons hends.1 s
      · exact .cons hends.2 s

/-- These bytes are read as an entry wherever one can end behind them. -/
structure ReadsEntry (s : Bytes) (p : Param) : Prop where
  hasEntry (rest : Bytes) : Tag.HasEntry (s ++ rest)
  reads {rest : Bytes} (h : EndsEntry rest) :
    ∃ behind, readEntry (trimStart (s ++ rest)) = .ok (p, behind) ∧ trimStart behind = trimStart rest

namespace ReadsEntry

variable {s more rest : Bytes} {p : Param}

theorem readsParams_last (h : ReadsEntry s p) (hmore : trimStart more = closeParen :: rest) :
    ReadsParams (s ++ more) [p] rest := by
  obtain ⟨behind, hp, hbehind⟩ := h.reads (.inr (by rw [hmore]; rfl))
  rw [hmore] at hbehind
  have hlast := ReadsParams.last (h.hasEntry more) hp (by rw [hbehind]; rfl)
  rwa [hbehind] at hlast

theorem readsParams_more (h : ReadsEntry s p) {ps : List Param} (hps : ReadsParams more ps rest) :
    ReadsParams (s ++ comma :: more) (p :: ps) rest := by
  have htrim : trimStart (comma :: more) = comma :: more := trimStart_of_stops (.cons (by decide) more)
  obtain ⟨behind, hp, hbehind⟩ := h.reads (.inl (by rw [htrim]; rfl))
  rw [htrim] at hbehind
  refine .more (h.hasEntry _) hp (by rw [hbehind]; rfl) ?_
  rwa [hbehind]

end ReadsEntry

theorem readsParams_of_close {s rest : Bytes} (h : trimStart s = closeParen :: rest) :
    ReadsParams s [] rest := by
  have hclose := ReadsParams.close (s := s) (by rw [h]; rfl)
  rwa [h] at hclose

/-- These bytes are read as a list of entries in parentheses, whatever follows them. -/
structure ReadsList (s : Bytes) (ps : List Param) : Prop where
  stops (rest : Bytes) : Stops isNameByte (s ++ rest)
  head? (rest : Bytes) : (trimStart (s ++ rest)).head? = some openParen
  readParams (rest : Bytes) : Tag.readParams (trimStart (s ++ rest)).tail = .ok (ps, rest)

section

variable {α : Type} {write : α → Bytes} {param : α → Param}

/-- The entries between parentheses are read one by one. -/
theorem readsParams_write (h : ∀ a, ReadsEntry (write a) (param a)) (l : List α) (inside : Blanks)
    (rest : Bytes) :
    ReadsParams (List.intercalate [comma] (l.map write) ++ (inside.bytes ++ closeParen :: rest))
      (l.map param) rest := by
  have hclose : trimStart (inside.bytes ++ closeParen :: rest) = closeParen :: rest :=
    (inside.trimStart_append _).trans (trimStart_of_stops (.cons (by decide) _))
  induction l with
  | nil => exact readsParams_of_close hclose
  | cons a l ih =>
    -- A comma stands behind every entry but the last.
    cases l with
    | nil =>
      rw [List.map_singleton, List.intercalate_singleton]
      exact (h a).readsParams_last hclose
    | cons a' l =>
      rw [List.map_cons, List.intercalate_cons_of_ne_nil (by simp), List.append_assoc,
        List.append_assoc, List.singleton_append]
      exact (h a).readsParams_more ih

theorem readsList_write (h : ∀ a, ReadsEntry (write a) (param a)) (before : Blanks) (l : List α)
    (inside : Blanks) :
    ReadsList (before.bytes ++ openParen :: (List.intercalate [comma] (l.map write) ++ inside.bytes
      ++ [closeParen])) (l.map param) := by
  have htrim (rest : Bytes) : trimStart (before.bytes ++ openParen :: (List.intercalate [comma]
      (l.map write) ++ inside.bytes ++ [closeParen]) ++ rest) =
        openParen :: (List.intercalate [comma] (l.map write) ++ (inside.bytes ++ closeParen :: rest)) := by
    rw [List.append_assoc, before.trimStart_append, List.cons_append, List.append_assoc,
      List.append_assoc, List.singleton_append]
    exact trimStart_of_stops (.cons (by decide) _)
  refine ⟨fun rest => ?_, fun rest => ?_, fun rest => ?_⟩
  · rw [List.append_assoc]
    exact before.stops_append isNameByte_of_isBlank (.cons (by decide) _)
  · rw [htrim]
    rfl
  · rw [htrim]
    exact Tag.readParams_of_readsParams (readsParams_write h l inside rest)

end

/-- A list of entries in parentheses, or nothing. -/
def ReadsOptional (s : Bytes) (ps : List Param) : Prop := (s = [] ∧ ps = []) ∨ ReadsList s ps

theorem readsOptional_elim {α : Type} {write : α → Bytes} {params : α → List Param}
    (h : ∀ a, ReadsList (write a) (params a)) (list : Option α) :
    ReadsOptional (list.elim [] write) (list.elim [] params) := by
  cases list with
  | none => exact .inl ⟨rfl, rfl⟩
  | some a => exact .inr (h a)

theorem ReadsOptional.readSlotParams {s rest : Bytes} {ps : List Param} (h : ReadsOptional s ps)
    (hrest : (trimStart rest).head? ≠ some openParen) :
    Tag.readSlotParams (trimStart (s ++ rest)) = .ok (ps, trimStart rest) := by
  rcases h with ⟨rfl, rfl⟩ | h
  · exact if_neg hrest
  · rw [Tag.readSlotParams, if_pos (h.head? rest), h.readParams]
    rfl

/-! ## Arguments -/

theorem Literal.not_startsName_append (l : Literal) (rest : Bytes) :
    ¬startsName (l.write ++ rest) := by
  obtain ⟨b, t, hb, hstart⟩ := l.exists_write_eq_cons
  simp [hb, startsName, isNameStart_of_startsLiteral b hstart]

theorem Literal.trimStart_append (l : Literal) (rest : Bytes) :
    trimStart (l.write ++ rest) = l.write ++ rest :=
  trimStart_append_of_startsLiteral l.exists_write_eq_cons rest

/-- Whatever is read as a literal can be an entry. -/
theorem readsEntry_literal (before : Blanks) {s : Bytes} {value : Value}
    (hread : readLiteral s = .ok (value, [])) (behind : Blanks) :
    ReadsEntry (before.bytes ++ s ++ behind.bytes) { value } := by
  obtain ⟨b, t, rfl, hstart⟩ := exists_cons_of_readLiteral hread
  have htrim (rest : Bytes) : trimStart (before.bytes ++ b :: t ++ behind.bytes ++ rest) =
      b :: t ++ (behind.bytes ++ rest) := by
    rw [List.append_assoc, List.append_assoc, before.trimStart_append]
    exact trimStart_append_of_startsLiteral ⟨b, t, rfl, hstart⟩ _
  refine ⟨fun rest => ?_, fun {rest} h => ⟨behind.bytes ++ rest, ?_, behind.trimStart_append rest⟩⟩
  · rw [Tag.HasEntry, htrim]
    simp [ne_closeParen_of_startsLiteral b hstart]
  · have hstops : Stops inNumber (behind.bytes ++ rest) :=
      behind.stops_append inNumber_of_isBlank (h.stops inNumber_of_isBlank (by decide))
    have hname : ¬startsName (b :: t ++ (behind.bytes ++ rest)) := by
      simp [startsName, isNameStart_of_startsLiteral b hstart]
    rw [htrim, Tag.readEntry_of_not_startsName hname, readLiteral_append hread hstops]
    rfl

theorem Argument.readsEntry (a : Argument) : ReadsEntry a.write a.param := by
  have hread := readLiteral_write a.literal (.nil inNumber)
  rw [List.append_nil] at hread
  exact readsEntry_literal a.before hread a.behind

theorem Arguments.readsList (a : Arguments) : ReadsList a.write a.params :=
  readsList_write Argument.readsEntry a.before a.list a.inside

theorem requireLiterals_params (name : Bytes) (a : Arguments) :
    Tag.requireLiterals name a.params = .ok () := by
  have hfind : a.params.find? (·.required) = none := by
    rw [List.find?_eq_none, Arguments.params, List.forall_mem_map]
    exact fun _ _ => Bool.false_ne_true
  rw [Tag.requireLiterals, hfind]

/-! ## Arithmetic -/

theorem isBlank_symbol (o : Operator) : isBlank o.symbol = false := by cases o <;> decide

theorem isNameByte_symbol (o : Operator) : isNameByte o.symbol = false := by cases o <;> decide

theorem isPlain_symbol (o : Operator) : isPlain o.symbol := by cases o <;> decide

theorem symbol_ne_openParen (o : Operator) : o.symbol ≠ openParen := by cases o <;> decide

theorem symbol_ne_equals (o : Operator) : o.symbol ≠ equals := by cases o <;> decide

theorem ofSymbol?_symbol (o : Operator) : Operator.ofSymbol? o.symbol = some o := by
  cases o <;> decide

theorem Arithmetic.trimStart_write (a : Arithmetic) (rest : Bytes) :
    trimStart (a.write ++ rest) =
      a.operator.symbol :: (a.between.bytes ++ (a.operand.write ++ rest)) := by
  rw [write, List.append_assoc, a.before.trimStart_append, List.cons_append, List.append_assoc]
  exact trimStart_of_stops (.cons (isBlank_symbol a.operator) _)

theorem head?_arithmetic (arithmetic : Option Arithmetic) (behind : Blanks) :
    (trimStart (arithmetic.elim [] Arithmetic.write ++ behind.bytes)).head? =
      arithmetic.map fun a => a.operator.symbol := by
  cases arithmetic with
  | none =>
    rw [Option.elim, List.nil_append, behind.trimStart_bytes]
    rfl
  | some a =>
    rw [Option.elim, a.trimStart_write]
    rfl

theorem head?_arithmetic_ne (arithmetic : Option Arithmetic) (behind : Blanks) {b : UInt8}
    (hb : ∀ o : Operator, o.symbol ≠ b) :
    (trimStart (arithmetic.elim [] Arithmetic.write ++ behind.bytes)).head? ≠ some b := by
  rw [head?_arithmetic]
  cases arithmetic with
  | none => exact (Option.some_ne_none b).symm
  | some a => exact fun h => hb a.operator (Option.some.inj h)

theorem readOperation_write (name : Bytes) (arithmetic : Option Arithmetic) (behind : Blanks) :
    Tag.readOperation name (trimStart (arithmetic.elim [] Arithmetic.write ++ behind.bytes)) =
      .ok (arithmetic.map Arithmetic.operation, []) := by
  cases arithmetic with
  | none =>
    rw [Option.elim, List.nil_append, behind.trimStart_bytes]
    rfl
  | some a =>
    have hstops : Stops inNumber behind.bytes := behind.stops_bytes inNumber_of_isBlank
    have hread : readLiteral (trimStart (a.operand.write ++ behind.bytes)) =
        .ok (.number a.operand.value, behind.bytes) :=
      (congrArg readLiteral (Literal.trimStart_append (.number a.operand) behind.bytes)).trans
        (readLiteral_write (.number a.operand) hstops)
    rw [Option.elim, a.trimStart_write, Tag.readOperation, List.head?_cons, Option.bind_some,
      ofSymbol?_symbol]
    simp only [List.tail_cons, a.between.trimStart_append, hread]
    show (if Operation.dividesByZero ⟨a.operator, a.operand.value⟩ then _ else _) = _
    rw [a.allowed, if_neg Bool.false_ne_true, behind.trimStart_bytes]
    rfl

/-! ## Whole tags -/

theorem header_of_name (before : Blanks) (name : Name) {rest : Bytes} (h : Stops isNameByte rest) :
    Tag.Header (before.bytes ++ (name.bytes ++ rest)) false name.bytes (trimStart rest) := by
  have htrim : trimStart (before.bytes ++ (name.bytes ++ rest)) = name.bytes ++ rest :=
    (before.trimStart_append _).trans (trimStart_of_stops (name.stops_append rest))
  have hheader := Tag.Header.plain (by rw [htrim]; exact name.startsName_append rest)
  rwa [htrim, name.readName_append h] at hheader

theorem header_of_mark (before : Blanks) (name : Name) {rest : Bytes} (h : Stops isNameByte rest) :
    Tag.Header (before.bytes ++ atSign :: (name.bytes ++ rest)) true name.bytes (trimStart rest) := by
  have htrim : trimStart (before.bytes ++ atSign :: (name.bytes ++ rest)) =
      atSign :: (name.bytes ++ rest) :=
    (before.trimStart_append _).trans (trimStart_of_stops (.cons (by decide) _))
  have hheader := Tag.Header.raw htrim (name.startsName_append rest)
  rwa [name.readName_append h] at hheader

/-- What stands in a slot behind its name, if this is the list of its entries. -/
def afterName (list : Bytes) (arithmetic : Option Arithmetic) (behind : Blanks) : Bytes :=
  list ++ (arithmetic.elim [] Arithmetic.write ++ behind.bytes)

theorem stops_afterName {list : Bytes} {ps : List Param} (h : ReadsOptional list ps)
    (arithmetic : Option Arithmetic) (behind : Blanks) :
    Stops isNameByte (afterName list arithmetic behind) := by
  have hbehind : Stops isNameByte behind.bytes := behind.stops_bytes isNameByte_of_isBlank
  have harithmetic : Stops isNameByte (arithmetic.elim [] Arithmetic.write ++ behind.bytes) := by
    cases arithmetic with
    | none => exact hbehind
    | some a =>
      rw [Option.elim, Arithmetic.write, List.append_assoc]
      exact a.before.stops_append isNameByte_of_isBlank (.cons (isNameByte_symbol a.operator) _)
  rcases h with ⟨rfl, rfl⟩ | h
  · exact harithmetic
  · exact h.stops _

theorem head?_afterName {list : Bytes} {ps : List Param} (h : ReadsOptional list ps)
    (arithmetic : Option Arithmetic) (behind : Blanks) :
    (trimStart (afterName list arithmetic behind)).head? ≠ some equals := by
  rcases h with ⟨rfl, rfl⟩ | h
  · exact head?_arithmetic_ne arithmetic behind symbol_ne_equals
  · rw [afterName, h.head?]
    decide

theorem readSlot_write (raw : Bool) (name : Bytes) {list : Bytes} {ps : List Param}
    (h : ReadsOptional list ps) (arithmetic : Option Arithmetic) (behind : Blanks) :
    Tag.readSlot raw name (trimStart (afterName list arithmetic behind)) =
      .ok (.slot { name, params := ps, raw, operation := arithmetic.map Arithmetic.operation }) := by
  have hparams := h.readSlotParams (head?_arithmetic_ne arithmetic behind symbol_ne_openParen)
  have hoperation := readOperation_write name arithmetic behind
  simp only [Tag.readSlot, afterName, hparams, bind, Except.bind, hoperation]
  rfl

/-- What stands between the braces of a slot with this list of entries. -/
def slotBody (before : Blanks) (raw : Bool) (name : Name) (list : Bytes) (arithmetic : Option Arithmetic)
    (behind : Blanks) : Bytes :=
  before.bytes ++ (if raw then [atSign] else []) ++ name.bytes ++ list
    ++ arithmetic.elim [] Arithmetic.write ++ behind.bytes

theorem read_slotBody (before : Blanks) (raw : Bool) (name : Name) {list : Bytes} {ps : List Param}
    (h : ReadsOptional list ps) (arithmetic : Option Arithmetic) (behind : Blanks) :
    Tag.read (slotBody before raw name list arithmetic behind) =
      .ok (.slot
        { name := name.bytes, params := ps, raw, operation := arithmetic.map Arithmetic.operation }) := by
  have hstops := stops_afterName h arithmetic behind
  have hslot : ¬(!raw ∧ (trimStart (afterName list arithmetic behind)).head? = some equals) :=
    fun heq => head?_afterName h arithmetic behind heq.2
  have hheader : Tag.Header (slotBody before raw name list arithmetic behind) raw name.bytes
      (trimStart (afterName list arithmetic behind)) := by
    cases raw with
    | true => simpa [slotBody, afterName] using header_of_mark before name hstops
    | false => simpa [slotBody, afterName] using header_of_name before name hstops
  rw [Tag.read_of_header hheader, if_neg hslot, readSlot_write raw name.bytes h]

theorem readContent_write (name : Bytes) (content : Content) (behind : Blanks) :
    Tag.readContent name (trimStart (content.write ++ behind.bytes)) =
      .ok (content.bound, behind.bytes) := by
  cases content with
  | literal l =>
    have hstops : Stops inNumber behind.bytes := behind.stops_bytes inNumber_of_isBlank
    rw [Content.write, l.trimStart_append, Tag.readContent, if_neg (l.not_startsName_append _),
      readLiteral_write l hstops]
    cases l <;> rfl
  | call function arguments =>
    have htrim : trimStart (function.bytes ++ (arguments.write ++ behind.bytes)) =
        function.bytes ++ (arguments.write ++ behind.bytes) :=
      trimStart_of_stops (function.stops_append _)
    have harguments := arguments.readsList
    rw [Content.write, List.append_assoc, htrim, Tag.readContent,
      if_pos (function.startsName_append _), function.readName_append (harguments.stops _)]
    simp only [if_pos (harguments.head? behind.bytes), harguments.readParams]
    show (do Tag.requireLiterals name arguments.params; _) = _
    rw [requireLiterals_params]
    rfl

theorem read_body (t : Spelling) : Tag.read t.body = .ok t.tag := by
  cases t with
  | slot before raw name arguments arithmetic behind =>
    exact read_slotBody before raw name (readsOptional_elim Arguments.readsList arguments) arithmetic
      behind
  | definition before name beforeEquals behindEquals content behind =>
    have hstops : Stops isNameByte (beforeEquals.bytes ++ equals :: (behindEquals.bytes
        ++ (content.write ++ behind.bytes))) :=
      beforeEquals.stops_append isNameByte_of_isBlank (.cons (by decide) _)
    have htrim : trimStart (beforeEquals.bytes ++ equals :: (behindEquals.bytes
        ++ (content.write ++ behind.bytes))) =
          equals :: (behindEquals.bytes ++ (content.write ++ behind.bytes)) :=
      (beforeEquals.trimStart_append _).trans (trimStart_of_stops (.cons (by decide) _))
    have hheader := header_of_name before name hstops
    rw [htrim] at hheader
    have hbody : body (.definition before name beforeEquals behindEquals content behind) =
        before.bytes ++ (name.bytes ++ (beforeEquals.bytes ++ equals :: (behindEquals.bytes
          ++ (content.write ++ behind.bytes)))) := by
      simp [body]
    rw [hbody, Tag.read_of_header hheader, if_pos ⟨rfl, rfl⟩, Tag.readDefinition, List.tail_cons,
      behindEquals.trimStart_append, readContent_write]
    exact if_pos behind.blank

/-! ## The end of a tag -/

open Piece (splitTag opener closer Quoting)

/-- The scanner that looks for the end of a tag gets over these bytes and stays outside of quotes. -/
def Passes (s : Bytes) : Prop := ∀ rest body after, splitTag .outside rest = some (body, after) →
  splitTag .outside (s ++ rest) = some (s ++ body, after)

namespace Passes

theorem nil : Passes [] := fun _ _ _ h => h

theorem append {s t : Bytes} (hs : Passes s) (ht : Passes t) : Passes (s ++ t) := by
  intro rest body after h
  rw [List.append_assoc, List.append_assoc]
  exact hs _ _ _ (ht _ _ _ h)

theorem cons {b : UInt8} {s : Bytes} (hb : isPlain b) (hs : Passes s) : Passes (b :: s) := by
  intro rest body after h
  obtain ⟨hq, hbrace⟩ : isQuote b = false ∧ b ≠ closeBrace := by simpa [isPlain] using hb
  refine Piece.splitTag_cons ?_ (by simpa [Quoting.next, hq] using hs rest body after h)
  simp [Piece.closer_isPrefixOf_cons hbrace]

theorem of_isPlain {s : Bytes} (h : ∀ b ∈ s, isPlain b) : Passes s := by
  induction s with
  | nil => exact nil
  | cons b s ih =>
    rw [List.forall_mem_cons] at h
    exact cons h.1 (ih h.2)

theorem blanks (w : Blanks) : Passes w.bytes :=
  of_isPlain fun b hb => isPlain_of_isBlank b (List.all_eq_true.mp w.blank b hb)

theorem name (n : Name) : Passes n.bytes :=
  of_isPlain fun b hb => isPlain_of_isNameByte b (List.all_eq_true.mp n.nameBytes b hb)

/-- The scanner gets over whatever is read as a literal. -/
theorem of_readLiteral {s : Bytes} {value : Value} (h : readLiteral s = .ok (value, [])) : Passes s := by
  rcases Tag.readLiteral_eq_ok h with ⟨q, quoted, content, rfl, hq, hsplit, -⟩ | ⟨x, hnil, -, -⟩
  · intro rest body after htag
    have hclosed := splitUnescaped_append hsplit rest
    have hinside := Piece.splitTag_of_closed hq hclosed htag
    rw [← Piece.append_of_closed hsplit, List.append_nil] at hinside ⊢
    refine Piece.splitTag_cons ?_ (by rwa [Quoting.next_outside, if_pos hq])
    simp [Piece.closer_isPrefixOf_cons (ne_closeBrace_of_isQuote hq)]
  · have hdigits := Tag.splitNumber_append s
    rw [hnil, List.append_nil] at hdigits
    rw [← hdigits]
    exact of_isPlain fun b hb => isPlain_of_startsNumber b (Tag.startsNumber_of_mem_splitNumber hb)

theorem literal (l : Literal) : Passes l.write := by
  have hread := readLiteral_write l (Stops.nil inNumber)
  rw [List.append_nil] at hread
  exact of_readLiteral hread

theorem argument (a : Argument) : Passes a.write :=
  append (append (blanks a.before) (literal a.literal)) (blanks a.behind)

theorem intercalate {sep : Bytes} (hsep : Passes sep) {parts : List Bytes}
    (h : ∀ part ∈ parts, Passes part) : Passes (List.intercalate sep parts) := by
  induction parts with
  | nil => exact nil
  | cons part parts ih =>
    rw [List.forall_mem_cons] at h
    cases parts with
    | nil =>
      rw [List.intercalate_singleton]
      exact h.1
    | cons part' parts =>
      rw [List.intercalate_cons_cons]
      exact append (append h.1 hsep) (ih h.2)

theorem parenthesized {α : Type} {write : α → Bytes} (h : ∀ a, Passes (write a)) (before : Blanks)
    (l : List α) (inside : Blanks) :
    Passes (before.bytes ++ openParen :: (List.intercalate [comma] (l.map write) ++ inside.bytes
      ++ [closeParen])) := by
  have hlist : Passes (List.intercalate [comma] (l.map write)) :=
    intercalate (cons (by decide) nil) (List.forall_mem_map.mpr fun a _ => h a)
  exact append (blanks before) (cons (by decide)
    (append (append hlist (blanks inside)) (cons (by decide) nil)))

theorem arguments (a : Arguments) : Passes a.write := parenthesized argument a.before a.list a.inside

theorem arithmetic (a : Arithmetic) : Passes a.write :=
  append (blanks a.before) (cons (isPlain_symbol a.operator)
    (append (blanks a.between) (literal (.number a.operand))))

theorem elim {α : Type} {write : α → Bytes} (h : ∀ a, Passes (write a)) (part : Option α) :
    Passes (part.elim [] write) := by
  cases part with
  | none => exact nil
  | some a => exact h a

theorem slotBody {list : Bytes} (hlist : Passes list) (before : Blanks) (raw : Bool) (n : Name)
    (arith : Option Arithmetic) (behind : Blanks) :
    Passes (slotBody before raw n list arith behind) := by
  refine append (append (append (append (append (blanks before) ?_) (name n)) hlist)
    (elim arithmetic arith)) (blanks behind)
  cases raw with
  | true => exact cons (by decide) nil
  | false => exact nil

theorem content (c : Content) : Passes c.write := by
  cases c with
  | literal l => exact literal l
  | call function args => exact append (name function) (arguments args)

theorem body (t : Spelling) : Passes t.body := by
  cases t with
  | slot before raw n args arith behind =>
    exact slotBody (elim arguments args) before raw n arith behind
  | definition before n beforeEquals behindEquals c behind =>
    exact append (append (append (blanks before) (name n)) (blanks beforeEquals)) (cons (by decide)
      (append (append (blanks behindEquals) (content c)) (blanks behind)))

end Passes

theorem splitTag_body (t : Spelling) : splitTag .outside (t.body ++ closer) = some (t.body, []) := by
  have hbody := Passes.body t closer [] [] (by decide)
  rwa [List.append_nil] at hbody

/-! ## The whole template -/

theorem splitBlock?_nil (s : Slot) : Piece.splitBlock? s [] = none := by
  rw [Piece.splitBlock?]
  split
  · rfl
  · rfl

theorem requireLiterals_elim (name : Bytes) (arguments : Option Arguments) :
    Tag.requireLiterals name (arguments.elim [] Arguments.params) = .ok () := by
  cases arguments with
  | none => rfl
  | some a => exact requireLiterals_params name a

/-- The one piece of a template that is this tag alone. -/
def piece (t : Spelling) : Piece :=
  match t.tag with
  | .slot s => .slot t.write s
  | .definition d => .definition t.write d

theorem ofTag_write (t : Spelling) : Piece.ofTag t.write [] t.tag = .ok (t.piece, []) := by
  cases t with
  | slot before raw name arguments arithmetic behind =>
    simp only [tag, piece, Piece.ofTag, splitBlock?_nil, requireLiterals_elim]
    rfl
  | definition before name beforeEquals behindEquals content behind => rfl

theorem read_write (t : Spelling) : Piece.read t.write = .ok (t.piece, []) := by
  have hdrop : t.write.drop opener.length = t.body ++ closer := by
    rw [write, List.append_assoc, List.drop_left]
  have hopens : Piece.opensTag t.write := by
    rw [write, List.append_assoc]
    exact List.isPrefixOf_iff_prefix.mpr (List.prefix_append ..)
  rw [Piece.read_of_opensTag hopens, hdrop, Piece.readTag, splitTag_body]
  simp only [read_body]
  exact ofTag_write t

theorem layout_piece (t : Spelling) : Template.layout [t.piece] = t.document := by
  cases t <;> simp [Template.layout, Template.sectionsFrom, Template.sectionAt, piece, document, tag,
    Piece.shown]

theorem write_ne_nil (t : Spelling) : t.write ≠ [] := by
  simp [write, opener]

/-- Every tag is read as what was written. -/
theorem parse_write (t : Spelling) : Template.parse t.write = .ok t.document := by
  have hpieces : Template.pieces t.write = .ok [t.piece] := by
    rw [Template.pieces_of_ok t.write_ne_nil t.read_write, Template.pieces_nil]
    rfl
  rw [Template.parse, hpieces, ← t.layout_piece]

example : Template.parse (Bytes.ofString "\x7b\x7b @a ( '\x7d\x7d' , -1.5 ) *2\x7d\x7d") =
    .ok
      { text := Bytes.ofString "\x7b\x7b @a ( '\x7d\x7d' , -1.5 ) *2\x7d\x7d",
        sections :=
          [.slot ⟨0, 26⟩
            { name := Bytes.ofString "a", raw := true,
              params :=
                [{ value := .text (Bytes.ofString "\x7d\x7d") },
                  { value := .number ⟨0xbff8000000000000⟩ }],
              operation := some ⟨.multiply, ⟨0x4000000000000000⟩⟩ }] } := by
  decide +kernel

end Spelling

end Stencil
