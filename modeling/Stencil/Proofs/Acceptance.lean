import Stencil.Proofs.Arguments
import Stencil.Proofs.Blocks
import Stencil.Proofs.FaultPlaces
import Stencil.Proofs.Grammar

/-!
# Which tags are accepted

The readers accept what the grammar says. A reader takes a part of the grammar off the front of what it
is given (`list_of_readsParams`, `head_of_header`, `operation_of_readOperation`, `content_of_readContent`),
and it reads each part where anything follows that cannot go on with it (`readsParams_of_isList`,
`read_of_isHead`, `readOperation_of_isOperation`, `readContent_of_isContent`); so a tag that stands for
itself is read if and only if it is one of the grammar (`isTag_iff`). The readers report faults of the
syntax, apart from one: `dividesByZero_of_read` says where a zero divisor is found. The main statement is
`parse_braces`.
-/

namespace Stencil

open Ascii
open Bytes (trimStart)
open Piece (opener closer)
open Spelling (Blanks Name ReadsEntry ReadsList ReadsOptional)

namespace Grammar

open Tag (readLiteral readName startsName readEntry readParams ReadsParams Header)

/-! ## Blanks and names in front -/

theorem exists_blanks (s : Bytes) : ∃ w : Blanks, s = w.bytes ++ trimStart s :=
  ⟨⟨s.takeWhile isBlank, List.all_takeWhile⟩, List.takeWhile_append_dropWhile.symm⟩

theorem exists_blanks_cons {s : Bytes} {b : UInt8} (h : (trimStart s).head? = some b) :
    ∃ w : Blanks, s = w.bytes ++ b :: (trimStart s).tail := by
  obtain ⟨w, hw⟩ := exists_blanks s
  obtain ⟨t, ht⟩ := List.head?_eq_some_iff.mp h
  refine ⟨w, ?_⟩
  rw [ht] at hw ⊢
  exact hw

theorem exists_name {s : Bytes} (h : startsName s) :
    ∃ n : Name, n.bytes = (readName s).1 ∧ s = n.bytes ++ (readName s).2 := by
  obtain ⟨n, hn⟩ := Tag.exists_name_of_startsName h
  exact ⟨n, hn, hn ▸ List.takeWhile_append_dropWhile.symm⟩

/-! ## What is read is of the grammar -/

theorem entry_of_readEntry {bare : Bool} {s rest : Bytes} {p : Param} (h : readEntry s = .ok (p, rest))
    (hp : p.required → bare = true) :
    ∃ (entry : Bytes) (w : Blanks), IsEntry bare entry ∧ s = entry ++ (w.bytes ++ rest) := by
  rcases Tag.readEntry_eq_ok h with
    ⟨-, value, hvalue, rfl⟩ | ⟨hname, heq, value, hvalue, rfl⟩ | ⟨hname, rfl, rfl⟩
  · obtain ⟨literal, hliteral, hs⟩ := literal_of_readLiteral hvalue
    exact ⟨literal, ⟨[], rfl⟩, .literal hliteral, hs⟩
  · obtain ⟨n, -, hs⟩ := exists_name hname
    obtain ⟨v, hv⟩ := exists_blanks_cons heq
    obtain ⟨w, hw⟩ := exists_blanks (trimStart (readName s).2).tail
    obtain ⟨literal, hliteral, hrest⟩ := literal_of_readLiteral hvalue
    refine ⟨_, ⟨[], rfl⟩, .default n v w hliteral, ?_⟩
    rw [hrest] at hw
    rw [hw] at hv
    rw [hv] at hs
    simpa using hs
  · obtain ⟨n, -, hs⟩ := exists_name hname
    obtain ⟨w, hw⟩ := exists_blanks (readName s).2
    exact ⟨n.bytes, w, .name n (hp rfl), by rwa [← hw]⟩

/-- What is read as a list up to its closing parenthesis is one. Bare names are read in any list. -/
theorem list_of_readsParams {bare : Bool} {s rest : Bytes} {ps : List Param}
    (h : ReadsParams s ps rest) (hps : ∀ p ∈ ps, p.required → bare = true) :
    ∃ list, IsList bare list ∧ s = list ++ rest := by
  have hentry {s behind : Bytes} {p : Param} {b : UInt8} (hp : readEntry (trimStart s) = .ok (p, behind))
      (hbare : p.required → bare = true) (hb : (trimStart behind).head? = some b) :
      ∃ (v : Blanks) (entry : Bytes) (w : Blanks), IsEntry bare entry ∧
        s = v.bytes ++ entry ++ w.bytes ++ b :: (trimStart behind).tail := by
    obtain ⟨v, hv⟩ := exists_blanks s
    obtain ⟨entry, w, hentry, hs⟩ := entry_of_readEntry hp hbare
    obtain ⟨w', hw'⟩ := exists_blanks_cons hb
    refine ⟨v, entry, ⟨w.bytes ++ w'.bytes, ?_⟩, hentry, ?_⟩
    · exact List.all_append.trans (Bool.and_eq_true_iff.mpr ⟨w.blank, w'.blank⟩)
    · rw [hs, hw'] at hv
      simpa using hv
  induction h with
  | close h =>
    obtain ⟨w, hw⟩ := exists_blanks_cons h
    exact ⟨_, .close w, by simpa using hw⟩
  | last hs hp hclose =>
    obtain ⟨v, entry, w, hentry, hs⟩ := hentry hp (hps _ (List.mem_cons_self ..)) hclose
    exact ⟨_, .last v hentry w, by simpa using hs⟩
  | more hs hp hcomma _ ih =>
    rw [List.forall_mem_cons] at hps
    obtain ⟨v, entry, w, hentry, hs⟩ := hentry hp hps.1 hcomma
    obtain ⟨list, hlist, hrest⟩ := ih hps.2
    rw [hrest] at hs
    exact ⟨_, .more v hentry w hlist, by simpa using hs⟩

/-! ## What is of the grammar is read -/

theorem readsEntry_of_isEntry {bare : Bool} {s : Bytes} (h : IsEntry bare s) :
    ∃ p : Param, (p.required → bare = true) ∧
      ∀ v w : Blanks, ReadsEntry (v.bytes ++ s ++ w.bytes) p := by
  cases h with
  | literal h =>
    obtain ⟨value, hread⟩ := isLiteral_iff.mp h
    exact ⟨{ value }, (fun hr => nomatch hr), fun v w => Spelling.readsEntry_literal v hread w⟩
  | @default n v' w' s h =>
    obtain ⟨value, hread⟩ := isLiteral_iff.mp h
    refine ⟨{ name := n.bytes, value }, (fun hr => nomatch hr), fun v w => ?_⟩
    have hentry := Spelling.Declaration.readsEntry
      { before := v, name := n, default := some ⟨v', w', s, value, hread⟩, behind := w }
    simpa [Spelling.Declaration.write, Spelling.Default.write, Spelling.Declaration.param] using hentry
  | name n hbare =>
    refine ⟨{ name := n.bytes, required := true }, fun _ => hbare, fun v w => ?_⟩
    have hentry := Spelling.Declaration.readsEntry { before := v, name := n, default := none, behind := w }
    simpa [Spelling.Declaration.write, Spelling.Declaration.param] using hentry

theorem readsParams_of_isList {bare : Bool} {s : Bytes} (h : IsList bare s) :
    ∃ ps : List Param, (∀ p ∈ ps, p.required → bare = true) ∧ ∀ rest, ReadsParams (s ++ rest) ps rest := by
  have hclose (w : Blanks) (rest : Bytes) : trimStart (w.bytes ++ closeParen :: rest) = closeParen :: rest :=
    (w.trimStart_append _).trans (Spelling.trimStart_of_stops (.cons (by decide) _))
  induction h with
  | close w =>
    refine ⟨[], by simp, fun rest => Spelling.readsParams_of_close ?_⟩
    simpa using hclose w rest
  | last v h w =>
    obtain ⟨p, hp, hreads⟩ := readsEntry_of_isEntry h
    refine ⟨[p], by simpa using hp, fun rest => ?_⟩
    have hlast := (hreads v w).readsParams_last (hclose ⟨[], rfl⟩ rest)
    simpa using hlast
  | more v h w _ ih =>
    obtain ⟨p, hp, hreads⟩ := readsEntry_of_isEntry h
    obtain ⟨ps, hps, hrest⟩ := ih
    refine ⟨p :: ps, List.forall_mem_cons.mpr ⟨hp, hps⟩, fun rest => ?_⟩
    have hmore := (hreads v w).readsParams_more (hrest rest)
    simpa using hmore

theorem readsList_of_isParenthesized {bare : Bool} {s : Bytes} (h : IsParenthesized bare s) :
    ∃ ps : List Param, (∀ p ∈ ps, p.required → bare = true) ∧ ReadsList s ps := by
  obtain ⟨w, h⟩ := h
  obtain ⟨ps, hps, hreads⟩ := readsParams_of_isList h
  rename_i s
  have htrim (rest : Bytes) : trimStart (w.bytes ++ openParen :: s ++ rest) = openParen :: (s ++ rest) := by
    rw [List.append_assoc, w.trimStart_append, List.cons_append]
    exact Spelling.trimStart_of_stops (.cons (by decide) _)
  refine ⟨ps, hps, fun rest => ?_, fun rest => ?_, fun rest => ?_⟩
  · rw [List.append_assoc]
    exact w.stops_append isNameByte_of_isBlank (.cons (by decide) _)
  · rw [htrim]
    rfl
  · rw [htrim]
    exact Tag.readParams_of_readsParams (hreads rest)

/-! ## Heads of slots -/

theorem exists_of_header {body name after : Bytes} {raw : Bool} (h : Header body raw name after) :
    ∃ (before : Blanks) (n : Name) (s : Bytes), n.bytes = name ∧ after = trimStart s ∧
      body = before.bytes ++ (if raw then [atSign] else []) ++ n.bytes ++ s := by
  obtain ⟨before, hbefore⟩ := exists_blanks body
  cases h with
  | plain h =>
    obtain ⟨n, hn, hs⟩ := exists_name h
    refine ⟨before, n, _, hn, rfl, ?_⟩
    rw [hs] at hbefore
    simpa using hbefore
  | raw hmark h =>
    obtain ⟨n, hn, hs⟩ := exists_name h
    refine ⟨before, n, _, hn, rfl, ?_⟩
    rw [hmark, hs] at hbefore
    simpa using hbefore

theorem list_of_readSlotParams {bare : Bool} {s rest : Bytes} {ps : List Param}
    (h : Tag.readSlotParams (trimStart s) = .ok (ps, rest)) (hps : ∀ p ∈ ps, p.required → bare = true) :
    ∃ (list : Bytes) (w : Blanks), (list = [] ∨ IsParenthesized bare list) ∧
      s = list ++ (w.bytes ++ rest) := by
  rcases Tag.readSlotParams_eq_ok h with ⟨hopen, behind, hparams, rfl⟩ | ⟨-, rfl⟩
  · obtain ⟨v, hv⟩ := exists_blanks_cons hopen
    obtain ⟨list, hlist, hbehind⟩ := list_of_readsParams (Tag.readsParams_of_readParams hparams) hps
    obtain ⟨w, hw⟩ := exists_blanks behind
    refine ⟨v.bytes ++ openParen :: list, w, .inr ⟨v, hlist⟩, ?_⟩
    rw [hbehind, hw] at hv
    simpa using hv
  · obtain ⟨w, hw⟩ := exists_blanks s
    exact ⟨[], w, .inl rfl, hw⟩

/-- What is read as a slot up to its operation is a head. -/
theorem head_of_header {bare raw : Bool} {body name after rest : Bytes} {ps : List Param}
    (h : Header body raw name after) (hparams : Tag.readSlotParams after = .ok (ps, rest))
    (hps : ∀ p ∈ ps, p.required → bare = true) :
    ∃ (n : Name) (head : Bytes) (w : Blanks), n.bytes = name ∧ IsHead bare n head ∧
      body = head ++ (w.bytes ++ rest) := by
  obtain ⟨before, n, s, hn, rfl, hbody⟩ := exists_of_header h
  obtain ⟨list, w, hlist, rfl⟩ := list_of_readSlotParams hparams hps
  have hmark : (if raw then [atSign] else []) = [] ∨ (if raw then [atSign] else []) = [atSign] := by
    cases raw <;> simp
  exact ⟨n, _, w, hn, ⟨before, hmark, hlist⟩, by simpa using hbody⟩

/-- The head of a slot can end in front of these bytes. -/
structure EndsHead (s : Bytes) : Prop where
  stops : Stops isNameByte s
  ne_openParen : (trimStart s).head? ≠ some openParen
  ne_equals : (trimStart s).head? ≠ some equals

theorem endsHead_blanks (w : Blanks) : EndsHead w.bytes where
  stops := w.stops_bytes isNameByte_of_isBlank
  ne_openParen := by simp [w.trimStart_bytes]
  ne_equals := by simp [w.trimStart_bytes]

theorem trimStart_symbol (v : Blanks) (operator : Operator) (rest : Bytes) :
    trimStart (v.bytes ++ operator.symbol :: rest) = operator.symbol :: rest :=
  (v.trimStart_append _).trans
    (Spelling.trimStart_of_stops (.cons (Spelling.isBlank_symbol operator) rest))

theorem endsHead_symbol (v : Blanks) (operator : Operator) (rest : Bytes) :
    EndsHead (v.bytes ++ operator.symbol :: rest) where
  stops := v.stops_append isNameByte_of_isBlank (.cons (Spelling.isNameByte_symbol operator) rest)
  ne_openParen := by simpa [trimStart_symbol] using Spelling.symbol_ne_openParen operator
  ne_equals := by simpa [trimStart_symbol] using Spelling.symbol_ne_equals operator

/-- A name with a mark in front of it or without, and a list behind it, are read as a slot up to its
operation. -/
theorem read_of_readsOptional (before : Blanks) (raw : Bool) (name : Name) {list rest : Bytes}
    {ps : List Param} (hlist : ReadsOptional list ps) (hrest : EndsHead rest) :
    ∃ after, Tag.read (before.bytes ++ (if raw then [atSign] else []) ++ name.bytes ++ list ++ rest) =
        Tag.readSlot raw name.bytes after ∧
      Tag.readSlotParams after = .ok (ps, trimStart rest) := by
  have hstops : Stops isNameByte (list ++ rest) := by
    rcases hlist with ⟨rfl, -⟩ | hlist
    · exact hrest.stops
    · exact hlist.stops rest
  have hequals : (trimStart (list ++ rest)).head? ≠ some equals := by
    rcases hlist with ⟨rfl, -⟩ | hlist
    · exact hrest.ne_equals
    · rw [hlist.head?]
      decide
  have hheader : Header (before.bytes ++ (if raw then [atSign] else []) ++ name.bytes ++ list ++ rest) raw
      name.bytes (trimStart (list ++ rest)) := by
    cases raw with
    | false => simpa using Spelling.header_of_name before name hstops
    | true => simpa using Spelling.header_of_mark before name hstops
  refine ⟨_, ?_, hlist.readSlotParams hrest.ne_openParen⟩
  rw [Tag.read_of_header hheader, if_neg fun hdefinition => hequals hdefinition.2]

/-- A head is read as a slot up to its operation. -/
theorem read_of_isHead {bare : Bool} {name : Name} {head rest : Bytes} (h : IsHead bare name head)
    (hrest : EndsHead rest) :
    ∃ raw after ps, Tag.read (head ++ rest) = Tag.readSlot raw name.bytes after ∧
      Tag.readSlotParams after = .ok (ps, trimStart rest) ∧ ∀ p ∈ ps, p.required → bare = true := by
  obtain ⟨before, hmark, hlist⟩ := h
  rename_i mark list
  have hoptional : ∃ ps : List Param, (∀ p ∈ ps, p.required → bare = true) ∧ ReadsOptional list ps := by
    rcases hlist with rfl | hlist
    · exact ⟨[], by simp, .inl ⟨rfl, rfl⟩⟩
    · obtain ⟨ps, hps, hreads⟩ := readsList_of_isParenthesized hlist
      exact ⟨ps, hps, .inr hreads⟩
  obtain ⟨ps, hps, hreads⟩ := hoptional
  obtain ⟨raw, rfl⟩ : ∃ raw : Bool, mark = if raw then [atSign] else [] := by
    rcases hmark with rfl | rfl
    · exact ⟨false, rfl⟩
    · exact ⟨true, rfl⟩
  obtain ⟨after, hread, hparams⟩ := read_of_readsOptional before raw name hreads hrest
  exact ⟨raw, after, ps, hread, hparams, hps⟩

/-! ## Operations -/

/-- An operator and a number are read whatever follows them, unless they divide by zero. -/
theorem readOperation_symbol (name : Bytes) (operator : Operator) (w : Blanks) {s rest : Bytes}
    (h : IsNumber s) (hrest : Stops inNumber rest) {x : Binary64} (hx : Numeral.read? s = some x) :
    Tag.readOperation name (operator.symbol :: (w.bytes ++ s ++ rest)) =
      if Operation.dividesByZero ⟨operator, x⟩ then .error ⟨.zeroDivisor, .name name⟩
      else .ok (some ⟨operator, x⟩, trimStart rest) := by
  have hread := readLiteral_number h hrest hx
  have htrim : trimStart (w.bytes ++ s ++ rest) = s ++ rest := by
    rw [List.append_assoc, w.trimStart_append]
    obtain ⟨b, t, hb, hstart⟩ := Spelling.exists_cons_of_readLiteral hread
    rw [hb]
    exact Spelling.trimStart_of_stops (.cons (isBlank_of_startsLiteral b hstart) t)
  rw [Tag.readOperation, List.head?_cons, Option.bind_some, Spelling.ofSymbol?_symbol]
  simp only [List.tail_cons, htrim, hread]
  rfl

theorem readOperation_of_isOperation {operation : Bytes} (h : operation = [] ∨ IsOperation operation) :
    ∃ o, (∀ operation ∈ o, operation.dividesByZero = false) ∧ ∀ (name : Bytes) (behind : Blanks),
      EndsHead (operation ++ behind.bytes) ∧
        Tag.readOperation name (trimStart (operation ++ behind.bytes)) = .ok (o, []) := by
  rcases h with rfl | ⟨v, operator, w, h, hzero⟩
  · refine ⟨none, by simp, fun name behind => ⟨endsHead_blanks behind, ?_⟩⟩
    rw [List.nil_append, behind.trimStart_bytes]
    rfl
  · rename_i s
    obtain ⟨x, hx⟩ := read?_eq_some_iff.mpr h
    have hdivides : ¬Operation.dividesByZero ⟨operator, x⟩ := fun hdivides => by
      obtain ⟨hdivide, hx0⟩ : operator = .divide ∧ x.isZero := by
        simpa [Operation.dividesByZero] using hdivides
      exact hzero hdivide ⟨x, hx, hx0⟩
    refine ⟨some ⟨operator, x⟩, by simpa using hdivides, fun name behind => ?_⟩
    have hread := readOperation_symbol name operator w h (behind.stops_bytes inNumber_of_isBlank) hx
    rw [if_neg hdivides, behind.trimStart_bytes] at hread
    have hassoc : v.bytes ++ operator.symbol :: (w.bytes ++ s) ++ behind.bytes =
        v.bytes ++ operator.symbol :: (w.bytes ++ s ++ behind.bytes) := by
      simp
    rw [hassoc, trimStart_symbol]
    exact ⟨endsHead_symbol .., hread⟩

theorem exists_number {s rest : Bytes} {x : Binary64} (h : readLiteral s = .ok (.number x, rest)) :
    ∃ number, IsNumber number ∧ Numeral.read? number = some x ∧ Stops inNumber rest ∧
      s = number ++ rest := by
  rcases Tag.readLiteral_eq_ok h with ⟨q, quoted, content, -, -, -, hvalue⟩ | ⟨x', rfl, hx, hvalue⟩
  · cases hvalue
  · cases hvalue
    exact ⟨(Tag.splitNumber s).1, read?_eq_some_iff.mp ⟨x, hx⟩, hx, Stops.dropWhile inNumber _,
      (Tag.splitNumber_append s).symm⟩

theorem exists_symbol {s : Bytes} {operator : Operator}
    (h : s.head?.bind Operator.ofSymbol? = some operator) : s = operator.symbol :: s.tail := by
  obtain ⟨b, hb, hoperator⟩ := Option.bind_eq_some_iff.mp h
  have hsymbol : operator.symbol = b := by simpa using List.find?_some hoperator
  obtain ⟨t, rfl⟩ := List.head?_eq_some_iff.mp hb
  rw [hsymbol, List.tail_cons]

/-- What is read as an operation to its end is one, with blanks around it, or blanks alone. -/
theorem operation_of_readOperation {name s : Bytes} {o : Option Operation}
    (h : Tag.readOperation name s = .ok (o, [])) (w : Blanks) :
    ∃ (operation : Bytes) (behind : Blanks), (operation = [] ∨ IsOperation operation) ∧
      w.bytes ++ s = operation ++ behind.bytes := by
  rcases Tag.readOperation_eq_ok h with
    ⟨-, rfl⟩ | ⟨operator, x, rest, hoperator, hread, hzero, -, hrest⟩
  · exact ⟨[], w, .inl rfl, by simp⟩
  · obtain ⟨v, hv⟩ := exists_blanks s.tail
    obtain ⟨number, hnumber, hx, -, hs⟩ := exists_number hread
    obtain ⟨behind, hbehind⟩ := exists_blanks rest
    rw [← hrest, List.append_nil] at hbehind
    have hdivides (hdivide : operator = .divide) : ¬ReadsAsZero number := by
      rintro ⟨x', hx', hx0⟩
      obtain rfl : x = x' := Option.some.inj (hx.symm.trans hx')
      simp [Operation.dividesByZero, hdivide, hx0] at hzero
    refine ⟨_, behind, .inr (.mk w operator v hnumber hdivides), ?_⟩
    rw [exists_symbol hoperator, hv, hs, hbehind]
    simp

/-! ## Contents of definitions -/

theorem content_of_readContent {name s rest : Bytes} {content : Variable}
    (h : Tag.readContent name s = .ok (content, rest)) : ∃ c, IsContent c ∧ s = c ++ rest := by
  rcases Tag.readContent_eq_ok h with
    ⟨hname, hopen, ps, hparams, hrequire, -⟩ | ⟨-, value, hread, -⟩
  · obtain ⟨n, -, hs⟩ := exists_name hname
    obtain ⟨w, hw⟩ := exists_blanks_cons hopen
    have hps : ∀ p ∈ ps, p.required → false = true := fun p hp hrequired =>
      (Tag.requireLiterals_eq_ok_iff.mp hrequire p hp).symm.trans hrequired
    obtain ⟨list, hlist, hrest⟩ := list_of_readsParams (Tag.readsParams_of_readParams hparams) hps
    rw [hrest] at hw
    rw [hw] at hs
    exact ⟨_, .call n (.mk w hlist), by simpa using hs⟩
  · obtain ⟨literal, hliteral, hs⟩ := literal_of_readLiteral hread
    exact ⟨literal, .literal hliteral, hs⟩

/-- A function and a list of literals behind it are read as the call of the function. -/
theorem readContent_of_readsList (name : Bytes) (function : Name) {list : Bytes} {ps : List Param}
    (hlist : ReadsList list ps) (hps : ∀ p ∈ ps, p.required = false) (behind : Bytes) :
    Tag.readContent name (function.bytes ++ (list ++ behind)) =
      .ok ({ kind := .function, value := .text function.bytes, params := ps }, behind) := by
  have hrequire : Tag.requireLiterals name ps = .ok () := Tag.requireLiterals_eq_ok_iff.mpr hps
  simp only [Tag.readContent, if_pos (function.startsName_append _),
    function.readName_append (hlist.stops _), if_pos (hlist.head? _), hlist.readParams, bind,
    Except.bind, hrequire]
  rfl

theorem readContent_of_isContent (name : Bytes) {c : Bytes} (h : IsContent c) (behind : Blanks) :
    trimStart (c ++ behind.bytes) = c ++ behind.bytes ∧
      ∃ content, Tag.readContent name (c ++ behind.bytes) = .ok (content, behind.bytes) := by
  cases h with
  | literal h =>
    obtain ⟨value, hread⟩ := isLiteral_iff.mp h
    obtain ⟨b, t, rfl, hstart⟩ := Spelling.exists_cons_of_readLiteral hread
    have hname : ¬startsName (b :: t ++ behind.bytes) := by
      simp [startsName, isNameStart_of_startsLiteral b hstart]
    refine ⟨Spelling.trimStart_append_of_startsLiteral ⟨b, t, rfl, hstart⟩ _, .ofValue value, ?_⟩
    rw [Tag.readContent, if_neg hname,
      Spelling.readLiteral_append hread (behind.stops_bytes inNumber_of_isBlank)]
    rfl
  | @call function list h =>
    obtain ⟨ps, hps, hreads⟩ := readsList_of_isParenthesized h
    have hliterals : ∀ p ∈ ps, p.required = false := fun p hp =>
      Bool.eq_false_iff.mpr fun hrequired => Bool.false_ne_true (hps p hp hrequired)
    rw [List.append_assoc]
    exact ⟨Spelling.trimStart_of_stops (function.stops_append _), _,
      readContent_of_readsList name function hreads hliterals behind.bytes⟩

/-! ## Tags -/

/-- What a tag says can stand for itself, with no block behind it: no entry of a slot is a bare name. -/
def IsAlone : Tag → Prop
  | .definition _ => True
  | .slot s => ∀ p ∈ s.params, p.required = false

theorem read_of_isSlot {s : Bytes} (h : IsSlot s) : ∃ t, Tag.read s = .ok t ∧ IsAlone t := by
  obtain ⟨hhead, hoperation, behind⟩ := h
  rename_i name head operation
  obtain ⟨o, -, hreads⟩ := readOperation_of_isOperation hoperation
  obtain ⟨hends, ho⟩ := hreads name.bytes behind
  obtain ⟨raw, after, ps, hread, hparams, hps⟩ := read_of_isHead hhead hends
  refine ⟨.slot { name := name.bytes, params := ps, raw, operation := o }, ?_, fun p hp => ?_⟩
  · rw [List.append_assoc, hread]
    simp only [Tag.readSlot, hparams, bind, Except.bind, ho]
    rfl
  · exact Bool.eq_false_iff.mpr fun hrequired => Bool.false_ne_true (hps p hp hrequired)

/-- A definition is read wherever its content is. -/
theorem read_of_readContent (before : Blanks) (name : Name) (v w : Blanks) {c : Bytes} (behind : Blanks)
    {content : Variable} (htrim : trimStart (c ++ behind.bytes) = c ++ behind.bytes)
    (hread : Tag.readContent name.bytes (c ++ behind.bytes) = .ok (content, behind.bytes)) :
    Tag.read (before.bytes ++ name.bytes ++ v.bytes ++ equals :: (w.bytes ++ c ++ behind.bytes)) =
      .ok (.definition { name := name.bytes, content }) := by
  have hequals : Stops isBlank (equals :: (w.bytes ++ (c ++ behind.bytes))) := .cons (by decide) _
  have hheader := Spelling.header_of_name before name
    (v.stops_append isNameByte_of_isBlank (s := equals :: (w.bytes ++ (c ++ behind.bytes)))
      (.cons (by decide) _))
  rw [v.trimStart_append, Spelling.trimStart_of_stops hequals] at hheader
  have hassoc : before.bytes ++ name.bytes ++ v.bytes ++ equals :: (w.bytes ++ c ++ behind.bytes) =
      before.bytes ++ (name.bytes ++ (v.bytes ++ equals :: (w.bytes ++ (c ++ behind.bytes)))) := by
    simp
  rw [hassoc, Tag.read_of_header hheader, if_pos ⟨rfl, rfl⟩, Tag.readDefinition, List.tail_cons,
    w.trimStart_append, htrim, hread]
  exact if_pos behind.blank

theorem read_of_isDefinition {s : Bytes} (h : IsDefinition s) : ∃ t, Tag.read s = .ok t ∧ IsAlone t := by
  obtain ⟨before, name, v, w, hcontent, behind⟩ := h
  obtain ⟨htrim, content, hread⟩ := readContent_of_isContent name.bytes hcontent behind
  exact ⟨_, read_of_readContent before name v w behind htrim hread, trivial⟩

theorem isSlot_of_read {body : Bytes} {s : Slot} (h : Tag.read body = .ok (.slot s))
    (hs : IsAlone (.slot s)) : IsSlot body := by
  obtain ⟨raw, name, after, ps, rest, o, hheader, hparams, hoperation, rfl⟩ := Tag.read_eq_slot h
  have hps : ∀ p ∈ ps, p.required → false = true := fun p hp hrequired =>
    (hs p hp).symm.trans hrequired
  obtain ⟨n, head, w, -, hhead, rfl⟩ := head_of_header hheader hparams hps
  obtain ⟨operation, behind, hoperation, hw⟩ := operation_of_readOperation hoperation w
  rw [hw, ← List.append_assoc]
  exact .mk hhead hoperation behind

theorem isDefinition_of_read {body : Bytes} {d : Definition} (h : Tag.read body = .ok (.definition d)) :
    IsDefinition body := by
  obtain ⟨name, after, content, rest, hheader, hequals, hread, hblank, -⟩ := Tag.read_eq_definition h
  obtain ⟨before, n, s, -, rfl, hbody⟩ := exists_of_header hheader
  obtain ⟨v, hv⟩ := exists_blanks_cons hequals
  obtain ⟨w, hw⟩ := exists_blanks (trimStart s).tail
  obtain ⟨c, hc, hcontent⟩ := content_of_readContent hread
  rw [hcontent] at hw
  rw [hw] at hv
  rw [hv] at hbody
  have hdefinition := IsDefinition.mk before n v w hc ⟨rest, hblank⟩
  have hassoc : body = before.bytes ++ n.bytes ++ v.bytes ++ equals :: (w.bytes ++ c ++ rest) := by
    simpa using hbody
  exact hassoc ▸ hdefinition

/-- What is read as a tag that stands for itself is what the grammar says. -/
theorem isTag_iff {body : Bytes} : IsTag body ↔ ∃ t, Tag.read body = .ok t ∧ IsAlone t := by
  constructor
  · rintro (h | h)
    · exact read_of_isSlot h
    · exact read_of_isDefinition h
  · rintro ⟨d | s, hread, halone⟩
    · exact .definition (isDefinition_of_read hread)
    · exact .slot (isSlot_of_read hread halone)

/-! ## Zero divisors -/

theorem read_of_dividesByZero {name : Name} {body : Bytes} (h : DividesByZero name body) :
    Tag.read body = .error ⟨.zeroDivisor, .name name.bytes⟩ := by
  obtain ⟨hhead, v, w, hnumber, ⟨x, hx, hzero⟩, hrest⟩ := h
  rename_i head s rest
  obtain ⟨raw, after, ps, hread, hparams, -⟩ :=
    read_of_isHead hhead (endsHead_symbol v .divide (w.bytes ++ s ++ rest))
  have hoperation := readOperation_symbol name.bytes .divide w hnumber hrest hx
  rw [if_pos (by simpa [Operation.dividesByZero] using hzero)] at hoperation
  rw [trimStart_symbol] at hparams
  rw [List.append_assoc, show slash = Operator.divide.symbol from rfl, hread]
  simp only [Tag.readSlot, hparams, bind, Except.bind, hoperation]

open Fault (AllFaults)

/-- The fault is reported as one of the syntax. -/
def OfSyntax (f : Fault) : Prop := f.reason.kind = .parseError

theorem ofSyntax_readLiteral (s : Bytes) : AllFaults OfSyntax (readLiteral s) := by
  unfold readLiteral
  split
  · exact .error rfl
  · split
    · split
      · exact .error rfl
      · exact .ok _
    · split
      · dsimp only
        split
        · exact .ok _
        · exact .error rfl
      · exact .error rfl

theorem ofSyntax_readEntry (s : Bytes) : AllFaults OfSyntax (readEntry s) := by
  unfold readEntry
  split
  · dsimp only
    split
    · exact (ofSyntax_readLiteral _).bind fun _ _ => .ok _
    · exact .ok _
  · exact (ofSyntax_readLiteral s).bind fun _ _ => .ok _

theorem ofSyntax_readParams (s : Bytes) : AllFaults OfSyntax (readParams s) := by
  induction s using Tag.params_induction with
  | nil s hnil =>
    rw [Tag.readParams_of_nil hnil]
    exact .error rfl
  | close s hclose =>
    rw [Tag.readParams_of_close hclose]
    exact .ok _
  | error s fault hs hp =>
    rw [Tag.readParams_of_error hs hp]
    exact .error (ofSyntax_readEntry _ fault hp)
  | more s p behind hs hp hcomma ih =>
    rw [Tag.readParams_of_entry hs hp, Tag.readMoreParams, if_pos hcomma]
    exact ih.bind fun _ _ => .ok _
  | last s p behind hs hp hcomma =>
    rw [Tag.readParams_of_entry hs hp, Tag.readMoreParams, if_neg hcomma]
    split
    · exact .ok _
    · exact .error rfl

theorem ofSyntax_requireLiterals (name : Bytes) (ps : List Param) :
    AllFaults OfSyntax (Tag.requireLiterals name ps) := by
  intro fault h
  obtain ⟨p, -, -, rfl⟩ := Tag.requireLiterals_eq_error h
  rfl

theorem ofSyntax_readContent (name s : Bytes) : AllFaults OfSyntax (Tag.readContent name s) := by
  unfold Tag.readContent
  split
  · dsimp only
    split
    · refine (ofSyntax_readParams _).bind fun _ _ => ?_
      exact (ofSyntax_requireLiterals name _).bind fun _ _ => .ok _
    · exact .error rfl
  · exact (ofSyntax_readLiteral s).bind fun _ _ => .ok _

theorem ofSyntax_readDefinition (name s : Bytes) : AllFaults OfSyntax (Tag.readDefinition name s) := by
  refine (ofSyntax_readContent name _).bind fun _ _ => ?_
  dsimp only
  split
  · exact .ok _
  · exact .error rfl

theorem ofSyntax_readSlotParams (s : Bytes) : AllFaults OfSyntax (Tag.readSlotParams s) := by
  unfold Tag.readSlotParams
  split
  · exact (ofSyntax_readParams s.tail).bind fun _ _ => .ok _
  · exact .ok _

/-- An operation is refused for another reason only where a slash and a zero are read. -/
theorem zero_of_readOperation {name s : Bytes} {fault : Fault}
    (h : Tag.readOperation name s = .error fault) (hfault : ¬OfSyntax fault) :
    ∃ (w : Blanks) (number rest : Bytes), s = slash :: (w.bytes ++ number ++ rest) ∧
      IsNumber number ∧ ReadsAsZero number ∧ Stops inNumber rest := by
  unfold Tag.readOperation at h
  split at h
  · cases h
  · rename_i operator hoperator
    rcases Fault.bind_eq_error.mp h with hread | ⟨⟨value, rest⟩, hread, h⟩
    · exact absurd (ofSyntax_readLiteral _ fault hread) hfault
    · cases value with
      | text t =>
        cases h
        exact absurd rfl hfault
      | number x =>
        dsimp only at h
        split at h
        · rename_i hzero
          obtain ⟨rfl, hx0⟩ : operator = .divide ∧ x.isZero := by
            simpa [Operation.dividesByZero] using hzero
          obtain ⟨w, hw⟩ := exists_blanks s.tail
          obtain ⟨number, hnumber, hx, hstops, hs⟩ := exists_number hread
          refine ⟨w, number, rest, ?_, hnumber, ⟨x, hx, hx0⟩, hstops⟩
          rw [List.append_assoc, ← hs, ← hw]
          exact exists_symbol hoperator
        · cases h

/-- A tag is refused for another reason only where it divides by zero. -/
theorem dividesByZero_of_read {body : Bytes} {fault : Fault} (h : Tag.read body = .error fault)
    (hfault : ¬OfSyntax fault) : ∃ name, DividesByZero name body := by
  by_cases hheader : ∃ raw name after, Header body raw name after
  · obtain ⟨raw, name, after, hheader⟩ := hheader
    rw [Tag.read_of_header hheader] at h
    split at h
    · exact absurd (ofSyntax_readDefinition name _ fault h) hfault
    · rcases Fault.bind_eq_error.mp h with hparams | ⟨⟨ps, rest⟩, hparams, h⟩
      · exact absurd (ofSyntax_readSlotParams after fault hparams) hfault
      · rcases Fault.bind_eq_error.mp h with hoperation | ⟨⟨o, rest'⟩, -, h⟩
        · obtain ⟨w, number, rest', rfl, hnumber, hzero, hstops⟩ := zero_of_readOperation hoperation hfault
          have hps : ∀ p ∈ ps, p.required → true = true := fun _ _ _ => rfl
          obtain ⟨n, head, v, -, hhead, rfl⟩ := head_of_header hheader hparams hps
          rw [← List.append_assoc]
          exact ⟨n, .mk hhead v w hnumber hzero hstops⟩
        · dsimp only at h
          split at h
          · cases h
          · cases h
            exact absurd rfl hfault
  · obtain ⟨closed, hread | hread⟩ := Tag.read_of_not_header fun raw name after hh =>
      hheader ⟨raw, name, after, hh⟩
    all_goals
      rw [hread] at h
      cases h
      exact absurd rfl hfault

/-! ## Templates of one tag -/

/-- The section that a tag makes where it stands for itself. -/
def sectionOf (span : Span) : Tag → Section
  | .definition d => .definition span d
  | .slot s => .slot span s

theorem read_braces (body : Bytes) :
    Piece.read (opener ++ body ++ closer) = Piece.readTag (body ++ closer) := by
  have hopens : Piece.opensTag (opener ++ (body ++ closer)) :=
    List.isPrefixOf_iff_prefix.mpr (List.prefix_append ..)
  rw [List.append_assoc, Piece.read_of_opensTag hopens, List.drop_left]

section

variable {body : Bytes} (hsplit : Piece.splitTag .outside (body ++ closer) = some (body, []))
include hsplit

theorem read_braces_of_error {fault : Fault} (h : Tag.read body = .error fault) :
    Piece.read (opener ++ body ++ closer) = .error (fault.followedBy closer.length) := by
  rw [read_braces, Piece.readTag, hsplit]
  simp only [h]
  rfl

theorem sections_of_isAlone {t : Tag} (h : Tag.read body = .ok t) (ht : IsAlone t) :
    ∃ d span, Template.parse (opener ++ body ++ closer) = .ok d ∧ d.sections = [sectionOf span t] := by
  have hne : opener ++ body ++ closer ≠ [] := by simp [opener]
  have hof : ∃ p, Piece.OfTag (opener ++ body ++ closer) [] t p [] ∧
      ∃ span, Template.sectionAt 0 0 p = sectionOf span t := by
    cases t with
    | definition d => exact ⟨_, .definition d, _, rfl⟩
    | slot s => exact ⟨_, .slot (Spelling.splitBlock?_nil s) ht, _, rfl⟩
  obtain ⟨p, hp, span, hsection⟩ := hof
  have hreads := Piece.Reads.tag (by rwa [List.append_nil]) h hp
  rw [List.append_nil] at hreads
  exact ⟨_, span, Template.parse_of_splits (.cons hne hreads.read_eq .nil), by
    rw [Template.layout, Template.sectionsFrom, Template.sectionsFrom, hsection]⟩

theorem parse_of_isAlone {t : Tag} (h : Tag.read body = .ok t) (ht : IsAlone t) :
    ∃ d, Template.parse (opener ++ body ++ closer) = .ok d := by
  obtain ⟨d, -, hd, -⟩ := sections_of_isAlone hsplit h ht
  exact ⟨d, hd⟩

/-- A bare name is an entry only where the tag opens a block. -/
theorem read_braces_of_not_isAlone {t : Tag} (h : Tag.read body = .ok t) (ht : ¬IsAlone t) :
    ∃ fault, Piece.read (opener ++ body ++ closer) = .error fault ∧ OfSyntax fault := by
  cases t with
  | definition d => exact absurd trivial ht
  | slot s =>
    cases hrequire : Tag.requireLiterals s.name s.params with
    | ok u => exact absurd (Tag.requireLiterals_eq_ok_iff.mp hrequire) ht
    | error fault =>
      refine ⟨fault, ?_, ofSyntax_requireLiterals s.name s.params fault hrequire⟩
      rw [read_braces, Piece.readTag, hsplit]
      simp only [h, Piece.ofTag, Spelling.splitBlock?_nil, hrequire]
      rfl

end

/-- A template of one tag can be read if and only if the grammar has the tag. Otherwise it fails, and
only a zero divisor is another reason than the syntax. -/
theorem parse_braces {body : Bytes}
    (hsplit : Piece.splitTag .outside (body ++ closer) = some (body, [])) :
    ((∃ d, Template.parse (opener ++ body ++ closer) = .ok d) ↔ IsTag body) ∧
    (∀ name, DividesByZero name body → Template.parse (opener ++ body ++ closer) =
      .error { kind := .divisionByZero, name := name.bytes }) ∧
    (¬IsTag body → (∀ name, ¬DividesByZero name body) →
      ∃ failure, Template.parse (opener ++ body ++ closer) = .error failure ∧
        failure.kind = .parseError) := by
  have hfails {fault : Fault} (h : Piece.read (opener ++ body ++ closer) = .error fault) :=
    Template.parse_of_read_eq_error (by simp [opener]) h
  have hrefused (hno : ¬IsTag body) : ∃ fault, Piece.read (opener ++ body ++ closer) = .error fault ∧
      (OfSyntax fault ∨ ∃ name, DividesByZero name body) := by
    cases hread : Tag.read body with
    | error fault =>
      refine ⟨_, read_braces_of_error hsplit hread, ?_⟩
      by_cases hfault : OfSyntax fault
      · exact .inl hfault
      · exact .inr (dividesByZero_of_read hread hfault)
    | ok t =>
      have ht : ¬IsAlone t := fun ht => hno (isTag_iff.mpr ⟨t, hread, ht⟩)
      obtain ⟨fault, hfault, hsyntax⟩ := read_braces_of_not_isAlone hsplit hread ht
      exact ⟨fault, hfault, .inl hsyntax⟩
  refine ⟨⟨fun hparse => ?_, fun h => ?_⟩, fun name h => ?_, fun hno hzero => ?_⟩
  · obtain ⟨d, hd⟩ := hparse
    by_contra hno
    obtain ⟨fault, hfault, -⟩ := hrefused hno
    cases hd.symm.trans (hfails hfault)
  · obtain ⟨t, hread, ht⟩ := isTag_iff.mp h
    exact parse_of_isAlone hsplit hread ht
  · exact hfails (read_braces_of_error hsplit (read_of_dividesByZero h))
  · obtain ⟨fault, hfault, hsyntax | ⟨name, hname⟩⟩ := hrefused hno
    · exact ⟨_, hfails hfault, hsyntax⟩
    · exact absurd hname (hzero name)

/-- A divisor that reads as zero behind a list with a bare name in it, and a tag with a default. -/
theorem parse_braces_of_lists :
    (Piece.splitTag .outside (Bytes.ofString "x(a,)/-.0?" ++ closer) =
        some (Bytes.ofString "x(a,)/-.0?", []) ∧
      Template.parse (opener ++ Bytes.ofString "x(a,)/-.0?" ++ closer) =
        .error { kind := .divisionByZero, name := Bytes.ofString "x" }) ∧
    (Piece.splitTag .outside (Bytes.ofString "@x (a= '\x7d\x7d')*5." ++ closer) =
        some (Bytes.ofString "@x (a= '\x7d\x7d')*5.", []) ∧
      ∃ d, Template.parse (opener ++ Bytes.ofString "@x (a= '\x7d\x7d')*5." ++ closer) = .ok d) := by
  let empty : Blanks := ⟨[], rfl⟩
  let one : Blanks := ⟨[space], rfl⟩
  let x : Name := ⟨Bytes.ofString "x", by decide, by decide⟩
  let a : Name := ⟨Bytes.ofString "a", by decide, by decide⟩
  refine ⟨⟨by decide, ?_⟩, ⟨by decide, ?_⟩⟩
  · have hlist : IsParenthesized true (Bytes.ofString "(a,)") :=
      .mk empty (.more empty (.name a rfl) empty (.close empty))
    have hnumber : IsNumber (Bytes.ofString "-.0") :=
      .negative (@IsUnsigned.pointed [] [zero] (by decide) (List.all_eq_true.mp rfl))
    have hzero : ReadsAsZero (Bytes.ofString "-.0") := ⟨⟨0x8000000000000000⟩, by decide +kernel, by decide⟩
    have hdivides : DividesByZero x (Bytes.ofString "x(a,)/-.0?") :=
      .mk (.mk empty (.inl rfl) (.inr hlist)) empty empty hnumber hzero (.cons (by decide) [])
    exact (parse_braces (by decide)).2.1 x hdivides
  · have hquoted : IsQuoted singleQuote (Bytes.ofString "\x7d\x7d") :=
      .plain (by decide) (by decide) (.plain (by decide) (by decide) .nil)
    have hlist : IsParenthesized false (Bytes.ofString " (a= '\x7d\x7d')") :=
      .mk one (.last empty (.default a empty one (.text (by decide) hquoted)) empty)
    have hnumber : IsNumber (Bytes.ofString "5.") :=
      .positive (@IsUnsigned.pointed [0x35] [] (by decide) (List.all_eq_true.mp rfl))
    have hhead : IsHead false x (Bytes.ofString "@x (a= '\x7d\x7d')") :=
      .mk empty (.inr rfl) (.inr hlist)
    have htag : IsTag (Bytes.ofString "@x (a= '\x7d\x7d')*5.") :=
      .slot (.mk hhead (.inr (.mk empty .multiply empty hnumber (fun h => nomatch h))) empty)
    exact (parse_braces (by decide)).1.mpr htag

end Grammar

end Stencil
