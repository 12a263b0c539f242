import Stencil.Proofs.Acceptance
import Stencil.Proofs.CallOrder
import Stencil.Proofs.ReservedNames
import Stencil.Proofs.SingleSlots

/-!
# Calls in a slot and calls through a variable

A function is called by a slot of its name, or a definition binds the call to a variable and a slot of that
name makes it. The arguments are read from the same bytes in both ways, as entries of a slot
(`Call.ReadAs.isSlotTag_inline`) and as the content of a definition (`Call.ReadAs.read_definition`), and so is
the operation (`Call.ReadAs.isSlotTag_use`). Either slot refers to the same variable, so that the same call is
made and its value comes to stand between the same texts (`Session.trace_of_showsSlot`). The main statement is
`Session.trace_inline`.
-/

namespace Stencil

open Ascii
open Piece (opener closer)
open Spelling (Blanks Name ReadsList ReadsOptional Passes)

/-! ## No two slashes in a row -/

namespace Comment

/-- The text has no comments. -/
def IsAbsent (s : Bytes) : Prop := ¬[slash, slash] <:+: s

namespace IsAbsent

theorem of_notMem {s : Bytes} (h : slash ∉ s) : IsAbsent s := fun hoccurs =>
  h (hoccurs.subset (List.mem_cons_self ..))

/-- Two slashes that stand next to each other are in one of the texts, unless one stands at the end of the
first and one at the front of the second. -/
theorem append {s t : Bytes} (hs : IsAbsent s) (ht : IsAbsent t)
    (h : s.getLast? ≠ some slash ∨ t.head? ≠ some slash) : IsAbsent (s ++ t) := by
  intro hoccurs
  rcases List.infix_append_iff.mp hoccurs with hoccurs | hoccurs | ⟨u, v, huv, hu, hv⟩
  · exact hs hoccurs
  · exact ht hoccurs
  · match u, v, huv with
    | [], _, rfl => exact ht hv.isInfix
    | [_], [_], rfl =>
      obtain ⟨s', rfl⟩ := hu
      obtain ⟨t', rfl⟩ := hv
      simp at h
    | [_, _], [], rfl => exact hs hu.isInfix

theorem append_left {s t : Bytes} (hs : slash ∉ s) (ht : IsAbsent t) : IsAbsent (s ++ t) :=
  (of_notMem hs).append ht (.inl fun hlast => hs (List.mem_of_getLast? hlast))

theorem append_right {s t : Bytes} (hs : IsAbsent s) (ht : slash ∉ t) : IsAbsent (s ++ t) :=
  hs.append (of_notMem ht) (.inr fun hhead => ht (List.mem_of_head? hhead))

end IsAbsent

end Comment

/-! ## Parts of a tag -/

namespace Grammar

theorem slash_notMem_number {s : Bytes} (h : IsNumber s) : slash ∉ s := by
  have hunsigned {s : Bytes} (h : IsUnsigned s) : slash ∉ s := fun hmem =>
    absurd (inNumber_of_isUnsigned h slash hmem) (by decide)
  cases h with
  | positive h => exact hunsigned h
  | negative h => exact List.not_mem_cons_of_ne_of_not_mem (by decide) (hunsigned h)

theorem getLast?_of_isParenthesized {bare : Bool} {s : Bytes} (h : IsParenthesized bare s) :
    s.getLast? = some closeParen := by
  have hlist {s : Bytes} (h : IsList bare s) : s.getLast? = some closeParen := by
    induction h with
    | close w => simp
    | last v h w => simp
    | more v h w _ ih => simp [List.getLast?_append, List.getLast?_cons, ih]
  obtain ⟨w, h⟩ := h
  simp [List.getLast?_append, List.getLast?_cons, hlist h]

theorem passes_isLiteral {s : Bytes} (h : IsLiteral s) : Passes s := by
  obtain ⟨value, hread⟩ := isLiteral_iff.mp h
  exact .of_readLiteral hread

theorem passes_isEntry {bare : Bool} {s : Bytes} (h : IsEntry bare s) : Passes s := by
  cases h with
  | literal h => exact passes_isLiteral h
  | default n v w h =>
    exact .append (.name n) (.append (.blanks v) (.cons (by decide) (.append (.blanks w) (passes_isLiteral h))))
  | name n => exact .name n

theorem passes_isList {bare : Bool} {s : Bytes} (h : IsList bare s) : Passes s := by
  have hone {b : UInt8} (hb : isPlain b) : Passes [b] := .cons hb .nil
  induction h with
  | close w => exact .append (.blanks w) (hone (by decide))
  | last v h w =>
    exact .append (.append (.append (.blanks v) (passes_isEntry h)) (.blanks w)) (hone (by decide))
  | more v h w _ ih =>
    exact .append (.append (.append (.blanks v) (passes_isEntry h)) (.blanks w)) (.cons (by decide) ih)

theorem passes_isParenthesized {bare : Bool} {s : Bytes} (h : IsParenthesized bare s) : Passes s := by
  obtain ⟨w, h⟩ := h
  exact .append (.blanks w) (.cons (by decide) (passes_isList h))

theorem passes_isOperation {s : Bytes} (h : IsOperation s) : Passes s := by
  obtain ⟨v, operator, w, h, -⟩ := h
  exact .append (.blanks v) (.cons (Spelling.isPlain_symbol operator)
    (.append (.blanks w) (passes_isLiteral (.number h))))

theorem isAbsent_isOperation {s : Bytes} (h : IsOperation s) : Comment.IsAbsent s := by
  cases h with
  | @mk v operator w s h _ =>
    have hrest : slash ∉ w.bytes ++ s := by simp [w.slash_notMem, slash_notMem_number h]
    have hsymbol : Comment.IsAbsent [operator.symbol] := fun hoccurs => absurd hoccurs.length_le (by simp)
    exact .append_left v.slash_notMem (hsymbol.append_right hrest)

end Grammar

/-! ## Calls -/

open Grammar (IsParenthesized IsOperation)

/-- The call of a function with literals for arguments, and the operation on its value, if there is one, as
they are written. The arguments could not be taken for comments. -/
structure Call where
  function : Name
  list : Bytes
  operation : Bytes
  isList : IsParenthesized false list
  isOperation : operation = [] ∨ IsOperation operation
  noComment : Comment.IsAbsent list

namespace Call

/-- The body of a slot that makes the call. -/
inductive Inline (c : Call) : Bytes → Prop
  | mk (before behind : Blanks) :
    Inline c (before.bytes ++ c.function.bytes ++ c.list ++ c.operation ++ behind.bytes)

/-- The body of a definition that binds the call to a variable, without the operation. -/
inductive Defines (c : Call) (v : Name) : Bytes → Prop
  | mk (before beforeEquals behindEquals behind : Blanks) :
    Defines c v (before.bytes ++ v.bytes ++ beforeEquals.bytes ++ equals ::
      (behindEquals.bytes ++ (c.function.bytes ++ c.list) ++ behind.bytes))

/-- The body of a slot that applies the operation to the variable. -/
inductive Uses (c : Call) (v : Name) : Bytes → Prop
  | mk (before behind : Blanks) : Uses c v (before.bytes ++ v.bytes ++ c.operation ++ behind.bytes)

/-- What a call is read as: the arguments, and the operation. -/
structure ReadAs (c : Call) (ps : List Param) (o : Option Operation) : Prop where
  list : ReadsList c.list ps
  literals : ∀ p ∈ ps, p.required = false
  operation (name : Bytes) (behind : Blanks) : Grammar.EndsHead (c.operation ++ behind.bytes) ∧
    Tag.readOperation name (Bytes.trimStart (c.operation ++ behind.bytes)) = .ok (o, [])
  divides : ∀ operation ∈ o, operation.dividesByZero = false

theorem exists_readAs (c : Call) : ∃ ps o, c.ReadAs ps o := by
  obtain ⟨ps, hps, hlist⟩ := Grammar.readsList_of_isParenthesized c.isList
  obtain ⟨o, hdivides, hoperation⟩ := Grammar.readOperation_of_isOperation c.isOperation
  refine ⟨ps, o, hlist, fun p hp => ?_, hoperation, hdivides⟩
  exact Bool.eq_false_iff.mpr fun hrequired => Bool.false_ne_true (hps p hp hrequired)

theorem passes_operation (c : Call) : Passes c.operation := by
  rcases c.isOperation with h | h
  · exact h ▸ .nil
  · exact Grammar.passes_isOperation h

theorem isAbsent_operation (c : Call) : Comment.IsAbsent c.operation := by
  rcases c.isOperation with h | h
  · exact h ▸ .of_notMem List.not_mem_nil
  · exact Grammar.isAbsent_isOperation h

variable {c : Call} {ps : List Param} {o : Option Operation}

/-- A name with this operation is read as a slot, with a list of entries in between or without. -/
theorem ReadAs.isSlotTag (h : c.ReadAs ps o) (before : Blanks) (name : Name) {list : Bytes}
    {entries : List Param} (hlist : ReadsOptional list entries) (hpasses : Passes list)
    (hliterals : ∀ p ∈ entries, p.required = false) (behind : Blanks) :
    Template.IsSlotTag (before.bytes ++ name.bytes ++ list ++ c.operation ++ behind.bytes)
      { name := name.bytes, params := entries, operation := o } where
  passes := .append (.append (.append (.append (.blanks before) (.name name)) hpasses) c.passes_operation)
    (.blanks behind)
  read := by
    obtain ⟨hends, hoperation⟩ := h.operation name.bytes behind
    obtain ⟨after, hread, hparams⟩ := Grammar.read_of_readsOptional before false name hlist hends
    have hassoc : before.bytes ++ name.bytes ++ list ++ c.operation ++ behind.bytes =
        before.bytes ++ (if false then [atSign] else []) ++ name.bytes ++ list ++
          (c.operation ++ behind.bytes) := by
      simp
    rw [hassoc, hread]
    simp only [Tag.readSlot, hparams, bind, Except.bind, hoperation]
    rfl
  literals := hliterals

theorem ReadAs.isSlotTag_inline (h : c.ReadAs ps o) {body : Bytes} (hbody : c.Inline body) :
    Template.IsSlotTag body { name := c.function.bytes, params := ps, operation := o } := by
  obtain ⟨before, behind⟩ := hbody
  exact h.isSlotTag before c.function (.inr h.list) (Grammar.passes_isParenthesized c.isList) h.literals
    behind

theorem ReadAs.isSlotTag_use (h : c.ReadAs ps o) {v : Name} {body : Bytes} (hbody : c.Uses v body) :
    Template.IsSlotTag body { name := v.bytes, operation := o } := by
  obtain ⟨before, behind⟩ := hbody
  simpa using h.isSlotTag before v (.inl ⟨rfl, rfl⟩) .nil (by simp) behind

/-- The definition that binds a call to a name. -/
def definition (c : Call) (v : Name) (ps : List Param) : Definition where
  name := v.bytes
  content := { kind := .function, value := .text c.function.bytes, params := ps }

theorem ReadAs.read_definition (h : c.ReadAs ps o) {v : Name} {body : Bytes} (hbody : c.Defines v body)
    (rest : Bytes) :
    Piece.read (opener ++ body ++ closer ++ rest) =
      .ok (.definition (opener ++ body ++ closer) (c.definition v ps), rest) := by
  obtain ⟨before, beforeEquals, behindEquals, behind⟩ := hbody
  have hcontent := Grammar.readContent_of_readsList v.bytes c.function h.list h.literals behind.bytes
  rw [← List.append_assoc] at hcontent
  have htrim : Bytes.trimStart (c.function.bytes ++ c.list ++ behind.bytes) =
      c.function.bytes ++ c.list ++ behind.bytes := by
    rw [List.append_assoc]
    exact Spelling.trimStart_of_stops (c.function.stops_append _)
  have hread := Grammar.read_of_readContent before v beforeEquals behindEquals behind htrim hcontent
  have hpasses : Passes (before.bytes ++ v.bytes ++ beforeEquals.bytes ++ equals ::
      (behindEquals.bytes ++ (c.function.bytes ++ c.list) ++ behind.bytes)) :=
    .append (.append (.append (.blanks before) (.name v)) (.blanks beforeEquals)) (.cons (by decide)
      (.append (.append (.blanks behindEquals) (.append (.name c.function)
        (Grammar.passes_isParenthesized c.isList))) (.blanks behind)))
  exact (Piece.Reads.tag (hpasses.splitTag rest) hread (.definition _)).read_eq

/-! ### Comments -/

theorem isAbsent_inline {body : Bytes} (h : c.Inline body) : Comment.IsAbsent body := by
  obtain ⟨before, behind⟩ := h
  have hlist : Comment.IsAbsent (before.bytes ++ c.function.bytes ++ c.list) :=
    .append_left (by simp [Blanks.slash_notMem, Name.slash_notMem]) c.noComment
  have hlast : (before.bytes ++ c.function.bytes ++ c.list).getLast? ≠ some slash := by
    rw [List.getLast?_append, Grammar.getLast?_of_isParenthesized c.isList, Option.some_or]
    decide
  exact (hlist.append c.isAbsent_operation (.inl hlast)).append_right behind.slash_notMem

theorem isAbsent_defines {v : Name} {body : Bytes} (h : c.Defines v body) : Comment.IsAbsent body := by
  obtain ⟨before, beforeEquals, behindEquals, behind⟩ := h
  have hcontent : Comment.IsAbsent (behindEquals.bytes ++ (c.function.bytes ++ c.list) ++ behind.bytes) :=
    (Comment.IsAbsent.append_left behindEquals.slash_notMem
      (.append_left c.function.slash_notMem c.noComment)).append_right behind.slash_notMem
  refine .append_left (by simp [Blanks.slash_notMem, Name.slash_notMem]) ?_
  exact .append_left (s := [equals]) (by decide) hcontent

theorem isAbsent_uses {v : Name} {body : Bytes} (h : c.Uses v body) : Comment.IsAbsent body := by
  obtain ⟨before, behind⟩ := h
  have hname : slash ∉ before.bytes ++ v.bytes := by simp [Blanks.slash_notMem, Name.slash_notMem]
  exact (Comment.IsAbsent.append_left hname c.isAbsent_operation).append_right behind.slash_notMem

end Call

namespace Comment.IsAbsent

theorem tag_append {body s : Bytes} (hbody : IsAbsent body) (hs : IsAbsent s) :
    IsAbsent (opener ++ body ++ closer ++ s) := by
  have htag : IsAbsent (opener ++ body ++ closer) :=
    (IsAbsent.append_left (by decide) hbody).append_right (by decide)
  refine htag.append hs (.inl ?_)
  rw [List.getLast?_append, show closer.getLast? = some closeBrace from rfl, Option.some_or]
  decide

theorem append_tag {s body t : Bytes} (hs : IsAbsent s) (htag : IsAbsent (opener ++ body ++ closer ++ t)) :
    IsAbsent (s ++ (opener ++ body ++ closer ++ t)) := by
  refine hs.append htag (.inr ?_)
  simp only [List.append_assoc]
  exact fun hhead => absurd (Option.some.inj hhead) (by decide)

end Comment.IsAbsent

/-! ## Making the call -/

theorem Slot.compute_eq_of_operation {s t : Slot} (h : s.operation = t.operation)
    (hdivides : ∀ o ∈ t.operation, o.dividesByZero = false) (value : Value) :
    s.compute value = t.compute value := by
  unfold compute
  rw [h]
  cases ho : t.operation with
  | none => rfl
  | some o => simp [hdivides o (ho ▸ rfl)]

namespace Session

variable {σ : Type} (s : Session σ)

/-- A slot between two texts that stands for the call of a function is filled in with the value of the call,
after the operation of the slot. -/
theorem trace_of_showsSlot {depth : Int} {env scope : Environment}
    (hcheck : s.checkNames depth env = pure ()) (hdepth : depth ≤ s.limit) {template : Bytes}
    (hbrace : openBrace ∈ template) (hslashes : Comment.IsAbsent template) {pieces : List Piece}
    (hpieces : Template.Splits template pieces) {a tag b : Bytes} {slot : Slot}
    (hshows : (Template.layout pieces).ShowsSlot a tag slot b)
    (hbind : env.bind s.isFunction (Template.layout pieces).sections = .ok scope) {f : Bytes}
    {ps : List Param}
    (hreferent : s.referent? scope slot = some { kind := .function, value := .text f, params := ps })
    (w : World σ) :
    (s.render depth env template w).trace =
      ((do
        let value ← s.callNamed f (ps.map Param.value)
        let computed ← Action.ofExcept (slot.compute value)
        return normalize (a ++ computed.write ++ b)) w).trace := by
  have hvalue (expand : Expander σ) : s.valueOf expand scope slot
      { kind := .function, value := .text f, params := ps } = s.callNamed f (ps.map Param.value) := rfl
  rw [s.render_of_showsSlot hcheck hdepth hbrace hslashes hpieces hshows hbind,
    Action.trace_tell_bind rfl, Action.trace_tell_bind rfl, substitute?, resolveSlot, hreferent]
  simp only [bind_assoc, pure_bind, hvalue, Option.getD_some]
  exact Action.trace_tell_bind rfl _ w

/-- A call in a slot and the same call through a variable come to the same, with the same calls on the way,
where no variable hides the function. -/
theorem trace_inline {s : Session σ} {c : Call} (hfunction : s.isFunction c.function.bytes) {v : Name}
    (hname : s.isFunction v.bytes = false) {depth : Int} (hdepth : depth ≤ s.limit) {env : Environment}
    (hfree : v.bytes ∉ env) (hhidden : depth ≠ 0 → c.function.bytes ∉ env) {a b : Bytes}
    (ha : IsPlainFront a) (hb : ¬opener <:+: b) (hslashes : Comment.IsAbsent a ∧ Comment.IsAbsent b)
    {inline define use : Bytes} (hinline : c.Inline inline) (hdefine : c.Defines v define)
    (huse : c.Uses v use) (w : World σ) :
    (s.render depth env (a ++ (opener ++ inline ++ closer ++ b)) w).trace =
      (s.render depth env (opener ++ define ++ closer ++ (a ++ (opener ++ use ++ closer ++ b))) w).trace := by
  rcases s.checkNames_cases depth env with ⟨hnames, hcheck⟩ | ⟨-, failure, hcheck⟩
  · obtain ⟨ps, o, hread⟩ := c.exists_readAs
    -- at depth zero no variable has the name of a function, since the names have been checked
    have hnotMem : c.function.bytes ∉ env := fun hmem => by
      by_cases hzero : depth = 0
      · rw [hnames hzero _ hmem] at hfunction
        cases hfunction
      · exact hhidden hzero hmem
    have hslotInline := hread.isSlotTag_inline hinline
    have hslotUse := hread.isSlotTag_use huse
    have hslashesInline : Comment.IsAbsent (a ++ (opener ++ inline ++ closer ++ b)) :=
      hslashes.1.append_tag (.tag_append (Call.isAbsent_inline hinline) hslashes.2)
    have hslashesUse : Comment.IsAbsent (a ++ (opener ++ use ++ closer ++ b)) :=
      hslashes.1.append_tag (.tag_append (Call.isAbsent_uses huse) hslashes.2)
    have hsplits := Template.splits_slot ha hslotUse hb
    let f := c.definition v ps
    have hscope : (env.insert f.name f.variable)[v.bytes]? = some f.variable :=
      Std.ExtTreeMap.getElem?_insert_self
    have hcalled := s.trace_of_showsSlot hcheck hdepth (by simp [opener]) hslashesInline
      (Template.splits_slot ha hslotInline hb) (Template.showsSlot_layout ha.opener hb _ _)
      (Template.bind_layout ha.opener _ _ s.isFunction env) (referent?_of_isFunction hnotMem hfunction) w
    have hbound := s.trace_of_showsSlot hcheck hdepth (by simp [opener])
      (Comment.IsAbsent.tag_append (Call.isAbsent_defines hdefine) hslashesUse)
      (.cons (by simp [opener]) (hread.read_definition hdefine _) hsplits)
      (Template.showsSlot_layout_definition ha.opener hb _ _ _ f)
      (Template.bind_layout_definition ha.opener _ _ _ hname hfree) (s.referent?_of_getElem? hscope) w
    have hcompute := Slot.compute_eq_of_operation
      (s := { name := c.function.bytes, params := ps, operation := o })
      (t := { name := v.bytes, operation := o }) rfl hread.divides
    rw [hcalled, hbound]
    simp only [hcompute]
  · -- the names are refused before either template is looked at
    rw [s.render_of_refused hcheck, s.render_of_refused hcheck]

/-- A call with an operation, one level below a template that has a variable of another name. -/
theorem trace_inline_of_random :
    let s : Session Unit := {}
    let random := Bytes.ofString "random"
    let v := Bytes.ofString "v"
    let env := (∅ : Environment).insert (Bytes.ofString "n")
      { kind := .text, value := .text (Bytes.ofString "x") }
    let called := Bytes.ofString "a\x7b\x7brandom('b', 2)*5 \x7d\x7dc"
    let bound := Bytes.ofString "\x7b\x7bv = random('b', 2)\x7d\x7da\x7b\x7bv*5 \x7d\x7dc"
    (s.isFunction random ∧ s.isFunction v = false ∧ v ∉ env ∧ random ∉ env ∧ 1 ≤ s.limit) ∧
      ∀ w, (s.render 1 env called w).trace = (s.render 1 env bound w).trace := by
  intro s random v env called bound
  have hnames : s.isFunction random ∧ s.isFunction v = false ∧ v ∉ env ∧ random ∉ env ∧ 1 ≤ s.limit := by
    decide +kernel
  refine ⟨hnames, fun w => ?_⟩
  obtain ⟨hfunction, hname, hfree, hhidden, hlimit⟩ := hnames
  let empty : Blanks := ⟨[], rfl⟩
  let one : Blanks := ⟨[space], rfl⟩
  have hdigit (b : UInt8) (hb : isDigit b) : Grammar.IsNumber [b] :=
    .positive (.whole (by simp) (by simpa using hb))
  have hlist : IsParenthesized false (Bytes.ofString "('b', 2)") :=
    .mk empty (.more empty (.literal (.text (by decide) (.plain (by decide) (by decide) .nil))) empty
      (.last one (.literal (.number (hdigit 0x32 (by decide)))) empty))
  let c : Call :=
    { function := ⟨random, by decide, by decide⟩
      list := Bytes.ofString "('b', 2)"
      operation := Bytes.ofString "*5"
      isList := hlist
      isOperation := .inr (.mk empty .multiply empty (hdigit 0x35 (by decide)) (fun h => nomatch h))
      noComment := .of_notMem (by decide) }
  let n : Name := ⟨v, by decide, by decide⟩
  have hinline : c.Inline (Bytes.ofString "random('b', 2)*5 ") := .mk empty one
  have hdefine : c.Defines n (Bytes.ofString "v = random('b', 2)") := .mk empty one one empty
  have huse : c.Uses n (Bytes.ofString "v*5 ") := .mk empty one
  exact trace_inline (c := c) (v := n) hfunction hname hlimit hfree (fun _ => hhidden)
    (a := Bytes.ofString "a") (b := Bytes.ofString "c") ⟨by decide, by decide, by decide⟩ (by decide)
    ⟨.of_notMem (by decide), .of_notMem (by decide)⟩ hinline hdefine huse w

/-- Below a template, where a variable may have the name of the function: a slot of this name stands for the
variable then, and is no call. -/
theorem not_trace_inline_of_variable :
    let s : Session Unit := {}
    let random := Bytes.ofString "random"
    let v := Bytes.ofString "v"
    let env := (∅ : Environment).insert random { kind := .text, value := .text (Bytes.ofString "x") }
    let called := Bytes.ofString "\x7b\x7brandom('a')\x7d\x7d"
    let bound := Bytes.ofString "\x7b\x7bv = random('a')\x7d\x7d\x7b\x7bv\x7d\x7d"
    let w : World Unit := { disk := .empty, host := () }
    s.isFunction random ∧ s.isFunction v = false ∧ v ∉ env ∧ 1 ≤ s.limit ∧
      (s.render 1 env called w).result = .ok (Bytes.ofString "x") ∧
      (s.render 1 env bound w).result = .ok (Bytes.ofString "a") := by
  decide +kernel

end Session

end Stencil
