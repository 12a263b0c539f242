import Stencil.Escape
import Stencil.Section
import Stencil.Fault

/-!
# Tags

What may stand between the braces of a tag:

* `name = literal` and `name = function(arguments)`, a definition;
* `name(entries) operator number`, with the entries and the operation left out at will, and with an
  `@` in front for a raw slot: a slot, or the opening tag of a block.

An entry is a literal, a name, or a name with a literal for its default. Whether a tag without an
operation is a slot or opens a block is not for the tag to say, so names are accepted here for both.

Each reader takes something from the front of the bytes it is given and returns the rest; the places
of its faults are counted from the end of these bytes. `readEntry` never gives back all of them, which
is why a list of entries comes to an end.
-/

namespace Stencil

open Ascii

/-- What a tag says. -/
inductive Tag where
  | definition (d : Definition)
  /-- A slot, or the opening tag of a block that declares the slot's parameters. -/
  | slot (s : Slot)
  deriving DecidableEq, Repr

namespace Tag

/-- A fault at the front of these bytes. -/
def faultAt (reason : Fault.Reason) (s : Bytes) : Fault := ⟨reason, .left s.length⟩

/-! ## Names and literals -/

/-- The longest run of name bytes. -/
def readName (s : Bytes) : Bytes × Bytes := (s.takeWhile isNameByte, s.dropWhile isNameByte)

/-- Does a name start here? -/
def startsName (s : Bytes) : Bool := s.head?.any isNameStart

/-- The bytes of a number: a minus sign, if there is one, and the longest run of digits and points. -/
def splitNumber (s : Bytes) : Bytes × Bytes :=
  let sign := if s.head? = some minus then [minus] else []
  let body := s.drop sign.length
  let inNumber (b : UInt8) : Bool := isDigit b || b == point
  (sign ++ body.takeWhile inNumber, body.dropWhile inNumber)

/-- A quoted string or a number. -/
def readLiteral : Bytes → Except Fault (Value × Bytes)
  | [] => .error (faultAt .literalExpected [])
  | b :: rest =>
    if isQuote b then
      match splitUnescaped b true false rest with
      | (_, []) => .error (faultAt .unterminatedString [])
      | (content, _ :: after) => .ok (.text (unescape content), after)
    else if b = minus ∨ b = point ∨ isDigit b then
      let (digits, after) := splitNumber (b :: rest)
      match Numeral.read? digits with
      | some x => .ok (.number x, after)
      | none => .error (faultAt (.badNumber digits) after)
    else .error (faultAt .literalExpected (b :: rest))

/-! ## Entries -/

/-- An argument, or a declared parameter with or without a default. -/
def readEntry (s : Bytes) : Except Fault (Param × Bytes) :=
  if startsName s then
    let (name, after) := readName s
    let after := Bytes.trimStart after
    if after.head? = some equals then do
      let (value, rest) ← readLiteral (Bytes.trimStart after.tail)
      return ({ name, value }, rest)
    else .ok ({ name, required := true }, after)
  else do
    let (value, rest) ← readLiteral s
    return ({ value }, rest)

theorem splitNumber_append (s : Bytes) : (splitNumber s).1 ++ (splitNumber s).2 = s := by
  cases s with
  | nil => rfl
  | cons b rest =>
    by_cases h : b = minus <;> simp [splitNumber, h]

theorem readLiteral_shorter {s rest : Bytes} {v : Value} (h : readLiteral s = .ok (v, rest)) :
    rest.length < s.length := by
  cases s with
  | nil => simp [readLiteral] at h
  | cons b t =>
    simp only [readLiteral] at h
    split at h
    · have hle := length_splitUnescaped_snd_le b true false t
      split at h
      · simp at h
      · rename_i content c after heq
        simp only [heq, Except.ok.injEq, Prod.mk.injEq] at h hle
        obtain ⟨-, rfl⟩ := h
        simp only [List.length_cons] at hle ⊢
        omega
    · split at h
      · split at h
        · rename_i x hx
          simp only [Except.ok.injEq, Prod.mk.injEq] at h
          obtain ⟨-, rfl⟩ := h
          have happ := congrArg List.length (splitNumber_append (b :: t))
          have hne : (splitNumber (b :: t)).1 ≠ [] := by
            intro h0
            rw [h0] at hx
            simp [Numeral.read?] at hx
          have := List.length_pos_iff.mpr hne
          simp only [List.length_append] at happ
          omega
        · simp at h
      · simp at h

theorem readName_shorter {s : Bytes} (h : startsName s) : (readName s).2.length < s.length := by
  cases s with
  | nil => simp [startsName] at h
  | cons b t =>
    have hb : isNameByte b = true := by
      simp only [startsName, List.head?_cons, Option.any_some] at h
      simp [isNameByte, h]
    simp only [readName, List.dropWhile_cons, hb, if_true, List.length_cons]
    have := (List.dropWhile_sublist isNameByte (l := t)).length_le
    omega

theorem readEntry_shorter {s rest : Bytes} {p : Param} (h : readEntry s = .ok (p, rest)) :
    rest.length < s.length := by
  unfold readEntry at h
  split at h
  · rename_i hs
    have hlt := readName_shorter hs
    have hle := Bytes.length_trimStart_le (readName s).2
    simp only at h
    split at h
    · obtain ⟨⟨v, behind⟩, hl, hr⟩ := Fault.bind_eq_ok.mp h
      obtain ⟨-, rfl⟩ : _ ∧ behind = rest := by simpa [pure, Except.pure] using hr
      have h1 := readLiteral_shorter hl
      have h2 := Bytes.length_trimStart_le (Bytes.trimStart (readName s).2).tail
      simp only [List.length_tail] at h2
      omega
    · simp only [Except.ok.injEq, Prod.mk.injEq] at h
      rw [← h.2]
      omega
  · obtain ⟨⟨v, behind⟩, hl, hr⟩ := Fault.bind_eq_ok.mp h
    obtain ⟨-, rfl⟩ : _ ∧ behind = rest := by simpa [pure, Except.pure] using hr
    exact readLiteral_shorter hl

/-- The entries behind an opening parenthesis, separated by commas, and the closing one. A comma may
stand after the last entry. -/
def readParams (s : Bytes) : Except Fault (List Param × Bytes) :=
  let front := Bytes.trimStart s
  if front.isEmpty then .error (faultAt .unterminatedParams front)
  else if front.head? = some closeParen then .ok ([], front.tail)
  else
    match _ : readEntry front with
    | .error fault => .error fault
    | .ok (p, behind) =>
      let after := Bytes.trimStart behind
      if after.head? = some comma then do
        let (ps, rest) ← readParams after.tail
        return (p :: ps, rest)
      else if after.head? = some closeParen then .ok ([p], after.tail)
      else .error (faultAt .separatorExpected after)
termination_by s.length
decreasing_by
  have h1 := Bytes.length_trimStart_le s
  have h2 := readEntry_shorter ‹readEntry _ = _›
  have h3 := Bytes.length_trimStart_le behind
  show (Bytes.trimStart behind).tail.length < s.length
  have h4 : front.length = (Bytes.trimStart s).length := rfl
  simp only [List.length_tail]
  omega

/-- A call passes literals: the first entry that is a bare name is a fault of the tag. -/
def requireLiterals (name : Bytes) (params : List Param) : Except Fault Unit :=
  match params.find? (·.required) with
  | some p => .error ⟨.argumentNotLiteral p.name, .name name⟩
  | none => .ok ()

/-! ## Definitions and slots -/

/-- What stands behind the equals sign of a definition. -/
def readContent (name : Bytes) (s : Bytes) : Except Fault (Variable × Bytes) :=
  if startsName s then
    let (function, after) := readName s
    let after := Bytes.trimStart after
    if after.head? = some openParen then do
      let (arguments, rest) ← readParams after.tail
      requireLiterals name arguments
      return ({ kind := .function, value := .text function, params := arguments }, rest)
    else .error ⟨.argumentsExpected, .name name⟩
  else do
    let (value, rest) ← readLiteral s
    return (.ofValue value, rest)

/-- A definition from behind its equals sign on. -/
def readDefinition (name : Bytes) (s : Bytes) : Except Fault Tag := do
  let (content, rest) ← readContent name (Bytes.trimStart s)
  if Bytes.isBlank rest then return .definition { name, content }
  else .error ⟨.textAfterDefinition, .name name⟩

/-- The entries of a slot, if a parenthesis opens them. -/
def readSlotParams (s : Bytes) : Except Fault (List Param × Bytes) :=
  if s.head? = some openParen then do
    let (params, rest) ← readParams s.tail
    return (params, Bytes.trimStart rest)
  else .ok ([], s)

/-- The operation of a slot, if there is one. Dividing by zero is refused whatever the slot holds. -/
def readOperation (name : Bytes) (s : Bytes) : Except Fault (Option Operation × Bytes) :=
  match s.head?.bind Operator.ofSymbol? with
  | none => .ok (none, s)
  | some operator => do
    let (value, rest) ← readLiteral (Bytes.trimStart s.tail)
    match value with
    | .text _ => .error ⟨.numberExpected, .name name⟩
    | .number operand =>
      let operation : Operation := ⟨operator, operand⟩
      if operation.dividesByZero then .error ⟨.zeroDivisor, .name name⟩
      else return (some operation, Bytes.trimStart rest)

/-- A slot from behind its name on. -/
def readSlot (raw : Bool) (name : Bytes) (s : Bytes) : Except Fault Tag := do
  let (params, rest) ← readSlotParams s
  let (operation, rest) ← readOperation name rest
  if rest.isEmpty then return .slot { name, params, raw, operation }
  else .error ⟨.textAfterSlot, .name name⟩

/-- What stands between the two pairs of braces. The place of a tag without a name is in front of its
opening braces. -/
def read (body : Bytes) : Except Fault Tag :=
  let s := Bytes.trimStart body
  if s.head? = some slash then .error ⟨.strayClosingTag, .name s.tail⟩
  else
    let raw := s.head? = some atSign
    let s := if raw then s.tail else s
    if startsName s then
      let (name, after) := readName s
      let after := Bytes.trimStart after
      if !raw ∧ after.head? = some equals then readDefinition name after.tail
      else readSlot raw name after
    else .error ⟨.nameExpected, .left (body.length + 2)⟩

end Tag

end Stencil
