import Stencil.Proofs.Acceptance

/-!
# Rows of tokens

What stands between the braces of a tag as a row of tokens (`Spells`): blanks may stand in front of each
of them and behind the last one, and a token does not run into what follows it (`Token.Fits`). Two texts
with the same tokens differ in their blanks alone (`SameTokens`). Blanks aside, either both have nothing
left, or both go on with the same token (`SameTokens.cases`); so whatever a reader asks of the bytes at
the front, it gets the same answer from both, and what it leaves are the same tokens again
(`SameTokens.head?`, `SameTokens.tail`, `SameTokens.tail_operator`, `SameTokens.readName`). Every tag
that can be read is such a row (`exists_spells_of_read`).
-/

namespace Stencil

open Ascii
open Grammar (IsNumber IsQuoted)
open Spelling (Blanks Name)

/-- The tokens of one byte, the operators aside. -/
inductive Punctuation where
  | mark
  | equals
  | opening
  | comma
  | closing
  deriving DecidableEq, Repr

def Punctuation.byte : Punctuation → UInt8
  | mark => atSign
  | equals => Ascii.equals
  | opening => openParen
  | comma => Ascii.comma
  | closing => closeParen

/-- What a tag is made of. -/
inductive Token where
  | punctuation (p : Punctuation)
  | operator (o : Operator)
  | name (n : Name)
  | text (quote : UInt8) (content : Bytes) (hquote : isQuote quote) (h : IsQuoted quote content)
  | number (digits : Bytes) (h : IsNumber digits)

namespace Token

def bytes : Token → Bytes
  | punctuation p => [p.byte]
  | operator o => [o.symbol]
  | name n => n.bytes
  | text quote content _ _ => quote :: (content ++ [quote])
  | number digits _ => digits

/-- A minus behind this token is an operator. Elsewhere it can be the sign of a number. -/
def endsOperand : Token → Bool
  | punctuation p => p = .closing
  | operator _ => false
  | name _ | text .. | number .. => true

/-- The token does not run into these bytes: a name and a number do not go on in them, and a minus that
is not the sign of a number has none behind it. -/
def Fits (behindOperand : Bool) (rest : Bytes) : Token → Prop
  | punctuation _ | text .. => True
  | operator o => o = .subtract → behindOperand = false → Stops inNumber rest
  | name _ => Stops isNameByte rest
  | number digits _ => (digits.head? = some minus → behindOperand = false) ∧ Stops inNumber rest

end Token

/-- These bytes are the tokens, with any blanks in front of each of them and behind the last. -/
inductive Spells : (behindOperand : Bool) → Bytes → List Token → Prop
  | nil {b : Bool} (w : Blanks) : Spells b w.bytes []
  | cons {b : Bool} (w : Blanks) {t : Token} {rest : Bytes} {ts : List Token} (ht : t.Fits b rest)
      (h : Spells t.endsOperand rest ts) : Spells b (w.bytes ++ (t.bytes ++ rest)) (t :: ts)

/-- The two are the same tokens. -/
def SameTokens (behindOperand : Bool) (s s' : Bytes) : Prop :=
  ∃ ts, Spells behindOperand s ts ∧ Spells behindOperand s' ts

/-! ## Which token it is -/

theorem isQuote_symbol (o : Operator) : isQuote o.symbol = false := by cases o <;> decide

theorem inNumber_symbol (o : Operator) : inNumber o.symbol = false := by cases o <;> decide

theorem isNameStart_symbol (o : Operator) : isNameStart o.symbol = false := by cases o <;> decide

namespace Punctuation

variable (p : Punctuation)

theorem byte_injective {p p' : Punctuation} (h : p.byte = p'.byte) : p = p' := by
  revert h
  cases p <;> cases p' <;> decide

theorem isBlank_byte : isBlank p.byte = false := by cases p <;> decide

theorem isNameStart_byte : isNameStart p.byte = false := by cases p <;> decide

theorem not_startsLiteral_byte : ¬startsLiteral p.byte := by cases p <;> decide

theorem ofSymbol?_byte : Operator.ofSymbol? p.byte = none := by cases p <;> decide

theorem isPlain_byte : isPlain p.byte := by cases p <;> decide

end Punctuation

namespace Token

theorem isNameStart_head {n : Name} {b : UInt8} (h : n.bytes.head? = some b) : isNameStart b := by
  have hstarts := n.starts
  rwa [Tag.startsName, h, Option.any_some] at hstarts

theorem startsNumber_head {digits : Bytes} (hdigits : IsNumber digits) {b : UInt8}
    (h : digits.head? = some b) : Tag.startsNumber b := by
  obtain ⟨c, s, rfl, hc⟩ := hdigits.exists_cons
  exact Option.some.inj h ▸ hc

theorem isBlank_head {t : Token} {b : UInt8} (h : t.bytes.head? = some b) : isBlank b = false := by
  cases t with
  | punctuation p => exact Option.some.inj h ▸ p.isBlank_byte
  | operator o => exact Option.some.inj h ▸ Spelling.isBlank_symbol o
  | name n => exact isBlank_of_isNameByte b (by simp [isNameByte, isNameStart_head h])
  | text quote content hquote _ =>
    exact Option.some.inj h ▸ isBlank_of_startsLiteral quote (.inl hquote)
  | number digits hdigits => exact isBlank_of_startsLiteral b (.inr (startsNumber_head hdigits h))

theorem exists_cons (t : Token) : ∃ b s, t.bytes = b :: s := by
  cases t with
  | punctuation p => exact ⟨_, _, rfl⟩
  | operator o => exact ⟨_, _, rfl⟩
  | name n =>
    refine List.exists_cons_of_ne_nil fun (hnil : n.bytes = []) => ?_
    have hstarts := n.starts
    rw [hnil] at hstarts
    cases hstarts
  | text quote content _ _ => exact ⟨_, _, rfl⟩
  | number digits h =>
    obtain ⟨b, s, hb, -⟩ := h.exists_cons
    exact ⟨b, s, hb⟩

/-- Punctuation is known by its byte. -/
theorem eq_punctuation {t : Token} {p : Punctuation} (h : t.bytes.head? = some p.byte) :
    t = punctuation p := by
  cases t with
  | punctuation p' => rw [Punctuation.byte_injective (Option.some.inj h)]
  | operator o =>
    have hsymbol := Spelling.ofSymbol?_symbol o
    rw [Option.some.inj h, p.ofSymbol?_byte] at hsymbol
    cases hsymbol
  | name n => simpa [p.isNameStart_byte] using isNameStart_head h
  | text quote content hquote _ => exact absurd (.inl (Option.some.inj h ▸ hquote)) p.not_startsLiteral_byte
  | number digits hdigits => exact absurd (.inr (startsNumber_head hdigits h)) p.not_startsLiteral_byte

/-- Behind an operand an operator is known by its symbol. -/
theorem eq_operator {t : Token} {o : Operator} {rest : Bytes} (ht : t.Fits true rest)
    (h : t.bytes.head? = some o.symbol) : t = operator o := by
  cases t with
  | punctuation p =>
    have hsymbol := Spelling.ofSymbol?_symbol o
    rw [← Option.some.inj h, p.ofSymbol?_byte] at hsymbol
    cases hsymbol
  | operator o' =>
    have hsymbol := Spelling.ofSymbol?_symbol o
    rw [← Option.some.inj h, Spelling.ofSymbol?_symbol] at hsymbol
    rw [Option.some.inj hsymbol]
  | name n => simpa [isNameStart_symbol] using isNameStart_head h
  | text quote content hquote _ => simp [Option.some.inj h, isQuote_symbol] at hquote
  | number digits hdigits =>
    rcases hdigits with hdigits | hdigits
    · obtain ⟨b, s, rfl, hb⟩ := hdigits.exists_cons
      simp [Option.some.inj h, inNumber_symbol] at hb
    · exact Bool.noConfusion (ht.1 rfl)

/-- A name is known by its first byte. -/
theorem exists_name {t : Token} (h : t.bytes.head?.any isNameStart) : ∃ n, t = name n := by
  cases t with
  | punctuation p => simp [bytes, p.isNameStart_byte] at h
  | operator o => simp [bytes, isNameStart_symbol] at h
  | name n => exact ⟨n, rfl⟩
  | text quote content hquote _ => simp [bytes, isNameStart_of_startsLiteral quote (.inl hquote)] at h
  | number digits hdigits =>
    obtain ⟨b, s, rfl, hb⟩ := hdigits.exists_cons
    simp [bytes, isNameStart_of_startsLiteral b (.inr hb)] at h

theorem trimStart_append (t : Token) (w : Blanks) (rest : Bytes) :
    Bytes.trimStart (w.bytes ++ (t.bytes ++ rest)) = t.bytes ++ rest := by
  obtain ⟨b, s, hb⟩ := t.exists_cons
  have hblank : isBlank b = false := isBlank_head (by rw [hb]; rfl)
  rw [w.trimStart_append, hb]
  exact Spelling.trimStart_of_stops (.cons hblank _)

theorem head?_append (t : Token) (rest : Bytes) : (t.bytes ++ rest).head? = t.bytes.head? := by
  obtain ⟨b, s, hb⟩ := t.exists_cons
  rw [hb]
  rfl

end Token

/-! ## What stands in front -/

theorem Spells.trimStart {b : Bool} {s : Bytes} {ts : List Token} (h : Spells b s ts) :
    Spells b (Bytes.trimStart s) ts := by
  cases h with
  | nil w =>
    rw [w.trimStart_bytes]
    exact .nil ⟨[], rfl⟩
  | @cons _ w t rest ts ht h =>
    rw [t.trimStart_append]
    exact .cons ⟨[], rfl⟩ ht h

namespace SameTokens

variable {b : Bool} {s s' : Bytes}

theorem nil (w w' : Blanks) : SameTokens b w.bytes w'.bytes := ⟨[], .nil w, .nil w'⟩

theorem cons (w w' : Blanks) (t : Token) {rest rest' : Bytes} (ht : t.Fits b rest) (ht' : t.Fits b rest')
    (h : SameTokens t.endsOperand rest rest') :
    SameTokens b (w.bytes ++ (t.bytes ++ rest)) (w'.bytes ++ (t.bytes ++ rest')) := by
  obtain ⟨ts, hs, hs'⟩ := h
  exact ⟨t :: ts, .cons w ht hs, .cons w' ht' hs'⟩

theorem symm (h : SameTokens b s s') : SameTokens b s' s := by
  obtain ⟨ts, hs, hs'⟩ := h
  exact ⟨ts, hs', hs⟩

theorem trimStart (h : SameTokens b s s') : SameTokens b (Bytes.trimStart s) (Bytes.trimStart s') := by
  obtain ⟨ts, hs, hs'⟩ := h
  exact ⟨ts, hs.trimStart, hs'.trimStart⟩

/-- Blanks aside, either there is nothing left, or both go on with the same token. -/
theorem cases (h : SameTokens b s s') :
    (Bytes.trimStart s = [] ∧ Bytes.trimStart s' = []) ∨
    ∃ (t : Token) (rest rest' : Bytes), Bytes.trimStart s = t.bytes ++ rest ∧
      Bytes.trimStart s' = t.bytes ++ rest' ∧ t.Fits b rest ∧ t.Fits b rest' ∧
      SameTokens t.endsOperand rest rest' := by
  obtain ⟨ts, hs, hs'⟩ := h
  cases hs with
  | nil w =>
    cases hs' with
    | nil w' => exact .inl ⟨w.trimStart_bytes, w'.trimStart_bytes⟩
  | @cons _ w t rest ts ht h =>
    cases hs' with
    | @cons _ w' t rest' ts ht' h' =>
      exact .inr ⟨t, rest, rest', t.trimStart_append w rest, t.trimStart_append w' rest', ht, ht',
        ts, h, h'⟩

theorem head? (h : SameTokens b s s') : (Bytes.trimStart s).head? = (Bytes.trimStart s').head? := by
  rcases h.cases with ⟨hs, hs'⟩ | ⟨t, rest, rest', hs, hs', -, -, -⟩
  · rw [hs, hs']
  · rw [hs, hs', t.head?_append, t.head?_append]

theorem startsName (h : SameTokens b s s') :
    Tag.startsName (Bytes.trimStart s) = Tag.startsName (Bytes.trimStart s') := by
  rw [Tag.startsName, h.head?, Tag.startsName]

theorem eq_nil_iff (h : SameTokens b s s') : Bytes.trimStart s = [] ↔ Bytes.trimStart s' = [] := by
  rw [← List.head?_eq_none_iff, h.head?, List.head?_eq_none_iff]

theorem isBlank_eq (h : SameTokens b s s') : Bytes.isBlank s = Bytes.isBlank s' := by
  have hnil : ∀ s, Bytes.isBlank s ↔ Bytes.trimStart s = [] := fun s => by
    rw [Bytes.isBlank, List.all_eq_true, Bytes.trimStart, List.dropWhile_eq_nil_iff]
  rw [Bool.eq_iff_iff, hnil, hnil, h.eq_nil_iff]

/-- Behind punctuation the tokens are the same again. -/
theorem tail (h : SameTokens b s s') {p : Punctuation} (hp : (Bytes.trimStart s).head? = some p.byte) :
    SameTokens (Token.punctuation p).endsOperand (Bytes.trimStart s).tail (Bytes.trimStart s').tail := by
  rcases h.cases with ⟨hs, -⟩ | ⟨t, rest, rest', hs, hs', -, -, hrest⟩
  · rw [hs] at hp
    cases hp
  · rw [hs, t.head?_append] at hp
    obtain rfl := Token.eq_punctuation hp
    rwa [hs, hs']

/-- Behind an operator the tokens are the same again. -/
theorem tail_operator (h : SameTokens true s s') {o : Operator}
    (ho : (Bytes.trimStart s).head?.bind Operator.ofSymbol? = some o) :
    SameTokens false (Bytes.trimStart s).tail (Bytes.trimStart s').tail := by
  have hsymbol : (Bytes.trimStart s).head? = some o.symbol := by rw [Grammar.exists_symbol ho]; rfl
  rcases h.cases with ⟨hs, -⟩ | ⟨t, rest, rest', hs, hs', ht, -, hrest⟩
  · rw [hs] at hsymbol
    cases hsymbol
  · rw [hs, t.head?_append] at hsymbol
    obtain rfl := Token.eq_operator ht hsymbol
    rwa [hs, hs']

/-- The names in front are the same, and so are the tokens behind them. -/
theorem readName (h : SameTokens b s s') (hname : Tag.startsName (Bytes.trimStart s)) :
    (Tag.readName (Bytes.trimStart s)).1 = (Tag.readName (Bytes.trimStart s')).1 ∧
      SameTokens true (Tag.readName (Bytes.trimStart s)).2 (Tag.readName (Bytes.trimStart s')).2 := by
  rcases h.cases with ⟨hs, -⟩ | ⟨t, rest, rest', hs, hs', ht, ht', hrest⟩
  · rw [hs] at hname
    cases hname
  · rw [hs, Tag.startsName, t.head?_append] at hname
    obtain ⟨n, rfl⟩ := Token.exists_name hname
    have hread := n.readName_append ht
    have hread' := n.readName_append ht'
    rw [hs, hs', Token.bytes, hread, hread']
    exact ⟨rfl, hrest⟩

end SameTokens

/-! ## What is read is a row of tokens -/

namespace Spells

variable {b : Bool} {s : Bytes} {ts : List Token}

theorem blanks_append (h : Spells b s ts) (w : Blanks) : Spells b (w.bytes ++ s) ts := by
  have hblank (v : Blanks) : Bytes.isBlank (w.bytes ++ v.bytes) :=
    List.all_append.trans (Bool.and_eq_true_iff.mpr ⟨w.blank, v.blank⟩)
  cases h with
  | nil v => exact .nil ⟨_, hblank v⟩
  | cons v ht h =>
    rw [← List.append_assoc]
    exact .cons ⟨_, hblank v⟩ ht h

theorem of_trimStart (h : Spells b (Bytes.trimStart s) ts) : Spells b s ts := by
  obtain ⟨w, hw⟩ := Grammar.exists_blanks s
  rw [hw]
  exact h.blanks_append w

theorem token (t : Token) (ht : t.Fits b s) (h : Spells t.endsOperand s ts) :
    Spells b (t.bytes ++ s) (t :: ts) :=
  .cons ⟨[], rfl⟩ ht h

theorem of_head? {p : Punctuation} (hp : s.head? = some p.byte)
    (h : Spells (Token.punctuation p).endsOperand s.tail ts) : Spells b s (.punctuation p :: ts) := by
  obtain ⟨rest, rfl⟩ := List.head?_eq_some_iff.mp hp
  exact token (.punctuation p) trivial h

theorem of_readName (hname : Tag.startsName s) (h : Spells true (Tag.readName s).2 ts) :
    ∃ ts, Spells b s ts := by
  obtain ⟨n, -, hs⟩ := Grammar.exists_name hname
  rw [hs]
  exact ⟨_, token (.name n) (Stops.dropWhile isNameByte s) h⟩

theorem of_readLiteral {rest : Bytes} {value : Value} (hread : Tag.readLiteral s = .ok (value, rest))
    (h : Spells true rest ts) : ∃ ts, Spells false s ts := by
  cases value with
  | number x =>
    obtain ⟨digits, hdigits, -, hstops, rfl⟩ := Grammar.exists_number hread
    exact ⟨_, token (.number digits hdigits) ⟨fun _ => rfl, hstops⟩ h⟩
  | text t =>
    rcases Tag.readLiteral_eq_ok hread with ⟨q, quoted, content, rfl, hq, hsplit, -⟩ | ⟨x, -, -, hvalue⟩
    · have hquoted := Grammar.isQuoted_of_splitUnescaped hsplit
      rw [← Piece.append_of_closed hsplit]
      exact ⟨_, token (.text q content hq hquoted) trivial h⟩
    · cases hvalue

theorem of_readEntry {behind : Bytes} {p : Param} (hp : Tag.readEntry s = .ok (p, behind))
    (h : Spells true behind ts) : ∃ ts, Spells false s ts := by
  rcases Tag.readEntry_eq_ok hp with
    ⟨-, value, hread, -⟩ | ⟨hname, hequals, value, hread, -⟩ | ⟨hname, rfl, -⟩
  · exact of_readLiteral hread h
  · obtain ⟨ts', h'⟩ := of_readLiteral hread h
    exact of_readName hname (of_trimStart (of_head? (p := .equals) hequals h'.of_trimStart))
  · exact of_readName hname h.of_trimStart

theorem of_readsParams {rest : Bytes} {ps : List Param} (hps : Tag.ReadsParams s ps rest)
    (h : Spells true rest ts) : ∃ ts, Spells false s ts := by
  induction hps with
  | close hclose => exact ⟨_, of_trimStart (of_head? (p := .closing) hclose h)⟩
  | last _ hp hclose =>
    obtain ⟨ts', h'⟩ := of_readEntry hp (of_trimStart (of_head? (p := .closing) hclose h))
    exact ⟨ts', h'.of_trimStart⟩
  | more _ hp hcomma _ ih =>
    obtain ⟨ts', h'⟩ := ih h
    obtain ⟨ts'', h''⟩ := of_readEntry hp (of_trimStart (of_head? (p := .comma) hcomma h'))
    exact ⟨ts'', h''.of_trimStart⟩

/-- A list in parentheses. -/
theorem of_readParams {rest : Bytes} {ps : List Param} (hopen : s.head? = some openParen)
    (hps : Tag.readParams s.tail = .ok (ps, rest)) (h : Spells true rest ts) : ∃ ts, Spells b s ts := by
  obtain ⟨ts', h'⟩ := of_readsParams (Tag.readsParams_of_readParams hps) h
  exact ⟨_, of_head? (p := .opening) hopen h'⟩

theorem of_readContent {name rest : Bytes} {content : Variable}
    (hread : Tag.readContent name s = .ok (content, rest)) (h : Spells true rest ts) :
    ∃ ts, Spells false s ts := by
  rcases Tag.readContent_eq_ok hread with ⟨hname, hopen, ps, hparams, -, -⟩ | ⟨-, value, hread, -⟩
  · obtain ⟨ts', h'⟩ := of_readParams hopen hparams h
    exact of_readName hname h'.of_trimStart
  · exact of_readLiteral hread h

theorem of_readOperation {name rest : Bytes} {o : Option Operation}
    (hread : Tag.readOperation name s = .ok (o, rest)) (h : Spells true rest ts) :
    ∃ ts, Spells true s ts := by
  rcases Tag.readOperation_eq_ok hread with ⟨-, rfl⟩ | ⟨operator, x, behind, ho, hliteral, -, -, rfl⟩
  · exact ⟨ts, h⟩
  · obtain ⟨ts', h'⟩ := of_readLiteral hliteral h.of_trimStart
    rw [Grammar.exists_symbol ho]
    exact ⟨_, token (.operator operator) (fun _ hoperand => nomatch hoperand) h'.of_trimStart⟩

theorem of_readSlotParams {rest : Bytes} {ps : List Param}
    (hread : Tag.readSlotParams s = .ok (ps, rest)) (h : Spells true rest ts) : ∃ ts, Spells true s ts := by
  rcases Tag.readSlotParams_eq_ok hread with ⟨hopen, behind, hparams, rfl⟩ | ⟨-, rfl⟩
  · exact of_readParams hopen hparams h.of_trimStart
  · exact ⟨ts, h⟩

theorem of_header {body name after : Bytes} {raw : Bool} (hheader : Tag.Header body raw name after)
    (h : Spells true after ts) : ∃ ts, Spells false body ts := by
  cases hheader with
  | plain hname =>
    obtain ⟨ts', h'⟩ := of_readName (b := false) hname h.of_trimStart
    exact ⟨ts', h'.of_trimStart⟩
  | raw hmark hname =>
    obtain ⟨ts', h'⟩ := of_readName hname h.of_trimStart
    refine ⟨.punctuation .mark :: ts', of_trimStart ?_⟩
    rw [hmark]
    exact token (.punctuation .mark) trivial h'

end Spells

/-- Every tag that can be read is a row of tokens. -/
theorem exists_spells_of_read {body : Bytes} {t : Tag} (h : Tag.read body = .ok t) :
    ∃ ts, Spells false body ts := by
  cases t with
  | definition d =>
    obtain ⟨name, after, content, rest, hheader, hequals, hread, hblank, -⟩ := Tag.read_eq_definition h
    obtain ⟨ts, hts⟩ := Spells.of_readContent hread (.nil ⟨rest, hblank⟩)
    exact Spells.of_header hheader (.of_head? (p := .equals) hequals hts.of_trimStart)
  | slot s =>
    obtain ⟨raw, name, after, ps, rest, o, hheader, hparams, hoperation, -⟩ := Tag.read_eq_slot h
    obtain ⟨ts, hts⟩ := Spells.of_readOperation hoperation (.nil ⟨[], rfl⟩)
    obtain ⟨ts', hts'⟩ := Spells.of_readSlotParams hparams hts
    exact Spells.of_header hheader hts'

end Stencil
