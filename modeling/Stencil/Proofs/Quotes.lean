import Stencil.Proofs.Layout
import Stencil.Proofs.Quoting
import Stencil.Proofs.TagReading

/-!
# Quotes inside of tags

Wherever a literal is read in a tag (`Tag.Meets`), the scanner that found the end of the tag is outside
of quotes (`aligned_of_meets`); and if the literal is a string, this scanner leaves it at the same
byte as the reader of the literal (`Closed`). So no string of a tag that has an end is without its
closing quote, which is the main statement, `closed_at_the_same_quote`.
-/

namespace Stencil

open Ascii
open Bytes (trimStart)

/-! ## The readers of a tag stay outside of quotes -/

namespace Tag

open Piece (Quoting)

/-- What is left of `s` at `t`, after bytes behind which the scanner of tags is outside of quotes
again. -/
def Aligned (s t : Bytes) : Prop := ∃ before, s = before ++ t ∧ Quoting.outside.after before = .outside

namespace Aligned

theorem refl (s : Bytes) : Aligned s s := ⟨[], rfl, rfl⟩

theorem trans {s t u : Bytes} (hst : Aligned s t) (htu : Aligned t u) : Aligned s u := by
  obtain ⟨before, rfl, hbefore⟩ := hst
  obtain ⟨more, rfl, hmore⟩ := htu
  exact ⟨before ++ more, (List.append_assoc ..).symm, by rw [Quoting.after_append, hbefore, hmore]⟩

theorem of_append {s before t : Bytes} (hs : before ++ t = s) (h : ∀ b ∈ before, ¬isQuote b) :
    Aligned s t := ⟨before, hs.symm, Quoting.after_outside h⟩

theorem dropWhile {p : UInt8 → Bool} (h : ∀ b, p b → ¬isQuote b) (s : Bytes) :
    Aligned s (s.dropWhile p) :=
  of_append List.takeWhile_append_dropWhile fun b hb => h b (List.all_eq_true.mp List.all_takeWhile b hb)

theorem trimStart (s : Bytes) : Aligned s (trimStart s) :=
  dropWhile (fun b hb hq => by
    obtain rfl | rfl : b = doubleQuote ∨ b = singleQuote := by simpa [isQuote] using hq
    all_goals revert hb; decide) s

theorem readName (s : Bytes) : Aligned s (readName s).2 :=
  dropWhile (fun b hb hq => by
    obtain rfl | rfl : b = doubleQuote ∨ b = singleQuote := by simpa [isQuote] using hq
    all_goals revert hb; decide) s

theorem tail {s : Bytes} {b : UInt8} (hs : s.head? = some b) (hb : ¬isQuote b) : Aligned s s.tail := by
  cases s with
  | nil => cases hs
  | cons c s =>
    obtain rfl : c = b := by simpa using hs
    exact of_append (List.singleton_append (x := c)) (by simpa using hb)

end Aligned

theorem aligned_of_readLiteral {s rest : Bytes} {value : Value}
    (h : readLiteral s = .ok (value, rest)) : Aligned s rest := by
  rcases readLiteral_eq_ok h with ⟨q, quoted, content, rfl, hq, hsplit, -⟩ | ⟨x, rfl, -, -⟩
  · refine ⟨q :: (content ++ [q]), ?_, ?_⟩
    · rw [← Piece.append_of_closed hsplit, List.cons_append]
    · rw [Piece.after_quote hq, Piece.after_closed hq hsplit]
  · exact .of_append (splitNumber_append s) fun b hb =>
      not_isQuote_of_startsNumber (startsNumber_of_mem_splitNumber hb)

theorem aligned_default {s : Bytes} (h : (trimStart (readName s).2).head? = some equals) :
    Aligned s (trimStart (trimStart (readName s).2).tail) :=
  (Aligned.readName s).trans ((Aligned.trimStart _).trans
    ((Aligned.tail h (by decide)).trans (Aligned.trimStart _)))

theorem aligned_of_readEntry {s rest : Bytes} {p : Param} (h : readEntry s = .ok (p, rest)) :
    Aligned s rest := by
  rcases readEntry_eq_ok h with ⟨-, value, hvalue, -⟩ | ⟨-, heq, value, hvalue, -⟩ | ⟨-, rfl, -⟩
  · exact aligned_of_readLiteral hvalue
  · exact (aligned_default heq).trans (aligned_of_readLiteral hvalue)
  · exact (Aligned.readName s).trans (Aligned.trimStart _)

theorem aligned_more {s behind : Bytes} {p : Param} {b : UInt8}
    (hp : readEntry (trimStart s) = .ok (p, behind)) (h : (trimStart behind).head? = some b)
    (hb : ¬isQuote b) : Aligned s (trimStart behind).tail :=
  (Aligned.trimStart s).trans ((aligned_of_readEntry hp).trans
    ((Aligned.trimStart behind).trans (Aligned.tail h hb)))

theorem aligned_of_readsParams {s rest : Bytes} {ps : List Param} (h : ReadsParams s ps rest) :
    Aligned s rest := by
  induction h with
  | close h => exact (Aligned.trimStart _).trans (Aligned.tail h (by decide))
  | last hs hp hclose => exact aligned_more hp hclose (by decide)
  | more hs hp hcomma _ ih => exact (aligned_more hp hcomma (by decide)).trans ih

theorem aligned_of_readSlotParams {s rest : Bytes} {ps : List Param}
    (h : readSlotParams s = .ok (ps, rest)) : Aligned s rest := by
  unfold readSlotParams at h
  split at h
  · rename_i hopen
    obtain ⟨⟨params, behind⟩, hparams, hok⟩ := Fault.bind_eq_ok.mp h
    cases hok
    exact (Aligned.tail hopen (by decide)).trans
      ((aligned_of_readsParams (readsParams_of_readParams hparams)).trans (Aligned.trimStart _))
  · cases h
    exact .refl s

theorem aligned_of_header {body name after : Bytes} {raw : Bool} (h : Header body raw name after) :
    Aligned body after := by
  cases h with
  | plain h =>
    exact (Aligned.trimStart body).trans ((Aligned.readName _).trans (Aligned.trimStart _))
  | raw hmark h =>
    have htail : Aligned (trimStart body) (trimStart body).tail :=
      .tail (b := atSign) (by rw [hmark]; rfl) (by decide)
    rw [hmark, List.tail_cons, ← hmark] at htail
    exact (Aligned.trimStart body).trans
      (htail.trans ((Aligned.readName _).trans (Aligned.trimStart _)))

/-! ## The literals of a tag -/

/-- While the entries in `s` are read, a literal is read off the front of `t`. -/
inductive ParamsMeet : (s : Bytes) → (t : Bytes) → Prop
  | argument {s : Bytes} (hs : HasEntry s) (hname : ¬startsName (trimStart s)) :
    ParamsMeet s (trimStart s)
  | default {s : Bytes} (hs : HasEntry s) (hname : startsName (trimStart s))
      (heq : (trimStart (readName (trimStart s)).2).head? = some equals) :
    ParamsMeet s (trimStart (trimStart (readName (trimStart s)).2).tail)
  | more {s behind t : Bytes} {p : Param} (hs : HasEntry s)
      (hp : readEntry (trimStart s) = .ok (p, behind))
      (hcomma : (trimStart behind).head? = some comma) (ht : ParamsMeet (trimStart behind).tail t) :
    ParamsMeet s t

/-- While a tag is read, a literal is read off the front of `t`: the content of a definition, an entry
of the function call of a definition or of a slot or its default, or the operand of a slot. -/
inductive Meets : (body : Bytes) → (t : Bytes) → Prop
  | content {body name after : Bytes} (h : Header body false name after)
      (heq : after.head? = some equals) (hname : ¬startsName (trimStart after.tail)) :
    Meets body (trimStart after.tail)
  | call {body name after t : Bytes} (h : Header body false name after)
      (heq : after.head? = some equals) (hname : startsName (trimStart after.tail))
      (hopen : (trimStart (readName (trimStart after.tail)).2).head? = some openParen)
      (ht : ParamsMeet (trimStart (readName (trimStart after.tail)).2).tail t) : Meets body t
  | params {body name after t : Bytes} {raw : Bool} (h : Header body raw name after)
      (hslot : ¬(!raw ∧ after.head? = some equals)) (hopen : after.head? = some openParen)
      (ht : ParamsMeet after.tail t) : Meets body t
  | operand {body name after rest : Bytes} {raw : Bool} {params : List Param} {operator : Operator}
      (h : Header body raw name after) (hslot : ¬(!raw ∧ after.head? = some equals))
      (hparams : readSlotParams after = .ok (params, rest))
      (hoperator : rest.head?.bind Operator.ofSymbol? = some operator) :
    Meets body (trimStart rest.tail)

/-- What is wrong with an entry is wrong with its literal. -/
theorem meets_of_readEntry {s : Bytes} {fault : Fault} (hs : HasEntry s)
    (h : readEntry (trimStart s) = .error fault) :
    ∃ t, ParamsMeet s t ∧ readLiteral t = .error fault := by
  by_cases hname : startsName (trimStart s)
  · by_cases heq : (trimStart (readName (trimStart s)).2).head? = some equals
    · rw [readEntry_of_default hname heq] at h
      rcases Fault.bind_eq_error.mp h with hliteral | ⟨_, _, hok⟩
      · exact ⟨_, .default hs hname heq, hliteral⟩
      · cases hok
    · rw [readEntry_of_name hname heq] at h
      cases h
  · rw [readEntry_of_not_startsName hname] at h
    rcases Fault.bind_eq_error.mp h with hliteral | ⟨_, _, hok⟩
    · exact ⟨_, .argument hs hname, hliteral⟩
    · cases hok

theorem meets_of_readParams {s : Bytes} {fault : Fault} (h : readParams s = .error fault)
    (hf : fault.reason = .unterminatedString) : ∃ t, ParamsMeet s t ∧ readLiteral t = .error fault := by
  induction s using params_induction with
  | nil s hnil =>
    rw [readParams_of_nil hnil] at h
    cases h
    cases hf
  | close s hclose =>
    rw [readParams_of_close hclose] at h
    cases h
  | error s fault' hs hp =>
    rw [readParams_of_error hs hp] at h
    cases h
    exact meets_of_readEntry hs hp
  | more s p behind hs hp hcomma ih =>
    rw [readParams_of_entry hs hp, readMoreParams, if_pos hcomma] at h
    rcases Fault.bind_eq_error.mp h with hmore | ⟨_, _, hok⟩
    · obtain ⟨t, ht, hliteral⟩ := ih hmore
      exact ⟨t, .more hs hp hcomma ht, hliteral⟩
    · cases hok
  | last s p behind hs hp hcomma =>
    rw [readParams_of_entry hs hp, readMoreParams, if_neg hcomma] at h
    split at h
    · cases h
    · cases h
      cases hf

theorem meets_of_readDefinition {body name after : Bytes} {fault : Fault}
    (hheader : Header body false name after) (heq : after.head? = some equals)
    (h : readDefinition name after.tail = .error fault) (hf : fault.reason = .unterminatedString) :
    ∃ t, Meets body t ∧ readLiteral t = .error fault := by
  unfold readDefinition at h
  rcases Fault.bind_eq_error.mp h with hcontent | ⟨⟨content, rest⟩, -, hrest⟩
  · unfold readContent at hcontent
    split at hcontent
    · rename_i hname
      dsimp only at hcontent
      split at hcontent
      · rename_i hopen
        rcases Fault.bind_eq_error.mp hcontent with hparams | ⟨⟨arguments, rest⟩, -, hok⟩
        · obtain ⟨t, ht, hliteral⟩ := meets_of_readParams hparams hf
          exact ⟨t, .call hheader heq hname hopen ht, hliteral⟩
        · rcases Fault.bind_eq_error.mp hok with hrequire | ⟨_, _, hok⟩
          · obtain ⟨p, -, -, rfl⟩ := requireLiterals_eq_error hrequire
            cases hf
          · cases hok
      · cases hcontent
        cases hf
    · rename_i hname
      rcases Fault.bind_eq_error.mp hcontent with hliteral | ⟨_, _, hok⟩
      · exact ⟨_, .content hheader heq hname, hliteral⟩
      · cases hok
  · dsimp only at hrest
    split at hrest
    · cases hrest
    · cases hrest
      cases hf

theorem meets_of_readSlot {body name after : Bytes} {raw : Bool} {fault : Fault}
    (hheader : Header body raw name after) (hslot : ¬(!raw ∧ after.head? = some equals))
    (h : readSlot raw name after = .error fault) (hf : fault.reason = .unterminatedString) :
    ∃ t, Meets body t ∧ readLiteral t = .error fault := by
  unfold readSlot at h
  rcases Fault.bind_eq_error.mp h with hparams | ⟨⟨params, rest⟩, hparams, h⟩
  · unfold readSlotParams at hparams
    split at hparams
    · rename_i hopen
      rcases Fault.bind_eq_error.mp hparams with hparams | ⟨_, _, hok⟩
      · obtain ⟨t, ht, hliteral⟩ := meets_of_readParams hparams hf
        exact ⟨t, .params hheader hslot hopen ht, hliteral⟩
      · cases hok
    · cases hparams
  · rcases Fault.bind_eq_error.mp h with hoperation | ⟨⟨operation, rest'⟩, -, hend⟩
    · unfold readOperation at hoperation
      split at hoperation
      · cases hoperation
      · rename_i operator hoperator
        rcases Fault.bind_eq_error.mp hoperation with hliteral | ⟨⟨value, rest'⟩, -, hvalue⟩
        · exact ⟨_, .operand hheader hslot hparams hoperator, hliteral⟩
        · dsimp only at hvalue
          split at hvalue
          · cases hvalue
            cases hf
          · split at hvalue
            · cases hvalue
              cases hf
            · cases hvalue
    · dsimp only at hend
      split at hend
      · cases hend
      · cases hend
        cases hf

/-- A tag has an unterminated string only if one of its literals is one. -/
theorem meets_of_read {body : Bytes} {fault : Fault} (h : read body = .error fault)
    (hf : fault.reason = .unterminatedString) : ∃ t, Meets body t ∧ readLiteral t = .error fault := by
  by_cases hheader : ∃ raw name after, Header body raw name after
  · obtain ⟨raw, name, after, hheader⟩ := hheader
    rw [read_of_header hheader] at h
    split at h
    · rename_i hdefinition
      obtain ⟨hraw, heq⟩ := hdefinition
      obtain rfl : raw = false := by simpa using hraw
      exact meets_of_readDefinition hheader heq h hf
    · rename_i hslot
      exact meets_of_readSlot hheader hslot h hf
  · obtain ⟨place, hread | hread⟩ := read_of_not_header fun raw name after hh =>
      hheader ⟨raw, name, after, hh⟩
    all_goals
      rw [hread] at h
      cases h
      cases hf

/-! ## Where literals start -/

theorem aligned_of_paramsMeet {s t : Bytes} (h : ParamsMeet s t) : Aligned s t := by
  induction h with
  | argument hs hname => exact .trimStart _
  | default hs hname heq => exact (Aligned.trimStart _).trans (aligned_default heq)
  | more hs hp hcomma _ ih => exact (aligned_more hp hcomma (by decide)).trans ih

theorem not_isQuote_of_operator {b : UInt8} {operator : Operator}
    (h : Operator.ofSymbol? b = some operator) : ¬isQuote b := by
  have hb := List.find?_some h
  intro hq
  obtain rfl : operator.symbol = b := by simpa using hb
  cases operator <;> revert hq <;> decide

/-- Wherever a literal is read in a tag, the scanner of tags is outside of quotes. -/
theorem aligned_of_meets {body t : Bytes} (h : Meets body t) : Aligned body t := by
  cases h with
  | content h heq hname =>
    exact (aligned_of_header h).trans ((Aligned.tail heq (by decide)).trans (.trimStart _))
  | call h heq hname hopen ht =>
    exact (aligned_of_header h).trans ((Aligned.tail heq (by decide)).trans
      ((Aligned.trimStart _).trans ((Aligned.readName _).trans ((Aligned.trimStart _).trans
        ((Aligned.tail hopen (by decide)).trans (aligned_of_paramsMeet ht))))))
  | params h hslot hopen ht =>
    exact (aligned_of_header h).trans
      ((Aligned.tail hopen (by decide)).trans (aligned_of_paramsMeet ht))
  | operand h hslot hparams hoperator =>
    obtain ⟨b, hb, hsymbol⟩ := Option.bind_eq_some_iff.mp hoperator
    exact (aligned_of_header h).trans ((aligned_of_readSlotParams hparams).trans
      ((Aligned.tail hb (not_isQuote_of_operator hsymbol)).trans (.trimStart _)))

end Tag

/-! ## No string is left open -/

open Piece (Quoting)

/-- The string whose opening quote stands in front of `quoted` is closed in the tag, by the quote at
which the scanner of tags leaves the quoted state that it entered at the opening one. -/
structure Closed (body : Bytes) (q : UInt8) (quoted before content behind : Bytes) : Prop where
  body_eq : body = before ++ q :: (content ++ q :: behind)
  quoted_eq : quoted = content ++ q :: behind
  read : Tag.readLiteral (q :: quoted) = .ok (.text (unescape content), behind)
  outside_before : Quoting.outside.after before = .outside
  not_outside : ∀ part, part <+: content → Quoting.outside.after (before ++ q :: part) ≠ .outside
  outside_behind : Quoting.outside.after (before ++ q :: (content ++ [q])) = .outside

theorem closed_of_aligned {body quoted : Bytes} {q : UInt8}
    (hbody : Quoting.outside.after body = .outside) (h : Tag.Aligned body (q :: quoted))
    (hq : isQuote q) :
    ∃ before content behind, Closed body q quoted before content behind := by
  obtain ⟨before, rfl, hbefore⟩ := h
  have hopen (part : Bytes) :
      Quoting.outside.after (before ++ q :: part) = (Quoting.within q false).after part := by
    rw [Quoting.after_append, hbefore, Piece.after_quote hq]
  obtain ⟨content, behind, hsplit⟩ := Piece.exists_closing_quote ((hopen quoted).symm.trans hbody)
  have hquoted : quoted = content ++ q :: behind := by
    rw [← Piece.append_of_closed hsplit, List.append_assoc, List.singleton_append]
  exact ⟨before, content, behind,
    { body_eq := by rw [hquoted]
      quoted_eq := hquoted
      read := Tag.readLiteral_of_closed hq hsplit
      outside_before := hbefore
      not_outside := fun part hpart => by
        rw [hopen]
        exact Piece.after_ne_outside (by rwa [hsplit])
      outside_behind := by rw [hopen, Piece.after_closed hq hsplit] }⟩

namespace Piece

theorem reason_of_readTag {s : Bytes} {fault : Fault} (h : readTag s = .error fault) :
    fault.reason ≠ .unterminatedString := by
  intro hf
  unfold readTag at h
  split at h
  · cases h
    cases hf
  · rename_i body after hsplit
    split at h
    · rename_i fault' hread
      cases h
      obtain ⟨t, ht, hliteral⟩ := Tag.meets_of_read hread hf
      obtain ⟨q, quoted, rfl, hq, hnil⟩ := Tag.readLiteral_eq_unterminated hliteral hf
      obtain ⟨before, content, behind, hclosed⟩ :=
        closed_of_aligned (after_of_splitTag hsplit) (Tag.aligned_of_meets ht) hq
      rw [hclosed.read] at hliteral
      cases hliteral
    · rename_i tag hread
      cases tag with
      | definition d => cases h
      | slot slot =>
        simp only [ofTag] at h
        split at h
        · cases h
        · rcases Fault.bind_eq_error.mp h with hrequire | ⟨_, _, hok⟩
          · obtain ⟨p, -, -, rfl⟩ := Tag.requireLiterals_eq_error hrequire
            cases hf
          · cases hok

theorem reason_of_read {s : Bytes} {fault : Fault} (h : read s = .error fault) :
    fault.reason ≠ .unterminatedString := by
  by_cases ho : opensTag s
  · rw [read_of_opensTag ho] at h
    exact reason_of_readTag h
  · rw [read_of_not_opensTag ho] at h
    cases h

end Piece

namespace Template

/-- What is wrong with a source is wrong with one of its pieces. -/
theorem exists_read_of_pieces_eq_error {s : Bytes} {fault : Fault} (h : pieces s = .error fault) :
    ∃ rest, Piece.read rest = .error fault := by
  obtain ⟨_, rest, _, _, hread⟩ := exists_readsOff_of_pieces_eq_error h
  exact ⟨rest, hread⟩

end Template

/-- No other reason has the words of one of these two. -/
theorem Fault.detail_ne {reason other : Fault.Reason}
    (hother : other = .unterminatedString ∨ other = .strayClosingTag) (h : reason ≠ other) :
    reason.detail ≠ other.detail := by
  -- Two of the reasons have words that depend on the template, but not the first byte of them.
  have hvaries {first : UInt8} {rest : Bytes} (hfirst : first = 0x61 ∨ first = 0x62) :
      first :: rest ≠ other.detail := by
    intro hd
    have hhead : some first = other.detail.head? := congrArg List.head? hd
    rcases hother with rfl | rfl <;> rcases hfirst with rfl | rfl <;> exact absurd hhead (by decide)
  cases reason with
  | badNumber digits => exact hvaries (.inr rfl)
  | argumentNotLiteral param => exact hvaries (.inl rfl)
  | _ => rcases hother with rfl | rfl <;> first | exact absurd rfl h | decide

/-- No template fails because of an unterminated string: wherever a tag has its end, each string that
is read in it is closed in it, at the same byte for the reader of the string and for the scanner that
found the end of the tag. -/
theorem closed_at_the_same_quote :
    (∀ source failure, Template.parse source = .error failure →
      failure.detail ≠ Bytes.ofString "unterminated string") ∧
    ∀ s body rest q quoted, Piece.splitTag .outside s = some (body, rest) →
      Tag.Meets body (q :: quoted) → isQuote q →
      ∃ before content behind, Closed body q quoted before content behind := by
  refine ⟨fun source failure h => ?_, fun s body rest q quoted hsplit hmeets hq =>
    closed_of_aligned (Piece.after_of_splitTag hsplit) (Tag.aligned_of_meets hmeets) hq⟩
  unfold Template.parse at h
  split at h
  · cases h
  · rename_i fault hpieces
    cases h
    obtain ⟨rest, hread⟩ := Template.exists_read_of_pieces_eq_error hpieces
    exact Fault.detail_ne (.inl rfl) (Piece.reason_of_read hread)

/-- A string with closing braces and an escaped quote in it. -/
theorem closed_at_the_same_quote_of_braces :
    Piece.splitTag .outside (Bytes.ofString "a='\x7d\x7d\\''\x7d\x7d") =
        some (Bytes.ofString "a='\x7d\x7d\\''", []) ∧
      ∃ before content behind,
        Closed (Bytes.ofString "a='\x7d\x7d\\''") 0x27 (Bytes.ofString "\x7d\x7d\\''") before content
          behind := by
  have hsplit : Piece.splitTag .outside (Bytes.ofString "a='\x7d\x7d\\''\x7d\x7d") =
      some (Bytes.ofString "a='\x7d\x7d\\''", []) := by decide
  have hmeets : Tag.Meets (Bytes.ofString "a='\x7d\x7d\\''")
      (0x27 :: Bytes.ofString "\x7d\x7d\\''") :=
    .content (.plain (by decide)) (by decide) (by decide)
  exact ⟨hsplit, closed_at_the_same_quote.2 _ _ _ _ _ hsplit hmeets (by decide)⟩

end Stencil
