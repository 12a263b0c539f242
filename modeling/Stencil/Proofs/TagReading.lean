import Stencil.Proofs.Escaping
import Stencil.Tag

/-!
# Reading tags

What each reader of a tag does, said once:

* `readLiteral_eq_ok`: a literal is a quoted string up to its closing quote, or a number;
* `Header`: the mark and the name that a tag begins with; every tag without them is refused
  (`read_of_header`, `read_of_not_header`);
* `readEntry_eq_ok`: the three forms of an entry;
* `ReadsParams`: the ways in which a list of entries is read to its end (`readParams_eq_ok_iff`).
-/

namespace Stencil

namespace Tag

open Ascii
open Bytes (trimStart)

/-! ## Literals -/

theorem readLiteral_of_closed {q c : UInt8} {s content after : Bytes} (hq : isQuote q)
    (h : splitUnescaped q true false s = (content, c :: after)) :
    readLiteral (q :: s) = .ok (.text (unescape content), after) := by
  rw [readLiteral, if_pos hq, h]

theorem readLiteral_of_unclosed {q : UInt8} {s : Bytes} (hq : isQuote q)
    (h : (splitUnescaped q true false s).2 = []) :
    readLiteral (q :: s) = .error (faultAt .unterminatedString []) := by
  rw [readLiteral, if_pos hq, show splitUnescaped q true false s = (_, []) from Prod.ext rfl h]

/-- Does a number start with this byte? -/
abbrev startsNumber (b : UInt8) : Prop := b = minus ∨ b = point ∨ isDigit b

theorem not_isQuote_of_startsNumber {b : UInt8} (h : startsNumber b) : ¬isQuote b := by
  intro hq
  obtain rfl | rfl : b = doubleQuote ∨ b = singleQuote := by simpa [isQuote] using hq
  all_goals revert h; decide

theorem startsNumber_of_mem_splitNumber {b : UInt8} {s : Bytes} (h : b ∈ (splitNumber s).1) :
    startsNumber b := by
  rcases List.mem_append.mp h with hsign | hbody
  · split at hsign
    · exact .inl (List.mem_singleton.mp hsign)
    · cases hsign
  · have hb := List.all_eq_true.mp List.all_takeWhile b hbody
    simp only [Bool.or_eq_true, beq_iff_eq] at hb
    exact .inr hb.symm

theorem readLiteral_of_number {b : UInt8} {s : Bytes} {x : Binary64} (hb : startsNumber b)
    (h : Numeral.read? (splitNumber (b :: s)).1 = some x) :
    readLiteral (b :: s) = .ok (.number x, (splitNumber (b :: s)).2) := by
  rw [readLiteral, if_neg (not_isQuote_of_startsNumber hb), if_pos hb]
  simp only [h]

theorem readLiteral_of_badNumber {b : UInt8} {s : Bytes} (hb : startsNumber b)
    (h : Numeral.read? (splitNumber (b :: s)).1 = none) :
    readLiteral (b :: s) =
      .error (faultAt (.badNumber (splitNumber (b :: s)).1) (splitNumber (b :: s)).2) := by
  rw [readLiteral, if_neg (not_isQuote_of_startsNumber hb), if_pos hb]
  simp only [h]

theorem readLiteral_of_neither {b : UInt8} {s : Bytes} (hq : ¬isQuote b) (hb : ¬startsNumber b) :
    readLiteral (b :: s) = .error (faultAt .literalExpected (b :: s)) := by
  rw [readLiteral, if_neg hq, if_neg hb]

/-- A literal is a quoted string up to its closing quote, or a number. -/
theorem readLiteral_eq_ok {s rest : Bytes} {value : Value} (h : readLiteral s = .ok (value, rest)) :
    (∃ q quoted content, s = q :: quoted ∧ isQuote q ∧
      splitUnescaped q true false quoted = (content, q :: rest) ∧ value = .text (unescape content)) ∨
    (∃ x, (splitNumber s).2 = rest ∧ Numeral.read? (splitNumber s).1 = some x ∧ value = .number x) := by
  cases s with
  | nil => cases h
  | cons b t =>
    by_cases hq : isQuote b
    · rcases splitUnescaped_snd b true false t with hnil | ⟨after, hafter⟩
      · rw [readLiteral_of_unclosed hq hnil] at h
        cases h
      · have hclosed : splitUnescaped b true false t = (_, b :: after) := Prod.ext rfl hafter
        rw [readLiteral_of_closed hq hclosed] at h
        cases h
        exact .inl ⟨b, t, _, rfl, hq, hclosed, rfl⟩
    · by_cases hb : startsNumber b
      · cases hx : Numeral.read? (splitNumber (b :: t)).1 with
        | none =>
          rw [readLiteral_of_badNumber hb hx] at h
          cases h
        | some x =>
          rw [readLiteral_of_number hb hx] at h
          cases h
          exact .inr ⟨x, rfl, rfl, rfl⟩
      · rw [readLiteral_of_neither hq hb] at h
        cases h

/-- A string is unterminated only where it has no closing quote. -/
theorem readLiteral_eq_unterminated {s : Bytes} {fault : Fault} (h : readLiteral s = .error fault)
    (hf : fault.reason = .unterminatedString) :
    ∃ q quoted, s = q :: quoted ∧ isQuote q ∧ (splitUnescaped q true false quoted).2 = [] := by
  cases s with
  | nil =>
    cases h
    cases hf
  | cons b t =>
    by_cases hq : isQuote b
    · refine ⟨b, t, rfl, hq, ?_⟩
      rcases splitUnescaped_snd b true false t with hnil | ⟨after, hafter⟩
      · exact hnil
      · rw [readLiteral_of_closed hq (Prod.ext rfl hafter)] at h
        cases h
    · by_cases hb : startsNumber b
      · cases hx : Numeral.read? (splitNumber (b :: t)).1 with
        | none =>
          rw [readLiteral_of_badNumber hb hx] at h
          cases h
          cases hf
        | some x =>
          rw [readLiteral_of_number hb hx] at h
          cases h
      · rw [readLiteral_of_neither hq hb] at h
        cases h
        cases hf

/-! ## Entries -/

theorem readEntry_of_not_startsName {s : Bytes} (h : ¬startsName s) :
    readEntry s = do
      let (value, rest) ← readLiteral s
      return ({ value }, rest) := by
  rw [readEntry, if_neg h]

theorem readEntry_of_default {s : Bytes} (h : startsName s)
    (heq : (trimStart (readName s).2).head? = some equals) :
    readEntry s = do
      let (value, rest) ← readLiteral (trimStart (trimStart (readName s).2).tail)
      return ({ name := (readName s).1, value }, rest) := by
  simp only [readEntry, if_pos h, if_pos heq]

theorem readEntry_of_name {s : Bytes} (h : startsName s)
    (heq : (trimStart (readName s).2).head? ≠ some equals) :
    readEntry s = .ok ({ name := (readName s).1, required := true }, trimStart (readName s).2) := by
  simp only [readEntry, if_pos h, if_neg heq]

/-- An entry is a literal, a name with a literal for its default, or a name alone. -/
theorem readEntry_eq_ok {s rest : Bytes} {p : Param} (h : readEntry s = .ok (p, rest)) :
    (¬startsName s ∧ ∃ value, readLiteral s = .ok (value, rest) ∧ p = { value }) ∨
    (startsName s ∧ (trimStart (readName s).2).head? = some equals ∧
      ∃ value, readLiteral (trimStart (trimStart (readName s).2).tail) = .ok (value, rest) ∧
        p = { name := (readName s).1, value }) ∨
    (startsName s ∧ rest = trimStart (readName s).2 ∧
      p = { name := (readName s).1, required := true }) := by
  by_cases hs : startsName s
  · by_cases heq : (trimStart (readName s).2).head? = some equals
    · rw [readEntry_of_default hs heq] at h
      obtain ⟨⟨value, behind⟩, hvalue, hp⟩ := Fault.bind_eq_ok.mp h
      cases hp
      exact .inr (.inl ⟨hs, heq, value, hvalue, rfl⟩)
    · rw [readEntry_of_name hs heq] at h
      cases h
      exact .inr (.inr ⟨hs, rfl, rfl⟩)
  · rw [readEntry_of_not_startsName hs] at h
    obtain ⟨⟨value, behind⟩, hvalue, hp⟩ := Fault.bind_eq_ok.mp h
    cases hp
    exact .inl ⟨hs, value, hvalue, rfl⟩

/-! ## Lists of entries -/

/-- The list goes on here: there is something that does not close it. -/
def HasEntry (s : Bytes) : Prop := trimStart s ≠ [] ∧ (trimStart s).head? ≠ some closeParen

theorem readParams_of_nil {s : Bytes} (h : trimStart s = []) :
    readParams s = .error (faultAt .unterminatedParams []) := by
  rw [readParams, if_pos (by rw [h]; rfl), h]

theorem readParams_of_close {s : Bytes} (h : (trimStart s).head? = some closeParen) :
    readParams s = .ok ([], (trimStart s).tail) := by
  have hne : ¬List.isEmpty (trimStart s) := by
    cases hs : trimStart s <;> simp_all
  rw [readParams, if_neg hne, if_pos h]

theorem readParams_of_error {s : Bytes} {fault : Fault} (hs : HasEntry s)
    (h : readEntry (trimStart s) = .error fault) : readParams s = .error fault := by
  rw [readParams, if_neg (by simpa using hs.1), if_neg hs.2]
  split <;> simp_all

/-- What is read behind an entry: the end of the list, or a comma and the entries behind it. -/
def readMoreParams (p : Param) (after : Bytes) : Except Fault (List Param × Bytes) :=
  if after.head? = some comma then do
    let (ps, rest) ← readParams after.tail
    return (p :: ps, rest)
  else if after.head? = some closeParen then .ok ([p], after.tail)
  else .error (faultAt .separatorExpected after)

theorem readParams_of_entry {s behind : Bytes} {p : Param} (hs : HasEntry s)
    (h : readEntry (trimStart s) = .ok (p, behind)) :
    readParams s = readMoreParams p (trimStart behind) := by
  rw [readParams, if_neg (by simpa using hs.1), if_neg hs.2]
  split <;> simp_all [readMoreParams]

/-- Induction along a list of entries. -/
@[elab_as_elim]
theorem params_induction {motive : Bytes → Prop}
    (nil : ∀ s, trimStart s = [] → motive s)
    (close : ∀ s, (trimStart s).head? = some closeParen → motive s)
    (error : ∀ s fault, HasEntry s → readEntry (trimStart s) = .error fault → motive s)
    (more : ∀ s p behind, HasEntry s → readEntry (trimStart s) = .ok (p, behind) →
      (trimStart behind).head? = some comma → motive (trimStart behind).tail → motive s)
    (last : ∀ s p behind, HasEntry s → readEntry (trimStart s) = .ok (p, behind) →
      (trimStart behind).head? ≠ some comma → motive s)
    (s : Bytes) : motive s := by
  induction s using readParams.induct with
  | case1 s front hnil => exact nil s (List.isEmpty_iff.mp hnil)
  | case2 s front hne hclose => exact close s hclose
  | case3 s front hne hclose fault hp =>
    exact error s fault ⟨mt List.isEmpty_iff.mpr hne, hclose⟩ hp
  | case4 s front hne hclose p behind hp after hcomma ih =>
    exact more s p behind ⟨mt List.isEmpty_iff.mpr hne, hclose⟩ hp hcomma ih
  | case5 s front hne hclose p behind hp after hcomma hend =>
    exact last s p behind ⟨mt List.isEmpty_iff.mpr hne, hclose⟩ hp hcomma
  | case6 s front hne hclose p behind hp after hcomma hend =>
    exact last s p behind ⟨mt List.isEmpty_iff.mpr hne, hclose⟩ hp hcomma

/-- Reading entries up to the parenthesis that closes them gives these, and leaves the rest. -/
inductive ReadsParams : Bytes → List Param → Bytes → Prop
  | close {s : Bytes} (h : (trimStart s).head? = some closeParen) :
    ReadsParams s [] (trimStart s).tail
  | last {s behind : Bytes} {p : Param} (hs : HasEntry s)
      (hp : readEntry (trimStart s) = .ok (p, behind))
      (hclose : (trimStart behind).head? = some closeParen) :
    ReadsParams s [p] (trimStart behind).tail
  | more {s behind rest : Bytes} {p : Param} {ps : List Param} (hs : HasEntry s)
      (hp : readEntry (trimStart s) = .ok (p, behind))
      (hcomma : (trimStart behind).head? = some comma)
      (hps : ReadsParams (trimStart behind).tail ps rest) : ReadsParams s (p :: ps) rest

theorem readParams_of_readsParams {s rest : Bytes} {ps : List Param} (h : ReadsParams s ps rest) :
    readParams s = .ok (ps, rest) := by
  induction h with
  | close h => exact readParams_of_close h
  | last hs hp hclose =>
    rw [readParams_of_entry hs hp, readMoreParams, if_neg (by rw [hclose]; decide), if_pos hclose]
  | more hs hp hcomma _ ih =>
    rw [readParams_of_entry hs hp, readMoreParams, if_pos hcomma, ih]
    rfl

theorem readsParams_of_readParams {s rest : Bytes} {ps : List Param}
    (h : readParams s = .ok (ps, rest)) : ReadsParams s ps rest := by
  induction s using params_induction generalizing ps with
  | nil s hnil =>
    rw [readParams_of_nil hnil] at h
    cases h
  | close s hclose =>
    rw [readParams_of_close hclose] at h
    cases h
    exact .close hclose
  | error s fault hs hp =>
    rw [readParams_of_error hs hp] at h
    cases h
  | more s p behind hs hp hcomma ih =>
    rw [readParams_of_entry hs hp, readMoreParams, if_pos hcomma] at h
    obtain ⟨⟨more, rest'⟩, hmore, hok⟩ := Fault.bind_eq_ok.mp h
    cases hok
    exact .more hs hp hcomma (ih hmore)
  | last s p behind hs hp hcomma =>
    rw [readParams_of_entry hs hp, readMoreParams, if_neg hcomma] at h
    split at h
    · rename_i hclose
      cases h
      exact .last hs hp hclose
    · cases h

theorem readParams_eq_ok_iff {s rest : Bytes} {ps : List Param} :
    readParams s = .ok (ps, rest) ↔ ReadsParams s ps rest :=
  ⟨readsParams_of_readParams, readParams_of_readsParams⟩

/-- Arguments are refused only because one of them is a bare name. -/
theorem requireLiterals_eq_error {name : Bytes} {params : List Param} {fault : Fault}
    (h : requireLiterals name params = .error fault) :
    ∃ p ∈ params, p.required ∧ fault = ⟨.argumentNotLiteral p.name, .name name⟩ := by
  unfold requireLiterals at h
  split at h
  · rename_i p hp
    cases h
    exact ⟨p, List.mem_of_find?_eq_some hp, List.find?_some hp, rfl⟩
  · cases h

/-! ## The beginning of a tag -/

/-- A tag begins with this name, behind a mark if it is raw; blanks may stand in front of the mark or
the name and behind the name. -/
inductive Header : Bytes → (raw : Bool) → (name : Bytes) → (after : Bytes) → Prop
  | plain {body : Bytes} (h : startsName (trimStart body)) :
    Header body false (readName (trimStart body)).1 (trimStart (readName (trimStart body)).2)
  | raw {body s : Bytes} (hmark : trimStart body = atSign :: s) (h : startsName s) :
    Header body true (readName s).1 (trimStart (readName s).2)

theorem ne_of_startsName {b c : UInt8} {s : Bytes} (h : startsName (b :: s))
    (hc : isNameStart c = false) : b ≠ c := by
  rintro rfl
  exact Bool.false_ne_true (hc.symm.trans h)

theorem read_of_header {body name after : Bytes} {raw : Bool} (h : Header body raw name after) :
    read body =
      if !raw ∧ after.head? = some equals then readDefinition name after.tail
      else readSlot raw name after := by
  cases h with
  | plain h =>
    cases hs : trimStart body with
    | nil => simp [hs, startsName] at h
    | cons b s =>
      rw [hs] at h
      have hslash : b ≠ slash := ne_of_startsName h (by decide)
      have hat : b ≠ atSign := ne_of_startsName h (by decide)
      simp [read, hs, hslash, hat, h]
  | raw hmark h =>
    have hslash : atSign ≠ slash := by decide
    simp [read, hmark, h, hslash]

/-- A tag that does not begin with a name is refused at once. -/
theorem read_of_not_header {body : Bytes} (h : ∀ raw name after, ¬Header body raw name after) :
    ∃ closed, read body = .error ⟨.strayClosingTag, .name closed⟩ ∨
      read body = .error ⟨.nameExpected, .left (body.length + 2)⟩ := by
  by_cases hslash : (trimStart body).head? = some slash
  · exact ⟨_, .inl (by rw [read, if_pos hslash])⟩
  · refine ⟨[], .inr ?_⟩
    simp only [read, if_neg hslash]
    rw [if_neg]
    intro hname
    split at hname
    · rename_i hat
      cases hs : trimStart body with
      | nil => simp [hs] at hat
      | cons b s =>
        obtain rfl : b = atSign := by simpa [hs] using hat
        exact h _ _ _ (.raw hs (by simpa [hs] using hname))
    · exact h _ _ _ (.plain hname)

end Tag

end Stencil
