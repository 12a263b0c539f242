import Mathlib.Data.List.Induction
import Stencil.Program
import Stencil.Proofs.Acceptance
import Stencil.Proofs.NumberRange
import Stencil.Proofs.Outcome

/-!
# Reading printed numbers

The text of a double is read in two places, behind `-v` on the command line and in a definition, and both
take it for the number in the same range. On the command line no text of a double is an option
(`Options.ofWord?_write`), so that it is the value of the variable in front of it
(`Options.variable_of_read`), and what is no number is a text. A definition goes on behind the digits of a
number, and all that a text out of the range goes on with is refused (`Tag.readDefinition_of_not_isPlain`).
The main statement is `number_range`.
-/

namespace Stencil

open Ascii Numeral

/-! ## The bytes of a number's text -/

namespace Numeral

theorem mem_power {s : Bytes} {exponent : ℤ} (h : power? s = some exponent) :
    ∀ b ∈ s, Tag.startsNumber b ∨ b = plus := by
  have hdigits {t : Bytes} (ht : t.all isDigit) : ∀ b ∈ t, Tag.startsNumber b ∨ b = plus := fun b hb =>
    .inl (.inr (.inr (List.all_eq_true.mp ht b hb)))
  by_cases hsign : s.head? = some minus ∨ s.head? = some plus
  · simp only [power?, if_pos hsign] at h
    split at h
    · cases h
    · rename_i hall
      rw [not_or, Bool.not_eq_true', Bool.not_eq_false] at hall
      cases s with
      | nil => simp at hsign
      | cons b t =>
        simp only [List.head?_cons, Option.some.injEq] at hsign
        exact List.forall_mem_cons.mpr ⟨hsign.imp .inl id, hdigits hall.2⟩
  · simp only [power?, if_neg hsign] at h
    split at h
    · cases h
    · rename_i hall
      rw [not_or, Bool.not_eq_true', Bool.not_eq_false] at hall
      exact hdigits hall.2

end Numeral

namespace Binary64

theorem mem_write {x : Binary64} {b : UInt8} (hb : b ∈ x.write) :
    Tag.startsNumber b ∨ b = plus ∨ isNameStart b := by
  have hword {word : Bytes}
      (h : word.all fun b => Tag.startsNumber b ∨ b = plus ∨ isNameStart b) (hb : b ∈ word) :=
    of_decide_eq_true (List.all_eq_true.mp h b hb)
  by_cases hplain : x.IsPlain
  · exact .inl (startsNumber_of_read? (read?_write_of_isPlain hplain) b hb)
  · have hexcess := write_of_not_isPlain hplain
    generalize x.write = text at hb hexcess
    cases hexcess with
    | power hnumber hpower =>
      rcases List.mem_append.mp hb with hb | hb
      · exact .inl (startsNumber_of_read? hnumber b hb)
      · rcases List.mem_cons.mp hb with rfl | hb
        · exact .inr (.inr (by decide))
        · exact (mem_power hpower b hb).imp_right .inl
    | nan => exact hword rfl hb
    | infinity => exact hword rfl hb
    | negativeInfinity => exact hword rfl hb

theorem isPlain_of_mem_write {x : Binary64} : ∀ b ∈ x.write, Stencil.isPlain b := by
  intro b hb
  rcases mem_write hb with hnumber | rfl | hname
  · exact isPlain_of_startsNumber b hnumber
  · rfl
  · exact isPlain_of_isNameByte b (by simp [isNameByte, hname])

theorem untilNul_write (x : Binary64) : Bytes.untilNul x.write = x.write := by
  refine List.takeWhile_eq_self_iff.mpr fun b hb => bne_iff_ne.mpr ?_
  rintro rfl
  rcases mem_write hb with hnumber | hplus | hname
  · exact absurd hnumber (by decide)
  · exact absurd hplus (by decide)
  · exact absurd hname (by decide)

end Binary64

theorem Action.result_forM {σ α : Type} {f : α → Action σ PUnit}
    (h : ∀ a w, (f a w).result = .ok ()) (l : List α) (w : World σ) : (l.forM f w).result = .ok () := by
  induction l generalizing w with
  | nil => rfl
  | cons a l ih =>
    show ((f a >>= fun _ => l.forM f) w).result = _
    exact result_bind_eq_ok.mpr ⟨(), h a w, ih _⟩

/-! ## On the command line -/

namespace Options

/-- The words that are options. -/
def optionWords : List Bytes :=
  ["-o", "-b", "-m", "-js", "-jf", "-v", "-s", "-d", "-p"].map Bytes.ofString

theorem ofWord?_of_notMem {word : Bytes} (h : word ∉ optionWords) :
    Setting.ofWord? word = none ∧ Flag.ofWord? word = none := by
  have hlookup {α : Type} {words : List (Bytes × α)} (hwords : ∀ entry ∈ words, entry.1 ∈ optionWords) :
      words.lookup word = none :=
    List.lookup_eq_none_iff.mpr fun entry hentry =>
      bne_iff_ne.mpr fun heq => h (heq ▸ hwords entry hentry)
  exact ⟨hlookup (by decide), hlookup (by decide)⟩

/-- Every option is a minus sign with a letter behind it. -/
theorem ofWord?_eq_none {word : Bytes} (h : ∀ b rest, word = minus :: b :: rest → isNameStart b = false) :
    Setting.ofWord? word = none ∧ Flag.ofWord? word = none := by
  have hoptions : ∀ option ∈ optionWords,
      option.head? = some minus ∧ option.tail.head?.any isNameStart := by decide
  refine ofWord?_of_notMem fun hmem => ?_
  obtain ⟨hfirst, hsecond⟩ := hoptions word hmem
  obtain ⟨t, rfl⟩ := List.head?_eq_some_iff.mp hfirst
  cases t with
  | nil => cases hsecond
  | cons b rest => exact Bool.false_ne_true ((h b rest rfl).symm.trans hsecond)

theorem ofWord?_write (x : Binary64) : Setting.ofWord? x.write = none ∧ Flag.ofWord? x.write = none := by
  by_cases hplain : x.IsPlain
  · refine ofWord?_eq_none fun b rest hword => ?_
    have hb := Binary64.startsNumber_of_read? (Binary64.read?_write_of_isPlain hplain) b (by simp [hword])
    exact isNameStart_of_startsLiteral b (.inr hb)
  · have hexcess := Binary64.write_of_not_isPlain hplain
    generalize x.write = text at hexcess
    cases hexcess with
    | @power number power x exponent hnumber hpower =>
      refine ofWord?_eq_none fun b rest hword => ?_
      -- Behind the sign of a number is a digit or a point.
      rcases Grammar.read?_eq_some_iff.mp ⟨x, hnumber⟩ with hpositive | hnegative
      · obtain ⟨c, t, rfl, hc⟩ := hpositive.exists_cons
        exact absurd (List.cons.inj hword).1 (ne_minus_of_inNumber hc)
      · obtain ⟨c, t, rfl, hc⟩ := hnegative.exists_cons
        obtain rfl : c = b := (List.cons.inj (List.cons.inj hword).2).1
        refine isNameStart_of_startsLiteral c (.inr (.inr ?_))
        simpa [inNumber, or_comm] using hc
    | nan => exact ⟨by decide, by decide⟩
    | infinity => exact ⟨by decide, by decide⟩
    | negativeInfinity => exact ⟨by decide, by decide⟩

variable {p q : Progress}

/-- Takes a variable with its value. -/
def Progress.give (p : Progress) (name value : Bytes) : Progress :=
  ⟨{ p.options with definitions := p.options.definitions ++ [(name, value)] }, false⟩

theorem readWords_variable (p : Progress) (name : Bytes) {value : Bytes}
    (hvalue : Setting.ofWord? value = none ∧ Flag.ofWord? value = none) (rest : List Bytes) :
    readWords p (Bytes.ofString "-v" :: name :: value :: rest) = readWords (p.give name value) rest := by
  have hsetting : Setting.ofWord? (Bytes.ofString "-v") = some .variable := by decide
  have hword : (p.set name .variable).word? value = some (p.give name value) := by
    simp [Progress.word?, hvalue.2, Progress.set, setLastValue, Progress.give]
  rw [readWords_setting p hsetting, readWords_word hvalue.1 hword]
  rfl

/-- The definitions to which no value can be given any more. -/
def Progress.settled (p : Progress) : List (Bytes × Bytes) :=
  if p.valueExpected then p.options.definitions.dropLast else p.options.definitions

theorem Progress.settled_prefix (p : Progress) : p.settled <+: p.options.definitions := by
  unfold settled
  split
  · exact List.dropLast_prefix _
  · exact List.prefix_rfl

theorem Progress.settled_set (p : Progress) (operand : Bytes) (setting : Setting) :
    p.settled <+: (p.set operand setting).settled := by
  have hsettled := p.settled_prefix
  by_cases hvariable : setting = .variable
  · simpa [settled, set, hvariable] using hsettled
  · have hset : (p.set operand setting).settled = p.options.definitions := by
      cases setting <;> first | rfl | exact absurd rfl hvariable
    rwa [hset]

theorem Progress.settled_word? {word : Bytes} (h : p.word? word = some q) : p.settled <+: q.settled := by
  unfold word? at h
  split at h
  · rename_i flag _
    cases h
    have hflag : (p.flag flag).settled = p.options.definitions := by cases flag <;> rfl
    rw [hflag]
    exact p.settled_prefix
  · split at h
    · rename_i hvalue
      cases h
      rw [settled, if_pos hvalue]
      show _ <+: setLastValue p.options.definitions word
      unfold setLastValue
      split
      · exact List.prefix_append ..
      · rename_i hnone
        rw [List.getLast?_eq_none_iff.mp hnone]
        exact List.prefix_rfl
    · split at h
      · cases h
        exact p.settled_prefix
      · cases h

/-- Definitions are only added. -/
theorem settled_readWords {words : List Bytes} (h : (readWords p words).2 = some q) :
    p.settled <+: q.settled := by
  fun_induction readWords p words with
  | case1 p =>
    cases h
    exact List.prefix_rfl
  | case2 p word p' hword =>
    cases h
    exact Progress.settled_word? hword
  | case3 p word hword => cases h
  | case4 p word operand rest setting hsetting notices result hrest ih =>
    rw [hrest] at ih
    exact (p.settled_set operand setting).trans (ih h)
  | case5 p word operand rest hsetting p' hword ih => exact (Progress.settled_word? hword).trans (ih h)
  | case6 p word operand rest hsetting hword => cases h

/-- The options can be used: there is one source of JSON at most, and an input. -/
def Usable (o : Options) : Prop := ¬(!o.json.isEmpty ∧ !o.jsonFile.isEmpty) ∧ ¬o.input?.isNone

theorem read_eq_some_iff {words : List Bytes} {o : Options} :
    (read words).2 = some o ↔
      ∃ p, (readWords {} (words.map Bytes.untilNul)).2 = some p ∧ p.options = o ∧ o.Usable := by
  rw [read]
  rcases readWords {} (words.map Bytes.untilNul) with ⟨notices, _ | p⟩
  · simp
  · have hoptions : (∃ q, some p = some q ∧ q.options = o ∧ o.Usable) ↔ p.options = o ∧ p.options.Usable := by
      constructor
      · rintro ⟨q, hq, rfl, husable⟩
        cases hq
        exact ⟨rfl, husable⟩
      · rintro ⟨rfl, husable⟩
        exact ⟨p, rfl, rfl, husable⟩
    rw [hoptions, Usable]
    dsimp only
    split
    · rename_i hsources
      exact iff_of_false (by simp) fun h => absurd hsources h.2.1
    · split
      · rename_i hinput
        exact iff_of_false (by simp) fun h => absurd hinput h.2.2
      · rename_i hsources hinput
        rw [Option.some_inj]
        exact ⟨fun h => ⟨h, hsources, hinput⟩, And.left⟩

/-- These words are read up to their end, and what follows them is read as words of its own. -/
def ReadTo (words : List Bytes) (p : Progress) : Prop :=
  ∀ rest, (readWords {} (words.map Bytes.untilNul ++ rest)).2 = (readWords p rest).2

theorem readTo_word {word : Bytes}
    (hword : Setting.ofWord? (Bytes.untilNul word) = none ∧ Flag.ofWord? (Bytes.untilNul word) = none) :
    ReadTo [word] ⟨{ input? := some (Bytes.untilNul word) }, false⟩ := by
  have htake : Progress.word? {} (Bytes.untilNul word) =
      some ⟨{ input? := some (Bytes.untilNul word) }, false⟩ := by
    simp [Progress.word?, hword.2]
  intro rest
  exact congrArg Prod.snd (readWords_word hword.1 htake rest)

section

variable {before : List Bytes} (hbefore : ReadTo before p) {value : Bytes}
  (hnul : Bytes.untilNul value = value)
  (hvalue : Setting.ofWord? value = none ∧ Flag.ofWord? value = none)
include hbefore hnul hvalue

theorem readWords_append_variable (name : Bytes) (after : List Bytes) :
    (readWords {} ((before ++ Bytes.ofString "-v" :: name :: value :: after).map Bytes.untilNul)).2 =
      (readWords (p.give (Bytes.untilNul name) value) (after.map Bytes.untilNul)).2 := by
  have hoption : Bytes.untilNul (Bytes.ofString "-v") = Bytes.ofString "-v" := by decide
  rw [List.map_append, List.map_cons, List.map_cons, List.map_cons, hoption, hnul, hbefore,
    readWords_variable p _ hvalue]

/-- A variable with a value that is no option can be given behind a command line that can be read. -/
theorem read_append_variable (name : Bytes) {o : Options} (h : (read before).2 = some o) :
    (read (before ++ [Bytes.ofString "-v", name, value])).2 =
      some { o with definitions := o.definitions ++ [(Bytes.untilNul name, value)] } := by
  obtain ⟨q, hq, rfl, husable⟩ := read_eq_some_iff.mp h
  have hend := hbefore []
  rw [List.append_nil, hq] at hend
  obtain rfl : q = p := Option.some_inj.mp hend
  refine read_eq_some_iff.mpr ⟨q.give (Bytes.untilNul name) value, ?_, rfl, husable⟩
  exact readWords_append_variable hbefore hnul hvalue name []

/-- The variable is among the definitions, in the place where it was given. -/
theorem definitions_of_read {after : List Bytes} {name : Bytes} {o : Options}
    (h : (read (before ++ Bytes.ofString "-v" :: name :: value :: after)).2 = some o) :
    p.options.definitions ++ [(Bytes.untilNul name, value)] <+: o.definitions := by
  obtain ⟨q, hq, rfl, -⟩ := read_eq_some_iff.mp h
  rw [readWords_append_variable hbefore hnul hvalue] at hq
  exact (settled_readWords hq).trans q.settled_prefix

end

/-- Of definitions of the same name the last counts. -/
theorem getElem?_define (definitions : List (Bytes × Bytes)) (name : Bytes) :
    (define ∅ definitions)[name]? = (definitions.reverse.lookup name).map variableOf := by
  induction definitions using List.reverseRecOn with
  | nil => exact Std.ExtTreeMap.getElem?_empty
  | append_singleton definitions entry ih =>
    rw [define, List.foldl_append, List.foldl_cons, List.foldl_nil, ← define,
      Std.ExtTreeMap.getElem?_insert, ih, List.reverse_append, List.reverse_singleton,
      List.singleton_append, List.lookup_cons]
    by_cases h : entry.1 = name
    · subst h
      simp
    · rw [if_neg fun heq => h (Std.LawfulEqCmp.compare_eq_iff_eq.mp heq), beq_false_of_ne (Ne.symm h)]

/-- Where no document in JSON is given, the variables are those of the definitions. -/
theorem result_environment {o : Options} (hjson : o.json = []) (hfile : o.jsonFile = []) (w : World Unit)
    (json : JsonReader) : (o.environment w json).result = .ok (define ∅ o.definitions) := by
  have hdocument : o.jsonVariables json = pure ∅ := by simp [jsonVariables, hjson, hfile]
  simp only [environment, allVariables, hdocument, pure_bind]
  refine Action.result_bind_eq_ok.mpr ⟨(), Action.result_forM ?_ _ w, rfl⟩
  rintro ⟨name, v⟩ w
  rfl

/-- The variable that a word of the command line gives a name. -/
theorem variable_of_read {before after : List Bytes} {name value : Bytes} {o : Options}
    (hbefore : ReadTo before p) (hnul : Bytes.untilNul value = value)
    (hvalue : Setting.ofWord? value = none ∧ Flag.ofWord? value = none)
    (h : (read (before ++ Bytes.ofString "-v" :: name :: value :: after)).2 = some o)
    (hjson : o.json = []) (hfile : o.jsonFile = [])
    (hlast : Bytes.untilNul name ∉
      (o.definitions.drop (p.options.definitions.length + 1)).map Prod.fst) (w : World Unit)
    (json : JsonReader) :
    ∃ env, (o.environment w json).result = .ok env ∧
      env[Bytes.untilNul name]? = some (variableOf value) := by
  obtain ⟨later, hlater⟩ := definitions_of_read hbefore hnul hvalue h
  rw [← hlater, List.drop_left' (by simp)] at hlast
  refine ⟨_, result_environment hjson hfile w json, ?_⟩
  have hnone : later.reverse.lookup (Bytes.untilNul name) = none :=
    List.lookup_eq_none_iff.mpr fun entry hentry => bne_iff_ne.mpr fun heq =>
      hlast (heq ▸ List.mem_map_of_mem (List.mem_reverse.mp hentry))
  rw [getElem?_define, ← hlater, List.reverse_append, List.lookup_append, hnone, List.reverse_append,
    List.reverse_singleton, List.singleton_append, List.lookup_cons_self]
  rfl

end Options

/-! ## In a definition -/

open Spelling (Blanks Name)
open Piece (opener closer)

/-- What stands between the braces of a definition, with blanks wherever there may be any. -/
def definitionBody (before : Blanks) (name : Name) (beforeEquals behindEquals : Blanks) (content : Bytes)
    (behind : Blanks) : Bytes :=
  before.bytes ++ (name.bytes ++ (beforeEquals.bytes ++ equals ::
    (behindEquals.bytes ++ (content ++ behind.bytes))))

namespace Tag

theorem read_definitionBody (before : Blanks) (name : Name) (beforeEquals behindEquals : Blanks)
    (content : Bytes) (behind : Blanks) :
    read (definitionBody before name beforeEquals behindEquals content behind) =
      readDefinition name.bytes (behindEquals.bytes ++ (content ++ behind.bytes)) := by
  have hequals : Stops isBlank (equals :: (behindEquals.bytes ++ (content ++ behind.bytes))) :=
    .cons (by decide) _
  have hheader := Spelling.header_of_name before name (beforeEquals.stops_append isNameByte_of_isBlank
    (s := equals :: (behindEquals.bytes ++ (content ++ behind.bytes))) (.cons (by decide) _))
  rw [beforeEquals.trimStart_append, Spelling.trimStart_of_stops hequals] at hheader
  rw [definitionBody, read_of_header hheader, if_pos ⟨rfl, rfl⟩, List.tail_cons]

theorem trimStart_of_read? {s : Bytes} {x : Binary64} (h : read? s = some x) (rest : Bytes) :
    Bytes.trimStart (s ++ rest) = s ++ rest ∧ ¬startsName (s ++ rest) := by
  have hread := Grammar.readLiteral_number (Grammar.read?_eq_some_iff.mp ⟨x, h⟩) (.nil inNumber) h
  rw [List.append_nil] at hread
  obtain ⟨b, t, rfl, hb⟩ := Spelling.exists_cons_of_readLiteral hread
  exact ⟨Spelling.trimStart_append_of_startsLiteral ⟨b, t, rfl, hb⟩ rest,
    by simp [startsName, isNameStart_of_startsLiteral b hb]⟩

/-- A number in the range is what the definition binds its name to. -/
theorem readDefinition_of_isPlain {x : Binary64} (h : x.IsPlain) (name : Bytes) (w behind : Blanks) :
    readDefinition name (w.bytes ++ (x.write ++ behind.bytes)) =
      .ok (.definition { name, content := { kind := .number, value := .number x.unsigned } }) := by
  have hread := Binary64.read?_write_of_isPlain h
  have hliteral := Grammar.readLiteral_number (Grammar.read?_eq_some_iff.mp ⟨_, hread⟩)
    (behind.stops_bytes inNumber_of_isBlank) hread
  obtain ⟨htrim, hname⟩ := trimStart_of_read? hread behind.bytes
  rw [readDefinition, w.trimStart_append, htrim, readContent, if_neg hname, hliteral]
  exact if_pos behind.blank

/-- A name is read as the name of a function, and no list of arguments follows it. -/
theorem readContent_of_name (name : Bytes) (word : Name) (behind : Blanks) :
    readContent name (Bytes.trimStart (word.bytes ++ behind.bytes)) =
      .error ⟨.argumentsExpected, .name name⟩ := by
  have htrim : Bytes.trimStart behind.bytes = [] := behind.trimStart_bytes
  rw [Spelling.trimStart_of_stops (word.stops_append _), readContent,
    if_pos (word.startsName_append _), word.readName_append (behind.stops_bytes isNameByte_of_isBlank)]
  simp only [htrim]
  rfl

/-- What a text out of the range goes on with is refused. -/
theorem readDefinition_of_not_isPlain {x : Binary64} (h : ¬x.IsPlain) (name : Bytes) (w behind : Blanks) :
    ∃ fault, readDefinition name (w.bytes ++ (x.write ++ behind.bytes)) = .error fault := by
  have hexcess := Binary64.write_of_not_isPlain h
  generalize x.write = text at hexcess
  rw [readDefinition, w.trimStart_append]
  cases hexcess with
  | @power number power x exponent hnumber hpower =>
    have hstops : Stops inNumber (powerMark :: (power ++ behind.bytes)) := .cons (by decide) _
    have hliteral := Grammar.readLiteral_number (Grammar.read?_eq_some_iff.mp ⟨_, hnumber⟩) hstops hnumber
    obtain ⟨htrim, hname⟩ := trimStart_of_read? hnumber (powerMark :: (power ++ behind.bytes))
    rw [List.append_assoc, List.cons_append, htrim, readContent, if_neg hname, hliteral]
    exact ⟨_, rfl⟩
  | nan =>
    rw [readContent_of_name name ⟨Bytes.ofString "NaN", by decide, by decide⟩ behind]
    exact ⟨_, rfl⟩
  | infinity =>
    rw [readContent_of_name name ⟨Bytes.ofString "Infinity", by decide, by decide⟩ behind]
    exact ⟨_, rfl⟩
  | negativeInfinity =>
    have hliteral : readLiteral (Bytes.ofString "-Infinity" ++ behind.bytes) = .error
        (faultAt (.badNumber [minus]) (Bytes.ofString "Infinity" ++ behind.bytes)) :=
      readLiteral_of_badNumber (.inl rfl) rfl
    have htrim : Bytes.trimStart (Bytes.ofString "-Infinity" ++ behind.bytes) =
        Bytes.ofString "-Infinity" ++ behind.bytes :=
      Spelling.trimStart_append_of_startsLiteral ⟨minus, Bytes.ofString "Infinity", rfl, .inr (.inl rfl)⟩ _
    have hname : ¬startsName (Bytes.ofString "-Infinity" ++ behind.bytes) := Bool.false_ne_true
    rw [htrim, readContent, if_neg hname, hliteral]
    exact ⟨_, rfl⟩

end Tag

/-- The scanner that looks for the end of a tag gets over the text of a double. -/
theorem splitTag_definitionBody (x : Binary64) (before : Blanks) (name : Name)
    (beforeEquals behindEquals behind : Blanks) :
    Piece.splitTag .outside
        (definitionBody before name beforeEquals behindEquals x.write behind ++ closer) =
      some (definitionBody before name beforeEquals behindEquals x.write behind, []) := by
  have hpasses : Spelling.Passes (definitionBody before name beforeEquals behindEquals x.write behind) :=
    .append (.blanks before) (.append (.name name) (.append (.blanks beforeEquals) (.cons (by decide)
      (.append (.blanks behindEquals) (.append (.of_isPlain Binary64.isPlain_of_mem_write)
        (.blanks behind))))))
  have hsplit := hpasses closer [] [] rfl
  rwa [List.append_nil] at hsplit

/-! ## The two readers and the range -/

/-- The variable that `-v` makes of the text of a double: the double itself in the range, and the text out
of it. -/
theorem Options.variableOf_write (x : Binary64) :
    (x.IsPlain → variableOf x.write = { kind := .number, value := .number x.unsigned }) ∧
      (¬x.IsPlain → variableOf x.write = { kind := .text, value := .text x.write }) := by
  constructor
  · intro h
    rw [variableOf, Binary64.read?_write_of_isPlain h]
    rfl
  · intro h
    rw [variableOf, Binary64.read?_of_excess (Binary64.write_of_not_isPlain h)]
    rfl

/-- The text of a double is a number exactly if the double is zero or its value lies in the range. There, `-v`
and a definition give the double itself, without the sign of a zero; anywhere else, `-v` gives the text, and a
definition is refused as a template that cannot be read. A command line that can be read can be read with such
a `-v` behind it, and wherever it stands, it counts unless a later one gives the same name. -/
theorem Binary64.number_range (x : Binary64) :
    ((read? x.write).isSome ↔ x.InRange) ∧
    (∀ (before : List Bytes) (p : Options.Progress) (name : Bytes), Options.ReadTo before p →
      (∀ o, (Options.read before).2 = some o →
        (Options.read (before ++ [Bytes.ofString "-v", name, x.write])).2 =
          some { o with definitions := o.definitions ++ [(Bytes.untilNul name, x.write)] }) ∧
      ∀ (after : List Bytes) (o : Options) (w : World Unit) (json : JsonReader),
        (Options.read (before ++ Bytes.ofString "-v" :: name :: x.write :: after)).2 = some o →
        o.json = [] → o.jsonFile = [] →
        Bytes.untilNul name ∉ (o.definitions.drop (p.options.definitions.length + 1)).map Prod.fst →
        ∃ env, (o.environment w json).result = .ok env ∧
          (x.InRange → env[Bytes.untilNul name]? = some { kind := .number, value := .number x.unsigned }) ∧
          (¬x.InRange → env[Bytes.untilNul name]? = some { kind := .text, value := .text x.write })) ∧
    ∀ (before : Blanks) (name : Name) (beforeEquals behindEquals behind : Blanks) (source : Bytes),
      source = opener ++ definitionBody before name beforeEquals behindEquals x.write behind ++ closer →
      (x.InRange → ∃ d span, Template.parse source = .ok d ∧ d.sections =
        [.definition span
          { name := name.bytes, content := { kind := .number, value := .number x.unsigned } }]) ∧
      (¬x.InRange → ∃ failure, Template.parse source = .error failure ∧ failure.kind = .parseError) := by
  rw [← isPlain_iff_inRange]
  refine ⟨?_, ?_, ?_⟩
  · by_cases h : x.IsPlain
    · simp [h, read?_write_of_isPlain h]
    · simp [h, read?_of_excess (write_of_not_isPlain h)]
  · intro before p name hbefore
    have hnul := x.untilNul_write
    have hvalue := Options.ofWord?_write x
    refine ⟨fun o => Options.read_append_variable hbefore hnul hvalue name, ?_⟩
    intro after o w json hread hjson hfile hlast
    obtain ⟨env, hresult, hvariable⟩ :=
      Options.variable_of_read hbefore hnul hvalue hread hjson hfile hlast w json
    obtain ⟨hnumber, htext⟩ := Options.variableOf_write x
    exact ⟨env, hresult, fun h => hvariable.trans (congrArg some (hnumber h)),
      fun h => hvariable.trans (congrArg some (htext h))⟩
  · rintro before name beforeEquals behindEquals behind source rfl
    have hsplit := splitTag_definitionBody x before name beforeEquals behindEquals behind
    have htag := Tag.read_definitionBody before name beforeEquals behindEquals x.write behind
    constructor
    · intro h
      rw [Tag.readDefinition_of_isPlain h] at htag
      obtain ⟨d, span, hd, hsections⟩ := Grammar.sections_of_isAlone hsplit htag trivial
      exact ⟨d, span, hd, hsections⟩
    · intro h
      obtain ⟨fault, hfault⟩ := Tag.readDefinition_of_not_isPlain h name.bytes behindEquals behind
      have hsyntax : Grammar.OfSyntax fault := Grammar.ofSyntax_readDefinition _ _ fault hfault
      have hne : opener ++ definitionBody before name beforeEquals behindEquals x.write behind ++ closer ≠
          [] := by simp [opener]
      rw [hfault] at htag
      exact ⟨_, Template.parse_of_read_eq_error hne (Grammar.read_braces_of_error hsplit htag), hsyntax⟩

/-- The double nearest to a millionth is read back from the command line, and the next one below it is
refused in a definition. -/
theorem Binary64.number_range_of_millionth :
    (∃ o env,
      (Options.read [[], Bytes.ofString "-v", Bytes.ofString "n", Bytes.ofString "0.000001"]).2 = some o ∧
      (o.environment { disk := ⟨∅, []⟩, host := () }).result = .ok env ∧
      env[Bytes.ofString "n"]? = some { kind := .number, value := .number ⟨0x3eb0c6f7a0b5ed8d⟩ }) ∧
    ∃ failure, Template.parse (Bytes.ofString "\x7b\x7bn = 9.999999999999997e-7\x7d\x7d") =
      .error failure ∧ failure.kind = .parseError := by
  constructor
  · have hwrite : write ⟨0x3eb0c6f7a0b5ed8d⟩ = Bytes.ofString "0.000001" := by decide +kernel
    have hplain : IsPlain ⟨0x3eb0c6f7a0b5ed8d⟩ := by decide +kernel
    have hrange := (isPlain_iff_inRange _).mp hplain
    obtain ⟨hreads, hvariable⟩ := (number_range ⟨0x3eb0c6f7a0b5ed8d⟩).2.1 [[]] ⟨{ input? := some [] }, false⟩
      (Bytes.ofString "n") (Options.readTo_word ⟨rfl, rfl⟩)
    rw [hwrite] at hreads hvariable
    have hread := hreads { input? := some [] } rfl
    obtain ⟨env, hresult, hnumber, -⟩ := hvariable [] _ { disk := ⟨∅, []⟩, host := () } _ hread rfl rfl
      List.not_mem_nil
    exact ⟨_, env, hread, hresult, hnumber hrange⟩
  · have hwrite : write ⟨0x3eb0c6f7a0b5ed8c⟩ = Bytes.ofString "9.999999999999997e-7" := by decide +kernel
    have hrange := (number_range ⟨0x3eb0c6f7a0b5ed8c⟩).2.2 ⟨[], rfl⟩
      ⟨Bytes.ofString "n", by decide, by decide⟩ ⟨[space], rfl⟩ ⟨[space], rfl⟩ ⟨[], rfl⟩
    rw [hwrite] at hrange
    have hout : ¬IsPlain ⟨0x3eb0c6f7a0b5ed8c⟩ := by decide +kernel
    exact (hrange _ (by decide)).2 (mt (isPlain_iff_inRange _).mpr hout)

end Stencil
