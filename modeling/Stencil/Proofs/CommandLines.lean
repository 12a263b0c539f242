import Mathlib.Data.List.Induction
import Stencil.Proofs.Listing
import Stencil.Proofs.NumberReading

/-!
# Command lines, group by group

A command line is a row of groups: an option with its operand, a variable with its name and its value, a flag,
or the input. Reading one group takes exactly the words of the group, whatever they are and whatever follows
(`CommandLine.readWords_group`), so that a row of groups is read one by one in the order in which they stand
(`CommandLine.readWords_groups`), as long as there is one input at most. What the groups come to in that order
(`CommandLine.take`) is what can be said of the row without an order of reading: the last operand of each
option, the flags that are there, and all the variables (`CommandLine.foldl_take`). The main statement is
`CommandLine.reads_back`.
-/

namespace Stencil

open Ascii Options

namespace CommandLine

/-! ## Words -/

/-- A word of a command line has no NUL. -/
structure Word where
  bytes : Bytes
  noNul : 0 ∉ bytes

/-- A word that is no option. -/
structure PlainWord extends Word where
  plain : bytes ∉ optionWords

/-- Decimal digits with a sign or without, and the integer that they stand for. -/
inductive IsInteger : Bytes → Int → Prop
  | unsigned {digits : Bytes} (hne : digits ≠ []) (h : ∀ b ∈ digits, isDigit b) :
      IsInteger digits (Numeral.natOfDigits digits)
  | positive {digits : Bytes} (hne : digits ≠ []) (h : ∀ b ∈ digits, isDigit b) :
      IsInteger (plus :: digits) (Numeral.natOfDigits digits)
  | negative {digits : Bytes} (hne : digits ≠ []) (h : ∀ b ∈ digits, isDigit b) :
      IsInteger (minus :: digits) (-Numeral.natOfDigits digits)

/-- A word that is an integer of 32 bits. -/
structure DepthWord where
  bytes : Bytes
  value : Int
  spelled : IsInteger bytes value
  inRange : -2 ^ 31 ≤ value ∧ value < 2 ^ 31

theorem IsInteger.noNul {s : Bytes} {value : Int} (h : IsInteger s value) : 0 ∉ s := by
  have hdigits {digits : Bytes} (h : ∀ b ∈ digits, isDigit b) : 0 ∉ digits := fun hzero =>
    absurd (h 0 hzero) (by decide)
  cases h with
  | unsigned hne h => exact hdigits h
  | positive hne h => exact List.not_mem_cons_of_ne_of_not_mem (by decide) (hdigits h)
  | negative hne h => exact List.not_mem_cons_of_ne_of_not_mem (by decide) (hdigits h)

/-- An integer of 32 bits is read as itself. -/
theorem readDepth_of_isInteger {s : Bytes} {value : Int} (h : IsInteger s value)
    (hrange : -2 ^ 31 ≤ value ∧ value < 2 ^ 31) : readDepth s = value := by
  have hcut : (max Int64.minValue.toInt (min value Int64.maxValue.toInt)).bmod UInt32.size = value := by
    have hmin : Int64.minValue.toInt = -2 ^ 63 := by decide
    have hmax : Int64.maxValue.toInt = 2 ^ 63 - 1 := by decide
    rw [hmin, hmax, min_eq_left (by omega), max_eq_right (by omega)]
    exact Int.bmod_eq_of_le (by rw [UInt32.size]; omega) (by rw [UInt32.size]; omega)
  have hall {digits : Bytes} (h : ∀ b ∈ digits, isDigit b) : digits.takeWhile isDigit = digits :=
    List.takeWhile_eq_self_iff.mpr h
  cases h with
  | @unsigned digits hne h =>
    obtain ⟨b, rest, rfl⟩ := List.exists_cons_of_ne_nil hne
    have hb : isDigit b := h b (List.mem_cons_self ..)
    have hblank : isBlank b = false := isBlank_of_isNameByte b (by simp [isNameByte, hb])
    have hminus : b ≠ minus := by rintro rfl; exact absurd hb (by decide)
    have hplus : b ≠ plus := by rintro rfl; exact absurd hb (by decide)
    simpa [readDepth, Bytes.trimStart, hblank, hminus, hplus, hall h] using hcut
  | positive hne h =>
    have hblank : isBlank plus = false := by decide
    have hminus : plus ≠ minus := by decide
    simpa [readDepth, Bytes.trimStart, hblank, hminus, hall h] using hcut
  | negative hne h =>
    have hblank : isBlank minus = false := by decide
    simpa [readDepth, Bytes.trimStart, hblank, hall h] using hcut

/-! ## Groups -/

/-- The options whose operand is taken as it is. -/
inductive TextSetting where
  | output
  | base
  | json
  | jsonFile
  deriving DecidableEq

def TextSetting.word : TextSetting → Bytes
  | output => Bytes.ofString "-o"
  | base => Bytes.ofString "-b"
  | json => Bytes.ofString "-js"
  | jsonFile => Bytes.ofString "-jf"

def TextSetting.setting : TextSetting → Setting
  | output => .output
  | base => .base
  | json => .json
  | jsonFile => .jsonFile

/-- The word for an option without an operand. -/
def flagWord : Flag → Bytes
  | .string => Bytes.ofString "-s"
  | .debug => Bytes.ofString "-d"
  | .sections => Bytes.ofString "-p"

/-- Words of a command line that belong together. Operands and names may be words that are options. -/
inductive Group where
  | text (setting : TextSetting) (operand : Word)
  | depth (d : DepthWord)
  | definition (name : Word) (value : PlainWord)
  | flag (f : Flag)
  | input (word : PlainWord)

namespace Group

def words : Group → List Bytes
  | text setting operand => [setting.word, operand.bytes]
  | depth d => [Bytes.ofString "-m", d.bytes]
  | definition name value => [Bytes.ofString "-v", name.bytes, value.bytes]
  | flag f => [flagWord f]
  | input word => [word.bytes]

/-- A depth below zero is odd. -/
def notices : Group → List Notice
  | depth d => if d.value < 0 then [.negativeDepth d.bytes] else []
  | _ => []

@[simp] def operand? (setting : TextSetting) : Group → Option Bytes
  | text given operand => if given = setting then some operand.bytes else none
  | _ => none

@[simp] def depth? : Group → Option Int
  | depth d => some d.value
  | _ => none

@[simp] def definition? : Group → Option (Bytes × Bytes)
  | definition name value => some (name.bytes, value.bytes)
  | _ => none

@[simp] def valueOf? (name : Bytes) : Group → Option Bytes
  | definition given value => if given.bytes = name then some value.bytes else none
  | _ => none

@[simp] def input? : Group → Option Bytes
  | input word => some word.bytes
  | _ => none

@[simp] def isFlag (f : Flag) : Group → Bool
  | flag given => given = f
  | _ => false

end Group

/-- What is given last, if it is given at all. -/
def lastOf {α : Type} (given? : Group → Option α) (groups : List Group) : Option α :=
  (groups.filterMap given?).getLast?

/-- What a row of groups asks for. -/
def options (groups : List Group) : Options where
  input? := lastOf Group.input? groups
  outputFile := (lastOf (Group.operand? .output) groups).getD []
  baseDirectory := (lastOf (Group.operand? .base) groups).getD []
  json := (lastOf (Group.operand? .json) groups).getD []
  jsonFile := (lastOf (Group.operand? .jsonFile) groups).getD []
  definitions := groups.filterMap Group.definition?
  isString := groups.any (Group.isFlag .string)
  debug := groups.any (Group.isFlag .debug)
  printSections := groups.any (Group.isFlag .sections)
  maxDepth := (lastOf Group.depth? groups).getD 5

/-! ## Reading group by group -/

/-- The options with what a group says. -/
def take (o : Options) : Group → Options
  | .text setting operand => (Progress.set ⟨o, false⟩ operand.bytes setting.setting).options
  | .depth d => { o with maxDepth := d.value }
  | .definition name value => { o with definitions := o.definitions ++ [(name.bytes, value.bytes)] }
  | .flag f => (Progress.flag ⟨o, false⟩ f).options
  | .input word => { o with input? := some word.bytes }

/-- A group is read as what it says, if it is not a second input. -/
theorem readWords_group (o : Options) (g : Group) (hinput : g.input?.isSome → o.input? = none)
    (rest : List Bytes) :
    readWords ⟨o, false⟩ (g.words ++ rest) =
      (g.notices ++ (readWords ⟨take o g, false⟩ rest).1, (readWords ⟨take o g, false⟩ rest).2) := by
  cases g with
  | text setting operand =>
    have hword : Setting.ofWord? setting.word = some setting.setting := by cases setting <;> decide
    have hnotices : noticesOf operand.bytes setting.setting = [] := by cases setting <;> rfl
    have hset : Progress.set ⟨o, false⟩ operand.bytes setting.setting =
        ⟨take o (.text setting operand), false⟩ := by cases setting <;> rfl
    have hread := readWords_setting ⟨o, false⟩ hword operand.bytes rest
    rwa [hnotices, hset] at hread
  | depth d =>
    have hword : Setting.ofWord? (Bytes.ofString "-m") = some .depth := by decide
    have hread := readWords_setting ⟨o, false⟩ hword d.bytes rest
    rwa [noticesOf, Progress.set, readDepth_of_isInteger d.spelled d.inRange] at hread
  | definition name value =>
    exact readWords_variable ⟨o, false⟩ name.bytes (ofWord?_of_notMem value.plain) rest
  | flag f =>
    have hsetting : Setting.ofWord? (flagWord f) = none := by cases f <;> decide
    have hflag : Flag.ofWord? (flagWord f) = some f := by cases f <;> decide
    have hword : Progress.word? ⟨o, false⟩ (flagWord f) = some ⟨take o (.flag f), false⟩ := by
      rw [Progress.word?, hflag]
      cases f <;> rfl
    exact readWords_word hsetting hword rest
  | input word =>
    obtain ⟨hsetting, hflag⟩ := ofWord?_of_notMem word.plain
    have hword : Progress.word? ⟨o, false⟩ word.bytes = some ⟨take o (.input word), false⟩ := by
      simp [Progress.word?, hflag, hinput rfl, take]
    exact readWords_word hsetting hword rest

theorem input?_take (o : Options) (g : Group) : (take o g).input? = g.input?.or o.input? := by
  cases g with
  | text setting operand => cases setting <;> rfl
  | flag f => cases f <;> rfl
  | _ => rfl

/-- Groups are read one by one, as long as there is no second input. -/
theorem readWords_groups (o : Options) (groups : List Group)
    (hinput : (o.input?.toList ++ groups.filterMap Group.input?).length ≤ 1) :
    readWords ⟨o, false⟩ (groups.flatMap Group.words) =
      (groups.flatMap Group.notices, some ⟨groups.foldl take o, false⟩) := by
  induction groups generalizing o with
  | nil => rfl
  | cons g groups ih =>
    have hfirst : g.input?.isSome → o.input? = none := by
      intro hsome
      obtain ⟨word, hword⟩ := Option.isSome_iff_exists.mp hsome
      rw [List.filterMap_cons_some hword, List.length_append, List.length_cons] at hinput
      cases h : o.input? with
      | none => rfl
      | some first =>
        rw [h, Option.toList_some, List.length_singleton] at hinput
        omega
    have hrest : ((take o g).input?.toList ++ groups.filterMap Group.input?).length ≤ 1 := by
      rw [input?_take]
      cases hg : g.input? with
      | none => rwa [List.filterMap_cons_none hg] at hinput
      | some word => rwa [List.filterMap_cons_some hg, hfirst (by rw [hg]; rfl)] at hinput
    rw [List.flatMap_cons, readWords_group o g hfirst, ih (take o g) hrest, List.flatMap_cons,
      List.foldl_cons]

/-! ## What the groups come to -/

theorem lastOf_concat {α : Type} (given? : Group → Option α) (groups : List Group) (g : Group) :
    lastOf given? (groups ++ [g]) = (given? g).or (lastOf given? groups) := by
  unfold lastOf
  cases h : given? g with
  | none => simp [h]
  | some a => simp [h]

theorem options_concat (groups : List Group) (g : Group) :
    options (groups ++ [g]) = take (options groups) g := by
  simp only [options, lastOf_concat, List.filterMap_append, List.any_append]
  cases g with
  | text setting operand => cases setting <;> simp [take, Progress.set, TextSetting.setting]
  | depth d => simp [take]
  | definition name value => simp [take]
  | flag f => cases f <;> simp [take, Progress.flag]
  | input word => simp [take]

theorem foldl_take (groups : List Group) : groups.foldl take {} = options groups := by
  induction groups using List.reverseRecOn with
  | nil => rfl
  | append_singleton groups g ih =>
    rw [List.foldl_append, List.foldl_cons, List.foldl_nil, ih, options_concat]

/-! ## Whole command lines -/

/-- No word of a group has a NUL at which it would end. -/
theorem untilNul_words (groups : List Group) :
    (groups.flatMap Group.words).map Bytes.untilNul = groups.flatMap Group.words := by
  have hletter : ∀ word ∈ optionWords, Bytes.untilNul word = word := by decide
  have hword (word : Word) : Bytes.untilNul word.bytes = word.bytes := Bytes.untilNul_of_notMem word.noNul
  refine (List.map_congr_left fun word hmem => ?_).trans (List.map_id _)
  obtain ⟨g, -, hg⟩ := List.mem_flatMap.mp hmem
  cases g with
  | text setting operand =>
    rcases List.mem_pair.mp hg with rfl | rfl
    · exact hletter _ (by cases setting <;> decide)
    · exact hword operand
  | depth d =>
    rcases List.mem_pair.mp hg with rfl | rfl
    · exact hletter _ (by decide)
    · exact Bytes.untilNul_of_notMem d.spelled.noNul
  | definition name value =>
    rcases List.mem_cons.mp hg with rfl | hg
    · exact hletter _ (by decide)
    · rcases List.mem_pair.mp hg with rfl | rfl
      · exact hword name
      · exact hword value.toWord
  | flag f =>
    obtain rfl := List.mem_singleton.mp hg
    exact hletter _ (by cases f <;> decide)
  | input word =>
    obtain rfl := List.mem_singleton.mp hg
    exact hword word.toWord

theorem lookup_definitions (groups : List Group) (name : Bytes) :
    (options groups).definitions.reverse.lookup name = lastOf (Group.valueOf? name) groups := by
  induction groups using List.reverseRecOn with
  | nil => rfl
  | append_singleton groups g ih =>
    rw [lastOf_concat, ← ih, options_concat]
    cases g with
    | definition given value =>
      by_cases h : given.bytes = name
      · simp [take, h]
      · simp [take, h, List.lookup_cons, beq_false_of_ne (Ne.symm h)]
    | text setting operand => cases setting <;> rfl
    | flag f => cases f <;> rfl
    | _ => rfl

/-- A command line of groups in any order, one of which is the input, is read as what the groups ask for: of
each option the last operand, the flags that are there, and the variables in order. Operands and names may be
words that are options. Without JSON the variables are then those that are named, each of them with the value
that it is given last, which is a number if it is spelled as one. -/
theorem reads_back (groups : List Group) (input : Bytes) (hinput : groups.filterMap Group.input? = [input])
    (hsource : (options groups).json = [] ∨ (options groups).jsonFile = []) :
    read (groups.flatMap Group.words) = (groups.flatMap Group.notices, some (options groups)) ∧
    (options groups).input? = some input ∧
    ((options groups).json = [] → (options groups).jsonFile = [] → ∀ (w : World Unit) (json : JsonReader),
      ∃ env, ((options groups).environment w json).result = .ok env ∧
        (∀ name, name ∈ env ↔ ∃ value, (name, value) ∈ (options groups).definitions) ∧
        ∀ name value, lastOf (Group.valueOf? name) groups = some value →
          (Grammar.IsNumber value →
            ∃ x, Numeral.read? value = some x ∧
              env[name]? = some { kind := .number, value := .number x }) ∧
          (¬Grammar.IsNumber value → env[name]? = some { kind := .text, value := .text value })) := by
  have hgiven : (options groups).input? = some input := by
    show (groups.filterMap Group.input?).getLast? = _
    rw [hinput, List.getLast?_singleton]
  refine ⟨?_, hgiven, fun hjson hfile w json => ⟨_, result_environment hjson hfile w json, ?_, ?_⟩⟩
  · have hwords := readWords_groups {} groups (by rw [hinput]; simp)
    rw [foldl_take] at hwords
    have hsources : ¬(!(options groups).json.isEmpty ∧ !(options groups).jsonFile.isEmpty) := by
      rintro ⟨hjson, hfile⟩
      rcases hsource with h | h
      · simp [h] at hjson
      · simp [h] at hfile
    have hhas : ¬(options groups).input?.isNone := by simp [hgiven]
    rw [Options.read, untilNul_words, hwords]
    exact (if_neg hsources).trans (if_neg hhas)
  · intro name
    rw [Std.ExtTreeMap.mem_iff_isSome_getElem?, getElem?_define, Option.isSome_map, List.lookup_isSome_iff]
    simp
  · intro name value hlast
    have hvalue : (define ∅ (options groups).definitions)[name]? = some (variableOf value) := by
      rw [getElem?_define, lookup_definitions, hlast, Option.map_some]
    rw [hvalue, variableOf]
    constructor
    · intro hnumber
      obtain ⟨x, hx⟩ := Grammar.read?_eq_some_iff.mpr hnumber
      exact ⟨x, hx, by rw [hx]; rfl⟩
    · intro hnumber
      cases hx : Numeral.read? value with
      | none => rfl
      | some x => exact absurd (Grammar.read?_eq_some_iff.mp ⟨x, hx⟩) hnumber

/-- Operands, a name and an input that look like options, a name that is given twice, and a depth below
zero. -/
theorem reads_back_of_lookalikes :
    ∃ (o : Options) (env : Environment),
      read (["-o", "-b", "-v", "-s", "12", "-d", "-x", "-v", "-s", "-5.", "-js", "", "-m", "-7", "-b", "-o",
          "-v", "", "-", "-o", "out"].map Bytes.ofString) =
        ([.negativeDepth (Bytes.ofString "-7")], some o) ∧
      o.input? = some (Bytes.ofString "-x") ∧ o.outputFile = Bytes.ofString "out" ∧ o.maxDepth = -7 ∧
      (o.environment { disk := ⟨∅, []⟩, host := () }).result = .ok env ∧
      env[Bytes.ofString "-s"]? = some { kind := .number, value := .number ⟨0xc014000000000000⟩ } ∧
      env[([] : Bytes)]? = some { kind := .text, value := .text (Bytes.ofString "-") } := by
  let groups : List Group :=
    [.text .output ⟨Bytes.ofString "-b", by decide⟩,
      .definition ⟨Bytes.ofString "-s", by decide⟩ ⟨⟨Bytes.ofString "12", by decide⟩, by decide⟩,
      .flag .debug, .input ⟨⟨Bytes.ofString "-x", by decide⟩, by decide⟩,
      .definition ⟨Bytes.ofString "-s", by decide⟩ ⟨⟨Bytes.ofString "-5.", by decide⟩, by decide⟩,
      .text .json ⟨[], by decide⟩,
      .depth ⟨minus :: Bytes.ofString "7", -7, .negative (by decide) (List.all_eq_true.mp rfl), by decide⟩,
      .text .base ⟨Bytes.ofString "-o", by decide⟩,
      .definition ⟨[], by decide⟩ ⟨⟨Bytes.ofString "-", by decide⟩, by decide⟩,
      .text .output ⟨Bytes.ofString "out", by decide⟩]
  have hread : Numeral.read? (Bytes.ofString "-5.") = some ⟨0xc014000000000000⟩ := by decide +kernel
  have hnone : Numeral.read? (Bytes.ofString "-") = none := by decide
  have hdash : ¬Grammar.IsNumber (Bytes.ofString "-") := fun h => by
    obtain ⟨x, hx⟩ := Grammar.read?_eq_some_iff.mpr h
    exact Option.some_ne_none x (hx.symm.trans hnone)
  obtain ⟨hwords, hinput, hvariables⟩ := reads_back groups (Bytes.ofString "-x") rfl (.inl rfl)
  obtain ⟨env, hresult, -, hvalues⟩ := hvariables rfl rfl { disk := ⟨∅, []⟩, host := () } fun _ => .invalid
  obtain ⟨x, hx, hnumber⟩ :=
    (hvalues (Bytes.ofString "-s") (Bytes.ofString "-5.") rfl).1 (Grammar.read?_eq_some_iff.mp ⟨_, hread⟩)
  obtain rfl := Option.some_inj.mp (hx.symm.trans hread)
  have htext := (hvalues [] (Bytes.ofString "-") rfl).2 hdash
  exact ⟨options groups, env, hwords, hinput, rfl, rfl, hresult, hnumber, htext⟩

end CommandLine

end Stencil
