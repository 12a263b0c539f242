import Mathlib.Data.List.DropRight
import Mathlib.Data.List.SplitBy
import Stencil.Normalizer
import Stencil.Proofs.Occurrences

/-!
# Normalized text

The normalizer takes a text in portions and holds blank bytes back until it knows what follows them.
`Bytes.normalForm` says what is to come out by looking at the whole text: the text without the blanks
at its ends, and with each of its longest runs of newlines cut to two (`Bytes.newlineRuns`). Counting
newlines as they pass comes to the same (`squeezeNewlines_zero`), a text can be cut into portions
anywhere (`write_append`), and to end a text is to take back its blanks at the end (`finish_write`): so
whatever was written and ended in whatever order, the state is one that a single portion leads to
(`exists_run_eq_write`). The main statement is `content_any_portions`.
-/

namespace Stencil

open Ascii

/-! ## The normal form of a text -/

namespace Bytes

/-- A byte string without its trailing blank bytes. -/
def trimEnd (s : Bytes) : Bytes := s.rdropWhile Ascii.isBlank

/-- A byte string without the blank bytes at its ends. -/
def trim (s : Bytes) : Bytes := trimEnd (trimStart s)

/-- The longest runs of newlines in a byte string, and between them every other byte on its own. -/
def newlineRuns (s : Bytes) : List Bytes := s.splitBy fun a b => a == newline && b == newline

/-- A run of three or more newlines cut to two. Other bytes make no runs of more than one. -/
def cutRun (run : Bytes) : Bytes := if 3 ≤ run.length then [newline, newline] else run

/-- A byte string with every longest run of three or more newlines cut to two. -/
def cutNewlines (s : Bytes) : Bytes := s.newlineRuns.flatMap cutRun

/-- A text without the blanks at its ends and with no more than two newlines in a row. -/
def normalForm (s : Bytes) : Bytes := cutNewlines (trim s)

/-- A text that does not begin or end with a blank and has no three newlines in a row. -/
structure Tidy (s : Bytes) : Prop where
  head : ∀ b ∈ s.head?, Ascii.isBlank b = false
  last : ∀ b ∈ s.getLast?, Ascii.isBlank b = false
  newlines : ¬List.replicate 3 newline <:+: s

/-! ## Runs of newlines -/

theorem ne_newline_of_not_isBlank {b : UInt8} (h : Ascii.isBlank b = false) : b ≠ newline := by
  rintro rfl
  exact absurd h (by decide)

theorem cutNewlines_append_cons (u : Bytes) {b : UInt8} (hb : b ≠ newline) (v : Bytes) :
    cutNewlines (u ++ b :: v) = cutNewlines u ++ b :: cutNewlines v := by
  have hfront : newlineRuns (u ++ b :: v) = newlineRuns u ++ newlineRuns (b :: v) :=
    List.splitBy_append_cons v (by simp [hb])
  have hback : newlineRuns ([b] ++ v) = newlineRuns [b] ++ newlineRuns v :=
    List.splitBy_append (by simp [hb])
  have hone : cutNewlines [b] = [b] := rfl
  rw [cutNewlines, hfront, List.flatMap_append, ← List.singleton_append, hback, List.flatMap_append]
  exact congrArg (cutNewlines u ++ ·) (congrArg (· ++ cutNewlines v) hone)

theorem cutNewlines_replicate (n : Nat) :
    cutNewlines (List.replicate n newline) = List.replicate (min n 2) newline := by
  cases n with
  | zero => rfl
  | succ n =>
    have hrun : newlineRuns (List.replicate (n + 1) newline) = [List.replicate (n + 1) newline] :=
      List.splitBy_of_isChain (by simp) (List.isChain_replicate_of_rel _ (by decide))
    rw [cutNewlines, hrun, List.flatMap_singleton, cutRun, List.length_replicate]
    split
    · rw [Nat.min_eq_right (by omega)]
      rfl
    · rw [Nat.min_eq_left (by omega)]

theorem replicate_append_newline (n : Nat) (s : Bytes) :
    List.replicate n newline ++ newline :: s = List.replicate (n + 1) newline ++ s := by
  rw [List.replicate_succ', List.append_assoc, List.singleton_append]

/-- Counting the newlines that stand directly in front is looking at a run as a whole. -/
theorem cutNewlines_replicate_append (seen : Nat) (s : Bytes) :
    cutNewlines (List.replicate seen newline ++ s) =
      List.replicate (min seen 2) newline ++ squeezeNewlines seen s := by
  induction s generalizing seen with
  | nil => simp [squeezeNewlines, cutNewlines_replicate]
  | cons b rest ih =>
    by_cases hb : b = newline
    · rw [hb, replicate_append_newline, ih (seen + 1), squeezeNewlines, if_pos rfl]
      split
      · rw [Nat.min_eq_left (by omega), Nat.min_eq_left (by omega), replicate_append_newline]
      · rw [Nat.min_eq_right (by omega), Nat.min_eq_right (by omega)]
    · have hzero := ih 0
      simp only [List.replicate_zero, Nat.zero_min, List.nil_append] at hzero
      rw [cutNewlines_append_cons _ hb, cutNewlines_replicate, squeezeNewlines, if_neg hb, hzero]

theorem squeezeNewlines_zero (s : Bytes) : squeezeNewlines 0 s = cutNewlines s := by
  simpa using (cutNewlines_replicate_append 0 s).symm

theorem not_infix_cutNewlines (s : Bytes) : ¬List.replicate 3 newline <:+: cutNewlines s := by
  -- The newlines in front are counted, because the next byte may go on with their run.
  suffices h : ∀ seen, ¬List.replicate 3 newline <:+: cutNewlines (List.replicate seen newline ++ s) from
    h 0
  have hshort (n : Nat) : ¬List.replicate 3 newline <:+: List.replicate (min n 2) newline := by
    intro h
    have hlength := h.length_le
    rw [List.length_replicate, List.length_replicate] at hlength
    omega
  induction s with
  | nil =>
    intro seen
    rw [List.append_nil, cutNewlines_replicate]
    exact hshort seen
  | cons b rest ih =>
    intro seen
    by_cases hb : b = newline
    · rw [hb, replicate_append_newline]
      exact ih (seen + 1)
    · rw [cutNewlines_append_cons _ hb, cutNewlines_replicate]
      intro h
      rcases infix_append_cons (by simp [hb]) h with h | h
      · exact hshort seen h
      · exact ih 0 h

theorem head?_cutNewlines (s : Bytes) : (cutNewlines s).head? = s.head? := by
  rw [← squeezeNewlines_zero]
  cases s with
  | nil => rfl
  | cons b rest => by_cases hb : b = newline <;> simp [squeezeNewlines, hb]

/-! ## Blanks at the ends -/

theorem trimEnd_append_cons (u : Bytes) {b : UInt8} (hb : Ascii.isBlank b = false) (v : Bytes) :
    trimEnd (u ++ b :: v) = u ++ b :: trimEnd v := by
  induction v using List.reverseRecOn with
  | nil => exact List.rdropWhile_concat_neg _ _ _ (by simp [hb])
  | append_singleton v c ih =>
    rw [← List.cons_append, ← List.append_assoc]
    by_cases hc : Ascii.isBlank c
    · rw [trimEnd, List.rdropWhile_concat_pos _ _ _ hc, ← trimEnd, ih, trimEnd, trimEnd,
        List.rdropWhile_concat_pos _ _ _ hc]
    · rw [trimEnd, List.rdropWhile_concat_neg _ _ _ hc, trimEnd, List.rdropWhile_concat_neg _ _ _ hc,
        List.append_assoc, List.cons_append]

theorem trimEnd_of_isBlank {s : Bytes} (h : ∀ b ∈ s, Ascii.isBlank b) : trimEnd s = [] :=
  List.rdropWhile_eq_nil_iff.mpr h

/-- A byte string is its blanks at the end behind one that does not end with a blank. -/
theorem exists_trimEnd_append (s : Bytes) :
    ∃ blanks, s = trimEnd s ++ blanks ∧ ∀ b ∈ blanks, Ascii.isBlank b :=
  ⟨_, (List.rdropWhile_append_rtakeWhile ..).symm, fun _ => List.mem_rtakeWhile_imp⟩

/-- What is left without the blanks at the end is nothing, or ends with a byte that is not blank. -/
theorem trimEnd_eq_nil_or (s : Bytes) :
    trimEnd s = [] ∨ ∃ u b, trimEnd s = u ++ [b] ∧ Ascii.isBlank b = false := by
  induction s using List.reverseRecOn with
  | nil => exact .inl rfl
  | append_singleton s b ih =>
    by_cases hb : Ascii.isBlank b
    · rwa [trimEnd, List.rdropWhile_concat_pos _ _ _ hb]
    · rw [trimEnd, List.rdropWhile_concat_neg _ _ _ hb]
      exact .inr ⟨s, b, rfl, by simpa using hb⟩

theorem head?_trim (s : Bytes) : ∀ b ∈ (trim s).head?, Ascii.isBlank b = false := by
  intro b hb
  obtain ⟨blanks, htrim⟩ : trim s <+: trimStart s := List.rdropWhile_prefix _ _
  have hstart : (trimStart s).head? = some b := by
    rw [← htrim, List.head?_append, Option.mem_def.mp hb, Option.some_or]
  have hnot := List.head?_dropWhile_not Ascii.isBlank s
  rwa [← trimStart, hstart] at hnot

/-- A text in its normal form is tidy. -/
theorem tidy_normalForm (s : Bytes) : Tidy (normalForm s) where
  head := by
    intro b hb
    rw [normalForm, head?_cutNewlines] at hb
    exact head?_trim s b hb
  last := by
    intro b hb
    rcases trimEnd_eq_nil_or (trimStart s) with hnil | ⟨u, c, hu, hc⟩
    · rw [normalForm, trim, hnil] at hb
      cases hb
    · have hnil : cutNewlines [] = [] := rfl
      rw [normalForm, trim, hu, cutNewlines_append_cons u (ne_newline_of_not_isBlank hc), hnil,
        List.getLast?_concat, Option.mem_some] at hb
      exact hb ▸ hc
  newlines := not_infix_cutNewlines _

end Bytes

namespace Normalizer

/-! ## What comes out -/

theorem feed_of_not_isBlank {b : UInt8} (hb : Ascii.isBlank b = false) (started : Bool) (held s : Bytes) :
    feed started held (b :: s) =
      (Bytes.cutNewlines held.reverse ++ b :: (feed true [] s).1, (feed true [] s).2) := by
  rw [feed, if_neg (by simp [hb]), Bytes.squeezeNewlines_zero]

theorem feed_append (started : Bool) (held s t : Bytes) :
    feed started held (s ++ t) =
      let first := feed started held s
      let second := feed first.2.1 first.2.2 t
      (first.1 ++ second.1, second.2) := by
  induction s generalizing started held with
  | nil => rfl
  | cons b s ih =>
    rw [List.cons_append, feed, feed]
    split <;> simp [ih]

theorem feed_of_isBlank {s : Bytes} (h : ∀ b ∈ s, Ascii.isBlank b) (started : Bool) (held : Bytes) :
    feed started held s = ([], started, if started then s.reverse ++ held else held) := by
  induction s generalizing held with
  | nil => simp [feed]
  | cons b s ih =>
    rw [List.forall_mem_cons] at h
    rw [feed, if_pos h.1, ih h.2]
    cases started <;> simp

/-- From behind a byte that is not blank nothing is held back. -/
theorem feed_concat (started : Bool) (held s : Bytes) {b : UInt8} (hb : Ascii.isBlank b = false) :
    (feed started held (s ++ [b])).2 = (true, []) := by
  rw [feed_append]
  simp [feed, hb]

/-- What comes out behind blanks that are held back. -/
theorem feed_true {held : Bytes} (hheld : ∀ b ∈ held, Ascii.isBlank b) (s : Bytes) :
    (feed true held s).1 = Bytes.cutNewlines (Bytes.trimEnd (held.reverse ++ s)) := by
  induction s generalizing held with
  | nil =>
    have hblank : ∀ b ∈ held.reverse ++ [], Ascii.isBlank b := by simpa using hheld
    rw [Bytes.trimEnd_of_isBlank hblank]
    rfl
  | cons b s ih =>
    cases hb : Ascii.isBlank b with
    | true =>
      rw [feed, if_pos hb, if_pos rfl, ih (List.forall_mem_cons.mpr ⟨hb, hheld⟩), List.reverse_cons,
        List.append_assoc, List.singleton_append]
    | false =>
      rw [feed_of_not_isBlank hb, ih (by simp), Bytes.trimEnd_append_cons _ hb,
        Bytes.cutNewlines_append_cons _ (Bytes.ne_newline_of_not_isBlank hb), List.reverse_nil,
        List.nil_append]

/-- In front of the first byte that is not blank nothing is held back. -/
theorem feed_false (s : Bytes) : (feed false [] s).1 = (feed true [] (Bytes.trimStart s)).1 := by
  induction s with
  | nil => rfl
  | cons b s ih =>
    rw [Bytes.trimStart]
    cases hb : Ascii.isBlank b with
    | true => rwa [feed, if_pos hb, if_neg Bool.false_ne_true, List.dropWhile_cons_of_pos hb]
    | false =>
      rw [List.dropWhile_cons_of_neg (by simp [hb]), feed_of_not_isBlank hb, feed_of_not_isBlank hb]

theorem content_write (s : Bytes) : (({} : Normalizer).write true s).content = Bytes.normalForm s := by
  show [] ++ (feed false [] s).1 = _
  rw [List.nil_append, feed_false, feed_true (by simp), List.reverse_nil, List.nil_append]
  rfl

/-! ## Portions, and ends of the text -/

theorem write_nil (n : Normalizer) : n.write true [] = n := by
  simp [write, feed]

theorem write_append (n : Normalizer) (s t : Bytes) :
    n.write true (s ++ t) = (n.write true s).write true t := by
  simp [write, feed_append]

theorem foldl_write (n : Normalizer) (portions : List Bytes) :
    portions.foldl (fun n text => n.write true text) n = n.write true portions.flatten := by
  induction portions generalizing n with
  | nil => rw [List.foldl_nil, List.flatten_nil, write_nil]
  | cons text portions ih => rw [List.foldl_cons, ih, List.flatten_cons, write_append]

/-- Blanks add nothing to what has come out, and nothing is left of them when the text ends. -/
theorem finish_write_of_isBlank {blanks : Bytes} (h : ∀ b ∈ blanks, Ascii.isBlank b) (n : Normalizer) :
    (n.write true blanks).finish = n.finish := by
  simp [write, finish, feed_of_isBlank h]

/-- Ending a text is taking back the blanks at its end. -/
theorem finish_write (s : Bytes) :
    (({} : Normalizer).write true s).finish = ({} : Normalizer).write true (Bytes.trimEnd s) := by
  obtain ⟨blanks, hs, hblanks⟩ := Bytes.exists_trimEnd_append s
  have hfinish : (({} : Normalizer).write true (Bytes.trimEnd s)).finish =
      ({} : Normalizer).write true (Bytes.trimEnd s) := by
    rcases Bytes.trimEnd_eq_nil_or s with hnil | ⟨u, b, hu, hb⟩
    · rw [hnil]
      rfl
    · simp [write, finish, hu, feed_concat false [] u hb]
  calc (({} : Normalizer).write true s).finish
      = ((({} : Normalizer).write true (Bytes.trimEnd s)).write true blanks).finish := by
        rw [← write_append, ← hs]
    _ = (({} : Normalizer).write true (Bytes.trimEnd s)).finish := finish_write_of_isBlank hblanks _
    _ = ({} : Normalizer).write true (Bytes.trimEnd s) := hfinish

/-- What can be done to a normalizer. -/
inductive Step where
  | write (text : Bytes)
  | finish
  deriving DecidableEq, Repr

/-- The normalizer after a step. -/
def step (n : Normalizer) : Step → Normalizer
  | .write text => n.write true text
  | .finish => n.finish

/-- Whatever steps are taken, a single portion leads to the same state. -/
theorem exists_run_eq_write (steps : List Step) :
    ∃ s, steps.foldl step {} = ({} : Normalizer).write true s := by
  induction steps using List.reverseRecOn with
  | nil => exact ⟨[], (write_nil _).symm⟩
  | append_singleton steps last ih =>
    obtain ⟨s, hs⟩ := ih
    rw [List.foldl_concat, hs]
    cases last with
    | write text => exact ⟨s ++ text, (write_append _ _ _).symm⟩
    | finish => exact ⟨Bytes.trimEnd s, finish_write s⟩

/-- However a text is cut into portions, its normal form comes out; and whatever is written and ended
in whatever order, what has come out is tidy. -/
theorem content_any_portions (portions : List Bytes) (steps : List Step) :
    (portions.foldl (fun n text => n.write true text) ({} : Normalizer)).finish.content =
        Bytes.normalForm portions.flatten ∧
      Bytes.Tidy (steps.foldl step ({} : Normalizer)).content := by
  constructor
  · rw [foldl_write]
    exact content_write portions.flatten
  · obtain ⟨s, hs⟩ := exists_run_eq_write steps
    rw [hs, content_write]
    exact Bytes.tidy_normalForm s

end Normalizer

end Stencil
