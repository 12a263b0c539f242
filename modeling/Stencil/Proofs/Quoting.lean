import Stencil.Proofs.Escaping
import Stencil.Template

/-!
# Two scanners of quotes

One scanner finds the end of a tag and walks through everything behind the opening braces
(`splitTag`); the other takes a single quoted string off its front (`splitUnescaped`). From a quote on
they agree: up to the place where the second cuts the string off the first is inside of quotes
(`after_ne_outside`), and behind the closing quote it is outside again (`after_closed`), so that it
goes on there in search of the end of the tag (`splitTag_of_closed`).
-/

namespace Stencil

open Ascii

namespace Piece

namespace Quoting

/-- Where the byte behind these bytes stands. -/
def after (state : Quoting) (s : Bytes) : Quoting := s.foldl (fun state b => state.next b) state

@[simp] theorem after_nil (state : Quoting) : state.after [] = state := rfl

@[simp] theorem after_cons (state : Quoting) (b : UInt8) (s : Bytes) :
    state.after (b :: s) = (state.next b).after s := rfl

@[simp] theorem after_append (state : Quoting) (s t : Bytes) :
    state.after (s ++ t) = (state.after s).after t := by
  simp [after]

theorem next_outside (b : UInt8) : outside.next b = if isQuote b then inside b else outside := rfl

/-- Bytes among which there is no quote do not lead into quotes. -/
theorem after_outside {s : Bytes} (h : ∀ b ∈ s, ¬isQuote b) : outside.after s = outside := by
  induction s with
  | nil => rfl
  | cons b s ih =>
    rw [List.forall_mem_cons] at h
    rw [after_cons, next_outside, if_neg h.1, ih h.2]

/-- Where a byte of a string stands, for a scanner that only knows whether it is escaped. -/
def within (q : UInt8) (escaped : Bool) : Quoting := if escaped then hidden q else inside q

theorem within_ne_outside (q : UInt8) (escaped : Bool) : within q escaped ≠ outside := by
  cases escaped <;> simp [within]

theorem next_within (q b : UInt8) (escaped : Bool) :
    (within q escaped).next b =
      if b = backslash ∧ !escaped then within q true
      else if b = q ∧ !escaped then outside else within q false := by
  cases escaped <;> simp [within, next]

end Quoting

open Quoting (within)

theorem splitTag_cons {state : Quoting} {b : UInt8} {rest body after : Bytes}
    (hb : ¬(state = .outside ∧ closer.isPrefixOf (b :: rest)))
    (hrest : splitTag (state.next b) rest = some (body, after)) :
    splitTag state (b :: rest) = some (b :: body, after) := by
  rw [splitTag, if_neg hb, hrest]
  rfl

/-- The scanner goes on as long as it is inside of quotes. -/
theorem splitTag_append {state : Quoting} {s rest body more : Bytes}
    (hs : ∀ part, part <+: s → part ≠ s → state.after part ≠ .outside)
    (hrest : splitTag (state.after s) rest = some (body, more)) :
    splitTag state (s ++ rest) = some (s ++ body, more) := by
  -- What is asked of the prefixes of `s` is what the induction needs of the first byte and of the rest.
  induction s generalizing state with
  | nil => exact hrest
  | cons b s ih =>
    have hstate : state ≠ .outside := hs [] List.nil_prefix (List.cons_ne_nil b s).symm
    refine splitTag_cons (fun hc => hstate hc.1) (ih (fun part hpart hne => ?_) hrest)
    exact hs (b :: part) ((List.prefix_cons_inj b).mpr hpart) fun he => hne (List.cons.inj he).2

theorem closer_isPrefixOf_cons {b : UInt8} (hb : b ≠ closeBrace) (s : Bytes) :
    closer.isPrefixOf (b :: s) = false := by
  simp [closer, List.isPrefixOf, Ne.symm hb]

/-- In front of the end of a tag the scanner is outside of quotes. -/
theorem after_of_splitTag {state : Quoting} {s body rest : Bytes}
    (h : splitTag state s = some (body, rest)) : state.after body = .outside := by
  fun_induction splitTag state s generalizing body rest with
  | case1 => cases h
  | case2 state b s hc =>
    cases h
    exact hc.1
  | case3 state b s hc ih =>
    obtain ⟨⟨x, y⟩, hxy, he⟩ := Option.map_eq_some_iff.mp h
    cases he
    exact ih hxy

/-! ## Quoted strings -/

/-- The scanner that is to find the end of the tag does not leave a string in front of the place where
the other one cuts it off. -/
theorem after_ne_outside {q : UInt8} {escaped : Bool} {s part : Bytes}
    (h : part <+: (splitUnescaped q true escaped s).1) : (within q escaped).after part ≠ .outside := by
  fun_induction splitUnescaped q true escaped s generalizing part with
  | case1 escaped =>
    rw [List.prefix_nil.mp h]
    exact Quoting.within_ne_outside q escaped
  | case2 escaped b rest hb before after heq ih =>
    rcases List.prefix_cons_iff.mp h with rfl | ⟨part, rfl, hpart⟩
    · exact Quoting.within_ne_outside q escaped
    · rw [Quoting.after_cons, Quoting.next_within, if_pos ⟨hb.1, hb.2.2⟩]
      exact ih (by rwa [heq])
  | case3 escaped b rest hb hstop =>
    rw [List.prefix_nil.mp h]
    exact Quoting.within_ne_outside q escaped
  | case4 escaped b rest hb hstop before after heq ih =>
    rcases List.prefix_cons_iff.mp h with rfl | ⟨part, rfl, hpart⟩
    · exact Quoting.within_ne_outside q escaped
    · rw [Quoting.after_cons, Quoting.next_within, if_neg (by simpa using hb), if_neg hstop]
      exact ih (by rwa [heq])

theorem next_inside_self {q : UInt8} (hq : isQuote q) : (Quoting.inside q).next q = .outside := by
  have hne : q ≠ backslash := by
    rintro rfl
    exact absurd hq (by decide)
  exact (Quoting.next_within q q false).trans (by simp [hne])

theorem after_quote {q : UInt8} (hq : isQuote q) (part : Bytes) :
    Quoting.outside.after (q :: part) = (within q false).after part := by
  rw [Quoting.after_cons, Quoting.next_outside, if_pos hq]
  rfl

/-- At its closing quote the string ends for the scanner of the tag too. -/
theorem after_closed {q : UInt8} (hq : isQuote q) {escaped : Bool} {s content rest : Bytes}
    (h : splitUnescaped q true escaped s = (content, q :: rest)) :
    (within q escaped).after (content ++ [q]) = .outside := by
  fun_induction splitUnescaped q true escaped s generalizing content with
  | case1 escaped => cases h
  | case2 escaped b s hb before more heq ih =>
    cases h
    rw [List.cons_append, Quoting.after_cons, Quoting.next_within, if_pos ⟨hb.1, hb.2.2⟩, ih heq]
  | case3 escaped b s hb hstop =>
    cases h
    obtain rfl : escaped = false := by simpa using hstop.2
    exact next_inside_self hq
  | case4 escaped b s hb hstop before more heq ih =>
    cases h
    rw [List.cons_append, Quoting.after_cons, Quoting.next_within, if_neg (by simpa using hb),
      if_neg hstop, ih heq]

theorem append_of_closed {q : UInt8} {escaped : Bool} {s content rest : Bytes}
    (h : splitUnescaped q true escaped s = (content, q :: rest)) : content ++ [q] ++ rest = s := by
  have happend := append_splitUnescaped q true escaped s
  rwa [h, ← List.singleton_append, ← List.append_assoc] at happend

/-- From inside of a string the scanner comes to its closing quote and goes on behind it. -/
theorem splitTag_of_closed {q : UInt8} (hq : isQuote q) {escaped : Bool}
    {s content rest body after : Bytes} (h : splitUnescaped q true escaped s = (content, q :: rest))
    (hrest : splitTag .outside rest = some (body, after)) :
    splitTag (within q escaped) s = some (content ++ [q] ++ body, after) := by
  rw [← append_of_closed h]
  refine splitTag_append (fun part hpart hne => ?_) (by rwa [after_closed hq h])
  rcases List.prefix_concat_iff.mp hpart with rfl | hpart
  · exact absurd rfl hne
  · exact after_ne_outside (by rwa [h])

/-- A string in which the scanner of the tag comes to stand outside of quotes has a closing quote. -/
theorem exists_closing_quote {q : UInt8} {s : Bytes} (h : (Quoting.inside q).after s = .outside) :
    ∃ content rest, splitUnescaped q true false s = (content, q :: rest) := by
  rcases splitUnescaped_snd q true false s with hnil | ⟨rest, hrest⟩
  · have happend := append_splitUnescaped q true false s
    rw [hnil, List.append_nil] at happend
    have hprefix : s <+: (splitUnescaped q true false s).1 :=
      ⟨[], (List.append_nil s).trans happend.symm⟩
    exact absurd h (after_ne_outside hprefix)
  · exact ⟨_, rest, Prod.ext rfl hrest⟩

end Piece

end Stencil
