import Stencil.Section

/-!
# Ranges of a text

The bytes of a text in a range (`Span.slice`), and rows of ranges that follow one another without a
gap or an overlap (`Tiles`). `slice_of_append` is how a range is found again in a text that was put
together from parts.
-/

namespace Stencil

/-- The bytes of a text in a range. -/
def Span.slice (span : Span) (text : Bytes) : Bytes := (text.take span.stop).drop span.start

/-- These ranges follow one another from `start` up to `stop`, without a gap or an overlap. -/
def Tiles : (start : Nat) → List Span → (stop : Nat) → Prop
  | start, [], stop => start = stop
  | start, span :: rest, stop => span.start = start ∧ span.start ≤ span.stop ∧ Tiles span.stop rest stop

theorem Tiles.start_le {start stop : Nat} {spans : List Span} (h : Tiles start spans stop) :
    start ≤ stop ∧ ∀ span ∈ spans, start ≤ span.start ∧ span.stop ≤ stop := by
  induction spans generalizing start with
  | nil => exact ⟨Nat.le_of_eq h, by simp⟩
  | cons span spans ih =>
    obtain ⟨rfl, hle, hrest⟩ := h
    obtain ⟨hstop, hall⟩ := ih hrest
    refine ⟨Nat.le_trans hle hstop, List.forall_mem_cons.mpr ⟨⟨Nat.le_refl _, hstop⟩, ?_⟩⟩
    exact fun b hb => ⟨Nat.le_trans hle (hall b hb).1, (hall b hb).2⟩

namespace Span

theorem slice_of_append {before part after text : Bytes} {span : Span}
    (ht : text = before ++ (part ++ after)) (hs : span.start = before.length)
    (he : span.stop = before.length + part.length) : span.slice text = part := by
  subst ht
  rw [slice, hs, he, ← List.append_assoc, ← List.length_append, List.take_left, List.drop_left]

theorem slice_append_slice {a b c : Nat} (hab : a ≤ b) (hbc : b ≤ c) (text : Bytes) :
    slice ⟨a, b⟩ text ++ slice ⟨b, c⟩ text = slice ⟨a, c⟩ text := by
  simp only [slice, List.drop_take]
  rw [show c - a = (b - a) + (c - b) by omega, List.take_add, List.drop_drop,
    show a + (b - a) = b by omega]

theorem slice_zero (n : Nat) (text : Bytes) : slice ⟨0, n⟩ text = text.take n := rfl

end Span

end Stencil
