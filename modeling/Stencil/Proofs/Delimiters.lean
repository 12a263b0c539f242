import Stencil.Proofs.Escaping
import Stencil.View

/-!
# Reading up to a delimiter

Which bytes of a text are escaped is said place by place (`isEscaped`), and with that at which places reading
stops (`StopsAt`); `splitUnescaped` goes through the text once and only remembers whether the next byte is
escaped. A place behind the first byte is a place of the rest of the text, with what the first byte says of the
byte behind it (`isEscaped_cons_succ`), so by induction on the text the cut is at the first place where reading
stops, or at the end (`firstStop_splitUnescaped`). A view is cut like its bytes (`View.toBytes_consume_fst`,
`View.toBytes_consume_snd`). The main statement is `View.consume_to_first_stop`.
-/

namespace Stencil

open Ascii

variable {stop : UInt8} {escapes escaped : Bool}

/-- Is the byte at a place escaped? The first one is if `escaped` says so, and every other one if the byte in
front of it is a backslash that escapes and is not escaped itself. -/
def isEscaped (escapes escaped : Bool) (s : Bytes) : Nat → Bool
  | 0 => escaped
  | i + 1 => escapes && s[i]? == some backslash && !isEscaped escapes escaped s i

/-- Reading stops at an unescaped byte that is the delimiter. Nothing stops it where the delimiter is the
backslash and escapes the next byte instead. -/
structure StopsAt (stop : UInt8) (escapes escaped : Bool) (s : Bytes) (i : Nat) : Prop where
  isStop : s[i]? = some stop
  unescaped : isEscaped escapes escaped s i = false
  notEscape : ¬(escapes ∧ stop = backslash)

/-- The first place of a text where reading stops, or its end if there is none. -/
structure FirstStop (stop : UInt8) (escapes escaped : Bool) (s : Bytes) (n : Nat) : Prop where
  le_length : n ≤ s.length
  not_before : ∀ i < n, ¬StopsAt stop escapes escaped s i
  stops_or_end : StopsAt stop escapes escaped s n ∨ n = s.length

/-! ## Place by place -/

theorem isEscaped_cons_succ (escapes escaped : Bool) (b : UInt8) (s : Bytes) (i : Nat) :
    isEscaped escapes escaped (b :: s) (i + 1) =
      isEscaped escapes (escapes && b == backslash && !escaped) s i := by
  induction i with
  | zero => simp [isEscaped]
  | succ i ih => rw [isEscaped, ih, List.getElem?_cons_succ, isEscaped]

theorem stopsAt_cons_zero {b : UInt8} {s : Bytes} :
    StopsAt stop escapes escaped (b :: s) 0 ↔
      b = stop ∧ escaped = false ∧ ¬(escapes ∧ stop = backslash) := by
  constructor
  · rintro ⟨hstop, hescaped, hescape⟩
    exact ⟨Option.some.inj hstop, hescaped, hescape⟩
  · rintro ⟨rfl, hescaped, hescape⟩
    exact ⟨rfl, hescaped, hescape⟩

theorem stopsAt_cons_succ {b : UInt8} {s : Bytes} {i : Nat} :
    StopsAt stop escapes escaped (b :: s) (i + 1) ↔
      StopsAt stop escapes (escapes && b == backslash && !escaped) s i := by
  constructor
  · rintro ⟨hstop, hescaped, hescape⟩
    exact ⟨hstop, isEscaped_cons_succ .. ▸ hescaped, hescape⟩
  · rintro ⟨hstop, hescaped, hescape⟩
    exact ⟨hstop, isEscaped_cons_succ .. ▸ hescaped, hescape⟩

namespace FirstStop

theorem zero {s : Bytes} (h : StopsAt stop escapes escaped s 0) : FirstStop stop escapes escaped s 0 where
  le_length := Nat.zero_le _
  not_before _ hi := absurd hi (Nat.not_lt_zero _)
  stops_or_end := .inl h

/-- Where reading does not stop at the first byte, the first place is found in the rest. -/
theorem succ {b : UInt8} {s : Bytes} {n : Nat} (hfirst : ¬StopsAt stop escapes escaped (b :: s) 0)
    (hrest : FirstStop stop escapes (escapes && b == backslash && !escaped) s n) :
    FirstStop stop escapes escaped (b :: s) (n + 1) where
  le_length := Nat.succ_le_succ hrest.le_length
  not_before i hi := by
    cases i with
    | zero => exact hfirst
    | succ i => exact fun h => hrest.not_before i (Nat.lt_of_succ_lt_succ hi) (stopsAt_cons_succ.mp h)
  stops_or_end := hrest.stops_or_end.imp stopsAt_cons_succ.mpr (congrArg (· + 1))

/-- A delimiter that escapes is never found. -/
theorem eq_length {s : Bytes} {n : Nat} (h : FirstStop stop escapes escaped s n)
    (hescape : escapes ∧ stop = backslash) : n = s.length :=
  h.stops_or_end.resolve_left fun hstop => hstop.notEscape hescape

end FirstStop

/-- A text is cut at the first place where reading stops. -/
theorem firstStop_splitUnescaped (stop : UInt8) (escapes escaped : Bool) (s : Bytes) :
    FirstStop stop escapes escaped s (splitUnescaped stop escapes escaped s).1.length := by
  -- What the first byte says of the second is the flag with which the recursion goes on.
  fun_induction splitUnescaped stop escapes escaped s with
  | case1 escaped => exact ⟨Nat.le_refl _, fun _ hi => absurd hi (Nat.not_lt_zero _), .inr rfl⟩
  | case2 escaped b rest hb before after heq ih =>
    obtain ⟨rfl, hescapes, hescaped⟩ := hb
    rw [heq] at ih
    refine .succ (fun h => ?_) (by simpa [hescapes, hescaped] using ih)
    obtain ⟨hstop, -, hescape⟩ := stopsAt_cons_zero.mp h
    exact hescape ⟨hescapes, hstop.symm⟩
  | case3 escaped b rest hb hstop =>
    obtain ⟨rfl, hescaped⟩ := hstop
    have hunescaped : escaped = false := by simpa using hescaped
    exact .zero (stopsAt_cons_zero.mpr ⟨rfl, hunescaped, fun h => hb ⟨h.2, h.1, hescaped⟩⟩)
  | case4 escaped b rest hb hstop before after heq ih =>
    rw [heq] at ih
    have hnext : (escapes && b == backslash && !escaped) = false := by
      simpa [and_assoc, and_left_comm] using hb
    refine .succ (fun h => ?_) (hnext ▸ ih)
    obtain ⟨rfl, hescaped, -⟩ := stopsAt_cons_zero.mp h
    exact hstop ⟨rfl, by rw [hescaped]; rfl⟩

/-! ## Views -/

namespace View

theorem toBytes_eq_take_drop (v : View) : v.toBytes = (v.buffer.drop v.start).take (v.stop - v.start) :=
  List.drop_take

/-- A view that begins in the same place and ends after so many bytes. -/
theorem toBytes_take {v : View} {n : Nat} (h : n ≤ v.toBytes.length) :
    { v with stop := v.start + n }.toBytes = v.toBytes.take n := by
  rw [toBytes_eq_take_drop, List.length_take] at h
  have hstop : v.start + n - v.start = n := Nat.add_sub_cancel_left ..
  rw [toBytes_eq_take_drop, toBytes_eq_take_drop, hstop, List.take_take, Nat.min_eq_left (by omega)]

/-- A view that begins so many bytes later and ends in the same place. -/
theorem toBytes_drop (v : View) (n : Nat) : { v with start := v.start + n }.toBytes = v.toBytes.drop n := by
  rw [toBytes, toBytes, List.drop_drop]

theorem toBytes_consume_fst (v : View) (stop : UInt8) (escaped escapes : Bool) :
    (v.consume stop escaped escapes).1.toBytes = (splitUnescaped stop escapes escaped v.toBytes).1 := by
  have happend := append_splitUnescaped stop escapes escaped v.toBytes
  rw [consume, toBytes_take (firstStop_splitUnescaped ..).le_length]
  generalize splitUnescaped stop escapes escaped v.toBytes = cut at happend ⊢
  rw [← happend, List.take_left]

theorem toBytes_consume_snd (v : View) (stop : UInt8) (escaped escapes : Bool) :
    (v.consume stop escaped escapes).2.toBytes = (splitUnescaped stop escapes escaped v.toBytes).2 := by
  have happend := append_splitUnescaped stop escapes escaped v.toBytes
  rw [consume, toBytes_drop]
  generalize splitUnescaped stop escapes escaped v.toBytes = cut at happend ⊢
  rw [← happend, List.drop_left]

/-- What is read of a view are its bytes in front of the first place where reading stops, or all of them, and
exactly the others are left. A text that is escaped for a delimiter is read up to that delimiter, whatever
follows, and without its backslashes it is the text again. -/
theorem consume_to_first_stop (v : View) (stop : UInt8) (escaped escapes : Bool) :
    (∃ n, FirstStop stop escapes escaped v.toBytes n ∧
        v.consume stop escaped escapes = ({ v with stop := v.start + n }, { v with start := v.start + n }) ∧
        (v.consume stop escaped escapes).1.toBytes = v.toBytes.take n ∧
        (v.consume stop escaped escapes).2.toBytes = v.toBytes.drop n) ∧
      (v.consume stop escaped escapes).1.toBytes ++ (v.consume stop escaped escapes).2.toBytes = v.toBytes ∧
      (escapes ∧ stop = backslash → (v.consume stop escaped escapes).1.toBytes = v.toBytes) ∧
      ∀ (q : UInt8) (s rest : Bytes), q ≠ backslash → v.toBytes = escape q s ++ q :: rest →
        unescape (v.consume q false true).1.toBytes = s ∧ (v.consume q false true).2.toBytes = q :: rest := by
  have hfirst := firstStop_splitUnescaped stop escapes escaped v.toBytes
  have hbefore := toBytes_take hfirst.le_length
  refine ⟨⟨_, hfirst, rfl, hbefore, toBytes_drop v _⟩, ?_, fun hescape => ?_, fun q s rest hq hv => ?_⟩
  · rw [toBytes_consume_fst, toBytes_consume_snd, append_splitUnescaped]
  · exact hbefore.trans (hfirst.eq_length hescape ▸ List.take_length)
  · rw [toBytes_consume_fst, toBytes_consume_snd, hv, splitUnescaped_escape hq, unescape_escape]
    exact ⟨rfl, rfl⟩

/-- A backslash at the end of a quoted text stands in front of the closing quote and does not escape it. -/
theorem consume_to_first_stop_of_quoted :
    (ofBytes (Bytes.ofString "a\\\"b\\\\\", c")).toBytes =
        escape doubleQuote (Bytes.ofString "a\"b\\") ++ doubleQuote :: Bytes.ofString ", c" ∧
      unescape ((ofBytes (Bytes.ofString "a\\\"b\\\\\", c")).consume doubleQuote false true).1.toBytes =
        Bytes.ofString "a\"b\\" ∧
      ((ofBytes (Bytes.ofString "a\\\"b\\\\\", c")).consume doubleQuote false true).2.toBytes =
        doubleQuote :: Bytes.ofString ", c" := by
  have htext : (ofBytes (Bytes.ofString "a\\\"b\\\\\", c")).toBytes =
      escape doubleQuote (Bytes.ofString "a\"b\\") ++ doubleQuote :: Bytes.ofString ", c" := by decide
  obtain ⟨-, -, -, hquoted⟩ :=
    consume_to_first_stop (ofBytes (Bytes.ofString "a\\\"b\\\\\", c")) doubleQuote false true
  exact ⟨htext, hquoted doubleQuote _ _ (by decide) htext⟩

end View

end Stencil
