import Mathlib.Data.List.Induction
import Stencil.Bytes

/-!
# Occurrences of a byte string

Where one byte string occurs in another. An occurrence does not reach over a byte that it does not hold
(`infix_append_cons`), and the search for the first one finds it whatever follows
(`splitAround?_eq_some_iff`). What holds of the parts between the occurrences of one byte holds of the whole
if it is kept when a part is added (`separator_induction`).
-/

namespace Stencil

namespace Bytes

/-! ## Occurrences over a border -/

/-- What does not hold a byte ends in front of it, if it begins there. -/
theorem prefix_of_append_cons {l u v : Bytes} {b : UInt8} (hb : b ∉ l) (h : l <+: u ++ b :: v) :
    l <+: u := by
  have hborder : u ++ [b] <+: u ++ b :: v := ⟨v, by simp⟩
  rcases List.prefix_or_prefix_of_prefix h hborder with hl | hl
  · rcases List.prefix_concat_iff.mp hl with rfl | hl
    · exact absurd (by simp) hb
    · exact hl
  · exact absurd (hl.subset (by simp)) hb

/-- What does not hold a byte stands in front of it or behind it. -/
theorem infix_append_cons {l u v : Bytes} {b : UInt8} (hb : b ∉ l) (h : l <:+: u ++ b :: v) :
    l <:+: u ∨ l <:+: v := by
  induction u with
  | nil =>
    rcases List.infix_cons_iff.mp h with h | h
    · exact .inl (prefix_of_append_cons (u := []) hb h).isInfix
    · exact .inr h
  | cons a u ih =>
    rcases List.infix_cons_iff.mp h with h | h
    · exact .inl (prefix_of_append_cons (u := a :: u) hb h).isInfix
    · exact (ih h).imp_left fun hu => hu.trans (List.suffix_cons a u).isInfix

/-! ## Between the occurrences of a byte -/

/-- A byte string is a part without the separator, or such a part behind a separator behind a byte string. -/
@[elab_as_elim]
theorem separator_induction (separator : UInt8) {motive : Bytes → Prop}
    (part : ∀ p, separator ∉ p → motive p)
    (append : ∀ s p, separator ∉ p → motive s → motive (s ++ separator :: p)) (s : Bytes) : motive s := by
  have hall : ∀ p, separator ∉ p → motive (s ++ p) := by
    induction s using List.reverseRecOn with
    | nil => exact part
    | append_singleton s b ih =>
      intro p hp
      rw [List.append_assoc, List.singleton_append]
      by_cases hb : b = separator
      · subst hb
        exact append s p hp (List.append_nil s ▸ ih [] List.not_mem_nil)
      · exact ih (b :: p) (by simp [Ne.symm hb, hp])
  exact List.append_nil s ▸ hall [] List.not_mem_nil

/-! ## The first occurrence -/

/-- In `before` followed by `needle` there is no occurrence of `needle` that begins in `before`. -/
def FirstBehind (needle before : Bytes) : Prop :=
  ∀ x, x <:+ before → x ≠ [] → ¬needle <+: x ++ needle

theorem firstBehind_nil (needle : Bytes) : FirstBehind needle [] :=
  fun _ hx hne => absurd (List.suffix_nil.mp hx) hne

theorem firstBehind_cons {needle before : Bytes} {b : UInt8} :
    FirstBehind needle (b :: before) ↔
      ¬needle <+: b :: (before ++ needle) ∧ FirstBehind needle before := by
  constructor
  · intro h
    have hself := h (b :: before) List.suffix_rfl (List.cons_ne_nil b before)
    exact ⟨hself, fun x hx => h x (hx.trans (List.suffix_cons b before))⟩
  · rintro ⟨hself, h⟩ x hx hne
    rcases List.suffix_cons_iff.mp hx with rfl | hx
    · exact hself
    · exact h x hx hne

/-- Whether a needle stands in front of a text that is long enough does not depend on what follows. -/
theorem isPrefix_append_iff {needle s : Bytes} (h : needle.length ≤ s.length) (more : Bytes) :
    needle <+: s ++ more ↔ needle <+: s :=
  ⟨fun hp => List.prefix_of_prefix_length_le hp (List.prefix_append s more) h,
    fun hp => hp.trans (List.prefix_append s more)⟩

theorem splitAround?_append {needle : Bytes} (after : Bytes) :
    splitAround? needle (needle ++ after) = some ([], after) := by
  cases hs : needle ++ after with
  | nil =>
    obtain ⟨rfl, rfl⟩ := List.append_eq_nil_iff.mp hs
    rfl
  | cons b s =>
    have hprefix : needle.isPrefixOf (b :: s) :=
      List.isPrefixOf_iff_prefix.mpr (hs ▸ List.prefix_append needle after)
    rw [splitAround?, if_pos hprefix, ← hs, List.drop_left]

theorem splitAround?_of_firstBehind {needle before : Bytes} (h : FirstBehind needle before)
    (after : Bytes) : splitAround? needle (before ++ (needle ++ after)) = some (before, after) := by
  induction before with
  | nil => exact splitAround?_append after
  | cons b before ih =>
    obtain ⟨hself, hrest⟩ := firstBehind_cons.mp h
    have hlength : needle.length ≤ (b :: (before ++ needle)).length := by simp; omega
    have hnot : ¬needle.isPrefixOf (b :: (before ++ (needle ++ after))) := by
      rw [List.isPrefixOf_iff_prefix, ← List.append_assoc, ← List.cons_append,
        isPrefix_append_iff hlength]
      exact hself
    rw [List.cons_append, splitAround?, if_neg hnot, ih hrest]
    rfl

theorem firstBehind_of_splitAround? {needle s before after : Bytes}
    (h : splitAround? needle s = some (before, after)) : FirstBehind needle before := by
  induction s generalizing before with
  | nil =>
    have hnil := append_of_splitAround? h
    simp only [List.append_eq_nil_iff] at hnil
    exact hnil.1.1 ▸ firstBehind_nil needle
  | cons b s ih =>
    have happend := append_of_splitAround? h
    simp only [splitAround?] at h
    split at h
    · obtain ⟨rfl, -⟩ : [] = before ∧ _ = after := by simpa using h
      exact firstBehind_nil needle
    · rename_i hnot
      obtain ⟨⟨x, y⟩, hxy, he⟩ := Option.map_eq_some_iff.mp h
      obtain ⟨rfl, rfl⟩ : b :: x = before ∧ y = after := by simpa using he
      refine firstBehind_cons.mpr ⟨fun hprefix => hnot ?_, ih hxy⟩
      rw [List.isPrefixOf_iff_prefix, ← happend]
      exact hprefix.trans (List.prefix_append _ y)

theorem not_infix_of_firstBehind {needle before : Bytes} (hne : needle ≠ []) (h : FirstBehind needle before) :
    ¬needle <:+: before := by
  rintro ⟨x, y, rfl⟩
  rw [List.append_assoc] at h
  exact h (needle ++ y) (List.suffix_append x _) (by simp [hne]) ⟨y ++ needle, by simp⟩

/-- The search finds the first occurrence, whatever follows it. -/
theorem splitAround?_eq_some_iff {needle s before after : Bytes} :
    splitAround? needle s = some (before, after) ↔
      before ++ (needle ++ after) = s ∧ FirstBehind needle before := by
  constructor
  · intro h
    exact ⟨List.append_assoc before needle after ▸ append_of_splitAround? h, firstBehind_of_splitAround? h⟩
  · rintro ⟨rfl, h⟩
    exact splitAround?_of_firstBehind h after

theorem splitAround?_eq_none_iff {needle s : Bytes} : splitAround? needle s = none ↔ ¬needle <:+: s := by
  induction s with
  | nil => cases needle <;> simp [splitAround?]
  | cons b s ih =>
    rw [splitAround?, List.infix_cons_iff, ← List.isPrefixOf_iff_prefix]
    split <;> simp_all

end Bytes

end Stencil
