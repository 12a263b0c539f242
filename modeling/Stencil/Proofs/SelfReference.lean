import Stencil.Proofs.SingleSlots
import Stencil.Proofs.Telling

/-!
# Templates that stand for themselves

A block that refers to itself is rendered inside of itself, one level deeper each time, until the limit is
passed and the innermost copy is taken as it is. Each level puts one more text in front of what comes out of
the level below and one more behind it (`settled_block`, by induction on the levels that are left), and
nothing of that is changed by normalization (`normalize_unrolled`). The main statement is
`settled_selfReference`.
-/

namespace Stencil

open Ascii
open Piece (opener closer closingTag)
open Spelling (Name Opening)

/-! ## The template -/

/-- No byte of the text is blank or has to do with tags, comments and escapes. -/
def IsInert (text : Bytes) : Prop :=
  ∀ b ∈ text, Ascii.isBlank b = false ∧ b ≠ openBrace ∧ b ≠ closeBrace ∧ b ≠ slash ∧ b ≠ backslash

instance (text : Bytes) : Decidable (IsInert text) := List.decidableBAll _ text

/-- A slot of this name and nothing else. -/
def reference (n : Name) : Bytes := opener ++ n.bytes ++ closer

/-- So many copies of one text, a slot, and as many copies of another text. -/
def unrolled (n : Name) (p q : Bytes) (copies : Nat) : Bytes :=
  (List.replicate copies p).flatten ++ reference n ++ (List.replicate copies q).flatten

/-- A block with a slot of its own name between two texts, and such a slot behind it. -/
def selfReference (n : Name) (p q : Bytes) : Bytes :=
  reference n ++ p ++ reference n ++ q ++ closingTag n.bytes ++ reference n

theorem unrolled_one (n : Name) (p q : Bytes) : unrolled n p q 1 = p ++ (reference n ++ q) := by
  simp [unrolled]

theorem unrolled_succ (n : Name) (p q : Bytes) (copies : Nat) :
    unrolled n p q (copies + 1) = p ++ unrolled n p q copies ++ q := by
  rw [unrolled, unrolled, List.replicate_succ, List.replicate_succ' (a := q), List.flatten_cons,
    List.flatten_append, List.flatten_singleton]
  simp only [List.append_assoc]

namespace IsInert

variable {p : Bytes} (h : IsInert p)
include h

theorem isPlainFront : IsPlainFront p where
  opener hoccurs := (h openBrace (hoccurs.subset (List.mem_cons_self ..))).2.1 rfl
  openBrace hlast := (h openBrace (List.mem_of_getLast? hlast)).2.1 rfl
  backslash hlast := (h backslash (List.mem_of_getLast? hlast)).2.2.2.2 rfl

theorem slash_notMem : slash ∉ p := fun hmem => (h slash hmem).2.2.2.1 rfl

end IsInert

/-! ## Its bytes -/

theorem Bytes.normalize_of_noBlank {text : Bytes} (h : ∀ b ∈ text, Ascii.isBlank b = false) :
    normalize text = text := by
  rw [normalize_eq_normalForm]
  refine normalForm_of_tidy ⟨fun b hb => h b (List.mem_of_head? hb), fun b hb => h b (List.mem_of_getLast? hb),
    fun hoccurs => ?_⟩
  exact absurd (h newline (hoccurs.subset (List.mem_cons_self ..))) (by decide)

theorem isBlank_of_mem_reference {n : Name} {b : UInt8} (h : b ∈ reference n) : Ascii.isBlank b = false := by
  have hname (hb : b ∈ n.bytes) : Ascii.isBlank b = false :=
    isBlank_of_isNameByte b (List.all_eq_true.mp n.nameBytes b hb)
  simp only [reference, List.mem_append, opener, closer, List.mem_cons, List.not_mem_nil, or_false,
    or_self] at h
  rcases h with (rfl | hb) | rfl
  · rfl
  · exact hname hb
  · rfl

theorem slash_notMem_reference (n : Name) : slash ∉ reference n := by
  have hne : slash ≠ openBrace ∧ slash ≠ closeBrace := by decide
  simp [reference, opener, closer, n.slash_notMem, hne]

section

variable {n : Name} {p q : Bytes} (hp : IsInert p) (hq : IsInert q)
include hp hq

theorem isBlank_of_mem_unrolled {copies : Nat} {b : UInt8} (hb : b ∈ unrolled n p q copies) :
    Ascii.isBlank b = false := by
  have hcopies {p : Bytes} (hp : IsInert p) (b : UInt8) (hb : b ∈ (List.replicate copies p).flatten) :
      Ascii.isBlank b = false := by
    obtain ⟨p', hp', hb⟩ := List.mem_flatten.mp hb
    exact (hp b ((List.mem_replicate.mp hp').2 ▸ hb)).1
  rcases List.mem_append.mp hb with hb | hb
  · rcases List.mem_append.mp hb with hb | hb
    · exact hcopies hp b hb
    · exact isBlank_of_mem_reference hb
  · exact hcopies hq b hb

theorem normalize_unrolled (copies : Nat) : normalize (unrolled n p q copies) = unrolled n p q copies :=
  Bytes.normalize_of_noBlank fun _ hb => isBlank_of_mem_unrolled hp hq hb

theorem slash_notMem_unrolled_one : slash ∉ unrolled n p q 1 := by
  rw [unrolled_one]
  simp [hp.slash_notMem, hq.slash_notMem, slash_notMem_reference]

/-- There is one slash in the whole template, that of the closing tag. -/
theorem slashes_selfReference : ¬[slash, slash] <:+: selfReference n p q := by
  intro hoccurs
  have hcount := hoccurs.sublist.count_le slash
  have hone : (selfReference n p q).count slash = 1 := by
    have hreference := List.count_eq_zero.mpr (slash_notMem_reference n)
    have htag : closingTag n.bytes = opener ++ [slash] ++ n.bytes ++ closer := by simp [closingTag]
    have hname := List.count_eq_zero.mpr n.slash_notMem
    simp only [selfReference, htag, List.count_append, hreference, List.count_eq_zero.mpr hp.slash_notMem,
      List.count_eq_zero.mpr hq.slash_notMem, hname]
    rfl
  rw [hone] at hcount
  exact absurd hcount (by decide)

end

/-! ## What it is read as -/

/-- The slot. -/
def Spelling.Name.slot (n : Name) : Slot := { name := n.bytes }

/-- The block, which declares nothing. -/
def Spelling.Name.opening (n : Name) : Opening where
  before := ⟨[], rfl⟩
  name := n
  declarations := none
  behind := ⟨[], rfl⟩

theorem isSlotTag_reference (n : Name) : Template.IsSlotTag n.bytes n.slot where
  passes := .name n
  read := by
    have hread := n.opening.read_body
    simpa [Opening.body, Opening.params, Spelling.Name.opening, Spelling.Name.slot] using hread
  literals := by simp [Spelling.Name.slot]

section

variable {n : Name} {p q : Bytes} (hp : IsInert p) (hq : IsInert q)
include hp hq

theorem splits_unrolled_one :
    Template.Splits (unrolled n p q 1) (Template.slotPieces p (reference n) n.slot q) := by
  rw [unrolled_one]
  exact Template.splits_slot hp.isPlainFront (isSlotTag_reference n) hq.isPlainFront.opener

theorem splits_selfReference :
    Template.Splits (selfReference n p q)
      (.definition (n.opening.block (unrolled n p q 1)) (n.opening.definition (unrolled n p q 1)) ::
        Template.slotPieces [] (reference n) n.slot []) := by
  have hclosing : ¬closingTag n.bytes <:+: unrolled n p q 1 := fun hoccurs =>
    slash_notMem_unrolled_one hp hq (hoccurs.subset (by simp [closingTag]))
  have hnewline : newline ∉ unrolled n p q 1 := fun hmem =>
    absurd (isBlank_of_mem_unrolled hp hq hmem) (by decide)
  have htext : Piece.blockText (unrolled n p q 1) = unrolled n p q 1 :=
    Spelling.BetweenNewlines.eq_blockText ⟨[], [], by simp, .inr ⟨rfl, fun hhead =>
      hnewline (List.mem_of_head? hhead)⟩, .inr ⟨rfl, fun hlast => hnewline (List.mem_of_getLast? hlast)⟩⟩
  have hslot := Template.splits_slot .nil (isSlotTag_reference n) IsPlainFront.nil.opener
  have hsplits := (n.opening.splits_block_iff hclosing).mpr ⟨_, hslot, rfl⟩
  rw [htext] at hsplits
  simpa [selfReference, Opening.block, Opening.body, Spelling.Name.opening, reference, unrolled_one] using hsplits

end

/-! ## What it becomes -/

namespace Session

variable {σ : Type} (s : Session σ)

/-- Where the block is in scope, a slot of its name has the value that the text of the block has one level
deeper. -/
theorem settled_substitute? (expand : Expander σ) {scope : Environment} {n : Name} {text r : Bytes}
    (hscope : scope[n.bytes]? = some (.ofValue (.text text)))
    (h : (expand scope text).Settled (.ok r)) :
    (s.substitute? expand scope n.slot).Settled (.ok (some r)) := by
  have hreferent : s.referent? scope n.slot = some (.ofValue (.text text)) :=
    s.referent?_of_getElem? hscope
  have hvalue : (s.valueOf expand scope n.slot (.ofValue (.text text))).Settled (.ok (.text r)) :=
    .bind (.pure scope) (.bind h (.pure _))
  rw [substitute?, resolveSlot, hreferent]
  have hcompute : n.slot.compute (.text r) = .ok (.text r) := rfl
  refine .bind (.tell_bind rfl (.bind hvalue (.pure _))) ?_
  dsimp only
  rw [hcompute]
  exact .bind (.pure (Value.text r)) (.pure _)

/-- Past the limit a template is taken as it is. -/
theorem settled_of_limit_lt {depth : Int} {env : Environment} (hnames : s.NamesFree depth env)
    (hdepth : s.limit < depth) (template : Bytes) : (s.render depth env template).Settled (.ok template) := by
  have hrenders := s.renders_render depth env template
  generalize s.render depth env template = x at hrenders
  cases hrenders with
  | refused _ hrefused => exact absurd hnames hrefused
  | blank => exact .pure template
  | passedThrough => exact .tell_bind rfl (.pure template)
  | unread _ _ _ hle => exact absurd hdepth (Int.not_lt.mpr hle)
  | opened hopens => exact absurd hdepth (Int.not_lt.mpr hopens.depth_le)

section

variable {n : Name} {p q : Bytes} (hp : IsInert p) (hq : IsInert q)
include hp hq

/-- A template of one such slot between the two texts has one more copy of both than what comes out of the
level below. -/
theorem settled_step {depth : Int} {scope : Environment} (hcheck : s.checkNames depth scope = pure ())
    (hdepth : depth ≤ s.limit) (hscope : scope[n.bytes]? = some (.ofValue (.text (unrolled n p q 1))))
    {copies : Nat} (h : (s.render (depth + 1) scope (unrolled n p q 1)).Settled (.ok (unrolled n p q copies))) :
    (s.render depth scope (unrolled n p q 1)).Settled (.ok (unrolled n p q (copies + 1))) := by
  have hbrace : openBrace ∈ unrolled n p q 1 := by simp [unrolled, reference, opener]
  have hslashes : ¬[slash, slash] <:+: unrolled n p q 1 := fun hoccurs =>
    slash_notMem_unrolled_one hp hq (hoccurs.subset (List.mem_cons_self ..))
  have hopener := hp.isPlainFront.opener
  rw [s.render_of_showsSlot hcheck hdepth hbrace hslashes (splits_unrolled_one hp hq)
    (Template.showsSlot_layout hopener hq.isPlainFront.opener _ _)
    (Template.bind_layout hopener _ _ s.isFunction scope)]
  have hnormal : normalize (p ++ (some (unrolled n p q copies)).getD (reference n) ++ q) =
      unrolled n p q (copies + 1) := by
    rw [Option.getD_some, ← unrolled_succ, normalize_unrolled hp hq]
  rw [← hnormal]
  exact .tell_bind rfl (.tell_bind rfl (.bind (s.settled_substitute? _ hscope h) (.pure _)))

/-- Induction on the levels that are left: with none left the block is taken as it is. -/
theorem settled_block {scope : Environment}
    (hscope : scope[n.bytes]? = some (.ofValue (.text (unrolled n p q 1)))) (levels : Nat) {depth : Int}
    (hdepth : 0 < depth) (hlevels : s.limit + 1 - depth = levels) :
    (s.render depth scope (unrolled n p q 1)).Settled (.ok (unrolled n p q (levels + 1))) := by
  have hne : depth ≠ 0 := Int.ne_of_gt hdepth
  induction levels generalizing depth with
  | zero =>
    exact s.settled_of_limit_lt (fun h => absurd h hne) (by omega) _
  | succ levels ih =>
    have hcheck : s.checkNames depth scope = pure () := by rw [checkNames, if_neg hne]
    have hbelow : (s.render (depth + 1) scope (unrolled n p q 1)).Settled
        (.ok (unrolled n p q (levels + 1))) := ih (by omega) (by omega) (by omega)
    exact s.settled_step hp hq hcheck (by omega) hscope hbelow

/-- A block that refers to itself is unrolled once for each level within the limit and once more beyond it,
where it is taken as it is. With no level at all the template is taken as it is. -/
theorem settled_selfReference (hname : s.isFunction n.bytes = false) :
    (∀ m : Nat, s.limit = m → (s.render 0 ∅ (selfReference n p q)).Settled
      (.ok ((List.replicate (m + 1) p).flatten ++ reference n ++ (List.replicate (m + 1) q).flatten))) ∧
    (s.limit < 0 → (s.render 0 ∅ (selfReference n p q)).Settled (.ok (selfReference n p q))) := by
  have hnames : s.NamesFree 0 ∅ := by simp [NamesFree]
  refine ⟨fun m hm => ?_, fun hlimit => s.settled_of_limit_lt hnames hlimit _⟩
  have hcheck : s.checkNames 0 ∅ = pure () := s.checkNames_of_forall (by simp) 0
  have hbrace : openBrace ∈ selfReference n p q := by simp [selfReference, reference, opener]
  have hnil := IsPlainFront.nil.opener
  let f := n.opening.definition (unrolled n p q 1)
  have hscope : ((∅ : Environment).insert f.name f.variable)[n.bytes]? =
      some (.ofValue (.text (unrolled n p q 1))) := Std.ExtTreeMap.getElem?_insert_self
  have hblock : (s.render (0 + 1) _ (unrolled n p q 1)).Settled (.ok (unrolled n p q (m + 1))) :=
    s.settled_block hp hq hscope m (by decide) (by omega)
  rw [s.render_of_showsSlot hcheck (by omega) hbrace (slashes_selfReference hp hq)
    (splits_selfReference hp hq) (Template.showsSlot_layout_definition hnil hnil _ _ _ f)
    (Template.bind_layout_definition hnil _ _ _ hname (by simp))]
  have hslot := s.settled_substitute? (s.render (0 + 1)) hscope hblock
  have hnormal : normalize ([] ++ (some (unrolled n p q (m + 1))).getD (reference n) ++ []) =
      unrolled n p q (m + 1) := by
    rw [Option.getD_some, List.nil_append, List.append_nil, normalize_unrolled hp hq]
  rw [← unrolled, ← hnormal]
  exact .tell_bind rfl (.tell_bind rfl (.bind hslot (.pure _)))

end

/-- Two levels within the limit, and none. -/
theorem settled_selfReference_of_two_levels :
    let n : Name := ⟨Bytes.ofString "n", by decide, by decide⟩
    let p := Bytes.ofString "(a"
    let q := Bytes.ofString ")"
    let template := Bytes.ofString "\x7b\x7bn\x7d\x7d(a\x7b\x7bn\x7d\x7d)\x7b\x7b/n\x7d\x7d\x7b\x7bn\x7d\x7d"
    let s (limit : Int) : Session Unit := { limit }
    IsInert p ∧ IsInert q ∧ selfReference n p q = template ∧ (∀ limit, (s limit).isFunction n.bytes = false) ∧
      ((s 2).render 0 ∅ template).Settled (.ok (Bytes.ofString "(a(a(a\x7b\x7bn\x7d\x7d)))")) ∧
      ((s (-1)).render 0 ∅ template).Settled (.ok template) := by
  intro n p q template s
  have hp : IsInert p := by decide
  have hq : IsInert q := by decide
  have htemplate : selfReference n p q = template := by decide
  have hname : (s 0).isFunction n.bytes = false := by decide +kernel
  refine ⟨hp, hq, htemplate, fun limit => hname, ?_, ?_⟩
  · rw [← htemplate]
    exact (settled_selfReference (s 2) hp hq hname).1 2 rfl
  · rw [← htemplate]
    exact (settled_selfReference (s (-1)) hp hq hname).2 (by decide)

end Session

end Stencil
