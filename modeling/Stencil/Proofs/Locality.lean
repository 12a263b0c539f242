import Stencil.Proofs.Occurrences
import Stencil.Proofs.Quoting
import Stencil.Proofs.TagContents

/-!
# What a piece depends on

A piece is read in view of everything that follows it: a tag opens a block only if its closing tag
stands anywhere behind it, and a run of plain text ends where the next tag begins. Still the piece stays
the same if what follows is cut off behind another piece (`Reads.cut`). Each of the scanners is
shown to find the same place again in a source that goes on differently: the search for a closing tag
finds the first one (`splitAround?_eq_some_iff`), and the search for the end of a tag sees nothing behind
it (`splitTag_append_of`).
-/

namespace Stencil

namespace Piece

/-! ## The end of a tag -/

/-- The end of a tag is found again whatever follows it. -/
theorem splitTag_append_of {state : Quoting} {s body after : Bytes}
    (h : splitTag state s = some (body, after)) (more : Bytes) :
    splitTag state (body ++ closer ++ more) = some (body, more) := by
  fun_induction splitTag state s generalizing body with
  | case1 => cases h
  | case2 state b rest hc =>
    obtain ⟨rfl, -⟩ : [] = body ∧ _ = after := by simpa using h
    exact if_pos ⟨hc.1, rfl⟩
  | case3 state b rest hc ih =>
    obtain ⟨⟨x, y⟩, hxy, he⟩ := Option.map_eq_some_iff.mp h
    obtain ⟨rfl, rfl⟩ : b :: x = body ∧ y = after := by simpa using he
    have hlength : closer.length ≤ (b :: (x ++ closer)).length := by simp; omega
    -- The two bytes that are looked at belong to the tag.
    have hsame (t : Bytes) : closer.isPrefixOf (b :: (x ++ closer ++ t)) ↔ closer <+: b :: (x ++ closer) := by
      rw [← List.cons_append, List.isPrefixOf_iff_prefix, Bytes.isPrefix_append_iff hlength]
    refine splitTag_cons (fun hclosed => hc ⟨hclosed.1, ?_⟩) (ih hxy)
    rw [← append_of_splitTag hxy]
    exact (hsame y).mpr ((hsame more).mp hclosed.2)

/-! ## The end of a run of plain text -/

theorem opensTag_of_isPrefix {s t : Bytes} (h : s <+: t) (hs : opensTag s) : opensTag t :=
  List.isPrefixOf_iff_prefix.mpr ((List.isPrefixOf_iff_prefix.mp hs).trans h)

theorem take_prefix_splitText (n : Nat) (s : Bytes) : s.take n <+: (splitText n s).1 := by
  fun_induction splitText n s with
  | case1 n => simp
  | case2 n b rest x y heq ih => simpa [heq] using ih
  | case3 b rest hopens => simp
  | case4 b rest hopens hidden x y heq ih => simp

/-- A run of plain text ends at the same place in front of the beginning of a tag, and at the end. -/
theorem splitText_append_of {n : Nat} {s more : Bytes} (hmore : more <+: (splitText n s).2)
    (ho : more = [] ∨ opensTag more) :
    splitText n ((splitText n s).1 ++ more) = ((splitText n s).1, more) := by
  fun_induction splitText n s with
  | case1 n => rw [List.prefix_nil.mp hmore, List.append_nil, splitText]
  | case2 n b rest x y heq ih =>
    rw [heq] at ih
    simp only [List.cons_append, splitText, ih hmore]
  | case3 b rest hopens =>
    rcases ho with rfl | ho
    · rfl
    · obtain ⟨c, t, rfl⟩ : ∃ c t, more = c :: t := List.exists_cons_of_ne_nil (by rintro rfl; cases ho)
      rw [List.nil_append, splitText, if_pos ho]
  | case4 b rest hopens hidden x y heq ih =>
    rw [heq] at ih
    have hrest : x ++ y = rest := by
      have happend := append_splitText hidden rest
      rwa [heq] at happend
    have hprefix : x ++ more <+: rest := hrest ▸ (List.prefix_append_right_inj x).mpr hmore
    have hnot : ¬opensTag (b :: (x ++ more)) := fun hopens' =>
      hopens (opensTag_of_isPrefix ((List.prefix_cons_inj b).mpr hprefix) hopens')
    -- An opener behind a backslash is hidden, so that it is still there when what follows is cut off.
    have hhidden : (if b = Ascii.backslash ∧ opensTag (x ++ more) then opener.length else 0) = hidden := by
      refine if_congr (and_congr_right fun hb => ⟨opensTag_of_isPrefix hprefix, fun hopens' => ?_⟩) rfl rfl
      have hlength : hidden = opener.length := if_pos ⟨hb, hopens'⟩
      have htake : opener <+: x := by
        have hx := take_prefix_splitText hidden rest
        rwa [heq, hlength, take_of_opensTag hopens'] at hx
      exact List.isPrefixOf_iff_prefix.mpr (htake.trans (List.prefix_append x more))
    simp only [List.cons_append, splitText, if_neg hnot, hhidden, ih hmore]

/-! ## Blocks -/

/-- A tag that opens a block if its closing tag follows. -/
def CanOpen (s : Slot) : Prop := !s.raw ∧ s.operation = none ∧ s.params.all (!·.name.isEmpty)

theorem splitBlock?_eq_some_iff {s : Slot} {after body rest : Bytes} :
    splitBlock? s after = some (body, rest) ↔
      CanOpen s ∧ body ++ (closingTag s.name ++ rest) = after ∧
        Bytes.FirstBehind (closingTag s.name) body := by
  rw [← Bytes.splitAround?_eq_some_iff, splitBlock?]
  split
  · rename_i hopen
    exact ⟨fun h => ⟨hopen, h⟩, fun h => h.2⟩
  · rename_i hopen
    exact iff_of_false (by simp) fun h => hopen h.1

/-- Where no closing tag follows, none follows in a part of it. -/
theorem splitBlock?_eq_none_of_isPrefix {s : Slot} {after more : Bytes} (hmore : more <+: after)
    (h : splitBlock? s after = none) : splitBlock? s more = none := by
  rw [splitBlock?] at h ⊢
  split
  · rename_i hopen
    rw [if_pos hopen, Bytes.splitAround?_eq_none_iff] at h
    rw [Bytes.splitAround?_eq_none_iff]
    exact fun hoccurs => h (hoccurs.trans hmore.isInfix)
  · rfl

/-! ## Pieces -/

theorem OfTag.ofTag_eq {source after rest : Bytes} {t : Tag} {p : Piece} (h : OfTag source after t p rest) :
    ofTag source after t = .ok (p, rest) := by
  cases h with
  | definition d => rfl
  | block hblock => simp only [ofTag, hblock]
  | slot hblock hparams =>
    simp only [ofTag, hblock, Tag.requireLiterals_eq_ok_iff.mpr hparams]
    rfl

theorem Reads.read_eq {s rest : Bytes} {p : Piece} (h : Reads s p rest) : read s = .ok (p, rest) := by
  cases h with
  | text h => exact read_of_not_opensTag h
  | tag hsplit hread hof =>
    rename_i body after t
    have hopens : opensTag (opener ++ (body ++ closer ++ after)) :=
      List.isPrefixOf_iff_prefix.mpr (List.prefix_append ..)
    rw [show opener ++ body ++ closer ++ after = opener ++ (body ++ closer ++ after) by simp,
      read_of_opensTag hopens, List.drop_left, readTag, hsplit]
    simp only [hread]
    exact hof.ofTag_eq

/-- A piece stays the same when what follows it is cut off; but a run of plain text must not be made to
go on, so that nothing is left behind it or a tag. -/
theorem Reads.cut {s more beyond : Bytes} {p : Piece} (h : Reads s p (more ++ beyond))
    (ho : p.isText → more = [] ∨ opensTag more) : Reads (p.source ++ more) p more := by
  generalize hrest : more ++ beyond = rest at h
  have hmore : more <+: rest := hrest ▸ List.prefix_append more beyond
  cases h with
  | text hnot =>
    have hcut := splitText_append_of hmore (ho rfl)
    have hprefix : (splitText 0 s).1 ++ more <+: s := by
      conv_rhs => rw [← append_splitText 0 s]
      exact (List.prefix_append_right_inj _).mpr hmore
    have htext := Reads.text fun hopens => hnot (opensTag_of_isPrefix hprefix hopens)
    rwa [hcut] at htext
  | tag hsplit hread hof =>
    cases hof with
    | definition d => exact .tag (splitTag_append_of hsplit more) hread (.definition d)
    | slot hblock hparams =>
      exact .tag (splitTag_append_of hsplit more) hread
        (.slot (splitBlock?_eq_none_of_isPrefix hmore hblock) hparams)
    | block hblock =>
      rename_i body after slot content
      obtain ⟨hopen, -, hfirst⟩ := splitBlock?_eq_some_iff.mp hblock
      have hcut : splitBlock? slot (content ++ (closingTag slot.name ++ more)) = some (content, more) :=
        splitBlock?_eq_some_iff.mpr ⟨hopen, rfl, hfirst⟩
      have htag := Reads.tag (splitTag_append_of hsplit _) hread (.block hcut)
      rwa [show opener ++ body ++ closer ++ (content ++ (closingTag slot.name ++ more)) =
        opener ++ body ++ closer ++ content ++ closingTag slot.name ++ more by simp] at htag

end Piece

end Stencil
