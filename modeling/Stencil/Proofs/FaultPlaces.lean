import Stencil.Proofs.ByteKinds
import Stencil.Proofs.Quotes
import Stencil.Proofs.TagContents

/-!
# Places of faults

The place of a fault is counted from the end of what is read, or it is the name of a tag. It lies in
what is read (`within_read`, for whole pieces `Piece.within_read`), so that the same fault is reported
under a greater offset when something stands in front (`Fault.movedBy_failure`). The name of a tag never looks
like an offset, as no blank is in it; but a closing tag that closes nothing may have any text for its name.
-/

namespace Stencil

/-- The failure is reported at this offset. The name of a closing tag that closes nothing is no offset, whatever
it looks like. -/
def Failure.AtOffset (f : Failure) (k : Nat) : Prop :=
  f.name = Bytes.ofString "offset " ++ Bytes.ofNat k ∧
    f.detail ≠ Bytes.ofString "closing tag without a matching block"

/-- The same failure when so many bytes stand in front of what could not be read: where it is reported at an
offset, the offset grows by that number, and where it is not, the name stays the same. -/
structure Failure.MovedBy (n : Nat) (before after : Failure) : Prop where
  kind : after.kind = before.kind
  detail : after.detail = before.detail
  name : (∃ k, before.AtOffset k ∧ after.AtOffset (k + n)) ∨
    (∀ k, ¬before.AtOffset k) ∧ after.name = before.name

namespace Fault

/-- A fault of so many bytes lies among them, or in a tag that is known by its name, in which there is no
blank; the name of a closing tag that closes nothing apart. -/
def Within (n : Nat) (f : Fault) : Prop :=
  match f.place with
  | .left k => k ≤ n ∧ f.reason ≠ .strayClosingTag
  | .name s => f.reason = .strayClosingTag ∨ ∀ b ∈ s, Ascii.isBlank b = false

theorem within_left {reason : Reason} {k n : Nat} (h : k ≤ n)
    (hreason : reason ≠ .strayClosingTag := by simp) : Within n ⟨reason, .left k⟩ := ⟨h, hreason⟩

theorem within_name (reason : Reason) {s : Bytes} (h : ∀ b ∈ s, Ascii.isBlank b = false) (n : Nat) :
    Within n ⟨reason, .name s⟩ := .inr h

theorem Within.mono {f : Fault} {m n : Nat} (h : f.Within m) (hle : m ≤ n) : f.Within n := by
  obtain ⟨reason, place⟩ := f
  cases place with
  | left k => exact h.imp_left (Nat.le_trans · hle)
  | name s => exact h

theorem Within.followedBy {f : Fault} {n : Nat} (h : f.Within n) (k : Nat) :
    (f.followedBy k).Within (n + k) := by
  obtain ⟨reason, place⟩ := f
  cases place with
  | left j => exact h.imp_left (Nat.add_le_add_right · k)
  | name s => exact h

theorem movedBy_failure {f : Fault} {n : Nat} (h : f.Within n) (k : Nat) :
    Failure.MovedBy k (f.failure n) (f.failure (k + n)) where
  kind := rfl
  detail := rfl
  name := by
    obtain ⟨reason, place⟩ := f
    cases place with
    | left j =>
      obtain ⟨hle, hreason⟩ : j ≤ n ∧ reason ≠ .strayClosingTag := h
      have hdetail := detail_ne (.inr rfl) hreason
      have hoffset : k + n - j = n - j + k := by omega
      exact .inl ⟨n - j, ⟨rfl, hdetail⟩, by simp only [failure, hoffset], hdetail⟩
    | name s =>
      refine .inr ⟨fun i hi => ?_, rfl⟩
      obtain ⟨hname, hdetail⟩ : s = Bytes.ofString "offset " ++ Bytes.ofNat i ∧ reason.detail ≠ _ := hi
      rcases h with hreason | hblank
      · exact hdetail (congrArg Reason.detail hreason)
      · have hmem : 0x20 ∈ s := by
          rw [hname]
          exact List.mem_append_left _ (by decide)
        exact absurd (hblank 0x20 hmem) (by decide)

/-- This holds of the fault, if this reading fails. -/
def AllFaults {α : Type} (P : Fault → Prop) (x : Except Fault α) : Prop := ∀ f, x = .error f → P f

namespace AllFaults

variable {α β : Type} {P : Fault → Prop}

theorem ok (a : α) : AllFaults P (.ok a) := fun _ h => nomatch h

theorem error {f : Fault} (h : P f) : AllFaults P (.error f : Except Fault α) :=
  fun _ hf => Except.error.inj hf ▸ h

theorem bind {x : Except Fault α} {g : α → Except Fault β} (hx : AllFaults P x)
    (hg : ∀ a, x = .ok a → AllFaults P (g a)) : AllFaults P (x >>= g) := by
  intro f hf
  rcases bind_eq_error.mp hf with hf | ⟨a, ha, hf⟩
  · exact hx f hf
  · exact hg a ha f hf

end AllFaults

/-- If this reading fails, then among so many bytes. -/
def AllWithin {α : Type} (n : Nat) (x : Except Fault α) : Prop := ∀ f, x = .error f → f.Within n

namespace AllWithin

variable {α β : Type} {n : Nat}

theorem ok (a : α) : AllWithin n (.ok a) := AllFaults.ok a

theorem error {f : Fault} (h : f.Within n) : AllWithin n (.error f : Except Fault α) := AllFaults.error h

theorem mono {x : Except Fault α} {m : Nat} (h : AllWithin m x) (hle : m ≤ n) : AllWithin n x :=
  fun f hf => (h f hf).mono hle

theorem bind {x : Except Fault α} {g : α → Except Fault β} (hx : AllWithin n x)
    (hg : ∀ a, x = .ok a → AllWithin n (g a)) : AllWithin n (x >>= g) := AllFaults.bind hx hg

end AllWithin

end Fault

open Fault (AllWithin within_left within_name)

/-! ## Tags -/

namespace Tag

open Bytes (trimStart)

theorem Aligned.length_le {s t : Bytes} (h : Aligned s t) : t.length ≤ s.length := by
  obtain ⟨before, rfl, -⟩ := h
  simp

theorem within_readLiteral (s : Bytes) : AllWithin s.length (readLiteral s) := by
  cases s with
  | nil => exact .error (within_left (Nat.le_refl 0))
  | cons b s =>
    by_cases hq : Ascii.isQuote b
    · rcases splitUnescaped_snd b true false s with hnil | ⟨rest, hrest⟩
      · rw [readLiteral_of_unclosed hq hnil]
        exact .error (within_left (Nat.zero_le _))
      · rw [readLiteral_of_closed hq (Prod.ext rfl hrest)]
        exact .ok _
    · by_cases hb : startsNumber b
      · cases hx : Numeral.read? (splitNumber (b :: s)).1 with
        | some x =>
          rw [readLiteral_of_number hb hx]
          exact .ok _
        | none =>
          have hlength := congrArg List.length (splitNumber_append (b :: s))
          rw [List.length_append] at hlength
          rw [readLiteral_of_badNumber hb hx]
          exact .error (within_left (by omega))
      · rw [readLiteral_of_neither hq hb]
        exact .error (within_left (Nat.le_refl _))

theorem within_readEntry (s : Bytes) : AllWithin s.length (readEntry s) := by
  by_cases hs : startsName s
  · by_cases heq : (trimStart (readName s).2).head? = some Ascii.equals
    · rw [readEntry_of_default hs heq]
      have hliteral := (within_readLiteral _).mono (aligned_default heq).length_le
      exact hliteral.bind fun _ _ => .ok _
    · rw [readEntry_of_name hs heq]
      exact .ok _
  · rw [readEntry_of_not_startsName hs]
    exact (within_readLiteral s).bind fun _ _ => .ok _

theorem within_readParams (s : Bytes) : AllWithin s.length (readParams s) := by
  induction s using params_induction with
  | nil s hnil =>
    rw [readParams_of_nil hnil]
    exact .error (within_left (Nat.zero_le _))
  | close s hclose =>
    rw [readParams_of_close hclose]
    exact .ok _
  | error s fault hs hp =>
    rw [readParams_of_error hs hp]
    exact .error ((within_readEntry _ fault hp).mono (Bytes.length_trimStart_le s))
  | more s p behind hs hp hcomma ih =>
    rw [readParams_of_entry hs hp, readMoreParams, if_pos hcomma]
    exact (ih.mono (aligned_more hp hcomma (by decide)).length_le).bind fun _ _ => .ok _
  | last s p behind hs hp hcomma =>
    rw [readParams_of_entry hs hp, readMoreParams, if_neg hcomma]
    split
    · exact .ok _
    · have hafter : Aligned s (trimStart behind) :=
        (Aligned.trimStart s).trans ((aligned_of_readEntry hp).trans (Aligned.trimStart behind))
      exact .error (within_left hafter.length_le)

/-- The name of a tag is made of the bytes of names. -/
theorem isBlank_of_header {body name after : Bytes} {raw : Bool} (h : Header body raw name after) :
    ∀ b ∈ name, Ascii.isBlank b = false := by
  have hname (s : Bytes) : ∀ b ∈ (readName s).1, Ascii.isBlank b = false := fun b hb =>
    isBlank_of_isNameByte b (List.all_eq_true.mp List.all_takeWhile b hb)
  cases h with
  | plain => exact hname _
  | raw => exact hname _

section

variable {name : Bytes} (hname : ∀ b ∈ name, Ascii.isBlank b = false)
include hname

theorem within_requireLiterals (params : List Param) (n : Nat) :
    AllWithin n (requireLiterals name params) := by
  intro fault h
  obtain ⟨p, -, -, rfl⟩ := requireLiterals_eq_error h
  exact within_name _ hname n

theorem within_readContent (s : Bytes) : AllWithin s.length (readContent name s) := by
  unfold readContent
  split
  · dsimp only
    split
    · rename_i hopen
      have hlist : Aligned s (trimStart (readName s).2).tail :=
        (Aligned.readName s).trans ((Aligned.trimStart _).trans (Aligned.tail hopen (by decide)))
      refine ((within_readParams _).mono hlist.length_le).bind fun _ _ => ?_
      exact (within_requireLiterals hname _ _).bind fun _ _ => .ok _
    · exact .error (within_name _ hname _)
  · exact (within_readLiteral s).bind fun _ _ => .ok _

theorem within_readDefinition (s : Bytes) : AllWithin s.length (readDefinition name s) := by
  refine ((within_readContent hname _).mono (Bytes.length_trimStart_le s)).bind fun _ _ => ?_
  dsimp only
  split
  · exact .ok _
  · exact .error (within_name _ hname _)

omit hname in
theorem within_readSlotParams (s : Bytes) : AllWithin s.length (readSlotParams s) := by
  unfold readSlotParams
  split
  · exact ((within_readParams s.tail).mono (by simp)).bind fun _ _ => .ok _
  · exact .ok _

theorem within_readOperation (s : Bytes) : AllWithin s.length (readOperation name s) := by
  unfold readOperation
  split
  · exact .ok _
  · have hlength : (trimStart s.tail).length ≤ s.length :=
      Nat.le_trans (Bytes.length_trimStart_le _) (by simp)
    refine ((within_readLiteral _).mono hlength).bind fun ⟨value, rest⟩ _ => ?_
    cases value with
    | text t => exact .error (within_name _ hname _)
    | number x =>
      dsimp only
      split
      · exact .error (within_name _ hname _)
      · exact .ok _

theorem within_readSlot (raw : Bool) (s : Bytes) : AllWithin s.length (readSlot raw name s) := by
  refine (within_readSlotParams s).bind fun ⟨params, rest⟩ hparams => ?_
  have hlength := (aligned_of_readSlotParams hparams).length_le
  refine ((within_readOperation hname rest).mono hlength).bind fun _ _ => ?_
  dsimp only
  split
  · exact .ok _
  · exact .error (within_name _ hname _)

end

/-- The two bytes more are the braces in front of the tag. -/
theorem within_read (body : Bytes) : AllWithin (body.length + 2) (read body) := by
  by_cases hheader : ∃ raw name after, Header body raw name after
  · obtain ⟨raw, name, after, hheader⟩ := hheader
    have hlength := (aligned_of_header hheader).length_le
    have hname := isBlank_of_header hheader
    rw [read_of_header hheader]
    split
    · exact (within_readDefinition hname _).mono (by rw [List.length_tail]; omega)
    · exact (within_readSlot hname raw after).mono (by omega)
  · obtain ⟨closed, hread | hread⟩ := read_of_not_header fun raw name after hh =>
      hheader ⟨raw, name, after, hh⟩
    · rw [hread]
      exact .error (.inl rfl)
    · rw [hread]
      exact .error (within_left (Nat.le_refl _))

end Tag

/-! ## Pieces -/

namespace Piece

theorem within_ofTag {body : Bytes} {t : Tag} (hread : Tag.read body = .ok t) (source after : Bytes) (n : Nat) :
    AllWithin n (ofTag source after t) := by
  cases t with
  | definition d => exact .ok _
  | slot s =>
    obtain ⟨raw, name, _, _, _, _, hheader, -, -, rfl⟩ := Tag.read_eq_slot hread
    simp only [ofTag]
    split
    · exact .ok _
    · exact (Tag.within_requireLiterals (Tag.isBlank_of_header hheader) _ n).bind fun _ _ => .ok _

theorem within_readTag (s : Bytes) : AllWithin (s.length + 2) (readTag s) := by
  unfold readTag
  split
  · exact .error (within_left (Nat.le_refl _))
  · rename_i body after hsplit
    have hlength := congrArg List.length (append_of_splitTag hsplit)
    simp only [List.length_append, show closer.length = 2 from rfl] at hlength
    split
    · rename_i fault hread
      refine .error (((Tag.within_read body fault hread).followedBy _).mono ?_)
      simp only [show closer.length = 2 from rfl]
      omega
    · rename_i hread
      exact within_ofTag hread _ _ _

theorem within_read (s : Bytes) : AllWithin s.length (read s) := by
  by_cases ho : opensTag s
  · obtain ⟨t, rfl⟩ := List.isPrefixOf_iff_prefix.mp ho
    rw [read_of_opensTag ho, List.drop_left]
    exact (within_readTag t).mono (by simp [opener])
  · rw [read_of_not_opensTag ho]
    exact .ok _

end Piece

end Stencil
