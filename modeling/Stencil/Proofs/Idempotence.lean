import Stencil.Proofs.LiteralText
import Stencil.Proofs.Normalization
import Stencil.Proofs.Outcome

/-!
# Rendering what was rendered

What a template becomes is blank, or the template itself where no level is left, or a text in its normal
form (`render_eq_ok`). A text in its normal form is its own normal form (`Bytes.normalForm_of_tidy`), a
text without openers is read as it stands (`parse_of_plain`), and one without two slashes in a row has no
comments. So plain output is rendered to itself, and nothing is called on the way. The main statement is
`render_plain_output`.
-/

namespace Stencil

open Ascii
open Piece (opener opensTag)

/-! ## Tidy texts -/

namespace Bytes

/-- A run of newlines is no longer than the longest row of newlines in the text. -/
theorem cutRun_of_mem_newlineRuns {s run : Bytes} (h : ¬List.replicate 3 newline <:+: s)
    (hrun : run ∈ newlineRuns s) : cutRun run = run := by
  refine if_neg fun hlong => h ?_
  have hinfix : run <:+: s := by
    have hflatten := List.infix_of_mem_flatten hrun
    rwa [newlineRuns, List.flatten_splitBy] at hflatten
  have hchain := List.isChain_of_mem_splitBy hrun
  match run with
  | a :: b :: c :: rest =>
    obtain ⟨⟨rfl, rfl⟩, ⟨-, rfl⟩, -⟩ :
        (a = newline ∧ b = newline) ∧ (b = newline ∧ c = newline) ∧ _ := by
      simpa [List.isChain_cons_cons] using hchain
    exact (List.prefix_append (List.replicate 3 newline) rest).isInfix.trans hinfix

theorem cutNewlines_eq_self {s : Bytes} (h : ¬List.replicate 3 newline <:+: s) : cutNewlines s = s := by
  have hmap : (newlineRuns s).map cutRun = newlineRuns s :=
    (List.map_congr_left fun run hrun => cutRun_of_mem_newlineRuns h hrun).trans (List.map_id _)
  rw [cutNewlines, List.flatMap_def, hmap, newlineRuns, List.flatten_splitBy]

theorem trim_eq_self {s : Bytes} (hhead : ∀ b ∈ s.head?, Ascii.isBlank b = false)
    (hlast : ∀ b ∈ s.getLast?, Ascii.isBlank b = false) : trim s = s := by
  have hstart : trimStart s = s := by
    cases s with
    | nil => rfl
    | cons b s => exact List.dropWhile_cons_of_neg (by simp [hhead b rfl])
  rw [trim, hstart]
  rcases List.eq_nil_or_concat s with rfl | ⟨u, b, rfl⟩
  · rfl
  · rw [List.concat_eq_append] at hlast ⊢
    exact List.rdropWhile_concat_neg _ _ _ (by simp [hlast b (by simp)])

/-- A tidy text is its own normal form. -/
theorem normalForm_of_tidy {s : Bytes} (h : Tidy s) : normalForm s = s := by
  rw [normalForm, trim_eq_self h.head h.last, cutNewlines_eq_self h.newlines]

end Bytes

theorem normalize_eq_normalForm (text : Bytes) : normalize text = Bytes.normalForm text :=
  Normalizer.content_write text

theorem normalize_normalize (text : Bytes) : normalize (normalize text) = normalize text := by
  rw [normalize_eq_normalForm, normalize_eq_normalForm,
    Bytes.normalForm_of_tidy (Bytes.tidy_normalForm text)]

/-! ## Plain texts -/

theorem escapeOpeners_eq_self {text : Bytes} (h : ¬opener <:+: text) : escapeOpeners text = text := by
  induction text using opener_induction with
  | nil => rfl
  | opener s _ => exact absurd (List.prefix_append opener s).isInfix h
  | cons b s hs ih =>
    rw [escapeOpeners_cons hs, ih fun hs' => h (hs'.trans (List.suffix_cons b s).isInfix)]

/-- A text without openers is read as it stands. -/
theorem parse_of_plain {text : Bytes} (hne : text ≠ []) (h : ¬opener <:+: text) :
    Template.parse text = .ok { text, sections := [.text ⟨0, text.length⟩] } := by
  have hparse := parse_escapeOpeners hne
  rwa [escapeOpeners_eq_self h] at hparse

/-! ## Rendering -/

namespace Session

variable {σ : Type} (s : Session σ)

/-- The template is blank, or no level is left for it. -/
def PassesThrough (depth : Int) (template : Bytes) : Prop :=
  Bytes.isBlank template ∨ s.limit < depth

theorem not_passesThrough_iff {depth : Int} {template : Bytes} :
    ¬s.PassesThrough depth template ↔ Bytes.isBlank template = false ∧ depth ≤ s.limit := by
  rw [PassesThrough, not_or, Bool.not_eq_true, Int.not_lt]

/-- What is passed through comes back as it is, and at most that is told. -/
theorem render_of_passesThrough {depth : Int} {env : Environment} (hnames : s.NamesFree depth env)
    {template : Bytes} (h : s.PassesThrough depth template) (w : World σ) :
    ∃ events, s.render depth env template w = ⟨.ok template, w, events⟩ ∧
      ∀ event ∈ events, event = .step s.debug (.passedThrough depth s.limit) := by
  have hrenders := s.renders_render depth env template
  generalize s.render depth env template = x at hrenders ⊢
  cases hrenders with
  | refused _ hrefused => exact absurd hnames hrefused
  | blank => exact ⟨[], rfl, by simp⟩
  | passedThrough => exact ⟨[.step s.debug (.passedThrough depth s.limit)], rfl, by simp⟩
  | unread _ _ hblank hdepth => exact absurd h (s.not_passesThrough_iff.mpr ⟨hblank, hdepth⟩)
  | opened hopens => exact absurd h (s.not_passesThrough_iff.mpr ⟨hopens.nonblank, hopens.depth_le⟩)

/-- What rendering at depth zero comes to: the names of the variables are no functions, and the template
is passed through or a normalized text comes out. -/
theorem render_eq_ok {env : Environment} {template out : Bytes} {w : World σ}
    (h : (s.render 0 env template w).result = .ok out) :
    s.NamesFree 0 env ∧ (s.PassesThrough 0 template ∧ out = template ∨ ∃ text, out = normalize text) := by
  have hrenders := s.renders_render 0 env template
  generalize s.render 0 env template = x at hrenders h
  cases hrenders with
  | refused => cases h
  | blank hnames hblank => exact ⟨hnames, .inl ⟨.inl hblank, (Except.ok.inj h).symm⟩⟩
  | passedThrough hnames _ hdepth => exact ⟨hnames, .inl ⟨.inr hdepth, (Except.ok.inj h).symm⟩⟩
  | unread => cases h
  | opened hopens =>
    rw [Action.result_tell_bind, Action.result_tell_bind] at h
    obtain ⟨text, -, h⟩ := Action.result_bind_eq_ok.mp h
    exact ⟨hopens.names, .inr ⟨text, (Action.result_pure_eq_ok.mp h).symm⟩⟩

/-- Plain output, which has no opener and no two slashes in a row, is rendered to itself in the
environment that it comes from, whatever the world has become: nothing is called for it, and nothing is
changed. -/
theorem render_plain_output {env : Environment} {template out : Bytes} {w : World σ}
    (h : (s.render 0 env template w).result = .ok out) (hopener : ¬opener <:+: out)
    (hslashes : ¬[slash, slash] <:+: out) (w' : World σ) :
    (s.render 0 env out w').result = .ok out ∧ (s.render 0 env out w').world = w' ∧
      ∀ name arguments, .called name arguments ∉ (s.render 0 env out w').events := by
  obtain ⟨hnames, hout⟩ := s.render_eq_ok h
  by_cases hpass : s.PassesThrough 0 out
  · obtain ⟨events, hrender, hevents⟩ := s.render_of_passesThrough hnames hpass w'
    rw [hrender]
    exact ⟨rfl, rfl, fun name arguments hcalled => nomatch hevents _ hcalled⟩
  · obtain ⟨hblank, hdepth⟩ := s.not_passesThrough_iff.mp hpass
    -- The template was not passed through, because neither is what it became.
    have hnormal : normalize out = out := by
      rcases hout with ⟨hpass', rfl⟩ | ⟨text, rfl⟩
      · exact absurd hpass' hpass
      · exact normalize_normalize text
    have hne : out ≠ [] := by
      rintro rfl
      cases hblank
    have hrender := s.render_of_parse (hnames rfl) hdepth hblank (Comment.strip_eq_self hslashes)
      (parse_of_plain hne hopener)
    have hrun : s.render 0 env out w' =
        ⟨.ok out, w', [.step s.debug (.reading 0 out), .step s.debug (.bound env.size 0)]⟩ := by
      rw [hrender]
      show Action.bind _ _ w' = _
      simp only [Action.bind, Session.note, Action.tell, s.renderDocumentWith_text, hnormal]
      rfl
    rw [hrun]
    exact ⟨rfl, rfl, fun name arguments hcalled => by simp at hcalled⟩

/-- A sum with blanks and newlines around it. -/
theorem render_plain_output_of_sum :
    let template := Bytes.ofString " \x7b\x7bn = 1\x7d\x7d\x7b\x7bn + 1\x7d\x7d\n\n\n\n\\\x7bb/\t"
    let out := Bytes.ofString "2\n\n\\\x7bb/"
    let w : World Unit := { disk := .empty, host := () }
    (render {} 0 ∅ template w).result = .ok out ∧ ¬opener <:+: out ∧ ¬[slash, slash] <:+: out ∧
      (render {} 0 ∅ out w).result = .ok out := by
  intro template out w
  have h : (render {} 0 ∅ template w).result = .ok out := by decide +kernel
  have hopener : ¬opener <:+: out := by decide
  have hslashes : ¬[slash, slash] <:+: out := by decide
  exact ⟨h, hopener, hslashes, (render_plain_output {} h hopener hslashes w).1⟩

end Session

end Stencil
