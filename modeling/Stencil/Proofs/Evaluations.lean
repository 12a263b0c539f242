import Stencil.Render

/-!
# How templates are rendered

Rendering a template at a depth comes to one of five things (`Session.Renders`): its names are refused, it
is blank or passed through, it cannot be taken apart, or it is taken apart into a document whose slots are
filled in (`Session.Opens`). The main statement is `Session.renders_render`.
-/

namespace Stencil.Session

variable {σ : Type} (s : Session σ)

/-! ## Parts of an evaluation -/

theorem checkNames_of_forall {env : Environment} (h : ∀ name ∈ env, s.isFunction name = false)
    (depth : Int) : s.checkNames depth env = pure () := by
  have hfind : env.keys.find? s.isFunction = none := by
    rw [List.find?_eq_none]
    intro name hname
    simp [h name (Std.ExtTreeMap.mem_keys.mp hname)]
  rw [checkNames, hfind, ite_self]

theorem levelsAt_of_le {depth : Int} (h : depth ≤ s.limit) :
    s.levelsAt depth = s.levelsAt (depth + 1) + 1 := by
  unfold levelsAt
  omega

/-- Where a name is refused, the template does not count. -/
theorem render_of_refused {depth : Int} {env : Environment} {failure : Failure}
    (hnames : s.checkNames depth env = Action.fail failure) (template : Bytes) :
    s.render depth env template = Action.fail failure := by
  rw [render]
  cases s.levelsAt depth with
  | zero => rw [renderNested, hnames]; rfl
  | succ levels => rw [renderNested, hnames]; rfl

/-- What is not blank is read at every depth within the limit, its comments aside. -/
theorem render_of_strip {depth : Int} {env : Environment} (hnames : s.checkNames depth env = pure ())
    (hdepth : depth ≤ s.limit) {template : Bytes} (hblank : Bytes.isBlank template = false) {d : Document}
    (hd : Template.parse (Comment.strip template) = .ok d) :
    s.render depth env template = (do
      s.note (.reading depth (Comment.strip template))
      s.renderDocumentWith (s.render (depth + 1)) depth env d) := by
  rw [render, s.levelsAt_of_le hdepth, renderNested, hnames, pure_bind, hblank,
    if_neg Bool.false_ne_true]
  simp only [hd]
  rfl

/-- What follows once the definitions of a document are bound. -/
theorem renderDocumentWith_of_bind (expand : Expander σ) (depth : Int) {env bound : Environment}
    {d : Document} (h : env.bind s.isFunction d.sections = .ok bound) :
    s.renderDocumentWith expand depth env d = do
      s.note (.bound bound.size depth)
      let text ← d.slotsFromEnd.foldlM (s.fillSlot expand bound) d.text
      return normalize text := by
  have hbind : s.bind env d = pure bound := by rw [Session.bind, h]; rfl
  rw [renderDocumentWith, hbind, pure_bind]

/-! ## The whole of it -/

/-- At depth zero no variable has the name of a function. -/
def NamesFree (depth : Int) (env : Environment) : Prop :=
  depth = 0 → ∀ name ∈ env, s.isFunction name = false

/-- At this depth the template is taken apart into this document, and the slots of the document are
resolved in this scope. -/
structure Opens (depth : Int) (env : Environment) (template : Bytes) (d : Document) (scope : Environment) :
    Prop where
  names : s.NamesFree depth env
  nonblank : Bytes.isBlank template = false
  depth_le : depth ≤ s.limit
  parse : Template.parse (Comment.strip template) = .ok d
  bind : env.bind s.isFunction d.sections = .ok scope

/-- What rendering a template at a depth can come to. -/
inductive Renders (depth : Int) (env : Environment) (template : Bytes) : Action σ Bytes → Prop
  | refused (failure : Failure) (hnames : ¬s.NamesFree depth env) :
    Renders depth env template (Action.fail failure)
  | blank (hnames : s.NamesFree depth env) (hblank : Bytes.isBlank template) :
    Renders depth env template (pure template)
  | passedThrough (hnames : s.NamesFree depth env) (hblank : Bytes.isBlank template = false)
      (hdepth : s.limit < depth) :
    Renders depth env template (do
      s.note (.passedThrough depth s.limit)
      return template)
  | unread (failure : Failure) (hnames : s.NamesFree depth env) (hblank : Bytes.isBlank template = false)
      (hdepth : depth ≤ s.limit)
      (hread : ∀ d, Template.parse (Comment.strip template) = .ok d → ∀ scope,
        env.bind s.isFunction d.sections ≠ .ok scope) :
    Renders depth env template (do
      s.note (.reading depth (Comment.strip template))
      Action.fail failure)
  | opened {d : Document} {scope : Environment} (h : s.Opens depth env template d scope) :
    Renders depth env template (do
      s.note (.reading depth (Comment.strip template))
      s.note (.bound scope.size depth)
      let text ← d.slotsFromEnd.foldlM (s.fillSlot (s.render (depth + 1)) scope) d.text
      return normalize text)

theorem checkNames_cases (depth : Int) (env : Environment) :
    (s.NamesFree depth env ∧ s.checkNames depth env = pure ()) ∨
      ¬s.NamesFree depth env ∧ ∃ failure, s.checkNames depth env = Action.fail failure := by
  by_cases hdepth : depth = 0
  · cases hfind : env.keys.find? s.isFunction with
    | some name =>
      refine .inr ⟨fun hnames => ?_, _, by rw [checkNames, if_pos hdepth, hfind]⟩
      have hname := hnames hdepth name (Std.ExtTreeMap.mem_keys.mp (List.mem_of_find?_eq_some hfind))
      simp [List.find?_some hfind] at hname
    | none =>
      refine .inl ⟨fun _ name hname => ?_, by rw [checkNames, if_pos hdepth, hfind]⟩
      simpa using List.find?_eq_none.mp hfind name (Std.ExtTreeMap.mem_keys.mpr hname)
  · exact .inl ⟨fun h => absurd h hdepth, by rw [checkNames, if_neg hdepth]⟩

/-- What is done where a template is within the limit and its names are not refused. -/
theorem renders_of_le {depth : Int} {env : Environment} (hnames : s.NamesFree depth env)
    (hcheck : s.checkNames depth env = pure ()) (hdepth : depth ≤ s.limit) {template : Bytes}
    (hblank : Bytes.isBlank template = false) :
    s.Renders depth env template (s.render depth env template) := by
  cases hparse : Template.parse (Comment.strip template) with
  | error failure =>
    have hrender : s.render depth env template = (do
        s.note (.reading depth (Comment.strip template))
        Action.fail failure) := by
      rw [render, s.levelsAt_of_le hdepth, renderNested, hcheck, pure_bind, hblank,
        if_neg Bool.false_ne_true]
      simp only [hparse]
      rfl
    rw [hrender]
    exact .unread failure hnames hblank hdepth fun d hd => nomatch hparse.symm.trans hd
  | ok d =>
    rw [s.render_of_strip hcheck hdepth hblank hparse]
    cases hbind : env.bind s.isFunction d.sections with
    | error failure =>
      have hfail : s.bind env d = Action.fail failure.1 := by rw [Session.bind, hbind]; rfl
      rw [renderDocumentWith, hfail]
      refine .unread failure.1 hnames hblank hdepth fun d' hd scope hscope => ?_
      obtain rfl : d = d' := Except.ok.inj (hparse.symm.trans hd)
      exact nomatch hbind.symm.trans hscope
    | ok scope =>
      rw [s.renderDocumentWith_of_bind _ depth hbind]
      exact .opened ⟨hnames, hblank, hdepth, hparse, hbind⟩

theorem renders_render (depth : Int) (env : Environment) (template : Bytes) :
    s.Renders depth env template (s.render depth env template) := by
  rcases s.checkNames_cases depth env with ⟨hnames, hcheck⟩ | ⟨hnames, failure, hcheck⟩
  · cases hblank : Bytes.isBlank template with
    | true =>
      have hrender : s.render depth env template = pure template := by
        rw [render]
        cases s.levelsAt depth with
        | zero => rw [renderNested, hcheck, pure_bind, if_pos hblank]
        | succ levels => rw [renderNested, hcheck, pure_bind, if_pos hblank]
      rw [hrender]
      exact .blank hnames hblank
    | false =>
      by_cases hdepth : depth ≤ s.limit
      · exact s.renders_of_le hnames hcheck hdepth hblank
      · have hlevels : s.levelsAt depth = 0 := by
          unfold levelsAt
          omega
        rw [render, hlevels, renderNested, hcheck, pure_bind, hblank, if_neg Bool.false_ne_true]
        exact .passedThrough hnames hblank (Int.not_le.mp hdepth)
  · rw [s.render_of_refused hcheck]
    exact .refused failure hnames

end Stencil.Session
