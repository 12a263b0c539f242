import Mathlib.Data.List.Basic
import Stencil.Proofs.Effects

/-!
# The first reading of a file counts

A session can be used for any number of evaluations, and between them the disk can change (`Session.Step`).
No step takes anything out of the cache or changes what is in there (`Step.kept`), and what is new in the
cache was on the disk when the step began (`Step.fresh`); both go over to whole runs (`kept_run`,
`fresh_run`). The main statement is `first_reading_counts`.
-/

namespace Stencil

/-- What can happen to the files of a disk from outside: a new file, in the place of another one or not, a
new directory, and the removal of either. -/
inductive Disk.Change where
  | putFile (path content : Bytes)
  | putDirectory (path : Bytes)
  | remove (path : Bytes)

def Disk.Change.apply (d : Disk) : Change → Disk
  | putFile path content => d.putFile path content
  | putDirectory path => d.putDirectory path
  | remove path => d.remove path

namespace Session

/-- What can be done with a session, and what can happen to the disk in the meantime. -/
inductive Step where
  | render (depth : Int) (env : Environment) (template : Bytes)
  | call (name : Bytes) (arguments : List Value)
  | read (path : Bytes)
  | list (path : Bytes)
  | check (path : Bytes)
  | change (c : Disk.Change)

/-- Does the step leave the session alone? -/
def Step.isChange : Step → Bool
  | change _ => true
  | _ => false

variable {σ : Type}

/-- The world after a step. -/
def step (s : Session σ) (w : World σ) : Step → World σ
  | .render depth env template => (s.render depth env template w).world
  | .call name arguments => (s.callNamed name arguments w).world
  | .read path => (s.read path w).world
  | .list path => (s.list path w).world
  | .check path => (s.status path w).world
  | .change c => { w with disk := c.apply w.disk }

/-- The world after steps in this order. -/
def run (s : Session σ) (w : World σ) (steps : List Step) : World σ := steps.foldl s.step w

/-! ## One step -/

theorem step_cases (s : Session σ) (w : World σ) (step : Step) :
    (step.isChange ∧ (s.step w step).cache = w.cache) ∨ (!step.isChange ∧ w.Reads (s.step w step)) := by
  cases step with
  | render depth env template => exact .inr ⟨rfl, s.keeps_reads.render depth env template w⟩
  | call name arguments => exact .inr ⟨rfl, s.keeps_reads.callNamed name arguments w⟩
  | read path => exact .inr ⟨rfl, s.reads_read path w⟩
  | list path => exact .inr ⟨rfl, s.keeps_reads.list path w⟩
  | check path => exact .inr ⟨rfl, s.keeps_reads.status path w⟩
  | change c => exact .inl ⟨rfl, rfl⟩

theorem kept_step (s : Session σ) {w : World σ} {key content : Bytes} (h : w.cache[key]? = some content)
    (step : Step) : (s.step w step).cache[key]? = some content := by
  rcases s.step_cases w step with ⟨-, hcache⟩ | ⟨-, hreads⟩
  · rwa [hcache]
  · exact hreads.kept h

/-! ## Runs -/

theorem kept_run (s : Session σ) {w : World σ} {key content : Bytes} (h : w.cache[key]? = some content)
    (steps : List Step) : (s.run w steps).cache[key]? = some content := by
  induction steps generalizing w with
  | nil => exact h
  | cons step steps ih => exact ih (s.kept_step h step)

/-- What is new in the cache after a run was on the disk when some step of the session began. -/
theorem fresh_run (s : Session σ) {w : World σ} {steps : List Step} {key content : Bytes}
    (h : (s.run w steps).cache[key]? = some content) (hnone : w.cache[key]? = none) :
    ∃ before step after, steps = before ++ step :: after ∧ !step.isChange ∧
      (s.run w before).disk.read key = .ok content := by
  induction steps generalizing w with
  | nil => exact nomatch hnone.symm.trans h
  | cons step steps ih =>
    cases hstep : (s.step w step).cache[key]? with
    | none =>
      obtain ⟨before, step', after, rfl, hchange, hread⟩ := ih h hstep
      exact ⟨step :: before, step', after, rfl, hchange, hread⟩
    | some content' =>
      obtain rfl : content' = content := Option.some.inj ((s.kept_run hstep steps).symm.trans h)
      refine ⟨[], step, steps, rfl, ?_⟩
      rcases s.step_cases w step with ⟨-, hcache⟩ | ⟨hchange, hreads⟩
      · rw [hcache, hnone] at hstep
        cases hstep
      · rcases hreads.fresh hstep with hold | hread
        · exact nomatch hnone.symm.trans hold
        · exact ⟨hchange, hread⟩

/-! ## Reading again -/

theorem read_of_cached (s : Session σ) {w : World σ} {path content : Bytes}
    (h : w.cache[s.resolve path]? = some content) : (s.read path w).result = .ok (some content) := by
  rcases s.read_cases path w with
    ⟨content', hcache, hread⟩ | ⟨hnone, -, -, -⟩ | ⟨hnone, -, -, -⟩
  · rw [hread, Option.some.inj (hcache.symm.trans h)]
  · exact nomatch hnone.symm.trans h
  · exact nomatch hnone.symm.trans h

theorem read_of_not_cached (s : Session σ) {w : World σ} {path content : Bytes}
    (hnone : w.cache[s.resolve path]? = none) (h : w.disk.read (s.resolve path) = .ok content) :
    (s.read path w).result = .ok (some content) := by
  rcases s.read_cases path w with
    ⟨content', hcache, -⟩ | ⟨-, content', hdisk, hread⟩ | ⟨-, event, hdisk, -⟩
  · exact nomatch hnone.symm.trans hcache
  · rw [hread, Except.ok.inj (hdisk.symm.trans h)]
  · exact nomatch hdisk.symm.trans h

theorem cached_of_read (s : Session σ) {w : World σ} {path content : Bytes}
    (h : (s.read path w).result = .ok (some content)) :
    (s.read path w).world.cache[s.resolve path]? = some content := by
  rcases s.read_cases path w with
    ⟨content', hcache, hread⟩ | ⟨-, content', -, hread⟩ | ⟨-, event, -, hread⟩
  · rw [hread] at h ⊢
    cases h
    exact hcache
  · rw [hread] at h ⊢
    cases h
    exact Std.ExtTreeMap.getElem?_insert_self
  · rw [hread] at h
    cases h

theorem read_eq_none (s : Session σ) {w : World σ} {path : Bytes}
    (h : (s.read path w).result = .ok none) :
    (s.read path w).world = w ∧ w.cache[s.resolve path]? = none := by
  rcases s.read_cases path w with
    ⟨content', -, hread⟩ | ⟨-, content', -, hread⟩ | ⟨hnone, event, -, hread⟩
  · rw [hread] at h
    cases h
  · rw [hread] at h
    cases h
  · rw [hread]
    exact ⟨rfl, hnone⟩

/-- Once a file was read, under whatever path and in whatever evaluation, it is read with the same
content under every path that comes to the same, whatever happens to the disk and in the session. A file
that cannot be read leaves the session as it is, and is read as soon as it is there: with the content that
it has, or that it had when a step of the session read it before. Nothing that is in the cache is changed
or lost in any step. Functions of the host neither read files nor see the cache (`HostFunction`). -/
theorem first_reading_counts (s : Session σ) (w : World σ) :
    (∀ path content, (s.read path w).result = .ok (some content) →
      ∀ steps again, s.resolve again = s.resolve path →
        (s.read again (s.run (s.read path w).world steps)).result = .ok (some content)) ∧
    (∀ path, (s.read path w).result = .ok none → (s.read path w).world = w ∧
      ∀ steps content, (s.run w steps).disk.read (s.resolve path) = .ok content →
        ∃ found, (∀ again, s.resolve again = s.resolve path →
            (s.read again (s.run w steps)).result = .ok (some found)) ∧
          (found = content ∨ ∃ before step after, steps = before ++ step :: after ∧ !step.isChange ∧
            (s.run w before).disk.read (s.resolve path) = .ok found)) ∧
    (∀ key content, w.cache[key]? = some content →
      (∀ step, (s.step w step).cache[key]? = some content) ∧
      ∀ steps path, s.resolve path = key →
        (s.read path (s.run w steps)).result = .ok (some content)) := by
  refine ⟨fun path content h steps again hagain => ?_, fun path h => ?_, fun key content h => ?_⟩
  · refine s.read_of_cached ?_
    rw [hagain]
    exact s.kept_run (s.cached_of_read h) steps
  · obtain ⟨hworld, hnone⟩ := s.read_eq_none h
    refine ⟨hworld, fun steps content hdisk => ?_⟩
    cases hcache : (s.run w steps).cache[s.resolve path]? with
    | none =>
      refine ⟨content, fun again hagain => ?_, .inl rfl⟩
      exact s.read_of_not_cached (hagain ▸ hcache) (hagain ▸ hdisk)
    | some found =>
      refine ⟨found, fun again hagain => ?_, .inr (s.fresh_run hcache hnone)⟩
      exact s.read_of_cached (hagain ▸ hcache)
  · refine ⟨s.kept_step h, fun steps path hpath => ?_⟩
    exact s.read_of_cached (hpath ▸ s.kept_run h steps)

/-- A file that is replaced and then removed, and one that is made after it was looked for. -/
theorem first_reading_counts_of_replaced :
    let s : Session Unit := { base := Bytes.ofString "/work" }
    let w : World Unit :=
      { disk := Disk.empty.putFile (Bytes.ofString "a") (Bytes.ofString "1"), host := () }
    let replaced : List Step :=
      [.change (.putFile (Bytes.ofString "a") (Bytes.ofString "2")),
        .render 0 ∅ (Bytes.ofString "\x7b\x7bload('a', 'b')\x7d\x7d"), .change (.remove (Bytes.ofString "a"))]
    let made : List Step := [.change (.putFile (Bytes.ofString "b") (Bytes.ofString "3"))]
    ((s.read (Bytes.ofString "a") w).result = .ok (some (Bytes.ofString "1")) ∧
      (s.read (Bytes.ofString "/work/a")
        (s.run (s.read (Bytes.ofString "a") w).world replaced)).result =
          .ok (some (Bytes.ofString "1"))) ∧
    ((s.read (Bytes.ofString "b") w).result = .ok none ∧
      ∃ found, (s.read (Bytes.ofString "b") (s.run w made)).result = .ok (some found)) := by
  intro s w replaced made
  have hread : (s.read (Bytes.ofString "a") w).result = .ok (some (Bytes.ofString "1")) ∧
      (s.read (Bytes.ofString "b") w).result = .ok none ∧
      (s.run w made).disk.read (s.resolve (Bytes.ofString "b")) = .ok (Bytes.ofString "3") := by
    decide +kernel
  obtain ⟨ha, hb, hmade⟩ := hread
  have hresolve : s.resolve (Bytes.ofString "/work/a") = s.resolve (Bytes.ofString "a") := by decide
  obtain ⟨found, hfound, -⟩ := ((first_reading_counts s w).2.1 _ hb).2 made _ hmade
  exact ⟨⟨ha, (first_reading_counts s w).1 _ _ ha replaced _ hresolve⟩, hb, found, hfound _ rfl⟩

end Session

end Stencil
