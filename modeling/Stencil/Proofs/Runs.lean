import Stencil.Program
import Stencil.Proofs.DiskPaths
import Stencil.Proofs.Effects

/-!
# How a run of the program goes

A run ends where the first thing fails, or with the output (`Program.Runs`). The template, the variables
and the rendering only read from the disk (`Program.disk_rendering`), so that nothing is changed before the
output is opened; and where the output cannot be opened, only directories are new. The main statement is
`failed_run_keeps_files`.
-/

namespace Stencil

/-- Building the variables of a command line changes nothing. -/
theorem Options.reads_allVariables (o : Options) (json : JsonReader) :
    Action.Moves World.Reads _ (o.allVariables json) := by
  have hclosed := World.Reads.closed Unit
  have hdocument : Action.Moves World.Reads _ (o.jsonVariables json) := by
    unfold jsonVariables
    split
    · refine hclosed.bind hclosed.world fun w => ?_
      split
      · exact hclosed.ofExcept _
      · exact hclosed.bind (hclosed.tell _) fun _ => hclosed.fail _
    · split
      · exact hclosed.ofExcept _
      · exact hclosed.pure _
  exact hclosed.bind hdocument fun env =>
    hclosed.bind (hclosed.forM fun _ _ => hclosed.tell _) fun _ => hclosed.pure _

namespace Program

variable (conditions : Conditions)

/-- Rendering a template with the variables of a command line, on a disk that nothing was read from before. -/
def rendering (o : Options) (text : Bytes) (disk : Disk) : Outcome Unit Bytes :=
  rendered o conditions.json text { disk, host := (), draws := conditions.draws }

/-- What the template becomes. -/
def result (o : Options) (text : Bytes) (disk : Disk) : Except Failure Bytes :=
  (rendering conditions o text disk).result

theorem disk_rendering (o : Options) (text : Bytes) (disk : Disk) :
    (rendering conditions o text disk).world.disk = disk := by
  have hreads : Action.Moves World.Reads _ (rendered o conditions.json text) :=
    (World.Reads.closed Unit).bind (o.reads_allVariables conditions.json) fun env =>
      o.session.keeps_reads.render 0 env text
  exact (hreads _).disk

/-- How a run with these options can end: with a template that cannot be read, with the list of its
sections, with a failure of the rendering, or with the output of what it is rendered to. -/
inductive Runs (o : Options) (disk : Disk) (exit : Exit) : Prop
  | unread {event : Event} (htemplate : template o disk = .error event) (hstatus : exit.status = 1)
      (hdisk : exit.disk = disk) : Runs o disk exit
  | listed {text : Bytes} (htemplate : template o disk = .ok text) (hlist : o.printSections = true)
      (hstatus : exit.status = (list text disk).status) (hdisk : exit.disk = disk) : Runs o disk exit
  | failed {text : Bytes} {failure : Failure} (htemplate : template o disk = .ok text)
      (hlist : o.printSections = false) (hresult : result conditions o text disk = .error failure)
      (hstatus : exit.status = 1) (hdisk : exit.disk = disk) : Runs o disk exit
  | rendered {text out before : Bytes} {asked : List Bytes} (htemplate : template o disk = .ok text)
      (hlist : o.printSections = false) (hresult : result conditions o text disk = .ok out)
      (hexit : exit =
        let delivered := deliver o conditions.answers out disk
        { delivered with messages := before ++ delivered.messages, asked }) : Runs o disk exit

theorem disk_list (text : Bytes) (disk : Disk) : (list text disk).disk = disk := by
  unfold list
  split
  · rfl
  · rfl

theorem runs_run {words : List Bytes} {notices : List Options.Notice} {o : Options}
    (hread : Options.read words = (notices, some o)) (program : Bytes) (disk : Disk) :
    Runs conditions o disk (run program words disk conditions) := by
  have hdisk (text : Bytes) := disk_rendering conditions o text disk
  unfold run
  rw [hread]
  dsimp only
  unfold runWith
  split
  · rename_i event htemplate
    exact .unread htemplate rfl rfl
  · rename_i text htemplate
    split
    · rename_i hlist
      exact .listed htemplate hlist rfl (disk_list text disk)
    · rename_i hlist
      have hlist' : o.printSections = false := by simpa using hlist
      dsimp only
      split
      · rename_i failure hresult
        exact .failed htemplate hlist' hresult rfl (hdisk text)
      · rename_i out hresult
        have hdisk' := hdisk text
        rw [rendering] at hdisk'
        rw [hdisk', ← List.append_assoc]
        exact .rendered htemplate hlist' hresult rfl

/-! ## Runs that fail -/

/-- Output fails only where it cannot be opened. What is new then are the directories made for it. -/
theorem moreDirectories_deliver {o : Options} {answers : Channel.Answers} {out : Bytes} {disk : Disk}
    (hstatus : (deliver o answers out disk).status = 1) :
    o.outputFile ≠ [] ∧ (Channel.create disk o.outputFile).1.sink? = none ∧
      Disk.MoreDirectories (Path.parents o.outputFile) disk (deliver o answers out disk).disk := by
  unfold deliver at hstatus ⊢
  split at hstatus
  · cases hstatus
  · rename_i hfile
    rw [if_neg hfile]
    refine ⟨by simpa using hfile, ?_⟩
    rcases Channel.create_cases disk o.outputFile with ⟨opened, sink, -, hcreate⟩ | hcreate
    · simp [writeFile, hcreate] at hstatus
    · refine ⟨by rw [hcreate], ?_⟩
      simp only [writeFile, hcreate]
      exact disk.moreDirectories_makeDirectories _

/-- Opening the output is what failed in this run, and these paths lead to the output. -/
def OutputFails (words : List Bytes) (disk : Disk) (parents : List Bytes) : Prop :=
  ∃ notices o text out, Options.read words = (notices, some o) ∧ template o disk = .ok text ∧
    o.printSections = false ∧ result conditions o text disk = .ok out ∧ o.outputFile ≠ [] ∧
    (Channel.create disk o.outputFile).1.sink? = none ∧ parents = Path.parents o.outputFile

theorem disk_of_failed_run {program : Bytes} {words : List Bytes} {disk : Disk}
    (hstatus : (run program words disk conditions).status = 1) :
    (run program words disk conditions).disk = disk ∨
      ∃ parents, OutputFails conditions words disk parents ∧
        Disk.MoreDirectories parents disk (run program words disk conditions).disk := by
  rcases hread : Options.read words with ⟨notices, _ | o⟩
  · exact .inl (by simp [run, hread])
  · cases runs_run conditions hread program disk with
    | unread _ _ hdisk => exact .inl hdisk
    | listed _ _ _ hdisk => exact .inl hdisk
    | failed _ _ _ _ hdisk => exact .inl hdisk
    | rendered htemplate hlist hresult hexit =>
      rw [hexit] at hstatus ⊢
      obtain ⟨hfile, hsink, hmore⟩ := moreDirectories_deliver hstatus
      exact .inr ⟨_, ⟨notices, o, _, _, hread, htemplate, hlist, hresult, hfile, hsink, rfl⟩, hmore⟩

/-- A run that fails, wherever it does and whatever its conditions are, leaves every file as it was and makes
none. What is new after it is a directory that leads to the output, where opening the output is what failed. -/
theorem failed_run_keeps_files (program : Bytes) (words : List Bytes) (disk : Disk)
    (hstatus : (run program words disk conditions).status = 1) :
    (∀ place content, (run program words disk conditions).disk.node? place = some (.file content) ↔
      disk.node? place = some (.file content)) ∧
    ∀ place, (run program words disk conditions).disk.node? place ≠ disk.node? place →
      disk.node? place = none ∧ ∃ parents, OutputFails conditions words disk parents ∧
        ∃ path ∈ parents, (run program words disk conditions).disk.find path = .found place .directory := by
  rcases disk_of_failed_run conditions hstatus with hsame | ⟨parents, hfails, hmore⟩
  · exact ⟨fun place content => by rw [hsame], fun place hne => absurd (by rw [hsame]) hne⟩
  · refine ⟨fun place content => ?_, fun place hne => ?_⟩
    · rcases hmore.node place with heq | ⟨hnone, path, -, hfind⟩
      · rw [heq]
      · have hnode := (Disk.pathTo_of_found hfind).2.1
        rw [hnone, hnode]
        simp
    · rcases hmore.node place with heq | ⟨hnone, hpath⟩
      · exact absurd heq hne
      · exact ⟨hnone, parents, hfails, hpath⟩

/-- The directories that lead to the output are made before it turns out to be a directory itself. -/
theorem failed_run_keeps_files_of_directory :
    let words := [Bytes.ofString "-s", Bytes.ofString "hi", Bytes.ofString "-o", Bytes.ofString "a/b/"]
    let exit := run (Bytes.ofString "stencil") words .empty
    let place := [Bytes.ofString "work", Bytes.ofString "a"]
    exit.status = 1 ∧ exit.disk.node? place ≠ Disk.empty.node? place ∧
      ∃ parents, OutputFails {} words .empty parents ∧
        ∃ path ∈ parents, exit.disk.find path = .found place .directory := by
  intro words exit place
  have hexit : exit.status = 1 ∧ exit.disk.node? place ≠ Disk.empty.node? place := by decide +kernel
  obtain ⟨hstatus, hne⟩ := hexit
  exact ⟨hstatus, hne, ((failed_run_keeps_files {} _ _ _ hstatus).2 place hne).2⟩

end Program

end Stencil
