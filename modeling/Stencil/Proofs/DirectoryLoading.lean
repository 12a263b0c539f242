import Stencil.Proofs.FirstRead
import Stencil.Proofs.Outcome
import Stencil.Proofs.PathJoining

/-!
# Loading a directory

`loadDir` lists a directory and reads what is listed, and makes up the path of each file by itself: the
argument, a slash and the name, seen from the base directory. Unless the argument is empty, this is the path
that was listed with a slash and the name behind it (`Path.resolve_append_slash`), which leads to the file
that was listed. A world in which the files that were read are still on the disk (`World.Current`) stays one
while they are read, so each file is read as it is there. The main statement is
`Function.loadDirectory_reads_listed`.
-/

namespace Stencil

open Ascii

/-! ## The paths that are read -/

/-- The path that is made up for a name is the path of the directory with the name behind it. -/
theorem Path.resolve_append_slash (base : Bytes) {directory : Bytes} (hne : directory ≠ []) (name : Bytes) :
    resolve base (directory ++ slash :: name) = resolve base directory ++ slash :: name := by
  have habsolute : isAbsolute (directory ++ slash :: name) = isAbsolute directory :=
    Enters.slash.isAbsolute_eq hne
  rw [resolve, resolve, habsolute]
  split
  · rfl
  · by_cases hbase : base = []
    · rw [hbase, nil_join, nil_join]
    · rw [join_eq hbase (by simp), join_eq hbase hne, withoutFront_append hne, List.append_assoc,
        List.cons_append]

/-! ## Reading what is on the disk -/

namespace World

variable {σ : Type} {w w' : World σ}

/-- What was read before is still so on the disk. -/
def Current (w : World σ) : Prop :=
  ∀ path content, w.cache[path]? = some content → w.disk.read path = .ok content

/-- At the beginning of a session nothing was read. -/
theorem current_of_fresh (h : w.cache = ∅) : w.Current := by
  intro path content hcache
  simp [h] at hcache

theorem Reads.current (h : w.Reads w') (hw : w.Current) : w'.Current := by
  intro path content hcache
  rw [h.disk]
  rcases h.fresh hcache with hold | hread
  · exact hw path content hold
  · exact hread

end World

namespace Session

variable {σ : Type} (s : Session σ)

theorem read_eq_some_iff {w : World σ} (hw : w.Current) {path content : Bytes} :
    (s.read path w).result = .ok (some content) ↔ w.disk.read (s.resolve path) = .ok content := by
  rcases s.read_cases path w with
    ⟨found, hcache, hread⟩ | ⟨-, found, hdisk, hread⟩ | ⟨-, event, hdisk, hread⟩
  · simp [hread, hw _ _ hcache]
  · simp [hread, hdisk]
  · simp [hread, hdisk]

end Session

/-- If an action succeeds alike in every world that there can be, it succeeds for each of the entries in a row
just when it does so for each of them. -/
theorem Action.result_mapM_eq_ok_iff {σ α β γ : Type} {P : World σ → Prop} {f : α → Action σ β}
    {R : α × γ → Prop} {g : α × γ → β} (hworld : ∀ a w, P w → P (f a w).world)
    (hresult : ∀ a w, P w → ∀ b, (f a w).result = .ok b ↔ ∃ c, R (a, c) ∧ g (a, c) = b)
    {l : List α} {w : World σ} (hw : P w) {results : List β} :
    ((l.mapM f) w).result = .ok results ↔
      ∃ pairs : List (α × γ), pairs.map Prod.fst = l ∧ (∀ pair ∈ pairs, R pair) ∧
        pairs.map g = results := by
  induction l generalizing w results with
  | nil => simp [List.mapM_nil, result_pure_eq_ok]
  | cons a l ih =>
    rw [List.mapM_cons, result_bind_eq_ok]
    constructor
    · -- What the first action leaves behind is a world that there can be, so the rest goes on alike.
      rintro ⟨b, hb, hrest⟩
      obtain ⟨tail, htail, hpure⟩ := result_bind_eq_ok.mp hrest
      obtain ⟨c, hc, rfl⟩ := (hresult a w hw b).mp hb
      obtain ⟨pairs, hfst, hpairs, rfl⟩ := (ih (hworld a w hw)).mp htail
      refine ⟨(a, c) :: pairs, ?_, List.forall_mem_cons.mpr ⟨hc, hpairs⟩, result_pure_eq_ok.mp hpure⟩
      rw [List.map_cons, hfst]
    · rintro ⟨pairs, hfst, hpairs, rfl⟩
      obtain ⟨⟨first, c⟩, pairs, rfl, hfirst, rfl⟩ := List.map_eq_cons_iff.mp hfst
      obtain rfl : a = first := hfirst.symm
      rw [List.forall_mem_cons] at hpairs
      refine ⟨g (a, c), (hresult a w hw _).mpr ⟨c, hpairs.1, rfl⟩, ?_⟩
      exact result_bind_eq_ok.mpr ⟨_, (ih (hworld a w hw)).mpr ⟨pairs, rfl, hpairs.2, rfl⟩, rfl⟩

namespace Function

variable {σ : Type} (s : Session σ)

/-- How a file is shown: its content under its name. -/
def titled (file : Bytes × Bytes) : Bytes := file.1 ++ newline :: file.2

/-- Reads one of the files in a directory. -/
def loadEntry (directory name : Bytes) : Action σ Bytes := do
  let content ← contentFor (Bytes.ofString "loadDir") s (directory ++ slash :: name)
  return name ++ newline :: content

theorem contentFor_eq_ok_iff {w : World σ} (hw : w.Current) {function path content : Bytes} :
    (contentFor function s path w).result = .ok content ↔
      w.disk.read (s.resolve path) = .ok content := by
  rw [← s.read_eq_some_iff hw, contentFor, Action.result_bind_eq_ok]
  constructor
  · rintro ⟨found, hread, hfound⟩
    cases found with
    | none => cases hfound
    | some found => rw [hread, Action.result_pure_eq_ok.mp hfound]
  · exact fun hread => ⟨some content, hread, rfl⟩

theorem reads_loadEntry (directory name : Bytes) (w : World σ) : w.Reads (loadEntry s directory name w).world :=
  have hclosed := World.Reads.closed σ
  hclosed.bind (s.keeps_reads.contentFor _ _) (fun _ => hclosed.pure _) w

theorem loadEntry_eq_ok_iff {w : World σ} (hw : w.Current) {directory name text : Bytes} :
    (loadEntry s directory name w).result = .ok text ↔
      ∃ content, w.disk.read (s.resolve (directory ++ slash :: name)) = .ok content ∧
        titled (name, content) = text := by
  simp only [loadEntry, Action.result_bind_eq_ok, contentFor_eq_ok_iff s hw, Action.result_pure_eq_ok]
  exact Iff.rfl

/-- A directory that can be listed is loaded just when each file that is asked for can be read, under the path
that is made up for it. -/
theorem loadFrom_eq_ok_iff {w : World σ} (hw : w.Current) {directory : Bytes} (extension : Bytes)
    {names : List Bytes} (hlist : w.disk.list (s.resolve directory) = .ok names) {value : Value} :
    (loadFrom s directory extension w).result = .ok value ↔
      ∃ files : List (Bytes × Bytes), files.map Prod.fst = names.filter (extension.isSuffixOf ·) ∧
        (∀ file ∈ files, w.disk.read (s.resolve (directory ++ slash :: file.1)) = .ok file.2) ∧
        paragraphs (files.map titled) = value := by
  have hlisted : (s.list directory w).result = .ok (some names) := s.result_list hlist
  have hreads : w.Reads (s.list directory w).world := s.keeps_reads.list directory w
  have hentries (texts : List Bytes) :
      ((names.filter (extension.isSuffixOf ·)).mapM (loadEntry s directory) (s.list directory w).world).result =
          .ok texts ↔
        ∃ files : List (Bytes × Bytes), files.map Prod.fst = names.filter (extension.isSuffixOf ·) ∧
          (∀ file ∈ files, w.disk.read (s.resolve (directory ++ slash :: file.1)) = .ok file.2) ∧
          files.map titled = texts := by
    refine Action.result_mapM_eq_ok_iff (P := w.Reads) (fun name w' hw' => ?_)
      (fun name w' hw' text => ?_) hreads
    · exact hw'.trans (reads_loadEntry s directory name w')
    · rw [loadEntry_eq_ok_iff s (hw'.current hw), hw'.disk]
  rw [loadFrom, Action.result_bind_eq_ok]
  constructor
  · rintro ⟨found, hfound, hload⟩
    obtain rfl : some names = found := Except.ok.inj (hlisted.symm.trans hfound)
    obtain ⟨texts, htexts, hvalue⟩ := Action.result_bind_eq_ok.mp hload
    obtain ⟨files, hnames, hread, rfl⟩ := (hentries texts).mp htexts
    exact ⟨files, hnames, hread, Action.result_pure_eq_ok.mp hvalue⟩
  · rintro ⟨files, hnames, hread, rfl⟩
    have htexts := (hentries _).mpr ⟨files, hnames, hread, rfl⟩
    exact ⟨some names, hlisted, Action.result_bind_eq_ok.mpr ⟨_, htexts, rfl⟩⟩

end Function

/-! ## What is loaded -/

namespace Disk

/-- The content of a regular file. -/
def contentAt (d : Disk) (place : Location) : Bytes :=
  match d.node? place with
  | some (.file content) => content
  | _ => []

theorem contentAt_of_file {d : Disk} {place : Location} {content : Bytes}
    (h : d.node? place = some (.file content)) : d.contentAt place = content := by
  rw [contentAt, h]

/-- These are the regular files in a directory whose names end in the extension, each with its content, in
the byte order of their names; hidden files are left out, and files whose paths are too long to be followed. -/
structure Shows (d : Disk) (path : Bytes) (place : Location) (extension : Bytes)
    (files : List (Bytes × Bytes)) : Prop where
  sorted : files.Pairwise fun a b => a.1 < b.1
  mem_iff (name content : Bytes) : (name, content) ∈ files ↔
    d.node? (place ++ [name]) = some (.file content) ∧ name.head? ≠ some point ∧ extension <:+ name ∧
      (path ++ slash :: name).length < pathMax

end Disk

/-- The path that is read for a file is as long as the one that was looked up for the listing, or longer by
one slash and one byte too long then. -/
theorem Path.length_join_lt_iff {path name : Bytes} (hpath : path ≠ []) (hname : Disk.IsName name)
    (hslash : path.getLast? = some slash → (path ++ slash :: name).length ≠ Disk.pathMax) :
    (join path name).length < Disk.pathMax ↔ (path ++ slash :: name).length < Disk.pathMax := by
  have hsub := enters_join hpath hname.ne_nil hname.noSlash
  generalize join path name = sub at hsub
  cases hsub with
  | slash => exact Iff.rfl
  | ended hlast =>
    have hne := hslash hlast
    simp only [List.length_append, List.length_cons] at hne ⊢
    omega

namespace Disk

variable {d : Disk} (hwell : d.WellNamed) {path : Bytes} {place : Location}
  (hfind : d.find path = .found place .directory) (hnul : 0 ∉ path)
  (hslash : path.getLast? = some slash → ∀ name content,
    d.node? (place ++ [name]) = some (.file content) → (path ++ slash :: name).length ≠ pathMax)
  {names : List Bytes} (hlist : d.list path = .ok names)
include hwell hfind hnul hslash hlist

/-- What is listed can be read behind a slash, too. -/
theorem mem_list_iff_of_slash {name : Bytes} :
    name ∈ names ↔ (∃ content, d.node? (place ++ [name]) = some (.file content)) ∧
      name.head? ≠ some point ∧ (path ++ slash :: name).length < pathMax := by
  rw [mem_list_iff hwell hfind hnul hlist]
  refine and_congr_right fun ⟨content, hfile⟩ => and_congr_right fun _ => ?_
  exact Path.length_join_lt_iff (ne_nil_of_found hfind) (isName_of_node? hwell hfile) fun hlast =>
    hslash hlast name content hfile

theorem read_of_mem_list {name : Bytes} (hmem : name ∈ names) :
    d.read (path ++ slash :: name) = .ok (d.contentAt (place ++ [name])) := by
  obtain ⟨⟨content, hfile⟩, -, hshort⟩ := (mem_list_iff_of_slash hwell hfind hnul hslash hlist).mp hmem
  obtain ⟨hpath, hdirectory, -⟩ := pathTo_of_found hfind
  rw [read, find_of_enters hpath hnul hdirectory (isName_of_node? hwell hfile) .slash,
    if_neg (Nat.not_le.mpr hshort), hfile, contentAt_of_file hfile]
  rfl

theorem shows_of_list (extension : Bytes) :
    d.Shows path place extension
      ((names.filter (extension.isSuffixOf ·)).map fun name => (name, d.contentAt (place ++ [name]))) := by
  have hmem := @mem_list_iff_of_slash d hwell path place hfind hnul hslash names hlist
  constructor
  · rw [list_of_found hfind] at hlist
    cases hlist
    exact List.pairwise_map.mpr (((d.entries_sorted place).filter _).filter _)
  · intro name content
    simp only [List.mem_map, List.mem_filter, List.isSuffixOf_iff_suffix, Prod.mk.injEq]
    constructor
    · rintro ⟨_, ⟨hname, hsuffix⟩, rfl, rfl⟩
      obtain ⟨⟨content, hfile⟩, hhead, hshort⟩ := hmem.mp hname
      exact ⟨by rw [contentAt_of_file hfile, hfile], hhead, hsuffix, hshort⟩
    · rintro ⟨hfile, hhead, hsuffix, hshort⟩
      exact ⟨name, ⟨hmem.mpr ⟨⟨content, hfile⟩, hhead, hshort⟩, hsuffix⟩, rfl, contentAt_of_file hfile⟩

end Disk

namespace Function

variable {σ : Type} (s : Session σ)

/-- The directory that is listed is the one that is read, whatever the argument and the base directory are,
unless the argument is empty: `loadDir` gives the names and contents of the regular files in there, hidden
ones left out, in the order of their names. Three kinds of arguments end otherwise. Where a NUL byte ends the
path early, no files are listed; behind a slash at its end, the path of a file may become one byte too
long to be read; and with the empty argument, the base directory is listed and the files with the listed
names are read in the root. -/
theorem loadDirectory_reads_listed {w : World σ} (hwell : w.disk.WellNamed) (hw : w.Current)
    (directory : Value) (extension : Option Value) {place : Location}
    (hfind : w.disk.find (s.resolve directory.write) = .found place .directory) :
    (0 ∈ s.resolve directory.write →
      (call s (directory :: extension.toList) .loadDirectory w).result = .ok (paragraphs [])) ∧
    (0 ∉ s.resolve directory.write → directory.write ≠ [] →
      ((s.resolve directory.write).getLast? = some slash → ∀ name content,
        w.disk.node? (place ++ [name]) = some (.file content) →
        (s.resolve directory.write ++ slash :: name).length ≠ Disk.pathMax) →
      ∃ files, w.disk.Shows (s.resolve directory.write) place (extension.elim [] Value.write) files ∧
        (call s (directory :: extension.toList) .loadDirectory w).result =
          .ok (paragraphs (files.map titled))) ∧
    (directory.write = [] → ∃ names, w.disk.list (s.resolve []) = .ok names ∧ ∀ value,
      (call s (directory :: extension.toList) .loadDirectory w).result = .ok value ↔
        ∃ files : List (Bytes × Bytes),
          files.map Prod.fst = names.filter ((extension.elim [] Value.write).isSuffixOf ·) ∧
          (∀ file ∈ files, w.disk.read (slash :: file.1) = .ok file.2) ∧
          paragraphs (files.map titled) = value) := by
  have hcall : call s (directory :: extension.toList) .loadDirectory =
      loadFrom s directory.write (extension.elim [] Value.write) := by
    cases extension <;> rfl
  rw [hcall]
  generalize directory.write = argument at hfind ⊢
  generalize extension.elim [] Value.write = suffix
  refine ⟨fun hnul => ?_, fun hnul hne hslash => ?_, fun hempty => ?_⟩
  · have hlist := Disk.list_of_nul hwell hfind hnul
    exact (loadFrom_eq_ok_iff s hw suffix hlist).mpr ⟨[], rfl, List.forall_mem_nil _, rfl⟩
  · have hlist := Disk.list_of_found hfind
    refine ⟨_, Disk.shows_of_list hwell hfind hnul hslash hlist suffix, ?_⟩
    refine (loadFrom_eq_ok_iff s hw suffix hlist).mpr ⟨_, ?_, fun file hfile => ?_, rfl⟩
    · exact (List.map_map ..).trans (List.map_id _)
    · obtain ⟨name, hname, rfl⟩ := List.mem_map.mp hfile
      rw [Session.resolve, Path.resolve_append_slash s.base hne name]
      exact Disk.read_of_mem_list hwell hfind hnul hslash hlist (List.mem_filter.mp hname).1
  · rw [hempty] at hfind ⊢
    have hlist := Disk.list_of_found hfind
    exact ⟨_, hlist, fun value => loadFrom_eq_ok_iff s hw suffix hlist⟩

/-- Two notes in a directory. -/
def notes : World Unit where
  disk := (Disk.empty.putFile (Bytes.ofString "notes/one.md") (Bytes.ofString "first note")).putFile
    (Bytes.ofString "notes/two.txt") (Bytes.ofString "second note")
  host := ()

/-- A session that looks for files among the notes. -/
def notesSession : Session Unit := { base := Bytes.ofString "notes" }

theorem loadDirectory_reads_listed_of_notes :
    ∃ files, notes.disk.Shows (Bytes.ofString "notes/.") [Bytes.ofString "work", Bytes.ofString "notes"]
        (Bytes.ofString ".md") files ∧
      (call notesSession [.text (Bytes.ofString "."), .text (Bytes.ofString ".md")] .loadDirectory
        notes).result = .ok (paragraphs (files.map titled)) := by
  have hwell : notes.disk.WellNamed := by decide +kernel
  have hfind : notes.disk.find (Bytes.ofString "notes/.") =
      .found [Bytes.ofString "work", Bytes.ofString "notes"] .directory := by
    rfl
  have hload := loadDirectory_reads_listed notesSession hwell (World.current_of_fresh rfl)
    (.text (Bytes.ofString ".")) (some (.text (Bytes.ofString ".md"))) hfind
  exact hload.2.1 (by decide) (by decide) fun hlast => absurd hlast (by decide)

/-- The base directory is listed, and the files that are read are not in there. -/
theorem not_loadDirectory_of_empty :
    notes.disk.list (notesSession.resolve []) = .ok [Bytes.ofString "one.md", Bytes.ofString "two.txt"] ∧
      notes.disk.read (Bytes.ofString "notes/one.md") = .ok (Bytes.ofString "first note") ∧
      notes.disk.read (Bytes.ofString "notes/two.txt") = .ok (Bytes.ofString "second note") ∧
      (call notesSession [.text []] .loadDirectory notes).result =
        .error (failed (Bytes.ofString "loadDir") (Bytes.ofString "can't read /one.md")) := by
  decide +kernel

end Function

end Stencil
