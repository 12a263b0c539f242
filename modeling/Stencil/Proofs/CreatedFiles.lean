import Stencil.Proofs.Buffering
import Stencil.Proofs.FirstRead
import Stencil.Proofs.NewDirectories

/-!
# Created files

A path that is seen from a base directory ends in the names that it has itself (`Path.segments_resolve`). When
the directories on its way were made, what stands in the place that it names is what has stood there before,
so that a file can be opened there (`Disk.create?_of_prepares`). What is written to it is conserved, as with
every channel to a file. The main statement is `Session.create_reads_back`, and
`Session.not_create_of_plain` is about paths under which no file comes to be.
-/

namespace Stencil

open Ascii

/-! ## Paths from a base directory -/

namespace Path

theorem isAbsolute_eq_false {path : Bytes} (h : [] ∉ segments path) : isAbsolute path = false := by
  cases path with
  | nil => rfl
  | cons b rest =>
    rw [isAbsolute, decide_eq_false_iff_not]
    intro hhead
    obtain rfl : b = slash := Option.some.inj hhead
    exact h (by simp [segments])

/-- A path with a name in front of and behind each slash comes behind all that the base directory has. -/
theorem segments_resolve (base : Bytes) {path : Bytes} (h : [] ∉ segments path) :
    ∃ front, segments (resolve base path) = front ++ segments path ∧
      ∀ seg ∈ front, seg ∈ segments base := by
  have hne : path ≠ [] := by
    rintro rfl
    exact h (List.mem_singleton_self [])
  have hrelative := isAbsolute_eq_false h
  have hhead : path.head? ≠ some slash := by simpa [isAbsolute] using hrelative
  rw [resolve, hrelative, if_neg Bool.false_ne_true, join]
  split
  · exact ⟨[], rfl, List.forall_mem_nil _⟩
  · rw [if_neg (by simpa using hne), if_neg fun h => hhead h.2]
    split
    · rename_i hlast
      obtain ⟨before, rfl⟩ := List.getLast?_eq_some_iff.mp (hlast.resolve_right hhead)
      rw [List.append_assoc, List.singleton_append, segments_append_slash, segments_append_slash]
      exact ⟨segments before, rfl, fun seg => List.mem_append_left _⟩
    · exact ⟨segments base, segments_append_slash base path, fun seg => id⟩

theorem ne_nil_of_segments {path name : Bytes} (h : (segments path).getLast? = some name)
    (hname : name ≠ []) : path ≠ [] := by
  rintro rfl
  exact hname (Option.some.inj h).symm

theorem getLast?_ne_slash {path name : Bytes} (h : (segments path).getLast? = some name) (hname : name ≠ []) :
    path.getLast? ≠ some slash := by
  intro hlast
  obtain ⟨before, rfl⟩ := List.getLast?_eq_some_iff.mp hlast
  rw [segments_append_slash] at h
  simp only [segments, List.getLast?_concat, Option.some.injEq] at h
  exact hname h.symm

end Path

namespace Disk

variable {d : Disk}

/-! ## The place of the file -/

theorem length_le_follow (here : Location) {seg : Bytes} (hslash : slash ∉ seg) (hup : seg ≠ [point, point]) :
    here.length ≤ ((Path.names seg).foldl follow here).length := by
  by_cases hseg : seg = []
  · subst hseg
    exact Nat.le_refl _
  · rw [Path.names_of_notMem hseg hslash, List.foldl_cons, follow, if_neg hup, List.foldl_nil]
    split
    · exact Nat.le_refl _
    · rw [List.length_append]
      exact Nat.le_add_right _ _

/-- A place is not above the directories on its way, if none of the steps there goes up. -/
theorem length_locate_le {path : Bytes} (hup : [point, point] ∉ Path.segments path) :
    ∀ p ∈ Path.parents path, (d.locate p).length ≤ (d.locate path).length := by
  induction path using Bytes.separator_induction slash with
  | part seg h =>
    rw [Path.parents_of_notMem h]
    exact List.forall_mem_nil _
  | append q seg h ih =>
    rw [Path.segments_append_slash, Path.segments_of_notMem h, List.mem_append, List.mem_singleton,
      not_or] at hup
    by_cases hq : q = []
    · subst hq
      rw [List.nil_append, Path.parents_slash h]
      exact List.forall_mem_nil _
    · have hle := length_le_follow (d.locate q) h (Ne.symm hup.2)
      intro p hp
      rw [Path.parents_append hq h, List.mem_append, List.mem_singleton] at hp
      rw [locate_append d hq]
      rcases hp with hp | rfl
      · exact (ih hup.1 p hp).trans hle
      · exact hle

/-- So no directory on the way is in the place of a name behind it. -/
theorem locate_ne_of_mem_parents {path name : Bytes} (hup : [point, point] ∉ Path.segments path)
    (hlast : (Path.segments path).getLast? = some name) (hname : IsName name) :
    ∀ p ∈ Path.parents path, d.locate p ≠ d.locate path := by
  induction path using Bytes.separator_induction slash with
  | part seg h =>
    rw [Path.parents_of_notMem h]
    exact List.forall_mem_nil _
  | append q seg h _ =>
    rw [Path.segments_append_slash, Path.segments_of_notMem h, List.mem_append, not_or] at hup
    rw [Path.segments_append_slash, Path.segments_of_notMem h, List.getLast?_concat] at hlast
    obtain rfl := Option.some.inj hlast
    by_cases hq : q = []
    · subst hq
      rw [List.nil_append, Path.parents_slash h]
      exact List.forall_mem_nil _
    · intro p hp heq
      have hle : (d.locate p).length ≤ (d.locate q).length := by
        rw [Path.parents_append hq h, List.mem_append, List.mem_singleton] at hp
        rcases hp with hp | rfl
        · exact length_locate_le hup.1 p hp
        · exact Nat.le_refl _
      have hlonger : (d.locate (q ++ slash :: seg)).length = (d.locate q).length + 1 := by
        rw [locate_append d hq, Path.names_of_notMem hname.ne_nil h, List.foldl_cons, follow,
          if_neg hname.notSelf, if_neg hname.notParent, List.foldl_nil, List.length_append]
        rfl
      rw [heq, hlonger] at hle
      omega

theorem not_asksForDirectory {path name : Bytes} (hpath : d.Passable path)
    (hlast : (Path.segments path).getLast? = some name) (hname : name ≠ []) : ¬AsksForDirectory path := by
  rw [AsksForDirectory, Bytes.untilNul_of_notMem hpath.noNul]
  exact Path.getLast?_ne_slash hlast hname

/-- Where the directories on the way were made, a file can be opened. -/
theorem create?_of_prepares {path name : Bytes} {made : Disk} (hpath : d.Passable path)
    (h : Prepares path d made) (hlast : (Path.segments path).getLast? = some name) (hname : name ≠ [])
    (hway : ∀ p ∈ Path.parents path, d.locate p ≠ d.locate path)
    (hfile : ∀ n ∈ d.node? (d.locate path), ∃ content, n = .file content) :
    d.locate path ≠ [] ∧ made.node? (d.locate path) = d.node? (d.locate path) ∧
      made.create? path = some (made.set (d.locate path) (.file []), .file (d.locate path)) := by
  have hplace : d.locate path ≠ [] := by
    intro hroot
    obtain ⟨content, hcontent⟩ := hfile .directory (by rw [hroot]; rfl)
    cases hcontent
  have hsame : made.node? (d.locate path) = d.node? (d.locate path) := by
    rcases h.rest (d.locate path) with heq | ⟨-, -, p, hp, heq⟩
    · exact heq
    · exact absurd heq.symm (hway p hp)
  have hpathTo := h.pathTo hpath (Path.ne_nil_of_segments hlast hname)
  have hasks := not_asksForDirectory hpath hlast hname
  refine ⟨hplace, hsame, ?_⟩
  cases hn : d.node? (d.locate path) with
  | some n =>
    obtain ⟨content, rfl⟩ := hfile n hn
    have hfind := find_of_pathTo hpathTo (hsame.trans hn) fun h => absurd h hasks
    rw [create?, hfind]
  | none =>
    have hfind := find_of_pathTo_vacant h.tree (h.node?_working hpath.working) hpathTo (hsame.trans hn)
    rw [create?, hfind.1]
    exact if_neg hasks

/-- A channel to a file that is empty, behind the directories on its way. -/
theorem create_of_passable {path name : Bytes} (hpath : d.Passable path)
    (hlast : (Path.segments path).getLast? = some name) (hname : name ≠ [])
    (hway : ∀ p ∈ Path.parents path, d.locate p ≠ d.locate path)
    (hfile : ∀ n ∈ d.node? (d.locate path), ∃ content, n = .file content) :
    d.locate path ≠ [] ∧
    ∃ made, Prepares path d made ∧ made.node? (d.locate path) = d.node? (d.locate path) ∧
      (Channel.create d path).2 = [] ∧ (Channel.create d path).1.Takes (d.locate path) [] ∧
      (Channel.create d path).1.disk = made.set (d.locate path) (.file []) := by
  obtain ⟨hquiet, hprepared⟩ := makeDirectories_parents path hpath
  obtain ⟨hplace, hsame, hcreate⟩ := create?_of_prepares hpath hprepared hlast hname hway hfile
  have hchannel : Channel.create d path =
      ({ disk := (d.makeDirectories (Path.parents path)).1.set (d.locate path) (.file []),
         sink? := some (.file (d.locate path)) }, []) := by
    simp only [Channel.create, hcreate, hquiet]
  rw [hchannel]
  refine ⟨hplace, _, hprepared, hsame, rfl, ⟨rfl, rfl, ?_, fun _ _ hgiven => hgiven⟩, rfl⟩
  rw [node?_set _ hplace, if_pos rfl]

/-- The disk has something else in one place, which is a directory on neither or on both. -/
theorem grows_of_change {before after : Disk} {place : Location} {n : Node}
    (hworking : after.working = before.working) (hn : after.node? place = some n)
    (hold : ∀ old, before.node? place = some old → (n = .directory ↔ old = .directory))
    (hother : ∀ other, other ≠ place → after.node? other = before.node? other) : before.Grows after where
  working := hworking
  node {other old} h := by
    by_cases heq : other = place
    · subst heq
      exact ⟨n, hn, hold old h⟩
    · exact ⟨old, (hother other heq).trans h, Iff.rfl⟩

end Disk

/-! ## Writing portions -/

/-- The portions that were written to a new file are what is found under its path, and the rest of the disk is
as it was when the directories on the way were made. -/
theorem Disk.find_of_created {d : Disk} {path name : Bytes} (hpath : d.Passable path)
    (hlast : (Path.segments path).getLast? = some name) (hname : name ≠ [])
    (hway : ∀ p ∈ Path.parents path, d.locate p ≠ d.locate path)
    (hfile : ∀ n ∈ d.node? (d.locate path), ∃ content, n = .file content) (portions : List Bytes) :
    let written := Writers.usedUp (Channel.create d path).1 (portions.map .write)
    (Channel.create d path).1.sink?.isSome = true ∧ (Channel.create d path).2 ++ written.2 = [] ∧
      written.1.channel.disk.find path = .found (d.locate path) (.file portions.flatten) ∧
      written.1.channel.disk.working = d.working ∧
      ∃ made, Prepares path d made ∧
        ∀ other, other ≠ d.locate path → written.1.channel.disk.node? other = made.node? other := by
  intro written
  obtain ⟨hplace, made, hprepared, hsame, hquiet, htakes, hdisk⟩ :=
    create_of_passable hpath hlast hname hway hfile
  obtain ⟨hnode, hworking, hother, hquiet'⟩ := Writers.usedUp_of_takes (portions.map .write) htakes
  rw [hdisk] at hworking hother
  have hother' : ∀ other, other ≠ d.locate path → written.1.channel.disk.node? other = made.node? other := by
    intro other hne
    rw [hother other hne, node?_set _ hplace, if_neg hne.symm]
  have hold : ∀ old, made.node? (d.locate path) = some old →
      (Node.file ([] ++ (portions.map Writer.Use.write).flatMap Writer.Use.data) = .directory ↔
        old = .directory) := by
    intro old hold
    obtain ⟨content, rfl⟩ := hfile old (hsame ▸ hold)
    simp
  have hgrows : made.Grows written.1.channel.disk := grows_of_change hworking hnode hold hother'
  have hpathTo := (hprepared.pathTo hpath (Path.ne_nil_of_segments hlast hname)).of_grows hgrows
  rw [Writers.flatMap_data_write] at hnode
  refine ⟨by rw [htakes.sink]; rfl, by rw [hquiet, hquiet']; rfl, ?_, hworking.trans hprepared.working,
    made, hprepared, hother'⟩
  exact find_of_pathTo hpathTo hnode fun hasks => absurd hasks (not_asksForDirectory hpath hlast hname)

namespace Session

variable {σ : Type}

/-- What is created goes through a writer that takes the portions and is dropped. -/
theorem create_eq (s : Session σ) (path : Bytes) (portions : List Bytes) (w : World σ) :
    let created := Channel.create w.disk (s.resolve path)
    let written := Writers.usedUp created.1 (portions.map .write)
    s.create path portions w =
      ⟨.ok created.1.sink?.isSome, { w with disk := written.1.channel.disk }, created.2 ++ written.2⟩ := by
  simp only [create, Action.onDisk, Writers.writeAll_single, Writers.dropAll_used]
  rw [Writers.usedUp]
  simp only [List.append_assoc]

/-- A file is created under a path that is seen from the base directory, if its names are those of files, no
part of the path is too long or cut off by a NUL byte, whatever stands on the way is a directory, and in the
place of the file stands nothing or a file. Where the base directory goes up, the place has to be none of
those on the way. Nothing is told then. The file holds all the portions in order and is found under the path;
all the directories on the way are there, each of which was there before or is new, and nothing else is
changed. A session in which nothing was read under this path reads all the portions. Permissions, links and
what else is neither a directory nor a file nor one of the devices are not on these disks, which are never full
(`Disk`), and each call that is to write to the file takes all that it is given. -/
theorem create_reads_back (s : Session σ) {path : Bytes} (portions : List Bytes) {w : World σ}
    (htree : w.disk.IsTree) (hworking : w.disk.node? w.disk.working = some .directory)
    (hpath : ∀ seg ∈ Path.segments path, Disk.IsName seg)
    (hbase : ∀ seg ∈ Path.segments s.base, Disk.IsSegment seg)
    (hshort : (s.resolve path).length < Disk.pathMax)
    (hparents : ∀ p ∈ Path.parents (s.resolve path), ∀ n ∈ w.disk.node? (w.disk.locate p), n = .directory)
    (hway : [point, point] ∈ Path.segments s.base → ∀ p ∈ Path.parents (s.resolve path),
      w.disk.locate p ≠ w.disk.locate (s.resolve path))
    (hfile : ∀ n ∈ w.disk.node? (w.disk.locate (s.resolve path)), ∃ content, n = .file content) :
    let place := w.disk.locate (s.resolve path)
    ∃ after, s.create path portions w = ⟨.ok true, { w with disk := after }, []⟩ ∧
      after.find (s.resolve path) = .found place (.file portions.flatten) ∧
      after.working = w.disk.working ∧
      (∀ p ∈ Path.parents (s.resolve path), after.node? (w.disk.locate p) = some .directory) ∧
      (∀ other, other ≠ place → after.node? other = w.disk.node? other ∨
        (w.disk.node? other = none ∧ after.node? other = some .directory ∧
          ∃ p ∈ Path.parents (s.resolve path), other = w.disk.locate p)) ∧
      ∀ (s' : Session σ) (path' : Bytes) (w' : World σ), s'.resolve path' = s.resolve path → w'.disk = after →
        w'.cache[s.resolve path]? = none → (s'.read path' w').result = .ok (some portions.flatten) := by
  intro place
  obtain ⟨name, hlast⟩ : ∃ name, (Path.segments path).getLast? = some name :=
    ⟨_, List.getLast?_eq_some_getLast (Path.segments_ne_nil path)⟩
  have hname : Disk.IsName name := hpath name (List.mem_of_getLast? hlast)
  obtain ⟨front, hsegments, hfront⟩ := Path.segments_resolve s.base fun h => (hpath [] h).ne_nil rfl
  have hpassable : w.disk.Passable (s.resolve path) := by
    refine ⟨htree, hworking, fun seg hseg => ?_, hshort, hparents⟩
    rcases List.mem_append.mp (hsegments ▸ hseg) with hseg | hseg
    · exact hbase seg (hfront seg hseg)
    · exact .inr (.inr (.inr (hpath seg hseg)))
  have hlast' : (Path.segments (s.resolve path)).getLast? = some name := by
    rw [resolve, hsegments, List.getLast?_append, hlast]
    rfl
  have hway' : ∀ p ∈ Path.parents (s.resolve path), w.disk.locate p ≠ place := by
    by_cases hup : [point, point] ∈ Path.segments s.base
    · exact hway hup
    · refine Disk.locate_ne_of_mem_parents (fun h => ?_) hlast' hname
      rcases List.mem_append.mp (hsegments ▸ h) with h | h
      · exact hup (hfront _ h)
      · exact (hpath _ h).notParent rfl
  obtain ⟨hcreated, hquiet, hfind, hworking', made, hprepared, hother⟩ :=
    Disk.find_of_created hpassable hlast' hname.ne_nil hway' hfile portions
  refine ⟨_, ?_, hfind, hworking', fun p hp => ?_, fun other hne => ?_,
    fun s' path' w' hresolve hdisk hcache => ?_⟩
  · rw [s.create_eq path portions w, hcreated, hquiet]
  · rw [hother _ (hway' p hp)]
    exact hprepared.parents p hp
  · rw [hother other hne]
    exact hprepared.rest other
  · have hread : w'.disk.read (s'.resolve path') = .ok portions.flatten := by
      rw [hdisk, hresolve, Disk.read, hfind]
    exact read_of_not_cached s' (hresolve ▸ hcache) hread

/-- A directory is made on the way, and a file that was there is emptied and written anew. -/
theorem create_reads_back_of_replaced :
    let s : Session Unit := { base := Bytes.ofString "notes/new/.." }
    let path := Bytes.ofString "old.md"
    let portions := [Bytes.ofString "one", [], Bytes.ofString "two"]
    let w : World Unit :=
      { disk := Disk.empty.putFile (Bytes.ofString "notes/old.md") (Bytes.ofString "older"), host := () }
    ∃ after, s.create path portions w = ⟨.ok true, { w with disk := after }, []⟩ ∧
      after.find (Bytes.ofString "notes/new/../old.md") =
        .found [Bytes.ofString "work", Bytes.ofString "notes", Bytes.ofString "old.md"]
          (.file (Bytes.ofString "onetwo")) := by
  intro s path portions w
  have hfacts : (w.disk.IsTree ∧ w.disk.node? w.disk.working = some .directory) ∧
      (∀ seg ∈ Path.segments path, Disk.IsName seg) ∧ (∀ seg ∈ Path.segments s.base, Disk.IsSegment seg) ∧
      (s.resolve path).length < Disk.pathMax ∧
      (∀ p ∈ Path.parents (s.resolve path), ∀ n ∈ w.disk.node? (w.disk.locate p), n = .directory) ∧
      (∀ p ∈ Path.parents (s.resolve path), w.disk.locate p ≠ w.disk.locate (s.resolve path)) ∧
      w.disk.node? (w.disk.locate (s.resolve path)) = some (.file (Bytes.ofString "older")) := by
    decide +kernel
  obtain ⟨⟨htree, hworking⟩, hpath, hbase, hshort, hparents, hplaces, hold⟩ := hfacts
  have hfile : ∀ n ∈ w.disk.node? (w.disk.locate (s.resolve path)), ∃ content, n = .file content := by
    intro n hn
    exact ⟨_, Option.some.inj (hn.symm.trans hold)⟩
  obtain ⟨after, hcreate, hfind, -⟩ := create_reads_back s portions htree hworking hpath hbase hshort hparents
    (fun _ => hplaces) hfile
  exact ⟨after, hcreate, hfind⟩

/-! ## Paths on which there is no file -/

theorem not_create_of_long (s : Session σ) {path : Bytes} (hnul : 0 ∉ s.resolve path)
    (hlong : Disk.pathMax ≤ (s.resolve path).length) (portions : List Bytes) (w : World σ) :
    (s.create path portions w).result = .ok false := by
  have hfind (d : Disk) : d.find (s.resolve path) = .barred := by
    have hne : ¬(s.resolve path).isEmpty := by
      intro hempty
      rw [List.isEmpty_iff.mp hempty] at hlong
      cases hlong
    rw [Disk.find, Bytes.untilNul_of_notMem hnul]
    simp only [if_neg hne, if_pos hlong]
  rw [create_eq]
  rcases Channel.create_cases w.disk (s.resolve path) with ⟨opened, sink, hcreate, -⟩ | hchannel
  · rw [Disk.create?, hfind] at hcreate
    cases hcreate
  · rw [hchannel]
    rfl

/-- The names in a path are neither empty nor those of directories on the way, no NUL byte ends it early,
whatever stands on its way is a directory, and there is no directory in its place. -/
def IsPlain (s : Session σ) (path : Bytes) (d : Disk) : Prop :=
  d.IsTree ∧ d.node? d.working = some .directory ∧
  (∀ seg ∈ Path.segments path, seg ∉ [[], [point], [point, point]] ∧ 0 ∉ seg) ∧
  (∀ p ∈ Path.parents (s.resolve path), ∀ n ∈ d.node? (d.locate p), n = .directory) ∧
  d.node? (d.locate (s.resolve path)) ≠ some .directory

instance (s : Session σ) (path : Bytes) (d : Disk) : Decidable (s.IsPlain path d) :=
  inferInstanceAs (Decidable (_ ∧ _ ∧ _ ∧ _ ∧ _))

/-- A name that is one byte too long. -/
def longName : Bytes := List.replicate 256 0x61

/-- A path that is one byte too long, with names that are not. -/
def longPath : Bytes :=
  (List.replicate 16 (List.replicate 250 0x61 ++ [slash])).flatten ++ List.replicate 80 0x61

/-- A disk with nothing but the root. -/
def bareDisk : Disk := { nodes := ∅, working := [] }

/-- What comes of one portion under a path that is seen from a base directory. -/
def createdFrom (disk : Disk) (base path : Bytes) : Outcome Unit Bool :=
  ({ base } : Session Unit).create path [Bytes.ofString "x"] { disk, host := () }

theorem isPlain_longPath : ({} : Session Unit).IsPlain longPath bareDisk := by
  have hdirectory : ∀ place, ∀ n ∈ bareDisk.node? place, n = .directory := by
    intro place n hn
    rw [Option.mem_def, Disk.node?] at hn
    split at hn
    · exact (Option.some.inj hn).symm
    · simp [bareDisk] at hn
  have hfacts : bareDisk.IsTree ∧
      (∀ seg ∈ Path.segments longPath, seg ∉ [[], [point], [point, point]] ∧ 0 ∉ seg) ∧
      bareDisk.node? (bareDisk.locate (({} : Session Unit).resolve longPath)) ≠ some .directory := by
    decide +kernel
  obtain ⟨htree, hnames, hplace⟩ := hfacts
  exact ⟨htree, rfl, hnames, fun p _ => hdirectory _, hplace⟩

theorem not_create_longPath (disk : Disk) : (createdFrom disk [] longPath).result = .ok false := by
  have hresolve : ({} : Session Unit).resolve longPath = longPath := by
    rw [resolve, Path.resolve, Path.join]
    split <;> rfl
  have hfacts : 0 ∉ longPath ∧ Disk.pathMax ≤ longPath.length := by decide +kernel
  rw [← hresolve] at hfacts
  exact not_create_of_long _ hfacts.1 hfacts.2 _ _

/-- No file comes to be under a path that is too long, under a name that is too long, in the place of a
device, in the place of a directory that is made on the way, and where a NUL byte ends the path early. -/
theorem not_create_of_plain :
    (({} : Session Unit).IsPlain longPath bareDisk ∧ (createdFrom bareDisk [] longPath).result = .ok false) ∧
    (({} : Session Unit).IsPlain longName .empty ∧ (createdFrom .empty [] longName).result = .ok false) ∧
    (({ base := Bytes.ofString "/dev" } : Session Unit).IsPlain (Bytes.ofString "null") .empty ∧
      (createdFrom .empty (Bytes.ofString "/dev") (Bytes.ofString "null")).world.disk.status
        (Bytes.ofString "/dev/null") = .device) ∧
    (({ base := Bytes.ofString "x/.." } : Session Unit).IsPlain (Bytes.ofString "x") .empty ∧
      (createdFrom .empty (Bytes.ofString "x/..") (Bytes.ofString "x")).result = .ok false) ∧
    (({ base := [0x78, 0, 0x79] } : Session Unit).IsPlain (Bytes.ofString "x") .empty ∧
      (createdFrom .empty [0x78, 0, 0x79] (Bytes.ofString "x")).result = .ok false) :=
  ⟨⟨isPlain_longPath, not_create_longPath bareDisk⟩, by decide +kernel⟩

end Session

end Stencil
