import Stencil.Writer

/-!
# Paths on disks that change

A path leads through directories to a place (`Disk.Leads`), and does so as long as these directories are
there (`Disk.Leads.of_grows`). So a path leads to the same place when there is more on the disk
(`PathTo.of_grows`), and to what was put in this place if nothing was there before (`find_of_pathTo`): a file
that was opened for writing is found under its path (`create?_eq_some`), and the directories that were made
for it are found under theirs (`moreDirectories_makeDirectories`).
-/

namespace Stencil

open Ascii

namespace Disk

/-! ## One place -/

theorem node?_set (d : Disk) {place : Location} (hplace : place ≠ []) (n : Node) (other : Location) :
    (d.set place n).node? other = if place = other then some n else d.node? other := by
  by_cases hroot : other = []
  · rw [hroot, if_neg hplace]
    rfl
  · have hempty : other.isEmpty = false := by simpa using hroot
    simp only [node?, set, hempty, Std.ExtTreeMap.getElem?_insert, Std.LawfulEqCmp.compare_eq_iff_eq]
    rfl

/-! ## Following names -/

/-- Names lead from a place to another one, through directories. There may be nothing in the last place. -/
inductive Leads (d : Disk) : (here : Location) → List Bytes → (place : Location) → Prop
  | nil (here : Location) : Leads d here [] here
  | self {here place : Location} {rest : List Bytes} (hdirectory : d.node? here = some .directory)
      (h : Leads d here rest place) : Leads d here ([point] :: rest) place
  | parent {here place : Location} {rest : List Bytes} (hdirectory : d.node? here = some .directory)
      (h : Leads d here.dropLast rest place) : Leads d here ([point, point] :: rest) place
  | child {here place : Location} {name : Bytes} {rest : List Bytes}
      (hdirectory : d.node? here = some .directory) (hself : name ≠ [point])
      (hparent : name ≠ [point, point]) (hlength : name.length ≤ nameMax)
      (h : Leads d (here ++ [name]) rest place) : Leads d here (name :: rest) place

theorem leads_of_walk_found {d : Disk} {here place : Location} {names : List Bytes} {n : Node}
    (h : d.walk here names = .found place n) :
    d.Leads here names place ∧ d.node? place = some n := by
  fun_induction walk d here names with
  | case1 here n' hn =>
    cases h
    exact ⟨.nil _, hn⟩
  | case4 here rest hdirectory ih => exact (ih h).imp_left (.self (by simpa using hdirectory))
  | case5 here rest hdirectory hself ih => exact (ih h).imp_left (.parent (by simpa using hdirectory))
  | case7 here name rest hdirectory hself hparent hlength hsome ih =>
    exact (ih h).imp_left (.child (by simpa using hdirectory) hself hparent (Nat.not_lt.mp hlength))
  | _ => cases h

theorem leads_of_walk_vacant {d : Disk} {here place : Location} {names : List Bytes}
    (h : d.walk here names = .vacant place) :
    d.Leads here names place ∧ d.node? place = none ∧ place ≠ [] := by
  fun_induction walk d here names with
  | case4 here rest hdirectory ih => exact (ih h).imp_left (.self (by simpa using hdirectory))
  | case5 here rest hdirectory hself ih => exact (ih h).imp_left (.parent (by simpa using hdirectory))
  | case7 here name rest hdirectory hself hparent hlength hsome ih =>
    exact (ih h).imp_left (.child (by simpa using hdirectory) hself hparent (Nat.not_lt.mp hlength))
  | case8 here name rest hdirectory hself hparent hlength hnone hlast =>
    cases h
    obtain rfl := List.isEmpty_iff.mp hlast
    refine ⟨.child (by simpa using hdirectory) hself hparent (Nat.not_lt.mp hlength) (.nil _), ?_, ?_⟩
    · simpa using hnone
    · simp
  | _ => cases h

theorem Leads.isSome_node? {d : Disk} {here place : Location} {names : List Bytes}
    (h : d.Leads here names place) (hplace : (d.node? place).isSome) : (d.node? here).isSome := by
  cases h with
  | nil => exact hplace
  | self hdirectory _ => rw [hdirectory]; rfl
  | parent hdirectory _ => rw [hdirectory]; rfl
  | child hdirectory _ _ _ _ => rw [hdirectory]; rfl

/-- Where names lead to something, the names behind them are followed from there. -/
theorem walk_append {d : Disk} {here place : Location} {names : List Bytes} (h : d.Leads here names place)
    (hplace : (d.node? place).isSome) (more : List Bytes) :
    d.walk here (names ++ more) = d.walk place more := by
  induction h with
  | nil here => rfl
  | self hdirectory _ ih =>
    rw [List.cons_append, walk, if_neg (by simpa using hdirectory), if_pos rfl, ih hplace]
  | parent hdirectory _ ih =>
    rw [List.cons_append, walk, if_neg (by simpa using hdirectory), if_neg (by decide), if_pos rfl,
      ih hplace]
  | child hdirectory hself hparent hlength h ih =>
    rw [List.cons_append, walk, if_neg (by simpa using hdirectory), if_neg hself, if_neg hparent,
      if_neg (Nat.not_lt.mpr hlength), if_pos (h.isSome_node? hplace), ih hplace]

theorem walk_of_leads {d : Disk} {here place : Location} {names : List Bytes} {n : Node}
    (h : d.Leads here names place) (hn : d.node? place = some n) : d.walk here names = .found place n := by
  have hwalk := walk_append h (Option.isSome_iff_exists.mpr ⟨n, hn⟩) []
  rwa [List.append_nil, walk, hn] at hwalk

/-- The second disk has something in each place in which the first has, and the same directories among
these places. -/
structure Grows (before after : Disk) : Prop where
  working : after.working = before.working
  node {place : Location} {n : Node} (h : before.node? place = some n) :
    ∃ n', after.node? place = some n' ∧ (n' = .directory ↔ n = .directory)

theorem Leads.of_grows {d d' : Disk} (hd : d.Grows d') {here place : Location} {names : List Bytes}
    (h : d.Leads here names place) : d'.Leads here names place := by
  have hdirectory {here : Location} (h : d.node? here = some .directory) :
      d'.node? here = some .directory := by
    obtain ⟨n, hn, hiff⟩ := hd.node h
    rw [hn, hiff.mpr rfl]
  induction h with
  | nil here => exact .nil here
  | self h _ ih => exact .self (hdirectory h) ih
  | parent h _ ih => exact .parent (hdirectory h) ih
  | child h hself hparent hlength _ ih => exact .child (hdirectory h) hself hparent hlength ih

/-! ## Following paths -/

/-- A path can be followed at all, and leads to this place. -/
structure PathTo (d : Disk) (path : Bytes) (place : Location) : Prop where
  ne_nil : path.untilNul ≠ []
  short : path.untilNul.length < pathMax
  leads : d.Leads (if Path.isAbsolute path.untilNul then [] else d.working)
    (Path.names path.untilNul) place

/-- A slash at the end of a path asks for a directory. -/
def AsksForDirectory (path : Bytes) : Prop := path.untilNul.getLast? = some slash

theorem pathTo_of_found {d : Disk} {path : Bytes} {place : Location} {n : Node}
    (h : d.find path = .found place n) :
    d.PathTo path place ∧ d.node? place = some n ∧ (AsksForDirectory path → n = .directory) := by
  simp only [find] at h
  split at h
  · cases h
  · rename_i hne
    split at h
    · cases h
    · rename_i hshort
      split at h
      · rename_i place' n' hwalk
        split at h
        · cases h
        · rename_i hslash
          cases h
          obtain ⟨hleads, hn⟩ := leads_of_walk_found hwalk
          refine ⟨⟨by simpa using hne, Nat.not_le.mp hshort, hleads⟩, hn, fun hasks => ?_⟩
          exact Decidable.not_not.mp fun hdirectory => hslash ⟨hasks, hdirectory⟩
      · rename_i other hother
        exact absurd h (hother _ _)

theorem pathTo_of_vacant {d : Disk} {path : Bytes} {place : Location} (h : d.find path = .vacant place) :
    d.PathTo path place ∧ d.node? place = none ∧ place ≠ [] := by
  simp only [find] at h
  split at h
  · cases h
  · rename_i hne
    split at h
    · cases h
    · rename_i hshort
      split at h
      · split at h
        · cases h
        · cases h
      · obtain ⟨hleads, hnone⟩ := leads_of_walk_vacant h
        exact ⟨⟨by simpa using hne, Nat.not_le.mp hshort, hleads⟩, hnone⟩

theorem find_of_pathTo {d : Disk} {path : Bytes} {place : Location} (h : d.PathTo path place) {n : Node}
    (hn : d.node? place = some n) (hasks : AsksForDirectory path → n = .directory) :
    d.find path = .found place n := by
  have hwalk := walk_of_leads h.leads hn
  have hslash : ¬(path.untilNul.getLast? = some slash ∧ n ≠ .directory) :=
    fun ⟨hslash, hdirectory⟩ => hdirectory (hasks hslash)
  simp only [find, if_neg (Nat.not_le.mpr h.short), hwalk, if_neg hslash]
  simpa using h.ne_nil

theorem PathTo.of_grows {d d' : Disk} (hd : d.Grows d') {path : Bytes} {place : Location}
    (h : d.PathTo path place) : d'.PathTo path place :=
  ⟨h.ne_nil, h.short, hd.working ▸ h.leads.of_grows hd⟩

/-! ## New files -/

theorem grows_set {d : Disk} {place : Location} (hplace : place ≠ []) {n : Node}
    (h : ∀ old, d.node? place = some old → (n = .directory ↔ old = .directory)) : d.Grows (d.set place n) where
  working := rfl
  node {other old} hold := by
    rw [node?_set d hplace]
    split
    · rename_i heq
      exact ⟨n, rfl, h old (heq ▸ hold)⟩
    · exact ⟨old, hold, Iff.rfl⟩

/-- What is opened for writing is a device, or a file that is empty then; it was there before, or there
was nothing. -/
theorem create?_eq_some {d opened : Disk} {path : Bytes} {sink : Sink}
    (h : d.create? path = some (opened, sink)) :
    (∃ dev, opened = d ∧ sink = .device dev) ∨
    ∃ place, sink = .file place ∧ opened = d.set place (.file []) ∧ place ≠ [] ∧
      opened.find path = .found place (.file []) := by
  have hopened {place : Location} (hpath : d.PathTo path place) (hplace : place ≠ [])
      (hold : ∀ old, d.node? place = some old → ∃ content, old = .file content)
      (hasks : ¬AsksForDirectory path) :
      (d.set place (.file [])).find path = .found place (.file []) := by
    have hgrows : d.Grows (d.set place (.file [])) := grows_set hplace fun old hn => by
      obtain ⟨content, rfl⟩ := hold old hn
      simp
    refine find_of_pathTo (hpath.of_grows hgrows) ?_ fun h => absurd h hasks
    rw [node?_set d hplace, if_pos rfl]
  unfold create? at h
  split at h
  · rename_i place content hfind
    cases h
    obtain ⟨hpath, hn, hasks⟩ := pathTo_of_found hfind
    have hplace : place ≠ [] := by
      rintro rfl
      cases hn
    refine .inr ⟨place, rfl, rfl, hplace, hopened hpath hplace (fun old hold => ⟨content, ?_⟩) fun h => ?_⟩
    · exact Option.some.inj (hold.symm.trans hn)
    · exact nomatch hasks h
  · cases h
    exact .inl ⟨_, rfl, rfl⟩
  · rename_i place hfind
    split at h
    · cases h
    · rename_i hasks
      cases h
      obtain ⟨hpath, hnone, hplace⟩ := pathTo_of_vacant hfind
      refine .inr ⟨place, rfl, rfl, hplace, hopened hpath hplace (fun old hold => ?_) hasks⟩
      exact nomatch hnone.symm.trans hold
  · cases h

/-! ## New directories -/

/-- The second disk is the first with more directories, each of which stands where one of these paths
leads. -/
structure MoreDirectories (paths : List Bytes) (before after : Disk) : Prop where
  working : after.working = before.working
  node (place : Location) : after.node? place = before.node? place ∨
    (before.node? place = none ∧ ∃ path ∈ paths, after.find path = .found place .directory)

namespace MoreDirectories

variable {d d' d'' : Disk} {paths : List Bytes}

theorem refl (paths : List Bytes) (d : Disk) : MoreDirectories paths d d := ⟨rfl, fun _ => .inl rfl⟩

theorem grows (h : MoreDirectories paths d d') : d.Grows d' where
  working := h.working
  node {place n} hn := by
    rcases h.node place with heq | ⟨hnone, -⟩
    · exact ⟨n, heq.trans hn, Iff.rfl⟩
    · exact nomatch hnone.symm.trans hn

theorem cons {path : Bytes} (h : MoreDirectories [path] d d') (h' : MoreDirectories paths d' d'') :
    MoreDirectories (path :: paths) d d'' where
  working := h'.working.trans h.working
  node place := by
    rcases h'.node place with heq' | ⟨hnone', p, hp, hfind⟩
    · rcases h.node place with heq | ⟨hnone, p, hp, hfind⟩
      · exact .inl (heq'.trans heq)
      · obtain ⟨hpath, hn, -⟩ := pathTo_of_found hfind
        have hfind' := find_of_pathTo (hpath.of_grows h'.grows) (heq'.trans hn) fun _ => rfl
        exact .inr ⟨hnone, p, List.mem_cons.mpr (.inl (List.mem_singleton.mp hp)), hfind'⟩
    · refine .inr ⟨?_, p, List.mem_cons_of_mem _ hp, hfind⟩
      rcases h.node place with heq | ⟨hnone, -⟩
      · exact heq ▸ hnone'
      · exact hnone

theorem mono {more : List Bytes} (h : MoreDirectories paths d d') (hsub : ∀ p ∈ paths, p ∈ more) :
    MoreDirectories more d d' where
  working := h.working
  node place := (h.node place).imp_right fun ⟨hnone, p, hp, hfind⟩ => ⟨hnone, p, hsub p hp, hfind⟩

end MoreDirectories

theorem moreDirectories_makeDirectory? {d made : Disk} {path : Bytes}
    (h : d.makeDirectory? path = some made) : MoreDirectories [path] d made := by
  unfold makeDirectory? at h
  split at h
  · rename_i place hfind
    cases h
    obtain ⟨hpath, hnone, hplace⟩ := pathTo_of_vacant hfind
    have hgrows : d.Grows (d.set place .directory) :=
      grows_set hplace fun old hold => nomatch hnone.symm.trans hold
    have hn : (d.set place .directory).node? place = some .directory := by
      rw [node?_set d hplace, if_pos rfl]
    refine ⟨rfl, fun other => ?_⟩
    by_cases hother : place = other
    · subst hother
      refine .inr ⟨hnone, path, List.mem_singleton_self path, ?_⟩
      exact find_of_pathTo (hpath.of_grows hgrows) hn fun _ => rfl
    · rw [node?_set d hplace, if_neg hother]
      exact .inl rfl
  · cases h

/-- Making directories changes nothing that is there. -/
theorem moreDirectories_makeDirectories (d : Disk) (paths : List Bytes) :
    MoreDirectories paths d (d.makeDirectories paths).1 := by
  induction paths generalizing d with
  | nil => exact .refl [] d
  | cons path rest ih =>
    have hrest (d : Disk) : MoreDirectories (path :: rest) d (d.makeDirectories rest).1 :=
      (ih d).mono fun _ => List.mem_cons_of_mem path
    rw [makeDirectories]
    split
    · exact hrest d
    · exact .refl _ d
    · exact .refl _ d
    · split
      · rename_i made hmade
        exact (moreDirectories_makeDirectory? hmade).cons (ih made)
      · exact hrest d
    · split
      · rename_i made hmade
        exact (moreDirectories_makeDirectory? hmade).cons (ih made)
      · exact hrest d

end Disk

/-- A channel to a path is opened behind the directories that lead there, or it leads nowhere. -/
theorem Channel.create_cases (disk : Disk) (path : Bytes) :
    (∃ opened sink, (disk.makeDirectories (Path.parents path)).1.create? path = some (opened, sink) ∧
      create disk path =
        ({ disk := opened, sink? := some sink }, (disk.makeDirectories (Path.parents path)).2)) ∨
    create disk path =
      ({ disk := (disk.makeDirectories (Path.parents path)).1, sink? := none },
        (disk.makeDirectories (Path.parents path)).2 ++ [.cannotCreate path]) := by
  unfold create
  dsimp only
  split
  · rename_i opened sink hcreate
    exact .inl ⟨opened, sink, hcreate, rfl⟩
  · exact .inr rfl

end Stencil
