import Stencil.Proofs.Listing
import Stencil.Proofs.Occurrences

/-!
# Directories on the way to a file

Of a path only the names count (`Disk.locate`), whatever stands on the disk, as long as the directories on the
way are there: then it leads to the place that it names (`Disk.leads_locate`). What stands in front of each of
its slashes are the paths of these directories, each of which can be made when those in front of it are there
(`Disk.find_of_pathTo_vacant`). So by induction on the path all of them are there after they were made, and
nothing else is changed (`Disk.makeDirectories_parents`).
-/

namespace Stencil

open Ascii

/-! ## Slashes -/

namespace Path

theorem parents_go_of_notMem {seg : Bytes} (before : Bytes) (h : slash ∉ seg) :
    parents.go before seg = [] := by
  induction seg generalizing before with
  | nil => rfl
  | cons b seg ih =>
    rw [List.mem_cons, not_or] at h
    rw [parents.go, if_neg fun hb => h.1 hb.1.symm]
    exact ih _ h.2

theorem parents_go_append (before q : Bytes) {seg : Bytes} (h : slash ∉ seg) :
    parents.go before (q ++ slash :: seg) =
      parents.go before q ++ (if before ++ q = [] then [] else [before ++ q]) := by
  induction q generalizing before with
  | nil =>
    by_cases hbefore : before = [] <;> simp [parents.go, hbefore, parents_go_of_notMem _ h]
  | cons b q ih =>
    have hne : before ++ b :: q ≠ [] := by simp
    have hne' : before ++ [b] ++ q ≠ [] := by simp
    rw [List.cons_append, parents.go, parents.go, ih, if_neg hne', if_neg hne, List.append_assoc]
    split <;> rfl

theorem parents_of_notMem {seg : Bytes} (h : slash ∉ seg) : parents seg = [] := parents_go_of_notMem [] h

theorem parents_append {q : Bytes} (hq : q ≠ []) {seg : Bytes} (h : slash ∉ seg) :
    parents (q ++ slash :: seg) = parents q ++ [q] := by
  rw [parents, parents_go_append [] q h, List.nil_append, if_neg hq]
  rfl

theorem parents_slash {seg : Bytes} (h : slash ∉ seg) : parents (slash :: seg) = [] :=
  parents_go_append [] [] h

theorem isAbsolute_append {q : Bytes} (hq : q ≠ []) (more : Bytes) :
    isAbsolute (q ++ more) = isAbsolute q := by
  obtain ⟨b, rest, rfl⟩ := List.exists_cons_of_ne_nil hq
  rfl

theorem isAbsolute_of_notMem {seg : Bytes} (h : slash ∉ seg) : isAbsolute seg = false := by
  rw [isAbsolute, decide_eq_false_iff_not]
  exact fun hhead => h (List.mem_of_head? hhead)

/-- Each byte of a path is a slash or in one of its segments. -/
theorem mem_segments {path : Bytes} {b : UInt8} (hb : b ∈ path) (hslash : b ≠ slash) :
    ∃ seg ∈ segments path, b ∈ seg := by
  induction path using Bytes.separator_induction slash with
  | part seg h => exact ⟨seg, by simp [segments_of_notMem h], hb⟩
  | append q seg h ih =>
    rw [segments_append_slash, segments_of_notMem h]
    rcases List.mem_append.mp hb with hb | hb
    · obtain ⟨seg', hseg', hb⟩ := ih hb
      exact ⟨seg', List.mem_append_left _ hseg', hb⟩
    · exact ⟨seg, by simp, (List.mem_cons.mp hb).resolve_left hslash⟩

end Path

namespace Disk

variable {d : Disk}

/-! ## The place that a path names -/

/-- Where a path starts. -/
def start (d : Disk) (path : Bytes) : Location := if Path.isAbsolute path then [] else d.working

/-- Where a name leads from a place, whatever is there. -/
def follow (here : Location) (name : Bytes) : Location :=
  if name = [point] then here else if name = [point, point] then here.dropLast else here ++ [name]

theorem locate_eq (d : Disk) (path : Bytes) :
    d.locate path = (Path.names path).foldl follow (d.start path) := rfl

theorem locate_congr {d' : Disk} (h : d'.working = d.working) (path : Bytes) :
    d'.locate path = d.locate path := by
  rw [locate_eq, locate_eq, start, start, h]

theorem locate_append (d : Disk) {q : Bytes} (hq : q ≠ []) (seg : Bytes) :
    d.locate (q ++ slash :: seg) = (Path.names seg).foldl follow (d.locate q) := by
  rw [locate_eq, locate_eq, Path.names_append_slash, List.foldl_append, start, start,
    Path.isAbsolute_append hq]

/-- What can stand between two slashes on the way to a file. -/
def IsSegment (seg : Bytes) : Prop := seg = [] ∨ seg = [point] ∨ seg = [point, point] ∨ IsName seg

instance (seg : Bytes) : Decidable (IsSegment seg) :=
  inferInstanceAs (Decidable (seg = [] ∨ seg = [point] ∨ seg = [point, point] ∨ IsName seg))

theorem IsSegment.noNul {seg : Bytes} (h : IsSegment seg) : 0 ∉ seg := by
  rcases h with rfl | rfl | rfl | h
  · decide
  · decide
  · decide
  · exact h.noNul

theorem leads_segment {here : Location} {seg : Bytes} (hdirectory : d.node? here = some .directory)
    (hseg : IsSegment seg) (hslash : slash ∉ seg) :
    d.Leads here (Path.names seg) ((Path.names seg).foldl follow here) := by
  rcases hseg with rfl | rfl | rfl | hname
  · exact .nil here
  · exact .self hdirectory (.nil here)
  · exact .parent hdirectory (.nil here.dropLast)
  · rw [Path.names_of_notMem hname.ne_nil hslash, List.foldl_cons, follow, if_neg hname.notSelf,
      if_neg hname.notParent]
    exact .child hdirectory hname.notSelf hname.notParent hname.short (.nil _)

theorem Leads.append {here middle place : Location} {names more : List Bytes} (h : d.Leads here names middle)
    (h' : d.Leads middle more place) : d.Leads here (names ++ more) place := by
  induction h with
  | nil here => exact h'
  | self hdirectory _ ih => exact .self hdirectory (ih h')
  | parent hdirectory _ ih => exact .parent hdirectory (ih h')
  | child hdirectory hself hparent hlength _ ih => exact .child hdirectory hself hparent hlength (ih h')

/-- When the directories are there that a path goes through, it leads to the place that it names. -/
theorem leads_locate (hworking : d.node? d.working = some .directory) (path : Bytes)
    (hsegments : ∀ seg ∈ Path.segments path, IsSegment seg)
    (hparents : ∀ p ∈ Path.parents path, d.node? (d.locate p) = some .directory) :
    d.Leads (d.start path) (Path.names path) (d.locate path) := by
  induction path using Bytes.separator_induction slash with
  | part seg h =>
    rw [Path.segments_of_notMem h] at hsegments
    rw [locate_eq, start, Path.isAbsolute_of_notMem h]
    exact leads_segment hworking (hsegments seg (List.mem_singleton_self seg)) h
  | append q seg h ih =>
    rw [Path.segments_append_slash, Path.segments_of_notMem h] at hsegments
    have hseg : IsSegment seg := hsegments seg (by simp)
    by_cases hq : q = []
    · subst hq
      have hroot : d.node? [] = some .directory := rfl
      rw [locate_eq, Path.names_append_slash]
      exact leads_segment hroot hseg h
    · rw [Path.parents_append hq h] at hparents
      rw [locate_append d hq, Path.names_append_slash, start, Path.isAbsolute_append hq]
      refine Leads.append (ih (fun c hc => hsegments c (List.mem_append_left _ hc))
        fun p hp => hparents p (List.mem_append_left _ hp)) ?_
      exact leads_segment (hparents q (by simp)) hseg h

/-! ## What can be made -/

/-- Everything on the disk is in a directory. -/
def IsTree (d : Disk) : Prop :=
  ∀ place n, d.node? place = some n → d.node? place.dropLast = some .directory

instance (d : Disk) : Decidable d.IsTree :=
  decidable_of_iff (∀ entry ∈ d.toList, d.node? entry.1.dropLast = some .directory) <| by
    constructor
    · intro h place n hn
      by_cases hroot : place = []
      · subst hroot
        rfl
      · rw [node?, if_neg (by simpa using hroot)] at hn
        exact h (place, n) (Std.ExtTreeMap.mem_toList_iff_getElem?_eq_some.mpr hn)
    · intro h entry hentry
      by_cases hroot : entry.1 = []
      · rw [hroot]
        rfl
      · refine h entry.1 entry.2 ?_
        rw [node?, if_neg (by simpa using hroot)]
        exact Std.ExtTreeMap.mem_toList_iff_getElem?_eq_some.mp hentry

theorem IsTree.set (h : d.IsTree) {place : Location} (hplace : place ≠ [])
    (hdirectory : d.node? place.dropLast = some .directory) : (d.set place .directory).IsTree := by
  intro other n hn
  rw [node?_set d hplace] at hn ⊢
  split
  · rfl
  · split at hn
    · rename_i heq
      rw [← heq]
      exact hdirectory
    · exact h other n hn

theorem Leads.eq_or_directory {here place : Location} {names : List Bytes} (h : d.Leads here names place) :
    names = [] ∧ place = here ∨ d.node? here = some .directory := by
  cases h with
  | nil => exact .inl ⟨rfl, rfl⟩
  | self hdirectory _ => exact .inr hdirectory
  | parent hdirectory _ => exact .inr hdirectory
  | child hdirectory _ _ _ _ => exact .inr hdirectory

/-- Where names lead to nothing, the last one is that of something in a directory. -/
theorem walk_of_leads_vacant (htree : d.IsTree) {here place : Location} {names : List Bytes}
    (h : d.Leads here names place) (hhere : d.node? here = some .directory) (hnone : d.node? place = none) :
    d.walk here names = .vacant place ∧ d.node? place.dropLast = some .directory := by
  induction h with
  | nil here => exact nomatch hnone.symm.trans hhere
  | self hdirectory _ ih =>
    rw [walk, if_neg (by simpa using hdirectory), if_pos rfl]
    exact ih hdirectory hnone
  | parent hdirectory _ ih =>
    rw [walk, if_neg (by simpa using hdirectory), if_neg (by decide), if_pos rfl]
    exact ih (htree _ _ hdirectory) hnone
  | @child here place name rest hdirectory hself hparent hlength h ih =>
    rw [walk, if_neg (by simpa using hdirectory), if_neg hself, if_neg hparent,
      if_neg (Nat.not_lt.mpr hlength)]
    rcases h.eq_or_directory with ⟨rfl, rfl⟩ | hnext
    · rw [hnone, List.dropLast_concat]
      exact ⟨rfl, hdirectory⟩
    · rw [if_pos (by rw [hnext]; rfl)]
      exact ih hnext hnone

/-- A path on which a file or a directory can be made. Whatever stands on its way is a directory. -/
structure Passable (d : Disk) (path : Bytes) : Prop where
  tree : d.IsTree
  working : d.node? d.working = some .directory
  segments : ∀ seg ∈ Path.segments path, IsSegment seg
  short : path.length < pathMax
  parents : ∀ p ∈ Path.parents path, ∀ n ∈ d.node? (d.locate p), n = .directory

/-- All the directories on the way of a path were made that were not there, and nothing else. -/
structure Prepares (path : Bytes) (d made : Disk) : Prop where
  tree : made.IsTree
  working : made.working = d.working
  parents : ∀ p ∈ Path.parents path, made.node? (d.locate p) = some .directory
  rest : ∀ place, made.node? place = d.node? place ∨
    (d.node? place = none ∧ made.node? place = some .directory ∧ ∃ p ∈ Path.parents path, place = d.locate p)

theorem Passable.noNul {path : Bytes} (h : d.Passable path) : 0 ∉ path := by
  intro hnul
  obtain ⟨seg, hseg, hnul⟩ := Path.mem_segments hnul (by decide)
  exact (h.segments seg hseg).noNul hnul

theorem Prepares.node?_working {path : Bytes} {made : Disk} (h : Prepares path d made)
    (hworking : d.node? d.working = some .directory) : made.node? made.working = some .directory := by
  rw [h.working]
  rcases h.rest d.working with heq | ⟨-, hmade, -⟩
  · rw [heq, hworking]
  · exact hmade

/-- Behind the directories that were made, the path leads to the place that it names. -/
theorem Prepares.pathTo {path : Bytes} {made : Disk} (hpath : d.Passable path) (h : Prepares path d made)
    (hne : path ≠ []) : made.PathTo path (d.locate path) := by
  have hnul : path.untilNul = path := Bytes.untilNul_of_notMem hpath.noNul
  have hleads := leads_locate (h.node?_working hpath.working) path hpath.segments fun p hp => by
    rw [locate_congr h.working]
    exact h.parents p hp
  rw [locate_congr h.working] at hleads
  exact ⟨by rwa [hnul], by rw [hnul]; exact hpath.short, by rw [hnul]; exact hleads⟩

theorem makeDirectories_append (paths more : List Bytes) (h : (d.makeDirectories paths).2 = []) :
    d.makeDirectories (paths ++ more) = (d.makeDirectories paths).1.makeDirectories more := by
  induction paths generalizing d with
  | nil => rfl
  | cons path rest ih =>
    cases hstatus : d.status path <;> simp only [List.cons_append, makeDirectories, hstatus] at h ⊢
    case directory => exact ih h
    case file | device => cases h
    case missing | barred =>
      cases hmade : d.makeDirectory? path with
      | none =>
        simp only [hmade] at h
        cases h
      | some made =>
        simp only [hmade] at h ⊢
        exact ih h

theorem find_of_pathTo_vacant {q : Bytes} {place : Location} (htree : d.IsTree)
    (hworking : d.node? d.working = some .directory) (hpath : d.PathTo q place)
    (hnone : d.node? place = none) :
    d.find q = .vacant place ∧ d.node? place.dropLast = some .directory := by
  have hstart : d.node? (if Path.isAbsolute q.untilNul then [] else d.working) = some .directory := by
    split
    · rfl
    · exact hworking
  obtain ⟨hwalk, hdirectory⟩ := walk_of_leads_vacant htree hpath.leads hstart hnone
  refine ⟨?_, hdirectory⟩
  simp only [find, if_neg (Nat.not_le.mpr hpath.short), hwalk]
  simpa using hpath.ne_nil

/-- A directory is there after it was made, if nothing else has stood in its place. -/
theorem makeDirectories_single {q : Bytes} {place : Location} (htree : d.IsTree)
    (hworking : d.node? d.working = some .directory) (hpath : d.PathTo q place)
    (hold : ∀ n ∈ d.node? place, n = .directory) :
    (d.makeDirectories [q]).2 = [] ∧ (d.makeDirectories [q]).1.IsTree ∧
      (d.makeDirectories [q]).1.working = d.working ∧
      ∀ other, (d.makeDirectories [q]).1.node? other =
        if other = place then some .directory else d.node? other := by
  cases hn : d.node? place with
  | some n =>
    obtain rfl := hold n hn
    have hfind := find_of_pathTo hpath hn fun _ => rfl
    have hmake : d.makeDirectories [q] = (d, []) := by
      simp [makeDirectories, status, hfind]
    rw [hmake]
    refine ⟨rfl, htree, rfl, fun other => ?_⟩
    split
    · subst other
      exact hn
    · rfl
  | none =>
    have hplace : place ≠ [] := by
      rintro rfl
      cases hn
    obtain ⟨hfind, hdirectory⟩ := find_of_pathTo_vacant htree hworking hpath hn
    have hmake : d.makeDirectories [q] = (d.set place .directory, []) := by
      simp [makeDirectories, status, makeDirectory?, hfind]
    rw [hmake]
    refine ⟨rfl, htree.set hplace hdirectory, rfl, fun other => ?_⟩
    rw [node?_set d hplace]
    simp only [eq_comm]

theorem Passable.front {q seg : Bytes} (h : d.Passable (q ++ slash :: seg)) (hq : q ≠ [])
    (hseg : slash ∉ seg) : d.Passable q where
  tree := h.tree
  working := h.working
  segments c hc := h.segments c (by rw [Path.segments_append_slash]; exact List.mem_append_left _ hc)
  short := by
    have := h.short
    rw [List.length_append] at this
    omega
  parents p hp := h.parents p (by rw [Path.parents_append hq hseg]; exact List.mem_append_left _ hp)

theorem Passable.prepares_self {path : Bytes} (h : d.Passable path) (hnone : Path.parents path = []) :
    Prepares path d d where
  tree := h.tree
  working := rfl
  parents p hp := by
    rw [hnone] at hp
    cases hp
  rest place := .inl rfl

/-- One more directory on the way. -/
theorem Prepares.append {q seg : Bytes} {made made' : Disk} (h : Prepares q d made) (hq : q ≠ [])
    (hseg : slash ∉ seg) (hold : ∀ n ∈ d.node? (d.locate q), n = .directory) (htree : made'.IsTree)
    (hworking : made'.working = made.working)
    (hnode : ∀ other, made'.node? other = if other = d.locate q then some .directory else made.node? other) :
    Prepares (q ++ slash :: seg) d made' where
  tree := htree
  working := hworking.trans h.working
  parents p hp := by
    rw [Path.parents_append hq hseg, List.mem_append, List.mem_singleton] at hp
    rw [hnode]
    split
    · rfl
    · rename_i hne
      rcases hp with hp | rfl
      · exact h.parents p hp
      · exact absurd rfl hne
  rest place := by
    rw [hnode, Path.parents_append hq hseg]
    split
    · rename_i hplace
      subst hplace
      cases hn : d.node? (d.locate q) with
      | some n => exact .inl (by rw [hold n hn])
      | none => exact .inr ⟨rfl, rfl, q, by simp, rfl⟩
    · refine (h.rest place).imp_right fun ⟨hnone, hmade, p, hp, hplace⟩ => ?_
      exact ⟨hnone, hmade, p, List.mem_append_left _ hp, hplace⟩

/-- Induction on the path: the directories in front of a slash are there when the one behind them is made. -/
theorem makeDirectories_parents (path : Bytes) (h : d.Passable path) :
    (d.makeDirectories (Path.parents path)).2 = [] ∧
      Prepares path d (d.makeDirectories (Path.parents path)).1 := by
  induction path using Bytes.separator_induction slash with
  | part seg hseg =>
    have hnone := Path.parents_of_notMem hseg
    rw [hnone]
    exact ⟨rfl, h.prepares_self hnone⟩
  | append q seg hseg ih =>
    by_cases hq : q = []
    · subst hq
      have hnone : Path.parents ([] ++ slash :: seg) = [] := Path.parents_slash hseg
      rw [hnone]
      exact ⟨rfl, h.prepares_self hnone⟩
    · have hfront := h.front hq hseg
      have hparents := Path.parents_append hq hseg
      have hold : ∀ n ∈ d.node? (d.locate q), n = .directory := h.parents q (by simp [hparents])
      obtain ⟨hquiet, hprepared⟩ := ih hfront
      have hold' : ∀ n ∈ (d.makeDirectories (Path.parents q)).1.node? (d.locate q), n = .directory := by
        intro n hn
        rcases hprepared.rest (d.locate q) with heq | ⟨-, hmade, -⟩
        · exact hold n (heq ▸ hn)
        · exact Option.some.inj (hn.symm.trans hmade)
      obtain ⟨hquiet', htree, hworking, hnode⟩ := makeDirectories_single hprepared.tree
        (hprepared.node?_working h.working) (hprepared.pathTo hfront hq) hold'
      rw [hparents, makeDirectories_append _ _ hquiet]
      exact ⟨hquiet', hprepared.append hq hseg hold htree hworking hnode⟩

end Disk

end Stencil
