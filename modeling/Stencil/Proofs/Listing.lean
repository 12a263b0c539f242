import Mathlib.Data.List.TakeWhile
import Stencil.Proofs.DiskPaths

/-!
# What a listing shows

A path with a name behind it, with one slash between the two or with a slash that the path has already,
leads to what has this name in the directory that the path leads to (`Disk.find_of_enters`). A listing goes
through the names in the directory and looks each of them up in this way, so it shows the regular files in
just this directory, in the order of their names, whatever the path looks like (`Disk.list_of_found`).
-/

namespace Stencil

open Ascii

/-! ## Paths with a name behind them -/

theorem Bytes.untilNul_of_notMem {s : Bytes} (h : 0 ∉ s) : s.untilNul = s :=
  List.takeWhile_eq_self_iff.mpr fun _ hb => bne_iff_ne.mpr fun heq => h (heq ▸ hb)

theorem Bytes.untilNul_append {s : Bytes} (h : 0 ∈ s) (t : Bytes) : (s ++ t).untilNul = s.untilNul := by
  induction s with
  | nil => cases h
  | cons b s ih =>
    rw [List.cons_append, untilNul, untilNul, List.takeWhile_cons, List.takeWhile_cons]
    by_cases hb : b = 0
    · rw [if_neg (by simpa using hb), if_neg (by simpa using hb)]
    · rw [if_pos (by simpa using hb), if_pos (by simpa using hb)]
      exact congrArg (b :: ·) (ih ((List.mem_cons.mp h).resolve_left (Ne.symm hb)))

namespace Path

theorem segments_ne_nil (path : Bytes) : segments path ≠ [] := by
  cases path with
  | nil => simp [segments]
  | cons b path =>
    rw [segments]
    split
    · exact List.cons_ne_nil _ _
    · split <;> exact List.cons_ne_nil _ _

theorem segments_append_slash (p q : Bytes) : segments (p ++ slash :: q) = segments p ++ segments q := by
  induction p with
  | nil => simp [segments]
  | cons b p ih =>
    rw [List.cons_append, segments, segments, ih]
    split
    · rfl
    · obtain ⟨s, more, hs⟩ := List.exists_cons_of_ne_nil (segments_ne_nil p)
      rw [hs]
      rfl

theorem segments_of_notMem {name : Bytes} (h : slash ∉ name) : segments name = [name] := by
  induction name with
  | nil => rfl
  | cons b name ih =>
    rw [List.mem_cons, not_or] at h
    rw [segments, if_neg (Ne.symm h.1), ih h.2]

theorem names_append_slash (p q : Bytes) : names (p ++ slash :: q) = names p ++ names q := by
  rw [names, segments_append_slash, List.filter_append, names, names]

theorem names_of_notMem {name : Bytes} (hne : name ≠ []) (h : slash ∉ name) : names name = [name] := by
  rw [names, segments_of_notMem h]
  exact List.filter_cons_of_pos (by simpa using hne)

/-- The second path is the first with a name behind it: with a slash between the two, or with the slash at
the end of the first one. -/
inductive Enters (path name : Bytes) : Bytes → Prop
  | slash : Enters path name (path ++ slash :: name)
  | ended (h : path.getLast? = some Ascii.slash) : Enters path name (path ++ name)

namespace Enters

variable {path name sub : Bytes} (h : Enters path name sub)
include h

theorem names_eq (hne : name ≠ []) (hslash : Ascii.slash ∉ name) : names sub = names path ++ [name] := by
  cases h with
  | slash => rw [names_append_slash, names_of_notMem hne hslash]
  | ended hlast =>
    obtain ⟨before, rfl⟩ := List.getLast?_eq_some_iff.mp hlast
    rw [List.append_assoc, List.singleton_append, names_append_slash, names_of_notMem hne hslash,
      names_append_slash]
    exact congrArg (· ++ _) (List.append_nil _).symm

theorem isAbsolute_eq (hpath : path ≠ []) : isAbsolute sub = isAbsolute path := by
  cases path with
  | nil => exact absurd rfl hpath
  | cons b path =>
    cases h with
    | slash => rfl
    | ended hlast => rfl

theorem nul_notMem (hpath : 0 ∉ path) (hname : 0 ∉ name) : 0 ∉ sub := by
  cases h with
  | slash => simpa [hpath, hname] using by decide
  | ended hlast => simp [hpath, hname]

theorem untilNul_eq (hnul : 0 ∈ path) : sub.untilNul = path.untilNul := by
  cases h with
  | slash => exact Bytes.untilNul_append hnul _
  | ended => exact Bytes.untilNul_append hnul _

theorem getLast?_eq (hne : name ≠ []) : sub.getLast? = name.getLast? := by
  obtain ⟨before, b, hname⟩ := (List.eq_nil_or_concat name).resolve_left hne
  obtain rfl : name = before ++ [b] := hname.trans (List.concat_eq_append ..)
  cases h with
  | slash => rw [← List.cons_append, ← List.append_assoc, List.getLast?_concat, List.getLast?_concat]
  | ended hlast => rw [← List.append_assoc, List.getLast?_concat, List.getLast?_concat]

end Enters

theorem enters_join {path name : Bytes} (hpath : path ≠ []) (hne : name ≠ []) (hslash : slash ∉ name) :
    Enters path name (join path name) := by
  have hhead : name.head? ≠ some slash := fun h => hslash (List.mem_of_head? h)
  rw [join, if_neg (by simpa using hpath), if_neg (by simpa using hne), if_neg fun h => hhead h.2]
  by_cases hlast : path.getLast? = some slash
  · rw [if_pos (.inl hlast)]
    exact .ended hlast
  · rw [if_neg (not_or.mpr ⟨hlast, hhead⟩)]
    exact .slash

end Path

namespace Disk

/-! ## Names on a disk -/

/-- What can be the name of a file or of a directory. -/
structure IsName (name : Bytes) : Prop where
  ne_nil : name ≠ []
  noSlash : slash ∉ name
  noNul : 0 ∉ name
  notSelf : name ≠ [point]
  notParent : name ≠ [point, point]
  short : name.length ≤ nameMax

instance (name : Bytes) : Decidable (IsName name) :=
  decidable_of_iff (name ≠ [] ∧ slash ∉ name ∧ 0 ∉ name ∧ name ≠ [point] ∧ name ≠ [point, point] ∧
      name.length ≤ nameMax)
    ⟨fun ⟨hne, hslash, hnul, hself, hparent, hshort⟩ => ⟨hne, hslash, hnul, hself, hparent, hshort⟩,
      fun h => ⟨h.ne_nil, h.noSlash, h.noNul, h.notSelf, h.notParent, h.short⟩⟩

/-- Everything on the disk is under such names. -/
def WellNamed (d : Disk) : Prop := ∀ entry ∈ d.toList, ∀ name ∈ entry.1, IsName name

instance (d : Disk) : Decidable d.WellNamed :=
  inferInstanceAs (Decidable (∀ entry ∈ d.toList, ∀ name ∈ entry.1, IsName name))

/-! ## Following a path and a name -/

theorem walk_name {d : Disk} {place : Location} {name : Bytes} (hdirectory : d.node? place = some .directory)
    (hname : IsName name) :
    d.walk place [name] = (d.node? (place ++ [name])).elim (.vacant (place ++ [name]))
      (.found (place ++ [name])) := by
  rw [walk, if_neg (by simpa using hdirectory), if_neg hname.notSelf, if_neg hname.notParent,
    if_neg (Nat.not_lt.mpr hname.short)]
  cases hn : d.node? (place ++ [name]) with
  | none => rfl
  | some n =>
    simp only [walk, hn]
    rfl

/-- A path with a name behind it leads to what has this name, unless it is too long. -/
theorem find_of_enters {d : Disk} {path name sub : Bytes} {place : Location} (h : d.PathTo path place)
    (hnul : 0 ∉ path) (hdirectory : d.node? place = some .directory) (hname : IsName name)
    (hsub : Path.Enters path name sub) :
    d.find sub = if pathMax ≤ sub.length then .barred
      else (d.node? (place ++ [name])).elim (.vacant (place ++ [name])) (.found (place ++ [name])) := by
  have hpath : path.untilNul = path := Bytes.untilNul_of_notMem hnul
  have huntil : sub.untilNul = sub := Bytes.untilNul_of_notMem (hsub.nul_notMem hnul hname.noNul)
  have hne : path ≠ [] := hpath ▸ h.ne_nil
  have hleads := h.leads
  rw [hpath] at hleads
  have hwalk : d.walk (if Path.isAbsolute sub then [] else d.working) (Path.names sub) =
      (d.node? (place ++ [name])).elim (.vacant (place ++ [name])) (.found (place ++ [name])) := by
    rw [hsub.names_eq hname.ne_nil hname.noSlash, hsub.isAbsolute_eq hne,
      walk_append hleads (by rw [hdirectory]; rfl), walk_name hdirectory hname]
  have hlast : sub.getLast? ≠ some slash := by
    rw [hsub.getLast?_eq hname.ne_nil]
    exact fun hlast => hname.noSlash (List.mem_of_getLast? hlast)
  have hempty : ¬sub.isEmpty := by
    cases hsub with
    | slash => simp
    | ended => simp [hname.ne_nil]
  simp only [find, huntil, hwalk]
  rw [if_neg hempty]
  split
  · rfl
  · cases d.node? (place ++ [name]) with
    | none => rfl
    | some n => exact if_neg fun h => hlast h.1

theorem status_eq_file_iff {d : Disk} {path : Bytes} :
    d.status path = .file ↔ ∃ place content, d.find path = .found place (.file content) := by
  unfold status
  split <;> simp_all

/-! ## Names in a directory -/

theorem compare_append (place a b : Location) : compare (place ++ a) (place ++ b) = compare a b := by
  induction place with
  | nil => rfl
  | cons name place ih =>
    have hname : compare name name = .eq := Std.ReflCmp.compare_self
    rw [List.cons_append, List.cons_append, List.compare_eq_compareLex, List.compareLex_cons_cons, hname,
      Ordering.eq_then, ← List.compare_eq_compareLex, ih]

/-- The order of byte strings is that of their bytes. -/
theorem lt_of_compare {a b : Bytes} (h : compare a b = .lt) : a < b := by
  induction a generalizing b with
  | nil =>
    cases b with
    | nil => cases h
    | cons c b => exact List.nil_lt_cons c b
  | cons c a ih =>
    cases b with
    | nil => cases h
    | cons c' b =>
      rw [List.compare_eq_compareLex, List.compareLex_cons_cons, Ordering.then_eq_lt] at h
      rcases h with h | ⟨heq, h⟩
      · exact List.Lex.rel (Std.compare_eq_lt.mp h)
      · obtain rfl := Std.LawfulEqCmp.eq_of_compare heq
        exact List.Lex.cons (ih h)

/-- A key of the disk gives a name in a directory if it is a place in there. -/
theorem entry_eq_some_iff {place key : Location} {name : Bytes} :
    (if key.dropLast = place then key.getLast? else none) = some name ↔ key = place ++ [name] := by
  constructor
  · intro h
    split at h
    · rename_i hplace
      obtain ⟨before, rfl⟩ := List.getLast?_eq_some_iff.mp h
      rw [← hplace, List.dropLast_concat]
    · cases h
  · rintro rfl
    rw [List.dropLast_concat, if_pos rfl, List.getLast?_concat]

theorem mem_entries_iff {d : Disk} {place : Location} {name : Bytes} :
    name ∈ d.entries place ↔ place ++ [name] ∈ d.nodes.keys := by
  simp only [entries, List.mem_filterMap, entry_eq_some_iff, exists_eq_right]

theorem isSome_node?_iff {d : Disk} {place : Location} {name : Bytes} :
    (d.node? (place ++ [name])).isSome ↔ name ∈ d.entries place := by
  have hempty : (place ++ [name]).isEmpty = false := by simp
  rw [mem_entries_iff, Std.ExtTreeMap.mem_keys, Std.ExtTreeMap.mem_iff_isSome_getElem?, node?, hempty]
  exact Iff.rfl

theorem entries_sorted (d : Disk) (place : Location) : (d.entries place).Pairwise (· < ·) := by
  refine List.pairwise_filterMap.mpr (Std.ExtTreeMap.ordered_keys.imp ?_)
  intro key key' h name hname name' hname'
  rw [entry_eq_some_iff.mp hname, entry_eq_some_iff.mp hname', compare_append,
    List.compare_eq_compareLex, List.compareLex_cons_cons, List.compareLex_nil_nil, Ordering.then_eq] at h
  exact lt_of_compare h

/-! ## Listing -/

/-- The directory that a path leads to is listed. -/
theorem list_of_found {d : Disk} {path : Bytes} {place : Location} (h : d.find path = .found place .directory) :
    d.list path = .ok ((d.entries place).filter fun name =>
      name.head? ≠ some point ∧ d.status (Path.join path name) = .file) := by
  rw [list, h]

theorem find_congr {d : Disk} {path path' : Bytes} (h : path.untilNul = path'.untilNul) :
    d.find path = d.find path' := by
  simp only [find, h]

theorem ne_nil_of_found {d : Disk} {path : Bytes} {place : Location} {n : Node}
    (h : d.find path = .found place n) : path ≠ [] := by
  rintro rfl
  exact (pathTo_of_found h).1.ne_nil rfl

section

variable {d : Disk} (hwell : d.WellNamed) {path : Bytes} {place : Location}
include hwell

theorem isName_of_mem_entries {name : Bytes} (hname : name ∈ d.entries place) : IsName name := by
  have hkey := mem_entries_iff.mp hname
  rw [← Std.ExtTreeMap.map_fst_toList_eq_keys] at hkey
  obtain ⟨entry, hentry, heq⟩ := List.mem_map.mp hkey
  exact hwell entry hentry name (heq ▸ List.mem_concat_self)

theorem isName_of_node? {name : Bytes} {n : Node} (hn : d.node? (place ++ [name]) = some n) : IsName name :=
  isName_of_mem_entries hwell (isSome_node?_iff.mp (Option.isSome_iff_exists.mpr ⟨n, hn⟩))

variable (hfind : d.find path = .found place .directory)
include hfind

/-- Where a NUL byte ends the path early, it is the directory itself that is looked up for each name. -/
theorem list_of_nul (hnul : 0 ∈ path) : d.list path = .ok [] := by
  rw [list_of_found hfind]
  congr 1
  refine List.filter_eq_nil_iff.mpr fun name hname hlisted => ?_
  have hisName := isName_of_mem_entries hwell hname
  have hsub := Path.enters_join (ne_nil_of_found hfind) hisName.ne_nil hisName.noSlash
  have hstatus : d.status (Path.join path name) = .file := by simpa using (of_decide_eq_true hlisted).2
  rw [status, find_congr (hsub.untilNul_eq hnul), hfind] at hstatus
  cases hstatus

/-- What is listed are the regular files in the directory, hidden files and paths that are too long left
out. -/
theorem mem_list_iff (hnul : 0 ∉ path) {names : List Bytes} (hlist : d.list path = .ok names)
    {name : Bytes} :
    name ∈ names ↔ (∃ content, d.node? (place ++ [name]) = some (.file content)) ∧
      name.head? ≠ some point ∧ (Path.join path name).length < pathMax := by
  rw [list_of_found hfind] at hlist
  cases hlist
  obtain ⟨hpath, hdirectory, -⟩ := pathTo_of_found hfind
  have hstatus (hname : IsName name) : d.status (Path.join path name) = .file ↔
      (∃ content, d.node? (place ++ [name]) = some (.file content)) ∧
        (Path.join path name).length < pathMax := by
    have hsub := Path.enters_join (ne_nil_of_found hfind) hname.ne_nil hname.noSlash
    rw [status_eq_file_iff, find_of_enters hpath hnul hdirectory hname hsub]
    split
    · rename_i hlong
      simp [Nat.not_lt.mpr hlong]
    · rename_i hshort
      cases d.node? (place ++ [name]) with
      | none => simp
      | some n => simp [Nat.not_le.mp hshort]
  rw [List.mem_filter, decide_eq_true_eq]
  constructor
  · rintro ⟨hname, hhead, hfile⟩
    obtain ⟨hcontent, hshort⟩ := (hstatus (isName_of_mem_entries hwell hname)).mp hfile
    exact ⟨hcontent, hhead, hshort⟩
  · rintro ⟨⟨content, hcontent⟩, hhead, hshort⟩
    have hname := isSome_node?_iff.mp (Option.isSome_iff_exists.mpr ⟨_, hcontent⟩)
    exact ⟨hname, hhead, (hstatus (isName_of_node? hwell hcontent)).mpr ⟨⟨content, hcontent⟩, hshort⟩⟩

end

end Disk

end Stencil
