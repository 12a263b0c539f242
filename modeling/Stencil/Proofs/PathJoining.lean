import Stencil.Proofs.Effects
import Stencil.Proofs.Listing

/-!
# Joining paths

Two paths that are not empty are joined with one slash between them, and what either brings of a slash there
is taken off (`Path.join_eq`). A path in the middle of three loses a slash at its front and one at its end,
and the two can be one and the same, but a slash stands on either side of it in any case
(`Path.withoutEnd_slash`): so it does not matter which two of the three are joined first
(`Path.join_assoc`). A directory is listed through the join of three paths that begins with the base
directory, and a file in it is opened through the other one. The main statement is `Path.join_monoid`.
-/

namespace Stencil

open Ascii

namespace Path

/-! ## One slash between two paths -/

/-- A path without the slash at its front, if there is one. -/
def withoutFront (path : Bytes) : Bytes := if path.head? = some slash then path.tail else path

/-- A path without the slash at its end, if there is one. -/
def withoutEnd (path : Bytes) : Bytes := if path.getLast? = some slash then path.dropLast else path

theorem withoutFront_append {s : Bytes} (hs : s ≠ []) (t : Bytes) :
    withoutFront (s ++ t) = withoutFront s ++ t := by
  obtain ⟨b, s, rfl⟩ := List.exists_cons_of_ne_nil hs
  by_cases hb : b = slash <;> simp [withoutFront, hb]

theorem join_nil (path : Bytes) : join path [] = path := by
  cases path <;> rfl

theorem nil_join (path : Bytes) : join [] path = path := rfl

theorem join_eq {a b : Bytes} (ha : a ≠ []) (hb : b ≠ []) :
    join a b = withoutEnd a ++ slash :: withoutFront b := by
  rw [join, if_neg (by simpa using ha), if_neg (by simpa using hb), withoutEnd, withoutFront]
  by_cases hlast : a.getLast? = some slash
  · obtain ⟨before, rfl⟩ := List.getLast?_eq_some_iff.mp hlast
    by_cases hhead : b.head? = some slash
    · obtain ⟨after, rfl⟩ := List.head?_eq_some_iff.mp hhead
      simp
    · simp [hhead]
  · by_cases hhead : b.head? = some slash
    · obtain ⟨after, rfl⟩ := List.head?_eq_some_iff.mp hhead
      simp [hlast]
    · simp [hlast, hhead]

theorem join_ne_nil {a b : Bytes} (ha : a ≠ []) (hb : b ≠ []) : join a b ≠ [] := by
  simp [join_eq ha hb]

/-! ## Three paths -/

theorem withoutEnd_append {t : Bytes} (ht : t ≠ []) (s : Bytes) : withoutEnd (s ++ t) = s ++ withoutEnd t := by
  have hlast : (s ++ t).getLast? = t.getLast? := by
    rw [List.getLast?_append, List.getLast?_eq_some_getLast ht, Option.some_or]
  rw [withoutEnd, withoutEnd, hlast, List.dropLast_append_of_ne_nil ht]
  split <;> rfl

theorem withoutEnd_cons {t : Bytes} (ht : t ≠ []) (b : UInt8) : withoutEnd (b :: t) = b :: withoutEnd t :=
  withoutEnd_append ht [b]

/-- Where a slash follows, taking the one at the end off does not change what stands at the front. -/
theorem head?_withoutEnd_append {path : Bytes} (h : path ≠ []) (behind : Bytes) :
    (withoutEnd path ++ slash :: behind).head? = path.head? := by
  obtain ⟨b, rest, rfl⟩ := List.exists_cons_of_ne_nil h
  by_cases hrest : rest = []
  · subst hrest
    by_cases hb : b = slash <;> simp [withoutEnd, hb]
  · rw [withoutEnd_cons hrest]
    rfl

/-- The path in the middle, with the slash in front of it and the one behind it, whichever of the slashes at
its own ends is taken off first. -/
theorem withoutEnd_slash {path : Bytes} (h : path ≠ []) (behind : Bytes) :
    withoutEnd (slash :: withoutFront path) ++ slash :: behind =
      slash :: withoutFront (withoutEnd path ++ slash :: behind) := by
  have hfront := head?_withoutEnd_append h behind
  by_cases hslash : path.head? = some slash
  · rw [hslash] at hfront
    obtain ⟨rest, hrest⟩ := List.head?_eq_some_iff.mp hfront
    obtain ⟨rest', rfl⟩ := List.head?_eq_some_iff.mp hslash
    rw [withoutFront, if_pos hslash, List.tail_cons, withoutFront, if_pos hfront, hrest, List.tail_cons]
  · rw [withoutFront, if_neg hslash, withoutFront, if_neg (hfront ▸ hslash), withoutEnd_cons h,
      List.cons_append]

theorem join_assoc (a b c : Bytes) : join (join a b) c = join a (join b c) := by
  by_cases ha : a = []
  · rw [ha, nil_join, nil_join]
  by_cases hb : b = []
  · rw [hb, join_nil, nil_join]
  by_cases hc : c = []
  · rw [hc, join_nil, join_nil]
  calc join (join a b) c
      = withoutEnd (withoutEnd a ++ slash :: withoutFront b) ++ slash :: withoutFront c := by
        rw [join_eq (join_ne_nil ha hb) hc, join_eq ha hb]
    _ = withoutEnd a ++ (withoutEnd (slash :: withoutFront b) ++ slash :: withoutFront c) := by
        rw [withoutEnd_append (List.cons_ne_nil _ _), List.append_assoc]
    _ = withoutEnd a ++ slash :: withoutFront (withoutEnd b ++ slash :: withoutFront c) := by
        rw [withoutEnd_slash hb]
    _ = join a (join b c) := by
        rw [join_eq ha (join_ne_nil hb hc), join_eq hb hc]

/-! ## Files in a directory -/

section

variable {directory name : Bytes} (hne : directory ≠ []) (hend : directory.getLast? ≠ some slash)
  (hname : name ≠ []) (hslash : slash ∉ name)
include hne hend hname hslash

theorem join_name : join directory name = directory ++ slash :: name := by
  have hhead : name.head? ≠ some slash := fun h => hslash (List.mem_of_head? h)
  rw [join_eq hne hname, withoutEnd, if_neg hend, withoutFront, if_neg hhead]

/-- The name joined to the directory as it is found from the base directory is the directory with the name
behind it as that is found from there. -/
theorem join_resolve (base : Bytes) :
    join (resolve base directory) name = resolve base (directory ++ slash :: name) := by
  have habsolute : isAbsolute (directory ++ slash :: name) = isAbsolute directory :=
    Enters.slash.isAbsolute_eq hne
  rw [resolve, resolve, habsolute, ← join_name hne hend hname hslash]
  split
  · rfl
  · exact join_assoc base directory name

end

end Path

namespace Session

variable {σ : Type} (s : Session σ)

theorem result_list {directory : Bytes} {w : World σ} {names : List Bytes}
    (h : w.disk.list (s.resolve directory) = .ok names) :
    (s.list directory w).result = .ok (some names) := by
  rw [list, Action.world_bind, h]
  rfl

/-- Each name in a directory is looked up for a listing under the path that a file of this name is opened
by. -/
theorem result_list_of_found {directory : Bytes} (hne : directory ≠ [])
    (hend : directory.getLast? ≠ some slash) {w : World σ} (hwell : w.disk.WellNamed) {place : Location}
    (hfind : w.disk.find (s.resolve directory) = .found place .directory) :
    (s.list directory w).result = .ok (some ((w.disk.entries place).filter fun name =>
      name.head? ≠ some point ∧ w.disk.status (s.resolve (directory ++ slash :: name)) = .file)) := by
  rw [s.result_list (Disk.list_of_found hfind)]
  congr 2
  refine List.filter_congr fun name hmem => ?_
  have hname := Disk.isName_of_mem_entries hwell hmem
  rw [resolve, resolve, Path.join_resolve hne hend hname.ne_nil hname.noSlash]

end Session

/-- Joining paths is associative, and the empty path is neutral on both sides. So for every base directory and
every directory that does not end in a slash, a name in this directory is looked up for a listing under the
path by which the directory, a slash and the name are opened. -/
theorem Path.join_monoid :
    (∀ a b c, join (join a b) c = join a (join b c)) ∧
    (∀ a, join [] a = a ∧ join a [] = a) ∧
    ∀ {σ : Type} (s : Session σ) (directory : Bytes), directory ≠ [] → directory.getLast? ≠ some slash →
      (∀ name, name ≠ [] → slash ∉ name →
        join (s.resolve directory) name = s.resolve (directory ++ slash :: name)) ∧
      ∀ (w : World σ) (place : Location), w.disk.WellNamed →
        w.disk.find (s.resolve directory) = .found place .directory →
        (s.list directory w).result = .ok (some ((w.disk.entries place).filter fun name =>
          name.head? ≠ some point ∧ w.disk.status (s.resolve (directory ++ slash :: name)) = .file)) := by
  refine ⟨join_assoc, fun a => ⟨nil_join a, join_nil a⟩, fun s directory hne hend => ⟨?_, ?_⟩⟩
  · exact fun name hname hslash => join_resolve hne hend hname hslash s.base
  · exact fun w place hwell hfind => s.result_list_of_found hne hend hwell hfind

/-- A draft, and a session with a slash at the end of its base directory. -/
theorem Path.join_monoid_of_draft :
    ∃ (s : Session Unit) (w : World Unit), s.base = Bytes.ofString "notes/" ∧
      s.resolve (Bytes.ofString "drafts") = Bytes.ofString "notes/drafts" ∧
      join (Bytes.ofString "notes/drafts") (Bytes.ofString "a.md") =
        s.resolve (Bytes.ofString "drafts/a.md") ∧
      (s.list (Bytes.ofString "drafts") w).result = .ok (some [Bytes.ofString "a.md"]) := by
  let s : Session Unit := { base := Bytes.ofString "notes/" }
  let w : World Unit :=
    { disk := Disk.empty.putFile (Bytes.ofString "notes/drafts/a.md") (Bytes.ofString "a draft"), host := () }
  have hwell : w.disk.WellNamed := by decide +kernel
  have hfind : w.disk.find (s.resolve (Bytes.ofString "drafts")) =
      .found [Bytes.ofString "work", Bytes.ofString "notes", Bytes.ofString "drafts"] .directory := by
    rfl
  obtain ⟨hjoin, hlist⟩ := join_monoid.2.2 s (Bytes.ofString "drafts") (by decide) (by decide)
  refine ⟨s, w, rfl, by decide, hjoin (Bytes.ofString "a.md") (by decide) (by decide), ?_⟩
  exact (hlist w _ hwell hfind).trans rfl

end Stencil
