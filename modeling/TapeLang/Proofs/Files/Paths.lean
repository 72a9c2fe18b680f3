import Mathlib.Data.List.TakeWhile
import TapeLang.FileSystem

/-!
# Paths and places

A path names the same place before a new file is made there and after it, and whatever other files
are made. A place where something is cannot be had for a new file.

* `FileSystem.erase_insert`: a new entry that is erased leaves no trace.
* `FileSystem.resolve_of_free`: a path names the place that it was given.
* `FileSystem.freePlace_of_find`: there is none if something is there already.
* `FileSystem.find_insert`: what a path leads to stays when something is put somewhere else.
-/

namespace TapeLang.FileSystem

variable {fs : FileSystem} {p q r : Place} {entry new : Entry} {path : String}

/-! ## Entries -/

theorem lookup_filter (entries : List (Place × Entry)) (h : q ≠ p) :
    (entries.filter (·.1 ≠ p)).lookup q = entries.lookup q := by
  induction entries with
  | nil => rfl
  | cons e entries ih =>
    by_cases he : e.1 = p
    · have hq : (q == e.1) = false := beq_false_of_ne (he ▸ h)
      rw [List.filter_cons_of_neg (by simpa using he), ih, List.lookup_cons, hq]
    · rw [List.filter_cons_of_pos (by simpa using he), List.lookup_cons, List.lookup_cons, ih]

theorem entry?_insert_self (hp : p.names ≠ []) : entry? (fs.insert p entry) p = some entry := by
  rw [ entry?, if_neg (by simpa using hp), insert, List.lookup_cons_self]

theorem entry?_insert_of_ne (h : q ≠ p) : entry? (fs.insert p entry) q = fs.entry? q := by
  have hq : (q == p) = false := beq_false_of_ne h
  rw [ entry?, entry?, insert, List.lookup_cons, hq, lookup_filter _ h]

/-- The last entry at a place is the one that counts. -/
theorem insert_insert : (fs.insert p entry).insert p new = fs.insert p new := by
  simp [insert]

/-- A new entry that is erased leaves no trace. -/
theorem erase_insert (h : fs.entry? p = none) : (fs.insert p entry).erase p = fs := by
  rw [ entry?] at h
  split at h
  · cases h
  · have hall : ∀ e ∈ fs.entries, decide (e.1 ≠ p) = true := by
      rintro ⟨place, e⟩ hmem
      refine decide_eq_true fun heq => ?_
      have hnot := List.lookup_eq_none_iff.mp h ⟨place, e⟩ hmem
      rw [heq] at hnot
      simp at hnot
    simp only [erase, insert]
    rw [List.filter_cons_of_neg (by simp), List.filter_filter]
    simp only [Bool.and_self, List.filter_eq_self.mpr hall]

/-! ## Walks -/

theorem walk_append (fs : FileSystem) (p : Place) (names rest : List String) :
    fs.walk p (names ++ rest) = (fs.walk p names).bind fun q => fs.walk q rest := by
  induction names generalizing p with
  | nil => rfl
  | cons name names ih =>
    rw [List.cons_append, walk, walk]
    cases fs.entry? p with
    | none => rfl
    | some e =>
      cases e with
      | file => rfl
      | directory =>
        cases enter p name with
        | error f => rfl
        | ok q => exact ih q

theorem exists_of_walk_append {names rest : List String} (h : fs.walk p (names ++ rest) = .ok r) :
    ∃ q, fs.walk p names = .ok q ∧ fs.walk q rest = .ok r := by
  rw [walk_append] at h
  cases hq : fs.walk p names with
  | error f =>
    rw [hq] at h
    cases h
  | ok q =>
    rw [hq] at h
    exact ⟨q, rfl, h⟩

/-- A step of a walk starts in a directory. -/
theorem exists_of_walk_cons {name : String} {rest : List String}
    (h : fs.walk p (name :: rest) = .ok r) :
    fs.entry? p = some .directory ∧ ∃ q, enter p name = .ok q ∧ fs.walk q rest = .ok r := by
  rw [walk] at h
  split at h
  case h_1 hdirectory =>
    split at h
    case h_1 q hq => exact ⟨hdirectory, q, hq, h⟩
    case h_2 => cases h
  case h_2 => cases h
  case h_3 => cases h

/-- A walk does not come through a place where nothing is. -/
theorem walk_insert (hp : fs.entry? p = none) {names : List String}
    (h : fs.walk q names = .ok r) : (fs.insert p entry).walk q names = .ok r := by
  induction names generalizing q with
  | nil => exact h
  | cons name names ih =>
    obtain ⟨hdirectory, q', hq', hrest⟩ := exists_of_walk_cons h
    have hne : q ≠ p := by
      rintro rfl
      cases hp.symm.trans hdirectory
    rw [walk, entry?_insert_of_ne hne, hdirectory]
    simp only [hq']
    exact ih hrest

/-- Empty names stay in a directory. -/
theorem directory_of_walk_empty {names : List String} (hne : names ≠ [])
    (hall : ∀ name ∈ names, name = "") (h : fs.walk p names = .ok q) :
    q = p ∧ fs.entry? p = some .directory := by
  induction names generalizing p with
  | nil => exact absurd rfl hne
  | cons name names ih =>
    obtain ⟨hdirectory, r, hr, hrest⟩ := exists_of_walk_cons h
    cases hall name List.mem_cons_self
    cases hr
    cases names with
    | nil =>
      cases hrest
      exact ⟨rfl, hdirectory⟩
    | cons => exact ih (List.cons_ne_nil _ _) (fun n hn => hall n (List.mem_cons_of_mem _ hn)) hrest

/-! ## Names -/

/-- Only a path that ends with a slash has an empty name at its end. -/
theorem takeWhile_components (hne : path.isEmpty = false) (h : path.endsWith "/" = false) :
    (components path).reverse.takeWhile (· = "") = [] := by
  have hsuffix : ¬ ['/'] <:+ path.toList := by
    rw [String.endsWith, String.Slice.endsWith_string_eq_false_iff] at h
    simpa using h
  have hlist : path.toList ≠ [] := by simpa [String.isEmpty_eq_false_iff] using hne
  -- the last name is what is behind the last slash
  obtain ⟨front, last, hlast, hcomponents⟩ : ∃ front last, last ≠ [] ∧
      path.toList.splitOn '/' = front ++ [last] := by
    by_cases hmem : '/' ∈ path.toList.reverse
    · obtain ⟨behind, before, hsplit, hbehind⟩ := List.eq_append_cons_of_mem hmem
      have hpath : path.toList = before.reverse ++ '/' :: behind.reverse := by
        rw [← List.reverse_reverse path.toList, hsplit]
        simp
      have hone : behind.reverse.splitOn '/' = [behind.reverse] :=
        List.splitOn_eq_singleton (by simpa using hbehind)
      refine ⟨before.reverse.splitOn '/', behind.reverse, fun hnil => hsuffix ?_, ?_⟩
      · rw [hpath, hnil]
        exact List.suffix_append _ _
      · rw [hpath, List.splitOn_append_cons_self, hone]
    · exact ⟨[], path.toList, hlist, List.splitOn_eq_singleton (by simpa using hmem)⟩
  rw [components, hcomponents, List.map_append, List.reverse_append]
  refine List.takeWhile_cons_of_neg ?_
  simpa using hlast

theorem takeWhile_components_ne_nil (h : path.endsWith "/" = true) :
    (components path).reverse.takeWhile (· = "") ≠ [] := by
  obtain ⟨front, hfront⟩ : ['/'] <:+ path.toList := by
    rw [String.endsWith, String.Slice.endsWith_string_iff] at h
    simpa using h
  have hsplit : path.toList.splitOn '/' = front.splitOn '/' ++ [[]] := by
    rw [← hfront, List.splitOn_append_cons_self]
    rfl
  rw [components, hsplit, List.map_append, List.reverse_append]
  exact List.cons_ne_nil _ _

theorem isEmpty_of_fault? (h : fault? path = none) : path.isEmpty = false := by
  rw [fault?] at h
  split at h
  · cases h
  · split at h
    · cases h
    · exact Bool.eq_false_iff.mpr ‹_›

/-- The names of a path, without empty ones at the end. -/
theorem components_eq (path : String) :
    components path = ((components path).reverse.dropWhile (· = "")).reverse ++
      ((components path).reverse.takeWhile (· = "")).reverse := by
  rw [← List.reverse_append, List.takeWhile_append_dropWhile, List.reverse_reverse]

/-! ## Free places -/

/-- A free place is in a directory, under the last name of the path. -/
structure Free (fs : FileSystem) (path : String) (p : Place) : Prop where
  fault : fault? path = none
  walk : ∃ outer last parent, components path = outer ++ [last] ∧
    fs.walk (.start (path.startsWith "/")) outer = .ok parent ∧
    fs.entry? parent = some .directory ∧ enter parent last = .ok p
  named : p.names ≠ []
  absent : fs.entry? p = none

theorem names_of_enter {name : String} (hname : isOrdinary name) (h : enter p name = .ok q) :
    q.names ≠ [] := by
  rw [isOrdinary, Bool.and_eq_true, bne_iff_ne] at hname
  rw [enter, if_neg hname.2, if_neg (by simp [isOrdinary, hname.1, hname.2])] at h
  split at h
  · cases h
  · cases h
    exact List.cons_ne_nil _ _

theorem free_of_freePlace (h : fs.freePlace path = .ok p) : fs.Free path p := by
  unfold freePlace at h
  split at h
  case h_1 => cases h
  case h_2 hfault =>
    have hcomponents := components_eq path
    dsimp only at h
    generalize (components path).reverse.dropWhile (· = "") = names at h hcomponents
    cases names with
    | nil => cases h
    | cons last outer =>
      rw [List.reverse_cons] at hcomponents
      dsimp only at h
      split at h
      case h_1 => cases h
      case h_2 parent hwalk =>
        split at h
        case h_1 => cases h
        case h_2 => cases h
        case h_3 hdirectory =>
          split at h
          case isTrue => cases h
          case isFalse hordinary =>
            split at h
            case isTrue => cases h
            case isFalse hends =>
              rw [takeWhile_components (isEmpty_of_fault? hfault) (Bool.eq_false_iff.mpr hends),
                List.reverse_nil, List.append_nil] at hcomponents
              split at h
              case h_1 => cases h
              case h_2 q henter =>
                split at h
                case isTrue => cases h
                case isFalse habsent =>
                  cases h
                  refine ⟨hfault, ⟨_, _, parent, hcomponents, hwalk, hdirectory, henter⟩, ?_, ?_⟩
                  · exact names_of_enter (by simpa using hordinary) henter
                  · simpa using habsent

/-- The path names the place when there is something. -/
theorem resolve_of_free (h : fs.Free path p) (entry : Entry) :
    (fs.insert p entry).resolve path = .ok p := by
  obtain ⟨outer, last, parent, hcomponents, hwalk, hdirectory, henter⟩ := h.walk
  have hne : parent ≠ p := by
    rintro rfl
    cases h.absent.symm.trans hdirectory
  rw [resolve, h.fault]
  simp only [hcomponents, walk_append, walk_insert h.absent hwalk, Except.bind, FileSystem.walk,
    entry?_insert_of_ne hne, hdirectory, henter]

/-- What is found at a path is at the place that the path names. -/
theorem exists_of_find (h : fs.find path = .ok entry) :
    ∃ p, fault? path = none ∧ fs.walk (.start (path.startsWith "/")) (components path) = .ok p ∧
      fs.entry? p = some entry := by
  rw [find, resolve] at h
  split at h
  case h_1 => cases h
  case h_2 p hp =>
    split at hp
    case h_1 => cases hp
    case h_2 hfault =>
      split at h
      case h_1 hentry =>
        cases h
        exact ⟨p, hfault, hp, hentry⟩
      case h_2 => cases h

/-- Where something is, nothing new can be made. The path to a directory may end with a slash, and
then it asks for one. -/
theorem freePlace_of_find (h : fs.find path = .ok entry) :
    fs.freePlace path = .error .fileExists ∨ path.endsWith "/" = true ∧ entry = .directory ∧
      fs.freePlace path = .error .isDirectory := by
  obtain ⟨p, hfault, hwalk, hentry⟩ := exists_of_find h
  rw [components_eq] at hwalk
  have hends := takeWhile_components (isEmpty_of_fault? hfault)
  have hends' := @takeWhile_components_ne_nil path
  have hempty : ∀ name ∈ ((components path).reverse.takeWhile (· = "")).reverse, name = "" := by
    intro name hname
    simpa using List.mem_takeWhile_imp (List.mem_reverse.mp hname)
  rw [freePlace, hfault]
  dsimp only
  generalize (components path).reverse.dropWhile (· = "") = names at hwalk ⊢
  cases names with
  | nil => exact .inl rfl
  | cons last outer =>
    dsimp only
    rw [List.reverse_cons, List.append_assoc] at hwalk
    obtain ⟨parent, hparent, hrest⟩ := exists_of_walk_append hwalk
    obtain ⟨hdirectory, q, henter, hlast⟩ := exists_of_walk_cons hrest
    rw [hparent]
    simp only [hdirectory]
    split
    case isTrue => exact .inl rfl
    case isFalse =>
      split
      case isTrue hslash =>
        have hne := mt List.reverse_eq_nil_iff.mp (hends' hslash)
        obtain ⟨rfl, hq⟩ := directory_of_walk_empty hne hempty hlast
        cases hentry.symm.trans hq
        exact .inr ⟨hslash, rfl, rfl⟩
      case isFalse hslash =>
        rw [hends (Bool.eq_false_iff.mpr hslash)] at hlast
        cases hlast
        simp only [henter, hentry, Option.isSome_some, if_true]
        exact .inl trivial

theorem freePlace_ne_ok (h : fs.find path = .ok entry) : fs.freePlace path ≠ .ok p := by
  intro hp
  rcases freePlace_of_find h with hnone | ⟨-, -, hnone⟩
  · cases hp.symm.trans hnone
  · cases hp.symm.trans hnone

/-- What a path leads to stays when something is put where nothing was. -/
theorem find_insert (hp : fs.entry? p = none) (h : fs.find path = .ok entry) :
    (fs.insert p new).find path = .ok entry := by
  obtain ⟨q, hfault, hwalk, hentry⟩ := exists_of_find h
  have hne : q ≠ p := by
    rintro rfl
    cases hp.symm.trans hentry
  simp only [find, resolve, hfault, walk_insert hp hwalk, entry?_insert_of_ne hne, hentry]

end TapeLang.FileSystem
