import TapeLang.Diagnostic

/-!
# Lines of a text

A diagnostic counts lines and columns character by character, and takes the line that it shows from
a list of all lines. Both are about the same line.

* `Spot`: a character of a text with its line, what is in front of the line and what is behind it.
* `Spot.exists_of_visible`: every character that is not part of a line end has one.
* `Diagnostic.lineAndColumn_eq`: what is counted.
* `Diagnostic.getElem?_lines`: what is shown.
* `Diagnostic.width_eq`: how many carets there are.
* `Diagnostic.text_eq`: the whole of a diagnostic.
-/

namespace TapeLang

/-- Nothing, or lines that all have their ends. -/
def Complete (text : List Char) : Prop := text = [] ∨ ∃ lines, text = lines ++ ['\n']

/-- A text that goes on behind `line` as behind a line that is over. The end of a line is a line
feed, or a carriage return and a line feed. -/
inductive Ended (line : List Char) : List Char → Prop
  | last : Ended line []
  | feed {after : List Char} : line.getLast? ≠ some '\r' → Ended line ('\n' :: after)
  | returned {after : List Char} : Ended line ('\r' :: '\n' :: after)

/-- The character at `index` in its line. -/
structure Spot (text : List Char) (index : Nat) where
  before : List Char
  left : List Char
  char : Char
  right : List Char
  after : List Char
  text_eq : text = before ++ ((left ++ char :: right) ++ after)
  index_eq : index = before.length + left.length
  complete : Complete before
  inside : '\n' ∉ left ++ char :: right
  ended : Ended (left ++ char :: right) after

/-- The positions that can be shown: both ends are in the text, and the first is not part of a line
end. -/
structure Visible (text : List Char) (p : Position) : Prop where
  start_lt : p.start < text.length
  stop_lt : p.stop < text.length
  feed : text[p.start]? ≠ some '\n'
  returned : text[p.start]? = some '\r' → text[p.start + 1]? ≠ some '\n'

/-! ## Spots -/

theorem exists_complete (text : List Char) :
    ∃ lines rest, text = lines ++ rest ∧ Complete lines ∧ '\n' ∉ rest := by
  induction text with
  | nil => exact ⟨[], [], rfl, .inl rfl, List.not_mem_nil⟩
  | cons ch text ih =>
    obtain ⟨lines, rest, rfl, rfl | ⟨more, rfl⟩, hrest⟩ := ih
    · by_cases hch : ch = '\n'
      · exact ⟨[ch], rest, rfl, .inr ⟨[], by rw [hch]; rfl⟩, hrest⟩
      · refine ⟨[], ch :: rest, rfl, .inl rfl, ?_⟩
        rw [List.mem_cons, not_or]
        exact ⟨fun heq => hch heq.symm, hrest⟩
    · exact ⟨ch :: (more ++ ['\n']), rest, rfl, .inr ⟨ch :: more, rfl⟩, hrest⟩

/-- How the line of a character goes on. -/
theorem exists_ended {left : List Char} {ch : Char} {behind : List Char} (hleft : '\n' ∉ left)
    (hfeed : ch ≠ '\n') (hreturned : ch = '\r' → behind.head? ≠ some '\n') :
    ∃ right after, behind = right ++ after ∧ '\n' ∉ left ++ ch :: right ∧
      Ended (left ++ ch :: right) after := by
  have hinside {right : List Char} (hright : '\n' ∉ right) : '\n' ∉ left ++ ch :: right := by
    simp only [List.mem_append, List.mem_cons, not_or]
    exact ⟨hleft, fun heq => hfeed heq.symm, hright⟩
  by_cases hmem : '\n' ∈ behind
  · obtain ⟨right, after, rfl, hright⟩ := List.eq_append_cons_of_mem hmem
    rcases List.eq_nil_or_concat right with rfl | ⟨front, last, rfl⟩
    · refine ⟨[], '\n' :: after, rfl, hinside hright, .feed ?_⟩
      rw [List.getLast?_append, List.getLast?_singleton]
      exact fun heq => hreturned (Option.some.inj heq) rfl
    · rw [List.concat_eq_append] at hright ⊢
      by_cases hlast : last = '\r'
      · subst hlast
        refine ⟨front, '\r' :: '\n' :: after, by simp, hinside fun hmem => ?_, .returned⟩
        exact hright (List.mem_append_left _ hmem)
      · refine ⟨front ++ [last], '\n' :: after, rfl, hinside hright, .feed ?_⟩
        rw [← List.cons_append, ← List.append_assoc, List.getLast?_concat]
        exact fun heq => hlast (Option.some.inj heq)
  · exact ⟨behind, [], by simp, hinside hmem, .last⟩

/-- Every character that can be shown has its spot. -/
theorem Spot.exists_of_visible {text : List Char} {p : Position} (h : Visible text p) :
    ∃ spot : Spot text p.start, some spot.char = text[p.start]? := by
  obtain ⟨before, left, htake, hcomplete, hleft⟩ := exists_complete (text.take p.start)
  obtain ⟨ch, hch⟩ : ∃ ch, text[p.start]? = some ch := ⟨_, List.getElem?_eq_getElem h.start_lt⟩
  have hdrop : text.drop p.start = ch :: text.drop (p.start + 1) := by
    rw [List.drop_eq_getElem?_toList_append, hch]
    rfl
  have hhead : (text.drop (p.start + 1)).head? = text[p.start + 1]? := List.head?_drop
  obtain ⟨right, after, hbehind, hinside, hended⟩ := exists_ended hleft
    (fun heq => h.feed (heq ▸ hch)) (fun heq => hhead ▸ h.returned (heq ▸ hch))
  have hlength : p.start = before.length + left.length := by
    rw [← List.length_append, ← htake, List.length_take, Nat.min_eq_left (Nat.le_of_lt h.start_lt)]
  refine ⟨⟨before, left, ch, right, after, ?_, hlength, hcomplete, hinside, hended⟩, hch.symm⟩
  rw [← List.take_append_drop p.start text, htake, hdrop, hbehind]
  simp

namespace Spot

variable {text : List Char} {index : Nat} (l : Spot text index)

/-- The line without its end. -/
def line : List Char := l.left ++ l.char :: l.right

theorem take_eq : text.take index = l.before ++ l.left :=
  calc text.take index
    _ = (l.before ++ (l.line ++ l.after)).take (l.before.length + l.left.length) := by
      rw [line, ← l.text_eq, ← l.index_eq]
    _ = l.before ++ l.left := by
      rw [← List.length_append, line, List.append_assoc l.left, ← List.append_assoc,
        List.take_left]

/-- Above the first caret. -/
theorem getElem?_line : l.line[l.left.length]? = some l.char := by
  rw [line, List.getElem?_append_right (Nat.le_refl _), Nat.sub_self]
  rfl

theorem not_mem_left : '\n' ∉ l.left := fun hmem => l.inside (List.mem_append_left _ hmem)

theorem count_take : (text.take index).count '\n' = l.before.count '\n' := by
  rw [l.take_eq, List.count_append, List.count_eq_zero_of_not_mem l.not_mem_left, Nat.add_zero]

end Spot

namespace Diagnostic

/-! ## Counting -/

theorem advance_append (line column : Nat) (a b : List Char) :
    advance line column (a ++ b) =
      advance (advance line column a).1 (advance line column a).2 b := by
  induction a generalizing line column with
  | nil => rfl
  | cons ch a ih =>
    rw [List.cons_append, advance, advance]
    split
    · exact ih ..
    · exact ih ..

theorem advance_of_not_mem {a : List Char} (h : '\n' ∉ a) (line column : Nat) :
    advance line column a = (line, column + a.length) := by
  induction a generalizing column with
  | nil => rfl
  | cons ch a ih =>
    rw [List.mem_cons, not_or] at h
    rw [advance, if_neg fun heq => h.1 heq.symm, ih h.2, List.length_cons]
    congr 1
    omega

/-- Every line feed is counted, whatever the columns are. -/
theorem advance_line (a : List Char) (line column : Nat) :
    (advance line column a).1 = line + a.count '\n' := by
  induction a generalizing line column with
  | nil => rfl
  | cons ch a ih =>
    rw [advance]
    split
    case isTrue heq =>
      rw [ih, heq, List.count_cons_self]
      omega
    case isFalse hne => rw [ih, List.count_cons_of_ne hne]

theorem advance_of_complete {a : List Char} (h : Complete a) : (advance 0 0 a).2 = 0 := by
  obtain rfl | ⟨lines, rfl⟩ := h
  · rfl
  · rw [advance_append]
    rfl

variable {text : List Char} {index : Nat}

/-- The line feeds in front, and the characters since the last of them. -/
theorem lineAndColumn_eq (l : Spot text index) :
    lineAndColumn text index = (l.before.count '\n', l.left.length) := by
  rw [lineAndColumn, l.take_eq, advance_append, advance_of_not_mem l.not_mem_left,
    advance_of_complete l.complete, advance_line, Nat.zero_add, Nat.zero_add]

/-! ## Lines -/

/-- A line without the carriage return at its end. -/
theorem lines_feed {line : List Char} (h : '\n' ∉ line) (rest : List Char) :
    lines (line ++ '\n' :: rest) =
      (if line.getLast? = some '\r' then line.dropLast else line) :: lines rest := by
  rw [lines, lines, List.splitOn_append_cons_self_of_not_mem h]
  cases hrest : rest.splitOn '\n' with
  | nil => exact absurd hrest (List.splitOn_ne_nil _ _)
  | cons piece pieces =>
    simp only [List.dropLast_cons_cons, List.map_cons, List.getLastD_cons]
    split
    · rfl
    · rfl

theorem lines_last {line : List Char} (h : '\n' ∉ line) (hne : line ≠ []) :
    lines line = [line] := by
  rw [lines, List.splitOn_eq_singleton h]
  simp [hne]

/-- Behind complete lines there are as many lines less. -/
theorem getElem?_lines_append {before : List Char} (h : Complete before) (rest : List Char)
    (i : Nat) : (lines (before ++ rest))[before.count '\n' + i]? = (lines rest)[i]? := by
  induction hn : before.length using Nat.strongRecOn generalizing before with
  | ind n ih =>
    by_cases hmem : '\n' ∈ before
    · obtain ⟨line, more, rfl, hline⟩ := List.eq_append_cons_of_mem hmem
      have hmore : Complete more := by
        obtain hnil | ⟨all, hall⟩ := h
        · simp at hnil
        · rcases List.eq_nil_or_concat more with rfl | ⟨front, last, rfl⟩
          · exact .inl rfl
          · rw [List.concat_eq_append] at hall ⊢
            have hlast := congrArg List.getLast? hall
            simp [List.getLast?_cons] at hlast
            exact .inr ⟨front, by rw [hlast]⟩
      have hcount : (line ++ '\n' :: more).count '\n' = more.count '\n' + 1 := by
        rw [List.count_append, List.count_cons_self, List.count_eq_zero_of_not_mem hline,
          Nat.zero_add]
      have hshorter : more.length < n := by
        rw [← hn, List.length_append, List.length_cons]
        omega
      rw [hcount, List.append_assoc, List.cons_append, lines_feed hline,
        Nat.add_right_comm, List.getElem?_cons_succ]
      exact ih _ hshorter hmore rfl
    · obtain rfl | ⟨all, rfl⟩ := h
      · rw [List.count_nil, Nat.zero_add, List.nil_append]
      · simp at hmem

/-- The line of a character is the one that is shown. -/
theorem getElem?_lines (l : Spot text index) :
    (lines text)[l.before.count '\n']? = some l.line := by
  have hfirst : (lines (l.line ++ l.after))[0]? = some l.line := by
    have hended : Ended l.line l.after := l.ended
    have hinside : '\n' ∉ l.line := l.inside
    have hne : l.line ≠ [] := by simp [Spot.line]
    generalize l.after = after at hended
    cases hended with
    | last =>
      rw [List.append_nil, lines_last hinside hne]
      rfl
    | feed hlast =>
      rw [lines_feed hinside, if_neg hlast]
      rfl
    | @returned rest =>
      have hreturn : '\n' ∉ l.line ++ ['\r'] := by
        rw [List.mem_append, not_or]
        exact ⟨hinside, by decide⟩
      rw [← List.singleton_append, ← List.append_assoc, lines_feed hreturn,
        List.getLast?_concat, if_pos rfl, List.dropLast_concat]
      rfl
  have hlines := getElem?_lines_append l.complete (l.line ++ l.after) 0
  rw [Nat.add_zero, hfirst] at hlines
  exact (congrArg (fun text => (lines text)[l.before.count '\n']?) l.text_eq).trans hlines

/-! ## Carets -/

/-- A caret for each character of a range on one line, else one caret. -/
def carets (text : List Char) (p : Position) : Nat :=
  if p.start < p.stop ∧ '\n' ∉ text.extract p.start p.stop then p.stop - p.start + 1 else 1

/-- What is counted at the end of a range, by what is counted at its start. -/
theorem lineAndColumn_stop {p : Position} (h : p.start ≤ p.stop) (text : List Char) :
    lineAndColumn text p.stop = advance (lineAndColumn text p.start).1
      (lineAndColumn text p.start).2 (text.extract p.start p.stop) := by
  have htake : text.take p.stop = text.take p.start ++ text.extract p.start p.stop := by
    have hsplit := List.take_append_drop p.start (text.take p.stop)
    rw [List.take_take, Nat.min_eq_left h] at hsplit
    rw [List.extract_eq_drop_take', hsplit]
  rw [lineAndColumn, htake, advance_append]
  rfl

theorem line_eq_iff {p : Position} (h : p.start ≤ p.stop) (text : List Char) :
    (lineAndColumn text p.stop).1 = (lineAndColumn text p.start).1 ↔
      '\n' ∉ text.extract p.start p.stop := by
  rw [lineAndColumn_stop h, advance_line, ← List.count_eq_zero]
  omega

/-- On the same line, the end is as many columns further on as there are characters. -/
theorem column_stop {p : Position} (h : p.start ≤ p.stop) (hstop : p.stop < text.length)
    (hline : '\n' ∉ text.extract p.start p.stop) :
    (lineAndColumn text p.stop).2 = (lineAndColumn text p.start).2 + (p.stop - p.start) := by
  rw [lineAndColumn_stop h, advance_of_not_mem hline, List.extract_eq_drop_take']
  simp only [List.length_drop, List.length_take]
  omega

theorem width_eq {p : Position} (hstop : p.stop < text.length) : width text p = carets text p := by
  rw [width, carets]
  by_cases hlt : p.start < p.stop
  · have hle := Nat.le_of_lt hlt
    simp only [hlt, true_and, line_eq_iff hle]
    split
    case isTrue hline =>
      rw [column_stop hle hstop hline]
      omega
    case isFalse => rfl
  · simp only [hlt, false_and, if_false]

/-- A diagnostic without colour: the line feeds in front are counted, and the characters since the
last of them; below the line there is a blank for each of these, and then the carets. -/
theorem text_eq {source : String} {p : Position} (l : Spot source.toList p.start)
    (hstop : p.stop < source.toList.length) (filename message : String) :
    Diagnostic.text ⟨filename, message, some p, source⟩ false =
      filename ++ ":" ++ toString ((source.toList.take p.start).count '\n' + 1) ++ ":" ++
        toString (l.left.length + 1) ++ ": error: " ++ message ++ "\n" ++
        String.ofList l.line ++ "\n" ++
        "".pushn ' ' l.left.length ++ "".pushn '^' (carets source.toList p) := by
  -- the words of the first line are put together differently
  have hwords : ":" ++ (" " ++ ("error:" ++ " ")) = ": error: " := rfl
  simp only [Diagnostic.text, lineAndColumn_eq l, List.getD_eq_getElem?_getD, getElem?_lines l,
    width_eq hstop, Option.getD_some, Style.paint, Bool.false_eq_true, if_false, l.count_take,
    toString, String.append_assoc, ← hwords]

end Diagnostic

end TapeLang
