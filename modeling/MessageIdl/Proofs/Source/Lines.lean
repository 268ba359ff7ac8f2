import Mathlib.Data.List.DropRight
import Mathlib.Data.Prod.Lex
import Mathlib.Order.Interval.Set.Defs
import MessageIdl.Source.LineIndex

/-!
# Line tables are exact

The table of line starts is read against the text itself.  Cutting the text in two cuts the table
in two: the starts in the front part, all up to the cut, and the starts in the back part, all beyond
it.  The search therefore stops between the two, and its answer counts the newlines in front of the
cut.

* `upperBound_eq`: the search ends where the entries pass its bound.
* `lineStartsAfter_append`: the table of a text is that of its front and that of its back.
* `getLast_lineStarts`: the last line of a text begins after its last newline.
* `position_exact`: every offset has the line and the column that the text in front of it tells.
-/

namespace MessageIdl.Source

/-! ### The search -/

/-- The search keeps `k` between its ends, and `k` is all that is left when they meet. -/
theorem upperBound_eq {table : Array Nat} {x lo hi k : Nat} (bound : hi ≤ table.size)
    (below : ∀ i (h : i < table.size), i < k → table[i] ≤ x)
    (above : ∀ i (h : i < table.size), k ≤ i → x < table[i]) (from_lo : lo ≤ k) (to_hi : k ≤ hi) :
    upperBound table x lo hi bound = k := by
  fun_induction upperBound table x lo hi bound with
  | case1 lo hi bound apart mid beyond ih =>
    apply ih from_lo
    by_contra behind
    have := below mid (by omega) (by omega)
    omega
  | case2 lo hi bound apart mid within ih =>
    refine ih ?_ to_hi
    by_contra ahead
    have := above mid (by omega) (by omega)
    omega
  | case3 lo hi bound shut => omega

/-! ### The table -/

theorem lineStartsAfter_append (n : Nat) (front back : List Char) :
    lineStartsAfter n (front ++ back)
      = lineStartsAfter n front ++ lineStartsAfter (n + front.length) back := by
  induction front generalizing n with
  | nil => simp [lineStartsAfter]
  | cons c front ih =>
    have there : n + 1 + front.length = n + (c :: front).length := by
      simp only [List.length_cons]
      omega
    simp only [List.cons_append, lineStartsAfter, ih, there]
    split <;> rfl

/-- Every newline begins one line. -/
theorem length_lineStartsAfter (n : Nat) (text : List Char) :
    (lineStartsAfter n text).length = text.count '\n' := by
  induction text generalizing n with
  | nil => rfl
  | cons c text ih =>
    simp only [lineStartsAfter, List.count_cons, beq_iff_eq]
    split <;> simp [ih]

/-- The lines that begin in a text begin behind its first character and not behind its end. -/
theorem mem_lineStartsAfter {n start : Nat} {text : List Char}
    (h : start ∈ lineStartsAfter n text) : n < start ∧ start ≤ n + text.length := by
  induction text generalizing n with
  | nil => exact absurd h List.not_mem_nil
  | cons c text ih =>
    simp only [lineStartsAfter] at h
    rw [List.length_cons]
    split at h
    · obtain rfl | later := List.mem_cons.mp h
      · omega
      · have := ih later
        omega
    · have := ih h
      omega

/-- The starts of all lines of a text, the first one included. -/
def lineStarts (text : List Char) : List Nat := 0 :: lineStartsAfter 0 text

theorem lineStarts_ne_nil (text : List Char) : lineStarts text ≠ [] := List.cons_ne_nil _ _

theorem length_lineStarts (text : List Char) : (lineStarts text).length = 1 + text.count '\n' := by
  rw [lineStarts, List.length_cons, length_lineStartsAfter]
  omega

theorem lineStarts_append (front back : List Char) :
    lineStarts (front ++ back) = lineStarts front ++ lineStartsAfter front.length back := by
  rw [lineStarts, lineStartsAfter_append, Nat.zero_add]
  rfl

theorem le_of_mem_lineStarts {start : Nat} {text : List Char} (h : start ∈ lineStarts text) :
    start ≤ text.length := by
  obtain rfl | later := List.mem_cons.mp h
  · exact Nat.zero_le _
  · have := (mem_lineStartsAfter later).2
    omega

/-- What a text has after its last newline is its last line. -/
theorem getLast_lineStarts (text : List Char) :
    (lineStarts text).getLast (lineStarts_ne_nil text) + (text.rtakeWhile (· ≠ '\n')).length
      = text.length := by
  induction text using List.reverseRecOn with
  | nil => rfl
  | append_singleton text c ih =>
    by_cases newline : c = '\n'
    · subst newline
      have last : lineStartsAfter text.length ['\n'] = [text.length + 1] := rfl
      simp [lineStarts_append, last]
    · have last : lineStartsAfter text.length [c] = [] := by simp [lineStartsAfter, newline]
      have same : (lineStarts (text ++ [c])).getLast (lineStarts_ne_nil _)
          = (lineStarts text).getLast (lineStarts_ne_nil text) := by
        congr 1
        rw [lineStarts_append, last, List.append_nil]
      rw [same, List.rtakeWhile_concat_pos _ _ _ (by simpa using newline), List.length_append,
        List.length_append, ← ih]
      rfl

/-! ### Positions -/

namespace LineIndex

theorem clamp_ofText (file : String) (text : List Char) (offset : Int) :
    ((ofText file text).clamp offset : Int) = max 0 (min offset text.length) := by
  show ((min offset.toNat text.length : Nat) : Int) = _
  omega

theorem clamp_le (file : String) (text : List Char) (offset : Int) :
    (ofText file text).clamp offset ≤ text.length := Nat.min_le_right _ _

/-- An offset inside the text stays where it is. -/
theorem clamp_of_le (file : String) {text : List Char} {o : Nat} (h : o ≤ text.length) :
    (ofText file text).clamp o = o := Nat.min_eq_left h

/-- The search in the table of a text stops behind the lines that begin in front of its bound. -/
theorem upperBound_ofText (file : String) (front back : List Char) :
    upperBound (ofText file (front ++ back)).starts front.length 0
      (ofText file (front ++ back)).starts.size (Nat.le_refl _) = (lineStarts front).length := by
  have table : (ofText file (front ++ back)).starts
      = (lineStarts front ++ lineStartsAfter front.length back).toArray :=
    congrArg List.toArray (lineStarts_append front back)
  apply upperBound_eq
  · intro i bound early
    simp only [table, List.getElem_toArray, List.getElem_append_left early]
    exact le_of_mem_lineStarts (List.getElem_mem _)
  · intro i bound late
    simp only [table, List.getElem_toArray, List.getElem_append_right late]
    exact (mem_lineStartsAfter (List.getElem_mem _)).1
  · exact Nat.zero_le _
  · simp [table]

theorem starts_ofText (file : String) (text : List Char) :
    (ofText file text).starts.size = 1 + text.count '\n' := length_lineStarts text

/-- The line of an offset counts the newlines in front of it. -/
theorem line_position (file : String) (text : List Char) (offset : Int) :
    ((ofText file text).position offset).line
      = 1 + (text.take ((ofText file text).position offset).offset).count '\n' := by
  have cut := upperBound_ofText file (text.take ((ofText file text).clamp offset))
    (text.drop ((ofText file text).clamp offset))
  simp only [List.take_append_drop, List.length_take, Nat.min_eq_left (clamp_le file text offset),
    length_lineStarts] at cut
  exact cut

/-- The column of an offset counts what follows the last newline in front of it. -/
theorem column_position (file : String) (text : List Char) (offset : Int) :
    ((ofText file text).position offset).column
      = 1 + ((text.take ((ofText file text).position offset).offset).rtakeWhile
          (· ≠ '\n')).length := by
  have line := line_position file text offset
  generalize place : (ofText file text).position offset = p at line ⊢
  have stays : p.offset = (ofText file text).clamp offset := by rw [← place]; rfl
  have column : p.column = p.offset - (ofText file text).starts.getD (p.line - 1) 0 + 1 := by
    rw [← place]
    rfl
  have within : p.offset ≤ text.length := stays ▸ clamp_le file text offset
  generalize cut : text.take p.offset = front at line ⊢
  have whole : front ++ text.drop p.offset = text := cut ▸ List.take_append_drop _ _
  have here : front.length = p.offset := by rw [← cut, List.length_take, Nat.min_eq_left within]
  have start : (ofText file text).starts.getD (p.line - 1) 0
      = (lineStarts front).getLast (lineStarts_ne_nil front) := by
    have last : p.line - 1 = (lineStarts front).length - 1 := by rw [length_lineStarts, line]
    have inside : (lineStarts front).length - 1 < (lineStarts front).length := by
      have := length_lineStarts front
      omega
    show ((lineStarts text).toArray).getD (p.line - 1) 0 = _
    rw [List.getLast_eq_getElem, last, ← whole, lineStarts_append]
    simp [List.getElem?_append_left inside, List.getElem?_eq_getElem inside]
  have rest := getLast_lineStarts front
  rw [column, start]
  omega

end LineIndex

/-! ### Order -/

/-- More text in front of a place moves it to a later line, or further in its line. -/
theorem place_lt (front : List Char) {more : List Char} (something : more ≠ []) :
    toLex (1 + front.count '\n', 1 + (front.rtakeWhile (· ≠ '\n')).length)
      < toLex (1 + (front ++ more).count '\n',
          1 + ((front ++ more).rtakeWhile (· ≠ '\n')).length) := by
  rw [Prod.Lex.toLex_lt_toLex, List.count_append]
  by_cases newline : '\n' ∈ more
  · left
    have := List.count_pos_iff.mpr newline
    show 1 + _ < 1 + _
    omega
  · right
    have none : more.count '\n' = 0 := List.count_eq_zero.mpr newline
    have all : ∀ c ∈ more.reverse, (decide (c ≠ '\n')) = true := by
      intro c inside
      have : c ≠ '\n' := fun h => newline (h ▸ List.mem_reverse.mp inside)
      simpa using this
    have grown : ((front ++ more).rtakeWhile (· ≠ '\n')).length
        = (front.rtakeWhile (· ≠ '\n')).length + more.length := by
      simp only [List.rtakeWhile, List.reverse_append, List.takeWhile_append_of_pos all,
        List.length_append, List.length_reverse, Nat.add_comm]
    have := List.length_pos_of_ne_nil something
    constructor
    · show 1 + front.count '\n' = 1 + (front.count '\n' + more.count '\n')
      rw [none, Nat.add_zero]
    · show 1 + _ < 1 + _
      omega

/-- Lines and columns grow with the offset, as more text stands in front of it. -/
theorem LineIndex.strictMonoOn_position (file : String) (text : List Char) :
    let t := LineIndex.ofText file text
    StrictMonoOn (fun o : Nat => toLex ((t.position o).line, (t.position o).column))
      (Set.Iic text.length) := by
  intro t i inside j inside' earlier
  have stays : ∀ o : Nat, o ≤ text.length → (t.position o).offset = o :=
    fun o h => LineIndex.clamp_of_le file h
  show toLex _ < toLex _
  rw [LineIndex.line_position, LineIndex.column_position, LineIndex.line_position,
    LineIndex.column_position, stays i inside, stays j inside']
  have split : text.take j = text.take i ++ (text.drop i).take (j - i) := by
    rw [← List.take_add]
    congr 1
    omega
  rw [split]
  apply place_lt
  apply List.ne_nil_of_length_pos
  rw [List.length_take, List.length_drop]
  have : j ≤ text.length := inside'
  omega

/-- The position of an offset is the offset moved into the text, with one line for each newline in
front of it and one column for each character after the last of these.  Its line is one of the
table, and no two offsets of the text share line and column: they grow with the offset. -/
theorem position_exact (file : String) (text : List Char) (offset : Int) :
    let t := LineIndex.ofText file text
    let p := t.position offset
    let front := text.take p.offset
    (p.offset : Int) = max 0 (min offset text.length)
      ∧ p.line = 1 + front.count '\n'
      ∧ p.column = 1 + (front.rtakeWhile (· ≠ '\n')).length
      ∧ 1 ≤ p.line ∧ p.line ≤ t.starts.size
      ∧ StrictMonoOn (fun o : Nat => toLex ((t.position o).line, (t.position o).column))
          (Set.Iic text.length)
      ∧ Set.InjOn (fun o : Nat => ((t.position o).line, (t.position o).column))
          (Set.Iic text.length) := by
  intro t p front
  have line : p.line = 1 + front.count '\n' := LineIndex.line_position file text offset
  have grows := LineIndex.strictMonoOn_position file text
  refine ⟨LineIndex.clamp_ofText file text offset, line,
    LineIndex.column_position file text offset, by omega, ?_, grows, ?_⟩
  · rw [line, LineIndex.starts_ofText]
    have := List.Sublist.count_le '\n' (List.take_sublist p.offset text)
    show 1 + (text.take p.offset).count '\n' ≤ _
    omega
  · intro i inside j inside' same
    exact grows.injOn inside inside' (congrArg toLex same)

/-- A newline ends the line that it stands on, and an offset behind the text is that of its end. -/
example :
    ([2, 3, 9].map fun o : Int =>
      let p := (LineIndex.ofText "t.idl" "ab\nc\n".toList).position o
      (p.offset, p.line, p.column)) = [(2, 1, 3), (3, 2, 1), (5, 3, 1)] := by
  decide +kernel

end MessageIdl.Source
