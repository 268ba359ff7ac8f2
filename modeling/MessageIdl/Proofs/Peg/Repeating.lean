import MessageIdl.Proofs.Peg.Matching
import MessageIdl.Proofs.Peg.LeftRecursion

/-!
# Repetitions with a minimum

A repetition with a minimum is read against a row of as many copies.  The two go together as long as
each match takes something.  A match that takes nothing ends the rounds of a repetition, whatever its
minimum, while a row goes on with its next copy.

* `Matcher.Strides`, `Matcher.Stalls`: matches that take something, and one that takes nothing before
  the minimum is reached.
* `matchRepeat_step`, `runSeq_step`: both told by their first match.
* `Matcher.Stalls.short`: after a match that takes nothing too few values are collected.
* `Expr.repeated_matches_iff`: when a repetition with a minimum matches, and how far.
-/

namespace MessageIdl.Peg

open MessageIdl.Source

variable {α : Type}

/-- The outcomes that give a value. -/
def Outcome.Matches (o : Outcome α) : Prop := ∃ stop v, o = .matched stop v

namespace Outcome

@[simp] theorem matches_matched (stop : Cursor) (v : Value α) :
    (Outcome.matched stop v).Matches := ⟨stop, v, rfl⟩

@[simp] theorem not_matches_failed : ¬ (Outcome.failed : Outcome α).Matches := nofun

@[simp] theorem not_matches_raised (fault : Fault) :
    ¬ (Outcome.raised fault : Outcome α).Matches := nofun

@[simp] theorem not_matches_exhausted : ¬ (Outcome.exhausted : Outcome α).Matches := nofun

@[simp] theorem matches_after {o : Outcome α} {values : List (Value α)} :
    (o.after values).Matches ↔ o.Matches := by
  cases o <;> simp [after]

/-- A list of values is counted by its length. -/
theorem matches_counted_list {stop : Cursor} {vs : List (Value α)} {least : Int} :
    ((Outcome.matched stop (.list vs)).counted least []).Matches ↔ least ≤ (vs.length : Int) := by
  simp only [counted, Value.spread_list, List.length_nil, Nat.zero_add]
  split
  · simpa using ‹(vs.length : Int) < least›
  · simpa using ‹¬ (vs.length : Int) < least›

/-- One value more makes up for a minimum that is higher by one. -/
theorem matches_counted_after {o : Outcome α} {v : Value α} {n : Nat} :
    ((o.after [v]).counted (n + 1 : Nat) []).Matches ↔ (o.counted n []).Matches := by
  cases o with
  | matched stop x =>
    have more : ((([] : List (Value α)).length + ([v].reverse ++ x.spread).length : Nat) : Int)
        < (n + 1 : Nat) ↔ ((([] : List (Value α)).length + x.spread.length : Nat) : Int) < n := by
      simp only [List.reverse_singleton, List.length_append, List.length_cons, List.length_nil]
      omega
    simp only [after, counted, Value.spread_list, more]
    split <;> simp
  | _ => simp [after, counted]

theorem after_eq_matched {o : Outcome α} {values : List (Value α)} {stop : Cursor} {v : Value α}
    (h : o.after values = .matched stop v) : ∃ v', o = .matched stop v' := by
  cases o with
  | matched stop' x =>
    cases h
    exact ⟨x, rfl⟩
  | _ => cases h

/-- Counting does not move the end of a match. -/
theorem counted_eq_matched {o : Outcome α} {least : Int} {values : List (Value α)} {stop : Cursor}
    {v : Value α} (h : o.counted least values = .matched stop v) : ∃ v', o = .matched stop v' := by
  cases o with
  | matched stop' x =>
    simp only [counted] at h
    split at h
    · cases h
    · cases h
      exact ⟨x, rfl⟩
  | _ => cases h

end Outcome

/-! ### Matches in a row -/

namespace Matcher

/-- `m.Strides k c mid`: from `c` the matcher gets to `mid` by `k` matches in a row that all take
something. -/
inductive Strides (m : Matcher α) : Nat → Cursor → Cursor → Prop where
  | stay {c} : Strides m 0 c c
  | stride {k c mid stop w v} : (m c w).1 = .matched mid v → mid.offset ≠ c.offset →
      Strides m k mid stop → Strides m (k + 1) c stop

/-- A match that takes nothing comes before the `n`-th match. -/
def Stalls (m : Matcher α) (n : Nat) (c : Cursor) : Prop :=
  ∃ k mid w stop v, k + 1 < n ∧ m.Strides k c mid ∧ (m mid w).1 = .matched stop v ∧
    stop.offset = mid.offset

variable {m : Matcher α} {c mid : Cursor} {w : Watch} {v : Value α} {n : Nat}

/-- Up to one match there is none before it. -/
theorem not_stalls_one : ¬ m.Stalls 1 c := by
  intro ⟨k, _, _, _, _, early, _⟩
  omega

/-- A first match that takes nothing is the one to stall at. -/
theorem stalls_of_empty (h : (m c w).1 = .matched mid v) (same : mid.offset = c.offset) :
    m.Stalls (n + 2) c := ⟨0, c, w, mid, v, by omega, .stay, h, same⟩

/-- Behind a first match that takes something the others are the same. -/
theorem stalls_of_stride (hblind : m.Blind) (h : (m c w).1 = .matched mid v)
    (moved : mid.offset ≠ c.offset) : m.Stalls (n + 1) c ↔ m.Stalls n mid := by
  constructor
  · intro ⟨k, spot, w', stop, x, early, strides, last, same⟩
    cases strides with
    | stay =>
      rw [hblind _ w' w, h] at last
      cases last
      exact absurd same moved
    | stride first _ rest =>
      rw [hblind _ _ w, h] at first
      cases first
      exact ⟨_, spot, w', stop, x, by omega, rest, last, same⟩
  · intro ⟨k, spot, w', stop, x, early, strides, last, same⟩
    exact ⟨k + 1, spot, w', stop, x, by omega, .stride h moved strides, last, same⟩

end Matcher

/-! ### A repetition and a row, by their first match -/

section Steps

variable {m : Matcher α} {call : String → Matcher α} {lines : LineIndex} {e : Expr α}

/-- A repetition stops with its first match if that takes nothing, and goes on behind it otherwise. -/
theorem matchRepeat_step (hadv : m.Advances) (hblind : m.Blind) (c : Cursor) (w : Watch) :
    (matchRepeat 0 m c w).1 =
      match (m c w).1 with
      | .failed => .matched c (.list [])
      | .matched mid v =>
          if mid.offset = c.offset then .matched mid (.list [v])
          else (matchRepeat 0 m mid w).1.after [v]
      | other => other := by
  rcases hx : m c w with ⟨o, w'⟩
  cases o with
  | failed => exact congrArg Prod.fst (repeatFrom_failed hx)
  | matched mid v =>
    by_cases same : mid.offset = c.offset
    · simp only [if_pos same]
      exact congrArg Prod.fst (matchRepeat_zero_empty c hx same)
    · simp only [if_neg same]
      rw [matchRepeat_zero_matched hadv hx same]
      exact congrArg (Outcome.after [v]) (repeatFrom_blind 0 hblind mid.rest [] mid w' w)
  | raised fault => exact congrArg Prod.fst (repeatFrom_raised hx)
  | exhausted => exact congrArg Prod.fst (repeatFrom_exhausted hx)

/-- A row of copies goes on behind its first match in any case. -/
theorem runSeq_step (hcall : ∀ name, (call name).Blind) (n : Nat) (c : Cursor) (w : Watch) :
    (Expr.runSeq call lines (List.replicate (n + 1) e) [] c w).1 =
      match (e.run call lines c w).1 with
      | .matched mid v =>
          (Expr.runSeq call lines (List.replicate n e) [] mid w).1.after [v]
      | other => other := by
  rcases hx : e.run call lines c w with ⟨o, w'⟩
  cases o with
  | matched mid v =>
    simp only [List.replicate_succ, Expr.runSeq, hx]
    rw [Expr.runSeq_eq, Expr.runSeq_blind hcall (List.replicate n e) [] mid w' w]
  | _ => simp only [List.replicate_succ, Expr.runSeq, hx]

end Steps

/-! ### The rounds against the minimum -/

section Minimum

variable {m : Matcher α} {call : String → Matcher α} {lines : LineIndex} {e : Expr α}

/-- Matches that take something and then one that takes nothing are all the values of a
repetition, by induction on the former. -/
theorem matchRepeat_of_strides (hadv : m.Advances) (hblind : m.Blind) {k : Nat} {c mid stop : Cursor}
    {v : Value α} (strides : m.Strides k c mid) {w' : Watch}
    (last : (m mid w').1 = .matched stop v) (same : stop.offset = mid.offset) (w : Watch) :
    ∃ vs, (matchRepeat 0 m c w).1 = .matched stop (.list vs) ∧ vs.length = k + 1 := by
  induction strides with
  | stay =>
    rw [hblind _ w' w] at last
    rw [matchRepeat_step hadv hblind, last]
    exact ⟨[v], if_pos same, rfl⟩
  | @stride k c next mid w'' x first moved _ ih =>
    obtain ⟨vs, all, length⟩ := ih last same
    rw [hblind _ w'' w] at first
    rw [matchRepeat_step hadv hblind, first]
    refine ⟨x :: vs, ?_, congrArg (· + 1) length⟩
    simp only [if_neg moved, all]
    rfl

/-- A repetition that stalls fails: its rounds end before there are enough of them. -/
theorem Matcher.Stalls.short (hadv : m.Advances) (hblind : m.Blind) {n : Nat} {c : Cursor}
    (h : m.Stalls n c) (w : Watch) : (matchRepeat n m c w).1 = .failed := by
  obtain ⟨k, mid, w', stop, v, early, strides, last, same⟩ := h
  obtain ⟨vs, all, length⟩ := matchRepeat_of_strides hadv hblind strides last same w
  rw [matchRepeat_eq, all]
  refine if_pos ?_
  rw [Value.spread_list, length]
  show ((0 + (k + 1) : Nat) : Int) < n
  omega

/-- **The rounds against a row of copies**, by induction on the minimum: both make the same first
match, and behind one that takes something the minimum is lower by one. -/
theorem matchRepeat_matches_iff (hadv : ∀ name, (call name).Advances)
    (hcall : ∀ name, (call name).Blind) (n : Nat) (c : Cursor) (w : Watch) :
    (matchRepeat n (e.run call lines) c w).1.Matches ↔
      (matchRepeat 0 (e.run call lines) c w).1.Matches ∧
        (Expr.runSeq call lines (List.replicate n e) [] c w).1.Matches ∧
        ¬ (e.run call lines).Stalls n c := by
  have hadv' : (e.run call lines).Advances := Expr.run_advances hadv e
  have hblind : (e.run call lines).Blind := Expr.run_blind hcall e
  rw [matchRepeat_eq]
  induction n generalizing c with
  | zero =>
    have none : ¬ (e.run call lines).Stalls 0 c := by
      intro ⟨k, _, _, _, _, early, _⟩
      omega
    have row : (Expr.runSeq call lines (List.replicate 0 e) [] c w).1.Matches :=
      Outcome.matches_matched _ _
    have free : ((matchRepeat 0 (e.run call lines) c w).1.counted (0 : Nat) []).Matches
        ↔ (matchRepeat 0 (e.run call lines) c w).1.Matches := by
      rw [show ((0 : Nat) : Int) = 0 from rfl, ← matchRepeat_eq]
    simp only [free, row, none, not_false_eq_true, and_self, and_true]
  | succ n ih =>
    rw [matchRepeat_step hadv' hblind, runSeq_step hcall]
    cases first : (e.run call lines c w).1 with
    | failed =>
      have short : ¬ ((n + 1 : Nat) : Int) ≤ (([] : List (Value α)).length : Int) := by
        rw [List.length_nil]
        omega
      simp only [Outcome.matches_counted_list, short, Outcome.not_matches_failed, false_and,
        and_false]
    | matched mid v =>
      by_cases same : mid.offset = c.offset
      · simp only [if_pos same, Outcome.matches_counted_list, Outcome.matches_after,
          Outcome.matches_matched, true_and, List.length_singleton]
        cases n with
        | zero => simp [Matcher.not_stalls_one, Expr.runSeq]
        | succ n =>
          have short : ¬ ((n + 1 + 1 : Nat) : Int) ≤ ((1 : Nat) : Int) := by omega
          have stalls : (e.run call lines).Stalls (n + 1 + 1) c :=
            Matcher.stalls_of_empty first same
          simp only [short, stalls, not_true, and_false]
      · simp only [if_neg same]
        rw [Outcome.matches_counted_after, Outcome.matches_after, Outcome.matches_after,
          Matcher.stalls_of_stride hblind first same]
        exact ih mid
    | raised fault => simp [Outcome.counted]
    | exhausted => simp [Outcome.counted]

/-- A repetition that does not stall takes at least as much as a row of copies, which may end before
the rounds do. -/
theorem offset_row_le (hadv : ∀ name, (call name).Advances) (hcall : ∀ name, (call name).Blind)
    {n : Nat} {c stop stop' : Cursor} {w : Watch} {v v' : Value α}
    (free : ¬ (e.run call lines).Stalls n c)
    (rounds : (matchRepeat 0 (e.run call lines) c w).1 = .matched stop v)
    (row : (Expr.runSeq call lines (List.replicate n e) [] c w).1 = .matched stop' v') :
    stop'.offset ≤ stop.offset := by
  have hadv' : (e.run call lines).Advances := Expr.run_advances hadv e
  have hblind : (e.run call lines).Blind := Expr.run_blind hcall e
  induction n generalizing c stop stop' v v' with
  | zero =>
    cases row
    exact (repeatFrom_advances 0 hadv' c.rest [] c w stop v rounds).offset_le
  | succ n ih =>
    rw [matchRepeat_step hadv' hblind] at rounds
    rw [runSeq_step hcall] at row
    cases first : (e.run call lines c w).1 with
    | matched mid x =>
      rw [first] at rounds row
      by_cases same : mid.offset = c.offset
      · simp only [if_pos same] at rounds
        cases rounds
        cases n with
        | zero =>
          cases row
          exact Nat.le_refl _
        | succ n => exact absurd (Matcher.stalls_of_empty first same) free
      · simp only [if_neg same] at rounds
        obtain ⟨_, rounds⟩ := Outcome.after_eq_matched rounds
        obtain ⟨_, row⟩ := Outcome.after_eq_matched row
        exact ih (fun h => free ((Matcher.stalls_of_stride hblind first same).mpr h)) rounds row
    | _ =>
      rw [first] at row
      cases row

end Minimum

/-- **When a repetition with a minimum matches.**  Its rounds come to an end, the row of as many copies
matches, and no match takes nothing before the minimum is reached.  Where such a match comes, the
repetition fails, even if the row of copies matches; otherwise it takes at least as much as the
row. -/
theorem Expr.repeated_matches_iff (find : String → Option (Expr α)) (lines : LineIndex) (depth : Nat)
    (e : Expr α) (n : Nat) (c : Cursor) (w : Watch) :
    let m := e.run (callRule find lines depth) lines
    let outcome (e : Expr α) := (e.run (callRule find lines depth) lines c w).1
    ((outcome (.repeated n e)).Matches ↔
      (outcome (.repeated 0 e)).Matches ∧ (outcome (.seq (List.replicate n e))).Matches ∧
        ¬ m.Stalls n c) ∧
    (m.Stalls n c → outcome (.repeated n e) = .failed) ∧
    ∀ stop v stop' v', outcome (.repeated n e) = .matched stop v →
      outcome (.seq (List.replicate n e)) = .matched stop' v' → stop'.offset ≤ stop.offset := by
  intro m outcome
  have hadv : m.Advances := Expr.run_callRule_advances e
  have hblind : m.Blind := Expr.run_blind (callRule_blind find lines depth) e
  simp only [outcome, Expr.run]
  have matches_iff : (matchRepeat n m c w).1.Matches ↔ _ :=
    matchRepeat_matches_iff (callRule_advances find lines depth) (callRule_blind find lines depth) n c w
  refine ⟨matches_iff, fun stalls => stalls.short hadv hblind w, ?_⟩
  intro stop v stop' v' rounds row
  have free := (matches_iff.mp ⟨stop, v, rounds⟩).2.2
  rw [matchRepeat_eq] at rounds
  obtain ⟨_, rounds⟩ := Outcome.counted_eq_matched rounds
  exact offset_row_le (callRule_advances find lines depth) (callRule_blind find lines depth) free
    rounds row

/-- Two copies of an optional letter match the empty text, and a repetition with the minimum two of it
does not. -/
theorem repeated_optional_stalls :
    let e : Expr Unit := .optional (.literal "a")
    let lines := LineIndex.ofText "" []
    let outcome (e : Expr Unit) := (e.run (callRule (fun _ => none) lines 0) lines ⟨0, []⟩ {}).1
    outcome (.repeated (2 : Nat) e) = .failed ∧
      outcome (.seq (List.replicate 2 e)) = .matched ⟨0, []⟩ (.list [.absent, .absent]) :=
  ⟨rfl, rfl⟩

end MessageIdl.Peg
