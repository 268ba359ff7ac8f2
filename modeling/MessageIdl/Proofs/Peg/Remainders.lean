import MessageIdl.Proofs.Peg.Failures
import MessageIdl.Proofs.Peg.References
import MessageIdl.Proofs.Peg.Shifting

/-!
# Only the rest of a text is read

At an offset of a text a run does what it does at the front of what is left there.  It ends with one of
the same outcomes, up to the distance and the spans, and it notes the same failures, up to the distance.

* `Action.StoresSpan`: actions that may keep their span in what they build, and use it for nothing else.
* `Watch.Gains.moved`: failures at a distance leave watches at that distance.
* `Expr.exists_run_abreast`, `Expr.run_alike`: a run that ends at one place ends at the other, and alike.
* `misses_iff_exists_moved`: failures at a place and at the front of a text.
* `run_at_remainder`: the two runs.
-/

namespace MessageIdl.Peg

open MessageIdl.Source

variable {α β : Type}

/-! ### Actions that only store their span -/

/-- The answer to values of one shape has one shape, a fault included, whatever the span is. -/
def Action.StoresSpan (f : α → β) (act : Action α) : Prop :=
  ∀ vs vs' span span', Value.shapes f vs = Value.shapes f vs' →
    (act.build vs span).map (Value.shape f) = (act.build vs' span').map (Value.shape f)

/-- All actions of an expression only store their spans. -/
def Expr.StoresSpans (f : α → β) (e : Expr α) : Prop := ∀ a ∈ e.actions, a.1.StoresSpan f

section Actions

variable {f : α → β} {find : String → Option (Expr α)} {act : Action α} {e : Expr α}

/-- A branch keeps the values and the span. -/
theorem Action.storesSpan_keep (name : String) : (Action.keep name).StoresSpan f := by
  intro vs vs' span span' h
  show Except.ok (Shape.branch name (Value.shapes f vs)) = Except.ok (Shape.branch name (Value.shapes f vs'))
  rw [h]

theorem Action.StoresSpan.steady (h : act.StoresSpan f) (body : Expr α) : Steady find f act body := by
  intro lines lines' c c' stop stop' v v' _ _ hv
  apply h
  rw [Value.shapes_spread, Value.shapes_spread, hv]

theorem Expr.StoresSpans.steadyActions (h : e.StoresSpans f) : e.SteadyActions find f :=
  fun a ha => (h a ha).steady a.2

end Actions

/-! ### Failures at a distance -/

/-- Where one fresh watch is told the failures of another one, moved on by `k`, it ends with the same
labels, and with an offset moved by `k` as well; both stay fresh if there are no failures. -/
theorem Watch.Gains.moved {w w' : Watch} {F F' : Nat → String → Prop} {k : Nat}
    (h : Watch.Gains {} w F) (h' : Watch.Gains {} w' F')
    (hmoved : ∀ pos label, F pos label ↔ ∃ pos', pos = k + pos' ∧ F' pos' label) :
    w.expected = w'.expected ∧ (w.furthest = k + w'.furthest ∨ w = {} ∧ w' = {}) := by
  obtain ⟨failures, rfl, hfailures⟩ := h
  obtain ⟨failures', rfl, hfailures'⟩ := h'
  have hmem (pos : Nat) (label : String) : (k + pos, label) ∈ failures ↔ (pos, label) ∈ failures' := by
    rw [hfailures, hfailures', hmoved]
    constructor
    · rintro ⟨pos', heq, hF⟩
      rwa [Nat.add_left_cancel heq]
    · exact fun hF => ⟨pos, rfl, hF⟩
  by_cases hne : failures' = []
  · have hnil : failures = [] := by
      apply List.eq_nil_iff_forall_not_mem.mpr
      rintro ⟨pos, label⟩ hf
      obtain ⟨pos', -, hF⟩ := (hmoved pos label).mp ((hfailures pos label).mp hf)
      have hf' := (hfailures' pos' label).mpr hF
      rw [hne] at hf'
      exact List.not_mem_nil hf'
    rw [hne, hnil]
    exact ⟨rfl, .inr ⟨rfl, rfl⟩⟩
  · obtain ⟨hfurthest, hexpected⟩ :=
      (Reports.start.noteAll failures).moved (Reports.start.noteAll failures') hne hmem
    exact ⟨hexpected, .inl hfurthest⟩

/-! ### The two runs -/

section Runs

variable {find : String → Option (Expr α)} {f : α → β} {lines lines' : LineIndex} {i j depth depth' : Nat}
  {e : Expr α} {c c' : Cursor} {w w' : Watch}

/-- **A run that ends at one place ends at the other**, with some bound on nested calls. -/
theorem Expr.exists_run_abreast
    (hrules : ∀ name body, find name = some body → body.SteadyActions find f)
    (he : e.SteadyActions find f) (hc : c.Abreast i j c')
    (hends : (e.run (callRule find lines depth) lines c w).1 ≠ .exhausted) :
    ∃ depth', (e.run (callRule find lines' depth') lines' c' w').1 ≠ .exhausted := by
  have hmoved : ∃ o', Yields find lines' e c' o' ∧ Outcome.Alike f i j _ o' :=
    (Expr.run_callRule_yields hends).moved hrules he hc
  obtain ⟨o', hy, halike⟩ := hmoved
  obtain ⟨enough, hreached⟩ := hy.reached
  refine ⟨enough, ?_⟩
  rw [hreached enough (Nat.le_refl _) w']
  rintro rfl
  generalize (e.run (callRule find lines depth) lines c w).1 = o at hends halike
  cases halike
  exact hends rfl

/-- **Two runs that end are alike.** -/
theorem Expr.run_alike
    (hrules : ∀ name body, find name = some body → body.SteadyActions find f)
    (he : e.SteadyActions find f) (hc : c.Abreast i j c')
    (hends : (e.run (callRule find lines depth) lines c w).1 ≠ .exhausted)
    (hends' : (e.run (callRule find lines' depth') lines' c' w').1 ≠ .exhausted) :
    (e.run (callRule find lines depth) lines c w).1.Alike f i j
      (e.run (callRule find lines' depth') lines' c' w').1 := by
  have hmoved : ∃ o', Yields find lines' e c' o' ∧ Outcome.Alike f i j _ o' :=
    (Expr.run_callRule_yields hends).moved hrules he hc
  obtain ⟨o', hy, halike⟩ := hmoved
  rwa [hy.deterministic (Expr.run_callRule_yields hends')] at halike

/-- The failures at a place are those at the front of a text, moved on to the place. -/
theorem misses_iff_exists_moved
    (hrules : ∀ name body, find name = some body → body.SteadyActions find f)
    (he : e.SteadyActions find f) (hc : c.Abreast i 0 c') (pos : Nat) (label : String) :
    Misses find lines e c pos label ↔ ∃ pos', pos = i + pos' ∧ Misses find lines' e c' pos' label := by
  constructor
  · intro hm
    have hmoved : ∃ pos', Misses find lines' e c' pos' label ∧ pos + 0 = pos' + i :=
      hm.exists_moved hrules he hc
    obtain ⟨pos', hm', heq⟩ := hmoved
    exact ⟨pos', by omega, hm'⟩
  · rintro ⟨pos', rfl, hm'⟩
    exact (misses_moved hrules he hc (by omega)).mpr hm'

end Runs

/-- **Only the rest of a text is read.**  Under rules whose actions only store their spans, the run at an
offset of a text and the run at the front of what is left there either both end or both do not.  If they
end,

* both fail, both raise the same fault, or both match, with ends at the distance of the two places and
  with values that are the same up to spans;
* the failures that they note, and so the ones that they know in the end, have the same labels, at
  offsets of that distance. -/
theorem run_at_remainder (find : String → Option (Expr α)) (f : α → β) (e : Expr α)
    (hrules : ∀ name body, find name = some body → body.StoresSpans f) (he : e.StoresSpans f)
    (file file' : String) (text : List Char) (pos : Nat) :
    let rest := text.drop pos
    let lines := LineIndex.ofText file text
    let lines' := LineIndex.ofText file' rest
    let whole := fun depth => e.run (callRule find lines depth) lines ⟨pos, rest⟩ {}
    let cut := fun depth => e.run (callRule find lines' depth) lines' ⟨0, rest⟩ {}
    ((∃ depth, (whole depth).1 ≠ .exhausted) ↔ ∃ depth, (cut depth).1 ≠ .exhausted) ∧
    ∀ depth depth', (whole depth).1 ≠ .exhausted → (cut depth').1 ≠ .exhausted →
      (whole depth).1.Alike f pos 0 (cut depth').1 ∧
      Watch.Gains {} (whole depth).2 (Misses find lines e ⟨pos, rest⟩) ∧
      Watch.Gains {} (cut depth').2 (Misses find lines' e ⟨0, rest⟩) ∧
      (∀ p label, Misses find lines e ⟨pos, rest⟩ p label ↔
        ∃ p', p = pos + p' ∧ Misses find lines' e ⟨0, rest⟩ p' label) ∧
      (whole depth).2.expected = (cut depth').2.expected ∧
      ((whole depth).2.furthest = pos + (cut depth').2.furthest ∨
        (whole depth).2 = {} ∧ (cut depth').2 = {}) := by
  intro rest lines lines' whole cut
  have hsteady (name : String) (body : Expr α) (hf : find name = some body) :
      body.SteadyActions find f := (hrules name body hf).steadyActions
  have hc : Cursor.Abreast pos 0 ⟨pos, rest⟩ ⟨0, rest⟩ := ⟨by simp, rfl⟩
  refine ⟨⟨?_, ?_⟩, fun depth depth' hends hends' => ?_⟩
  · rintro ⟨depth, h⟩
    exact Expr.exists_run_abreast hsteady he.steadyActions hc h
  · rintro ⟨depth, h⟩
    exact Expr.exists_run_abreast hsteady he.steadyActions hc.symm h
  · have hlog : Watch.Gains {} (whole depth).2 (Misses find lines e ⟨pos, rest⟩) :=
      e.run_callRule_logs _ {} rfl hends
    have hlog' : Watch.Gains {} (cut depth').2 (Misses find lines' e ⟨0, rest⟩) :=
      e.run_callRule_logs _ {} rfl hends'
    have hmoved : ∀ p label, Misses find lines e ⟨pos, rest⟩ p label ↔
        ∃ p', p = pos + p' ∧ Misses find lines' e ⟨0, rest⟩ p' label :=
      misses_iff_exists_moved hsteady he.steadyActions hc
    exact ⟨Expr.run_alike hsteady he.steadyActions hc hends hends', hlog, hlog', hmoved,
      hlog.moved hlog' hmoved⟩

/-- A row of brackets, a number and the end of the input, with a branch for all of them: what is read
behind a blank is what is read without it, but for the offsets and the span. -/
theorem run_at_remainder_row :
    let digits : Pattern := .run "digits" Char.isDigit 1 none
    let e : Expr Unit := .action (.keep "Line") (.seq [.ref "Row", .pattern digits, .endOfInput])
    let lines := LineIndex.ofText "" " []7".toList
    let lines' := LineIndex.ofText "" "[]7".toList
    let whole := e.run (callRule bracketParser.find lines 5) lines ⟨1, "[]7".toList⟩ {}
    let cut := e.run (callRule bracketParser.find lines' 5) lines' ⟨0, "[]7".toList⟩ {}
    whole.1.Alike id 1 0 cut.1 ∧ whole.2.expected = cut.2.expected ∧
      whole.2.furthest = 3 ∧ cut.2.furthest = 2 := by
  intro digits e lines lines' whole cut
  have hrules (name : String) (body : Expr Unit) (hf : bracketParser.find name = some body) :
      body.StoresSpans id := by
    obtain ⟨r, hr, -, rfl⟩ := Parser.find_rule hf
    have hnone : bracketParser.latestFirst.all (·.body.actions.isEmpty) = true := rfl
    intro a ha
    rw [List.isEmpty_iff.mp (List.all_eq_true.mp hnone r hr)] at ha
    cases ha
  have he : e.StoresSpans id := by
    intro a ha
    rw [List.mem_singleton.mp ha]
    exact Action.storesSpan_keep "Line"
  have hrun := (run_at_remainder bracketParser.find id e hrules he "" "" " []7".toList 1).2 5 5 nofun
    nofun
  exact ⟨hrun.1, hrun.2.2.2.2.1, rfl, rfl⟩

end MessageIdl.Peg
