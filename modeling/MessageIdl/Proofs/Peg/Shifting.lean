import MessageIdl.Proofs.Peg.Faults
import MessageIdl.Proofs.Peg.Misses

/-!
# Matching at another place

What an expression does at a cursor depends on the characters that are left there, and on nothing in
front of them.  Two cursors, of one text or of two, at which the same characters are left see the same
outcomes and the same failures, up to the distance between them.

* `Shape`, `Value.shape`: what a value is apart from its spans.
* `Cursor.Abreast`: two cursors at which the same characters are left.
* `Steady`: an action whose answers to values of one shape have one shape.
* `Yields.moved`, `misses_moved`: outcomes and failures at another place.
-/

namespace MessageIdl.Peg

open MessageIdl.Source

variable {α β : Type}

/-! ### Shapes of values -/

/-- A value without spans. -/
inductive Shape (β : Type) where
  | absent
  | flag
  | text (s : String)
  | list (items : List (Shape β))
  | branch (label : String) (children : List (Shape β))
  | node (b : β)

/-- What an action is given, without spans. -/
def Shape.spread : Shape β → List (Shape β)
  | .list items => items
  | s => [s]

namespace Value

mutual

/-- The shape of a value; `f` says what is kept of a node. -/
def shape (f : α → β) : Value α → Shape β
  | .absent => .absent
  | .flag => .flag
  | .text s => .text s
  | .list items => .list (shapes f items)
  | .branch label children _ => .branch label (shapes f children)
  | .node a => .node (f a)

/-- The shapes of values in a row. -/
def shapes (f : α → β) : List (Value α) → List (Shape β)
  | [] => []
  | v :: rest => shape f v :: shapes f rest

end

variable {f : α → β} {v v' : Value α} {vs vs' : List (Value α)}

@[simp] theorem length_shapes : (shapes f vs).length = vs.length := by
  induction vs with
  | nil => rfl
  | cons v vs ih => rw [shapes, List.length_cons, List.length_cons, ih]

theorem shapes_spread : shapes f v.spread = (v.shape f).spread := by
  cases v <;> rfl

theorem shape_list_inj : (list vs).shape f = (list vs').shape f ↔ shapes f vs = shapes f vs' := by
  rw [shape, shape, Shape.list.injEq]

theorem shape_list_cons (hv : v.shape f = v'.shape f) (hvs : (list vs).shape f = (list vs').shape f) :
    (list (v :: vs)).shape f = (list (v' :: vs')).shape f := by
  rw [shape_list_inj] at hvs ⊢
  rw [shapes, shapes, hv, hvs]

theorem length_eq_of_shape (h : (list vs).shape f = (list vs').shape f) : vs.length = vs'.length := by
  rw [← @length_shapes _ _ f, shape_list_inj.mp h, length_shapes]

end Value

/-! ### Places with the same text left -/

/-- The same characters are left at both cursors, and `c` is as far behind `i` as `c'` is behind
`j`. -/
structure Cursor.Abreast (i j : Nat) (c c' : Cursor) : Prop where
  offset : c.offset + j = c'.offset + i
  rest : c.rest = c'.rest

/-- Outcomes of one shape whose ends are abreast. -/
inductive Outcome.Alike (f : α → β) (i j : Nat) : Outcome α → Outcome α → Prop where
  | matched {stop stop' v v'} : stop.Abreast i j stop' → v.shape f = v'.shape f →
      Alike f i j (.matched stop v) (.matched stop' v')
  | failed : Alike f i j .failed .failed
  | raised (fault : Fault) : Alike f i j (.raised fault) (.raised fault)
  | exhausted : Alike f i j .exhausted .exhausted

section Places

variable {f : α → β} {i j : Nat} {c c' stop stop' : Cursor} {o o' : Outcome α}

theorem Cursor.Abreast.symm (h : c.Abreast i j c') : c'.Abreast j i c := ⟨h.offset.symm, h.rest.symm⟩

theorem Cursor.Abreast.advance (h : c.Abreast i j c') (n : Nat) :
    (c.advance n).Abreast i j (c'.advance n) where
  offset := by
    have hoffset := h.offset
    rw [advance_offset, advance_offset]
    omega
  rest := by rw [advance_rest, advance_rest, h.rest]

/-- A match takes something at both places or at none. -/
theorem Cursor.Abreast.offset_eq_iff (h : c.Abreast i j c') (hstop : stop.Abreast i j stop') :
    stop.offset = c.offset ↔ stop'.offset = c'.offset := by
  have hoffset := h.offset
  have hoffset' := hstop.offset
  omega

theorem Outcome.Alike.ne_failed (h : o.Alike f i j o') (hne : o ≠ .failed) : o' ≠ .failed := by
  rintro rfl
  cases h
  exact hne rfl

theorem Outcome.Alike.unmatched (h : o.Alike f i j o') (hu : o.Unmatched) : o'.Unmatched := by
  rintro stop' v' rfl
  cases h
  exact hu _ _ rfl

end Places

/-! ### Actions that do not look at spans -/

/-- Two matches of what an action is bound to, with values of one shape, get answers of one shape. -/
def Steady (find : String → Option (Expr α)) (f : α → β) (act : Action α) (body : Expr α) : Prop :=
  ∀ lines lines' c c' stop stop' v v', Yields find lines body c (.matched stop v) →
    Yields find lines' body c' (.matched stop' v') → v.shape f = v'.shape f →
      (act.build v.spread (lines.span c.offset stop.offset)).map (Value.shape f)
        = (act.build v'.spread (lines'.span c'.offset stop'.offset)).map (Value.shape f)

/-- All actions of an expression are steady. -/
def Expr.SteadyActions (find : String → Option (Expr α)) (f : α → β) (e : Expr α) : Prop :=
  ∀ a ∈ e.actions, Steady find f a.1 a.2

section Steady

variable {find : String → Option (Expr α)} {f : α → β} {act : Action α} {body e : Expr α}
  {es : List (Expr α)}

theorem Expr.SteadyActions.ref (name : String) : (Expr.ref name).SteadyActions find f :=
  fun _ ha => absurd ha List.not_mem_nil

theorem Expr.SteadyActions.seq_cons (h : (Expr.seq (e :: es)).SteadyActions find f) :
    e.SteadyActions find f ∧ (Expr.seq es).SteadyActions find f :=
  ⟨fun a ha => h a (List.mem_append_left _ ha), fun a ha => h a (List.mem_append_right _ ha)⟩

theorem Expr.SteadyActions.choice_cons (h : (Expr.choice (e :: es)).SteadyActions find f) :
    e.SteadyActions find f ∧ (Expr.choice es).SteadyActions find f :=
  ⟨fun a ha => h a (List.mem_append_left _ ha), fun a ha => h a (List.mem_append_right _ ha)⟩

theorem Expr.SteadyActions.action (h : (Expr.action act body).SteadyActions find f) :
    Steady find f act body ∧ body.SteadyActions find f :=
  ⟨h _ List.mem_cons_self, fun a ha => h a (List.mem_cons_of_mem _ ha)⟩

variable {lines lines' : LineIndex} {c c' stop stop' : Cursor} {v v' built : Value α}

theorem Steady.exists_built (h : Steady find f act body)
    (hy : Yields find lines body c (.matched stop v))
    (hy' : Yields find lines' body c' (.matched stop' v')) (hv : v.shape f = v'.shape f)
    (hb : act.build v.spread (lines.span c.offset stop.offset) = .ok built) :
    ∃ built', act.build v'.spread (lines'.span c'.offset stop'.offset) = .ok built' ∧
      built.shape f = built'.shape f := by
  have hshape := h _ _ _ _ _ _ _ _ hy hy' hv
  rw [hb] at hshape
  cases hb' : act.build v'.spread (lines'.span c'.offset stop'.offset) with
  | error fault =>
    rw [hb'] at hshape
    cases hshape
  | ok built' =>
    rw [hb'] at hshape
    exact ⟨built', rfl, Except.ok.inj hshape⟩

theorem Steady.raised (h : Steady find f act body)
    (hy : Yields find lines body c (.matched stop v))
    (hy' : Yields find lines' body c' (.matched stop' v')) (hv : v.shape f = v'.shape f)
    {fault : Fault} (hb : act.build v.spread (lines.span c.offset stop.offset) = .error fault) :
    act.build v'.spread (lines'.span c'.offset stop'.offset) = .error fault := by
  have hshape := h _ _ _ _ _ _ _ _ hy hy' hv
  rw [hb] at hshape
  cases hb' : act.build v'.spread (lines'.span c'.offset stop'.offset) with
  | error fault' =>
    rw [hb'] at hshape
    rw [Except.error.inj hshape]
  | ok built' =>
    rw [hb'] at hshape
    cases hshape

end Steady

/-! ### Outcomes and failures at another place -/

section Moved

variable {find : String → Option (Expr α)} {f : α → β} {lines lines' : LineIndex} {i j : Nat}
  {e : Expr α} {c c' : Cursor} {o : Outcome α} {pos pos' : Nat} {label : String}

/-- **Outcomes at another place.**  Where the same characters are left, an expression has the same
outcome, by induction on the derivation of the first one. -/
theorem Yields.moved
    (hrules : ∀ name body, find name = some body → body.SteadyActions find f)
    (h : Yields find lines e c o) (he : e.SteadyActions find f) (hc : c.Abreast i j c') :
    ∃ o', Yields find lines' e c' o' ∧ o.Alike f i j o' := by
  induction h generalizing c' with
  | literal hp => exact ⟨_, .literal (hc.rest ▸ hp), .matched (hc.advance _) rfl⟩
  | literal_failed hp => exact ⟨_, .literal_failed (hc.rest ▸ hp), .failed⟩
  | pattern hs =>
    refine ⟨_, .pattern (hc.rest ▸ hs), .matched (hc.advance _) ?_⟩
    rw [hc.rest]
  | pattern_failed hs => exact ⟨_, .pattern_failed (hc.rest ▸ hs), .failed⟩
  | ref hf _ ih =>
    obtain ⟨o', hy, ho⟩ := ih (hrules _ _ hf) hc
    exact ⟨o', .ref hf hy, ho⟩
  | ref_undefined hf => exact ⟨_, .ref_undefined hf, .raised _⟩
  | seq_nil => exact ⟨_, .seq_nil, .matched hc rfl⟩
  | seq_cons _ _ ih ih' =>
    obtain ⟨_, hy, ⟨hmid, hv⟩⟩ := ih he.seq_cons.1 hc
    obtain ⟨_, hys, ⟨hstop, hvs⟩⟩ := ih' he.seq_cons.2 hmid
    obtain ⟨vs', rfl⟩ := hys.seq_value
    exact ⟨_, .seq_cons hy hys, .matched hstop (Value.shape_list_cons hv hvs)⟩
  | seq_stop _ hu ih =>
    obtain ⟨o', hy, ho⟩ := ih he.seq_cons.1 hc
    exact ⟨o', .seq_stop hy (ho.unmatched hu), ho⟩
  | seq_later_stop _ _ hu ih ih' =>
    obtain ⟨_, hy, ⟨hmid, -⟩⟩ := ih he.seq_cons.1 hc
    obtain ⟨o', hys, ho⟩ := ih' he.seq_cons.2 hmid
    exact ⟨o', .seq_later_stop hy hys (ho.unmatched hu), ho⟩
  | choice_nil => exact ⟨_, .choice_nil, .failed⟩
  | choice_commit _ hne ih =>
    obtain ⟨o', hy, ho⟩ := ih he.choice_cons.1 hc
    exact ⟨o', .choice_commit hy (ho.ne_failed hne), ho⟩
  | choice_next _ _ ih ih' =>
    obtain ⟨_, hy, ⟨⟩⟩ := ih he.choice_cons.1 hc
    obtain ⟨o', hys, ho⟩ := ih' he.choice_cons.2 hc
    exact ⟨o', .choice_next hy hys, ho⟩
  | round_last _ ih =>
    obtain ⟨_, hy, ⟨⟩⟩ := ih he hc
    exact ⟨_, .round_last hy, .matched hc rfl⟩
  | round_empty _ hempty ih =>
    obtain ⟨_, hy, ⟨hstop, hv⟩⟩ := ih he hc
    exact ⟨_, .round_empty hy ((hc.offset_eq_iff hstop).mp hempty),
      .matched hstop (Value.shape_list_cons hv rfl)⟩
  | round_more _ hne _ ih ih' =>
    obtain ⟨_, hy, ⟨hmid, hv⟩⟩ := ih he hc
    obtain ⟨_, hys, ⟨hstop, hvs⟩⟩ := ih' he hmid
    obtain ⟨vs', rfl⟩ := hys.repeated_value
    exact ⟨_, .round_more hy (mt (hc.offset_eq_iff hmid).mpr hne) hys,
      .matched hstop (Value.shape_list_cons hv hvs)⟩
  | round_raised _ ih =>
    obtain ⟨_, hy, ⟨⟩⟩ := ih he hc
    exact ⟨_, .round_raised hy, .raised _⟩
  | round_later_raised _ hne _ ih ih' =>
    obtain ⟨_, hy, ⟨hmid, -⟩⟩ := ih he hc
    obtain ⟨_, hys, ⟨⟩⟩ := ih' he hmid
    exact ⟨_, .round_later_raised hy (mt (hc.offset_eq_iff hmid).mpr hne) hys, .raised _⟩
  | repeated_enough h0 _ hle ih =>
    obtain ⟨_, hy, ⟨hstop, hvs⟩⟩ := ih he hc
    obtain ⟨vs', rfl⟩ := hy.repeated_value
    exact ⟨_, .repeated_enough h0 hy (Value.length_eq_of_shape hvs ▸ hle), .matched hstop hvs⟩
  | repeated_short h0 _ hlt ih =>
    obtain ⟨_, hy, ⟨hstop, hvs⟩⟩ := ih he hc
    obtain ⟨vs', rfl⟩ := hy.repeated_value
    exact ⟨_, .repeated_short h0 hy (Value.length_eq_of_shape hvs ▸ hlt), .failed⟩
  | repeated_raised h0 _ ih =>
    obtain ⟨_, hy, ⟨⟩⟩ := ih he hc
    exact ⟨_, .repeated_raised h0 hy, .raised _⟩
  | optional_present _ hne ih =>
    obtain ⟨o', hy, ho⟩ := ih he hc
    exact ⟨o', .optional_present hy (ho.ne_failed hne), ho⟩
  | optional_absent _ ih =>
    obtain ⟨_, hy, ⟨⟩⟩ := ih he hc
    exact ⟨_, .optional_absent hy, .matched hc rfl⟩
  | not_failed _ ih =>
    obtain ⟨_, hy, ⟨⟩⟩ := ih he hc
    exact ⟨_, .not_failed hy, .matched hc rfl⟩
  | not_matched _ ih =>
    obtain ⟨_, hy, ⟨-, -⟩⟩ := ih he hc
    exact ⟨_, .not_matched hy, .failed⟩
  | not_raised _ ih =>
    obtain ⟨_, hy, ⟨⟩⟩ := ih he hc
    exact ⟨_, .not_raised hy, .raised _⟩
  | action hy hb ih =>
    obtain ⟨_, hy', ⟨hstop, hv⟩⟩ := ih he.action.2 hc
    obtain ⟨built', hb', hbuilt⟩ := he.action.1.exists_built hy hy' hv hb
    exact ⟨_, .action hy' hb', .matched hstop hbuilt⟩
  | action_raised hy hb ih =>
    obtain ⟨_, hy', ⟨hstop, hv⟩⟩ := ih he.action.2 hc
    exact ⟨_, .action_raised hy' (he.action.1.raised hy hy' hv hb), .raised _⟩
  | action_stop _ hu ih =>
    obtain ⟨o', hy, ho⟩ := ih he.action.2 hc
    exact ⟨o', .action_stop hy (ho.unmatched hu), ho⟩
  | endOfInput hend => exact ⟨_, .endOfInput (hc.rest ▸ hend), .matched hc rfl⟩
  | endOfInput_failed hne => exact ⟨_, .endOfInput_failed (hc.rest ▸ hne), .failed⟩
  | hole => exact ⟨_, .hole, .raised _⟩

/-- A failure happens at the other place as well, by induction on the way to it. -/
theorem Misses.exists_moved
    (hrules : ∀ name body, find name = some body → body.SteadyActions find f)
    (h : Misses find lines e c pos label) (he : e.SteadyActions find f) (hc : c.Abreast i j c') :
    ∃ pos', Misses find lines' e c' pos' label ∧ pos + j = pos' + i := by
  induction h generalizing c' with
  | literal hp => exact ⟨_, .literal (hc.rest ▸ hp), hc.offset⟩
  | pattern hs => exact ⟨_, .pattern (hc.rest ▸ hs), hc.offset⟩
  | endOfInput hne => exact ⟨_, .endOfInput (hc.rest ▸ hne), hc.offset⟩
  | ref hf _ ih =>
    obtain ⟨pos', hm, hpos⟩ := ih (hrules _ _ hf) hc
    exact ⟨pos', .ref hf hm, hpos⟩
  | seq_head _ ih =>
    obtain ⟨pos', hm, hpos⟩ := ih he.seq_cons.1 hc
    exact ⟨pos', .seq_head hm, hpos⟩
  | seq_tail hy _ ih =>
    obtain ⟨_, hy', ⟨hmid, -⟩⟩ := hy.moved hrules he.seq_cons.1 hc
    obtain ⟨pos', hm, hpos⟩ := ih he.seq_cons.2 hmid
    exact ⟨pos', .seq_tail hy' hm, hpos⟩
  | choice_head _ ih =>
    obtain ⟨pos', hm, hpos⟩ := ih he.choice_cons.1 hc
    exact ⟨pos', .choice_head hm, hpos⟩
  | choice_next hy _ ih =>
    obtain ⟨_, hy', ⟨⟩⟩ := hy.moved hrules he.choice_cons.1 hc
    obtain ⟨pos', hm, hpos⟩ := ih he.choice_cons.2 hc
    exact ⟨pos', .choice_next hy' hm, hpos⟩
  | round _ ih =>
    obtain ⟨pos', hm, hpos⟩ := ih he hc
    exact ⟨pos', .round hm, hpos⟩
  | round_more hy hne _ ih =>
    obtain ⟨_, hy', ⟨hmid, -⟩⟩ := hy.moved hrules he hc
    obtain ⟨pos', hm, hpos⟩ := ih he hmid
    exact ⟨pos', .round_more hy' (mt (hc.offset_eq_iff hmid).mpr hne) hm, hpos⟩
  | optional _ ih =>
    obtain ⟨pos', hm, hpos⟩ := ih he hc
    exact ⟨pos', .optional hm, hpos⟩
  | not hy =>
    obtain ⟨_, hy', ⟨-, -⟩⟩ := hy.moved hrules he hc
    exact ⟨_, .not hy', hc.offset⟩
  | action _ ih =>
    obtain ⟨pos', hm, hpos⟩ := ih he.action.2 hc
    exact ⟨pos', .action hm, hpos⟩

/-- **Failures at another place** are the same, up to the distance. -/
theorem misses_moved
    (hrules : ∀ name body, find name = some body → body.SteadyActions find f)
    (he : e.SteadyActions find f) (hc : c.Abreast i j c') (hpos : pos + j = pos' + i) :
    Misses find lines e c pos label ↔ Misses find lines' e c' pos' label := by
  constructor
  · intro h
    obtain ⟨p, hm, hp⟩ := h.exists_moved hrules he hc
    rwa [show pos' = p by omega]
  · intro h
    obtain ⟨p, hm, hp⟩ := h.exists_moved hrules he hc.symm
    rwa [show pos = p by omega]

end Moved

end MessageIdl.Peg
