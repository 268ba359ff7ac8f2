import Mathlib.Data.List.Basic

/-!
# Codes that tell where they end

A text made of codes can be taken apart again if each code tells what it is the code of and where it
ends.

* `Separates`: a code tells two things apart, whatever stands behind.
* `separates_flatMap`: so does a row of codes, if none begins like what stands behind the row.
* `runs_eq_of_append_eq`: a row of characters of one kind ends where another kind begins.
-/

namespace MessageIdl.Text

variable {α : Type} {code : α → List Char}

/-- Where texts that begin with the codes of `a` and `b` agree, `a` is `b` and what stands behind the
codes agrees. -/
def Separates (code : α → List Char) (a b : α) : Prop :=
  ∀ r s, code a ++ r = code b ++ s → a = b ∧ r = s

theorem separates_of_read (read : List Char → Option (α × List Char))
    (h : ∀ a r, read (code a ++ r) = some (a, r)) (a b : α) : Separates code a b := by
  intro r s hab
  have hread : some (a, r) = some (b, s) := by rw [← h a r, ← h b s, hab]
  simpa using hread

/-- A row of codes is told from another one when it is known what may stand behind a row and no code
begins that way. -/
theorem separates_flatMap (ends : List Char → Prop) (hends : ∀ a r, ¬ ends (code a ++ r))
    {r s : List Char} (hr : ends r) (hs : ends s) :
    ∀ {xs ys : List α}, (∀ x ∈ xs, ∀ y ∈ ys, Separates code x y) →
      xs.flatMap code ++ r = ys.flatMap code ++ s → xs = ys ∧ r = s
  | [], [], _, h => ⟨rfl, h⟩
  | [], y :: ys, _, h => by
      rw [List.flatMap_nil, List.nil_append, List.flatMap_cons, List.append_assoc] at h
      exact absurd (h ▸ hr) (hends y _)
  | x :: xs, [], _, h => by
      rw [List.flatMap_nil, List.nil_append, List.flatMap_cons, List.append_assoc] at h
      exact absurd (h ▸ hs) (hends x _)
  | x :: xs, y :: ys, hxy, h => by
      rw [List.flatMap_cons, List.flatMap_cons, List.append_assoc, List.append_assoc] at h
      obtain ⟨hfirst, hrest⟩ := hxy x List.mem_cons_self y List.mem_cons_self _ _ h
      obtain ⟨hlist, hrs⟩ := separates_flatMap ends hends hr hs
        (fun x' hx' y' hy' => hxy x' (List.mem_cons_of_mem x hx') y' (List.mem_cons_of_mem y hy'))
        hrest
      exact ⟨by rw [hfirst, hlist], hrs⟩

/-- Rows of characters of one kind are equal if characters of another kind stand behind them. -/
theorem runs_eq_of_append_eq {p : Char → Bool} {a b r s : List Char} (ha : ∀ c ∈ a, p c = true)
    (hb : ∀ c ∈ b, p c = true) (hr : ∀ c ∈ r.head?, p c = false) (hs : ∀ c ∈ s.head?, p c = false)
    (h : a ++ r = b ++ s) : a = b ∧ r = s := by
  have htake {x y : List Char} (hx : ∀ c ∈ x, p c = true) (hy : ∀ c ∈ y.head?, p c = false) :
      (x ++ y).takeWhile p = x := by
    rw [List.takeWhile_append_of_pos hx]
    cases y with
    | nil => simp
    | cons c y => simp [hy c rfl]
  have hab : a = b := by rw [← htake ha hr, ← htake hb hs, h]
  exact ⟨hab, List.append_cancel_left (hab ▸ h)⟩

end MessageIdl.Text
