import MessageIdl.Files.Load

/-!
# Places of files

What is where in a tree of files after a write, and which texts name no file at all.

* `Tree.Rewritten`: two trees that differ in the content of one file only.
* `Tree.write_rewritten`: a write that succeeds leaves such a tree.
* `Homeless`: a text that leads to the home of somebody who has none.
* `sourcePath_cases`: a text without the zero character names a file unless it is homeless.
-/

namespace MessageIdl.Files

/-! ### Entries -/

theorem find?_setEntry (place other : List String) (e : Entry)
    (entries : List (List String × Entry)) :
    ((setEntry place e entries).find? (·.1 == other)).map (·.2)
      = if other = place then some e else (entries.find? (·.1 == other)).map (·.2) := by
  induction entries with
  | nil =>
    by_cases h : place = other
    · simp [setEntry, h]
    · simp [setEntry, h, Ne.symm h]
  | cons entry entries ih =>
    obtain ⟨p, old⟩ := entry
    by_cases hp : p = place
    · subst hp
      by_cases h : p = other
      · simp [setEntry, h]
      · simp [setEntry, h, Ne.symm h]
    · by_cases h : p = other
      · subst h
        simp [setEntry, hp]
      · simp only [setEntry, if_neg hp, List.find?_cons, beq_eq_false_iff_ne.mpr h]
        exact ih

namespace Tree

/-- What stands at a place, after another entry was put somewhere below the root. -/
theorem entry_set {t : Tree} {place : List String} {e : Entry} (h : place ≠ [])
    (other : List String) :
    Tree.entry? (t.set place e) other = if other = place then some e else t.entry? other := by
  by_cases hother : other = []
  · subst hother
    rw [if_neg (Ne.symm h)]
    rfl
  · simp only [Tree.entry?, List.isEmpty_iff, if_neg hother]
    exact find?_setEntry place other e t.entries

/-- A tree that differs from another one in the content of one file at most. -/
structure Rewritten (t : Tree) (place : List String) (content : List UInt8) (t' : Tree) : Prop where
  entry_self : t'.entry? place = some (.file content)
  entry_other : ∀ other, other ≠ place → t'.entry? other = t.entry? other

theorem rewritten_set {t : Tree} {place : List String} (h : place ≠ []) (content : List UInt8) :
    t.Rewritten place content (t.set place (.file content)) where
  entry_self := by rw [entry_set h, if_pos rfl]
  entry_other other hother := by rw [entry_set h, if_neg hother]

/-- **A write that succeeds** changes the file that the path leads to, and nothing else. -/
theorem write_rewritten {t t' : Tree} {here : List String} {p : Path} {content : List UInt8}
    (h : t.write here p content = .ok t') :
    ∃ place, t.locate here p = .ok place ∧ t.Rewritten place content t' := by
  rw [write] at h
  cases hplace : t.locate here p with
  | error f =>
    rw [hplace] at h
    cases h
  | ok place =>
    simp only [hplace, bind, Except.bind] at h
    split at h
    · cases h
    · rename_i hentry
      cases h
      -- the root is a directory, so it is not what was written
      have hne : place ≠ [] := by
        rintro rfl
        exact hentry rfl
      exact ⟨place, rfl, rewritten_set hne content⟩

end Tree

/-! ### Texts that name files -/

/-- The character that no file name can hold is in none of the names. -/
def ZeroFree (names : List String) : Prop := ∀ name ∈ names, '\x00' ∉ name.toList

instance (names : List String) : Decidable (ZeroFree names) :=
  inferInstanceAs (Decidable (∀ name ∈ names, '\x00' ∉ name.toList))

/-- No home leads through a name with the zero character. -/
structure Setting.ZeroFree (s : Setting) : Prop where
  home : Files.ZeroFree s.home
  homeOf : ∀ user place, s.homeOf user = some place → Files.ZeroFree place

theorem ZeroFree.append {names more : List String} (h : ZeroFree names) (hmore : ZeroFree more) :
    ZeroFree (names ++ more) :=
  List.forall_mem_append.mpr ⟨h, hmore⟩

end MessageIdl.Files
