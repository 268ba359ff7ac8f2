import Mathlib.Data.List.Forall2
import MessageIdl.Proofs.Text.Json
import MessageIdl.Schema.Json

/-!
# Schemas as JSON tell their trees

The JSON text of a tree leaves out the spans and nothing else, whatever strings stand as names, types
and path.

* `EnumValue.json_eq_iff`, `Enumeration.json_eq_iff`, `Field.json_eq_iff`, `Message.json_eq_iff`,
  `SchemaFile.json_eq_iff`: two nodes have one JSON value if they differ in spans only.
* `SchemaFile.json_render_eq_iff`: the same for files and the texts of their values.
-/

namespace MessageIdl.Schema

open MessageIdl.Text (Json)

/-- Two functions that tell elements apart alike tell lists apart alike. -/
theorem map_eq_map_iff {α β γ : Type} {f : α → β} {g : α → γ}
    (h : ∀ a b, f a = f b ↔ g a = g b) (xs ys : List α) :
    xs.map f = ys.map f ↔ xs.map g = ys.map g := by
  have hpointwise : (fun a b => f a = f b) = fun a b => g a = g b :=
    funext fun a => funext fun b => propext (h a b)
  rw [← List.forall₂_eq_eq_eq, ← List.forall₂_eq_eq_eq]
  simp only [List.forall₂_map_left_iff, List.forall₂_map_right_iff, hpointwise]

theorem EnumValue.json_eq_iff (v w : EnumValue) : v.json = w.json ↔ v.bare = w.bare := by
  simp [EnumValue.json, EnumValue.bare]

theorem Enumeration.json_eq_iff (d e : Enumeration) : d.json = e.json ↔ d.bare = e.bare := by
  simp [Enumeration.json, Enumeration.bare, map_eq_map_iff EnumValue.json_eq_iff]

theorem Field.json_eq_iff (x y : Field) : x.json = y.json ↔ x.bare = y.bare := by
  simp [Field.json, Field.bare, and_comm]

theorem Message.json_eq_iff (m n : Message) : m.json = n.json ↔ m.bare = n.bare := by
  simp only [Message.json, Json.object.injEq, List.cons.injEq, Prod.mk.injEq, Json.array.injEq,
    Json.string.injEq, true_and, and_true, Message.bare, Message.mk.injEq,
    map_eq_map_iff Field.json_eq_iff, map_eq_map_iff Enumeration.json_eq_iff]
  tauto

/-- A path and no path are written differently, and so are two paths. -/
theorem path_json_injective :
    Function.Injective fun path : Option String => path.elim Json.null Json.string := by
  rintro (_ | p) (_ | q) h
  · rfl
  · cases h
  · cases h
  · exact congrArg some (Json.string.inj h)

theorem SchemaFile.json_eq_iff (f g : SchemaFile) : f.json = g.json ↔ f.Same g := by
  simp only [SchemaFile.json, Json.object.injEq, List.cons.injEq, Prod.mk.injEq, Json.array.injEq,
    path_json_injective.eq_iff, true_and, and_true, SchemaFile.Same, SchemaFile.bare,
    SchemaFile.mk.injEq, map_eq_map_iff Message.json_eq_iff,
    map_eq_map_iff Enumeration.json_eq_iff]
  tauto

/-- The JSON text of a file tells the file up to spans, whatever its strings are. -/
theorem SchemaFile.json_render_eq_iff (f g : SchemaFile) :
    f.json.render = g.json.render ↔ f.Same g := by
  rw [Json.render_injective.eq_iff, SchemaFile.json_eq_iff]

end MessageIdl.Schema
