import MessageIdl.Proofs.Schema.Spans
import MessageIdl.Proofs.Schema.Printing

/-!
# Cutting nodes out of a text

What a node was read from is a text of the node, whatever stands in front of it and behind it.  Read on
its own, it gives the node again.

* `cutOut`: the text of a span.
* `Slice.cut_mem`: what is cut out is a text of the language that was read there.
* `SchemaFile.CutsOut`: what is cut out for a node gives the node.
* `parse_tiles`: the places of the nodes of a parsed tree, and what is cut out there.
-/

namespace MessageIdl.Schema

open MessageIdl.Peg MessageIdl.Source
open scoped Computability

/-- What stands from the beginning of a span to its end. -/
def cutOut (text : List Char) : Option Span → List Char
  | none => []
  | some s => text.extract s.start.offset s.stop.offset

theorem cutOut_eq {text : List Char} {span : Option Span} {i j : Nat} (h : Stands span i j) :
    cutOut text span = text.extract i j := by
  obtain ⟨s, rfl, rfl, rfl⟩ := h
  rfl

/-! ### Slices -/

section Slices

variable {L : Language Char} {text : List Char} {i j : Nat}

theorem extract_of_drop {x : List Char} (hj : j ≤ text.length)
    (h : text.drop i = x ++ text.drop j) : text.extract i j = x := by
  have hlen := congrArg List.length h
  rw [List.length_append, List.length_drop, List.length_drop] at hlen
  rw [List.extract_eq_take_drop, h, show j - i = x.length by omega, List.take_left]

/-- What is read up to `j` is what stands in front of it, and an open comment if there is one. -/
theorem Slice.reads_cut (h : Slice L text i j) : Reads L (text.extract i j) [] := by
  obtain ⟨x, hx, tail, htext, hl⟩ := h.reads
  rcases hl with rfl | ⟨hopen, hnil⟩
  · rw [extract_of_drop h.le_length htext]
    exact ⟨x, hx, [], (List.append_nil x).symm, .refl []⟩
  · have hcut : text.extract i j = x ++ tail :=
      extract_of_drop h.le_length (by rw [hnil, List.append_nil, htext])
    exact ⟨x, hx, tail, hcut, .inr ⟨hopen, rfl⟩⟩

theorem Slice.cut_mem (h : Slice L text i j) :
    text.extract i j ∈ L * (1 + openCommentText) :=
  h.reads_cut.mem_of_nil

/-- In front of a text that is left there is no open comment. -/
theorem Slice.cut_mem_of_lt (h : Slice L text i j) (hj : j < text.length) :
    text.extract i j ∈ L := by
  obtain ⟨x, hx, tail, htext, hl⟩ := h.reads
  rcases hl with rfl | ⟨-, hnil⟩
  · rw [extract_of_drop h.le_length htext]
    exact hx
  · have hle := List.drop_eq_nil_iff.mp hnil
    omega

end Slices

/-! ### Texts of single nodes -/

section Single

variable {A B : Type} (textA : A → Language Char) (textB : B → Language Char)

theorem le_mixedText_left (a : A) : textA a ≤ mixedText textA textB [a] [] :=
  fun _ hx => ⟨[.inl a], rfl, rfl, (mul_one (textA a)).ge hx⟩

theorem le_mixedText_right (b : B) : textB b ≤ mixedText textA textB [] [b] :=
  fun _ hx => ⟨[.inr b], rfl, rfl, (mul_one (textB b)).ge hx⟩

end Single

/-- Declarations need no gap in front of them. -/
theorem le_fileText {L : Language Char} {f : SchemaFile}
    (h : L ≤ mixedText messageText enumText f.messages f.enums) :
    L * (1 + openCommentText) ≤ fileText f := by
  have hgap : L ≤ gapText * mixedText messageText enumText f.messages f.enums :=
    fun x hx => Language.append_mem_mul nil_mem_gapText (h hx)
  exact mul_le_mul_left hgap _

/-- A field between the braces of a message. -/
theorem wrapped_field_mem {f : Field} {x : List Char} (hx : x ∈ fieldText f) :
    "message X \x7b".toList ++ x ++ "\x7d".toList
      ∈ fileText { messages := [{ name := "X", fields := [f] }] } := by
  have hfield : x ∈ gapText * mixedText fieldText enumText [f] [] :=
    Language.append_mem_mul (a := []) nil_mem_gapText (le_mixedText_left fieldText enumText f hx)
  have hmessage : "message".toList ++ [' '] ++ ("X".toList ++ ' ' :: '\x7b' :: (x ++ ['\x7d']))
      ∈ messageText { name := "X", fields := [f] } :=
    Language.append_mem_mul (Language.append_mem_mul (mem_word.mpr rfl) space_mem_gapText)
      (body_mem (s := "X") (by decide) hfield nil_mem_gapText)
  have hfile : "message".toList ++ [' '] ++ ("X".toList ++ ' ' :: '\x7b' :: (x ++ ['\x7d'])) ++ []
      ∈ fileText { messages := [{ name := "X", fields := [f] }] } :=
    le_fileText (le_mixedText_left messageText enumText _)
      (Language.append_mem_mul hmessage (.inl Language.nil_mem_one))
  simpa using hfile

/-! ### Parsing what was cut out -/

/-- What is cut out for a node of a file gives the node: a declaration on its own, a field in a message
around it. -/
structure SchemaFile.CutsOut (text : List Char) (f : SchemaFile) : Prop where
  messages : ∀ file, ∀ m ∈ f.messages, ∃ g,
    parse file (String.ofList (cutOut text m.span)) = .ok g ∧ g.Same { messages := [m] }
  enums : ∀ file, ∀ e ∈ f.allEnums, ∃ g,
    parse file (String.ofList (cutOut text e.span)) = .ok g ∧ g.Same { enums := [e] }
  fields : ∀ file, ∀ m ∈ f.messages, ∀ x ∈ m.fields, ∃ g,
    parse file ("message X \x7b" ++ String.ofList (cutOut text x.span) ++ "\x7d") = .ok g ∧
      g.Same { messages := [{ name := "X", fields := [x] }] }

theorem MessageAt.parse_cut {text : List Char} {m : Message} {i j : Nat} (h : MessageAt text m i j)
    (file : String) : ∃ g,
      parse file (String.ofList (cutOut text m.span)) = .ok g ∧ g.Same { messages := [m] } := by
  refine parse_of_mem_fileText file ?_ rfl
  rw [String.toList_ofList, cutOut_eq h.1]
  exact le_fileText (le_mixedText_left messageText enumText m) h.2.1.cut_mem

theorem EnumAt.parse_cut {text : List Char} {e : Enumeration} {i j : Nat} (h : EnumAt text e i j)
    (file : String) : ∃ g,
      parse file (String.ofList (cutOut text e.span)) = .ok g ∧ g.Same { enums := [e] } := by
  refine parse_of_mem_fileText file ?_ rfl
  rw [String.toList_ofList, cutOut_eq h.1]
  exact le_fileText (le_mixedText_right messageText enumText e) h.2.1.cut_mem

/-- A field does not end where the text ends. -/
theorem MessageAt.parse_cut_field {text : List Char} {m : Message} {i j : Nat}
    (h : MessageAt text m i j) {f : Field} (hf : f ∈ m.fields) (file : String) : ∃ g,
      parse file ("message X \x7b" ++ String.ofList (cutOut text f.span) ++ "\x7d") = .ok g ∧
        g.Same { messages := [{ name := "X", fields := [f] }] } := by
  obtain ⟨-, hslice, brace, a, b, -, -, -, hparts, -, hclose⟩ := h
  obtain ⟨i', j', ⟨hstands, hfield⟩, -, -, hj'⟩ := hparts.exists_left hf
  have hj := hslice.le_length
  have hcut : (String.ofList (cutOut text f.span)).toList = text.extract i' j' := by
    rw [String.toList_ofList, cutOut_eq hstands]
  refine parse_of_mem_fileText file ?_ rfl
  rw [String.toList_append, String.toList_append, hcut]
  exact wrapped_field_mem (hfield.cut_mem_of_lt (by omega))

theorem FileAt.cutsOut {text : List Char} {f : SchemaFile} (h : FileAt text f) : f.CutsOut text where
  messages file m hm := by
    obtain ⟨i, j, hat⟩ := h.exists_message hm
    exact hat.parse_cut file
  enums file e he := by
    obtain ⟨i, j, hat⟩ := h.exists_enum he
    exact hat.parse_cut file
  fields file m hm x hx := by
    obtain ⟨i, j, hat⟩ := h.exists_message hm
    exact hat.parse_cut_field hx file

/-- **Spans tile the text and can be cut out.**  In a tree that was parsed, the span of the file is the
whole text; its messages and enumerations tile it from the end of the first gap to its end; the fields
and enumerations of a message, and the values of an enumeration, tile what stands between its braces;
the nodes of each kind are in the order of their spans, and lie strictly inside their parents.  What is
cut out of the text for a message or an enumeration is parsed to a file with this node only, and what is
cut out for a field is parsed, between the braces of a message, to a message with this field only. -/
theorem parse_tiles {file src : String} {f : SchemaFile} (h : parse file src = .ok f) :
    FileAt src.toList f ∧ f.Ordered ∧ f.CutsOut src.toList := by
  have hat := parse_fileAt h
  exact ⟨hat, hat.ordered, hat.cutsOut⟩

/-- The places in a message with one field. -/
theorem parse_tiles_message : ∃ f,
    parse memoryName "message X \x7bint32 x = 1;\n\x7d" = .ok f ∧
      f.Same { messages := [{ name := "X", fields := [{ name := "x", type := "int32" }] }] } ∧
      FileAt "message X \x7bint32 x = 1;\n\x7d".toList f ∧ f.Ordered ∧
      f.CutsOut "message X \x7bint32 x = 1;\n\x7d".toList := by
  have hfield : "int32 x = 1;\n".toList ∈ fieldText { name := "x", type := "int32" } :=
    field_line_mem ⟨by decide, .inl ⟨.int32, by decide, rfl⟩, by decide⟩ 1
  have htext : "message X \x7bint32 x = 1;\n\x7d".toList ∈ fileText
      { messages := [{ name := "X", fields := [{ name := "x", type := "int32" }] }] } :=
    wrapped_field_mem hfield
  obtain ⟨f, hf, hsame⟩ := parse_of_mem_fileText memoryName htext rfl
  exact ⟨f, hf, hsame, parse_tiles hf⟩

end MessageIdl.Schema
