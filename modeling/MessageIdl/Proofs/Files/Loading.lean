import MessageIdl.Files.Load
import MessageIdl.Proofs.Schema.LineBreaks
import MessageIdl.Proofs.Schema.Slices
import MessageIdl.Proofs.Text.Utf8

/-!
# Schemas from files and from memory

A file is read with its line breaks unified, and a text in memory with its line breaks as they are.

* `load_cases`: a file is loaded, cannot be read, or is rejected.
* `SameOutcome`: a file and a text give equal declarations, or both are rejected.
* `load_parsed`, `load_stopped`: a file that holds the bytes of a text is parsed with unified line breaks.
* `load_agrees`: it gives what the text does unless there are stray carriage returns in comments.
* `load_disagrees`: with one of these the file may declare more than the text.
-/

namespace MessageIdl.Files

open MessageIdl.Schema MessageIdl.Peg MessageIdl.Text
open scoped Computability

/-- What a file gives and what a text in memory gives: trees with equal messages and enumerations, spans
apart, or rejections. -/
def SameOutcome (loaded : Except LoadError SchemaFile) (parsed : Except Stop SchemaFile) : Prop :=
  (∃ f g, loaded = .ok f ∧ parsed = .ok g ∧
    f.messages.map Message.bare = g.messages.map Message.bare ∧
    f.enums.map Enumeration.bare = g.enums.map Enumeration.bare) ∨
  (∃ e, loaded = .error (.stopped (.rejected e))) ∧ ∃ e, parsed = .error (.rejected e)

variable {t : Tree} {s : Setting} {text src : String} {path : Path}

theorem named_defaultEncoding : Encoding.named? defaultEncoding = some .utf8 := by decide +kernel

/-- The bytes of a text become the text with unified line breaks. -/
theorem decodeSource_encodeUtf8 (shown src : String) :
    decodeSource shown defaultEncoding (encodeUtf8 src)
      = .ok (String.ofList (unifyLineBreaks src.toList)) := by
  simp only [decodeSource, named_defaultEncoding, Encoding.decode, decodeUtf8_encodeUtf8]

/-- **A file is loaded, cannot be read, or is rejected.** -/
theorem load_cases (path : Path) (content : Except Failure (List UInt8)) :
    (∃ f, load path defaultEncoding content = .ok f) ∨
      (∃ reason, load path defaultEncoding content = .error (.unreadable path.display reason)) ∨
      ∃ e, load path defaultEncoding content = .error (.stopped (.rejected e)) := by
  unfold load decodeSource
  rw [named_defaultEncoding]
  cases content with
  | error f => exact .inr (.inl ⟨_, rfl⟩)
  | ok bytes =>
    cases hchars : Encoding.utf8.decode bytes with
    | error fault =>
      simp only [hchars]
      exact .inr (.inl ⟨_, rfl⟩)
    | ok chars =>
      simp only [hchars]
      rcases parse_cases path.display (String.ofList (unifyLineBreaks chars))
        with ⟨f, hf, -⟩ | ⟨⟨e, he⟩, -⟩
      · rw [hf]
        exact .inl ⟨_, rfl⟩
      · rw [he]
        exact .inr (.inr ⟨e, rfl⟩)

/-- A file that holds the bytes of a text is parsed with unified line breaks, and keeps its path. -/
theorem load_parsed {g : SchemaFile} (hpath : sourcePath s text = .ok path)
    (hread : t.read s.here path = .ok (encodeUtf8 src))
    (hparse : parse path.display (String.ofList (unifyLineBreaks src.toList)) = .ok g) :
    t.load s text defaultEncoding = .ok { g with path := some path.display } := by
  simp only [Tree.load, hpath, load, hread, decodeSource_encodeUtf8, hparse]

theorem load_stopped {stop : Stop} (hpath : sourcePath s text = .ok path)
    (hread : t.read s.here path = .ok (encodeUtf8 src))
    (hparse : parse path.display (String.ofList (unifyLineBreaks src.toList)) = .error stop) :
    t.load s text defaultEncoding = .error (.stopped stop) := by
  simp only [Tree.load, hpath, load, hread, decodeSource_encodeUtf8, hparse]

/-- **Files and texts in memory agree** where no carriage return stands by itself in a comment up to the
end of its line.  A readable file with the UTF-8 bytes of such a text, and the text itself, give trees with
equal messages and enumerations, or both are rejected. -/
theorem load_agrees (file : String) (hpath : sourcePath s text = .ok path)
    (hread : t.read s.here path = .ok (encodeUtf8 src))
    (hreturns : noStrayReturns .code src.toList = true) :
    SameOutcome (t.load s text defaultEncoding) (parse file src) := by
  rcases parse_unified file path.display hreturns with ⟨f, g, hf, hg, hsame⟩ | ⟨hrejected, e, he⟩
  · exact .inl ⟨_, f, load_parsed hpath hread hg, hf, congrArg SchemaFile.messages hsame,
      congrArg SchemaFile.enums hsame⟩
  · exact .inr ⟨⟨e, load_stopped hpath hread he⟩, hrejected⟩

/-! ### One file -/

/-- A tree with one file, which holds the bytes of a text. -/
def treeOf (src : String) : Tree := { entries := [(["m.proto"], .file (encodeUtf8 src))] }

/-- The directory in which paths begin is the root. -/
def atRoot : Setting := { here := [], home := [] }

theorem sourcePath_root : sourcePath atRoot "/m.proto" = .ok (.absolute ["m.proto"]) := by
  decide +kernel

theorem read_treeOf (src : String) :
    (treeOf src).read atRoot.here (.absolute ["m.proto"]) = .ok (encodeUtf8 src) := by
  rfl

/-- Lines may end with both characters, also those of comments. -/
theorem load_agrees_lines :
    SameOutcome ((treeOf "message M \x7b\x7d // M\r\n").load atRoot "/m.proto" defaultEncoding)
      (parse memoryName "message M \x7b\x7d // M\r\n") :=
  load_agrees memoryName sourcePath_root (read_treeOf _) (by decide)

/-- A message behind a carriage return in a comment. -/
def strayText : String := "//a\rmessage M \x7b\x7d"

/-- In memory, the comment goes on behind the carriage return. -/
theorem parse_strayText : ∃ g, parse memoryName strayText = .ok g ∧ g.Same {} := by
  refine parse_of_mem_fileText memoryName ?_ rfl
  have hcomment : strayText.toList ∈ openCommentText := ⟨_, by decide, rfl⟩
  have hnone : [] ∈ mixedText messageText enumText [] [] := ⟨[], rfl, rfl, Language.nil_mem_one⟩
  exact Language.append_mem_mul (Language.append_mem_mul nil_mem_gapText hnone) (.inr hcomment)

/-- From a file, the comment ends at the carriage return. -/
theorem parse_unified_strayText (file : String) : ∃ f,
    parse file (String.ofList (unifyLineBreaks strayText.toList)) = .ok f ∧
      f.Same { messages := [{ name := "M" }] } := by
  refine parse_of_mem_fileText file ?_ rfl
  have hunit : "//a\n".toList ∈ unitText := lineComment_mem_unitText (by decide : '\n' ∉ ['a'])
  have hgap : "//a\n".toList ∈ gapText :=
    gapText_of_gap1Text (Language.append_mem_mul hunit nil_mem_gapText)
  have hmembers : [] ∈ gapText * mixedText fieldText enumText [] [] :=
    Language.append_mem_mul nil_mem_gapText ⟨[], rfl, rfl, Language.nil_mem_one⟩
  have hmessage : "message".toList ++ [' '] ++ ("M".toList ++ ' ' :: '\x7b' :: ([] ++ '\x7d' :: []))
      ∈ messageText { name := "M" } :=
    Language.append_mem_mul (Language.append_mem_mul (mem_word.mpr rfl) space_mem_gapText)
      (body_mem (by decide) hmembers nil_mem_gapText)
  have hdeclarations := le_mixedText_left messageText enumText _ hmessage
  have hend : [] ∈ 1 + openCommentText := .inl Language.nil_mem_one
  exact Language.append_mem_mul (Language.append_mem_mul hgap hdeclarations) hend

/-- **A stray carriage return makes a difference.**  The file declares a message, and the text with the
same bytes declares nothing. -/
theorem load_disagrees :
    (∃ f, (treeOf strayText).load atRoot "/m.proto" defaultEncoding = .ok f ∧
      f.messages.map Message.bare = [{ name := "M" }]) ∧
    (∃ g, parse memoryName strayText = .ok g ∧ g.messages = []) ∧
    ¬ SameOutcome ((treeOf strayText).load atRoot "/m.proto" defaultEncoding)
      (parse memoryName strayText) := by
  obtain ⟨g, hg, hsame⟩ := parse_strayText
  obtain ⟨f, hf, hsame'⟩ := parse_unified_strayText (Path.absolute ["m.proto"]).display
  have hload := load_parsed sourcePath_root (read_treeOf strayText) hf
  have hnone : g.messages = [] := List.map_eq_nil_iff.mp (congrArg SchemaFile.messages hsame)
  have hone : f.messages.map Message.bare = [{ name := "M" }] :=
    congrArg SchemaFile.messages hsame'
  refine ⟨⟨_, hload, hone⟩, ⟨g, hg, hnone⟩, ?_⟩
  rintro (⟨f', g', hf', hg', hmessages, -⟩ | ⟨⟨e, he⟩, -⟩)
  · cases hload.symm.trans hf'
    cases hg.symm.trans hg'
    rw [hnone] at hmessages
    cases hone.symm.trans hmessages
  · cases hload.symm.trans he

end MessageIdl.Files
