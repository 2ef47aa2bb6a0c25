/-
# What reading and writing documents comes to

Lines are read and written by way of JSON text, and how deep a text nests is asked of its brackets
before it is read.  Of all that, the rest of the theory needs no more than `Lawful`: what is written is
read back, the brackets of what is read nest as deep as it does, and what is written is neither blank
nor broken by a control character.

That this reader, this writer and this count are lawful (`lawful`) takes following texts character by
character, which is done for the reader in `Nesting` and for the writer in `Printed`.  Whoever reads or
writes documents cites `lawful` and what is derived from the laws here, and nothing else of either.  So
a change to the grammar of numbers, say, or to what a string has escaped, ends at this module.
-/
import DictLog.Proofs.Nesting
import DictLog.Proofs.Printed

namespace DictLog.Json

/-! ## 1. The laws -/

/-- **What the rest relies on.**  The laws of a reader of documents, of a parser that merges repeated
keys, of a writer, and of a count of brackets, as far as they have to do with each other.

The writer is held to what is read and not to a grammar, and neither is the count: that compact text
nests as deep as its value is no law of its own, but follows from its being read back. -/
structure Lawful (document : List Char → Except SyntaxFault Json)
    (parse : String → Except SyntaxFault Json) (compact : Json → List Char)
    (bracketDepth : List Char → Nat) : Prop where
  /-- To parse a text is to read it as it stands and to merge repeated keys. -/
  parse_eq : ∀ text, parse text = (document text.toList).map merge
  /-- A text that was written is read back, with blanks behind it or without. -/
  document_compact : ∀ (v : Json) (rest : List Char), (∀ c ∈ rest, c ∈ [' ', '\t', '\n', '\r']) →
    document (compact v ++ rest) = .ok v
  /-- What is read nests, before keys are merged, as deep as the brackets of its text. -/
  depth_document : ∀ (text : List Char) (v : Json), document text = .ok v →
    v.depth = bracketDepth text
  /-- What is written has no control characters, whatever its strings hold. -/
  printable_compact : ∀ (v : Json), ∀ c ∈ compact v, Printable c
  /-- What is written is something to be seen. -/
  visible_compact : ∀ v : Json, Text.isBlankText (compact v) = false

/-- This reader, this writer and this count of brackets obey the laws.  Another library would have to
be shown to do so here, and nowhere else. -/
theorem lawful : Lawful document parse compact bracketDepth where
  parse_eq _ := rfl
  document_compact v rest hrest := by
    refine document_compact v fun c hc => ?_
    have hblank := hrest c hc
    simp only [List.mem_cons, List.not_mem_nil, or_false] at hblank
    rcases hblank with rfl | rfl | rfl | rfl <;> rfl
  depth_document _ _ := depth_document
  printable_compact := printable_compact
  visible_compact v := by
    obtain ⟨c, tail, hcompact, hc, -⟩ := opens_compact v
    simp [hcompact, Text.isBlankText, hc]

/-! ## 2. What follows from them -/

namespace Lawful

variable {document : List Char → Except SyntaxFault Json} {parse : String → Except SyntaxFault Json}
  {compact : Json → List Char} {bracketDepth : List Char → Nat} {text : String} {v : Json}
  {rest : List Char}

/-- A text is parsed by reading it as it stands and merging repeated keys. -/
theorem parse_eq_ok (h : Lawful document parse compact bracketDepth) :
    parse text = .ok v ↔ ∃ tree, document text.toList = .ok tree ∧ tree.merge = v := by
  rw [h.parse_eq]
  cases document text.toList <;> simp [Except.map]

/-- What is parsed repeats no key. -/
theorem distinct_of_parse (h : Lawful document parse compact bracketDepth)
    (hparse : parse text = .ok v) : v.Distinct := by
  obtain ⟨tree, -, rfl⟩ := h.parse_eq_ok.mp hparse
  exact distinct_merge tree

/-- What is parsed nests no deeper than the brackets of its text.  It may nest less deep, since merging
repeated keys leaves values out. -/
theorem depth_le_of_parse (h : Lawful document parse compact bracketDepth)
    (hparse : parse text = .ok v) : v.depth ≤ bracketDepth text.toList := by
  obtain ⟨tree, htree, rfl⟩ := h.parse_eq_ok.mp hparse
  exact (depth_merge tree).trans (Nat.le_of_eq (h.depth_document _ _ htree))

/-- A compact text nests as deep as its value: it is read back, and what is read nests as deep as its
brackets. -/
theorem bracketDepth_compact (h : Lawful document parse compact bracketDepth) (v : Json)
    (hrest : ∀ c ∈ rest, c ∈ [' ', '\t', '\n', '\r']) : bracketDepth (compact v ++ rest) = v.depth :=
  (h.depth_document _ v (h.document_compact v rest hrest)).symm

/-- What a compact text says is its value, repeated keys merged. -/
theorem parse_compact (h : Lawful document parse compact bracketDepth) (v : Json)
    (hrest : ∀ c ∈ rest, c ∈ [' ', '\t', '\n', '\r']) :
    parse (String.ofList (compact v ++ rest)) = .ok v.merge :=
  h.parse_eq_ok.mpr ⟨v, by rw [String.toList_ofList, h.document_compact v rest hrest], rfl⟩

/-- A compact text is one line. -/
theorem feed_not_mem_compact (h : Lawful document parse compact bracketDepth) (v : Json) :
    '\n' ∉ compact v :=
  fun hfeed => absurd (h.printable_compact v _ hfeed) (by decide)

end Lawful

end DictLog.Json
