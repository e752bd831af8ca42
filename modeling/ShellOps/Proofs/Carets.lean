/-
# Where the caret stands

A diagnostic is shown as three lines: a heading, the row of the text that holds the offset, and a caret
that should stand under the byte there. The row comes after a margin with the number of its line. Numbers
are set to the right of five places, and a longer one takes as many as it has digits, while the caret
counts on five. So the caret stands under the byte on every line below line 100000, and from there on it
stands to the left of it by each digit past the fifth (`caret_under_byte_iff`, `caret_left_of_byte`).
-/
import Mathlib.Data.List.Basic
import ShellOps.Proofs.Locations

namespace ShellOps

/-- The byte that points. -/
def caret : UInt8 := 94

/-- The diagnostic is written in three lines. The second is a margin and then the row of the text that
holds the offset `e`, which starts at `start`; the byte at `e` stands there, or the line ends there if the
row does. The third line is `lead` and then its only caret. -/
structure Diagnostic.Shows (d : Diagnostic) (e start : Nat) (margin row lead : Bytes) : Prop where
  lines : ∃ heading, splitOnByte newline d.format = [heading, margin ++ row, lead ++ [caret], []]
  startsLine : StartsLine d.text e start
  row_eq : row = (d.text.drop start).takeWhile (· ≠ newline)
  reaches : e - start ≤ row.length
  byte : (margin ++ row)[margin.length + (e - start)]? = d.text[e]?.filter (· ≠ newline)
  lone : caret ∉ lead

/-! ### Decimal digits -/

theorem utf8EncodeChar_of_isDigit {c : Char} (hc : c.isDigit) :
    String.utf8EncodeChar c = [c.val.toUInt8] := by
  have hle : c.toNat ≤ '9'.toNat := (Char.isDigit_iff_toNat.1 hc).2
  apply String.utf8EncodeChar_eq_singleton
  rw [Char.utf8Size_eq_one_iff, UInt32.le_iff_toNat_le]
  exact Nat.le_trans hle (by decide)

/-- Each digit is one byte. -/
theorem decimal_eq_map (n : Nat) : decimal n = (Nat.toDigits 10 n).map fun c => c.val.toUInt8 := by
  have hdigits : (toString (n : Int)).toList = Nat.toDigits 10 n := by
    rw [Int.toString_eq_repr]
    exact Nat.toList_repr
  rw [decimal, utf8, hdigits, List.map_eq_flatMap]
  refine List.flatMap_congr fun c hc => utf8EncodeChar_of_isDigit ?_
  exact Nat.isDigit_of_mem_toDigits (by decide) (Nat.le_refl _) hc

theorem length_decimal_le_five_iff (n : Nat) : (decimal n).length ≤ 5 ↔ n < 100000 := by
  rw [decimal_eq_map, List.length_map]
  exact Nat.length_toDigits_le_iff (by decide) (by decide)

theorem newline_notMem_decimal (n : Nat) : newline ∉ decimal n := by
  rw [decimal_eq_map]
  intro hmem
  obtain ⟨c, hc, heq⟩ := List.mem_map.1 hmem
  obtain ⟨hge, hle⟩ := Char.isDigit_iff_toNat.1 (Nat.isDigit_of_mem_toDigits (by decide) (Nat.le_refl _) hc)
  have hten : c.toNat % 2 ^ 8 = 10 := (UInt32.toNat_toUInt8 c.val).symm.trans (congrArg UInt8.toNat heq)
  have hzero : '0'.toNat = 48 := rfl
  have hnine : '9'.toNat = 57 := rfl
  omega

/-! ### The three lines -/

theorem notMem_blanks {c : UInt8} (hc : c ≠ 32) (n : Nat) : c ∉ List.replicate n 32 := fun hmem =>
  hc (List.eq_of_mem_replicate hmem)

namespace Diagnostic

theorem length_gutter (n : Nat) : (gutter n).length = max 5 (decimal n).length := by
  rw [gutter, List.length_append, List.length_replicate]
  omega

theorem newline_notMem_gutter (n : Nat) : newline ∉ gutter n := by
  rw [gutter, List.mem_append, not_or]
  exact ⟨notMem_blanks (by decide) _, newline_notMem_decimal n⟩

/-- The lines that show a place and its row. -/
def linesAt (d : Diagnostic) (line column : Nat) (row : Bytes) : List Bytes :=
  [d.name ++ utf8 ":" ++ decimal line ++ utf8 ":" ++ decimal column ++ utf8 ": error: " ++ d.message,
    gutter line ++ utf8 " | " ++ row,
    utf8 "      | " ++ List.replicate (column - 1) 32 ++ [caret]]

theorem newline_notMem_linesAt {d : Diagnostic} (hname : newline ∉ d.name) (hmessage : newline ∉ d.message)
    (line column : Nat) {row : Bytes} (hrow : newline ∉ row) :
    ∀ shown ∈ d.linesAt line column row, newline ∉ shown := by
  have hcolon : newline ∉ utf8 ":" := by decide +kernel
  refine List.forall_mem_cons.2 ⟨?_, List.forall_mem_cons.2 ⟨?_, List.forall_mem_singleton.2 ?_⟩⟩ <;>
    simp only [List.mem_append, not_or]
  · exact ⟨⟨⟨⟨⟨⟨hname, hcolon⟩, newline_notMem_decimal _⟩, hcolon⟩, newline_notMem_decimal _⟩,
      by decide +kernel⟩, hmessage⟩
  · exact ⟨⟨newline_notMem_gutter _, by decide +kernel⟩, hrow⟩
  · exact ⟨⟨by decide +kernel, notMem_blanks (by decide) _⟩, by decide⟩

end Diagnostic

namespace CutAt

open Diagnostic

variable {d : Diagnostic} {rows : List Bytes} {head rest : Bytes}

theorem format_eq (h : CutAt d.text d.offset rows head rest) (htext : d.text ≠ [])
    (hlength : d.text.length < 2 ^ 32 - 1) : d.format =
      endRows (d.linesAt (rows.length + 1) (head.length + 1) (head ++ rest.takeWhile (· ≠ newline))) := by
  have hcaret : utf8 "^" = [caret] := rfl
  unfold format heading excerpt
  rw [if_neg htext, h.line hlength, h.column hlength, h.sourceLine hlength, (h.lineStart hlength).1, hcaret]
  simp [endRows, linesAt]

theorem splitOnByte_format (h : CutAt d.text d.offset rows head rest) (hname : newline ∉ d.name)
    (hmessage : newline ∉ d.message) (htext : d.text ≠ []) (hlength : d.text.length < 2 ^ 32 - 1) :
    splitOnByte newline d.format =
      d.linesAt (rows.length + 1) (head.length + 1) (head ++ rest.takeWhile (· ≠ newline)) ++ [[]] := by
  have hrow : newline ∉ head ++ rest.takeWhile (· ≠ newline) := by
    rw [List.mem_append, not_or]
    exact ⟨h.unended, fun hmem => by simpa using List.all_eq_true.1 List.all_takeWhile newline hmem⟩
  rw [h.format_eq htext hlength, ← List.append_nil (endRows _),
    splitOnByte_endRows (newline_notMem_linesAt hname hmessage _ _ hrow)]
  rfl

theorem shows (h : CutAt d.text d.offset rows head rest) (hname : newline ∉ d.name)
    (hmessage : newline ∉ d.message) (htext : d.text ≠ []) (hlength : d.text.length < 2 ^ 32 - 1) :
    d.Shows d.offset (endRows rows).length (gutter (rows.length + 1) ++ utf8 " | ")
      (head ++ rest.takeWhile (· ≠ newline)) (utf8 "      | " ++ List.replicate head.length 32) where
  lines := ⟨_, h.splitOnByte_format hname hmessage htext hlength⟩
  startsLine := h.startsLine
  row_eq := by rw [h.text_eq, List.drop_left, h.takeWhile_eq]
  reaches := by
    have hoffset := h.offset_eq
    rw [List.length_append]
    omega
  byte := by
    have hplace : d.offset - (endRows rows).length = head.length := by
      have hoffset := h.offset_eq
      omega
    have hbyte : d.text[d.offset]? = rest.head? := by
      rw [h.text_eq, h.offset_eq, ← List.append_assoc, ← List.length_append,
        List.getElem?_append_right (Nat.le_refl _), Nat.sub_self, List.head?_eq_getElem?]
    rw [hplace, hbyte, ← List.head?_takeWhile, List.head?_eq_getElem?, ← List.append_assoc,
      ← List.length_append, List.getElem?_append_right (Nat.le_refl _), Nat.sub_self]
  lone := by
    rw [List.mem_append, not_or]
    exact ⟨by decide +kernel, notMem_blanks (by decide) _⟩

end CutAt

/-- **The caret stands under the byte up to line 99999.** A diagnostic with a text, and without newlines in
its name and its message, is shown in three lines. Before the caret there are as many characters as before
the byte that it points at, less one for each digit of the number of the line past the fifth; so it stands
under that byte exactly on lines with a number below 100000. -/
theorem caret_under_byte_iff (d : Diagnostic) (hname : newline ∉ d.name) (hmessage : newline ∉ d.message)
    (htext : d.text ≠ []) (hlength : d.text.length < 2 ^ 32 - 1) (e : Nat)
    (he : e = min d.pos d.text.length) :
    ∃ start margin row lead, d.Shows e start margin row lead ∧
      lead.length + ((decimal d.line.toNat).length - 5) = margin.length + (e - start) ∧
      (lead.length = margin.length + (e - start) ↔ d.line.toNat < 100000) := by
  obtain rfl : e = d.offset := he
  obtain ⟨rows, head, rest, h⟩ := exists_cutAt d.offset_le
  have hoffset := h.offset_eq
  have hline := h.line hlength
  have hfive := length_decimal_le_five_iff (rows.length + 1)
  have hmargin : (Diagnostic.gutter (rows.length + 1) ++ utf8 " | ").length =
      max 5 (decimal (rows.length + 1 : Nat)).length + 3 := by
    rw [List.length_append, Diagnostic.length_gutter]
    rfl
  have hlead : (utf8 "      | " ++ List.replicate head.length 32).length = 8 + head.length := by
    rw [List.length_append, List.length_replicate]
    rfl
  refine ⟨_, _, _, _, h.shows hname hmessage htext hlength, ?_, ?_⟩
  · rw [hline, hmargin, hlead]
    omega
  · rw [hline, hmargin, hlead]
    omega

/-- A diagnostic at a name on the second line. -/
def atName : Diagnostic :=
  ⟨utf8 "script.sh", utf8 "ls\necho $nope\n", 8, utf8 "undefined variable $nope"⟩

theorem caret_under_byte_iff_atName :
    newline ∉ atName.name ∧ newline ∉ atName.message ∧ atName.text ≠ [] ∧
    atName.text.length < 2 ^ 32 - 1 ∧ 8 = min atName.pos atName.text.length ∧
    ∃ start margin row lead, atName.Shows 8 start margin row lead ∧
      lead.length = margin.length + (8 - start) := by
  have hname : newline ∉ atName.name := by decide +kernel
  have hmessage : newline ∉ atName.message := by decide +kernel
  have htext : atName.text ≠ [] := by decide +kernel
  have hlength : atName.text.length < 2 ^ 32 - 1 := by decide +kernel
  have hpos : 8 = min atName.pos atName.text.length := by decide +kernel
  obtain ⟨start, margin, row, lead, hshows, -, hunder⟩ :=
    caret_under_byte_iff atName hname hmessage htext hlength 8 hpos
  have hline : atName.line.toNat < 100000 := by decide +kernel
  exact ⟨hname, hmessage, htext, hlength, hpos, start, margin, row, lead, hshows, hunder.2 hline⟩

/-- A diagnostic at the `x` after some empty lines. -/
def afterEmptyLines (n : Nat) : Diagnostic :=
  ⟨utf8 "s", endRows (List.replicate n []) ++ utf8 "x", n, utf8 "m"⟩

theorem length_endRows_replicate_nil (n : Nat) : (endRows (List.replicate n [])).length = n := by
  rw [length_endRows, List.map_replicate, List.sum_replicate_nat]
  exact Nat.mul_one n

theorem length_text_afterEmptyLines (n : Nat) : (afterEmptyLines n).text.length = n + 1 := by
  rw [afterEmptyLines, List.length_append, length_endRows_replicate_nil]
  rfl

theorem offset_afterEmptyLines (n : Nat) : (afterEmptyLines n).offset = n := by
  rw [Diagnostic.offset, length_text_afterEmptyLines]
  exact Nat.min_eq_left (Nat.le_succ n)

theorem cutAt_afterEmptyLines (n : Nat) :
    CutAt (afterEmptyLines n).text (afterEmptyLines n).offset (List.replicate n []) [] (utf8 "x") where
  text_eq := rfl
  offset_eq := by
    rw [offset_afterEmptyLines, length_endRows_replicate_nil]
    rfl
  ended row hrow := by
    rw [List.eq_of_mem_replicate hrow]
    exact List.not_mem_nil
  unended := List.not_mem_nil

/-- On line 100000 there are nine characters before the `x` and eight before the caret. -/
theorem caret_left_of_byte :
    newline ∉ (afterEmptyLines 99999).name ∧ newline ∉ (afterEmptyLines 99999).message ∧
    (afterEmptyLines 99999).text ≠ [] ∧ (afterEmptyLines 99999).text.length < 2 ^ 32 - 1 ∧
    (afterEmptyLines 99999).text[min 99999 (afterEmptyLines 99999).text.length]? = some 120 ∧
    splitOnByte newline (afterEmptyLines 99999).format =
      [utf8 "s:100000:1: error: m", utf8 "100000 | x", utf8 "      | ^", []] ∧
    (utf8 "100000 | x").idxOf? 120 = some 9 ∧ (utf8 "      | ^").idxOf? caret = some 8 := by
  have hcut := cutAt_afterEmptyLines 99999
  have hname : newline ∉ utf8 "s" := by decide +kernel
  have hmessage : newline ∉ utf8 "m" := by decide +kernel
  have hlength := length_text_afterEmptyLines 99999
  have htext : (afterEmptyLines 99999).text ≠ [] := List.ne_nil_of_length_pos (by omega)
  have hlines := hcut.splitOnByte_format hname hmessage htext (by omega)
  rw [List.length_replicate] at hlines
  refine ⟨hname, hmessage, htext, by omega, ?_, hlines.trans (by decide +kernel), by decide +kernel,
    by decide +kernel⟩
  rw [hlength, afterEmptyLines, List.getElem?_append_right, length_endRows_replicate_nil]
  · rfl
  · exact Nat.le_of_eq (length_endRows_replicate_nil _)

end ShellOps
