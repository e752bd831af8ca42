/-
# Where a diagnostic points

A text is cut into lines at its newlines, and an offset into it is named by a line and a column, both
from one. Three parts of a diagnostic find the line on their own: the number of the line counts the
newlines before the offset, the column searches for the last of them, and the excerpt counts back from
the column. They agree at every offset, on a newline, just after one and at the end of the text too:
the line and the column lead back to the offset, and the line that is shown is the line of that number.

The argument takes a text apart once, at the offset (`CutAt`): whole rows with their newlines, the head
of the row that holds the offset, and the rest. Each of the three parts is then read off that.
-/
import Mathlib.Algebra.GroupWithZero.Nat
import ShellOps.Diagnostic

namespace ShellOps

/-- The offset at which the line with the given number starts: the lines before it are passed, each
with its newline. -/
def startOfLine (text : Bytes) (number : Nat) : Nat :=
  (((splitOnByte newline text).take (number - 1)).map fun row => row.length + 1).sum

/-- The line that holds the offset `e` starts at `start`: at the start of the text or just after a
newline, with no newline between there and `e`. -/
structure StartsLine (text : Bytes) (e start : Nat) : Prop where
  le : start ≤ e
  boundary : start = 0 ∨ text[start - 1]? = some newline
  unbroken : ∀ i, start ≤ i → i < e → text[i]? ≠ some newline

/-! ### Rows -/

/-- Some rows, each with the newline that ends it. -/
def endRows (rows : List Bytes) : Bytes := rows.flatMap (· ++ [newline])

theorem endRows_cons (row : Bytes) (rows : List Bytes) :
    endRows (row :: rows) = row ++ newline :: endRows rows := by
  simp [endRows]

theorem length_endRows : ∀ rows : List Bytes,
    (endRows rows).length = (rows.map fun row => row.length + 1).sum
  | [] => rfl
  | row :: rows => by
    rw [endRows_cons, List.length_append, List.length_cons, length_endRows rows, List.map_cons,
      List.sum_cons]
    omega

theorem count_endRows : ∀ {rows : List Bytes}, (∀ row ∈ rows, newline ∉ row) →
    (endRows rows).count newline = rows.length
  | [], _ => rfl
  | row :: rows, h => by
    obtain ⟨hrow, hrows⟩ := List.forall_mem_cons.1 h
    rw [endRows_cons, List.count_append, List.count_cons_self, count_endRows hrows,
      List.count_eq_zero_of_not_mem hrow, List.length_cons]
    omega

theorem splitOnByte_row {row : Bytes} (h : newline ∉ row) (rest : Bytes) :
    splitOnByte newline (row ++ newline :: rest) = row :: splitOnByte newline rest := by
  induction row with
  | nil => simp [splitOnByte]
  | cons c row ih =>
    obtain ⟨hc, hrow⟩ := not_or.1 (fun hmem => h (List.mem_cons.2 hmem))
    have hne : c ≠ newline := fun heq => hc heq.symm
    rw [List.cons_append, splitOnByte, if_neg hne, ih hrow]

theorem splitOnByte_endRows : ∀ {rows : List Bytes}, (∀ row ∈ rows, newline ∉ row) →
    ∀ rest : Bytes, splitOnByte newline (endRows rows ++ rest) = rows ++ splitOnByte newline rest
  | [], _, _ => rfl
  | row :: rows, h, rest => by
    obtain ⟨hrow, hrows⟩ := List.forall_mem_cons.1 h
    rw [endRows_cons, List.append_assoc, List.cons_append, splitOnByte_row hrow,
      splitOnByte_endRows hrows rest, List.cons_append]

/-- The first line of a text ends at its first newline. -/
theorem head?_splitOnByte : ∀ text : Bytes,
    (splitOnByte newline text)[0]? = some (text.takeWhile (· ≠ newline))
  | [] => rfl
  | c :: cs => by
    have ih := head?_splitOnByte cs
    unfold splitOnByte
    by_cases hc : c = newline
    · simp [hc]
    · rw [if_neg hc, List.takeWhile_cons, if_pos (decide_eq_true hc)]
      cases hrows : splitOnByte newline cs with
      | nil => exact absurd hrows (splitOnByte_ne_nil newline cs)
      | cons row rows =>
        rw [hrows] at ih
        obtain rfl : row = cs.takeWhile (· ≠ newline) := by simpa using ih
        rfl

/-- Any bytes are whole rows and then bytes without a newline. -/
theorem exists_rows : ∀ before : Bytes, ∃ rows head, before = endRows rows ++ head ∧
    (∀ row ∈ rows, newline ∉ row) ∧ newline ∉ head
  | [] => ⟨[], [], rfl, by simp, by simp⟩
  | c :: before => by
    obtain ⟨rows, head, rfl, hrows, hhead⟩ := exists_rows before
    by_cases hc : c = newline
    · refine ⟨[] :: rows, head, ?_, ?_, hhead⟩
      · simp [endRows_cons, hc]
      · exact List.forall_mem_cons.2 ⟨by simp, hrows⟩
    · have hne : newline ≠ c := fun heq => hc heq.symm
      cases rows with
      | nil => exact ⟨[], c :: head, rfl, hrows, by simp [hne, hhead]⟩
      | cons row rows =>
        obtain ⟨hrow, hrest⟩ := List.forall_mem_cons.1 hrows
        refine ⟨(c :: row) :: rows, head, by simp [endRows_cons], ?_, hhead⟩
        exact List.forall_mem_cons.2 ⟨by simp [hne, hrow], hrest⟩

/-! ### The place of an offset -/

/-- The offset `e` of a text comes after some whole rows and the head of another row. -/
structure CutAt (text : Bytes) (e : Nat) (rows : List Bytes) (head rest : Bytes) : Prop where
  text_eq : text = endRows rows ++ (head ++ rest)
  offset_eq : e = (endRows rows).length + head.length
  ended : ∀ row ∈ rows, newline ∉ row
  unended : newline ∉ head

theorem exists_cutAt {text : Bytes} {e : Nat} (he : e ≤ text.length) :
    ∃ rows head rest, CutAt text e rows head rest := by
  obtain ⟨rows, head, hbefore, hrows, hhead⟩ := exists_rows (text.take e)
  refine ⟨rows, head, text.drop e, ?_, ?_, hrows, hhead⟩
  · rw [← List.append_assoc, ← hbefore, List.take_append_drop]
  · have hlength := congrArg List.length hbefore
    rw [List.length_take, List.length_append] at hlength
    omega

namespace CutAt

variable {text : Bytes} {e : Nat} {rows : List Bytes} {head rest : Bytes}

theorem take_eq (h : CutAt text e rows head rest) : text.take e = endRows rows ++ head := by
  rw [h.text_eq, h.offset_eq, ← List.append_assoc, ← List.length_append, List.take_left]

theorem count_eq (h : CutAt text e rows head rest) : (text.take e).count newline = rows.length := by
  rw [h.take_eq, List.count_append, count_endRows h.ended, List.count_eq_zero_of_not_mem h.unended]
  omega

theorem takeWhile_eq (h : CutAt text e rows head rest) :
    (head ++ rest).takeWhile (· ≠ newline) = head ++ rest.takeWhile (· ≠ newline) := by
  apply List.takeWhile_append_of_pos
  intro c hc
  exact decide_eq_true fun heq => h.unended (heq ▸ hc)

/-- The row that holds the offset goes on to the next newline. -/
theorem row (h : CutAt text e rows head rest) :
    (splitOnByte newline text)[rows.length]? = some (head ++ rest.takeWhile (· ≠ newline)) := by
  rw [h.text_eq, splitOnByte_endRows h.ended, List.getElem?_append_right (Nat.le_refl _), Nat.sub_self,
    head?_splitOnByte, h.takeWhile_eq]

theorem startOfLine_eq (h : CutAt text e rows head rest) :
    startOfLine text (rows.length + 1) = (endRows rows).length := by
  unfold startOfLine
  rw [h.text_eq, splitOnByte_endRows h.ended, Nat.add_sub_cancel, List.take_left, length_endRows]

theorem startsLine (h : CutAt text e rows head rest) :
    StartsLine text e (endRows rows).length where
  le := by
    have := h.offset_eq
    omega
  boundary := by
    rcases List.eq_nil_or_concat rows with rfl | ⟨rows, row, rfl⟩
    · exact .inl rfl
    · right
      have hlast : endRows (rows.concat row) = (endRows rows ++ row) ++ [newline] := by
        simp [endRows]
      rw [h.text_eq, hlast, List.length_append, List.length_singleton, Nat.add_sub_cancel,
        List.append_assoc _ [newline], List.getElem?_append_right (Nat.le_refl _), Nat.sub_self]
      rfl
  unbroken := by
    intro i hstart hi hnewline
    have hoffset := h.offset_eq
    rw [h.text_eq, List.getElem?_append_right hstart, List.getElem?_append_left (by omega)] at hnewline
    exact h.unended (List.mem_of_getElem? hnewline)

end CutAt

/-! ### Diagnostics -/

namespace CutAt

variable {d : Diagnostic} {rows : List Bytes} {head rest : Bytes}

theorem offset_lt (h : CutAt d.text d.offset rows head rest) (htext : d.text.length < 2 ^ 32 - 1) :
    rows.length + 1 < 2 ^ 32 ∧ head.length + 1 < 2 ^ 32 := by
  have hle := d.offset_le
  have hoffset := h.offset_eq
  have hrows : rows.length ≤ (endRows rows).length := by
    rw [← count_endRows h.ended]
    exact List.count_le_length
  omega

theorem line (h : CutAt d.text d.offset rows head rest) (htext : d.text.length < 2 ^ 32 - 1) :
    d.line.toNat = rows.length + 1 := by
  have hrows := (h.offset_lt htext).1
  have hcount : d.before.count newline = rows.length := h.count_eq
  unfold Diagnostic.line
  rw [hcount, UInt32.toNat_add, UInt32.toNat_ofNat_of_lt' (by rw [UInt32.size]; omega)]
  exact Nat.mod_eq_of_lt hrows

/-- The search from the offset back passes the head of the row. -/
theorem lastNewline? (h : CutAt d.text d.offset rows head rest) :
    d.lastNewline? = if rows = [] then none else some ((endRows rows).length - 1) := by
  have hbefore : d.before = endRows rows ++ head := h.take_eq
  have hoffset := h.offset_eq
  have hhead : head.reverse.idxOf? newline = none := by
    rw [List.idxOf?_eq_none_iff, List.mem_reverse]
    exact h.unended
  unfold Diagnostic.lastNewline?
  rcases List.eq_nil_or_concat rows with rfl | ⟨rows, row, rfl⟩
  · rw [hbefore, if_pos rfl]
    simpa [endRows] using hhead
  · have hlast : (endRows (rows.concat row)).reverse = newline :: (endRows rows ++ row).reverse := by
      simp [endRows]
    have hlength : (endRows (rows.concat row)).length = (endRows rows ++ row).length + 1 := by
      rw [← List.length_reverse, hlast, List.length_cons, List.length_reverse]
    have hsearch : d.before.reverse.idxOf? newline = some head.length := by
      unfold List.idxOf? at hhead ⊢
      rw [hbefore, List.reverse_append, List.findIdx?_append, hhead, hlast, Option.none_or,
        List.findIdx?_cons]
      simp
    rw [hsearch, if_neg (by simp), Option.map_some]
    congr 1
    omega

/-- The column counts the head of the row. -/
theorem column (h : CutAt d.text d.offset rows head rest) (htext : d.text.length < 2 ^ 32 - 1) :
    d.column.toNat = head.length + 1 := by
  have hhead := (h.offset_lt htext).2
  have hoffset := h.offset_eq
  unfold Diagnostic.column
  rw [h.lastNewline?]
  by_cases hrows : rows = []
  · have hzero : (endRows rows).length = 0 := by rw [hrows]; rfl
    rw [if_pos hrows]
    show (UInt32.ofNat d.offset + 1).toNat = head.length + 1
    rw [hoffset, hzero, Nat.zero_add, UInt32.toNat_add,
      UInt32.toNat_ofNat_of_lt' (by rw [UInt32.size]; omega)]
    exact Nat.mod_eq_of_lt hhead
  · have hpos : 0 < (endRows rows).length := by
      have hcount := count_endRows h.ended
      have hle : (endRows rows).count newline ≤ (endRows rows).length := List.count_le_length
      have := List.length_pos_iff.2 hrows
      omega
    rw [if_neg hrows]
    show (UInt32.ofNat (d.offset - ((endRows rows).length - 1))).toNat = head.length + 1
    have hdistance : d.offset - ((endRows rows).length - 1) = head.length + 1 := by omega
    rw [hdistance, UInt32.toNat_ofNat_of_lt' (by rw [UInt32.size]; omega)]

theorem lineStart (h : CutAt d.text d.offset rows head rest) (htext : d.text.length < 2 ^ 32 - 1) :
    (d.column - 1).toNat = head.length ∧ d.lineStart = (endRows rows).length := by
  have hcolumn := h.column htext
  have hoffset := h.offset_eq
  have hone : (1 : UInt32) ≤ d.column := by
    rw [UInt32.le_iff_toNat_le, hcolumn]
    exact Nat.le_add_left _ _
  have hback : (d.column - 1).toNat = head.length := by
    rw [UInt32.toNat_sub_of_le _ _ hone, hcolumn]
    rfl
  refine ⟨hback, ?_⟩
  unfold Diagnostic.lineStart
  omega

theorem sourceLine (h : CutAt d.text d.offset rows head rest) (htext : d.text.length < 2 ^ 32 - 1) :
    d.sourceLine = head ++ rest.takeWhile (· ≠ newline) := by
  have hdrop : d.text.drop (endRows rows).length = head ++ rest := by rw [h.text_eq, List.drop_left]
  unfold Diagnostic.sourceLine
  rw [(h.lineStart htext).2, hdrop, h.takeWhile_eq]

end CutAt

namespace Diagnostic

/-- The same diagnostic at another place of its text. -/
def movedTo (d : Diagnostic) (e : Nat) : Diagnostic := { d with pos := e }

/-- The place of `d` comes before that of `d'`, by line and then by column. -/
def Precedes (d d' : Diagnostic) : Prop :=
  d.line < d'.line ∨ d.line = d'.line ∧ d.column < d'.column

theorem offset_movedTo {d : Diagnostic} {e : Nat} (he : e ≤ d.text.length) : (d.movedTo e).offset = e :=
  Nat.min_eq_left he

/-- Line and column lead back to the offset. -/
theorem startOfLine_movedTo (d : Diagnostic) (htext : d.text.length < 2 ^ 32 - 1) {e : Nat}
    (he : e ≤ d.text.length) :
    startOfLine d.text (d.movedTo e).line.toNat + (d.movedTo e).column.toNat = e + 1 := by
  obtain ⟨rows, head, rest, h⟩ := exists_cutAt (d.movedTo e).offset_le
  have hstart : startOfLine d.text (rows.length + 1) = (endRows rows).length := h.startOfLine_eq
  have hoffset := h.offset_eq
  rw [offset_movedTo he] at hoffset
  rw [h.line htext, h.column htext, hstart]
  omega

/-- A later offset is on the same line or a later one. -/
theorem line_mono (d : Diagnostic) (htext : d.text.length < 2 ^ 32 - 1) {e e' : Nat} (hle : e ≤ e')
    (he' : e' ≤ d.text.length) : (d.movedTo e).line.toNat ≤ (d.movedTo e').line.toNat := by
  have he : e ≤ d.text.length := Nat.le_trans hle he'
  obtain ⟨rows, head, rest, h⟩ := exists_cutAt (d.movedTo e).offset_le
  obtain ⟨rows', head', rest', h'⟩ := exists_cutAt (d.movedTo e').offset_le
  rw [h.line htext, h'.line htext, ← h.count_eq, ← h'.count_eq, offset_movedTo he, offset_movedTo he']
  have hsub : List.Sublist (d.text.take e) (d.text.take e') := (List.take_prefix_take_left hle).sublist
  exact Nat.add_le_add_right (hsub.count_le newline) 1

/-- **Places are ordered as offsets are.** -/
theorem lt_iff_precedes (d : Diagnostic) (htext : d.text.length < 2 ^ 32 - 1) {e e' : Nat}
    (he : e ≤ d.text.length) (he' : e' ≤ d.text.length) :
    e < e' ↔ (d.movedTo e).Precedes (d.movedTo e') := by
  have hback := d.startOfLine_movedTo htext he
  have hback' := d.startOfLine_movedTo htext he'
  unfold Precedes
  rw [UInt32.lt_iff_toNat_lt, UInt32.lt_iff_toNat_lt, ← UInt32.toNat_inj]
  constructor
  · intro hlt
    have hmono := d.line_mono htext (Nat.le_of_lt hlt) he'
    by_cases hline : (d.movedTo e).line.toNat = (d.movedTo e').line.toNat
    · rw [hline] at hback
      exact .inr ⟨hline, by omega⟩
    · exact .inl (by omega)
  · intro hprecedes
    rcases Nat.lt_or_ge e e' with hlt | hge
    · exact hlt
    · have hmono := d.line_mono htext hge he
      rcases hprecedes with hline | ⟨hline, hcolumn⟩
      · omega
      · rw [hline] at hback
        omega

end Diagnostic

/-- **Places are exact.** In a text whose lines and columns fit into 32 bits, a diagnostic at any offset,
which counts as the end of the text if it is past it, has the line that the newlines before it tell and
the column that its distance from the start of the line tells. Start of the line and column give the
offset back, so places are ordered as offsets are. The line that is shown is the line of that number, and
cutting it out of the text goes neither before its start nor past its end. -/
theorem locations_exact (d : Diagnostic) (htext : d.text.length < 2 ^ 32 - 1) (e : Nat)
    (he : e = min d.pos d.text.length) :
    d.line.toNat = (d.text.take e).count newline + 1 ∧
    (∃ start, StartsLine d.text e start ∧ d.column.toNat = e - start + 1) ∧
    startOfLine d.text d.line.toNat + (d.column.toNat - 1) = e ∧
    (∀ e₁ e₂, e₁ ≤ d.text.length → e₂ ≤ d.text.length →
      (e₁ < e₂ ↔ (d.movedTo e₁).Precedes (d.movedTo e₂))) ∧
    (d.text ≠ [] → ∃ row, (splitOnByte newline d.text)[d.line.toNat - 1]? = some row ∧
      newline ∉ row ∧ d.column.toNat - 1 ≤ row.length ∧
      d.format = d.heading ++ (Diagnostic.gutter d.line.toNat ++ utf8 " | " ++ row ++ [newline] ++
        utf8 "      | " ++ List.replicate (d.column.toNat - 1) 32 ++ utf8 "^" ++ [newline]) ∧
      (d.column - 1).toNat ≤ e ∧ d.lineStart = startOfLine d.text d.line.toNat ∧
      d.lineStart + row.length ≤ d.text.length) := by
  obtain rfl : e = d.offset := he
  obtain ⟨rows, head, rest, h⟩ := exists_cutAt d.offset_le
  have hoffset := h.offset_eq
  have hline := h.line htext
  have hcolumn := h.column htext
  have hback := (h.lineStart htext).1
  have hstart := (h.lineStart htext).2
  refine ⟨?_, ⟨(endRows rows).length, h.startsLine, by omega⟩, ?_,
    fun e₁ e₂ he₁ he₂ => d.lt_iff_precedes htext he₁ he₂, fun hne => ?_⟩
  · rw [hline, h.count_eq]
  · rw [hline, h.startOfLine_eq]
    omega
  · have hlength := congrArg List.length h.text_eq
    simp only [List.length_append] at hlength
    have hshown : (rest.takeWhile (· ≠ newline)).length ≤ rest.length := (List.takeWhile_prefix _).length_le
    refine ⟨head ++ rest.takeWhile (· ≠ newline), ?_, ?_, ?_, ?_, by omega, ?_, ?_⟩
    · rw [hline]
      exact h.row
    · intro hmem
      rcases List.mem_append.1 hmem with hhead | hrest
      · exact h.unended hhead
      · simpa using List.all_eq_true.1 List.all_takeWhile newline hrest
    · rw [hcolumn, List.length_append]
      omega
    · unfold Diagnostic.format Diagnostic.excerpt
      rw [if_neg hne, h.sourceLine htext, hback, hcolumn, Nat.add_sub_cancel]
    · rw [hstart, hline, h.startOfLine_eq]
    · rw [hstart, List.length_append]
      omega

/-- A diagnostic at the newline of an empty line. -/
def atEmptyLine : Diagnostic := ⟨utf8 "run.sh", utf8 "ab\n\ncd", 3, utf8 "stray"⟩

theorem locations_exact_emptyLine :
    atEmptyLine.text.length < 2 ^ 32 - 1 ∧ atEmptyLine.line.toNat = 2 ∧ atEmptyLine.column.toNat = 1 ∧
    (atEmptyLine.movedTo 2).Precedes atEmptyLine ∧
    (splitOnByte newline atEmptyLine.text)[1]? = some [] ∧ atEmptyLine.format = atEmptyLine.heading ++
      (Diagnostic.gutter 2 ++ utf8 " | " ++ [newline] ++ utf8 "      | " ++ utf8 "^" ++ [newline]) := by
  have htext : atEmptyLine.text.length < 2 ^ 32 - 1 := by decide +kernel
  have hcount : (atEmptyLine.text.take 3).count newline = 1 := by decide +kernel
  have hstart : startOfLine atEmptyLine.text 2 = 3 := by decide +kernel
  have hempty : (splitOnByte newline atEmptyLine.text)[1]? = some [] := by decide +kernel
  obtain ⟨hline, ⟨start, -, hcolumn⟩, hback, horder, hshown⟩ :=
    locations_exact atEmptyLine htext 3 (by decide +kernel)
  obtain ⟨row, hrow, -, -, hformat, -⟩ := hshown (by decide +kernel)
  have hline : atEmptyLine.line.toNat = 2 := by rw [hline, hcount]
  rw [hline, hstart] at hback
  have hcolumn : atEmptyLine.column.toNat = 1 := by omega
  have hprecedes := (horder 2 3 (by decide +kernel) (by decide +kernel)).1 (by decide)
  rw [hline, hempty] at hrow
  obtain rfl : [] = row := Option.some.inj hrow
  rw [hline, hcolumn] at hformat
  refine ⟨htext, hline, hcolumn, hprecedes, hempty, ?_⟩
  simpa using hformat

end ShellOps
