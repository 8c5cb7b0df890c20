/-
The lines of a text, and texts that are made of pieces. A line ends with a line feed
or with a carriage return, since the target language ends its comments at either. A
line is a comment if nothing but blanks comes before a semicolon.

A text without its comments (`deleteComments`) is the one that is made of the pieces
other than comments, if each of these is one line and no comment, and if the pieces
that are comments have no other lines (`deleteComments_join`). They can: what comes
after the end of a line is no longer part of the comment that it interrupts.
-/
import LiftedCode.Text.Numeral

namespace LiftedCode

/-- Whether a line ends with the character. -/
def endsLine (c : Char) : Bool := c == '\n' || c == '\r'

/-- The lines of a text, each with the character that it ends with. -/
def lines : List Char → List (List Char)
  | [] => []
  | c :: cs =>
    if endsLine c then [c] :: lines cs
    else
      match lines cs with
      | [] => [[c]]
      | l :: ls => (c :: l) :: ls

/-- Whether nothing but blanks comes before a semicolon. -/
def isCommentLine (l : List Char) : Bool :=
  (l.dropWhile fun c => c == ' ' || c == '\t').head? == some ';'

/-- The lines that are no comments, put together again. -/
def uncommented (cs : List Char) : List Char := ((lines cs).filter (!isCommentLine ·)).flatten

/-- The text without the lines that are comments. -/
def deleteComments (s : String) : String := String.ofList (uncommented s.toList)

variable {cs ds : List Char} {c : Char}

-- ================================================================= lines

/-- A line ends with its first break. -/
theorem lines_cons_of_endsLine (hc : endsLine c = true) : lines (c :: cs) = [c] :: lines cs := by
  rw [lines, if_pos hc]

/-- The lines of a text make up the text. -/
theorem flatten_lines (cs : List Char) : (lines cs).flatten = cs := by
  induction cs with
  | nil => rfl
  | cons c cs ih =>
      rw [lines]
      split
      · rw [List.flatten_cons, ih]
        rfl
      · cases hl : lines cs with
        | nil =>
            rw [hl] at ih
            rw [← ih]
            rfl
        | cons l ls =>
            rw [hl, List.flatten_cons] at ih
            rw [← ih]
            rfl

theorem ne_nil_of_mem_lines {l : List Char} (h : l ∈ lines cs) : l ≠ [] := by
  induction cs generalizing l with
  | nil => exact absurd h List.not_mem_nil
  | cons c cs ih =>
      rw [lines] at h
      split at h
      · rcases List.mem_cons.1 h with rfl | h
        · nofun
        · exact ih h
      · split at h
        case h_1 =>
          obtain rfl := List.mem_singleton.1 h
          nofun
        case h_2 l' ls hl =>
          rcases List.mem_cons.1 h with rfl | h
          · nofun
          · exact ih (hl ▸ List.mem_cons_of_mem l' h)

/-- What comes after the end of a line has lines of its own. -/
theorem lines_append_cons (hc : endsLine c = true) :
    lines (cs ++ c :: ds) = lines (cs ++ [c]) ++ lines ds := by
  induction cs with
  | nil => rw [List.nil_append, List.nil_append, lines_cons_of_endsLine hc,
      lines_cons_of_endsLine hc, lines]; rfl
  | cons b cs ih =>
      rw [List.cons_append, List.cons_append, lines, lines, ih]
      split
      · rfl
      · -- the line that goes on has at least the character that ends it
        cases hl : lines (cs ++ [c]) with
        | nil =>
            have hflat := flatten_lines (cs ++ [c])
            rw [hl] at hflat
            exact absurd hflat.symm (by simp)
        | cons l ls => rfl

/-- The text ends where a line does. -/
def Ended (cs : List Char) : Prop := ∃ init c, endsLine c = true ∧ cs = init ++ [c]

/-- The lines of two texts, the first of which ends its last line. -/
theorem lines_append (h : Ended cs) : lines (cs ++ ds) = lines cs ++ lines ds := by
  obtain ⟨init, c, hc, rfl⟩ := h
  rw [List.append_assoc, List.singleton_append]
  exact lines_append_cons hc

/-- A text in which no line ends before its end is one line. -/
theorem lines_of_forall (h : ∀ b ∈ cs, endsLine b = false) (hc : endsLine c = true) :
    lines (cs ++ [c]) = [cs ++ [c]] := by
  induction cs with
  | nil => exact lines_cons_of_endsLine hc
  | cons b cs ih =>
      obtain ⟨hb, hcs⟩ := List.forall_mem_cons.1 h
      rw [List.cons_append, lines, if_neg (by rw [hb]; decide), ih hcs]

-- ============================================================ unbroken texts

/-- No line ends in the text. -/
def Unbroken (s : String) : Prop := ∀ c ∈ s.toList, endsLine c = false

instance (s : String) : Decidable (Unbroken s) :=
  List.decidableBAll (fun c => endsLine c = false) s.toList

namespace Unbroken

variable {s t : String}

/-- A text is without breaks exactly if its parts are. -/
@[simp] theorem append_iff : Unbroken (s ++ t) ↔ Unbroken s ∧ Unbroken t := by
  rw [Unbroken, String.toList_append, List.forall_mem_append]
  rfl

theorem join {l : List String} (h : ∀ s ∈ l, Unbroken s) : Unbroken (String.join l) := by
  intro c hc
  rw [String.toList_join] at hc
  obtain ⟨s, hs, hc⟩ := List.mem_flatMap.1 hc
  exact h s hs c hc

theorem intercalate (hs : Unbroken s) {l : List String} (h : ∀ t ∈ l, Unbroken t) :
    Unbroken (s.intercalate l) := by
  induction l with
  | nil => exact fun c hc => absurd hc List.not_mem_nil
  | cons t l ih =>
      obtain ⟨ht, hl⟩ := List.forall_mem_cons.1 h
      cases l with
      | nil => exact ht
      | cons u l =>
          rw [String.intercalate_cons_cons]
          exact append_iff.2 ⟨append_iff.2 ⟨ht, hs⟩, ih hl⟩

theorem commaSeparated {l : List String} (h : ∀ t ∈ l, Unbroken t) :
    Unbroken (commaSeparated l) := intercalate (by decide) h

theorem blankSeparated {l : List String} (h : ∀ t ∈ l, Unbroken t) :
    Unbroken (blankSeparated l) := intercalate (by decide) h

end Unbroken

theorem endsLine_digitChar (n : Nat) : endsLine (Nat.digitChar n) = false := by
  by_cases h : n < 16
  · exact (by decide : ∀ m < 16, endsLine (Nat.digitChar m) = false) n h
  · have hchar : Nat.digitChar n = '*' := by
      unfold Nat.digitChar
      repeat rw [if_neg (by omega)]
    rw [hchar]
    decide

/-- Numerals are unbroken. -/
theorem endsLine_of_mem_toDigits {base n : Nat} (hbase : 1 < base) (hc : c ∈ Nat.toDigits base n) :
    endsLine c = false := by
  induction n using Nat.strongRecOn with
  | ind n ih =>
      by_cases hn : n < base
      · rw [Nat.toDigits_of_lt_base hn] at hc
        obtain rfl := List.mem_singleton.1 hc
        exact endsLine_digitChar n
      · rw [Nat.toDigits_of_base_le hbase (Nat.le_of_not_lt hn)] at hc
        rcases List.mem_append.1 hc with hc | hc
        · exact ih _ (Nat.div_lt_self (by omega) hbase) hc
        · obtain rfl := List.mem_singleton.1 hc
          exact endsLine_digitChar _

/-- No numeral has a line break. -/
theorem unbroken_digits (base : Nat) (hbase : 1 < base) (n : Nat) :
    Unbroken (Numeral.digits base n) := by
  intro c hc
  rw [Numeral.digits, String.toList_ofList] at hc
  exact endsLine_of_mem_toDigits hbase hc

@[simp] theorem unbroken_toString (n : Nat) : Unbroken (toString n) := by
  intro c hc
  rw [Nat.toString_eq_repr, Nat.toList_repr] at hc
  exact endsLine_of_mem_toDigits (by decide) hc

-- ================================================================= pieces

/-- A part of a text that ends a line, and that may be meant as a comment. -/
structure Piece where
  isComment : Bool
  /-- The text without the end of its line. -/
  body : String

namespace Piece

/-- The text of a piece, with the break that ends it. -/
def text (p : Piece) : String := p.body ++ "\n"

/-- Whether the piece is one line, and no comment. -/
structure IsLine (p : Piece) : Prop where
  one : lines p.text.toList = [p.text.toList]
  code : isCommentLine p.text.toList = false

/-- Whether all lines of the piece are comments. -/
def Confined (p : Piece) : Prop := ∀ l ∈ lines p.text.toList, isCommentLine l = true

/-- The text that the pieces make. -/
def join (ps : List Piece) : String := String.join (ps.map text)

variable {p : Piece}

theorem toList_text : p.text.toList = p.body.toList ++ ['\n'] := String.toList_append

/-- A piece without breaks in it is one line. -/
theorem lines_text (h : Unbroken p.body) : lines p.text.toList = [p.text.toList] := by
  rw [toList_text]
  exact lines_of_forall h rfl

/-- A piece ends its last line. -/
theorem ended_text (p : Piece) : Ended p.text.toList := ⟨p.body.toList, '\n', rfl, toList_text⟩

theorem toList_join (ps : List Piece) : (join ps).toList = ps.flatMap (·.text.toList) := by
  rw [join, String.toList_join, List.flatMap_map]

/-- A line of code is kept when comments are deleted. -/
theorem IsLine.uncommented (h : p.IsLine) : uncommented p.text.toList = p.text.toList := by
  rw [LiftedCode.uncommented, h.one, List.filter_cons, h.code]
  simp

/-- Nothing is left of a piece whose lines are comments. -/
theorem uncommented_eq_nil : uncommented p.text.toList = [] ↔ p.Confined := by
  rw [LiftedCode.uncommented, List.flatten_eq_nil_iff]
  constructor
  · intro h l hl
    cases hcode : isCommentLine l with
    | true => rfl
    | false =>
        have hmem : l ∈ (lines p.text.toList).filter (!isCommentLine ·) :=
          List.mem_filter.2 ⟨hl, by rw [hcode]; rfl⟩
        exact absurd (h l hmem) (ne_nil_of_mem_lines hl)
  · intro h l hl
    obtain ⟨hl, hcode⟩ := List.mem_filter.1 hl
    rw [h l hl] at hcode
    contradiction

variable {ps : List Piece}

/-- Comments are deleted piece by piece. -/
theorem uncommented_flatMap (ps : List Piece) :
    uncommented (ps.flatMap (·.text.toList))
      = ps.flatMap fun p => LiftedCode.uncommented p.text.toList := by
  induction ps with
  | nil => rfl
  | cons p ps ih =>
      rw [List.flatMap_cons, List.flatMap_cons, ← ih]
      unfold LiftedCode.uncommented
      rw [lines_append p.ended_text, List.filter_append, List.flatten_append]

/-- What is left of the pieces is the other pieces, and what is left of comments. -/
theorem length_uncommented (h : ∀ p ∈ ps, p.isComment = false → p.IsLine) :
    (ps.flatMap fun p => LiftedCode.uncommented p.text.toList).length
      = ((ps.filter (!·.isComment)).flatMap (·.text.toList)).length
        + ((ps.filter (·.isComment)).flatMap
            fun p => LiftedCode.uncommented p.text.toList).length := by
  induction ps with
  | nil => rfl
  | cons p ps ih =>
      obtain ⟨hp, hps⟩ := List.forall_mem_cons.1 h
      rw [List.flatMap_cons, List.length_append, ih hps, List.filter_cons, List.filter_cons]
      cases hc : p.isComment with
      | false =>
          rw [(hp hc).uncommented, if_pos (by rfl), if_neg (by decide), List.flatMap_cons,
            List.length_append, Nat.add_assoc]
      | true =>
          rw [if_neg (by decide), if_pos rfl, List.flatMap_cons, List.length_append,
            Nat.add_left_comm]

/-- Without its comments, the text is that of the other pieces exactly if the pieces
that are meant as comments have no other lines. -/
theorem deleteComments_join (hline : ∀ p ∈ ps, p.isComment = false → p.IsLine) :
    deleteComments (join ps) = join (ps.filter (!·.isComment))
      ↔ ∀ p ∈ ps, p.isComment = true → p.Confined := by
  rw [deleteComments, toList_join, uncommented_flatMap, ← String.toList_inj,
    String.toList_ofList, toList_join]
  constructor
  · intro heq p hp hc
    have hlength := length_uncommented hline
    rw [heq, Nat.left_eq_add, List.length_eq_zero_iff, List.flatMap_eq_nil_iff] at hlength
    exact uncommented_eq_nil.1 (hlength p (List.mem_filter.2 ⟨hp, hc⟩))
  · intro hconfined
    induction ps with
    | nil => rfl
    | cons p ps ih =>
        obtain ⟨hp, hps⟩ := List.forall_mem_cons.1 hline
        obtain ⟨hcp, hcps⟩ := List.forall_mem_cons.1 hconfined
        rw [List.flatMap_cons, ih hps hcps, List.filter_cons]
        cases hc : p.isComment with
        | false => rw [(hp hc).uncommented, if_pos (by rfl), List.flatMap_cons]
        | true => rw [uncommented_eq_nil.2 (hcp hc), if_neg (by decide), List.nil_append]

end Piece

end LiftedCode
