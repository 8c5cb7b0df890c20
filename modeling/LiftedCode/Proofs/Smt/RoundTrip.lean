/-
The written forms of terms and commands, read back. A term is readable if its names
are symbols of the verification language and its literals fit their widths. What a
nested list stands for (`Term.ofSExpr?`, `Command.ofSExpr?`) is read off it alone:
the digits of a literal tell its width by their number. Every readable term is
written as the text of a nested list that stands for it, so it is read back from the
text (`Term.read?_text`), and the text determines it. The same holds of commands.
-/
import LiftedCode.Proofs.Smt.Reader
import LiftedCode.Proofs.Smt.Sort
import LiftedCode.Smt.Command

namespace LiftedCode.Smt

-- ================================================================ names

/-- The words that the language keeps for itself. -/
def reservedWords : List String :=
  ["BINARY", "DECIMAL", "HEXADECIMAL", "NUMERAL", "STRING", "_", "!", "as", "let", "exists",
    "forall", "match", "par", "assert", "check-sat", "check-sat-assuming", "declare-const",
    "declare-datatype", "declare-datatypes", "declare-fun", "declare-sort", "define-fun",
    "define-fun-rec", "define-funs-rec", "define-sort", "echo", "exit", "get-assertions",
    "get-assignment", "get-info", "get-model", "get-option", "get-proof",
    "get-unsat-assumptions", "get-unsat-core", "get-value", "pop", "push", "reset",
    "reset-assertions", "set-info", "set-logic", "set-option"]

/-- Whether a word is a simple symbol. -/
def isSimpleSymbol (s : String) : Bool :=
  !s.isEmpty && s.toList.all isSymbolChar && !s.toList.head?.any Char.isDigit
    && !reservedWords.contains s

/-- Whether a word names a variable or a function: a simple symbol other than the
truth values. -/
def isName (s : String) : Bool := isSimpleSymbol s && s != "true" && s != "false"

/-- Whether a symbol is written as a name, or with an index. -/
def Symbol.readable : Symbol → Bool
  | named s => isName s
  | extract _ _ | zeroExtend _ | signExtend _ => true

mutual

/-- Whether the names of a term are symbols and its literals fit their widths. -/
def Term.readable : Term → Bool
  | .var x => isName x
  | .bool _ => true
  | .bits w x => 0 < w && x < 2 ^ w
  | .app f ts => f.readable && Term.allReadable ts

/-- Whether all of the terms are readable. -/
def Term.allReadable : List Term → Bool
  | [] => true
  | t :: ts => t.readable && Term.allReadable ts

end

theorem Term.readable_bits {w x : Nat} (hw : 0 < w) (hx : x < 2 ^ w) :
    (Term.bits w x).readable = true := by
  rw [Term.readable, decide_eq_true hw, decide_eq_true hx]
  rfl

/-- Whether all names of a command are names, and its body is readable. -/
def Command.readable : Command → Bool
  | define n ps _ t => isName n && (ps.all fun p => isName p.1) && t.readable
  | declare n _ _ => isName n

-- ======================================================= interpretation

/-- The name that an expression is. -/
def name? (e : SExpr) : Option String :=
  match e with
  | .word s => if isName s then some s else none
  | .list _ => none

/-- The sort that an expression writes. -/
def TermSort.ofSExpr? : SExpr → Option TermSort
  | .word s => if s = "Bool" then some .bool else none
  | .list [.word "_", .word "BitVec", .word w] => (Numeral.decimal? w).map .bits
  | _ => none

/-- The symbol that an expression writes. -/
def Symbol.ofSExpr? : SExpr → Option Symbol
  | .word s => (name? (.word s)).map .named
  | .list [.word "_", .word "extract", .word hi, .word lo] => do
    return .extract (← Numeral.decimal? hi) (← Numeral.decimal? lo)
  | .list [.word "_", .word "zero_extend", .word n] => (Numeral.decimal? n).map .zeroExtend
  | .list [.word "_", .word "sign_extend", .word n] => (Numeral.decimal? n).map .signExtend
  | _ => none

namespace Term

/-- A literal has four bits for every hexadecimal digit, or one for every binary one. -/
def ofWord? (s : String) : Option Term :=
  match s.toList with
  | '#' :: 'x' :: cs => (Numeral.value? 16 cs).map (bits (4 * cs.length))
  | '#' :: 'b' :: cs => (Numeral.value? 2 cs).map (bits cs.length)
  | _ =>
    if s = "true" then some (bool true)
    else if s = "false" then some (bool false)
    else (name? (.word s)).map var

mutual

/-- The term that an expression writes. -/
def ofSExpr? : SExpr → Option Term
  | .word s => ofWord? s
  | .list [] => none
  | .list (f :: es) => do return app (← Symbol.ofSExpr? f) (← allOfSExpr? es)

/-- The terms that expressions write. -/
def allOfSExpr? : List SExpr → Option (List Term)
  | [] => some []
  | e :: es => do return (← ofSExpr? e) :: (← allOfSExpr? es)

end

/-- The term that a text is the written form of. -/
def read? (s : String) : Option Term := (SExpr.read? s).bind ofSExpr?

end Term

namespace Command

/-- The parameter of a definition that an expression writes. -/
def param? : SExpr → Option (String × TermSort)
  | .list [n, s] => do return (← name? n, ← TermSort.ofSExpr? s)
  | _ => none

/-- The command that an expression writes. -/
def ofSExpr? : SExpr → Option Command
  | .list [.word "define-fun", n, .list ps, s, t] => do
    return define (← name? n) (← ps.mapM param?) (← TermSort.ofSExpr? s) (← Term.ofSExpr? t)
  | .list [.word "declare-fun", n, .list ss, s] => do
    return declare (← name? n) (← ss.mapM TermSort.ofSExpr?) (← TermSort.ofSExpr? s)
  | _ => none

/-- The command that a text is the written form of. -/
def read? (s : String) : Option Command := (SExpr.read? s).bind ofSExpr?

end Command

-- ========================================================= nested lists

/-- The expression that a sort is written as. -/
def TermSort.sexpr : TermSort → SExpr
  | bool => .word "Bool"
  | bits w => .list [.word "_", .word "BitVec", .word (toString w)]

/-- The expression that a symbol is written as. -/
def Symbol.sexpr : Symbol → SExpr
  | named s => .word s
  | extract hi lo => .list [.word "_", .word "extract", .word (toString hi), .word (toString lo)]
  | zeroExtend n => .list [.word "_", .word "zero_extend", .word (toString n)]
  | signExtend n => .list [.word "_", .word "sign_extend", .word (toString n)]

mutual

/-- The expression that a term is written as. -/
def Term.sexpr : Term → SExpr
  | .var x => .word x
  | .bool b => .word (toString b)
  | .bits w x => .word (Term.bits w x).text
  | .app f ts => .list (f.sexpr :: Term.sexprs ts)

/-- The expressions that terms are written as. -/
def Term.sexprs : List Term → List SExpr
  | [] => []
  | t :: ts => t.sexpr :: Term.sexprs ts

end

/-- The expression that a command is written as. -/
def Command.sexpr : Command → SExpr
  | define n ps s t => .list [.word "define-fun", .word n,
      .list (ps.map fun p => .list [.word p.1, p.2.sexpr]), s.sexpr, t.sexpr]
  | declare n ss s =>
    .list [.word "declare-fun", .word n, .list (ss.map TermSort.sexpr), s.sexpr]

-- ================================================================ words

/-- A name is not empty, and has no mark in it. -/
theorem of_isName {s : String} (h : isName s = true) :
    s.toList ≠ [] ∧ ∀ c ∈ s.toList, isSymbolChar c = true := by
  simp only [isName, isSimpleSymbol, Bool.and_eq_true, List.all_eq_true] at h
  obtain ⟨⟨⟨⟨⟨hne, hall⟩, -⟩, -⟩, -⟩, -⟩ := h
  exact ⟨by simpa using hne, hall⟩

theorem isWord_of_isName {s : String} (h : isName s = true) : isWord s = true := by
  obtain ⟨hne, hall⟩ := of_isName h
  refine isWord_iff.2 ⟨hne, fun c hc => ?_⟩
  rw [isWordChar, hall c hc]
  rfl

theorem spells_name {s : String} (h : isName s = true) : Spells s (SExpr.word s).tokens :=
  spells_word (isWord_of_isName h)

theorem isWordChar_digitChar : ∀ d < 16, isWordChar (Nat.digitChar d) = true := by
  decide

/-- A numeral is one word. -/
theorem spells_toString (n : Nat) : Spells (toString n) (SExpr.word (toString n)).tokens := by
  rw [Nat.toString_eq_repr]
  refine spells_word (isWord_iff.2 ?_)
  rw [Nat.toList_repr]
  refine ⟨by simp, fun c hc => ?_⟩
  obtain ⟨d, hd, rfl⟩ := Numeral.digit_of_mem_toDigits (by decide) hc
  exact isWordChar_digitChar d (by omega)

-- ============================================================= literals

/-- A literal whose width is a whole number of hexadecimal digits has just these. -/
theorem text_bits_hexadecimal {w x : Nat} (hw : 0 < w) (h4 : 4 ∣ w) (hx : x < 2 ^ w) :
    ∃ ds : String, (Term.bits w x).text = "#x" ++ ds ∧ ds.toList.length = w / 4
      ∧ Numeral.value? 16 ds.toList = some x ∧ ∀ c ∈ ds.toList, isWordChar c = true := by
  obtain ⟨k, rfl⟩ := h4
  have hk : 4 * k / 4 = k := by omega
  have hx : x < 16 ^ k := by rwa [Nat.pow_mul] at hx
  refine ⟨Numeral.paddedDigits 16 k x, ?_, ?_, ?_, fun c hc => ?_⟩
  · rw [Term.text, if_pos (by omega), Term.literalDigits, if_pos (by omega), hk]
  · rw [hk]
    exact Numeral.length_paddedDigits (by decide) (by omega) hx
  · exact Numeral.value?_paddedDigits (by decide) (by decide) k x
  · obtain ⟨d, hd, rfl⟩ := Numeral.digit_of_mem_paddedDigits (by decide) hc
    exact isWordChar_digitChar d hd

/-- Any other literal has one binary digit for every bit. -/
theorem text_bits_binary {w x : Nat} (h4 : ¬ 4 ∣ w) (hx : x < 2 ^ w) :
    ∃ ds : String, (Term.bits w x).text = "#b" ++ ds ∧ ds.toList.length = w
      ∧ Numeral.value? 2 ds.toList = some x ∧ ∀ c ∈ ds.toList, isWordChar c = true := by
  refine ⟨Numeral.paddedDigits 2 w x, ?_, ?_, ?_, fun c hc => ?_⟩
  · rw [Term.text, if_neg (by omega), Term.literalDigits, if_neg (by omega)]
  · exact Numeral.length_paddedDigits (by decide) (by omega) hx
  · exact Numeral.value?_paddedDigits (by decide) (by decide) w x
  · obtain ⟨d, hd, rfl⟩ := Numeral.digit_of_mem_paddedDigits (by decide) hc
    exact isWordChar_digitChar d (by omega)

/-- A mark with digits after it. -/
theorem spells_marked {mark ds : String} (hmark : isWord mark = true)
    (hds : ∀ c ∈ ds.toList, isWordChar c = true) :
    Spells (mark ++ ds) (SExpr.word (mark ++ ds)).tokens := by
  obtain ⟨hne, hall⟩ := isWord_iff.1 hmark
  refine spells_word (isWord_iff.2 ?_)
  rw [String.toList_append]
  exact ⟨List.append_ne_nil_of_left_ne_nil hne _, List.forall_mem_append.2 ⟨hall, hds⟩⟩

/-- A literal that fits its width is one word. -/
theorem spells_bits {w x : Nat} (hw : 0 < w) (hx : x < 2 ^ w) :
    Spells (Term.bits w x).text (SExpr.word (Term.bits w x).text).tokens := by
  by_cases h4 : 4 ∣ w
  · obtain ⟨ds, htext, -, -, hds⟩ := text_bits_hexadecimal hw h4 hx
    rw [htext]
    exact spells_marked (by decide) hds
  · obtain ⟨ds, htext, -, -, hds⟩ := text_bits_binary h4 hx
    rw [htext]
    exact spells_marked (by decide) hds

/-- The number of the digits of a literal gives its width back. -/
theorem ofWord?_bits {w x : Nat} (hw : 0 < w) (hx : x < 2 ^ w) :
    Term.ofWord? (Term.bits w x).text = some (.bits w x) := by
  by_cases h4 : 4 ∣ w
  · obtain ⟨ds, htext, hlength, hvalue, -⟩ := text_bits_hexadecimal hw h4 hx
    rw [htext, Term.ofWord?, String.toList_append]
    show (Numeral.value? 16 ds.toList).map (Term.bits (4 * ds.toList.length)) = _
    rw [hvalue, hlength, Option.map_some, Nat.mul_div_cancel' h4]
  · obtain ⟨ds, htext, hlength, hvalue, -⟩ := text_bits_binary h4 hx
    rw [htext, Term.ofWord?, String.toList_append]
    show (Numeral.value? 2 ds.toList).map (Term.bits ds.toList.length) = _
    rw [hvalue, hlength, Option.map_some]

/-- A name is no literal. -/
theorem ofWord?_name {s : String} (h : isName s = true) : Term.ofWord? s = some (.var s) := by
  have hmark : ∀ cs, s.toList ≠ '#' :: cs := fun cs hcs =>
    absurd ((of_isName h).2 '#' (hcs ▸ List.mem_cons_self)) (by decide)
  have htrue : s ≠ "true" := by
    rintro rfl
    exact absurd h (by decide)
  have hfalse : s ≠ "false" := by
    rintro rfl
    exact absurd h (by decide)
  unfold Term.ofWord?
  split
  case h_1 hcs => exact absurd hcs (hmark _)
  case h_2 hcs => exact absurd hcs (hmark _)
  case h_3 => rw [if_neg htrue, if_neg hfalse, name?, if_pos h, Option.map_some]

theorem ofWord?_toString (b : Bool) : Term.ofWord? (toString b) = some (.bool b) := by
  cases b <;> rfl

-- ======================================================= sorts and symbols

/-- A name with numerals that belong to it. -/
theorem spells_indexed {s : String} (name : String) (ns : List Nat)
    (hs : s = "(" ++ blankSeparated ("_" :: name :: ns.map toString) ++ ")")
    (hname : isWord name = true) :
    Spells s
      (SExpr.list (.word "_" :: .word name :: ns.map fun n => .word (toString n))).tokens := by
  rw [hs]
  refine spells_list (.cons (spells_word (by decide)) (.cons (spells_word hname) ?_))
  rw [List.forall₂_map_left_iff, List.forall₂_map_right_iff, List.forall₂_same]
  exact fun n _ => spells_toString n

/-- A sort is written with the tokens of its expression. -/
theorem TermSort.spells_text (s : TermSort) : Spells s.text s.sexpr.tokens := by
  cases s with
  | bool => exact spells_word (by decide)
  | bits w =>
      refine spells_indexed "BitVec" [w] (String.toList_inj.1 ?_) (by decide)
      show ("(_ BitVec " ++ toString w ++ ")").toList = _
      simp [blankSeparated]

/-- A readable symbol is written with the tokens of its expression. -/
theorem Symbol.spells_text {f : Symbol} (h : f.readable = true) : Spells f.text f.sexpr.tokens := by
  cases f with
  | named s => exact spells_name h
  | extract hi lo =>
      refine spells_indexed "extract" [hi, lo] (String.toList_inj.1 ?_) (by decide)
      show ("(_ extract " ++ toString hi ++ " " ++ toString lo ++ ")").toList = _
      simp [blankSeparated]
  | zeroExtend n =>
      refine spells_indexed "zero_extend" [n] (String.toList_inj.1 ?_) (by decide)
      show ("(_ zero_extend " ++ toString n ++ ")").toList = _
      simp [blankSeparated]
  | signExtend n =>
      refine spells_indexed "sign_extend" [n] (String.toList_inj.1 ?_) (by decide)
      show ("(_ sign_extend " ++ toString n ++ ")").toList = _
      simp [blankSeparated]

/-- A sort is read back from its expression. -/
theorem TermSort.ofSExpr?_sexpr (s : TermSort) : TermSort.ofSExpr? s.sexpr = some s := by
  cases s with
  | bool => rfl
  | bits w =>
      show (Numeral.decimal? (toString w)).map TermSort.bits = _
      rw [Numeral.decimal?_toString, Option.map_some]

theorem name?_word {s : String} (h : isName s = true) : name? (.word s) = some s := if_pos h

/-- A readable symbol is read back from its expression. -/
theorem Symbol.ofSExpr?_sexpr {f : Symbol} (h : f.readable = true) :
    Symbol.ofSExpr? f.sexpr = some f := by
  cases f with
  | named s =>
      show (name? (.word s)).map Symbol.named = _
      rw [name?_word h, Option.map_some]
  | extract hi lo =>
      rw [sexpr, ofSExpr?, Numeral.decimal?_toString, Numeral.decimal?_toString]
      rfl
  | zeroExtend n =>
      show (Numeral.decimal? (toString n)).map Symbol.zeroExtend = _
      rw [Numeral.decimal?_toString, Option.map_some]
  | signExtend n =>
      show (Numeral.decimal? (toString n)).map Symbol.signExtend = _
      rw [Numeral.decimal?_toString, Option.map_some]

-- ================================================================ terms

namespace Term

/-- An application is a list, also of its symbol alone, which a blank follows then. -/
theorem spells_app {f : Symbol} {ts : List Term} (hf : f.readable = true)
    (hts : Spells (blankSeparated (texts ts)) (SExpr.tokensAll (sexprs ts))) :
    Spells (app f ts).text (app f ts).sexpr.tokens := by
  have htext : (app f ts).text = "(" ++ (f.text ++ " " ++ blankSeparated (texts ts)) ++ ")" := by
    simp only [text, String.append_assoc]
  rw [htext]
  exact ((Symbol.spells_text hf).blank hts).parenthesized

mutual

/-- A readable term is written with the tokens of its expression. -/
theorem spells_text : (t : Term) → t.readable = true → Spells t.text t.sexpr.tokens
  | .var x, h => spells_name h
  | .bool b, _ => by
    cases b
    · exact spells_word (by decide)
    · exact spells_word (by decide)
  | .bits w x, h => by
    obtain ⟨hw, hx⟩ := Bool.and_eq_true_iff.1 h
    exact spells_bits (of_decide_eq_true hw) (of_decide_eq_true hx)
  | .app f ts, h => by
    obtain ⟨hf, hts⟩ := Bool.and_eq_true_iff.1 h
    exact spells_app hf (spells_blankSeparated (spells_texts ts hts))

theorem spells_texts : (ts : List Term) → allReadable ts = true →
    List.Forall₂ (fun s e => Spells s e.tokens) (texts ts) (sexprs ts)
  | [], _ => .nil
  | t :: ts, h => by
    obtain ⟨ht, hts⟩ := Bool.and_eq_true_iff.1 h
    exact .cons (spells_text t ht) (spells_texts ts hts)

end

mutual

/-- A readable term is read back from its expression. -/
theorem ofSExpr?_sexpr : (t : Term) → t.readable = true → ofSExpr? t.sexpr = some t
  | .var x, h => ofWord?_name h
  | .bool b, _ => ofWord?_toString b
  | .bits w x, h => by
    obtain ⟨hw, hx⟩ := Bool.and_eq_true_iff.1 h
    exact ofWord?_bits (of_decide_eq_true hw) (of_decide_eq_true hx)
  | .app f ts, h => by
    obtain ⟨hf, hts⟩ := Bool.and_eq_true_iff.1 h
    rw [sexpr, ofSExpr?, Symbol.ofSExpr?_sexpr hf, allOfSExpr?_sexprs ts hts]
    rfl

theorem allOfSExpr?_sexprs : (ts : List Term) → allReadable ts = true →
    allOfSExpr? (sexprs ts) = some ts
  | [], _ => rfl
  | t :: ts, h => by
    obtain ⟨ht, hts⟩ := Bool.and_eq_true_iff.1 h
    rw [sexprs, allOfSExpr?, ofSExpr?_sexpr t ht, allOfSExpr?_sexprs ts hts]
    rfl

end

/-- A readable term is read back from its text. -/
theorem read?_text {t : Term} (h : t.readable = true) : read? t.text = some t := by
  rw [read?, read?_of_spells (spells_text t h), Option.bind_some, ofSExpr?_sexpr t h]

/-- Readable terms with one written form are equal. -/
theorem eq_of_text {t u : Term} (ht : t.readable = true) (hu : u.readable = true)
    (h : t.text = u.text) : t = u := by
  have hread := read?_text ht
  rw [h, read?_text hu] at hread
  exact (Option.some.inj hread).symm

end Term

-- ============================================================== commands

namespace Command

theorem mapM_param? {ps : List (String × TermSort)} (h : ∀ p ∈ ps, isName p.1 = true) :
    (ps.map fun p => SExpr.list [.word p.1, p.2.sexpr]).mapM param? = some ps := by
  induction ps with
  | nil => rfl
  | cons p ps ih =>
      obtain ⟨hp, hps⟩ := List.forall_mem_cons.1 h
      have hparam : param? (.list [.word p.1, p.2.sexpr]) = some p := by
        rw [param?, name?_word hp, TermSort.ofSExpr?_sexpr]
        rfl
      rw [List.map_cons, List.mapM_cons, hparam, ih hps]
      rfl

theorem mapM_sort (ss : List TermSort) :
    (ss.map TermSort.sexpr).mapM TermSort.ofSExpr? = some ss := by
  induction ss with
  | nil => rfl
  | cons s ss ih =>
      rw [List.map_cons, List.mapM_cons, TermSort.ofSExpr?_sexpr, ih]
      rfl

/-- A readable command is read back from its expression. -/
theorem ofSExpr?_sexpr {c : Command} (h : c.readable = true) : ofSExpr? c.sexpr = some c := by
  cases c with
  | define n ps s t =>
      simp only [readable, Bool.and_eq_true, List.all_eq_true] at h
      obtain ⟨⟨hn, hps⟩, ht⟩ := h
      rw [sexpr, ofSExpr?, name?_word hn, mapM_param? hps, TermSort.ofSExpr?_sexpr,
        Term.ofSExpr?_sexpr t ht]
      rfl
  | declare n ss s =>
      rw [sexpr, ofSExpr?, name?_word h, mapM_sort, TermSort.ofSExpr?_sexpr]
      rfl

theorem text_define (n : String) (ps : List (String × TermSort)) (s : TermSort) (t : Term) :
    (define n ps s t).text = "(" ++ blankSeparated ["define-fun", n,
      "(" ++ blankSeparated (ps.map fun p => "(" ++ p.1 ++ " " ++ p.2.text ++ ")") ++ ")",
      s.text, t.text] ++ ")" := by
  have hhead : "(define-fun " = "(" ++ "define-fun" ++ " " := by decide
  have hopen : " (" = " " ++ "(" := by decide
  have hclose : ") " = ")" ++ " " := by decide
  show "(define-fun " ++ n ++ " (" ++
      blankSeparated (ps.map fun p => "(" ++ p.1 ++ " " ++ p.2.text ++ ")")
      ++ ") " ++ s.text ++ " " ++ t.text ++ ")" = _
  rw [hhead, hopen, hclose]
  simp only [blankSeparated, String.intercalate_cons_cons, String.intercalate_singleton,
    String.append_assoc]

theorem text_declare (n : String) (ss : List TermSort) (s : TermSort) :
    (declare n ss s).text = "(" ++ blankSeparated ["declare-fun", n,
      "(" ++ blankSeparated (ss.map TermSort.text) ++ ")", s.text] ++ ")" := by
  have hhead : "(declare-fun " = "(" ++ "declare-fun" ++ " " := by decide
  have hopen : " (" = " " ++ "(" := by decide
  have hclose : ") " = ")" ++ " " := by decide
  show "(declare-fun " ++ n ++ " (" ++ blankSeparated (ss.map TermSort.text) ++ ") "
    ++ s.text ++ ")" = _
  rw [hhead, hopen, hclose]
  simp only [blankSeparated, String.intercalate_cons_cons, String.intercalate_singleton,
    String.append_assoc]

theorem spells_param {p : String × TermSort} (h : isName p.1 = true) :
    Spells ("(" ++ p.1 ++ " " ++ p.2.text ++ ")") (SExpr.list [.word p.1, p.2.sexpr]).tokens := by
  have htext : "(" ++ p.1 ++ " " ++ p.2.text ++ ")"
      = "(" ++ blankSeparated [p.1, p.2.text] ++ ")" := by
    simp [blankSeparated, String.append_assoc]
  rw [htext]
  exact spells_list (.cons (spells_name h) (.cons p.2.spells_text .nil))

/-- A readable command is written with the tokens of its expression. -/
theorem spells_text {c : Command} (h : c.readable = true) : Spells c.text c.sexpr.tokens := by
  cases c with
  | define n ps s t =>
      simp only [readable, Bool.and_eq_true, List.all_eq_true] at h
      obtain ⟨⟨hn, hps⟩, ht⟩ := h
      rw [text_define]
      refine spells_list (.cons (spells_word (by decide)) (.cons (spells_name hn)
        (.cons (spells_list ?_) (.cons s.spells_text (.cons (Term.spells_text t ht) .nil)))))
      rw [List.forall₂_map_left_iff, List.forall₂_map_right_iff, List.forall₂_same]
      exact fun p hp => spells_param (hps p hp)
  | declare n ss s =>
      rw [text_declare]
      refine spells_list (.cons (spells_word (by decide)) (.cons (spells_name h)
        (.cons (spells_list ?_) (.cons s.spells_text .nil))))
      rw [List.forall₂_map_left_iff, List.forall₂_map_right_iff, List.forall₂_same]
      exact fun s _ => s.spells_text

/-- A readable command is read back from its text. -/
theorem read?_text {c : Command} (h : c.readable = true) : read? c.text = some c := by
  rw [read?, read?_of_spells (spells_text h), Option.bind_some, ofSExpr?_sexpr h]

/-- Readable commands with one written form are equal. -/
theorem eq_of_text {c d : Command} (hc : c.readable = true) (hd : d.readable = true)
    (h : c.text = d.text) : c = d := by
  have hread := read?_text hc
  rw [h, read?_text hd] at hread
  exact (Option.some.inj hread).symm

end Command

-- ================================================================ length

/-- Whether the digits of every literal in a term are no more than a numeral can be
padded to. -/
def Term.Printable (t : Term) : Prop :=
  ∀ w x, Term.Subterm (.bits w x) t → Term.literalDigits w ≤ Numeral.paddingLimit

/-- The body of a command, if it has one, can be printed. -/
def Command.Printable : Command → Prop
  | define _ _ _ t => t.Printable
  | declare _ _ _ => True

namespace Term

theorem printable_app {f : Symbol} {ts : List Term} :
    (app f ts).Printable ↔ ∀ t ∈ ts, t.Printable := by
  constructor
  · exact fun h t ht w x hx => h w x (.arg ht hx)
  · intro h w x hx
    cases hx with
    | arg ht hx => exact h _ ht w x hx

mutual

/-- The check of a term before it is written is that it can be printed. -/
theorem textFits_iff : (t : Term) → (t.textFits = true ↔ t.Printable)
  | .var x => iff_of_true rfl fun w n h => nomatch h
  | .bool b => iff_of_true rfl fun w n h => nomatch h
  | .bits w x => by
    rw [textFits, decide_eq_true_iff]
    constructor
    · intro hle v y h
      cases h
      exact hle
    · exact fun h => h w x (.self _)
  | .app f ts => by rw [textFits, printable_app, textsFit_iff ts]

theorem textsFit_iff : (ts : List Term) → (textsFit ts = true ↔ ∀ t ∈ ts, t.Printable)
  | [] => iff_of_true rfl fun t ht => nomatch ht
  | t :: ts => by
    rw [textsFit, Bool.and_eq_true_iff, List.forall_mem_cons, textFits_iff t, textsFit_iff ts]

end

end Term

/-- The check of a command before it is written is that it can be printed. -/
theorem Command.textFits_iff (c : Command) : c.textFits = true ↔ c.Printable := by
  cases c with
  | define _ _ _ t => exact t.textFits_iff
  | declare _ _ _ => exact iff_of_true rfl trivial

/-- What is checked to be in range is there exactly if it is. -/
theorem inRange_exact {fits : Bool} {P : Prop} (h : fits = true ↔ P) (s : String) :
    (P → inRange fits s = .ok s) ∧ (¬ P → inRange fits s = .error .overflow) := by
  constructor
  · exact fun hP => if_pos (h.2 hP)
  · exact fun hP => if_neg fun hfits => hP (h.1 hfits)

-- ============================================================= the reader

/-- A readable term or command is read back from its text, which determines it, and
the text of a literal has a hexadecimal digit for every four bits of its width or, if
these are not a whole number, a binary one for every bit. It is written whenever no
literal has more digits than a numeral can be padded to, and only then. -/
theorem text_determines (t : Term) (c : Command) :
    (t.readable = true → Term.read? t.text = some t
      ∧ (∀ u : Term, u.readable = true → t.text = u.text → t = u)
      ∧ (t.Printable → t.checkedText = .ok t.text)
      ∧ (¬ t.Printable → t.checkedText = .error .overflow))
    ∧ (c.readable = true → Command.read? c.text = some c
      ∧ (∀ d : Command, d.readable = true → c.text = d.text → c = d)
      ∧ (c.Printable → c.checkedText = .ok c.text)
      ∧ (¬ c.Printable → c.checkedText = .error .overflow))
    ∧ ∀ w x, 0 < w → x < 2 ^ w →
      (4 ∣ w → ∃ ds : String, (Term.bits w x).text = "#x" ++ ds
        ∧ ds.toList.length = w / 4 ∧ Numeral.value? 16 ds.toList = some x)
      ∧ (¬ 4 ∣ w → ∃ ds : String, (Term.bits w x).text = "#b" ++ ds
        ∧ ds.toList.length = w ∧ Numeral.value? 2 ds.toList = some x) := by
  refine ⟨fun ht => ⟨Term.read?_text ht, fun u hu => Term.eq_of_text ht hu,
      inRange_exact t.textFits_iff t.text⟩,
    fun hc => ⟨Command.read?_text hc, fun d hd => Command.eq_of_text hc hd,
      inRange_exact c.textFits_iff c.text⟩,
    fun w x hw hx => ⟨fun h4 => ?_, fun h4 => ?_⟩⟩
  · obtain ⟨ds, htext, hlength, hvalue, -⟩ := text_bits_hexadecimal hw h4 hx
    exact ⟨ds, htext, hlength, hvalue⟩
  · obtain ⟨ds, htext, hlength, hvalue, -⟩ := text_bits_binary h4 hx
    exact ⟨ds, htext, hlength, hvalue⟩

/-- A definition with a literal of 132 bits and an application to nothing. -/
theorem text_determines_wide :
    let t := Term.binary "concat" (.bits 132 5)
      (.ite (.call "f" []) (.var "x") (.bits 8 255))
    let c := Command.define "y" [("x", .bits 8)] (.bits 140) t
    c.text = "(define-fun y ((x (_ BitVec 8))) (_ BitVec 140) "
        ++ "(concat #x000000000000000000000000000000005 (ite (f ) x #xff)))"
      ∧ Command.read? c.text = some c ∧ Term.read? t.text = some t := by
  intro t c
  obtain ⟨hterm, hcommand, -⟩ := text_determines t c
  refine ⟨?_, (hcommand (by decide)).1, (hterm (by decide)).1⟩
  decide

/-- A literal with more digits than 65535 cannot be written. -/
theorem text_overflows : (Term.bits 65537 5).readable = true
    ∧ ¬ ∃ s, (Term.bits 65537 5).checkedText = .ok s := by
  refine ⟨?_, fun ⟨s, hs⟩ => ?_⟩
  · have hfits : ∀ w, 5 < w → (Term.bits w 5).readable = true := fun w hw =>
      Term.readable_bits (by omega) (Nat.lt_trans hw Nat.lt_two_pow_self)
    exact hfits 65537 (by decide)
  · rw [Term.checkedText, inRange, if_neg (by decide)] at hs
    contradiction

end LiftedCode.Smt
