/-
A reader of the verification language: a text is divided into parentheses and words,
and these are put together to nested lists of words. What the words and the lists
stand for is said for terms and commands afterwards.

A word ends where a character comes that no word has, so the words of a text do not
depend on what follows such a character. A text spells some tokens (`Spells`) if it
gives these wherever it ends so. What is spelled by parts is spelled by the whole,
and a text that spells a nested list is read as that list (`read?_of_spells`).
-/
import LiftedCode.Proofs.Text.Numeral
import Mathlib.Data.List.Forall2

namespace LiftedCode.Smt

-- =============================================================== tokens

/-- Whether a symbol can have the character. -/
def isSymbolChar (c : Char) : Bool := c.isAlphanum || "~!@$%^&*_-+=<>.?/".toList.contains c

/-- Whether a word can have the character: a literal begins with a mark. -/
def isWordChar (c : Char) : Bool := isSymbolChar c || c == '#'

/-- Whether a string is read as one word. -/
def isWord (s : String) : Bool := !s.toList.isEmpty && s.toList.all isWordChar

/-- A token of a script. -/
inductive Token where
  | opening
  | closing
  | word (s : String)
  /-- A character that no term or command has. -/
  | stray (c : Char)
deriving DecidableEq

/-- The word that ends, if one has begun. -/
def endWord (pending : List Char) : List Token :=
  if pending.isEmpty then [] else [.word (String.ofList pending)]

/-- What a character is on its own that no word has. -/
def delimiter (c : Char) : List Token :=
  if c = '(' then [.opening]
  else if c = ')' then [.closing]
  else if c.isWhitespace then []
  else [.stray c]

/-- The tokens of a text, of which a word has been begun. -/
def tokens (pending : List Char) : List Char → List Token
  | [] => endWord pending
  | c :: cs =>
    if isWordChar c then tokens (pending ++ [c]) cs
    else endWord pending ++ delimiter c ++ tokens [] cs

-- ========================================================= nested lists

/-- A word, or a list of words and lists. -/
inductive SExpr where
  | word (s : String)
  | list (items : List SExpr)
deriving Inhabited

namespace SExpr

mutual

/-- The tokens that an expression is written with. -/
def tokens : SExpr → List Token
  | .word s => [.word s]
  | .list es => .opening :: (tokensAll es ++ [.closing])

/-- The tokens that expressions are written with, one after the other. -/
def tokensAll : List SExpr → List Token
  | [] => []
  | e :: es => e.tokens ++ tokensAll es

end

/-- One token more. The lists that have been opened are kept from the inside out,
and each has its last item first. -/
def push : List (List SExpr) → Token → Option (List (List SExpr))
  | es :: outer, .word s => some ((.word s :: es) :: outer)
  | outer, .opening => some ([] :: outer)
  | es :: fs :: outer, .closing => some ((.list es.reverse :: fs) :: outer)
  | _, _ => none

/-- What a text says, if it is one word or one list. -/
def read? (s : String) : Option SExpr :=
  match (Smt.tokens [] s.toList).foldlM push [[]] with
  | some [[e]] => some e
  | _ => none

mutual

/-- The tokens of an item add it to the innermost list. -/
theorem foldlM_tokens : (e : SExpr) → (es : List SExpr) → (outer : List (List SExpr)) →
    e.tokens.foldlM push (es :: outer) = some ((e :: es) :: outer)
  | .word _, _, _ => rfl
  | .list items, es, outer => by
    rw [tokens, List.foldlM_cons]
    show ((tokensAll items ++ [Token.closing]).foldlM push ([] :: es :: outer)) = _
    rw [List.foldlM_append, foldlM_tokensAll items [] (es :: outer), List.append_nil]
    show some ((SExpr.list items.reverse.reverse :: es) :: outer) = _
    rw [List.reverse_reverse]

/-- The tokens of expressions, read inside an open list, add the expressions to it. -/
theorem foldlM_tokensAll : (items es : List SExpr) → (outer : List (List SExpr)) →
    (tokensAll items).foldlM push (es :: outer) = some ((items.reverse ++ es) :: outer)
  | [], _, _ => rfl
  | e :: items, es, outer => by
    rw [tokensAll, List.foldlM_append, foldlM_tokens e es outer]
    show (tokensAll items).foldlM push ((e :: es) :: outer) = _
    rw [foldlM_tokensAll items (e :: es) outer, List.reverse_cons, List.append_assoc]
    rfl

end

end SExpr

-- ============================================================= spelling

/-- The text does not begin with a character that a word can have. -/
def Delimited (cs : List Char) : Prop := ∀ c ∈ cs.head?, isWordChar c = false

/-- A text gives some tokens wherever it is delimited. -/
def Spells (s : String) (ts : List Token) : Prop :=
  ∀ rest, Delimited rest → tokens [] (s.toList ++ rest) = ts ++ tokens [] rest

variable {s u : String} {ts us : List Token}

theorem delimited_cons {c : Char} {cs : List Char} (hc : isWordChar c = false) :
    Delimited (c :: cs) := fun _ hd => Option.some.inj hd ▸ hc

/-- A word goes on with all its characters. -/
theorem tokens_word {cs : List Char} (h : ∀ c ∈ cs, isWordChar c = true)
    (pending rest : List Char) : tokens pending (cs ++ rest) = tokens (pending ++ cs) rest := by
  induction cs generalizing pending with
  | nil => rw [List.append_nil, List.nil_append]
  | cons c cs ih =>
      obtain ⟨hc, hcs⟩ := List.forall_mem_cons.1 h
      rw [List.cons_append, tokens, if_pos hc, ih hcs, List.append_assoc]
      rfl

/-- A word ends where the text is delimited. -/
theorem tokens_delimited {rest : List Char} (h : Delimited rest) (pending : List Char) :
    tokens pending rest = endWord pending ++ tokens [] rest := by
  cases rest with
  | nil => simp [tokens, endWord]
  | cons c cs =>
      have hc : ¬ isWordChar c = true := by simp [h c rfl]
      rw [tokens, tokens, if_neg hc, if_neg hc, List.append_assoc]
      rfl

/-- A character that no word has is by itself. -/
theorem tokens_delimiter {c : Char} (hc : isWordChar c = false) (cs : List Char) :
    tokens [] (c :: cs) = delimiter c ++ tokens [] cs := by
  rw [tokens, if_neg (by simp [hc])]
  rfl

/-- A word has a character, and only those of words. -/
theorem isWord_iff :
    isWord s = true ↔ s.toList ≠ [] ∧ ∀ c ∈ s.toList, isWordChar c = true := by
  simp [isWord]

/-- A word spells itself. -/
theorem spells_word (h : isWord s = true) : Spells s [.word s] := by
  intro rest hrest
  obtain ⟨hne, hall⟩ := isWord_iff.1 h
  have hnil : ¬ s.toList.isEmpty = true := fun hs => hne (List.isEmpty_iff.1 hs)
  rw [tokens_word hall, tokens_delimited hrest, List.nil_append, endWord, if_neg hnil,
    String.ofList_toList]

theorem spells_empty : Spells "" [] := fun _ _ => rfl

/-- A blank stands between what it divides. -/
theorem Spells.blank (hs : Spells s ts) (hu : Spells u us) :
    Spells (s ++ " " ++ u) (ts ++ us) := by
  intro rest hrest
  have hlist : (s ++ " " ++ u).toList ++ rest = s.toList ++ ' ' :: (u.toList ++ rest) := by
    rw [String.toList_append, String.toList_append, List.append_assoc, List.append_assoc]
    rfl
  rw [hlist, hs _ (delimited_cons rfl), tokens_delimiter rfl]
  show ts ++ tokens [] (u.toList ++ rest) = _
  rw [hu rest hrest, List.append_assoc]

/-- Parentheses spell the two tokens around. -/
theorem Spells.parenthesized (hs : Spells s ts) :
    Spells ("(" ++ s ++ ")") (.opening :: (ts ++ [.closing])) := by
  intro rest _
  have hlist : ("(" ++ s ++ ")").toList ++ rest = '(' :: (s.toList ++ ')' :: rest) := by
    rw [String.toList_append, String.toList_append, List.append_assoc]
    rfl
  rw [hlist, tokens_delimiter rfl, hs _ (delimited_cons rfl), tokens_delimiter rfl,
    List.cons_append, List.append_assoc]
  rfl

/-- Items are spelled with blanks between them. -/
theorem spells_blankSeparated {ss : List String} {es : List SExpr}
    (h : List.Forall₂ (fun s e => Spells s e.tokens) ss es) :
    Spells (blankSeparated ss) (SExpr.tokensAll es) := by
  induction h with
  | nil => exact spells_empty
  | @cons s e ss es hs hss ih =>
      cases ss with
      | nil =>
          cases hss
          rw [blankSeparated, String.intercalate_singleton, SExpr.tokensAll, SExpr.tokensAll,
            List.append_nil]
          exact hs
      | cons u ss =>
          rw [blankSeparated, String.intercalate_cons_cons]
          exact hs.blank ih

/-- What is written between parentheses spells a list. -/
theorem spells_list {ss : List String} {es : List SExpr}
    (h : List.Forall₂ (fun s e => Spells s e.tokens) ss es) :
    Spells ("(" ++ blankSeparated ss ++ ")") (SExpr.list es).tokens :=
  (spells_blankSeparated h).parenthesized

/-- A text that spells a nested list is read as that list. -/
theorem read?_of_spells {e : SExpr} (h : Spells s e.tokens) : SExpr.read? s = some e := by
  have htokens : tokens [] s.toList = e.tokens := by
    have hend := h [] (fun c hc => nomatch hc)
    rw [List.append_nil] at hend
    rw [hend]
    exact List.append_nil _
  rw [SExpr.read?, htokens, SExpr.foldlM_tokens]

end LiftedCode.Smt
