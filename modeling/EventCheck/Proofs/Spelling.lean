import EventCheck.SmtLib.Model

/-!
How trees are spelled. Text of the SMT-LIB language consists of tokens between which white space
may stand, and reading it gives back the trees that the tokens spell.
-/

namespace EventCheck.SmtLib

/-! ### Tokens -/

/-- A parenthesis, a word, a symbol between bars or a text literal. -/
inductive Token where
  | opening
  | closing
  | word (text : String)
  | symbol (name : String)
  | literal (text : String)

/-- White space and parentheses, with which no word goes on. -/
def isBreak (c : Char) : Bool := Text.isBlank c || c == '(' || c == ')'

def isWord : List Char → Bool
  | [] => false
  | c :: rest => !isBreak c && c != '|' && c != '"' && rest.all (!isBreak ·)

def doubleQuotes (text : List Char) : List Char :=
  text.flatMap fun c => if c = '"' then ['"', '"'] else [c]

/-- The text is over, or goes on with something that ends any token. -/
def Separated : List Char → Prop
  | [] => True
  | c :: _ => isBreak c = true

namespace Token

def text : Token → List Char
  | opening => ['(']
  | closing => [')']
  | word text => text.toList
  | symbol name => '|' :: (name.toList ++ ['|'])
  | literal text => '"' :: (doubleQuotes text.toList ++ ['"'])

def WellFormed : Token → Prop
  | word text => isWord text.toList = true
  | symbol name => '|' ∉ name.toList
  | opening | closing | literal _ => True

instance : (t : Token) → Decidable t.WellFormed
  | word text => inferInstanceAs (Decidable (isWord text.toList = true))
  | symbol name => inferInstanceAs (Decidable ('|' ∉ name.toList))
  | opening => inferInstanceAs (Decidable True)
  | closing => inferInstanceAs (Decidable True)
  | literal _ => inferInstanceAs (Decidable True)

/-- The token does not run on into what follows it. -/
def EndsBefore : Token → List Char → Prop
  | word _, text => Separated text
  | literal _, text => text.head? ≠ some '"'
  | opening, _ | closing, _ | symbol _, _ => True

end Token

/-- The text consists of the tokens and white space before, between and after them. -/
inductive Spaced : List Token → List Char → Prop
  | done {gap : List Char} (blank : gap.all Text.isBlank = true) : Spaced [] gap
  | token {gap text : List Char} {t : Token} {tokens : List Token}
    (blank : gap.all Text.isBlank = true) (formed : t.WellFormed) (ends : t.EndsBefore text)
    (later : Spaced tokens text) : Spaced (t :: tokens) (gap ++ (t.text ++ text))

/-- The tokens spell the trees. -/
inductive Spells : List Tree → List Token → Prop
  | nil : Spells [] []
  | word {text : String} {forest : List Tree} {tokens : List Token} (later : Spells forest tokens) :
    Spells (.atom text :: forest) (.word text :: tokens)
  | symbol {name : String} {forest : List Tree} {tokens : List Token}
    (later : Spells forest tokens) : Spells (.atom name :: forest) (.symbol name :: tokens)
  | literal {text : String} {forest : List Tree} {tokens : List Token}
    (later : Spells forest tokens) : Spells (.string text :: forest) (.literal text :: tokens)
  | list {items forest : List Tree} {inside tokens : List Token} (within : Spells items inside)
    (later : Spells forest tokens) :
    Spells (.list items :: forest) (.opening :: (inside ++ .closing :: tokens))

/-! ### Characters -/

theorem isBreak_iff {c : Char} : isBreak c = true ↔ Text.isBlank c = true ∨ c = '(' ∨ c = ')' := by
  simp [isBreak, or_assoc]

namespace Reader

variable {r : Reader} {c : Char} {text : List Char}

/-- Reads the text to its end. -/
def run (r : Reader) (text : List Char) : Option (List Tree) := do
  (← text.foldlM step r).finish

theorem run_cons : r.run (c :: text) = (r.step c).bind fun next => next.run text := by
  simp only [run, List.foldlM_cons, Option.bind_eq_bind, Option.bind_assoc]

/-- What is read outside of symbols, literals and atoms does not depend on what was read before. -/
theorem between_mode (mode : Mode) : ({ r with mode } : Reader).between c = r.between c := by
  cases r with
  | mk inner outermost _ =>
    unfold between
    split
    · rfl
    · cases inner with
      | nil => rfl
      | cons opened inner => cases inner <;> rfl
    · rfl
    · rfl
    · rfl

theorem between_of_ordinary (ordinary : c ≠ '(' ∧ c ≠ ')' ∧ c ≠ '|' ∧ c ≠ '"') :
    r.between c = some { r with mode := if Text.isBlank c then .between else .atom [c] } := by
  obtain ⟨opening, closing, bar, quote⟩ := ordinary
  unfold between
  split
  · exact absurd rfl opening
  · exact absurd rfl closing
  · exact absurd rfl bar
  · exact absurd rfl quote
  · rfl

theorem run_blank (between : r.mode = .between) (blank : Text.isBlank c = true) :
    r.run (c :: text) = r.run text := by
  have ordinary : c ≠ '(' ∧ c ≠ ')' ∧ c ≠ '|' ∧ c ≠ '"' := by
    refine ⟨?_, ?_, ?_, ?_⟩ <;> rintro rfl <;> exact absurd blank (by decide)
  have stepped : r.step c = some r := by
    rw [step, between]
    dsimp only
    rw [between_of_ordinary ordinary, if_pos blank, ← between]
  rw [run_cons, stepped]
  rfl

theorem run_gap (between : r.mode = .between) {gap : List Char}
    (blank : gap.all Text.isBlank = true) : r.run (gap ++ text) = r.run text := by
  induction gap with
  | nil => rfl
  | cons c gap ih =>
    rw [List.all_cons, Bool.and_eq_true] at blank
    rw [List.cons_append, run_blank between blank.1]
    exact ih blank.2

/-! ### Tokens one by one -/

@[simp] theorem mode_push (tree : Tree) : (r.push tree).mode = r.mode := by
  unfold push
  split <;> rfl

theorem push_mode (tree : Tree) (mode : Mode) :
    ({ r with mode } : Reader).push tree = { r.push tree with mode } := by
  cases r with
  | mk inner outermost _ => cases inner <;> rfl

/-- A word ends where something else does not go on with it. -/
theorem run_atom (read : List Char) {rest : List Char} (between : r.mode = .between)
    (inside : rest.all (!isBreak ·) = true) (ends : Separated text) :
    ({ r with mode := .atom read } : Reader).run (rest ++ text) =
      (r.push (.atom (String.ofList (read.reverse ++ rest)))).run text := by
  induction rest generalizing read with
  | nil =>
    rw [List.nil_append, List.append_nil]
    cases text with
    | nil =>
      cases r with
      | mk inner outermost mode =>
        cases between
        cases inner <;> rfl
    | cons c text =>
      -- The character that ends the word is read as if the word had been complete before.
      have stepped : ({ r with mode := .atom read } : Reader).step c =
          (r.push (.atom (String.ofList read.reverse))).step c := by
        simp only [step, mode_push, between, if_pos (isBreak_iff.1 ends)]
        rw [push_mode, between_mode]
      rw [run_cons, run_cons, stepped]
  | cons c rest ih =>
    rw [List.all_cons, Bool.and_eq_true, Bool.not_eq_true'] at inside
    have stepped : ({ r with mode := .atom read } : Reader).step c =
        some { r with mode := .atom (c :: read) } := by
      simp only [step]
      rw [if_neg]
      exact fun ends => absurd (isBreak_iff.2 ends) (by simp [inside.1])
    rw [List.cons_append, run_cons, stepped, Option.bind_some, ih (c :: read) inside.2]
    simp

theorem run_symbol (read : List Char) {rest : List Char} (between : r.mode = .between)
    (bars : '|' ∉ rest) :
    ({ r with mode := .symbol read } : Reader).run (rest ++ '|' :: text) =
      (r.push (.atom (String.ofList (read.reverse ++ rest)))).run text := by
  induction rest generalizing read with
  | nil =>
    rw [List.nil_append, List.append_nil, run_cons]
    simp only [step, if_true, Option.bind_some, push_mode]
    congr 1
    rw [← between, ← mode_push]
  | cons c rest ih =>
    rw [List.mem_cons, not_or] at bars
    rw [List.cons_append, run_cons]
    simp only [step, if_neg (Ne.symm bars.1), Option.bind_some]
    rw [ih (c :: read) bars.2]
    simp

/-- A quote that is not doubled ends the literal. -/
theorem run_quote {read : List Char} (between : r.mode = .between) (ends : text.head? ≠ some '"') :
    ({ r with mode := .quote read } : Reader).run text =
      (r.push (.string (String.ofList read.reverse))).run text := by
  cases text with
  | nil =>
    cases r with
    | mk inner outermost mode =>
      cases between
      cases inner <;> rfl
  | cons c text =>
    have single : c ≠ '"' := by
      rintro rfl
      exact ends rfl
    have stepped : ({ r with mode := .quote read } : Reader).step c =
        (r.push (.string (String.ofList read.reverse))).step c := by
      simp only [step, mode_push, between, if_neg single]
      rw [push_mode, between_mode]
    rw [run_cons, run_cons, stepped]

theorem run_literal (read rest : List Char) (between : r.mode = .between)
    (ends : text.head? ≠ some '"') :
    ({ r with mode := .string read } : Reader).run (doubleQuotes rest ++ '"' :: text) =
      (r.push (.string (String.ofList (read.reverse ++ rest)))).run text := by
  induction rest generalizing read with
  | nil =>
    rw [doubleQuotes, List.flatMap_nil, List.nil_append, List.append_nil, run_cons]
    simp only [step, if_true, Option.bind_some]
    exact run_quote between ends
  | cons c rest ih =>
    have cons : doubleQuotes (c :: rest) = doubleQuotes [c] ++ doubleQuotes rest := by
      simp [doubleQuotes]
    have first : ({ r with mode := .string read } : Reader).run
        (doubleQuotes [c] ++ (doubleQuotes rest ++ '"' :: text)) =
          ({ r with mode := .string (c :: read) } : Reader).run
            (doubleQuotes rest ++ '"' :: text) := by
      by_cases quote : c = '"'
      · subst quote
        rfl
      · simp [doubleQuotes, quote, run_cons, step]
    rw [cons, List.append_assoc, first, ih]
    simp

/-- What a token does to a reader that is between tokens. -/
def feed (r : Reader) : Token → Option Reader
  | .opening => some { r with inner := [] :: r.inner }
  | .closing =>
    match r.inner with
    | [] => none
    | opened :: inner => some (({ r with inner } : Reader).push (.list opened.reverse))
  | .word text | .symbol text => some (r.push (.atom text))
  | .literal text => some (r.push (.string text))

theorem mode_feed {t : Token} {next : Reader} (fed : r.feed t = some next) :
    next.mode = r.mode := by
  cases t with
  | closing =>
    simp only [feed] at fed
    split at fed
    · cases fed
    · rw [← Option.some.inj fed, mode_push]
  | opening => rw [← Option.some.inj fed]
  | word text | symbol text | literal text => rw [← Option.some.inj fed, mode_push]

theorem run_token {t : Token} (between : r.mode = .between) (formed : t.WellFormed)
    (ends : t.EndsBefore text) :
    r.run (t.text ++ text) = (r.feed t).bind fun next => next.run text := by
  have first : ∀ c, r.step c = r.between c := by
    intro c
    rw [step, between]
  cases t with
  | opening =>
    rw [Token.text, List.singleton_append, run_cons, first]
    simp only [Reader.between, feed, ← between]
  | closing =>
    rw [Token.text, List.singleton_append, run_cons, first]
    simp only [Reader.between, feed]
    cases r with
    | mk inner outermost mode =>
      cases between
      cases inner with
      | nil => rfl
      | cons opened inner => cases inner <;> rfl
  | word word =>
    have formed : isWord word.toList = true := formed
    rw [Token.text]
    cases characters : word.toList with
    | nil => simp [characters, isWord] at formed
    | cons c rest =>
      simp only [characters, isWord, Bool.and_eq_true, Bool.not_eq_true', bne_iff_ne] at formed
      obtain ⟨⟨⟨inner, bar⟩, quote⟩, inside⟩ := formed
      have proper : ¬(Text.isBlank c = true ∨ c = '(' ∨ c = ')') :=
        fun broken => absurd (isBreak_iff.2 broken) (by simp [inner])
      simp only [not_or] at proper
      obtain ⟨blank, opening, closing⟩ := proper
      have complete := run_atom [c] between inside ends
      rw [List.reverse_singleton, List.singleton_append, ← characters,
        String.ofList_toList] at complete
      rw [List.cons_append, run_cons, first, between_of_ordinary ⟨opening, closing, bar, quote⟩,
        if_neg blank]
      exact complete
  | symbol name =>
    have complete : ({ r with mode := .symbol [] } : Reader).run (name.toList ++ '|' :: text) = _ :=
      run_symbol [] between formed
    rw [List.reverse_nil, List.nil_append, String.ofList_toList] at complete
    rw [Token.text, List.cons_append, List.append_assoc, run_cons, first]
    exact complete
  | literal characters =>
    have complete := run_literal [] characters.toList between ends
    rw [List.reverse_nil, List.nil_append, String.ofList_toList] at complete
    rw [Token.text, List.cons_append, List.append_assoc, run_cons, first]
    exact complete

theorem run_spaced {tokens : List Token} (between : r.mode = .between)
    (spaced : Spaced tokens text) : r.run text = (tokens.foldlM feed r).bind finish := by
  induction spaced generalizing r with
  | @done gap blank =>
    have read : r.run (gap ++ []) = r.run [] := run_gap between blank
    rw [List.append_nil] at read
    rw [read]
    rfl
  | token blank formed ends _ ih =>
    rw [run_gap between blank, run_token between formed ends, List.foldlM_cons]
    cases fed : r.feed _ with
    | none => rfl
    | some next => exact ih ((mode_feed fed).trans between)

/-! ### Trees -/

theorem foldl_push_inner (items opened : List Tree) (inner : List OpenList) (outermost : OpenList)
    (mode : Mode) : items.foldl push ⟨opened :: inner, outermost, mode⟩ =
      ⟨(items.reverse ++ opened) :: inner, outermost, mode⟩ := by
  induction items generalizing opened with
  | nil => rfl
  | cons tree items ih => simp [push, ih]

theorem foldl_push_outermost (forest : List Tree) (outermost : OpenList) (mode : Mode) :
    forest.foldl push ⟨[], outermost, mode⟩ = ⟨[], forest.reverse ++ outermost, mode⟩ := by
  induction forest generalizing outermost with
  | nil => rfl
  | cons tree forest ih => simp [push, ih]

/-- Feeding the tokens of trees adds the trees. -/
theorem foldlM_feed {forest : List Tree} {tokens : List Token} (spells : Spells forest tokens) :
    tokens.foldlM feed r = some (forest.foldl push r) := by
  induction spells generalizing r with
  | nil => rfl
  | word _ ih | symbol _ ih | literal _ ih => exact ih
  | @list items forest inside tokens _ _ within later =>
    have opened : (r.feed .opening).bind (fun next => inside.foldlM feed next) =
        some { r with inner := items.reverse :: r.inner } := by
      rw [feed, Option.bind_some, within, foldl_push_inner, List.append_nil]
    have closed : ({ r with inner := items.reverse :: r.inner } : Reader).feed .closing =
        some (r.push (.list items)) := by
      simp only [feed, List.reverse_reverse]
    rw [List.foldlM_cons, List.foldl_cons, ← later]
    simp only [List.foldlM_append, List.foldlM_cons, Option.bind_eq_bind]
    rw [← Option.bind_assoc, opened, Option.bind_some, closed, Option.bind_some]

end Reader

/-- The text is read as the trees that its tokens spell. -/
theorem trees_of_spaced {forest : List Tree} {tokens : List Token} {text : List Char}
    (spells : Spells forest tokens) (spaced : Spaced tokens text) : trees text = some forest := by
  have read : trees text = (tokens.foldlM Reader.feed {}).bind Reader.finish :=
    Reader.run_spaced rfl spaced
  rw [read, Reader.foldlM_feed spells, Reader.foldl_push_outermost]
  simp [Reader.finish]

/-! ### Numerals -/

/-- The characters of a number that is not negative. -/
theorem toList_toString {n : Int} (natural : 0 ≤ n) :
    (toString n).toList = Nat.toDigits 10 n.toNat := by
  rw [Int.toString_eq_repr, Int.repr_eq_if, if_pos natural, Nat.toList_repr]

theorem isDigit_of_mem_toString {n : Int} (natural : 0 ≤ n) :
    ∀ c ∈ (toString n).toList, c.isDigit = true := by
  intro c member
  rw [toList_toString natural] at member
  exact Nat.isDigit_of_mem_toDigits (by decide) (by decide) member

theorem exists_toList_toString {n : Int} (natural : 0 ≤ n) :
    ∃ c rest, (toString n).toList = c :: rest := by
  apply List.exists_cons_of_ne_nil
  rw [toList_toString natural]
  exact Nat.toDigits_ne_nil

theorem isBreak_of_isDigit {c : Char} (digit : c.isDigit = true) : isBreak c = false := by
  have range : 48 ≤ c.toNat ∧ c.toNat ≤ 57 := by
    simpa [Char.isDigit, UInt32.le_iff_toNat_le] using digit
  have opening : c ≠ '(' := by
    rintro rfl
    exact absurd range (by decide)
  have closing : c ≠ ')' := by
    rintro rfl
    exact absurd range (by decide)
  simp only [isBreak, Text.isBlank, Bool.or_eq_false_iff, Bool.and_eq_false_iff,
    decide_eq_false_iff_not, beq_eq_false_iff_ne]
  refine ⟨⟨?_, opening⟩, closing⟩
  omega

theorem isWord_toString {n : Int} (natural : 0 ≤ n) : isWord (toString n).toList = true := by
  obtain ⟨c, rest, characters⟩ := exists_toList_toString natural
  have digits := isDigit_of_mem_toString natural
  rw [characters] at digits ⊢
  have first := digits c (by simp)
  simp only [isWord, Bool.and_eq_true, Bool.not_eq_true', bne_iff_ne, List.all_eq_true]
  refine ⟨⟨⟨isBreak_of_isDigit first, ?_⟩, ?_⟩, ?_⟩
  · rintro rfl
    exact absurd first (by decide)
  · rintro rfl
    exact absurd first (by decide)
  · intro d member
    exact isBreak_of_isDigit (digits d (List.mem_cons_of_mem c member))

theorem readDigits_eq {digits : List Char} (all : ∀ c ∈ digits, c.isDigit = true) (n : Nat) :
    Text.readDigits n digits = some (Nat.ofDigitChars 10 digits n) := by
  induction digits generalizing n with
  | nil => rfl
  | cons c rest ih =>
    have digit := all c (by simp)
    have other : c ≠ '_' := by
      rintro rfl
      exact absurd digit (by decide)
    rw [Text.readDigits, if_pos digit, Nat.ofDigitChars_cons]
    · exact ih (fun d member => all d (List.mem_cons_of_mem c member)) _
    · exact other

theorem readNat_toString {n : Int} (natural : 0 ≤ n) :
    Text.readNat (toString n).toList = some n.toNat := by
  obtain ⟨c, rest, characters⟩ := exists_toList_toString natural
  have digits := isDigit_of_mem_toString natural
  have first := digits c (characters ▸ List.mem_cons_self)
  rw [characters, Text.readNat, if_pos first, ← characters,
    readDigits_eq digits, toList_toString natural,
    Nat.ofDigitChars_toDigits (by decide) (by decide)]

theorem readInt_toString {n : Int} (natural : 0 ≤ n) :
    Text.readInt (toString n).toList = some n := by
  have read := readNat_toString natural
  have digits := isDigit_of_mem_toString natural
  obtain ⟨c, rest, characters⟩ := exists_toList_toString natural
  rw [characters] at read digits ⊢
  have first := digits c List.mem_cons_self
  unfold Text.readInt
  split
  · rename_i same
    rw [(List.cons.inj same).1] at first
    exact absurd first (by decide)
  · rename_i same
    rw [(List.cons.inj same).1] at first
    exact absurd first (by decide)
  · rw [read]
    exact congrArg some (Int.toNat_of_nonneg natural)

/-! ### Texts -/

variable {t : Token} {tokens : List Token} {text : List Char}

theorem Separated.endsBefore (separated : Separated text) (t : Token) : t.EndsBefore text := by
  cases t with
  | word _ => exact separated
  | literal _ =>
    cases text with
    | nil => simp [Token.EndsBefore]
    | cons c text =>
      intro same
      have broken : isBreak c = true := separated
      rw [Option.some.inj same] at broken
      exact absurd broken (by decide)
  | opening | closing | symbol _ => trivial

/-- No white space stands before the first token. -/
theorem Spaced.first (formed : t.WellFormed) (ends : t.EndsBefore text)
    (spaced : Spaced tokens text) : Spaced (t :: tokens) (t.text ++ text) := by
  have gap : ([] : List Char).all Text.isBlank = true := rfl
  exact .token gap formed ends spaced

theorem Spaced.cons (formed : t.WellFormed) (separated : Separated text)
    (spaced : Spaced tokens text) : Spaced (t :: tokens) (t.text ++ text) :=
  spaced.first formed (separated.endsBefore t)

theorem Spaced.blank {c : Char} (blank : Text.isBlank c = true) (spaced : Spaced tokens text) :
    Spaced tokens (c :: text) := by
  cases spaced with
  | done gap => exact .done (by simp [blank, gap])
  | @token gap rest t tokens before formed ends later =>
    rw [← List.cons_append]
    exact .token (by simp [blank, before]) formed ends later

theorem Spaced.opening (spaced : Spaced tokens text) :
    Spaced (.opening :: tokens) ('(' :: text) :=
  spaced.first trivial trivial

theorem Spaced.closing (spaced : Spaced tokens text) :
    Spaced (.closing :: tokens) (')' :: text) :=
  spaced.first trivial trivial

/-- A constant as tokens. -/
def constantTokens : Constant → List Token
  | .int n =>
    if n < 0 then [.opening, .word "-", .word (toString (-n)), .closing] else [.word (toString n)]
  | .bool true => [.word "true"]
  | .bool false => [.word "false"]
  | .str text => [.literal text]

/-- The tree that a constant is read as. -/
def constantTree : Constant → Tree
  | .int n =>
    if n < 0 then .list [.atom "-", .atom (toString (-n))] else .atom (toString n)
  | .bool true => .atom "true"
  | .bool false => .atom "false"
  | .str text => .string text

theorem Spells.constant (c : Constant) {forest : List Tree} (spells : Spells forest tokens) :
    Spells (constantTree c :: forest) (constantTokens c ++ tokens) := by
  cases c with
  | int n =>
    simp only [constantTree, constantTokens]
    by_cases negative : n < 0
    · rw [if_pos negative, if_pos negative]
      exact .list (.word (.word .nil)) spells
    · rw [if_neg negative, if_neg negative]
      exact .word spells
  | bool b =>
    cases b with
    | false => exact .word spells
    | true => exact .word spells
  | str text => exact .literal spells

theorem toList_stringLiteral (characters : String) :
    (stringLiteral characters).toList = (Token.literal characters).text := by
  have quotes : ∀ c : Char, (if c = '"' then "\"\"" else c.toString).toList =
      if c = '"' then ['"', '"'] else [c] := by
    intro c
    by_cases quote : c = '"'
    · rw [if_pos quote, if_pos quote]
      rfl
    · rw [if_neg quote, if_neg quote]
      simp
  simp only [stringLiteral, Token.text, doubleQuotes, String.toList_append, String.toList_join,
    List.flatMap_map, quotes]
  rfl

theorem Spaced.constant (c : Constant) (separated : Separated text) (spaced : Spaced tokens text) :
    Spaced (constantTokens c ++ tokens) ((constantTerm c).toList ++ text) := by
  cases c with
  | int n =>
    simp only [constantTokens, constantTerm]
    by_cases negative : n < 0
    · have characters : ("(- " ++ toString (-n) ++ ")").toList ++ text =
          '(' :: ("-".toList ++ ' ' :: ((toString (-n)).toList ++ ')' :: text)) := by
        simp
      have digits : (Token.word (toString (-n))).WellFormed := isWord_toString (by omega)
      rw [if_pos negative, if_pos negative, characters]
      apply Spaced.opening
      apply Spaced.cons (t := .word "-") (by decide) (by rfl)
      apply Spaced.blank (by decide)
      exact .cons digits rfl spaced.closing
    · rw [if_neg negative, if_neg negative]
      exact .cons (isWord_toString (by omega)) separated spaced
  | bool b =>
    cases b with
    | false => exact .cons (t := .word "false") (by decide) separated spaced
    | true => exact .cons (t := .word "true") (by decide) separated spaced
  | str characters =>
    rw [constantTerm, toList_stringLiteral]
    exact .cons trivial separated spaced

theorem wellFormed_sort (type : DataType) : (Token.word (sort type)).WellFormed := by
  cases type <;> decide

theorem toList_symbol (v : Variable) :
    (symbol v).toList = (Token.symbol (symbolName v)).text := by
  simp [symbol, Token.text]

theorem wellFormed_symbol (v : Variable) : (Token.symbol (symbolName v)).WellFormed := by
  intro member
  rw [symbolName, String.toList_ofList, List.mem_map] at member
  obtain ⟨c, _, same⟩ := member
  by_cases bar : c = '|'
  · rw [if_pos bar] at same
    exact absurd same (by decide)
  · rw [if_neg bar] at same
    exact bar same

theorem Spaced.cons_symbol (v : Variable) (separated : Separated text)
    (spaced : Spaced tokens text) :
    Spaced (.symbol (symbolName v) :: tokens) ((symbol v).toList ++ text) := by
  rw [toList_symbol]
  exact .cons (wellFormed_symbol v) separated spaced

end EventCheck.SmtLib
