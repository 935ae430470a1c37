/-
  The splitter of structure dumps (src/utils/split-sql-statements.js): a loop over the characters of
  a script with five flags, which looks one character back and one ahead.

  * A script is given by its statements, and a statement by its tokens: string literals, quoted
    identifiers, comments and other characters. A line comment ends with its newline, so none is the
    last text of a script.
-/
import Velocious.Foundation.Javascript
import Mathlib.Data.List.TakeWhile

namespace Velocious.SplitSqlStatements

open Foundation List

/-- The quotes. -/
inductive Quote where
  | single
  | double
  | backtick
  deriving DecidableEq

def Quote.char : Quote → Char
  | single => .ofNat 0x27
  | double => .ofNat 0x22
  | backtick => .ofNat 0x60

theorem Quote.forall {p : Quote → Prop} : (∀ quote, p quote) ↔ p single ∧ p double ∧ p backtick :=
  ⟨fun h => ⟨h _, h _, h _⟩, fun h quote => by cases quote <;> simp [h]⟩

/-! ## The code -/

/-- What the splitter is inside of. -/
structure Modes where
  inSingleQuote : Bool
  inDoubleQuote : Bool
  inBacktick : Bool
  inLineComment : Bool
  inBlockComment : Bool

/-- What the loop does with a character. -/
inductive Turn where
  | next (modes : Modes)
  | pair (modes : Modes)
  | close

def turn (m : Modes) (previousChar : Option Char) (char : Char) (nextChar : Option Char) : Turn :=
  if m.inLineComment then .next (if char = '\n' then { m with inLineComment := false } else m)
  else if m.inBlockComment then
    .next (if previousChar = some '*' ∧ char = '/' then { m with inBlockComment := false } else m)
  else if (!m.inSingleQuote && !m.inDoubleQuote && !m.inBacktick) ∧
      char = '-' ∧ nextChar = some '-' then .next { m with inLineComment := true }
  else if (!m.inSingleQuote && !m.inDoubleQuote && !m.inBacktick) ∧
      char = '/' ∧ nextChar = some '*' then .next { m with inBlockComment := true }
  else if char = Quote.single.char ∧ (!m.inDoubleQuote && !m.inBacktick) ∧
      previousChar ≠ some '\\' then
    if m.inSingleQuote ∧ nextChar = some Quote.single.char then .pair m
    else .next { m with inSingleQuote := !m.inSingleQuote }
  else if char = Quote.double.char ∧ (!m.inSingleQuote && !m.inBacktick) ∧
      previousChar ≠ some '\\' then
    if m.inDoubleQuote ∧ nextChar = some Quote.double.char then .pair m
    else .next { m with inDoubleQuote := !m.inDoubleQuote }
  else if char = Quote.backtick.char ∧ (!m.inSingleQuote && !m.inDoubleQuote) ∧
      previousChar ≠ some '\\' then .next { m with inBacktick := !m.inBacktick }
  else if char = ';' ∧ (!m.inSingleQuote && !m.inDoubleQuote && !m.inBacktick) then .close
  else .next m

/-- `current.trim()`, if something is left of it. -/
def trimmed (current : List Char) : List String :=
  [trim (.ofList current)].filter (· ≠ "")

/-- The rest of the loop. -/
def scan (m : Modes) (previousChar : Option Char) (current : List Char) : List Char → List String
  | [] => trimmed current
  | char :: rest =>
    match turn m previousChar char rest.head? with
    | .next m' => scan m' (some char) (current ++ [char]) rest
    | .pair m' =>
      match rest with
      | [] => trimmed (current ++ [char])
      | nextChar :: rest' => scan m' (some nextChar) (current ++ [char, nextChar]) rest'
    | .close => trimmed (current ++ [char]) ++ scan m (some char) [] rest

def Modes.plain : Modes := ⟨false, false, false, false, false⟩

def splitSqlStatements (sql : String) : List String := scan .plain none [] sql.toList

/-! ## Statements -/

/-- How a quote is written inside a string literal. -/
inductive Dialect where
  | doubling
  | backslash

/-- What stands between two delimiting quotes. -/
inductive Item where
  | char (c : Char)
  | escaped (c : Char)
  | doubled

/-- A token of a script. -/
inductive Token where
  | quoted (quote : Quote) (items : List Item)
  | lineComment (body : List Char)
  | blockComment (body : List Char)
  | other (c : Char)

def Dialect.escapes : Dialect → Quote → Prop
  | backslash, .single => True
  | backslash, .double | backslash, .backtick | doubling, _ => False

def Item.Valid (d : Dialect) (quote : Quote) : Item → Prop
  | char c => c ≠ quote.char ∧ (d.escapes quote → c ≠ '\\')
  | escaped _ => d.escapes quote
  | doubled => True

def Item.text (quote : Quote) : Item → List Char
  | char c => [c]
  | escaped c => ['\\', c]
  | doubled => [quote.char, quote.char]

def Token.Valid (d : Dialect) : Token → Prop
  | quoted quote items => ∀ item ∈ items, item.Valid d quote
  | lineComment body => '\n' ∉ body
  | blockComment body => ¬['*', '/'] <:+: body
  | other c => (∀ quote : Quote, c ≠ quote.char) ∧ c ≠ ';'

def closing (quote : Quote) (items : List Item) : List Char :=
  items.flatMap (Item.text quote) ++ [quote.char]

def Token.text : Token → List Char
  | quoted quote items => quote.char :: closing quote items
  | lineComment body => '-' :: '-' :: (body ++ ['\n'])
  | blockComment body => '/' :: '*' :: (body ++ ['*', '/'])
  | other c => [c]

def text (tokens : List Token) : List Char := tokens.flatMap Token.text

/-- No other character begins a comment with what stands behind it. -/
def Apart : List Token → Prop
  | [] => True
  | token :: tokens =>
    (token = .other '-' → (text tokens).head? ≠ some '-') ∧
      (token = .other '/' → (text tokens).head? ≠ some '*') ∧ Apart tokens

/-- A statement without its semicolon. -/
structure Statement (d : Dialect) where
  tokens : List Token
  valid : ∀ token ∈ tokens, token.Valid d
  apart : Apart tokens

variable {d : Dialect}

/-- The statements, joined by a semicolon and a newline. -/
def script : List (Statement d) → List Char
  | [] => []
  | [s] => text s.tokens
  | s :: t :: statements => text s.tokens ++ ';' :: '\n' :: script (t :: statements)

/-- The statements, each trimmed and with its semicolon; blanks behind the last semicolon are no
statement. -/
def terminated : List (Statement d) → List String
  | [] => []
  | [s] => [trim (.ofList (text s.tokens))].filter (· ≠ "")
  | s :: t :: statements =>
    trim (.ofList (text s.tokens ++ [';'])) :: terminated (t :: statements)

/-- No quote that is doubled, or closes, stands directly behind a backslash. -/
def Unescaped (quote : Quote) : Option Char → List Item → Prop
  | previousChar, [] => previousChar ≠ some '\\'
  | _, .char c :: items => Unescaped quote (some c) items
  | _, .escaped c :: items => Unescaped quote (some c) items
  | previousChar, .doubled :: items =>
    previousChar ≠ some '\\' ∧ Unescaped quote (some quote.char) items

def Token.Clean (previousChar : Option Char) : Token → Prop
  | quoted quote items => previousChar ≠ some '\\' ∧ Unescaped quote (some quote.char) items
  | blockComment body => body.head? ≠ some '/'
  | lineComment _ | other _ => True

/-- No delimiting quote stands directly behind a backslash, and no block comment begins with a
slash. -/
def Clean : Option Char → List Token → Prop
  | _, [] => True
  | previousChar, token :: tokens =>
    token.Clean previousChar ∧ Clean token.text.getLast? tokens

/-! ## One character -/

def Quote.modes : Quote → Modes
  | single => { Modes.plain with inSingleQuote := true }
  | double => { Modes.plain with inDoubleQuote := true }
  | backtick => { Modes.plain with inBacktick := true }

section
variable {previousChar nextChar : Option Char} {quote : Quote} {c : Char}

theorem turn_open (h : previousChar ≠ some '\\') :
    turn .plain previousChar quote.char nextChar = .next quote.modes := by
  cases quote <;> simp [turn, Modes.plain, Quote.modes, Quote.char, h]

theorem turn_inside (h : c ≠ quote.char ∨ previousChar = some '\\') :
    turn quote.modes previousChar c nextChar = .next quote.modes := by
  cases quote <;> rcases h with h | h <;>
    simp_all [turn, Modes.plain, Quote.modes]

theorem turn_pair (h : previousChar ≠ some '\\') (hquote : quote ≠ .backtick) :
    turn quote.modes previousChar quote.char (some quote.char) = .pair quote.modes := by
  cases quote <;> simp_all [turn, Modes.plain, Quote.modes]

theorem turn_close (h : previousChar ≠ some '\\')
    (hnext : quote = .backtick ∨ nextChar ≠ some quote.char) :
    turn quote.modes previousChar quote.char nextChar = .next .plain := by
  cases quote <;> simp_all [turn, Modes.plain, Quote.modes]

theorem turn_other (hquote : ∀ quote : Quote, c ≠ quote.char) (hc : c ≠ ';')
    (hline : c = '-' → nextChar ≠ some '-') (hblock : c = '/' → nextChar ≠ some '*') :
    turn .plain previousChar c nextChar = .next .plain := by
  simp [turn, Modes.plain, hquote .single, hquote .double, hquote .backtick, hc,
    not_and.mpr hline, not_and.mpr hblock]

theorem turn_semicolon : turn .plain previousChar ';' nextChar = .close := by
  simp [turn, Modes.plain, Quote.char]

def inLineComment : Modes := { Modes.plain with inLineComment := true }

def inBlockComment : Modes := { Modes.plain with inBlockComment := true }

theorem turn_lineComment :
    turn .plain previousChar '-' (some '-') = .next inLineComment := by
  simp [turn, Modes.plain, inLineComment]

theorem turn_blockComment :
    turn .plain previousChar '/' (some '*') = .next inBlockComment := by
  simp [turn, Modes.plain, inBlockComment]

theorem turn_inLineComment :
    turn inLineComment previousChar c nextChar =
      .next (if c = '\n' then .plain else inLineComment) := by
  simp [turn, Modes.plain, inLineComment]

theorem turn_inBlockComment :
    turn inBlockComment previousChar c nextChar =
      .next (if previousChar = some '*' ∧ c = '/' then .plain else inBlockComment) := by
  simp [turn, Modes.plain, inBlockComment]

end

/-! ## Tokens -/

/-- From a mode, `scan` reads a text that ends outside quotes and comments. -/
def Reads (m : Modes) (previousChar : Option Char) (read rest : List Char) : Prop :=
  ∀ current, ∃ previousChar',
    scan m previousChar current (read ++ rest) = scan .plain previousChar' (current ++ read) rest

section
variable {m m' : Modes} {previousChar : Option Char} {quote : Quote} {c c' : Char}
  {read rest body : List Char} {items : List Item} {token : Token} {tokens : List Token}

variable {current : List Char}

theorem scan_next (h : turn m previousChar c rest.head? = .next m') :
    scan m previousChar current (c :: rest) = scan m' (some c) (current ++ [c]) rest := by
  simp only [scan, h]

theorem scan_pair (h : turn m previousChar c (some c') = .pair m') :
    scan m previousChar current (c :: c' :: rest) =
      scan m' (some c') (current ++ [c, c']) rest := by
  simp only [scan, head?_cons, h]

theorem scan_semicolon : scan .plain previousChar current (';' :: rest) =
      trimmed (current ++ [';']) ++ scan .plain (some ';') [] rest := by
  simp only [scan, turn_semicolon]

theorem reads_nil : Reads .plain previousChar [] rest :=
  fun current => ⟨previousChar, by rw [append_nil]; rfl⟩

theorem Reads.next (hturn : turn m previousChar c (read ++ rest).head? = .next m')
    (h : Reads m' (some c) read rest) : Reads m previousChar (c :: read) rest := by
  intro current
  obtain ⟨p, hp⟩ := h (current ++ [c])
  refine ⟨p, ?_⟩
  rw [cons_append, scan_next hturn, hp, append_assoc, singleton_append]

theorem Reads.pair (hturn : turn m previousChar c (some c') = .pair m')
    (h : Reads m' (some c') read rest) : Reads m previousChar (c :: c' :: read) rest := by
  intro current
  obtain ⟨p, hp⟩ := h (current ++ [c, c'])
  refine ⟨p, ?_⟩
  rw [cons_append, cons_append, scan_pair hturn, hp, append_assoc]
  rfl

theorem reads_lineComment (hbody : '\n' ∉ body) (h : Reads .plain (some '\n') read rest) :
    Reads inLineComment previousChar (body ++ '\n' :: read) rest := by
  induction body generalizing previousChar with
  | nil => exact .next (turn_inLineComment.trans (by rw [if_pos rfl])) h
  | cons c body ih =>
    rw [mem_cons, not_or] at hbody
    exact .next (turn_inLineComment.trans (by rw [if_neg (Ne.symm hbody.1)])) (ih hbody.2)

theorem reads_blockComment (hbody : ¬['*', '/'] <:+: body)
    (hhead : previousChar = some '*' → body.head? ≠ some '/')
    (h : Reads .plain (some '/') read rest) :
    Reads inBlockComment previousChar (body ++ '*' :: '/' :: read) rest := by
  induction body generalizing previousChar with
  | nil =>
    refine .next (turn_inBlockComment.trans (by rw [if_neg (by simp)])) ?_
    exact .next (turn_inBlockComment.trans (by rw [if_pos ⟨rfl, rfl⟩])) h
  | cons c body ih =>
    have hopen : ¬(previousChar = some '*' ∧ c = '/') := by
      rintro ⟨hstar, rfl⟩
      exact hhead hstar rfl
    refine .next (turn_inBlockComment.trans (by rw [if_neg hopen])) (ih ?_ ?_)
    · exact fun hinfix => hbody (infix_cons hinfix)
    · rintro hstar hslash
      cases hstar
      obtain ⟨body', rfl⟩ := head?_eq_some_iff.mp hslash
      exact hbody ⟨[], body', rfl⟩

theorem reads_closing {d : Dialect} (hvalid : ∀ item ∈ items, item.Valid d quote)
    (hclean : Unescaped quote previousChar items)
    (h : ∀ p, p ≠ some '\\' → Reads quote.modes p (quote.char :: read) rest) :
    Reads quote.modes previousChar (closing quote items ++ read) rest := by
  induction items generalizing previousChar with
  | nil => exact h previousChar hclean
  | cons item items ih =>
    rw [forall_mem_cons] at hvalid
    cases item with
    | char c => exact .next (turn_inside (.inl hvalid.1.1)) (ih hvalid.2 hclean)
    | escaped c =>
      refine .next (turn_inside (.inl ?_)) (.next (turn_inside (.inr rfl)) (ih hvalid.2 hclean))
      cases quote <;> simp [Quote.char]
    | doubled =>
      obtain ⟨hprevious, hclean⟩ := hclean
      have hread := ih hvalid.2 hclean
      by_cases hquote : quote = .backtick
      · subst hquote
        -- each of the two is taken for a quote of its own
        refine .next (turn_close hprevious (.inl rfl)) (.next (turn_open ?_) hread)
        simp [Quote.char]
      · exact .pair (turn_pair hprevious hquote) hread

variable {d : Dialect}

theorem quote_char_injective {q : Quote} (h : quote.char = q.char) : quote = q := by
  revert h
  cases quote <;> cases q <;> simp [Quote.char]

theorem quote_char_ne : quote.char ≠ '-' ∧ quote.char ≠ '/' ∧ quote.char ≠ '\\' ∧
    quote.char ≠ ';' := by
  cases quote <;> simp [Quote.char]

theorem eq_quoted_of_head (hvalid : token.Valid d)
    (h : (token.text ++ read).head? = some quote.char) : ∃ items, token = .quoted quote items := by
  obtain ⟨hdash, hslash, -, -⟩ := @quote_char_ne quote
  cases token with
  | quoted q items => exact ⟨items, by rw [quote_char_injective (Option.some.inj h)]⟩
  | lineComment body => exact absurd (Option.some.inj h).symm hdash
  | blockComment body => exact absurd (Option.some.inj h).symm hslash
  | other c => exact absurd (Option.some.inj h) (hvalid.1 quote)

theorem last_quoted : (Token.quoted quote items).text.getLast? = some quote.char := by
  rw [Token.text, closing, ← cons_append, getLast?_concat]

theorem last_lineComment : (Token.lineComment body).text.getLast? = some '\n' := by
  rw [Token.text, ← cons_append, ← cons_append, getLast?_concat]

theorem last_blockComment : (Token.blockComment body).text.getLast? = some '/' := by
  have htext : (Token.blockComment body).text = ('/' :: '*' :: (body ++ ['*'])) ++ ['/'] := by
    simp [Token.text]
  rw [htext, getLast?_concat]

theorem head_append_ne (hne : read.head? ≠ some c)
    (hrest : rest.head? = none ∨ rest.head? = some ';') (hc : c ≠ ';') :
    (read ++ rest).head? ≠ some c := by
  cases read with
  | nil => rcases hrest with h | h <;> simp [h, hc.symm]
  | cons a read => exact hne

/-- **The tokens of a statement are read as what they are**, up to the semicolon or the end; the
second part is for tokens that begin at the closing quote of one before them, which with an opening
quote right behind it is taken for a doubled one. -/
theorem reads_text (hvalid : ∀ token ∈ tokens, token.Valid d) (hapart : Apart tokens)
    (hrest : rest.head? = none ∨ rest.head? = some ';') :
    (∀ {p}, Clean p tokens → Reads .plain p (text tokens) rest) ∧
      ∀ {quote : Quote} {p}, p ≠ some '\\' → Clean (some quote.char) tokens →
        Reads quote.modes p (quote.char :: text tokens) rest := by
  induction tokens with
  | nil =>
    refine ⟨fun _ => reads_nil, fun {quote p} hp _ => .next (turn_close hp (.inr ?_)) reads_nil⟩
    exact head_append_ne (by simp [text]) hrest quote_char_ne.2.2.2
  | cons token tokens ih =>
    rw [forall_mem_cons] at hvalid
    obtain ⟨hline, hblock, hapart⟩ := hapart
    obtain ⟨hplain, hclosing⟩ := ih hvalid.2 hapart
    have htext : text (token :: tokens) = token.text ++ text tokens := flatMap_cons ..
    have hfirst : ∀ {p}, Clean p (token :: tokens) → Reads .plain p (text (token :: tokens)) rest := by
      rintro p ⟨htoken, htokens⟩
      rw [htext]
      cases token with
      | quoted quote items =>
        rw [last_quoted] at htokens
        exact .next (turn_open htoken.1)
          (reads_closing hvalid.1 htoken.2 fun p hp => hclosing hp htokens)
      | lineComment body =>
        rw [last_lineComment] at htokens
        have hread : Reads inLineComment (some '-') (body ++ '\n' :: text tokens) rest :=
          reads_lineComment hvalid.1 (hplain htokens)
        simp only [Token.text, cons_append, append_assoc]
        exact .next turn_lineComment (.next (turn_inLineComment.trans (by simp)) hread)
      | blockComment body =>
        rw [last_blockComment] at htokens
        have hread : Reads inBlockComment (some '*') (body ++ '*' :: '/' :: text tokens) rest :=
          reads_blockComment hvalid.1 (fun _ => htoken) (hplain htokens)
        simp only [Token.text, cons_append, append_assoc]
        exact .next turn_blockComment
          (.next (turn_inBlockComment.trans (by simp)) hread)
      | other c =>
        refine .next (turn_other hvalid.1.1 hvalid.1.2 ?_ ?_) (hplain htokens)
        · rintro rfl
          exact head_append_ne (hline rfl) hrest (by decide)
        · rintro rfl
          exact head_append_ne (hblock rfl) hrest (by decide)
    refine ⟨hfirst, fun {quote p} hp hclean => ?_⟩
    by_cases hpair : (text (token :: tokens) ++ rest).head? = some quote.char ∧ quote ≠ .backtick
    · -- the closing quote and the one that opens the next token are a pair
      obtain ⟨hhead, hquote⟩ := hpair
      rw [htext, append_assoc] at hhead
      obtain ⟨items, rfl⟩ := eq_quoted_of_head hvalid.1 hhead
      obtain ⟨htoken, htokens⟩ := hclean
      rw [last_quoted] at htokens
      exact .pair (turn_pair hp hquote)
        (reads_closing hvalid.1 htoken.2 fun p hp => hclosing hp htokens)
    · refine .next (turn_close hp ?_) (hfirst hclean)
      tauto

end

/-! ## Scripts -/

section
variable {d : Dialect} {s : Statement d} {statements : List (Statement d)}

/-- No delimiting quote of the statement stands directly behind a backslash, and none of its block
comments begins with a slash. -/
def Statement.Clean (s : Statement d) : Prop := SplitSqlStatements.Clean none s.tokens

theorem Clean.behind {previousChar : Option Char} {tokens : List Token} (h : Clean none tokens)
    (hprevious : previousChar ≠ some '\\') : Clean previousChar tokens := by
  cases tokens with
  | nil => trivial
  | cons token tokens =>
    refine ⟨?_, h.2⟩
    cases token with
    | quoted quote items => exact ⟨hprevious, h.1.2⟩
    | lineComment body => trivial
    | blockComment body => exact h.1
    | other c => trivial

theorem trim_lead {lead current : List Char} (h : ∀ c ∈ lead, isJsSpace c = true) :
    trim (.ofList (lead ++ current)) = trim (.ofList current) := by
  simp only [trim, String.toList_ofList, dropWhile_append_of_pos h]

theorem trim_ne_empty {current : List Char} {c : Char} (hc : c ∈ current)
    (hspace : isJsSpace c = false) : trim (.ofList current) ≠ "" := by
  intro h
  have hnil : (current.dropWhile isJsSpace).reverse.dropWhile isJsSpace = [] := by
    simpa [trim] using congrArg String.toList h
  have hmem : c ∈ current.dropWhile isJsSpace := by
    rw [← takeWhile_append_dropWhile (p := isJsSpace) (l := current)] at hc
    rcases mem_append.mp hc with hc | hc
    · rw [mem_takeWhile_imp hc] at hspace
      cases hspace
    · exact hc
  rw [dropWhile_eq_nil_iff] at hnil
  rw [hnil c (mem_reverse.mpr hmem)] at hspace
  cases hspace

theorem scan_script {lead : List Char} {previousChar : Option Char}
    (hlead : ∀ c ∈ lead, isJsSpace c = true) (hprevious : previousChar ≠ some '\\')
    (hclean : ∀ s ∈ statements, s.Clean) :
    scan .plain previousChar lead (script statements) = terminated statements := by
  induction statements generalizing lead previousChar with
  | nil =>
    have htrim := @trim_lead lead [] hlead
    rw [append_nil] at htrim
    rw [script, scan, trimmed, htrim]
    rfl
  | cons s statements ih =>
    rw [forall_mem_cons] at hclean
    cases statements with
    | nil =>
      obtain ⟨p, hp⟩ := (reads_text s.valid s.apart (.inl head?_nil)).1
        (hclean.1.behind hprevious) lead
      rw [append_nil] at hp
      rw [script, hp, scan, trimmed, trim_lead hlead]
      rfl
    | cons t statements =>
      obtain ⟨p, hp⟩ := (reads_text s.valid s.apart (.inr head?_cons)).1
        (hclean.1.behind hprevious) lead
      have hrest := @ih ['\n'] (some '\n') (by simp [isJsSpace]) (by simp) hclean.2
      have hnewline : turn .plain (some ';') '\n' (script (t :: statements)).head? =
          .next .plain := turn_other (fun q => by cases q <;> simp [Quote.char]) (by simp)
        (by simp) (by simp)
      have hkept : trimmed (lead ++ text s.tokens ++ [';']) =
          [trim (.ofList (text s.tokens ++ [';']))] := by
        rw [trimmed, append_assoc, trim_lead hlead, filter_cons_of_pos, filter_nil]
        exact decide_eq_true (trim_ne_empty (c := ';') (by simp) (by simp [isJsSpace]))
      rw [script, hp, scan_semicolon, scan_next hnewline, nil_append, hrest, hkept]
      rfl

/-- **The splitter gives back the statements**, in either dialect, if no delimiting quote stands
directly behind a backslash and no block comment begins with a slash. -/
theorem splitSqlStatements_script (h : ∀ s ∈ statements, s.Clean) :
    splitSqlStatements (.ofList (script statements)) = terminated statements := by
  rw [splitSqlStatements, String.toList_ofList]
  exact scan_script (by simp) (by simp) h

end

/-- A literal with an escaped and a doubled quote, and a statement with two comments. -/
theorem splitSqlStatements_escaped : ∃ first second : Statement .backslash,
    splitSqlStatements (.ofList (script [first, second])) = terminated [first, second] := by
  refine ⟨⟨[.other 'A', .quoted .single [.char ';', .escaped Quote.single.char, .doubled]], ?_, ?_⟩,
    ⟨[.other '-', .blockComment ['*', ';'], .other 'B', .lineComment [';']], ?_, ?_⟩,
    splitSqlStatements_script ?_⟩
  · simp [Token.Valid, Item.Valid, Dialect.escapes, Quote.char, Quote.forall]
  · simp [Apart]
  · simp [Token.Valid, Quote.char, Quote.forall, infix_cons_iff]
  · simp [Apart, text, Token.text]
  · simp [Statement.Clean, Clean, Token.Clean, Unescaped, Token.text, Quote.char]

/-- `SELECT '\'` swallows the statement behind it, in the dialect that doubles quotes. -/
theorem backslash_swallows : ∃ first second : Statement .doubling,
    splitSqlStatements (.ofList (script [first, second])) ≠ terminated [first, second] := by
  refine ⟨⟨"SELECT ".toList.map .other ++ [.quoted .single [.char '\\']], ?_, ?_⟩,
    ⟨"SELECT 2".toList.map .other, ?_, ?_⟩, ?_⟩
  · simp [Token.Valid, Item.Valid, Dialect.escapes, Quote.char, Quote.forall]
  · simp [Apart]
  · simp [Token.Valid, Quote.char, Quote.forall]
  · simp [Apart]
  · decide

/-- Two wrongs may make a right: the quote in the comment ends the literal. -/
example : splitSqlStatements "SELECT '\\' /* ' */;\nSELECT 2" =
    ["SELECT '\\' /* ' */;", "SELECT 2"] := by decide

end Velocious.SplitSqlStatements
