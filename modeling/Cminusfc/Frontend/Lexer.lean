import Cminusfc.Lib.Lexing
import Cminusfc.Frontend.NodeNames

/-!
# The lexer

Model of `lexical_analyzer.l`: the rules in the order of the source, their actions on `lines`,
`pos_start` and `pos_end`, and `yylex`, which takes the longest match of a rule, by the first rule
that has it, until an action returns.

A character of the input is a `Char`. `strlen` and the loop of `comments` stop at a NUL.

Source: `src/parser/lexical_analyzer.l` 15-88, `parse` in `src/parser/syntax_analyzer.y` 198-217,
`tests/parser/lexer.c`. Out of scope: the buffers of flex and the message for an unknown character.
-/

namespace Cminusfc.Frontend.Lexer

open Lexing (Regex scan text)
open Lexing.Regex

/-! ## Rules -/

/-- What a rule does. -/
inductive Action where
  | newLine
  | routine (token : Token)
  | comments
  | blank
  | unknown
  deriving Repr, DecidableEq

def newlineChar : Char := Char.ofNat 10

/-- One character. -/
def one (c : Char) : Regex Char := char fun d => d = c

/-- The characters of a string. -/
def lit (s : String) : Regex Char := word s.toList

/-- `[a-zA-Z]`. -/
def letter : Regex Char := char Char.isAlpha

/-- `[0-9]`. -/
def digit : Regex Char := char Char.isDigit

/-- `.`. -/
def dot : Regex Char := char fun c => c ≠ newlineChar

/-- `[\r\n]`. -/
def lineEnd : Regex Char := char fun c => c = Char.ofNat 13 || c = newlineChar

/-- `[^*]|[\r\n]|(\*+([^*/]|[\r\n]))`. -/
def commentPart : Regex Char :=
  alt (char fun c => c ≠ '*')
    (alt lineEnd (seq (plus (one '*')) (alt (char fun c => c ≠ '*' && c ≠ '/') lineEnd)))

/-- `\*+\/`. -/
def commentEnd : Regex Char := seq (plus (one '*')) (one '/')

/-- The rule of a block comment. -/
def blockComment : Regex Char := seq (lit "/*") (seq (star commentPart) commentEnd)

/-- The rule of a comment up to the end of the line. -/
def lineComment : Regex Char := seq (lit "//") (star dot)

/-- `[0-9]+\.|[0-9]*\.[0-9]+`. -/
def floatpoint : Regex Char :=
  alt (seq (plus digit) (one '.')) (seq (star digit) (seq (one '.') (plus digit)))

/-- The rules that return a token. -/
def tokenRules : List (Regex Char × Token) :=
  [(lit "+", .ADD), (lit "-", .MINUS), (lit "*", .MUL), (lit "/", .DIV), (lit "=", .ASSIGN),
    (lit ",", .COLON), (lit ";", .SEMICOLON), (lit "<=", .LE), (lit ">=", .GE), (lit "==", .EQ),
    (lit "!=", .NEQ), (lit "<", .LT), (lit ">", .GT), (lit "(", .LPAREN), (lit ")", .RPAREN),
    (lit "[", .LBRACKET), (lit "]", .RBRACKET), (lit "\x7b", .LCURLY), (lit "\x7d", .RCURLY),
    (lit "int", .INT_T), (lit "void", .VOID_T), (lit "float", .FLOAT_T), (lit "if", .IF),
    (lit "else", .ELSE), (lit "while", .WHILE), (lit "return", .RETURN), (plus letter, .ID),
    (floatpoint, .FLOATPOINT), (plus digit, .INTEGER)]

/-- The rules. -/
def rules : List (Regex Char × Action) :=
  (one newlineChar, .newLine) :: tokenRules.map (fun r => (r.1, .routine r.2)) ++
    [(blockComment, .comments), (lineComment, .comments),
      (char fun c => c = ' ' || c = Char.ofNat 9 || c = Char.ofNat 13, .blank), (dot, .unknown)]

/-- A match: the action of its rule, and `yytext`. -/
abbrev Match := Action × List Char

/-- The matches of a text. -/
def lexemes (input : List Char) : List Match := scan rules input

/-! ## Actions -/

/-- `lines`, `pos_start` and `pos_end`. -/
structure Counters where
  lines : Nat
  posStart : Nat
  posEnd : Nat
  deriving Repr, DecidableEq

/-- The characters in front of the NUL. -/
def cText (str : List Char) : List Char := str.takeWhile (· ≠ nul)

/-- `new_line`. -/
def newLine (c : Counters) : Counters := ⟨c.lines + 1, 0, 0⟩

/-- The loop of `comments`. -/
def commentChar (c : Counters) (x : Char) : Counters :=
  if x = newlineChar then newLine c else { c with posEnd := c.posEnd + 1 }

/-- `comments`. -/
def comments (c : Counters) (str : List Char) : Counters :=
  (cText str).foldl commentChar { c with posStart := c.posEnd }

/-- The positions `routine` sets, and those of a blank. -/
def routine (c : Counters) (yytext : List Char) : Counters :=
  { c with posStart := c.posEnd, posEnd := c.posEnd + (cText yytext).length }

/-- What an action does to the counters. -/
def act (c : Counters) (m : Match) : Counters :=
  match m.1 with
  | .newLine => newLine c
  | .routine _ | .blank => routine c m.2
  | .comments => comments c m.2
  | .unknown => { c with posStart := c.posEnd, posEnd := c.posEnd + 1 }

/-- What `yylex` returns, and leaves behind. -/
structure Return where
  token : Token
  yytext : List Char
  counters : Counters
  rest : List Match
  deriving DecidableEq

/-- `yylex`, in front of the given matches; `none` at the end of the input. -/
def yylex : Counters → List Match → Option Return
  | _, [] => none
  | c, m :: rest =>
    match m.1 with
    | .routine t => some ⟨t, m.2, act c m, rest⟩
    | _ => yylex (act c m) rest

/-- `n` calls of `yylex`, as far as the input goes. -/
def calls : Nat → Counters → List Match → List Return
  | 0, _, _ => []
  | n + 1, c, ms =>
    match yylex c ms with
    | some r => r :: calls n r.counters r.rest
    | none => []

/-- The tokens with their texts. -/
def tokens (ms : List Match) : List (Token × List Char) :=
  ms.filterMap fun m =>
    match m.1 with
    | .routine t => some (t, m.2)
    | _ => none

/-- The counters in front of the input of the stand-alone driver. -/
def lexerStart : Counters := ⟨1, 0, 0⟩

/-- The counters `parse` sets. -/
def parseStart : Counters := ⟨1, 1, 1⟩

/-- Who calls `yylex`. -/
inductive Driver where
  | lexer
  | parse
  deriving DecidableEq

/-- The counters in front of the input. -/
def Driver.start : Driver → Counters
  | .lexer => lexerStart
  | .parse => parseStart

end Cminusfc.Frontend.Lexer
