/-!
# Tokens

The words of the expression language. The lexer knows more of them than expressions use: braces,
commas, names and the keywords of statements are tokens that the parser refuses where they stand.

* `TokenKind`, `Keyword` — the kinds of tokens;
* `Token` — a kind, the text it was read from and the line on which that text ends;
* `LexicalError` — text that is no token.
-/

namespace ExprMachine

/-- Words that are not names. -/
inductive Keyword where
  | andWord
  | classWord
  | elseWord
  | falseWord
  | forWord
  | funWord
  | ifWord
  | nilWord
  | orWord
  | printWord
  | returnWord
  | superWord
  | thisWord
  | trueWord
  | varWord
  | whileWord
  deriving DecidableEq, Repr

namespace Keyword

/-- All keywords. -/
def all : List Keyword :=
  [andWord, classWord, elseWord, falseWord, forWord, funWord, ifWord, nilWord, orWord, printWord,
    returnWord, superWord, thisWord, trueWord, varWord, whileWord]

/-- How a keyword is written. -/
def text : Keyword → String
  | andWord => "and"
  | classWord => "class"
  | elseWord => "else"
  | falseWord => "false"
  | forWord => "for"
  | funWord => "fun"
  | ifWord => "if"
  | nilWord => "nil"
  | orWord => "or"
  | printWord => "print"
  | returnWord => "return"
  | superWord => "super"
  | thisWord => "this"
  | trueWord => "true"
  | varWord => "var"
  | whileWord => "while"

/-- The keyword that a word is. -/
def ofText? (word : List Char) : Option Keyword := all.find? fun k => k.text.toList == word

end Keyword

/-- The kinds of tokens. -/
inductive TokenKind where
  | leftParen
  | rightParen
  | leftBrace
  | rightBrace
  | comma
  | dot
  | minus
  | plus
  | semicolon
  | slash
  | star
  | bang
  | bangEqual
  | equal
  | equalEqual
  | greater
  | greaterEqual
  | less
  | lessEqual
  | identifier
  | string
  | number
  | keyword (word : Keyword)
  deriving DecidableEq, Repr

/-- A token. A string's text has its quotes, and its line is that of the closing one. -/
structure Token where
  kind : TokenKind
  text : List Char
  line : Nat
  deriving DecidableEq, Repr

/-- Text that is no token. -/
inductive LexicalError where
  | unexpectedCharacter
  | unterminatedString
  deriving DecidableEq, Repr

/-- The wording of a lexical error. -/
def LexicalError.message : LexicalError → String
  | unexpectedCharacter => "Unexpected character."
  | unterminatedString => "Unterminated string."

end ExprMachine
