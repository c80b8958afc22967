import TypedReads.Json.Basic
import TypedReads.Number.Numeral

/-!
# Tokens of a document

The lexical parts of a document and the codes of what can be wrong with it, both in its tokens
and in their order.
-/

namespace TypedReads

/-- What is wrong at some place of a document. -/
inductive SyntaxCode where
  | invalidSymbol
  | propertyNameExpected
  | valueExpected
  | colonExpected
  | commaExpected
  | closeBraceExpected
  | closeBracketExpected
  | endOfFileExpected
  | invalidCommentToken
  | unexpectedEndOfString
  | unexpectedEndOfNumber
  | invalidUnicode
  | invalidEscapeCharacter
  | invalidCharacter
  deriving DecidableEq

/-- The name of a code, as messages show it. -/
def SyntaxCode.name : SyntaxCode → String
  | invalidSymbol => "InvalidSymbol"
  | propertyNameExpected => "PropertyNameExpected"
  | valueExpected => "ValueExpected"
  | colonExpected => "ColonExpected"
  | commaExpected => "CommaExpected"
  | closeBraceExpected => "CloseBraceExpected"
  | closeBracketExpected => "CloseBracketExpected"
  | endOfFileExpected => "EndOfFileExpected"
  | invalidCommentToken => "InvalidCommentToken"
  | unexpectedEndOfString => "UnexpectedEndOfString"
  | unexpectedEndOfNumber => "UnexpectedEndOfNumber"
  | invalidUnicode => "InvalidUnicode"
  | invalidEscapeCharacter => "InvalidEscapeCharacter"
  | invalidCharacter => "InvalidCharacter"

/-- A token of a document. -/
inductive Token where
  | openBrace
  | closeBrace
  | openBracket
  | closeBracket
  | colon
  | comma
  /-- One of the words `null`, `true` and `false`. -/
  | word (value : Json)
  | number (numeral : Numeral)
  | string (value : Text)
  /-- A part of the text that is no token. -/
  | invalid (code : SyntaxCode)

/-- A token and the text from its first unit on, which places it in the document. -/
structure Lexeme where
  /-- The token. -/
  token : Token
  /-- The document from the token on. -/
  start : Text

end TypedReads
