/-!
# Kinds of tokens

Model of `TokenKind` (`describe`, `starts_item`, `is_account`; [SPEC 11.2]): what a token of a
daybook can be. Some kinds stand at the start of a line and open an item of the journal; the others
follow from the line that they stand on.
-/

namespace Daybook

/-- What a token is. -/
inductive Kind
  /-- A line break. -/
  | newline
  /-- A date such as `2020/01/31` or `01-31`. -/
  | date
  /-- `P` at the start of a line. -/
  | priceKeyword
  /-- `account` at the start of a line. -/
  | accountKeyword
  /-- `commodity` at the start of a line. -/
  | commodityKeyword
  /-- `D` at the start of a line. -/
  | defaultKeyword
  /-- `format` under a commodity. -/
  | formatKeyword
  /-- The spaces and tabs before a content line. -/
  | indent
  /-- `;`, `#` or `*` at the start of a line. -/
  | commentMarker
  /-- The rest of a comment line. -/
  | commentText
  /-- `*` -/
  | asterisk
  /-- `!` -/
  | exclamation
  /-- A cheque number in parentheses. -/
  | chequeNumber
  /-- A description, a payee or a memo. -/
  | text
  /-- `|` between payee and memo. -/
  | pipe
  /-- `;` before an inline comment. -/
  | semicolon
  /-- Free text of an inline comment. -/
  | inlineText
  /-- The name of a tag. -/
  | tagName
  /-- `:` after the name of a tag. -/
  | tagColon
  /-- The value of a tag. -/
  | tagValue
  /-- `,` after the value of a tag. -/
  | tagComma
  /-- An account. -/
  | realAccount
  /-- An account in parentheses. -/
  | virtualAccount
  /-- An account in brackets. -/
  | balancedAccount
  /-- `-` apart from its number. -/
  | dash
  /-- A number. -/
  | number
  /-- A commodity, with or without quotes. -/
  | commodity
  /-- `@` -/
  | atSign
  /-- `(` -/
  | openParen
  /-- `)` -/
  | closeParen
  /-- `=` -/
  | equals
deriving DecidableEq, Repr

namespace Kind

/-- The kind in words. -/
def describe : Kind → String
  | newline => "line break"
  | date => "date"
  | priceKeyword => "'P'"
  | accountKeyword => "'account'"
  | commodityKeyword => "'commodity'"
  | defaultKeyword => "'D'"
  | formatKeyword => "'format'"
  | indent => "indentation"
  | commentMarker => "comment marker"
  | commentText => "comment text"
  | asterisk => "'*'"
  | exclamation => "'!'"
  | chequeNumber => "cheque number"
  | text => "description text"
  | pipe => "'|'"
  | semicolon => "';'"
  | inlineText => "comment text"
  | tagName => "tag name"
  | tagColon => "':'"
  | tagValue => "tag value"
  | tagComma => "','"
  | realAccount => "account name"
  | virtualAccount => "virtual account name"
  | balancedAccount => "balanced virtual account name"
  | dash => "'-'"
  | number => "number"
  | commodity => "commodity"
  | atSign => "'@'"
  | openParen => "'('"
  | closeParen => "')'"
  | equals => "'='"

/-- The kinds that open an item of the journal. -/
def opensItem : Kind → Bool
  | date | priceKeyword | accountKeyword | commodityKeyword | defaultKeyword | commentMarker => true
  | _ => false

/-- The three kinds of account names. -/
def isAccount : Kind → Bool
  | realAccount | virtualAccount | balancedAccount => true
  | _ => false

end Kind

end Daybook
