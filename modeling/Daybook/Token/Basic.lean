import Daybook.Span
import Daybook.Token.Kind

/-!
# Tokens

Model of `Token` and `Payload` ([SPEC 11.1]). A token is a piece of source text with its kind and
its place. The length of a token is that of its text, so its span is known from the place alone.
That the text is the slice of the source at its span is proved of the tokenizer, not built in.
-/

namespace Daybook

/-- What a token means beyond its text. -/
inductive Payload
  /-- The names of an account path, the outermost first, without brackets. -/
  | segments (names : List String)
  /-- A commodity without its quotes, or a cheque number without its parentheses. -/
  | text (inner : String)
deriving DecidableEq, Repr

/-- A piece of the source that the grammar takes as one. -/
structure Token where
  /-- What it is. -/
  kind : Kind
  /-- The source text that it covers. -/
  image : String
  /-- Where it starts. -/
  place : Text.Place
  /-- What it means beyond its text, for accounts, commodities and cheque numbers. -/
  payload : Option Payload := none
deriving DecidableEq, Repr

namespace Token

/-- Bytes before the token. -/
def offset (t : Token) : Nat := t.place.offset

/-- Bytes in the token. -/
def length (t : Token) : Nat := Text.byteLength t.image.toList

/-- Bytes up to the end of the token. -/
def stop (t : Token) : Nat := t.offset + t.length

/-- The stretch of source that the token covers. -/
def span (t : Token) : Span := ⟨t.offset, t.stop⟩

/-- The names of an account path; a token that is no account has none. -/
def segments (t : Token) : List String :=
  match t.payload with
  | some (.segments names) => names
  | _ => []

/-- The inner text if there is one, else the whole. -/
def text (t : Token) : String :=
  match t.payload with
  | some (.text inner) => inner
  | _ => t.image

/-- How the token is named in a message: a kind that has no text worth showing by its kind alone. -/
def describe (t : Token) : String :=
  match t.kind with
  | .newline | .indent => t.kind.describe
  | kind => kind.describe ++ " '" ++ t.image ++ "'"

end Token

end Daybook
