import Daybook.Tree.Basic
import Daybook.Tree.Parser

/-!
# The grammar of a journal

Model of the rules from `status` to `journal_item` and of `skip_item` ([SPEC 4.2], [SPEC 15]). There
is one parser for each rule. An item is chosen by its first token, and every rule takes as many
optional parts and content lines as it can. The first line of a commodity may lack its break;
virtual accounts cannot be declared, and a default commodity has no format lines.

Results:
* `item_takes`: an item takes at least one token, so a journal is read in finitely many steps.
-/

namespace Daybook.Tree.Grammar

open Daybook.Tree.Parser

/-- `*` or `!` -/
def status : Parser Token := satisfy fun kind => kind = .asterisk || kind = .exclamation

/-- An account of any kind. -/
def account : Parser Token := satisfy Kind.isAccount

/-- `name:`, then perhaps a value, then perhaps a comma. -/
def tag : Parser Tag := do
  let name ← token .tagName
  let colon ← token .tagColon
  let value ← maybe (token .tagValue)
  let comma ← maybe (token .tagComma)
  return ⟨name, colon, value, comma⟩

/-- Tags and free text after a semicolon. -/
def comment : Parser Comment := do
  let semicolon ← token .semicolon
  let parts ← many (orElse (.tag <$> tag) (.text <$> token .inlineText))
  return ⟨semicolon, parts⟩

/-- A commodity, perhaps with a dash before it, and a number. -/
def commodityFirst : Parser Amount := do
  let dash ← maybe (token .dash)
  let commodity ← token .commodity
  let number ← token .number
  return ⟨dash, some commodity, number⟩

/-- A number, and perhaps a commodity. -/
def numberFirst : Parser Amount := do
  let number ← token .number
  let commodity ← maybe (token .commodity)
  return ⟨none, commodity, number⟩

/-- An amount in either order. -/
def amount : Parser Amount := orElse commodityFirst numberFirst

/-- `@` or `@@` -/
def lotSigns : Parser (Token × Option Token) := do
  let sign ← token .atSign
  let second ← maybe (token .atSign)
  return (sign, second)

/-- `@` or `@@` in parentheses, with the parentheses. -/
def virtualLotSigns : Parser (Option (Token × Token) × Token × Option Token) := do
  let opening ← token .openParen
  let signs ← lotSigns
  let closing ← token .closeParen
  return (some (opening, closing), signs)

/-- The signs of a lot price and the price. -/
def lotPrice : Parser LotPrice := do
  let (parens, sign, second) ← orElse virtualLotSigns ((none, ·) <$> lotSigns)
  let amount ← amount
  return ⟨parens, sign, second, amount⟩

/-- `=` or `==`, perhaps `*`, and a balance. -/
def assertion : Parser Assertion := do
  let sign ← token .equals
  let second ← maybe (token .equals)
  let asterisk ← maybe (token .asterisk)
  let amount ← amount
  return ⟨sign, second, asterisk, amount⟩

/-- An account and what may stand around it. -/
def posting : Parser Posting := do
  let status ← maybe status
  let account ← account
  let amount ← maybe amount
  let lotPrice ← maybe lotPrice
  let assertion ← maybe assertion
  let comment ← maybe comment
  return ⟨status, account, amount, lotPrice, assertion, comment⟩

/-- A content line with this on it. -/
def line {α : Type} (body : Parser α) : Parser (Line α) := do
  let indent ← token .indent
  let body ← body
  let newline ← token .newline
  return ⟨indent, body, newline⟩

/-- `=` and a date. -/
def secondDate : Parser SecondDate := do
  let equals ← token .equals
  let date ← token .date
  return ⟨equals, date⟩

/-- A bar and perhaps a text. -/
def memo : Parser Memo := do
  let pipe ← token .pipe
  let text ← maybe (token .text)
  return ⟨pipe, text⟩

/-- A text and perhaps a memo. -/
def description : Parser Description := do
  let text ← token .text
  let memo ← maybe memo
  return ⟨text, memo⟩

/-- A posting or a comment. -/
def content : Parser Content := orElse (.posting <$> posting) (.comment <$> comment)

/-- A transaction with all content lines under it. -/
def transaction : Parser Transaction := do
  let date ← token .date
  let secondDate ← maybe secondDate
  let status ← maybe status
  let chequeNumber ← maybe (token .chequeNumber)
  let description ← maybe description
  let comment ← maybe comment
  let newline ← token .newline
  let lines ← many (line content)
  return ⟨date, secondDate, status, chequeNumber, description, comment, newline, lines⟩

/-- A line that is a comment. -/
def lineComment : Parser LineComment := do
  let marker ← token .commentMarker
  let text ← maybe (token .commentText)
  let newline ← token .newline
  return ⟨marker, text, newline⟩

/-- The price of a commodity on a day. -/
def priceDirective : Parser PriceDirective := do
  let keyword ← token .priceKeyword
  let date ← token .date
  let commodity ← token .commodity
  let amount ← amount
  let comment ← maybe comment
  let newline ← token .newline
  return ⟨keyword, date, commodity, amount, comment, newline⟩

/-- A real account; the other kinds are refused. -/
def declaredAccount : Parser Token := orElse (token .realAccount) (refuse account .virtualAccount)

/-- The declaration of an account with the comments under it. -/
def accountDirective : Parser AccountDirective := do
  let keyword ← token .accountKeyword
  let account ← declaredAccount
  let trailing ← maybe comment
  let newline ← token .newline
  let lines ← many (line comment)
  return ⟨keyword, account, trailing, newline, lines⟩

/-- An amount, or a commodity alone. -/
def declaration : Parser Declaration := orElse (.amount <$> amount) (.name <$> token .commodity)

/-- `format` and an amount. -/
def format : Parser Format := do
  let keyword ← token .formatKeyword
  let amount ← amount
  return ⟨keyword, amount⟩

/-- A format or a comment. -/
def commodityContent : Parser CommodityContent :=
  orElse (.format <$> format) (.comment <$> comment)

/-- The declaration of a commodity with the lines under it. -/
def commodityDirective : Parser CommodityDirective := do
  let keyword ← token .commodityKeyword
  let declaration ← declaration
  let comment ← maybe comment
  let newline ← maybe (token .newline)
  let lines ← many (line commodityContent)
  return ⟨keyword, declaration, comment, newline, lines⟩

/-- A comment; a format is refused. -/
def defaultContent : Parser Comment := orElse comment (refuse (token .formatKeyword) .formatLine)

/-- The default commodity with the comments under it. -/
def defaultDirective : Parser DefaultDirective := do
  let keyword ← token .defaultKeyword
  let amount ← amount
  let comment ← maybe comment
  let newline ← token .newline
  let lines ← many (line defaultContent)
  return ⟨keyword, amount, comment, newline, lines⟩

/-- An item of a journal. All rules are tried, so that all their failures are known. -/
def item : Parser Item :=
  orElse (.transaction <$> transaction) <|
  orElse (.lineComment <$> lineComment) <|
  orElse (.price <$> priceDirective) <|
  orElse (.account <$> accountDirective) <|
  orElse (.commodity <$> commodityDirective) (.defaultCommodity <$> defaultDirective)

/-- The tokens up to the end of the line. -/
def restOfLine : Parser (List Token) := many (satisfy (· ≠ .newline))

/-- An indented line, whatever it holds. -/
def brokenLine : Parser Unit := do
  let _ ← token .indent
  let _ ← restOfLine
  let _ ← maybe (token .newline)
  return ()

/-- What is given up with a token that starts no item: the rest of its line, and all indented lines
after it. -/
def brokenRest : Parser Unit := do
  let _ ← restOfLine
  let _ ← maybe (token .newline)
  let _ ← many brokenLine
  return ()

/-! ## Every item takes a token -/

instance : Takes tag := by unfold tag; infer_instance

instance : Takes comment := by unfold comment; infer_instance

instance : Takes commodityFirst where
  isSuffix_tail h := by
    obtain ⟨dash, mid, hdash, hrest⟩ := result_bind h
    have hmid := (maybe (token .dash)).isSuffix hdash
    have htail := Takes.isSuffix_tail hrest
    exact ⟨htail.1.trans hmid, Nat.lt_of_lt_of_le htail.2 hmid.length_le⟩

instance : Takes numberFirst := by unfold numberFirst; infer_instance

instance : Takes amount := by unfold amount; infer_instance

instance : Takes lotSigns := by unfold lotSigns; infer_instance

instance : Takes virtualLotSigns := by unfold virtualLotSigns; infer_instance

instance : Takes lotPrice := by unfold lotPrice; infer_instance

instance : Takes assertion := by unfold assertion; infer_instance

instance : Takes secondDate := by unfold secondDate; infer_instance

instance : Takes memo := by unfold memo; infer_instance

instance : Takes description := by unfold description; infer_instance

instance : Takes status := by unfold status; infer_instance

instance : Takes account := by unfold account; infer_instance

instance : Keeps posting := by unfold posting; infer_instance

instance : Keeps content := by unfold content; infer_instance

instance {α : Type} (body : Parser α) [Keeps body] : Takes (line body) := by
  unfold line; infer_instance

instance : Takes transaction := by unfold transaction; infer_instance

instance : Takes lineComment := by unfold lineComment; infer_instance

instance : Takes priceDirective := by unfold priceDirective; infer_instance

instance : Takes declaredAccount := by unfold declaredAccount; infer_instance

instance : Takes accountDirective := by unfold accountDirective; infer_instance

instance : Takes format := by unfold format; infer_instance

instance : Takes declaration := by unfold declaration; infer_instance

instance : Takes commodityContent := by unfold commodityContent; infer_instance

instance : Takes commodityDirective := by unfold commodityDirective; infer_instance

instance : Takes defaultContent := by unfold defaultContent; infer_instance

instance : Takes defaultDirective := by unfold defaultDirective; infer_instance

/-- **An item takes at least one token.** -/
instance item_takes : Takes item := by unfold item; infer_instance

instance : Keeps restOfLine := by unfold restOfLine; infer_instance

instance : Takes brokenLine := by unfold brokenLine; infer_instance

instance : Keeps brokenRest := by unfold brokenRest; infer_instance

end Daybook.Tree.Grammar
