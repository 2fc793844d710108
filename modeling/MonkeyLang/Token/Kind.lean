/-!
# Kinds of tokens

The lexical categories of the language.  Each kind has a `tag`, the one-word name under which it is
listed, and a `description`, the phrase by which a diagnostic refers to it.  `Kind.ofWord` tells the
keywords from the identifiers, and `Kind.ofSymbol` gives the kind of a character that is a token by
itself.
-/

namespace MonkeyLang

/-- A lexical category. -/
inductive Kind where
  | illegal
  | endOfInput
  | identifier
  | integer
  | assign
  | plus
  | minus
  | bang
  | asterisk
  | slash
  | less
  | greater
  | equal
  | notEqual
  | comma
  | semicolon
  | leftParen
  | rightParen
  | leftBrace
  | rightBrace
  | functionWord
  | letWord
  | trueWord
  | falseWord
  | ifWord
  | elseWord
  | returnWord
deriving DecidableEq, Repr, Inhabited

namespace Kind

/-- Every kind, in the order in which kinds are listed. -/
def all : List Kind :=
  [illegal, endOfInput, identifier, integer, assign, plus, minus, bang, asterisk, slash, less,
    greater, equal, notEqual, comma, semicolon, leftParen, rightParen, leftBrace, rightBrace,
    functionWord, letWord, trueWord, falseWord, ifWord, elseWord, returnWord]

theorem mem_all (kind : Kind) : kind ∈ all := by
  cases kind <;> decide

/-- The one-word name of a kind. -/
def tag : Kind → String
  | illegal => "Illegal"
  | endOfInput => "Eof"
  | identifier => "Ident"
  | integer => "Int"
  | assign => "Assign"
  | plus => "Plus"
  | minus => "Minus"
  | bang => "Bang"
  | asterisk => "Asterisk"
  | slash => "Slash"
  | less => "Lt"
  | greater => "Gt"
  | equal => "Eq"
  | notEqual => "NotEq"
  | comma => "Comma"
  | semicolon => "Semicolon"
  | leftParen => "LParen"
  | rightParen => "RParen"
  | leftBrace => "LBrace"
  | rightBrace => "RBrace"
  | functionWord => "Function"
  | letWord => "Let"
  | trueWord => "True"
  | falseWord => "False"
  | ifWord => "If"
  | elseWord => "Else"
  | returnWord => "Return"

/-- The phrase by which a diagnostic refers to a kind: a symbol or keyword between quotes, and
words for the kinds that have no fixed spelling. -/
def description : Kind → String
  | illegal => "illegal character"
  | endOfInput => "end of input"
  | identifier => "identifier"
  | integer => "integer literal"
  | assign => "'='"
  | plus => "'+'"
  | minus => "'-'"
  | bang => "'!'"
  | asterisk => "'*'"
  | slash => "'/'"
  | less => "'<'"
  | greater => "'>'"
  | equal => "'=='"
  | notEqual => "'!='"
  | comma => "','"
  | semicolon => "';'"
  | leftParen => "'('"
  | rightParen => "')'"
  | leftBrace => "'\x7b'"
  | rightBrace => "'\x7d'"
  | functionWord => "'fn'"
  | letWord => "'let'"
  | trueWord => "'true'"
  | falseWord => "'false'"
  | ifWord => "'if'"
  | elseWord => "'else'"
  | returnWord => "'return'"

/-- The kind of a word: one of the seven keywords, or an identifier. -/
def ofWord (word : String) : Kind :=
  if word = "fn" then functionWord
  else if word = "let" then letWord
  else if word = "true" then trueWord
  else if word = "false" then falseWord
  else if word = "if" then ifWord
  else if word = "else" then elseWord
  else if word = "return" then returnWord
  else identifier

/-- The kind of a character that stands for itself; a character with no meaning in the language is
illegal. -/
def ofSymbol (c : Char) : Kind :=
  match c with
  | '=' => assign
  | '!' => bang
  | '+' => plus
  | '-' => minus
  | '*' => asterisk
  | '/' => slash
  | '<' => less
  | '>' => greater
  | ',' => comma
  | ';' => semicolon
  | '(' => leftParen
  | ')' => rightParen
  | '{' => leftBrace
  | '}' => rightBrace
  | _ => illegal

end Kind

end MonkeyLang
