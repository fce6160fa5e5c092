import StackC.Text.Quoted

/-!
Tokens: the words of a source text, each with its kind, its text and the line it
stands on.
-/

namespace StackC

/-- The kind of a token. `other` stands for the numbers that no kind has. -/
inductive TokenKind where
  | eof
  | identifier | integer | character | string
  | int | char | short | long | unsigned | signed | void
  | ifWord | elseWord | whileWord | returnWord | breakWord | continueWord
  | printf
  | lbrace | rbrace | lparen | rparen | lbracket | rbracket
  | semicolon | comma
  | plus | minus | star | slash | percent | ampersand
  | assign
  | equal | notEqual | less | greater | lessEqual | greaterEqual
  | other (code : Int)
  deriving DecidableEq, Repr

namespace TokenKind

def name : TokenKind → Bytes
  | eof => text "EOF"
  | identifier => text "IDENTIFIER"
  | integer => text "INTEGER"
  | character => text "CHARACTER"
  | string => text "STRING"
  | int => text "INT"
  | char => text "CHAR"
  | short => text "SHORT"
  | long => text "LONG"
  | unsigned => text "UNSIGNED"
  | signed => text "SIGNED"
  | void => text "VOID"
  | ifWord => text "IF"
  | elseWord => text "ELSE"
  | whileWord => text "WHILE"
  | returnWord => text "RETURN"
  | breakWord => text "BREAK"
  | continueWord => text "CONTINUE"
  | printf => text "PRINTF"
  | lbrace => text "LBRACE"
  | rbrace => text "RBRACE"
  | lparen => text "LPAREN"
  | rparen => text "RPAREN"
  | lbracket => text "LBRACKET"
  | rbracket => text "RBRACKET"
  | semicolon => text "SEMICOLON"
  | comma => text "COMMA"
  | plus => text "PLUS"
  | minus => text "MINUS"
  | star => text "STAR"
  | slash => text "SLASH"
  | percent => text "PERCENT"
  | ampersand => text "AND"
  | assign => text "ASSIGN"
  | equal => text "EQUALS"
  | notEqual => text "NOT_EQ"
  | less => text "LESS"
  | greater => text "GREATER"
  | lessEqual => text "LESS_EQ"
  | greaterEqual => text "GREATER_EQ"
  | other n => text "TokenType(" ++ Numeral.decimal n ++ text ")"

def startsType : TokenKind → Bool
  | int | char | short | long | unsigned | signed | void => true
  | _ => false

def ofWord? (s : Bytes) : Option TokenKind :=
  if s == text "int" then some int
  else if s == text "char" then some char
  else if s == text "short" then some short
  else if s == text "long" then some long
  else if s == text "unsigned" then some unsigned
  else if s == text "signed" then some signed
  else if s == text "void" then some void
  else if s == text "if" then some ifWord
  else if s == text "else" then some elseWord
  else if s == text "while" then some whileWord
  else if s == text "return" then some returnWord
  else if s == text "break" then some breakWord
  else if s == text "continue" then some continueWord
  else if s == text "printf" then some printf
  else none

def ofPair? : Char → Char → Option TokenKind
  | '=', '=' => some equal
  | '!', '=' => some notEqual
  | '<', '=' => some lessEqual
  | '>', '=' => some greaterEqual
  | _, _ => none

def ofMark? : Char → Option TokenKind
  | '\x7b' => some lbrace
  | '\x7d' => some rbrace
  | '(' => some lparen
  | ')' => some rparen
  | '[' => some lbracket
  | ']' => some rbracket
  | ';' => some semicolon
  | ',' => some comma
  | '=' => some assign
  | '<' => some less
  | '>' => some greater
  | '+' => some plus
  | '-' => some minus
  | '*' => some star
  | '/' => some slash
  | '%' => some percent
  | '&' => some ampersand
  | _ => none

end TokenKind

/-- A token. The text of a string is its contents and that of a character is its
code in decimal; any other token has its spelling. -/
structure Token where
  kind : TokenKind
  lexeme : Bytes
  line : Int
  deriving DecidableEq, Repr

namespace Token

/-- What stands after the last token. -/
def afterLast : Token :=
  ⟨.eof, [], 0⟩

/-- A token on one line, in columns. -/
def render (t : Token) : Bytes :=
  padRight 10 t.kind.name ++ text " " ++ padRight 14 (quoted t.lexeme) ++
    text "  line " ++ Numeral.decimal t.line

end Token

end StackC
