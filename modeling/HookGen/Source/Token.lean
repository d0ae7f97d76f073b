import HookGen.Text.Basic

/-!
Tokens of declaration sources. A token carries the blanks and comments in front of it, so the source
of any run of tokens can be written out again.
-/

namespace HookGen.Source

-- What may stand between tokens without a meaning of its own.
inductive Trivia
  | blank (text : Text)
  | comment (text : Text)
  deriving DecidableEq, Repr

def Trivia.text : Trivia → Text
  | .blank text => text
  | .comment text => text

-- Only blanks break a line: a comment of several lines does not end anything.
def Trivia.breaksLine : Trivia → Bool
  | .blank text => text.contains '\n'
  | .comment _ => false

-- Identifiers and keywords are words, operators and brackets are marks. The last token of every
-- source is the finish, which has no text.
inductive Kind
  | word
  | number
  | string
  | template
  | regex
  | mark
  | finish
  deriving DecidableEq, Repr

structure Token where
  lead : List Trivia
  kind : Kind
  text : Text
  deriving DecidableEq, Repr

-- Words behind which an expression goes on.
def operatorWords : List Text := [
  "return", "typeof", "instanceof", "in", "of", "new", "delete", "void", "throw", "case", "do",
  "else", "yield", "await", "extends", "as", "satisfies", "keyof", "default"].map Text.ofString

namespace Token

def isMark (text : Text) (token : Token) : Bool := token.kind == .mark && token.text == text

def isWord (text : Text) (token : Token) : Bool := token.kind == .word && token.text == text

def leadText (token : Token) : Text := token.lead.flatMap Trivia.text

-- Whether the token is the first of its line.
def startsLine (token : Token) : Bool := token.lead.any Trivia.breaksLine

-- Whether an expression can end with the token.
def endsOperand (token : Token) : Bool :=
  match token.kind with
  | .word => !operatorWords.contains token.text
  | .mark =>
    token.isMark ")" || token.isMark "]" || token.isMark "\x7d" || token.isMark "++" ||
      token.isMark "--"
  | _ => true

end Token

-- The source of a run of tokens, without what stands in front of the first.
def sourceText : List Token → Text
  | [] => []
  | token :: rest => token.text ++ rest.flatMap fun token => token.leadText ++ token.text

-- The tokens of a list that come before one of its tails.
def consumed (tokens rest : List Token) : List Token := tokens.take (tokens.length - rest.length)

end HookGen.Source
