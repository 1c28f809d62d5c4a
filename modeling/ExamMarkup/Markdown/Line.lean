import ExamMarkup.Markdown.Emphasis
import ExamMarkup.Text.Classes

/-!
# Lines

What a line is, by how it begins: a heading, an item of a list, or neither. Headings and items
have some content after their opening.
-/

namespace ExamMarkup.Markdown

inductive Line where
  | heading (level : Nat) (content : Text)
  | bullet (content : Text)
  | numbered (number content : Text)
  | other (content : Text)
  deriving DecidableEq, Repr

/-- What follows `opening` at the start of a line, if there is anything. -/
def content? (opening line : Text) : Option Text :=
  (Text.after? opening line).filter fun content => !content.isEmpty

def heading? (level : Nat) (line : Text) : Option Line :=
  (content? (List.replicate level '#' ++ [' ']) line).map (.heading level)

def bullet? (line : Text) : Option Line :=
  (['-', '*', '+'].findSome? fun mark => content? [mark, ' '] line).map .bullet

/-- A number is a run of decimal digits of any script. -/
def numbered? (line : Text) : Option Line :=
  let number := line.takeWhile Text.isDecimalDigit
  if number.isEmpty then none
  else (content? ['.', ' '] (line.dropWhile Text.isDecimalDigit)).map (.numbered number)

namespace Line

def ofText (line : Text) : Line :=
  ((heading? 3 line).or <| (heading? 2 line).or <| (heading? 1 line).or <|
    (bullet? line).or <| numbered? line).getD (.other line)

def headingElement (level : Nat) : Text := 'h' :: Text.decimal level

def html : Line → Text
  | heading level content =>
    ['<'] ++ headingElement level ++ ['>'] ++ content ++ "</".toList ++ headingElement level ++
      ['>']
  | bullet content => "<li>".toList ++ content ++ "</li>".toList
  | numbered number content =>
    "<li value=\"".toList ++ number ++ "\">".toList ++ content ++ "</li>".toList
  | other content => content

def count : Line → Nat
  | other _ => 0
  | _ => 1

end Line

end ExamMarkup.Markdown
