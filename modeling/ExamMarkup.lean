import ExamMarkup.Main
import ExamMarkup.Page.OptionsJson
import ExamMarkup.Proofs.Formula.ControlSequence
import ExamMarkup.Proofs.Formula.Marker
import ExamMarkup.Proofs.Formula.Pieces
import ExamMarkup.Proofs.Markdown.LineByLine
import ExamMarkup.Proofs.Markdown.Unmask
import ExamMarkup.Proofs.Page.Balance
import ExamMarkup.Proofs.Page.Cursor
import ExamMarkup.Proofs.Page.Transparency
import ExamMarkup.Proofs.Question.Agreement
import ExamMarkup.Proofs.Question.Blanks
import ExamMarkup.Proofs.Question.Bodies
import ExamMarkup.Proofs.Question.Cleaned
import ExamMarkup.Proofs.Question.Roman
import ExamMarkup.Proofs.Settings.Reload
import ExamMarkup.Proofs.Store.Accounts
import ExamMarkup.Proofs.Store.Eviction
import ExamMarkup.Proofs.Store.History
import ExamMarkup.Proofs.Store.Recent
import ExamMarkup.Proofs.Store.Represented
