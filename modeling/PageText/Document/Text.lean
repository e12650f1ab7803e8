import PageText.Document
import PageText.Extract.MarkedText

/-!
# The text of a document

Running a page needs its content first and its resources second, so of two faults
that of the content is reported. Pages are numbered from one. The text of a whole
document leaves out the pages that fail.
-/

namespace PageText.Document

/-- Run a page with a listener; the listener comes back with what it received. -/
def runPage {L : Type} [Listener L] (inflater : Inflater) (document : Document) (number : Nat)
    (limits : Limits) (listener : L) : Except Error L := do
  if number = 0 ∨ document.pages.length < number then
    throw (.pageNotFound number)
  let page ← document.page (number - 1)
  let content ← document.content inflater page
  let resources ← document.resources inflater page
  let processor := Processor.create ⟨.standard, limits⟩ .initial listener
  match processor.process content resources with
  | (_, some error) => throw error
  | (after, none) => pure after.listener

/-- The plain text of a page. -/
def pageText (inflater : Inflater) (document : Document) (number : Nat)
    (options : Extract.Options) (limits : Limits) : Except Error String :=
  Extract.PlainText.text <$>
    document.runPage inflater number limits (Extract.PlainText.empty options)

/-- The words of a page by marked content. -/
def pageSections (inflater : Inflater) (document : Document) (number : Nat)
    (options : Extract.Options) (limits : Limits) : Except Error (List Extract.Section) :=
  Extract.MarkedText.sections <$>
    document.runPage inflater number limits (Extract.MarkedText.empty options false)

/-- The plain text of every page that can be run, with its number, in page order. -/
def text (inflater : Inflater) (document : Document) : List (Nat × String) :=
  (List.range' 1 document.pages.length).filterMap fun number =>
    (document.pageText inflater number .default .default).toOption.map fun text => (number, text)

end PageText.Document
