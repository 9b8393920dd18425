import ChuSQL.Storage.Config

/-! Page files as the rest of the storage layer sees them: a growable array of
fixed-length pages. The buffer pool, its eviction and the page journal lie
below this boundary. -/

set_option autoImplicit false

namespace ChuSQL.Storage

/-- A byte. Machine integers wider than a byte are natural numbers. -/
abbrev Byte := Fin 256

abbrev Bytes := List Byte

inductive IoErrorKind where
  | invalidInput
  | invalidData
  | notFound
  | alreadyExists
  | unexpectedEof
  | other
deriving Repr, DecidableEq

structure IoError where
  kind : IoErrorKind
  message : String
deriving Repr, DecidableEq

/-- `io::Error::other`. -/
def IoError.ofMessage (message : String) : IoError := ⟨.other, message⟩

/-- A model recursion that ran out of fuel; the source has no such error. -/
def IoError.fuel : IoError := .ofMessage "fuel exhausted"

abbrev PageId := Nat

structure PageFile (Page : Type) where
  pageSize : Nat
  pages : List Page
deriving Repr, DecidableEq

namespace PageFile

variable {Page Value : Type}

def numPages (file : PageFile Page) : PageId := file.pages.length

def withPage (file : PageFile Page) (id : PageId) (read : Page → Value) :
    Except IoError Value :=
  match file.pages[id]? with
  | none => .error ⟨.unexpectedEof, "failed to fill whole buffer"⟩
  | some page => .ok (read page)

def updatePage (file : PageFile Page) (id : PageId) (change : Page → Except IoError Page) :
    Except IoError (PageFile Page) :=
  match file.pages[id]? with
  | none => .error ⟨.unexpectedEof, "failed to fill whole buffer"⟩
  | some page => do
      let changed ← change page
      .ok { file with pages := file.pages.set id changed }

/-- A page is appended zeroed; `zero` is what a zeroed page decodes to. -/
def appendPage (file : PageFile Page) (zero : Page) : PageId × PageFile Page :=
  (file.numPages, { file with pages := file.pages ++ [zero] })

/-- Pages are written at most one past the end. -/
def writePage (file : PageFile Page) (id : PageId) (page : Page) : PageFile Page :=
  if id < file.numPages then { file with pages := file.pages.set id page }
  else { file with pages := file.pages ++ [page] }

def truncate (file : PageFile Page) : PageFile Page := { file with pages := [] }

@[simp] theorem numPages_eq (file : PageFile Page) : file.numPages = file.pages.length := rfl

theorem withPage_of_getElem? {file : PageFile Page} {id : PageId} {page : Page}
    (found : file.pages[id]? = some page) (read : Page → Value) :
    file.withPage id read = .ok (read page) := by
  simp [withPage, found]

theorem updatePage_of_getElem? {file : PageFile Page} {id : PageId} {page changed : Page}
    {change : Page → Except IoError Page}
    (found : file.pages[id]? = some page) (accepted : change page = .ok changed) :
    file.updatePage id change = .ok { file with pages := file.pages.set id changed } := by
  simp [updatePage, found, accepted, bind, Except.bind]

end PageFile

end ChuSQL.Storage
